import MiniC.Proofs.Assembled

/-!
# Functions that run off their end

A function that runs off its end returns the value of its last call, or zero if it made none. Its code
returns whatever passed through `%eax` last. Both are read off the path of the activation here, so it
can be seen there whether they agree: they do if the body ends with taking the value of a call, and
they do not if anything else is computed after it.

The machine follows the run as long as the calls within it return what their code leaves in `%eax`.
-/

namespace MiniC

open Assembly (Line slotCount frameSize locate?)

/-! ## One activation -/

theorem Quad.leaves_held {table : Table} {frame : Activation} (quad : Quad) (held : Option Int32)
    (entry : Int32) : quad.leaves table frame (held.getD entry).toBitVec =
      (((quad.passed? table frame).or held).getD entry).toBitVec := by
  unfold Quad.leaves
  cases quad.passed? table frame <;> rfl

/-- The calls are answered by the machine, from a stack of at least `floor` bytes on. -/
def Machine.Answers (lines : List Line) (functions : String → Option Nat)
    (callee : String → List Int32 → Traced Int32) (good : String → List Int32 → Bool)
    (floor : Nat) : Prop :=
  ∀ {function : String} {arguments : List Int32} {value : Int32} {machine : Machine},
    functions function = some arguments.length → good function arguments →
    (callee function arguments).result = .ok value →
    Machine.Called lines function arguments machine → floor ≤ machine.cpu.rsp.toNat →
    ∃ last, Machine.Reaches lines machine last ∧ machine.Returned arguments.length value last

namespace Running

variable {running : Running} {functions : String → Option Nat} {lines : List Line} {arity : Nat}
  {exit : Label} {start : Nat} {assigned : List Nat} {returned : Bool} {p : Progress}
  {machine : Machine} {value : Int32} {steps : Nat} {path : List Taken}

/-- The machine takes the quadruples of a path, and comes back with what the path leaves in
`%eax`. -/
theorem Takes.leaves (takes : running.Takes value steps p path)
    {good : String → List Int32 → Bool} {origin : Machine} {slots floor : Nat} {held : Option Int32}
    (answers : Machine.Answers lines functions running.callee good floor)
    (emitted : running.Emitted functions lines arity exit start) (short : lines.length < memorySize)
    (apart : 8 ≤ origin.cpu.rsp.toNat)
    (meets : running.Meets start (origin.record arity slots) assigned returned p machine)
    (reads : Path.readsAssigned running.table assigned path) (areGood : Path.callsAll good path)
    (eax : machine.cpu.eax = (held.getD (.ofBitVec origin.cpu.eax)).toBitVec)
    (room : floor + 8 + 8 * steps ≤ machine.cpu.rsp.toNat) :
    ∃ last, Machine.Reaches lines machine last ∧ origin.Returned arity
      ((Path.held running.table held path).getD (.ofBitVec origin.cpu.eax)) last := by
  -- Along the path `%eax` is `held`, or what it was at the entry while nothing passed through it.
  induction takes generalizing assigned returned machine held with
  | ended atEnd isValue => exact meets.leaves emitted atEnd apart eax
  | proceeded found stepped later ih =>
    obtain ⟨reads, readsLater⟩ := Bool.and_eq_true_iff.1 reads
    obtain ⟨machine', reaches, meets', down, eax'⟩ :=
      meets.proceed emitted found reads (by omega) stepped
    rw [eax, Quad.leaves_held] at eax'
    obtain ⟨last, reaches', isBack⟩ := ih meets' readsLater areGood eax' (by omega)
    exact ⟨last, reaches.trans reaches', isBack⟩
  | @called _ _ _ _ _ _ callee arguments answer found stepped answered received later ih =>
    obtain ⟨_, readsLater⟩ := Bool.and_eq_true_iff.1 reads
    obtain ⟨isGood, areGood⟩ := Bool.and_eq_true_iff.1 areGood
    have realized : Machine.Realizes lines machine (.ok answer) _ :=
      meets.call emitted short found stepped (by omega) fun isKnown _ called room =>
        answers isKnown isGood answered called room
    obtain ⟨machine', reaches, q, received', meets', up, eax'⟩ := realized
    -- The machine went on where the path says.
    cases received.symm.trans received'
    rw [eax, Quad.leaves_held] at eax'
    obtain ⟨last, reaches', isBack⟩ := ih meets' readsLater areGood eax' (by omega)
    exact ⟨last, reaches.trans reaches', isBack⟩

end Running

namespace Listed

variable {table : Table} {code : Code} {functions : String → Option Nat} {lines : List Line}
  {steps depth : Nat} {function : String} {arguments : List Int32} {value : Int32}

/-- A call that has a value takes the quadruples of its path. -/
theorem takes (listed : Listed table code functions lines)
    (known : functions function = some arguments.length)
    (finishes : (code.callWithin table steps (depth + 1) function arguments).result = .ok value) :
    ∃ running : Running, ∃ exit start,
      running.Emitted functions lines arguments.length exit start ∧
      running.routine.name = function ∧ running.table = table ∧
      running.callee = code.callWithin table steps depth ∧
      running.Takes value steps
        ⟨0, 0, [], ⟨arguments.toArray, Array.replicate (slotCount table function) 0⟩⟩
        (code.pathWithin table steps depth function arguments) := by
  obtain ⟨body, targets, exit, start, assembled, collected, entered⟩ := listed.enter_eq known
  let running : Running :=
    ⟨⟨function, body, targets⟩, table, steps, code.callWithin table steps depth⟩
  refine ⟨running, exit, start, listed.emitted rfl assembled collected, rfl, rfl, rfl, ?_⟩
  rw [Code.callWithin, Traced.result_bind, Traced.result_ofExcept, entered, ok_bind] at finishes
  have takes : running.Takes value steps _ _ := Running.takes_path finishes
  unfold Code.pathWithin
  rw [entered]
  exact takes

/-- A call that runs off its end has the value of the last call that it makes. -/
theorem value_eq (listed : Listed table code functions lines)
    (known : functions function = some arguments.length)
    (finishes : (code.callWithin table steps (depth + 1) function arguments).result = .ok value)
    (runsOff : Path.runsOff (code.pathWithin table steps depth function arguments)) :
    value = Path.answer 0 (code.pathWithin table steps depth function arguments) := by
  obtain ⟨running, exit, start, _, _, _, _, takes⟩ := listed.takes known finishes
  exact takes.value_eq runsOff

/-- A call leaves in `%eax` what its path does. -/
theorem leaves (listed : Listed table code functions lines) (short : lines.length < memorySize)
    {size : Nat} (enough : 16 + frameSize (slotCount table function) + 8 * steps ≤ size)
    {good : String → List Int32 → Bool}
    (answers : Machine.Answers lines functions (code.callWithin table steps depth) good
      (depth * size))
    (known : functions function = some arguments.length)
    (finishes : (code.callWithin table steps (depth + 1) function arguments).result = .ok value)
    (reads : Path.readsAssigned table [] (code.pathWithin table steps depth function arguments))
    (areGood : Path.callsAll good (code.pathWithin table steps depth function arguments))
    {machine : Machine} (called : machine.Called lines function arguments)
    (room : (depth + 1) * size ≤ machine.cpu.rsp.toNat) :
    ∃ last, Machine.Reaches lines machine last ∧ machine.Returned arguments.length
      ((Path.held table none (code.pathWithin table steps depth function arguments)).getD
        (.ofBitVec machine.cpu.eax)) last := by
  obtain ⟨running, exit, start, emitted, rfl, rfl, isCallee, takes⟩ := listed.takes known finishes
  rw [← isCallee] at answers
  rw [Nat.succ_mul] at room
  obtain ⟨machine', reaches, meets, down, eax⟩ := emitted.enters called (by omega)
  -- Nothing has passed yet.
  have atEntry : machine'.cpu.eax =
      ((none : Option Int32).getD (.ofBitVec machine.cpu.eax)).toBitVec := eax
  obtain ⟨last, reaches', isBack⟩ := takes.leaves answers emitted short (by omega) meets reads
    areGood atEntry (by omega)
  exact ⟨last, reaches.trans reaches', isBack⟩

/-- Calls whose code leaves in `%eax` what they return are answered by the machine. -/
theorem answers (listed : Listed table code functions lines) (short : lines.length < memorySize)
    {size : Nat} (enough : ∀ {function : String} {arity : Nat}, functions function = some arity →
      16 + frameSize (slotCount table function) + 8 * steps ≤ size) :
    Machine.Answers lines functions (code.callWithin table steps depth)
      (fun function arguments =>
        code.everyWithin table steps (fun path _ => Path.readsAssigned table [] path) depth function
          arguments &&
        code.everyWithin table steps (fun path value => Path.held table none path == value) depth
          function arguments)
      (depth * size) := by
  induction depth with
  | zero =>
    intro function arguments value machine known isGood finishes
    cases finishes
  | succ depth ih =>
    intro function arguments value machine known isGood finishes called room
    obtain ⟨reads, keeps⟩ := Bool.and_eq_true_iff.1 isGood
    obtain ⟨reads, readsLater⟩ := Bool.and_eq_true_iff.1 reads
    obtain ⟨keeps, keepsLater⟩ := Bool.and_eq_true_iff.1 keeps
    have areGood := Path.callsAll_and readsLater keepsLater
    have left := listed.leaves short (enough known) ih known finishes reads areGood called room
    -- Something passed through `%eax`, so what it was at the entry does not matter.
    rw [finishes, beq_iff_eq] at keeps
    rw [keeps] at left
    exact left

end Listed

/-! ## Compiled programs -/

/-- A function of a compiled program comes back with what its path leaves in `%eax`. -/
theorem Compilation.leaves {compilation : Compilation} {functions : String → Option Nat}
    (listed : Listed compilation.table compilation.code functions compilation.listing)
    {function : String} {arguments : List Int32} {value : Int32}
    (known : functions function = some arguments.length)
    (finishes : (compilation.run function arguments).result = .ok value)
    (reads : compilation.readsAssigned function arguments)
    (keeps : compilation.callsKeep function arguments)
    {machine : Machine} (called : machine.Called compilation.listing function arguments)
    (room : compilation.listing.length + compilation.stackSize ≤ machine.cpu.rsp.toNat) :
    ∃ last, Machine.Reaches compilation.listing machine last ∧ machine.Returned arguments.length
      (compilation.left function arguments (.ofBitVec machine.cpu.eax)) last := by
  have inside : machine.cpu.rsp.toNat + 8 + 8 * arguments.length ≤ memorySize := called.inside
  have short : compilation.listing.length < memorySize := by omega
  obtain ⟨readsHere, readsLater⟩ := Bool.and_eq_true_iff.1 reads
  exact listed.leaves short (le_activationSize listed known)
    (listed.answers short (le_activationSize listed)) known finishes readsHere
    (Path.callsAll_and readsLater keeps) called (Nat.le_trans (Nat.le_add_left _ _) room)

/-- A function of an accepted program that runs off its end has the value of its last call, or zero if
it makes none, and the machine comes back to the caller with what passed through `%eax` last, or with
what was in it at the entry if nothing did. Both agree just if these are the same.

No function may have the name of a label, and no variable may be read before it was assigned. The
calls that are made must return what their code leaves in `%eax`. -/
theorem assembly_runs_off {source : String} {options : Options} {compilation : Compilation}
    (compiled : (compile source options).result = .ok compilation)
    (oneLine : '\n' ∉ options.fileName.toList)
    (apart : ∀ label : Label, label.text ∉ sourceNames source)
    {function : String} {arguments : List Int32}
    (defined : sourceArity? source function = some arguments.length) {value : Int32}
    (finishes : (compilation.run function arguments).result = .ok value)
    (reads : compilation.readsAssigned function arguments)
    (runsOff : Path.runsOff (compilation.path function arguments))
    (keeps : compilation.callsKeep function arguments) :
    Assembly.read? compilation.assembly = some compilation.listing ∧
      value = Path.answer 0 (compilation.path function arguments) ∧
      ∀ machine : Machine, machine.Called compilation.listing function arguments →
        compilation.listing.length + compilation.stackSize ≤ machine.cpu.rsp.toNat →
        ∃ last, Machine.Reaches compilation.listing machine last ∧
          machine.Returned arguments.length
            (compilation.left function arguments (.ofBitVec machine.cpu.eax)) last ∧
          (last.cpu.eax = value.toBitVec ↔
            compilation.left function arguments (.ofBitVec machine.cpu.eax) = value) := by
  obtain ⟨listed, readable⟩ := listed_of_compile compiled oneLine apart
  refine ⟨Assembly.read?_text readable, listed.value_eq defined finishes runsOff, ?_⟩
  intro machine called room
  obtain ⟨last, reaches, isBack⟩ := Compilation.leaves listed defined finishes reads keeps called room
  refine ⟨last, reaches, isBack, ?_⟩
  rw [isBack.eax, Int32.toBitVec_inj]

/-! ### Two functions that run off their end -/

/-- Labels do not clash with names that start with another letter. -/
theorem label_not_mem {names : List String} (others : names.all (·.toList.head? != some 'l'))
    (label : Label) : label.text ∉ names := by
  intro member
  have first : label.text.toList.head? = some 'l' := by
    unfold Label.text
    rw [String.toList_append]
    rfl
  have other := List.all_eq_true.1 others _ member
  rw [first] at other
  cases other

/-- A function that ends with taking the value of a call. -/
def takingSource : String :=
  "int minus(int a, int b) \x7b return a - b; \x7d
int take(int x, int y) \x7b int r; r = minus(x, y); \x7d
int main() \x7b return take(3, 5); \x7d"

theorem taking_runs_off :
    ∃ compilation machine last, (compile takingSource {}).result = .ok compilation ∧
      Path.runsOff (compilation.path "take" [3, 5]) ∧
      (compilation.run "take" [3, 5]).result = .ok (-2) ∧
      Machine.Called compilation.listing "take" [3, 5] machine ∧
      Machine.Reaches compilation.listing machine last ∧ machine.Returned 2 (-2) last := by
  have facts : (compile takingSource {}).result.toOption.any fun compilation =>
      compilation.readsAssigned "take" [3, 5] && compilation.callsKeep "take" [3, 5] &&
        Path.runsOff (compilation.path "take" [3, 5]) &&
        (compilation.run "take" [3, 5]).result.toOption.any (· == -2) &&
        compilation.left "take" [3, 5] 0 == -2 &&
        (locate? compilation.listing "take").isSome &&
        compilation.listing.length + compilation.stackSize ≤ 1099511627776 := by
    decide +kernel
  have names : (sourceNames takingSource).all (·.toList.head? != some 'l') := by decide +kernel
  have defined : sourceArity? takingSource "take" = some [(3 : Int32), 5].length := by decide +kernel
  obtain ⟨compilation, compiled, facts⟩ := exists_ok_of_any facts
  simp only [Bool.and_eq_true, beq_iff_eq, decide_eq_true_eq] at facts
  obtain ⟨⟨⟨⟨⟨⟨reads, keeps⟩, runsOff⟩, isValue⟩, left⟩, located⟩, room⟩ := facts
  obtain ⟨value, finishes, isValue⟩ := exists_ok_of_any isValue
  obtain rfl := eq_of_beq isValue
  obtain ⟨entry, isEntry⟩ := Option.isSome_iff_exists.1 located
  have called := called_powerMachine isEntry
  obtain ⟨_, _, leaves⟩ := assembly_runs_off compiled (by decide) (label_not_mem names) defined
    finishes reads runsOff keeps
  obtain ⟨last, reaches, isBack, _⟩ := leaves (powerMachine entry) called room
  -- At the entry `%eax` is zero.
  have isLeft : compilation.left "take" [3, 5] (.ofBitVec (powerMachine entry).cpu.eax) = -2 := left
  rw [isLeft] at isBack
  exact ⟨compilation, powerMachine entry, last, compiled, runsOff, finishes, called, reaches, isBack⟩

/-- A function that ends with an assignment, and makes no call. -/
def assigningSource : String :=
  "int main() \x7b int x; x = 5; \x7d"

/-- The value of a run need not be what its code leaves in `%eax`: here they are 0 and 5. -/
theorem assigning_runs_off :
    ∃ compilation machine last, (compile assigningSource {}).result = .ok compilation ∧
      (∀ label : Label, label.text ∉ sourceNames assigningSource) ∧
      (compilation.run "main" []).result = .ok 0 ∧ compilation.readsAssigned "main" [] ∧
      Path.runsOff (compilation.path "main" []) ∧
      Machine.Called compilation.listing "main" [] machine ∧
      compilation.listing.length + compilation.stackSize ≤ machine.cpu.rsp.toNat ∧
      Machine.Reaches compilation.listing machine last ∧ machine.Returned 0 5 last ∧
      last.cpu.eax ≠ (0 : Int32).toBitVec := by
  have facts : (compile assigningSource {}).result.toOption.any fun compilation =>
      compilation.readsAssigned "main" [] && compilation.callsKeep "main" [] &&
        Path.runsOff (compilation.path "main" []) &&
        (compilation.run "main" []).result.toOption.any (· == 0) &&
        compilation.left "main" [] 0 == 5 && (locate? compilation.listing "main").isSome &&
        compilation.listing.length + compilation.stackSize ≤ 1099511627776 := by
    decide +kernel
  have names : (sourceNames assigningSource).all (·.toList.head? != some 'l') := by decide +kernel
  have defined : sourceArity? assigningSource "main" = some ([] : List Int32).length := by
    decide +kernel
  obtain ⟨compilation, compiled, facts⟩ := exists_ok_of_any facts
  simp only [Bool.and_eq_true, beq_iff_eq, decide_eq_true_eq] at facts
  obtain ⟨⟨⟨⟨⟨⟨reads, keeps⟩, runsOff⟩, isValue⟩, left⟩, located⟩, room⟩ := facts
  obtain ⟨value, finishes, isValue⟩ := exists_ok_of_any isValue
  obtain rfl := eq_of_beq isValue
  obtain ⟨entry, isEntry⟩ := Option.isSome_iff_exists.1 located
  have called : Machine.Called compilation.listing "main" [] (powerMachine entry) := by
    refine ⟨isEntry, ?_, fun isArgument => ?_⟩
    · show 1099511627776 + 8 + 8 * 0 ≤ memorySize
      decide
    · cases isArgument
  obtain ⟨listed, _⟩ := listed_of_compile compiled (by decide) (label_not_mem names)
  obtain ⟨last, reaches, isBack⟩ := Compilation.leaves listed defined finishes reads keeps called room
  have isLeft : compilation.left "main" [] (.ofBitVec (powerMachine entry).cpu.eax) = 5 := left
  rw [isLeft] at isBack
  refine ⟨compilation, powerMachine entry, last, compiled, label_not_mem names, finishes, reads,
    runsOff, called, room, reaches, isBack, ?_⟩
  rw [isBack.eax]
  decide

end MiniC
