import MiniC.Proofs.Assigned
import MiniC.Proofs.Running

/-!
# What a run leaves in `%eax`

An activation returns what its accumulator holds, and that is the value returned last. The target has
no accumulator: there is only `%eax`, and nearly every quadruple takes a value through it. As long as
an activation ends by a return the difference does not show, for the return is the last to fill
`%eax`. Where it runs off its end, it does.

The quadruples that an activation takes are listed here in their order. What the accumulator holds at
the end, and what `%eax` holds, can both be read off that list.
-/

namespace MiniC

/-! ## Values that pass through `%eax` -/

namespace Quad

/-- The field whose value the lines of a quadruple leave in `%eax`, if they change it at all. -/
def passing? (quad : Quad) : Option Field :=
  match quad.op with
  | .param | .jumpIfNot => some .operand1
  | .ret => some .operand2
  | .assign | .uplus | .uminus | .plus | .minus | .mult | .div | .call => some .result
  -- A constant goes to its slot directly.
  | .load | .label | .jump => none

/-- The value that a quadruple leaves in `%eax`, where `frame` is as it is after the quadruple. -/
def passed? (table : Table) (frame : Activation) (quad : Quad) : Option Int32 :=
  quad.passing?.bind fun field => (quad.fetch table frame field).toOption

theorem passed?_eq {table : Table} {frame : Activation} {quad : Quad} {field : Field} {name : String}
    {slot : Slot} {arity slots : Nat} (passing : quad.passing? = some field)
    (named : quad.field? field = some (.name name)) (fits : frame.Fits arity slots)
    (stored : table.Stores arity slots quad.scope name slot) :
    quad.passed? table frame = some (frame.get slot) := by
  unfold passed?
  rw [passing, Option.bind_some, fetch_eq named stored.1 fits stored.2]
  rfl

/-- A quadruple that gives its result a value leaves that value in `%eax`. -/
theorem passed?_put {table : Table} {frame : Activation} {quad : Quad} {name : String} {slot : Slot}
    {arity slots : Nat} (passing : quad.passing? = some .result)
    (named : quad.result = some (.name name)) (fits : frame.Fits arity slots)
    (stored : table.Stores arity slots quad.scope name slot) (value : Int32) :
    quad.passed? table (frame.put slot value) = some value := by
  rw [passed?_eq passing named (fits.put slot value) stored, Activation.get_put fits stored.2,
    if_pos rfl]

/-- What `%eax` holds after a quadruple that left `frame`, if it held `before`. -/
def leaves (table : Table) (frame : Activation) (before : BitVec 32) (quad : Quad) : BitVec 32 :=
  ((quad.passed? table frame).map Int32.toBitVec).getD before

end Quad

/-! ## The quadruples that a run takes -/

/-- A quadruple that was taken: the call that it made, if it is one, and how the run went on. -/
structure Taken where
  quad : Quad
  call? : Option (String × List Int32)
  after : Progress

/-- The quadruples that a run takes from `progress` on. -/
def Routine.path (routine : Routine) (table : Table) (callee : String → List Int32 → Traced Int32) :
    (steps : Nat) → Progress → List Taken
  | 0, _ => []
  | steps + 1, progress =>
      match routine.body[progress.pc]? with
      | none => []
      | some quad =>
          match routine.step table { progress with pc := progress.pc + 1 } quad with
          | .error _ => []
          | .ok (.proceed next) => ⟨quad, none, next⟩ :: routine.path table callee steps next
          | .ok (.call function arguments next) =>
              match (callee function arguments).result >>= receive table next quad with
              | .error _ => []
              | .ok next =>
                  ⟨quad, some (function, arguments), next⟩ :: routine.path table callee steps next

namespace Path

/-- Of the variables of the source, only those are read that were assigned before. -/
def readsAssigned (table : Table) : (assigned : List Nat) → List Taken → Bool
  | _, [] => true
  | assigned, taken :: path =>
      taken.quad.readsAssigned table assigned &&
        readsAssigned table (taken.quad.assignedAfter table assigned) path

/-- What is left in `%eax`, if `held` was before; there is nothing as long as no value passed. -/
def held (table : Table) (held : Option Int32) (path : List Taken) : Option Int32 :=
  path.foldl (fun held taken => (taken.quad.passed? table taken.after.frame).or held) held

/-- What the last call returned, which the accumulator holds after it; `value` if there is none. -/
def answer (value : Int32) (path : List Taken) : Int32 :=
  path.foldl (fun value taken => if taken.call?.isSome then taken.after.accumulator else value) value

/-- The end was reached without a return. -/
def runsOff (path : List Taken) : Bool :=
  path.all (·.quad.op != .ret)

/-- All calls that were made are good. -/
def callsAll (good : String → List Int32 → Bool) (path : List Taken) : Bool :=
  path.all fun taken => taken.call?.all fun (function, arguments) => good function arguments

theorem callsAll_and {good good' : String → List Int32 → Bool} {path : List Taken}
    (areGood : callsAll good path) (areGood' : callsAll good' path) :
    callsAll (fun function arguments => good function arguments && good' function arguments) path := by
  unfold callsAll at areGood areGood' ⊢
  rw [List.all_eq_true] at areGood areGood' ⊢
  intro taken member
  have here := (Option.all_eq_true_iff_get _ _).1 (areGood taken member)
  have here' := (Option.all_eq_true_iff_get _ _).1 (areGood' taken member)
  exact (Option.all_eq_true_iff_get _ _).2 fun isCall =>
    Bool.and_eq_true_iff.2 ⟨here isCall, here' isCall⟩

end Path

/-! ## Calls within calls -/

namespace Code

/-- The quadruples that the activation of a call takes, where calls nest at most `depth` deep. -/
def pathWithin (code : Code) (table : Table) (steps depth : Nat) (function : String)
    (arguments : List Int32) : List Taken :=
  match code.enter table function arguments with
  | .error _ => []
  | .ok (routine, progress) =>
      routine.path table (code.callWithin table steps depth) steps progress

/-- The path and the value of a call are good, and those of all calls that it makes. -/
def everyWithin (code : Code) (table : Table) (steps : Nat)
    (good : List Taken → Option Int32 → Bool) : (depth : Nat) → String → List Int32 → Bool
  | 0, _, _ => true
  | depth + 1, function, arguments =>
      let path := code.pathWithin table steps depth function arguments
      good path (code.callWithin table steps (depth + 1) function arguments).result.toOption &&
        Path.callsAll (code.everyWithin table steps good depth) path

end Code

namespace Compilation

variable (compilation : Compilation) (function : String) (arguments : List Int32)

/-- The quadruples that the activation of a function takes. -/
def path : List Taken :=
  compilation.code.pathWithin compilation.table (compilation.code.size + 1) (maxCallDepth - 1)
    function arguments

/-- In a run of a compiled program no activation reads a variable of the source before assigning
it. -/
def readsAssigned : Bool :=
  compilation.code.everyWithin compilation.table (compilation.code.size + 1)
    (fun path _ => Path.readsAssigned compilation.table [] path) maxCallDepth function arguments

/-- The calls of a function return what their code leaves in `%eax`, and so do all calls within
them. -/
def callsKeep : Bool :=
  Path.callsAll
    (compilation.code.everyWithin compilation.table (compilation.code.size + 1)
      (fun path value => Path.held compilation.table none path == value) (maxCallDepth - 1))
    (compilation.path function arguments)

/-- What a function leaves in `%eax`, if `entry` is in it at first. -/
def left (entry : Int32) : Int32 :=
  (Path.held compilation.table none (compilation.path function arguments)).getD entry

end Compilation

/-! ## Runs that have a value -/

/-- A run from a point has a value, and these are the quadruples that it takes. -/
inductive Running.Takes (running : Running) (value : Int32) :
    (steps : Nat) → Progress → List Taken → Prop
  | ended {steps : Nat} {p : Progress} (atEnd : running.routine.body[p.pc]? = none)
      (isValue : p.accumulator = value) : Takes running value (steps + 1) p []
  | proceeded {steps : Nat} {p q : Progress} {quad : Quad} {path : List Taken}
      (found : running.routine.body[p.pc]? = some quad)
      (stepped : running.routine.step running.table { p with pc := p.pc + 1 } quad =
        .ok (.proceed q))
      (later : Takes running value steps q path) :
      Takes running value (steps + 1) p (⟨quad, none, q⟩ :: path)
  | called {steps : Nat} {p q r : Progress} {quad : Quad} {path : List Taken} {callee : String}
      {arguments : List Int32} {answer : Int32}
      (found : running.routine.body[p.pc]? = some quad)
      (stepped : running.routine.step running.table { p with pc := p.pc + 1 } quad =
        .ok (.call callee arguments q))
      (answered : (running.callee callee arguments).result = .ok answer)
      (received : Routine.receive running.table q quad answer = .ok r)
      (later : Takes running value steps r path) :
      Takes running value (steps + 1) p (⟨quad, some (callee, arguments), r⟩ :: path)

namespace Running

variable {running : Running} {value : Int32} {steps : Nat} {p q : Progress} {path : List Taken}

/-- A run that has a value takes the quadruples of its path. -/
theorem takes_path (finishes : running.result steps p = .ok value) :
    running.Takes value steps p
      (running.routine.path running.table running.callee steps p) := by
  induction steps generalizing p with
  | zero => cases finishes
  | succ steps ih =>
    rw [Routine.path]
    cases found : running.routine.body[p.pc]? with
    | none =>
      unfold result at finishes
      rw [Routine.run, found] at finishes
      exact .ended found (Except.ok.inj finishes)
    | some quad =>
      rw [result_of_quad found] at finishes
      obtain ⟨action, stepped, finishes⟩ := bind_eq_ok.1 finishes
      dsimp only
      rw [stepped]
      cases action with
      | proceed q => exact .proceeded found stepped (ih finishes)
      | call callee arguments q =>
        obtain ⟨answer, answered, finishes⟩ := bind_eq_ok.1 finishes
        obtain ⟨r, received, finishes⟩ := bind_eq_ok.1 finishes
        dsimp only
        rw [answered, ok_bind, received]
        exact .called found stepped answered received (ih finishes)

end Running

namespace Routine

variable {routine : Routine} {table : Table} {p q : Progress} {quad : Quad}

theorem accumulator_of_unary {f : Int32 → Int32}
    (stepped : unary table p quad f = .ok (.proceed q)) : q.accumulator = p.accumulator := by
  obtain ⟨_, _, stepped⟩ := bind_eq_ok.1 stepped
  obtain ⟨_, _, stepped⟩ := bind_eq_ok.1 stepped
  cases stepped
  rfl

theorem accumulator_of_binary {f : Int32 → Int32 → Option Int32}
    (stepped : routine.binary table p quad f = .ok (.proceed q)) : q.accumulator = p.accumulator := by
  obtain ⟨_, _, stepped⟩ := bind_eq_ok.1 stepped
  obtain ⟨_, _, stepped⟩ := bind_eq_ok.1 stepped
  split at stepped
  · cases stepped
  · obtain ⟨_, _, stepped⟩ := bind_eq_ok.1 stepped
    cases stepped
    rfl

/-- Within an activation only a return changes the accumulator. -/
theorem accumulator_of_step (stepped : routine.step table p quad = .ok (.proceed q))
    (noReturn : quad.op ≠ .ret) : q.accumulator = p.accumulator := by
  unfold step at stepped
  cases isOp : quad.op with
  | ret => exact absurd isOp noReturn
  | assign | uplus | uminus =>
    rw [isOp] at stepped
    exact accumulator_of_unary stepped
  | plus | minus | mult | div =>
    rw [isOp] at stepped
    exact accumulator_of_binary stepped
  | load =>
    rw [isOp] at stepped
    obtain ⟨_, _, stepped⟩ := bind_eq_ok.1 stepped
    obtain ⟨_, _, stepped⟩ := bind_eq_ok.1 stepped
    cases stepped
    rfl
  | param | jump =>
    rw [isOp] at stepped
    obtain ⟨_, _, stepped⟩ := bind_eq_ok.1 stepped
    cases stepped
    rfl
  | call =>
    rw [isOp] at stepped
    obtain ⟨_, _, stepped⟩ := bind_eq_ok.1 stepped
    obtain ⟨_, _, stepped⟩ := bind_eq_ok.1 stepped
    dsimp only at stepped
    split at stepped <;> cases stepped
  | jumpIfNot =>
    rw [isOp] at stepped
    obtain ⟨_, _, stepped⟩ := bind_eq_ok.1 stepped
    split at stepped
    · obtain ⟨_, _, stepped⟩ := bind_eq_ok.1 stepped
      cases stepped
      rfl
    · cases stepped
      rfl
  | label =>
    rw [isOp] at stepped
    cases stepped
    rfl

end Routine

/-- A run that ends without a return has the value of its last call. -/
theorem Running.Takes.value_eq {running : Running} {value : Int32} {steps : Nat} {p : Progress}
    {path : List Taken} (takes : running.Takes value steps p path) (runsOff : Path.runsOff path) :
    value = Path.answer p.accumulator path := by
  induction takes with
  | ended atEnd isValue => exact isValue.symm
  | proceeded found stepped later ih =>
    obtain ⟨noReturn, runsOff⟩ := Bool.and_eq_true_iff.1 runsOff
    have kept := Routine.accumulator_of_step stepped (bne_iff_ne.1 noReturn)
    rw [ih runsOff, kept]
    rfl
  | called found stepped answered received later ih =>
    obtain ⟨_, runsOff⟩ := Bool.and_eq_true_iff.1 runsOff
    exact ih runsOff

end MiniC
