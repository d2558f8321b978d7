import MiniC.Proofs.Calls
import MiniC.Proofs.Reading
import MiniC.Proofs.Safety

/-!
# Compiled programs on the machine

The text of the assembly is read back as the listing of the program, and the machine that executes it
does what a run of the program does: it comes back to the caller with the value of the run, or to a
division that raises an error.
-/

namespace MiniC

open Assembly (Line Instruction instructions quadLines functionLines activeLines slotCount frameSize
  prologue epilogue)

/-! ## Names in a listing -/

/-- Instructions can be read back if the functions that they call have names of the source. -/
theorem readable_instructions {list : List Instruction}
    (named : ∀ function ∈ list.filterMap Instruction.callee?, IsIdentifier function) :
    ∀ line ∈ instructions list, line.Readable := by
  intro line member
  obtain ⟨instruction, inList, rfl⟩ := List.mem_map.1 member
  exact fun function calls => named function (List.mem_filterMap.2 ⟨instruction, inList, calls⟩)

/-- The lines of a quadruple name no function but the one that is called. -/
theorem Quad.Emits.readable {functions : String → Option Nat} {quad : Quad} {lines : List Line}
    (emits : quad.Emits functions lines)
    (named : ∀ {callee count}, functions callee = some count → IsIdentifier callee) :
    ∀ line ∈ lines, line.Readable := by
  cases emits with
  | unary op | binary op => cases op <;> exact readable_instructions (List.forall_mem_nil _)
  | call isKnown =>
    refine readable_instructions ?_
    unfold Assembly.callInstructions
    split <;> exact List.forall_mem_singleton.2 (named isKnown)
  | mark label scope => exact List.forall_mem_singleton.2 trivial
  | _ => exact readable_instructions (List.forall_mem_nil _)

theorem readable_functionLines {table : Table} {function : FunctionCode}
    (isName : IsIdentifier function.name) (apart : ∀ label : Label, function.name ≠ label.text)
    (readable : ∀ quad ∈ function.body.toList, ∀ line ∈ quadLines table quad, line.Readable) :
    ∀ line ∈ functionLines table function, line.Readable := by
  have body : ∀ line ∈ function.body.toList.flatMap (quadLines table), line.Readable := by
    intro line member
    obtain ⟨quad, inBody, inLines⟩ := List.mem_flatMap.1 member
    exact readable quad inBody line inLines
  unfold functionLines activeLines
  simp only [List.forall_mem_append, List.forall_mem_cons]
  exact ⟨⟨isName, isName, List.forall_mem_nil _⟩, ⟨⟨isName, apart⟩,
    readable_instructions (List.forall_mem_nil _), body,
    readable_instructions (List.forall_mem_nil _)⟩, isName, List.forall_mem_nil _⟩

namespace Node

variable {functions : List Node} {state : Lowering} {code : Code}

/-- The functions of the code are those of the tree. -/
theorem LoweredTo.exists_arity (lowered : LoweredTo functions state code) {function : FunctionCode}
    (member : function ∈ code.functions) : ∃ count, arity? functions function.name = some count := by
  unfold arity?
  rcases forall₂_find lowered.lowered function.name with ⟨_, missing⟩ |
    ⟨_, _, parameters, _, _, _, _, _, found, _, _⟩
  · exact absurd (decide_eq_true rfl) (List.find?_eq_none.1 missing function member)
  · exact ⟨parameters.length, by rw [found]; rfl⟩

/-- A function that is called is in the code. -/
theorem LoweredTo.exists_code (lowered : LoweredTo functions state code) {callee : String}
    {count : Nat} (known : arity? functions callee = some count) :
    ∃ function ∈ code.functions, function.name = callee := by
  unfold arity? at known
  rcases forall₂_find lowered.lowered callee with ⟨missing, _⟩ |
    ⟨_, _, _, _, _, _, _, _, _, found, _⟩
  · rw [missing] at known
    cases known
  · exact ⟨_, List.mem_of_find?_eq_some found, rfl⟩

/-- Functions that are called have names of the source, if all functions have. -/
theorem LoweredTo.isIdentifier (lowered : LoweredTo functions state code)
    (named : ∀ function ∈ code.functions, IsIdentifier function.name) {callee : String} {count : Nat}
    (known : arity? functions callee = some count) : IsIdentifier callee := by
  obtain ⟨function, member, rfl⟩ := lowered.exists_code known
  exact named function member

/-- The listing of lowered code can be read back. -/
theorem LoweredTo.readable (lowered : LoweredTo functions state code) {fileName : String}
    {lines : List Line} (assembled : (code.assemble state.table fileName).result = .ok lines)
    (oneLine : '\n' ∉ fileName.toList)
    (named : ∀ function ∈ code.functions, IsIdentifier function.name)
    (apart : ∀ function ∈ code.functions, ∀ label : Label, function.name ≠ label.text) :
    ∀ line ∈ lines, line.Readable := by
  rw [assemble_eq_ok assembled]
  simp only [List.forall_mem_append, List.forall_mem_cons]
  refine ⟨⟨oneLine, trivial, List.forall_mem_nil _⟩, ?_⟩
  intro line inLines
  obtain ⟨function, member, inFunction⟩ := List.mem_flatMap.1 inLines
  refine readable_functionLines (named function member) (apart function member) ?_ line inFunction
  exact fun quad inBody => (lowered.emits member inBody).readable (lowered.isIdentifier named)

/-- The functions of a resolved program have names of the source. -/
theorem ProgramIn.isIdentifier {table : Table} (inTable : ProgramIn table functions) {name : String}
    (member : name ∈ functionNames functions) : IsIdentifier name := by
  obtain ⟨node, inFunctions, isName⟩ := List.mem_filterMap.1 member
  have placed := inTable.placed node inFunctions
  cases node with
  | function info returnType other parameters body =>
    cases isName
    obtain ⟨symbol, _, _, _, ⟨known, _⟩, _⟩ := placed
    exact inTable.words known
  | _ => cases isName

end Node

/-! ## Compiled programs -/

/-- The names of the functions that a source text defines. -/
def sourceNames (source : String) : List String :=
  match Node.parse source with
  | .ok (.program _ functions) => Node.functionNames functions
  | _ => []

theorem mem_sourceNames {source name : String} {count : Nat}
    (defined : sourceArity? source name = some count) : name ∈ sourceNames source := by
  unfold sourceArity? at defined
  unfold sourceNames
  split at defined
  · next tree parsed =>
    rw [parsed]
    obtain ⟨⟨parameters, body⟩, found, _⟩ := Option.map_eq_some_iff.1 defined
    cases tree with
    | program info functions =>
      obtain ⟨info', returnType, member⟩ := Node.mem_of_definition? found
      exact List.mem_filterMap.2 ⟨_, member, rfl⟩
    | _ => cases found
  · cases defined

/-- The listing of a compiled program has all functions of the source in their place, and it can be
read back. -/
theorem listed_of_compile {source : String} {options : Options} {compilation : Compilation}
    (compiled : (compile source options).result = .ok compilation)
    (oneLine : '\n' ∉ options.fileName.toList)
    (apart : ∀ label : Label, label.text ∉ sourceNames source) :
    Listed compilation.table compilation.code (sourceArity? source) compilation.listing ∧
      ∀ line ∈ compilation.listing, line.Readable := by
  unfold compile at compiled
  rw [Traced.result_bind] at compiled
  obtain ⟨analysis, analyzed, lowered⟩ := bind_eq_ok.1 compiled
  obtain ⟨tree, info, functions, parsed, isTree, inTable, named, same⟩ := analyze_eq_ok analyzed
  obtain ⟨_, state, loweredTo, isTable, assembled⟩ := lower_eq_ok isTree inTable named lowered
  have arities : sourceArity? source = Node.arity? (options.folded functions) := by
    funext name
    rw [arity?_folded, sourceArity?_eq parsed same]
  have noLabel : ∀ function ∈ compilation.code.functions, ∀ label : Label,
      function.name ≠ label.text := by
    intro function member label isText
    obtain ⟨count, known⟩ := loweredTo.exists_arity member
    rw [← arities, isText] at known
    exact apart label (mem_sourceNames known)
  have isIdentifier : ∀ function ∈ compilation.code.functions, IsIdentifier function.name := by
    intro function member
    have inNames : function.name ∈ Node.functionNames (options.folded functions) := by
      rw [← forall₂_names loweredTo.lowered]
      exact List.mem_map_of_mem member
    exact (programIn_folded options inTable).isIdentifier inNames
  rw [isTable] at assembled ⊢
  rw [arities]
  exact ⟨loweredTo.listed assembled noLabel,
    loweredTo.readable assembled oneLine isIdentifier noLabel⟩

namespace Compilation

/-- Bytes of stack that an activation takes at most: the return address, the frame pointer of the
caller, the variables, and a slot for every argument that it may push. -/
def activationSize (compilation : Compilation) : Nat :=
  16 + (compilation.code.functions.map fun function =>
    frameSize (slotCount compilation.table function.name)).foldr max 0 +
      8 * (compilation.code.size + 1)

/-- Bytes of stack that are enough for every run. -/
def stackSize (compilation : Compilation) : Nat :=
  maxCallDepth * compilation.activationSize

variable {compilation : Compilation} {functions : String → Option Nat}

theorem le_activationSize
    (listed : Listed compilation.table compilation.code functions compilation.listing)
    {function : String} {arity : Nat} (known : functions function = some arity) :
    16 + frameSize (slotCount compilation.table function) + 8 * (compilation.code.size + 1) ≤
      compilation.activationSize := by
  obtain ⟨body, _, _, _, isBody, _⟩ := listed.assembled known
  obtain ⟨found, isFound, _⟩ := Option.map_eq_some_iff.1 isBody
  have isName : found.name = function := by simpa using List.find?_some isFound
  have inSizes : frameSize (slotCount compilation.table function) ∈
      compilation.code.functions.map fun function =>
        frameSize (slotCount compilation.table function.name) := by
    rw [← isName]
    exact List.mem_map_of_mem (List.mem_of_find?_eq_some isFound)
  have le := List.le_max_of_le' 0 inSizes (Nat.le_refl _)
  unfold activationSize
  omega

/-- The machine realizes the run of a function. -/
theorem realizes (listed : Listed compilation.table compilation.code functions compilation.listing)
    {function : String} {arguments : List Int32} {machine : Machine}
    (known : functions function = some arguments.length)
    (tidy : compilation.isTidy function arguments)
    (called : machine.Called compilation.listing function arguments)
    (room : compilation.listing.length + compilation.stackSize ≤ machine.cpu.rsp.toNat) :
    machine.Realizes compilation.listing (compilation.run function arguments).result
      (machine.Returned arguments.length) := by
  have inside : machine.cpu.rsp.toNat + 8 + 8 * arguments.length ≤ memorySize := called.inside
  exact listed.realizes (by omega) (le_activationSize listed) known tidy called
    (Nat.le_trans (Nat.le_add_left _ _) room)

end Compilation

/-! ## Main result -/

/-- The machine simulates the run: the assembly of an accepted program is read back as its listing,
and where a function is called with its arguments on the stack, the machine comes back to the caller
with the value of the run, or to a division that raises an error if one faults in the run.

No function may have the name of a label. Calls of the run must not nest too deep, no variable may be
read before it was assigned, and an activation that ends must do so by a return. -/
theorem assembly_simulates_run {source : String} {options : Options} {compilation : Compilation}
    (compiled : (compile source options).result = .ok compilation)
    (oneLine : '\n' ∉ options.fileName.toList)
    (apart : ∀ label : Label, label.text ∉ sourceNames source)
    {function : String} {arguments : List Int32}
    (defined : sourceArity? source function = some arguments.length)
    (shallow : ∀ inside, (compilation.run function arguments).result ≠
      .error (.evaluation (.depthExceeded maxCallDepth inside)))
    (tidy : compilation.isTidy function arguments) :
    Assembly.read? compilation.assembly = some compilation.listing ∧
      ∀ machine : Machine, machine.Called compilation.listing function arguments →
        compilation.listing.length + compilation.stackSize ≤ machine.cpu.rsp.toNat →
        (∃ value last, (compilation.run function arguments).result = .ok value ∧
          Machine.Reaches compilation.listing machine last ∧
          machine.Returned arguments.length value last) ∨
        ∃ lhs rhs inside last, (compilation.run function arguments).result =
            .error (.evaluation (.divisionFault lhs rhs inside)) ∧
          Machine.Reaches compilation.listing machine last ∧
          Machine.Faults compilation.listing last := by
  obtain ⟨listed, readable⟩ := listed_of_compile compiled oneLine apart
  refine ⟨Assembly.read?_text readable, fun machine called room => ?_⟩
  have realizes := Compilation.realizes listed defined tidy called room
  have safe := result_run_safe compiled defined
  cases result : (compilation.run function arguments).result with
  | ok value =>
    rw [result] at realizes
    obtain ⟨last, reaches, returned⟩ := realizes
    exact .inl ⟨value, last, rfl, reaches, returned⟩
  | error error =>
    rw [result] at safe realizes
    cases safe with
    | division lhs rhs inside =>
      obtain ⟨last, reaches, faults⟩ := realizes
      exact .inr ⟨lhs, rhs, inside, last, rfl, reaches, faults⟩
    | depth inside => exact absurd result (shallow inside)

/-- A recursive function with two parameters and a variable. -/
def powerSource : String :=
  "int power(int b, int n) { int p; if (n) { p = power(b, n - 1); return b * p; } return 1; }
int main() { return power(3, 5); }"

/-- The machine at a call with the arguments 3 and 5. -/
def powerMachine (entry : Nat) : Machine where
  rip := entry
  cpu :=
    { rax := 0
      rcx := 0
      rdx := 0
      rbp := 0
      rsp := 1099511627776
      zero := none
      memory := (Memory.setWord (fun _ => 0) 1099511627784 3).setWord 1099511627792 5 }

theorem called_powerMachine {lines : List Line} {function : String} {entry : Nat}
    (isEntry : Assembly.locate? lines function = some entry) :
    Machine.Called lines function [3, 5] (powerMachine entry) := by
  refine ⟨isEntry, ?_, ?_⟩
  · show 1099511627776 + 8 + 8 * 2 ≤ memorySize
    decide
  · intro index value isArgument
    let first := Memory.setWord (fun _ => 0) 1099511627784 3
    have isFirst : first.word 1099511627784 = 3 := Memory.word_setWord 3 (by decide)
    have isSecond : (first.setWord 1099511627792 5).word 1099511627792 = 5 :=
      Memory.word_setWord 5 (by decide)
    have kept : (first.setWord 1099511627792 5).load 1099511627784 4 =
        first.load 1099511627784 4 :=
      Memory.load_store_of_apart (by decide) (by decide) (.inl (by decide))
    match index, isArgument with
    | 0, rfl => exact (congrArg (BitVec.ofNat 32) kept).trans isFirst
    | 1, rfl => exact isSecond

theorem power_simulated :
    ∃ compilation machine last, (compile powerSource { level := 1 }).result = .ok compilation ∧
      Machine.Called compilation.listing "power" [3, 5] machine ∧
      Machine.Reaches compilation.listing machine last ∧ machine.Returned 2 243 last := by
  have facts : (compile powerSource { level := 1 }).result.toOption.any fun compilation =>
      compilation.isTidy "power" [3, 5] &&
        (compilation.run "power" [3, 5]).result.toOption == some 243 &&
        (Assembly.locate? compilation.listing "power").isSome &&
        compilation.listing.length + compilation.stackSize ≤ 1099511627776 := by
    decide +kernel
  have names : sourceNames powerSource = ["power", "main"] := by decide +kernel
  have defined : sourceArity? powerSource "power" = some [(3 : Int32), 5].length := by decide +kernel
  have apart : ∀ label : Label, label.text ∉ sourceNames powerSource := by
    intro label member
    rw [names] at member
    have first : label.text.toList.head? = some 'l' := by
      unfold Label.text
      rw [String.toList_append]
      rfl
    rcases List.mem_cons.1 member with isPower | isMain
    · rw [isPower] at first
      cases first
    · rw [List.mem_singleton.1 isMain] at first
      cases first
  cases compiled : (compile powerSource { level := 1 }).result with
  | error error =>
    rw [compiled] at facts
    cases facts
  | ok compilation =>
    rw [compiled] at facts
    simp only [Except.toOption, Option.any_some, Bool.and_eq_true, beq_iff_eq, decide_eq_true_eq]
      at facts
    obtain ⟨⟨⟨tidy, value⟩, located⟩, room⟩ := facts
    obtain ⟨entry, isEntry⟩ := Option.isSome_iff_exists.1 located
    have called := called_powerMachine isEntry
    have isValue : (compilation.run "power" [3, 5]).result = .ok 243 := by
      cases result : (compilation.run "power" [3, 5]).result with
      | error error =>
        rw [result] at value
        cases value
      | ok other =>
        rw [result] at value
        cases value
        rfl
    have shallow : ∀ inside, (compilation.run "power" [3, 5]).result ≠
        .error (.evaluation (.depthExceeded maxCallDepth inside)) := by
      intro inside same
      rw [isValue] at same
      cases same
    obtain ⟨_, simulates⟩ := assembly_simulates_run compiled (by decide) apart defined shallow tidy
    rcases simulates (powerMachine entry) called room with
      ⟨other, last, isOther, reaches, returned⟩ | ⟨_, _, _, _, isFault, _⟩
    · rw [isValue] at isOther
      cases isOther
      exact ⟨compilation, powerMachine entry, last, rfl, called, reaches, returned⟩
    · rw [isValue] at isFault
      cases isFault

end MiniC
