import Mathlib.Data.List.Nodup
import Mathlib.Data.List.Perm.Basic
import MiniC.Proofs.Preservation
import MiniC.Proofs.Stack

/-!
# Where things are in a listing

The listing of a program has the lines of its functions one after the other, and those of a function
have the lines of its quadruples between the prologue and the epilogue. Names are defined by the
lines of entries and of labels. No name is defined twice, as long as no function has the name of a
label, so every jump and every call leads to the line that it should.
-/

namespace MiniC

namespace Assembly

/-- The lines of a quadruple, if there are any. -/
def quadLines (table : Table) (quad : Quad) : List Line :=
  match ofQuad table quad with
  | .ok lines => lines
  | .error _ => []

theorem quadLines_eq {table : Table} {quad : Quad} {lines : List Line}
    (assembled : ofQuad table quad = .ok lines) : quadLines table quad = lines := by
  unfold quadLines
  rw [assembled]

/-- How many variables a function has, if there is one of that name. -/
def slotCount (table : Table) (name : String) : Nat :=
  match variableCount table name with
  | .ok count => count
  | .error _ => 0

/-- The lines of a function from its entry to its return. -/
def activeLines (table : Table) (function : FunctionCode) : List Line :=
  .entry function.name :: (prologue (frameSize (slotCount table function.name)) ++
    (function.body.toList.flatMap (quadLines table) ++ epilogue))

def functionLines (table : Table) (function : FunctionCode) : List Line :=
  [.globl function.name, .type function.name] ++
    (activeLines table function ++ [.size function.name])

variable {table : Table}

theorem ofQuads_eq_ok {code : List Quad} {lines : List Line}
    (assembled : ofQuads table code = .ok lines) : lines = code.flatMap (quadLines table) := by
  induction code generalizing lines with
  | nil =>
    cases assembled
    rfl
  | cons quad code ih =>
    rw [ofQuads] at assembled
    obtain ⟨first, found, assembled⟩ := bind_eq_ok.1 assembled
    obtain ⟨later, found', assembled⟩ := bind_eq_ok.1 assembled
    cases assembled
    rw [List.flatMap_cons, quadLines_eq found, ih found']

theorem ofFunction_eq_ok {function : FunctionCode} {lines : List Line}
    (assembled : (ofFunction table function).result = .ok lines) :
    lines = functionLines table function := by
  unfold ofFunction at assembled
  simp only [Traced.result_bind, Traced.result_ofExcept, Traced.result_report, ok_bind,
    Traced.result_pure] at assembled
  obtain ⟨count, counted, assembled⟩ := bind_eq_ok.1 assembled
  obtain ⟨body, found, assembled⟩ := bind_eq_ok.1 assembled
  cases assembled
  unfold functionLines activeLines slotCount
  rw [counted, ← ofQuads_eq_ok found]
  simp only [List.cons_append, List.nil_append, List.append_assoc]

theorem ofFunctions_eq_ok {functions : List FunctionCode} {lines : List Line}
    (assembled : (ofFunctions table functions).result = .ok lines) :
    lines = functions.flatMap (functionLines table) := by
  induction functions generalizing lines with
  | nil =>
    cases assembled
    rfl
  | cons function functions ih =>
    rw [ofFunctions] at assembled
    simp only [Traced.result_bind, Traced.result_pure] at assembled
    obtain ⟨first, found, assembled⟩ := bind_eq_ok.1 assembled
    obtain ⟨later, found', assembled⟩ := bind_eq_ok.1 assembled
    cases assembled
    rw [List.flatMap_cons, ofFunction_eq_ok found, ih found']

end Assembly

open Assembly (Line Instruction instructions quadLines functionLines activeLines slotCount frameSize
  prologue epilogue locate?)

theorem assemble_eq_ok {code : Code} {table : Table} {fileName : String} {lines : List Line}
    (assembled : (code.assemble table fileName).result = .ok lines) :
    lines = [.file fileName, .textSection] ++ code.functions.flatMap (functionLines table) := by
  unfold Code.assemble at assembled
  simp only [Traced.result_bind, Traced.result_pure] at assembled
  obtain ⟨later, found, assembled⟩ := bind_eq_ok.1 assembled
  cases assembled
  rw [Assembly.ofFunctions_eq_ok found]
  rfl

theorem occursAt_of_eq {α : Type} {whole part : List α} (first last : List α)
    (parts : whole = first ++ (part ++ last)) : OccursAt whole first.length part := by
  refine ⟨last, ?_⟩
  rw [parts, List.drop_left]

/-- The active lines of every function are somewhere in the listing. -/
theorem exists_activeLines {code : Code} {table : Table} {fileName : String} {lines : List Line}
    (assembled : (code.assemble table fileName).result = .ok lines) {function : FunctionCode}
    (member : function ∈ code.functions) :
    ∃ start, OccursAt lines start (activeLines table function) := by
  obtain ⟨before, after, split⟩ := List.append_of_mem member
  have parts := assemble_eq_ok assembled
  rw [split, List.flatMap_append, List.flatMap_cons] at parts
  let first : List Line := [Line.file fileName, Line.textSection] ++
    (before.flatMap (functionLines table) ++ [Line.globl function.name, Line.type function.name])
  let last : List Line := Line.size function.name :: after.flatMap (functionLines table)
  refine ⟨first.length, occursAt_of_eq first last ?_⟩
  rw [parts, functionLines]
  simp only [first, last, List.append_assoc, List.singleton_append]

/-! ## Names -/

theorem Label.text_injective {label other : Label} (same : label.text = other.text) :
    label = other := by
  obtain ⟨index⟩ := label
  obtain ⟨index'⟩ := other
  have chars := congrArg String.toList same
  exact congrArg Label.mk (toDigits_injective (by simpa [Label.text] using chars))

theorem symbols_instructions (list : List Instruction) :
    (instructions list).filterMap Line.symbol? = [] := by
  induction list with
  | nil => rfl
  | cons instruction list ih => exact ih

theorem Quad.Resolved.emits {table : Table} {arity slots : Nat} {functions : String → Option Nat}
    {exit : Label} {quad : Quad} (resolved : quad.Resolved table arity slots functions exit)
    (known : ∀ {callee count}, functions callee = some count →
      Assembly.isGlobalFunction table callee) : quad.Emits functions (quadLines table quad) := by
  obtain ⟨lines, found, emits⟩ := Assembly.exists_ofQuad resolved known
  rw [Assembly.quadLines_eq found]
  exact emits

/-- Only a mark defines a name. -/
theorem Quad.Emits.symbols {functions : String → Option Nat} {quad : Quad} {lines : List Line}
    (emits : quad.Emits functions lines) :
    lines.filterMap Line.symbol? = quad.marked?.toList.map Label.text := by
  cases emits with
  | unary op =>
    rw [symbols_instructions, Node.marked?_unary]
    rfl
  | binary op =>
    rw [symbols_instructions, Node.marked?_binary]
    rfl
  | mark label scope => rfl
  | _ =>
    rw [symbols_instructions]
    rfl

theorem symbols_quads {table : Table} {code : List Quad}
    (symbols : ∀ quad ∈ code,
      (quadLines table quad).filterMap Line.symbol? = quad.marked?.toList.map Label.text) :
    (code.flatMap (quadLines table)).filterMap Line.symbol? = (marks code).map Label.text := by
  induction code with
  | nil => rfl
  | cons quad code ih =>
    obtain ⟨first, later⟩ := List.forall_mem_cons.1 symbols
    rw [List.flatMap_cons, List.filterMap_append, first, ih later, marks_cons, List.map_append]

theorem symbols_functionLines {table : Table} {function : FunctionCode}
    (symbols : ∀ quad ∈ function.body.toList,
      (quadLines table quad).filterMap Line.symbol? = quad.marked?.toList.map Label.text) :
    (functionLines table function).filterMap Line.symbol? =
      function.name :: (marks function.body.toList).map Label.text := by
  have inner := symbols_quads symbols
  unfold functionLines activeLines prologue epilogue
  simp only [List.filterMap_append, symbols_instructions, List.nil_append, List.append_nil, inner,
    List.filterMap_cons, Line.symbol?, List.filterMap_nil]

theorem symbols_listing {table : Table} {functions : List FunctionCode}
    (symbols : ∀ function ∈ functions, ∀ quad ∈ function.body.toList,
      (quadLines table quad).filterMap Line.symbol? = quad.marked?.toList.map Label.text) :
    (functions.flatMap (functionLines table)).filterMap Line.symbol? =
      functions.flatMap fun function =>
        function.name :: (marks function.body.toList).map Label.text := by
  induction functions with
  | nil => rfl
  | cons function functions ih =>
    obtain ⟨first, later⟩ := List.forall_mem_cons.1 symbols
    rw [List.flatMap_cons, List.filterMap_append, symbols_functionLines first, ih later,
      List.flatMap_cons]

/-- Names are defined once, if functions have different names, none of which is that of a label, and
no label is marked twice. -/
theorem symbols_distinct {functions : List FunctionCode}
    (names : (functions.map (·.name)).Nodup)
    (labels : (functions.flatMap fun function => marks function.body.toList).Nodup)
    (apart : ∀ function ∈ functions, ∀ label : Label, function.name ≠ label.text) :
    (functions.flatMap fun function =>
      function.name :: (marks function.body.toList).map Label.text).Nodup := by
  have same := List.map_append_flatMap_perm functions (·.name) fun function =>
    (marks function.body.toList).map Label.text
  rw [← same.nodup_iff, List.nodup_append]
  refine ⟨names, ?_, ?_⟩
  · rw [← List.map_flatMap]
    exact labels.map fun _ _ => Label.text_injective
  · rintro name inNames other inLabels rfl
    obtain ⟨function, member, rfl⟩ := List.mem_map.1 inNames
    obtain ⟨_, _, inMarks⟩ := List.mem_flatMap.1 inLabels
    obtain ⟨label, _, isText⟩ := List.mem_map.1 inMarks
    exact apart function member label isText.symm

/-! ## Labels -/

/-- The place of a label is that of a mark of it. -/
theorem marked_of_lastTarget? {code : List Quad} {targets : List (Label × Nat)} {base : Nat}
    (collected : labelTargets base code = .ok targets) {label : Label} {target : Nat}
    (found : lastTarget? label targets = some target) :
    ∃ index quad, target = base + index ∧ code[index]? = some quad ∧ quad.marked? = some label := by
  induction code generalizing targets base with
  | nil =>
    cases collected
    cases found
  | cons quad code ih =>
    rw [labelTargets] at collected
    split at collected
    · next isLabel =>
      obtain ⟨first, read, collected⟩ := bind_eq_ok.1 collected
      obtain ⟨later, collected', last⟩ := bind_eq_ok.1 collected
      cases last
      rw [lastTarget?] at found
      split at found
      · next other found' =>
        cases found
        obtain ⟨index, quad', isTarget, isQuad, marked⟩ := ih collected' found'
        exact ⟨index + 1, quad', by omega, isQuad, marked⟩
      · split at found
        · next same =>
          cases found
          subst same
          refine ⟨0, quad, rfl, rfl, Quad.marked?_eq_some_iff.2 ⟨isLabel, ?_⟩⟩
          simp only [Quad.label, Quad.field?] at read
          split at read
          · next isOperand =>
            cases read
            exact isOperand
          · cases read
        · cases found
    · obtain ⟨index, quad', isTarget, isQuad, marked⟩ := ih collected found
      exact ⟨index + 1, quad', by omega, isQuad, marked⟩

/-! ## Functions in a listing -/

/-- A function with its lines from `start` on, the first of which is its entry. -/
structure Assembled (table : Table) (functions : String → Option Nat) (lines : List Line)
    (arity : Nat) (function : FunctionCode) (exit : Label) (start : Nat) : Prop where
  present : OccursAt lines start (activeLines table function)
  resolved : ∀ quad ∈ function.body.toList,
    quad.Resolved table arity (slotCount table function.name) functions exit
  supplied : Supplied [] function.body.toList
  distinct : (marks function.body.toList).Nodup
  exits : ∃ code scope, function.body.toList = code ++ [.mark exit scope]
  targets : ∃ targets, labelTargets 0 function.body.toList = .ok targets

/-- The listing of a program: no name is defined twice, and the functions that are called are
there. -/
structure Listed (table : Table) (code : Code) (functions : String → Option Nat)
    (lines : List Line) : Prop where
  distinct : (lines.filterMap Line.symbol?).Nodup
  known : ∀ {callee count}, functions callee = some count →
    Assembly.isGlobalFunction table callee
  assembled : ∀ {name arity}, functions name = some arity →
    ∃ body symbol exit start, code.body? name = some body ∧
      table.Holds name arity (slotCount table name) symbol ∧
      Assembled table functions lines arity ⟨name, body⟩ exit start

/-- The line of a quadruple of a function, or of the epilogue behind the last one. -/
def FunctionCode.line (function : FunctionCode) (table : Table) (start pc : Nat) : Nat :=
  start + 4 + ((function.body.toList.take pc).flatMap (quadLines table)).length

namespace Assembled

variable {table : Table} {functions : String → Option Nat} {lines : List Line} {arity : Nat}
  {function : FunctionCode} {exit : Label} {start : Nat}

theorem entry_at (assembled : Assembled table functions lines arity function exit start) :
    lines[start]? = some (.entry function.name) :=
  OccursAt.head assembled.present

theorem prologue_at (assembled : Assembled table functions lines arity function exit start) :
    OccursAt lines (start + 1) (prologue (frameSize (slotCount table function.name))) :=
  OccursAt.left (OccursAt.tail assembled.present)

theorem body_at (assembled : Assembled table functions lines arity function exit start) :
    OccursAt lines (start + 4) (function.body.toList.flatMap (quadLines table) ++ epilogue) :=
  OccursAt.right (OccursAt.tail assembled.present)

/-- The lines of a quadruple are at its line, and the next line is behind them. -/
theorem quad_at (assembled : Assembled table functions lines arity function exit start) {pc : Nat}
    {quad : Quad} (found : function.body[pc]? = some quad) :
    OccursAt lines (function.line table start pc) (quadLines table quad) ∧
      function.line table start (pc + 1) =
        function.line table start pc + (quadLines table quad).length := by
  rw [← Array.getElem?_toList] at found
  have parts := split_at found
  constructor
  · have present := assembled.body_at
    rw [parts, List.flatMap_append, List.flatMap_cons, List.append_assoc, List.append_assoc] at present
    exact present.right.left
  · unfold FunctionCode.line
    rw [List.take_add_one, found, List.flatMap_append, List.length_append, Option.toList_some,
      List.flatMap_singleton, ← Nat.add_assoc]

theorem epilogue_at (assembled : Assembled table functions lines arity function exit start) :
    OccursAt lines (function.line table start function.body.size) epilogue := by
  unfold FunctionCode.line
  rw [← Array.length_toList, List.take_length]
  exact assembled.body_at.right

/-- A label is located at the line of its mark. -/
theorem locate_mark (assembled : Assembled table functions lines arity function exit start)
    (distinct : (lines.filterMap Line.symbol?).Nodup) {pc : Nat} {quad : Quad}
    (found : function.body[pc]? = some quad) {label : Label} (marked : quad.marked? = some label) :
    locate? lines label.text = some (function.line table start pc) := by
  have resolved := assembled.resolved quad (Array.mem_toList_iff.2 (Array.mem_of_getElem? found))
  have isMark : ∃ scope, quad = .mark label scope := by
    cases resolved with
    | mark other scope =>
      cases marked
      exact ⟨scope, rfl⟩
    | unary op =>
      rw [Node.marked?_unary] at marked
      cases marked
    | binary op =>
      rw [Node.marked?_binary] at marked
      cases marked
    | _ => cases marked
  obtain ⟨scope, rfl⟩ := isMark
  exact findIdx?_of_nodup distinct (OccursAt.head (assembled.quad_at found).1) rfl

theorem locate_entry (assembled : Assembled table functions lines arity function exit start)
    (distinct : (lines.filterMap Line.symbol?).Nodup) :
    locate? lines function.name = some start :=
  findIdx?_of_nodup distinct assembled.entry_at rfl

/-- The exit is marked by the last quadruple only. -/
theorem exit_last (assembled : Assembled table functions lines arity function exit start) {pc : Nat}
    {quad : Quad} (found : function.body[pc]? = some quad) (marked : quad.marked? = some exit) :
    pc + 1 = function.body.size := by
  obtain ⟨code, scope, parts⟩ := assembled.exits
  have last : function.body.toList[code.length]? = some (.mark exit scope) := by
    rw [parts, List.getElem?_append_right (Nat.le_refl _), Nat.sub_self]
    rfl
  rw [← Array.getElem?_toList] at found
  have first := findIdx?_of_nodup assembled.distinct found marked
  rw [findIdx?_of_nodup assembled.distinct last rfl] at first
  cases first
  rw [← Array.length_toList, parts, List.length_append]
  rfl

/-- The last quadruple marks the exit. -/
theorem last_exit (assembled : Assembled table functions lines arity function exit start) {pc : Nat}
    {quad : Quad} (found : function.body[pc]? = some quad) (last : function.body.size ≤ pc + 1) :
    ∃ scope, quad = .mark exit scope := by
  obtain ⟨code, scope, parts⟩ := assembled.exits
  have lt := (Array.getElem?_eq_some_iff.1 found).1
  have isLast : pc = code.length := by
    have length := congrArg List.length parts
    rw [Array.length_toList, List.length_append, List.length_singleton] at length
    omega
  rw [← Array.getElem?_toList, parts, isLast, List.getElem?_append_right (Nat.le_refl _),
    Nat.sub_self] at found
  exact ⟨scope, (Option.some.inj found).symm⟩

end Assembled

/-! ## Listings of lowered code -/

theorem forall₂_names {state : Lowering} {nodes : List Node} {codes : List FunctionCode}
    (lowered : List.Forall₂ (Node.LoweredIn state) nodes codes) :
    codes.map (·.name) = Node.functionNames nodes := by
  induction lowered with
  | nil => rfl
  | @cons node code nodes codes isLowered _ ih =>
    cases node with
    | function info returnType name parameters body =>
      obtain ⟨_, _, _, rfl, _⟩ := isLowered
      exact congrArg (List.cons name) ih
    | _ => exact isLowered.elim

/-- Lowered code has lines for each of its quadruples. -/
theorem Node.LoweredTo.emits {functions : List Node} {state : Lowering} {code : Code}
    (lowered : LoweredTo functions state code) {function : FunctionCode}
    (member : function ∈ code.functions) {quad : Quad} (inBody : quad ∈ function.body.toList) :
    quad.Emits (arity? functions) (quadLines state.table quad) := by
  obtain ⟨parameters, body, top, next, label, isBody, has, named⟩ := lowered.exists_has member
  rw [isBody] at inBody
  exact (has.resolved named quad inBody).emits lowered.isGlobalFunction

/-- The listing of lowered code has all functions in their place, unless one of them has the name of
a label. -/
theorem Node.LoweredTo.listed {functions : List Node} {state : Lowering} {code : Code}
    (lowered : LoweredTo functions state code) {fileName : String} {lines : List Line}
    (assembled : (code.assemble state.table fileName).result = .ok lines)
    (apart : ∀ function ∈ code.functions, ∀ label : Label, function.name ≠ label.text) :
    Listed state.table code (arity? functions) lines := by
  refine ⟨?_, lowered.isGlobalFunction, ?_⟩
  · have names : (code.functions.map (·.name)).Nodup := by
      rw [forall₂_names lowered.lowered]
      exact lowered.distinct
    rw [assemble_eq_ok assembled, List.filterMap_append,
      symbols_listing fun function member quad inBody => (lowered.emits member inBody).symbols]
    exact symbols_distinct names lowered.labels apart
  · intro name arity known
    unfold arity? at known
    rcases forall₂_find lowered.lowered name with ⟨missing, _⟩ |
      ⟨info, returnType, parameters, body, top, next, label, member, found, found', has⟩
    · rw [missing] at known
      cases known
    · rw [found] at known
      cases known
      obtain ⟨symbol, holds⟩ := has.holds
      have count : slotCount state.table name = body.localCount + body.temporaryCount := by
        unfold slotCount
        rw [Assembly.variableCount_eq holds]
      obtain ⟨start, present⟩ := exists_activeLines assembled (List.mem_of_find?_eq_some found')
      obtain ⟨targets, collected, _⟩ := has.exists_targets (lowered.body_named member)
      refine ⟨(body.functionCode top next label).toArray, symbol, ⟨label⟩, start, ?_, ?_, present, ?_,
        has.supplied, marks_functionCode top next label body, ⟨_, _, rfl⟩,
        targets, collected⟩
      · unfold Code.body?
        rw [found']
        rfl
      · rw [count]
        exact holds
      · intro quad inBody
        rw [count]
        exact has.resolved (lowered.body_named member) quad inBody

end MiniC
