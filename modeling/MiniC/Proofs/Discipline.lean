import MiniC.Proofs.StackSlots
import MiniC.Proofs.Visits

/-!
# Temporaries and arguments are used in order

In a compiled program every temporary belongs to one function: it is an integer variable of that
function, one quadruple gives it its value, and one quadruple behind reads it, with no mark, jump or
return in between. Arguments are pushed last one first, directly before the call that takes them.

So along every run a temporary is read with the value that was stored for it, and apart from the
pushes before a call no arguments are pushed at all.
-/

namespace MiniC

open Lower (temporaryName)

/-! ## Quadruples that use a name -/

namespace Quad

variable {quad : Quad} {name : String}

/-- The quadruple gives the name a value or reads it. -/
def Uses (quad : Quad) (name : String) : Prop :=
  quad.result = some (.name name) ∨ name ∈ quad.reads

theorem stored?_of_result (isResult : quad.result = some (.name name)) :
    quad.stored? .result = some name := by
  unfold stored?
  rw [if_neg fun both => Field.noConfusion both.2]
  change quad.result.bind Operand.name? = _
  rw [isResult]
  rfl

theorem Uses.exists_stored? (uses : quad.Uses name) : ∃ field, quad.stored? field = some name := by
  rcases uses with isResult | read
  · exact ⟨.result, stored?_of_result isResult⟩
  · obtain ⟨op, operand1, operand2, result, scope⟩ := quad
    obtain ⟨operand, member, named⟩ := List.mem_filterMap.1 read
    have first (noCall : op ≠ .call) (isFirst : operand = operand1) :
        ∃ field, (Quad.mk op operand1 operand2 result scope).stored? field = some name := by
      refine ⟨.operand1, ?_⟩
      unfold stored?
      rw [if_neg fun both => noCall both.1, ← named, isFirst]
      rfl
    have second (isSecond : operand = operand2) :
        ∃ field, (Quad.mk op operand1 operand2 result scope).stored? field = some name := by
      refine ⟨.operand2, ?_⟩
      unfold stored?
      rw [if_neg fun both => Field.noConfusion both.2, ← named, isSecond]
      rfl
    cases op with
    | assign | uplus | uminus | param | jumpIfNot => exact first nofun (List.mem_singleton.1 member)
    | plus | minus | mult | div =>
      rcases List.mem_cons.1 member with isFirst | member
      · exact first nofun isFirst
      · exact second (List.mem_singleton.1 member)
    | ret => exact second (List.mem_singleton.1 member)
    | load | call | label | jump => exact absurd member List.not_mem_nil

/-- Only what computes or calls has a result. -/
theorem Resolved.written?_of_result {table : Table} {arity slots : Nat}
    {functions : String → Option Nat} {exit : Label}
    (resolved : quad.Resolved table arity slots functions exit)
    (isResult : quad.result = some (.name name)) : quad.written? = some name := by
  cases resolved with
  | load | assign | call =>
    cases isResult
    rfl
  | unary op =>
    cases isResult
    exact Node.written?_unary ..
  | binary op =>
    cases isResult
    exact Node.written?_binary ..
  | param | ret | mark | jump | jumpIfNot => cases isResult

end Quad

/-! ## Temporaries in the table -/

/-- The parameter or variable at a place. -/
def Slot.entry? (parameters locals : Array SymbolId) : Slot → Option SymbolId
  | .parameter index => parameters[index]?
  | .localVariable index => locals[index]?

/-- The function has the name as an integer variable, and whatever uses the name in its code means
that variable. -/
def FunctionCode.DeclaresInt (function : FunctionCode) (table : Table) (name : String) : Prop :=
  ∃ symbol locals id index, table.lookupLocal Table.global function.name = some symbol ∧
    table.locals symbol = .ok locals ∧ id ∈ locals ∧
    table.symbols[id]? = some (.localVariable name .int index) ∧
    ∀ quad ∈ function.body, quad.Uses name → table.lookup quad.scope name = some id

namespace Table.Houses

variable {table : Table} {owner : ScopeId → Option SymbolId} {function : FunctionCode}
  {symbol : SymbolId} {parameters locals : Array SymbolId} {name : String}

/-- A place of the function is that of the parameter or variable with its index. -/
theorem at_slot (housed : table.Houses function symbol parameters locals)
    (owned : table.OwnedBy owner) {id : SymbolId} {slot : Slot}
    (listed : id ∈ parameters ∨ id ∈ locals) (isSlot : table.slotOf id = some slot) :
    slot.entry? parameters locals = some id := by
  rcases listed with isParameter | isLocal
  · obtain ⟨index, found⟩ := Array.getElem?_of_mem isParameter
    have entry := owned.numbered.parameters.entry symbol parameters index id
      (by rw [housed.areParameters]; rfl) found
    rw [isSlot] at entry
    cases entry
    exact found
  · obtain ⟨index, found⟩ := Array.getElem?_of_mem isLocal
    have entry := owned.numbered.locals.entry symbol locals index id
      (by rw [housed.areLocals]; rfl) found
    rw [isSlot] at entry
    cases entry
    exact found

/-- A temporary that is used is found as an integer variable. -/
theorem exists_int (housed : table.Houses function symbol parameters locals)
    (owned : table.OwnedBy owner) {count : Nat} (typed : table.IntTemporaries count) (temporary : isTemporary name)
    {quad : Quad} (inBody : quad ∈ function.body) (uses : quad.Uses name) :
    ∃ id index, table.lookup quad.scope name = some id ∧ id ∈ locals ∧
      table.symbols[id]? = some (.localVariable name .int index) := by
  obtain ⟨field, isStored⟩ := uses.exists_stored?
  obtain ⟨id, _, _, found, inScope, _, _, listed⟩ := housed.stored quad inBody field name isStored
  obtain ⟨_, index, isVariable⟩ := typed inScope temporary
  have isSlot : table.slotOf id = some (.localVariable index) := by
    unfold Table.slotOf
    rw [isVariable]
    rfl
  exact ⟨id, index, found, Array.mem_of_getElem? (housed.at_slot owned listed isSlot), isVariable⟩

/-- Results with different names have different places. -/
theorem name_eq_of_locate (housed : table.Houses function symbol parameters locals)
    (owned : table.OwnedBy owner) {quad quad' : Quad} {name' : String} {slot : Slot}
    (inBody : quad ∈ function.body) (inBody' : quad' ∈ function.body)
    (isResult : quad.result = some (.name name)) (isResult' : quad'.result = some (.name name'))
    (located : quad.locate table name = .ok slot) (located' : quad'.locate table name' = .ok slot) :
    name = name' := by
  obtain ⟨id, s, _, _, inScope, stored, isSlot, listed⟩ :=
    housed.stored quad inBody _ name (Quad.stored?_of_result isResult)
  obtain ⟨id', s', _, _, inScope', stored', isSlot', listed'⟩ :=
    housed.stored quad' inBody' _ name' (Quad.stored?_of_result isResult')
  rw [Quad.slotAt_of_locate located] at stored
  rw [Quad.slotAt_of_locate located'] at stored'
  cases stored
  cases stored'
  have same := housed.at_slot owned listed isSlot
  rw [housed.at_slot owned listed' isSlot'] at same
  cases same
  have named := owned.named inScope
  rw [owned.named inScope'] at named
  exact (Option.some.inj named).symm

end Table.Houses

/-! ## Temporaries of a program -/

/-- The name is used in one function only, where it is an integer variable, and there it is used
once: at `written` it gets a value, and at `read` this is read. -/
def Compilation.UsesOnce (compilation : Compilation) (name : String) : Prop :=
  ∃ (index : Nat) (function : FunctionCode) (written read : Nat),
    compilation.code.functions[index]? = some function ∧
    UsedOnce function.body.toList name written read ∧
    function.DeclaresInt compilation.table name ∧
    ∀ (other : Nat) (code : FunctionCode), compilation.code.functions[other]? = some code →
      (∃ quad ∈ code.body, quad.Uses name) → other = index

/-- Functions create the temporaries in the order of their numbers. -/
theorem Node.LowersAll.creates {nodes : List Node} {before after : Lowering}
    {codes : List FunctionCode} (lowered : Node.LowersAll nodes before codes after) :
    before.temporaries ≤ after.temporaries ∧
    (codes.flatMap fun code => created code.body.toList) =
      temporariesFrom before.temporaries after.temporaries := by
  induction lowered with
  | nil state => exact ⟨Nat.le_refl _, (temporariesFrom_self _).symm⟩
  | cons first _ ih =>
    obtain ⟨_, _, _, _, _, top, inner, _, _, _, isBody, emitted⟩ := lowerFunction_eq_ok first
    obtain ⟨le, creates⟩ := ih
    have le' := emitted.draws.le
    refine ⟨Nat.le_trans le' le, ?_⟩
    rw [List.flatMap_cons, creates, isBody, created_append, emitted.creates,
      ← temporariesFrom_append le' le]
    exact congrArg (· ++ _) (List.append_nil _)

/-- The temporaries among the results are those that are created. -/
theorem flatMap_temporaryResults {functions : List FunctionCode}
    (stacked : ∀ function ∈ functions, Stacked [] function.body.toList []) :
    (functions.flatMap fun function => temporaryResults function.body.toList) =
      (functions.flatMap fun function => created function.body.toList).filter isTemporary := by
  rw [List.filter_flatMap]
  exact List.flatMap_congr fun function member => (stacked function member).temporaryResults_eq

/-- A name that functions create once is used in the one that creates it, and there once. -/
theorem exists_usedOnce {functions : List FunctionCode} {name : String}
    (stacked : ∀ function ∈ functions, Stacked [] function.body.toList [])
    (distinct : (functions.flatMap fun function => created function.body.toList).Nodup)
    (temporary : isTemporary name)
    (member : name ∈ functions.flatMap fun function => created function.body.toList) :
    ∃ (index : Nat) (function : FunctionCode) (written read : Nat),
      functions[index]? = some function ∧ UsedOnce function.body.toList name written read ∧
      ∀ (other : Nat) (code : FunctionCode), functions[other]? = some code →
        (∃ quad ∈ code.body, quad.Uses name) → other = index := by
  obtain ⟨function, inFunctions, creates⟩ := List.mem_flatMap.1 member
  obtain ⟨index, found⟩ := List.mem_iff_getElem?.1 inFunctions
  obtain ⟨once, apart⟩ := List.nodup_flatMap.1 distinct
  have disjoint {i j : Nat} {f g : FunctionCode} (found : functions[i]? = some f)
      (found' : functions[j]? = some g) (lt : i < j) :
      (created f.body.toList).Disjoint (created g.body.toList) := by
    obtain ⟨bound, rfl⟩ := List.getElem?_eq_some_iff.1 found
    obtain ⟨bound', rfl⟩ := List.getElem?_eq_some_iff.1 found'
    exact List.pairwise_iff_getElem.1 apart i j bound bound' lt
  obtain ⟨written, read, used⟩ :=
    (stacked function inFunctions).usedOnce (once function inFunctions) temporary creates
  refine ⟨index, function, written, read, found, used, fun other code found' uses => ?_⟩
  have inFunctions' := List.mem_of_getElem? found'
  have creates' : name ∈ created code.body.toList := by
    obtain ⟨quad, inBody, isResult | isRead⟩ := uses
    · exact List.mem_filterMap.2 ⟨quad, Array.mem_toList_iff.2 inBody,
        (stacked code inFunctions').created?_of_result (Array.mem_toList_iff.2 inBody) isResult
          temporary⟩
    · by_contra notCreated
      have unread := ((stacked code inFunctions').unused temporary List.not_mem_nil notCreated).1
      exact unread quad (Array.mem_toList_iff.2 inBody) isRead
  rcases Nat.lt_trichotomy other index with lt | same | gt
  · exact absurd creates (disjoint found' found lt creates')
  · exact same
  · exact absurd creates' (disjoint found found' gt creates)

/-- A temporary that is used once is a variable of the function. -/
theorem Table.Houses.declaresInt {table : Table} {owner : ScopeId → Option SymbolId}
    {function : FunctionCode} {symbol : SymbolId} {parameters locals : Array SymbolId}
    {name : String} {written read : Nat} (housed : table.Houses function symbol parameters locals)
    (owned : table.OwnedBy owner) {count : Nat} (typed : table.IntTemporaries count) (temporary : isTemporary name)
    (used : UsedOnce function.body.toList name written read)
    (supplied : Supplied [] function.body.toList) : function.DeclaresInt table name := by
  obtain ⟨writer, isWriter, isResult⟩ := (used.written_iff written).2 rfl
  obtain ⟨id, index, found, isLocal, isVariable⟩ := housed.exists_int owned typed temporary
    (Array.mem_toList_iff.1 (List.mem_of_getElem? isWriter)) (.inl isResult)
  refine ⟨symbol, locals, id, index, housed.known, housed.areLocals, isLocal, isVariable,
    fun quad inBody uses => ?_⟩
  obtain ⟨place, atPlace⟩ := List.mem_iff_getElem?.1 (Array.mem_toList_iff.2 inBody)
  rcases uses with isResult' | isRead
  · obtain rfl := (used.written_iff place).1 ⟨quad, atPlace, isResult'⟩
    rw [isWriter] at atPlace
    cases atPlace
    exact found
  · obtain rfl := (used.read_iff place).1 ⟨quad, atPlace, isRead⟩
    rw [← used.scope_eq supplied temporary isWriter atPlace]
    exact found

/-! ## Calls and their arguments -/

/-- Every call is from a call node of the tree: directly before it stand the code of the arguments and
a push of each of their values, the last one first, and no further push before those. Every push is
for exactly one call. -/
def FunctionCode.PushesInOrder (function : FunctionCode) (tree : Node) : Prop :=
  (∀ (index : Nat) (quad : Quad), function.body[index]? = some quad → quad.op = .call →
    ∃ info callee arguments next, .call info callee arguments ∈ tree.descendants ∧
      quad.operand1 = some (.name callee.calleeName) ∧
      quad.operand2 = some (.count arguments.length) ∧
      Node.valueCodes quad.scope next arguments ++ pushesBefore function.body.toList index <:+
        function.body.toList.take index ∧
      pushesBefore function.body.toList index =
        (Node.valueNames next arguments).reverse.map (.param · quad.scope)) ∧
  ∀ (index : Nat) (quad : Quad), function.body[index]? = some quad → quad.op = .param →
    ∃! call, TakenBy function.body.toList index call

theorem Orderly.pushesInOrder {tree : Node} {function : FunctionCode} {waiting left : List String}
    (orderly : Orderly tree.descendants waiting function.body.toList left) :
    function.PushesInOrder tree := by
  refine ⟨fun index quad found isCall => ?_, fun index quad found isParam => ?_⟩
  · rw [← Array.getElem?_toList] at found
    obtain ⟨info, callee, arguments, next, member, before, isCode⟩ := orderly.calls found isCall
    rw [take_next found, Node.valueCode, ← List.append_assoc, ← List.append_assoc] at isCode
    obtain ⟨isBefore, isQuad⟩ := List.append_inj' isCode rfl
    have isCallee : quad.operand1 = some (.name callee.calleeName) := by
      rw [← List.singleton_inj.1 isQuad]
      rfl
    have isCount : quad.operand2 = some (.count arguments.length) := by
      rw [← List.singleton_inj.1 isQuad]
      rfl
    have counted := orderly.pushed.counted found isCall
    rw [isCount] at counted
    have pushes : (Node.valueNames next arguments).reverse.map (Quad.param · quad.scope) =
        pushesBefore function.body.toList index := by
      have isSuffix : (Node.valueNames next arguments).reverse.map (Quad.param · quad.scope) <:+
          function.body.toList.take index := by
        rw [← isBefore]
        exact List.suffix_append _ _
      have sameLength :
          ((Node.valueNames next arguments).reverse.map (Quad.param · quad.scope)).length =
            (pushesBefore function.body.toList index).length := by
        rw [List.length_map, List.length_reverse, Node.length_valueNames]
        exact Operand.count.inj (Option.some.inj counted)
      exact (List.suffix_of_suffix_length_le isSuffix (List.rtakeWhile_suffix _ _)
        (Nat.le_of_eq sameLength)).eq_of_length sameLength
    refine ⟨info, callee, arguments, next, member, isCallee, isCount, ?_, pushes.symm⟩
    rw [← pushes, ← isBefore, List.append_assoc]
    exact List.suffix_append _ _
  · rw [← Array.getElem?_toList] at found
    exact orderly.pushed.existsUnique_takenBy found isParam

/-! ## Programs -/

/-- The code of every function of a program is in order. -/
theorem Node.LoweredTo.orderly {functions : List Node} {state : Lowering} {code : Code}
    (lowered : Node.LoweredTo functions state code) (info : Info) {function : FunctionCode}
    (member : function ∈ code.functions) :
    Orderly (Node.program info functions).descendants [] function.body.toList [] ∧
      Supplied [] function.body.toList ∧
      ∀ quad ∈ function.body.toList, ∀ name, quad.result = some (.name name) →
        quad.written? = some name := by
  obtain ⟨node, inFunctions, isLowered⟩ := Node.forall₂_mem lowered.lowered member
  cases node with
  | function info' returnType name parameters body =>
    obtain ⟨top, next, label, rfl, has⟩ := isLowered
    refine ⟨has.orderly fun _ below => Node.mem_descendants_of_child inFunctions
      (Node.mem_descendants_of_child (List.mem_append_right _ List.mem_cons_self) below),
      has.supplied, fun quad inBody name' isResult => ?_⟩
    exact (has.resolved (lowered.body_named inFunctions) quad inBody).written?_of_result isResult
  | _ => exact isLowered.elim

/-- The routine of a function that is entered is arranged. -/
theorem Table.Houses.arranged {table : Table} {owner : ScopeId → Option SymbolId}
    {function : FunctionCode} {symbol : SymbolId} {parameters locals : Array SymbolId}
    (housed : table.Houses function symbol parameters locals) (owned : table.OwnedBy owner)
    (results : ∀ quad ∈ function.body.toList, ∀ name, quad.result = some (.name name) →
      quad.written? = some name) {targets : List (Label × Nat)}
    (collected : labelTargets 0 function.body.toList = .ok targets) (name : String) :
    (Routine.mk name function.body targets).Arranged table where
  collected := collected
  results := results
  apart := fun _ inBody _ inBody' _ _ _ isResult isResult' located located' =>
    housed.name_eq_of_locate owned (Array.mem_toList_iff.1 inBody) (Array.mem_toList_iff.1 inBody')
      isResult isResult' located located'

/-- What an activation of code in order comes to: no arguments are pushed but for the next call, and
a temporary is read with the value that was stored for it. -/
theorem Routine.Arranged.in_order {table : Table} {routine : Routine} {start p : Progress}
    {nodes : List Node} (arranged : routine.Arranged table)
    (orderly : Orderly nodes [] routine.body.toList [])
    (supplied : Supplied [] routine.body.toList) (once : (created routine.body.toList).Nodup)
    (comes : routine.Comes table start p) (atStart : start.pc = 0) (nonePushed : start.pushed = []) :
    p.pushed.length = (pushesBefore routine.body.toList p.pc).length ∧
      ∀ quad name field, routine.body[p.pc]? = some quad → name ∈ quad.reads → isTemporary name →
        quad.field? field = some (.name name) →
        ∃ value, routine.Stored table start p name value ∧
          quad.fetch table p.frame field = .ok value := by
  refine ⟨arranged.pushed_of_comes orderly.pushed comes atStart nonePushed, ?_⟩
  intro quad name field atPlace isRead temporary named
  rw [← Array.getElem?_toList] at atPlace
  have creates : name ∈ created routine.body.toList := by
    by_contra notCreated
    have unread := (orderly.stacked.unused temporary List.not_mem_nil notCreated).1
    exact unread quad (List.mem_of_getElem? atPlace) isRead
  obtain ⟨written, read, used⟩ := orderly.stacked.usedOnce once temporary creates
  obtain ⟨writer, isWriter, _⟩ := (used.written_iff written).2 rfl
  obtain rfl := (used.read_iff p.pc).1 ⟨quad, atPlace, isRead⟩
  obtain ⟨value, stored, slot, located, holds⟩ :=
    arranged.finds_of_comes used isWriter comes atStart used.lt (Nat.le_refl _)
  refine ⟨value, stored, Quad.fetch_of_read? named ?_ holds⟩
  -- the place is that of the quadruple that writes, and both look the name up in one scope
  unfold Quad.locate at located ⊢
  rwa [used.scope_eq supplied temporary isWriter atPlace] at located

/-- In a compiled program the temporaries are numbered from zero on in the order in which they get
their values, and each is an integer variable of one function, in whose code it gets a value once and
is read once, later and with no mark, jump or return in between. The table has no other temporaries.
Directly before every call its arguments are pushed, last one first, and nothing is pushed for any
other purpose.

So wherever an activation comes to: as many arguments are pushed as there are pushes directly before
the next quadruple, and when a temporary is read, it has the value that was stored for it before, in
the same activation. -/
theorem temporaries_and_arguments_in_order {source : String} {options : Options}
    {compilation : Compilation} (compiled : (compile source options).result = .ok compilation) :
    (∃ count, (compilation.code.functions.flatMap fun function =>
        temporaryResults function.body.toList) = temporariesFrom 0 count ∧
      (∀ k < count, compilation.UsesOnce (temporaryName k)) ∧
      ∀ scope name id, compilation.table.lookupLocal scope name = some id → isTemporary name →
        ∃ k < count, name = temporaryName k) ∧
    (∀ function ∈ compilation.code.functions, function.PushesInOrder compilation.tree) ∧
    ∀ (function : String) (arguments : List Int32) (routine : Routine) (start p : Progress),
      compilation.code.enter compilation.table function arguments = .ok (routine, start) →
      routine.Comes compilation.table start p →
      p.pushed.length = (pushesBefore routine.body.toList p.pc).length ∧
      ∀ quad name field, routine.body[p.pc]? = some quad → name ∈ quad.reads → isTemporary name →
        quad.field? field = some (.name name) →
        ∃ value, routine.Stored compilation.table start p name value ∧
          quad.fetch compilation.table p.frame field = .ok value := by
  obtain ⟨info, functions, _, after, state, owner, isTree, all, typed, isTable, lowered, owned, _,
    houses⟩ := houses_of_compile compiled
  obtain ⟨_, creates⟩ := all.creates
  have isOrderly {function : FunctionCode} (member : function ∈ compilation.code.functions) :=
    lowered.orderly info member
  have distinct : (temporariesFrom 0 after.temporaries).Nodup :=
    List.Nodup.map (fun _ _ => temporaryName_injective) List.nodup_range'
  have temporaries {name : String} (member : name ∈ temporariesFrom 0 after.temporaries) :
      isTemporary name := by
    obtain ⟨k, _, rfl⟩ := List.mem_map.1 member
    exact isTemporary_temporaryName k
  have once : (compilation.code.functions.flatMap fun function =>
      created function.body.toList).Nodup := creates ▸ distinct
  refine ⟨⟨after.temporaries, ?_, fun k lt => ?_, fun scope name id found temporary => ?_⟩,
    fun function member => ?_, ?_⟩
  · rw [flatMap_temporaryResults fun _ member => (isOrderly member).1.stacked, creates]
    exact List.filter_eq_self.2 fun _ => temporaries
  · have member : temporaryName k ∈ temporariesFrom 0 after.temporaries :=
      List.mem_map.2 ⟨k, mem_numbersFrom.2 ⟨Nat.zero_le k, lt⟩, rfl⟩
    obtain ⟨index, function, written, read, found, used, alone⟩ :=
      exists_usedOnce (fun _ member => (isOrderly member).1.stacked) once (temporaries member)
        (creates ▸ member)
    have inFunctions := List.mem_of_getElem? found
    obtain ⟨symbol, parameters, locals, housed⟩ := houses function inFunctions
    exact ⟨index, function, written, read, found, used, housed.declaresInt owned typed
      (isTemporary_temporaryName k) used (isOrderly inFunctions).2.1, alone⟩
  · obtain ⟨k, member, rfl⟩ := List.mem_map.1 (typed found temporary).1
    exact ⟨k, (mem_numbersFrom.1 member).2, rfl⟩
  · rw [isTree]
    exact (isOrderly member).1.pushesInOrder
  · intro called arguments routine start p entered comes
    obtain ⟨body, _, _, _, targets, found, _, _, _, _, collected, rfl, rfl⟩ :=
      Code.enter_eq_ok entered
    obtain ⟨function, found', rfl⟩ := Option.map_eq_some_iff.1 found
    have member := List.mem_of_find?_eq_some found'
    obtain ⟨orderly, supplied, results⟩ := isOrderly member
    obtain ⟨symbol, parameters, locals, housed⟩ := houses function member
    have arranged := housed.arranged owned results collected called
    exact arranged.in_order orderly supplied ((List.nodup_flatMap.1 once).1 function member) comes rfl
      rfl

/-- Calls in arguments of calls, in a condition and in both of its branches. -/
def nestedCallsSource : String :=
  "int add(int a, int b) { return a + b; }
int main() { int x; x = 2; if (add(x, 1) - 3) { return add(x, x); } else { return add(add(x, 1), -x); } }"

theorem nested_calls_in_order :
    ∃ compilation routine start, (compile nestedCallsSource {}).result = .ok compilation ∧
      compilation.code.enter compilation.table "main" [] = .ok (routine, start) ∧
      (compilation.code.functions.flatMap fun function =>
        temporaryResults function.body.toList) = temporariesFrom 0 11 ∧
      (∀ k < 11, compilation.UsesOnce (temporaryName k)) ∧
      (∀ scope name id, compilation.table.lookupLocal scope name = some id → isTemporary name →
        ∃ k < 11, name = temporaryName k) ∧
      (∀ function ∈ compilation.code.functions, function.PushesInOrder compilation.tree) ∧
      ∀ p, routine.Comes compilation.table start p →
        p.pushed.length = (pushesBefore routine.body.toList p.pc).length := by
  have facts : (compile nestedCallsSource {}).result.toOption.any fun compilation =>
      (compilation.code.functions.flatMap fun function =>
        temporaryResults function.body.toList).length == 11 &&
      (compilation.code.enter compilation.table "main" []).toOption.any fun _ => true := by
    decide +kernel
  obtain ⟨compilation, compiled, facts⟩ := exists_ok_of_any facts
  obtain ⟨eleven, enters⟩ := Bool.and_eq_true_iff.1 facts
  obtain ⟨⟨routine, start⟩, entered, _⟩ := exists_ok_of_any enters
  obtain ⟨⟨count, inOrder, usedOnce, only⟩, pushes, along⟩ := temporaries_and_arguments_in_order compiled
  have isCount : count = 11 := by
    rw [inOrder] at eleven
    simpa [temporariesFrom, numbersFrom] using eleven
  subst isCount
  exact ⟨compilation, routine, start, compiled, entered, inOrder, usedOnce, only, pushes,
    fun p comes => (along "main" [] routine start p entered comes).1⟩

end MiniC
