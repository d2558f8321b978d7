import MiniC.Proofs.Interpretation
import MiniC.Proofs.Parsing
import MiniC.Proofs.Tables

/-!
# Scopes of a resolved tree

The slots of a function are numbered as its tree is walked: the parameters in order, and the
variables in the order in which blocks declare them. A `Layout` gives the names in sight at a place
their slots. In a tree that was resolved, every scope that is attached gives every name the slot
that the layout there gives it.
-/

namespace MiniC

/-- The names in sight and where they are stored, block by block. -/
abbrev Layout : Type := Blocks Slot

/-- Names with slots numbered from `index` on. -/
def slotBlock (make : Nat → Slot) : (names : List String) → (index : Nat) → List (String × Slot)
  | [], _ => []
  | name :: names, index => (name, make index) :: slotBlock make names (index + 1)

namespace Table

/-- In `scope`, every name is stored where the layout has it. -/
structure Lays (table : Table) (scope : ScopeId) (layout : Layout) : Prop where
  inside : scope < table.scopes.size
  slotAt : ∀ name, IsIdentifier name → table.slotAt scope name = layout.find? name

end Table

namespace Node

mutual
/-- Number of variables that the blocks of a statement declare. -/
def localCount : Node → Nat
  | block _ declarations statements => declarations.length + localCounts statements
  | ifThen _ _ consequent => consequent.localCount
  | ifElse _ _ consequent alternative => consequent.localCount + alternative.localCount
  | _ => 0
def localCounts : List Node → Nat
  | [] => 0
  | node :: nodes => node.localCount + localCounts nodes
end

/-- Something to call, named in `scope`. -/
def CalleeIn (scope : ScopeId) : Node → Prop
  | identifier info name => info.scope = some scope ∧ IsIdentifier name
  | _ => False

mutual
/-- An expression all of whose parts are attached `scope`. -/
def ValueIn (scope : ScopeId) : Node → Prop
  | identifier info name => info.scope = some scope ∧ IsIdentifier name
  | integer info _ => info.scope = some scope
  | real info _ => info.scope = some scope
  | unary info _ operand => info.scope = some scope ∧ operand.ValueIn scope
  | binary info _ lhs rhs => info.scope = some scope ∧ lhs.ValueIn scope ∧ rhs.ValueIn scope
  | call info callee arguments =>
      info.scope = some scope ∧ callee.CalleeIn scope ∧ ValuesIn scope arguments
  | _ => False
def ValuesIn (scope : ScopeId) : List Node → Prop
  | [] => True
  | node :: nodes => node.ValueIn scope ∧ ValuesIn scope nodes
end

mutual
/-- A statement in `scope` of the function with scope `top`, where `count` variables were declared
before it. -/
def ScopedIn (table : Table) (top : ScopeId) :
    (scope : ScopeId) → Layout → (count : Nat) → Node → Prop
  | scope, _, _, empty info => info.scope = some scope
  | _, layout, count, block info declarations statements =>
      ∃ inner, info.scope = some inner ∧ (∀ node ∈ declarations, node.IsDeclaration) ∧
        table.Reaches inner top ∧
        table.Lays inner (slotBlock .localVariable (declaredNames declarations) count :: layout) ∧
        ScopedAll table top inner
          (slotBlock .localVariable (declaredNames declarations) count :: layout)
          (count + declarations.length) statements
  | scope, _, _, returnValue info value => info.scope = some scope ∧ value.ValueIn scope
  | scope, _, _, assignment info target value =>
      info.scope = some scope ∧ IsIdentifier target ∧ value.ValueIn scope
  | scope, layout, count, ifThen info condition consequent =>
      info.scope = some scope ∧ condition.ValueIn scope ∧
        consequent.ScopedIn table top scope layout count
  | scope, layout, count, ifElse info condition consequent alternative =>
      info.scope = some scope ∧ condition.ValueIn scope ∧
        consequent.ScopedIn table top scope layout count ∧
        alternative.ScopedIn table top scope layout (count + consequent.localCount)
  | _, _, _, _ => False
def ScopedAll (table : Table) (top : ScopeId) :
    (scope : ScopeId) → Layout → (count : Nat) → List Node → Prop
  | _, _, _, [] => True
  | scope, layout, count, node :: nodes =>
      node.ScopedIn table top scope layout count ∧
        ScopedAll table top scope layout (count + node.localCount) nodes
end

end Node

namespace Table

/-! ## Tables that only grow -/

/-- `after` has all scopes of `before`, with the same slots for the names used in them. -/
structure Grows (before after : Table) : Prop where
  scopes : before.scopes.size ≤ after.scopes.size
  symbols : before.symbols.size ≤ after.symbols.size
  outer : ∀ scope < before.scopes.size, after.outer? scope = before.outer? scope
  slotAt : ∀ scope < before.scopes.size, ∀ name, IsIdentifier name →
    after.slotAt scope name = before.slotAt scope name
  globals : ∀ {name id}, before.lookupLocal Table.global name = some id →
    after.lookupLocal Table.global name = some id

/-- No symbol of `before` but `function` is changed. -/
def KeepsBut (function : SymbolId) (before after : Table) : Prop :=
  ∀ id < before.symbols.size, id ≠ function → after.symbols[id]? = before.symbols[id]?

variable {first second third : Table}

theorem Grows.refl (table : Table) : table.Grows table :=
  ⟨Nat.le_refl _, Nat.le_refl _, fun _ _ => rfl, fun _ _ _ _ => rfl, id⟩

theorem Grows.trans (grows : first.Grows second) (grows' : second.Grows third) :
    first.Grows third where
  scopes := Nat.le_trans grows.scopes grows'.scopes
  symbols := Nat.le_trans grows.symbols grows'.symbols
  outer := by
    intro scope lt
    rw [grows'.outer scope (Nat.lt_of_lt_of_le lt grows.scopes), grows.outer scope lt]
  slotAt := by
    intro scope lt name isName
    rw [grows'.slotAt scope (Nat.lt_of_lt_of_le lt grows.scopes) name isName,
      grows.slotAt scope lt name isName]
  globals := fun found => grows'.globals (grows.globals found)

theorem KeepsBut.trans {function : SymbolId} (grows : first.Grows second)
    (keeps : first.KeepsBut function second) (keeps' : second.KeepsBut function third) :
    first.KeepsBut function third := by
  intro id lt differs
  rw [keeps' id (Nat.lt_of_lt_of_le lt grows.symbols) differs, keeps id lt differs]

/-- What is around a scope depends on the scopes around it only. -/
theorem Sound.reaches_of_outer (sound : first.Sound)
    (outer : ∀ scope < first.scopes.size, second.outer? scope = first.outer? scope)
    {scope target : ScopeId} (inside : scope < first.scopes.size)
    (reaches : first.Reaches scope target) : second.Reaches scope target := by
  induction reaches with
  | refl scope => exact .refl scope
  | outward found _ ih =>
    have lt := sound.outer_lt found
    exact .outward ((outer _ inside).trans found) (ih (Nat.lt_trans lt inside))

theorem Grows.reaches (grows : first.Grows second) (sound : first.Sound) {scope target : ScopeId}
    (inside : scope < first.scopes.size) (reaches : first.Reaches scope target) :
    second.Reaches scope target :=
  sound.reaches_of_outer grows.outer inside reaches

theorem Grows.lays (grows : first.Grows second) {scope : ScopeId} {layout : Layout}
    (lays : first.Lays scope layout) : second.Lays scope layout where
  inside := Nat.lt_of_lt_of_le lays.inside grows.scopes
  slotAt := fun name isName =>
    (grows.slotAt scope lays.inside name isName).trans (lays.slotAt name isName)

end Table

mutual
/-- A statement stays scoped as the table grows. -/
theorem Node.ScopedIn.grows {before after : Table} {top : ScopeId} (sound : before.Sound)
    (grows : before.Grows after) : (node : Node) → ∀ {scope : ScopeId} {layout : Layout}
    {count : Nat}, node.ScopedIn before top scope layout count →
    node.ScopedIn after top scope layout count
  | .empty .. | .returnValue .. | .assignment .. => by
    intro placed
    exact placed
  | .block _ _ statements => by
    rintro ⟨inner, attached, declared, reaches, lays, placed⟩
    exact ⟨inner, attached, declared, grows.reaches sound lays.inside reaches, grows.lays lays,
      Node.ScopedAll.grows sound grows statements placed⟩
  | .ifThen _ _ consequent => by
    rintro ⟨attached, condition, placed⟩
    exact ⟨attached, condition, Node.ScopedIn.grows sound grows consequent placed⟩
  | .ifElse _ _ consequent alternative => by
    rintro ⟨attached, condition, placed, placed'⟩
    exact ⟨attached, condition, Node.ScopedIn.grows sound grows consequent placed,
      Node.ScopedIn.grows sound grows alternative placed'⟩
  | .program .. | .function .. | .parameter .. | .call .. | .declaration .. | .binary ..
  | .unary .. | .identifier .. | .integer .. | .real .. => by
    intro placed
    exact placed.elim
theorem Node.ScopedAll.grows {before after : Table} {top : ScopeId} (sound : before.Sound)
    (grows : before.Grows after) : (nodes : List Node) → ∀ {scope : ScopeId} {layout : Layout}
    {count : Nat}, Node.ScopedAll before top scope layout count nodes →
    Node.ScopedAll after top scope layout count nodes
  | [] => by
    intro _
    trivial
  | node :: nodes => by
    rintro ⟨placed, placed'⟩
    exact ⟨Node.ScopedIn.grows sound grows node placed,
      Node.ScopedAll.grows sound grows nodes placed'⟩
end

/-! ## Functions -/

namespace Table

/-- The table has a function of that name with so many parameters and variables. -/
def Holds (table : Table) (name : String) (arity slots : Nat) (symbol : SymbolId) : Prop :=
  table.lookupLocal Table.global name = some symbol ∧
    ∃ returnType parameters locals ordinal,
      table.symbols[symbol]? = some (.function name returnType parameters locals ordinal) ∧
      parameters.size = arity ∧ locals.size = slots

end Table

namespace Node

/-- The slots of parameters. -/
def parameterLayout (parameters : List Node) : Layout :=
  [slotBlock .parameter (declaredNames parameters) 0]

/-- A function of a resolved program. -/
def FunctionIn (table : Table) : Node → Prop
  | function info _ name parameters body =>
      ∃ symbol top, info.scope = some top ∧ (∀ node ∈ parameters, node.IsParameter) ∧
        table.Holds name parameters.length body.localCount symbol ∧ top ≠ Table.global ∧
        table.Lays top (parameterLayout parameters) ∧
        body.ScopedIn table top top (parameterLayout parameters) 0
  | _ => False

def functionName? : Node → Option String
  | function _ _ name _ _ => some name
  | _ => none

def functionNames (nodes : List Node) : List String :=
  nodes.filterMap functionName?

theorem FunctionIn.grows {before after : Table} {node : Node} (placed : node.FunctionIn before)
    (sound : before.Sound) (grows : before.Grows after)
    (kept : ∀ id < before.symbols.size, after.symbols[id]? = before.symbols[id]?) :
    node.FunctionIn after := by
  cases node with
  | function info returnType name parameters body =>
    obtain ⟨symbol, top, attached, areParameters, ⟨known, r, ps, ls, k, present, size⟩, notGlobal,
      lays, placed⟩ := placed
    have lt := (Array.getElem?_eq_some_iff.1 present).1
    exact ⟨symbol, top, attached, areParameters,
      ⟨grows.globals known, r, ps, ls, k, (kept symbol lt).trans present, size⟩, notGlobal,
      grows.lays lays, Node.ScopedIn.grows sound grows body placed⟩
  | _ => exact placed.elim

end Node
end MiniC
