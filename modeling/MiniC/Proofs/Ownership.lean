import MiniC.Proofs.Histories
import MiniC.Proofs.Resolution

/-!
# Scopes belong to functions

Blocks open scopes inside that of their function, and whatever is declared in one of them is listed
by that function. So a lookup that starts in a function and finds a place finds one of the function
itself: on the way outward all scopes are of the same function, up to the global scope, and nothing
in that is stored in a frame.

A walk does three things to a table on behalf of a function: it defines a parameter, defines a
variable, or opens a scope and goes on inside (`Declares`). Lowering does only the second. What the
three keep is kept by every walk and by lowering.
-/

namespace MiniC

namespace Table

/-! ## Owners -/

/-- The function has the symbol among its parameters or variables. -/
def Lists (table : Table) (function id : SymbolId) : Prop :=
  ∃ n r ps ls k, table.symbols[function]? = some (.function n r ps ls k) ∧ (id ∈ ps ∨ id ∈ ls)

/-- `owner` gives every scope but the global one the function that it belongs to. A scope belongs
to the function that the scope around it belongs to, and the function lists what is defined in it. -/
structure OwnedBy (owner : ScopeId → Option SymbolId) (table : Table) : Prop where
  sound : table.Sound
  named : ∀ {scope : ScopeId} {name : String} {id : SymbolId},
    table.lookupLocal scope name = some id → (table.symbols[id]?).map Symbol.name = some name
  numbered : table.Numbered
  global : owner Table.global = none
  inner : ∀ {scope outer : ScopeId}, table.outer? scope = some outer → outer ≠ Table.global →
    owner scope = owner outer
  listed : ∀ {scope : ScopeId} {name : String} {id : SymbolId}, scope ≠ Table.global →
    table.lookupLocal scope name = some id →
    ∃ function, owner scope = some function ∧ table.Lists function id

theorem ownedBy_initial : initial.OwnedBy fun _ => none where
  sound := sound_initial
  named := fun {scope name id} => wellBuilt_initial.named.known scope name id
  numbered := numbered_initial
  global := rfl
  inner := fun _ _ => rfl
  listed := fun notGlobal found => absurd (lookupLocal_initial found).1 notGlobal

/-- The symbol that a table gains has the name that is defined. -/
theorem Gains.name_eq {table after : Table} {scope scope' : ScopeId} {name : String}
    {slot : Option Slot} {symbol : Symbol} (gains : table.Gains after scope' symbol)
    (defines : table.Defines after scope name slot) (sound : table.Sound) : symbol.name = name := by
  have found := gains.defines.lookupLocal scope' symbol.name
  rw [if_pos ⟨rfl, rfl⟩, defines.lookupLocal] at found
  split at found
  · next same => exact same.2
  · exact absurd (sound.lookupLocal_lt found) (Nat.lt_irrefl _)

namespace OwnedBy

variable {owner : ScopeId → Option SymbolId} {table after : Table} {f : SymbolId} {scope : ScopeId}

/-- A scope that belongs to a function is not the global one. -/
theorem ne_global (owned : table.OwnedBy owner) (isOwner : owner scope = some f) :
    scope ≠ Table.global := by
  rintro rfl
  rw [owned.global] at isOwner
  cases isOwner

/-- All scopes between a scope and one of a function around it belong to that function. -/
theorem owner_of_reaches (owned : table.OwnedBy owner) {top : ScopeId}
    (reaches : table.Reaches scope top) (notGlobal : top ≠ Table.global) :
    owner scope = owner top := by
  induction reaches with
  | refl => rfl
  | @outward scope outer top found reaches ih =>
    have outerNotGlobal : outer ≠ Table.global := by
      rintro rfl
      exact notGlobal (Nat.le_zero.1 (owned.sound.reaches_le reaches))
    exact (owned.inner found outerNotGlobal).trans (ih notGlobal)

/-- A name that has a place where it is used names a parameter or variable of the function that the
scope belongs to. -/
theorem lists_of_slotAt (owned : table.OwnedBy owner) (isOwner : owner scope = some f)
    {name : String} {slot : Slot} (stored : table.slotAt scope name = some slot) :
    ∃ id s, table.lookup scope name = some id ∧ table.lookupLocal s name = some id ∧
      table.slotOf id = some slot ∧ table.Lists f id := by
  induction scope using Nat.strongRecOn with
  | ind scope ih =>
    rw [owned.sound.slotAt_eq] at stored
    rw [owned.sound.lookup_eq]
    have notGlobal := owned.ne_global isOwner
    cases found : table.lookupLocal scope name with
    | some id =>
      rw [found] at stored
      obtain ⟨g, isOwner', lists⟩ := owned.listed notGlobal found
      rw [isOwner] at isOwner'
      cases isOwner'
      exact ⟨id, scope, rfl, found, stored, lists⟩
    | none =>
      rw [found] at stored
      obtain ⟨outer, around, stored⟩ := Option.bind_eq_some_iff.1 stored
      have outerNotGlobal : outer ≠ Table.global := by
        rintro rfl
        rw [owned.sound.slotAt_global] at stored
        cases stored
      rw [around]
      exact ih outer (owned.sound.outer_lt around)
        ((owned.inner around outerNotGlobal).symm.trans isOwner) stored

/-- A scope that is opened belongs to the function of the scope around it, or to any function if
that is the global one. -/
theorem openScope (owned : table.OwnedBy owner) {outer : ScopeId}
    (inside : outer < table.scopes.size)
    (same : outer ≠ Table.global → owner outer = some f) :
    (table.openScope outer).OwnedBy fun s =>
      if s = table.scopes.size then some f else owner s where
  sound := owned.sound.openScope inside
  named := by
    intro s name id found
    rw [lookupLocal_openScope] at found
    exact owned.named found
  numbered := ⟨owned.numbered.parameters, owned.numbered.locals, owned.numbered.ordinals⟩
  global := by
    rw [if_neg (Nat.ne_of_lt owned.sound.global_lt)]
    exact owned.global
  inner := by
    intro s o around notGlobal
    rw [outer?_openScope] at around
    split at around
    · next isNew =>
      cases around
      rw [if_pos isNew, if_neg (Nat.ne_of_lt inside)]
      exact (same notGlobal).symm
    · next isOld =>
      have lt : s < table.scopes.size := by
        by_contra outside
        rw [outer?_of_le (Nat.le_of_not_lt outside)] at around
        cases around
      have less := Nat.lt_trans (owned.sound.outer_lt around) lt
      rw [if_neg isOld, if_neg (Nat.ne_of_lt less)]
      exact owned.inner around notGlobal
  listed := by
    intro s name id notGlobal found
    rw [lookupLocal_openScope] at found
    have isOld : s ≠ table.scopes.size := by
      rintro rfl
      rw [lookupLocal_of_le (Nat.le_refl _)] at found
      cases found
    rw [if_neg isOld]
    exact owned.listed notGlobal found

/-- A new symbol of a scope is listed by the function that the scope belongs to. -/
theorem defines (owned : table.OwnedBy owner) {name : String} {slot : Option Slot}
    (defines : table.Defines after scope name slot) (stored : slot = none ↔ scope = Table.global)
    {scope' : ScopeId} {symbol : Symbol} (gains : table.Gains after scope' symbol)
    (kept : ∀ g id, table.Lists g id → after.Lists g id)
    (new : scope ≠ Table.global →
      ∃ function, owner scope = some function ∧ after.Lists function table.symbols.size) :
    after.OwnedBy owner where
  sound := defines.sound owned.sound stored
  named := by
    intro s n id found
    rw [gains.symbols.map_name]
    rw [defines.lookupLocal] at found
    split at found
    · next same =>
      cases found
      rw [if_pos rfl, gains.name_eq defines owned.sound, same.2]
    · rw [if_neg (Nat.ne_of_lt (owned.sound.lookupLocal_lt found))]
      exact owned.named found
  numbered := owned.numbered.gains gains
  global := owned.global
  inner := by
    intro s o around
    rw [defines.outer] at around
    exact owned.inner around
  listed := by
    intro s n id notGlobal found
    rw [defines.lookupLocal] at found
    split at found
    · next same =>
      cases found
      obtain ⟨rfl, _⟩ := same
      exact new notGlobal
    · obtain ⟨g, isOwner, lists⟩ := owned.listed notGlobal found
      exact ⟨g, isOwner, kept g id lists⟩

end OwnedBy

/-! ## What is done to a table on behalf of a function -/

theorem gains_of_perform {table after : Table} {operation : Operation} {id : SymbolId}
    (valid : operation.IsValid table) (performed : table.perform operation = (.ok id, after))
    (defines : operation.scope?.isSome) :
    ∃ scope symbol, operation.scope? = some scope ∧ table.Gains after scope symbol := by
  rcases perform_cases valid with
    ⟨outer, rfl, _⟩ | ⟨error, failed⟩ | ⟨scope, symbol, after', isScope, gains, done⟩
  · cases defines
  · rw [failed] at performed
    cases performed
  · rw [done] at performed
    cases performed
    exact ⟨scope, symbol, isScope, gains⟩

section Functions

variable {owner : ScopeId → Option SymbolId} {table after : Table} {f id : SymbolId}
  {scope : ScopeId} {name : String} {ty : Ty}

/-- Names that become parameters or variables of a function are listed with those before. -/
theorem lists_of_grown {n : String} {r : Ty} {ps ls ps' ls' : Array SymbolId} {k : Nat}
    (present : table.symbols[f]? = some (.function n r ps ls k))
    (present' : after.symbols[f]? = some (.function n r ps' ls' k))
    (others : ∀ other < table.symbols.size, other ≠ f →
      after.symbols[other]? = table.symbols[other]?)
    (parameters : ∀ id ∈ ps, id ∈ ps') (locals : ∀ id ∈ ls, id ∈ ls') (g id : SymbolId)
    (lists : table.Lists g id) : after.Lists g id := by
  obtain ⟨n', r', ps'', ls'', k', found, member⟩ := lists
  by_cases same : g = f
  · subst same
    rw [present] at found
    cases found
    exact ⟨n, r, ps', ls', k, present', member.imp (parameters id) (locals id)⟩
  · have lt := (Array.getElem?_eq_some_iff.1 found).1
    exact ⟨n', r', ps'', ls'', k', (others g lt same).trans found, member⟩

/-- What a function lists may be defined in one of its scopes. -/
theorem OwnedBy.registers {n : String} {r : Ty} {ps ls ps' ls' : Array SymbolId} {k : Nat}
    {slot : Slot} {operation : Operation} (owned : table.OwnedBy owner)
    (isOwner : owner scope = some f) (defines : table.Defines after scope name (some slot))
    (present : table.symbols[f]? = some (.function n r ps ls k))
    (present' : after.symbols[f]? = some (.function n r ps' ls' k))
    (others : ∀ other < table.symbols.size, other ≠ f →
      after.symbols[other]? = table.symbols[other]?)
    (valid : operation.IsValid table) (performed : table.perform operation = (.ok id, after))
    (isDefinition : operation.scope?.isSome)
    (parameters : ∀ id ∈ ps, id ∈ ps') (locals : ∀ id ∈ ls, id ∈ ls')
    (listed : table.symbols.size ∈ ps' ∨ table.symbols.size ∈ ls') : after.OwnedBy owner := by
  have notGlobal := owned.ne_global isOwner
  obtain ⟨_, _, _, gains⟩ := gains_of_perform valid performed isDefinition
  exact owned.defines defines (by simp [notGlobal]) gains
    (lists_of_grown present present' others parameters locals)
    fun _ => ⟨f, isOwner, n, r, ps', ls', k, present', listed⟩

theorem OwnedBy.defineParameter (owned : table.OwnedBy owner) (inside : scope < table.scopes.size)
    (isOwner : owner scope = some f)
    (defined : table.defineParameter scope f name ty = .ok (id, after)) :
    after.OwnedBy owner ∧ ∃ slot, table.Defines after scope name (some slot) := by
  obtain ⟨_, _, _, _, _, _, present, _⟩ := exists_define_of_parameter defined
  obtain ⟨defines, present', others⟩ := defineParameter_eq_ok inside present defined
  have valid : Operation.IsValid table (.defineParameter scope f name ty) :=
    ⟨inside, (Array.getElem?_eq_some_iff.1 present).1⟩
  exact ⟨owned.registers isOwner defines present present' others valid (perform_eq_ok.2 defined) rfl
    (fun _ => Array.mem_push_of_mem _) (fun _ member => member) (.inl Array.mem_push_self), _, defines⟩

theorem OwnedBy.defineVariable (owned : table.OwnedBy owner) (inside : scope < table.scopes.size)
    (isOwner : owner scope = some f)
    (defined : table.defineVariable scope f name ty = .ok (id, after)) :
    after.OwnedBy owner ∧ ∃ slot, table.Defines after scope name (some slot) := by
  obtain ⟨_, _, _, _, _, _, present, _⟩ := exists_define_of_variable defined
  obtain ⟨defines, present', others⟩ := defineVariable_eq_ok inside present defined
  have valid : Operation.IsValid table (.defineVariable scope f name ty) :=
    ⟨inside, (Array.getElem?_eq_some_iff.1 present).1⟩
  exact ⟨owned.registers isOwner defines present present' others valid (perform_eq_ok.2 defined) rfl
    (fun _ member => member) (fun _ => Array.mem_push_of_mem _) (.inr Array.mem_push_self), _, defines⟩

/-- Registering something new with a function does not change what is new. -/
theorem symbol_of_define {symbol : Symbol} {register : Symbol → Symbol} {middle : Table}
    (added : table.define scope symbol = .ok (id, middle)) (lt : f < table.symbols.size) :
    (middle.symbols.modify f register)[table.symbols.size]? = some symbol := by
  obtain ⟨_, symbols, _, _⟩ := define_eq_ok added
  rw [Array.getElem?_modify, if_neg (Nat.ne_of_lt lt), symbols, Array.getElem?_push_size]

/-- The symbol of a parameter that is defined. -/
theorem symbol_of_defineParameter {n : String} {r : Ty} {ps ls : Array SymbolId} {k : Nat}
    (present : table.symbols[f]? = some (.function n r ps ls k))
    (defined : table.defineParameter scope f name ty = .ok (id, after)) :
    after.symbols[table.symbols.size]? = some (.parameter name ty ps.size) := by
  obtain ⟨_, _, _, _, _, middle, present', added, rfl⟩ := exists_define_of_parameter defined
  rw [present] at present'
  cases present'
  exact symbol_of_define added (Array.getElem?_eq_some_iff.1 present).1

/-- The symbol of a variable that is defined. -/
theorem symbol_of_defineVariable {n : String} {r : Ty} {ps ls : Array SymbolId} {k : Nat}
    (present : table.symbols[f]? = some (.function n r ps ls k))
    (defined : table.defineVariable scope f name ty = .ok (id, after)) :
    after.symbols[table.symbols.size]? = some (.localVariable name ty ls.size) := by
  obtain ⟨_, _, _, _, _, middle, present', added, rfl⟩ := exists_define_of_variable defined
  rw [present] at present'
  cases present'
  exact symbol_of_define added (Array.getElem?_eq_some_iff.1 present).1

end Functions

/-- A table that is owned, with all that was in the one before: scopes keep their owners, and global
names their symbols. -/
structure Keeps (owner owner' : ScopeId → Option SymbolId) (before after : Table) : Prop where
  owned : after.OwnedBy owner'
  size : before.scopes.size ≤ after.scopes.size
  owners : ∀ s < before.scopes.size, owner' s = owner s
  globals : ∀ {name id}, before.lookupLocal Table.global name = some id →
    after.lookupLocal Table.global name = some id

section Keeping

variable {owner owner' owner'' : ScopeId → Option SymbolId} {before middle after : Table}

theorem Keeps.refl (owned : before.OwnedBy owner) : Keeps owner owner before before :=
  ⟨owned, Nat.le_refl _, fun _ _ => rfl, id⟩

theorem Keeps.trans (first : Keeps owner owner' before middle)
    (second : Keeps owner' owner'' middle after) : Keeps owner owner'' before after where
  owned := second.owned
  size := Nat.le_trans first.size second.size
  owners := by
    intro s lt
    rw [second.owners s (Nat.lt_of_lt_of_le lt first.size), first.owners s lt]
  globals := fun found => second.globals (first.globals found)

/-- One more name takes nothing away. -/
theorem Defines.keeps {scope : ScopeId} {slot : Option Slot} {name : String}
    (defines : before.Defines after scope name slot) (owned : after.OwnedBy owner) :
    Keeps owner owner before after where
  owned := owned
  size := Nat.le_of_eq defines.size.symm
  owners := fun _ _ => rfl
  globals := by
    intro other id found
    rw [defines.lookupLocal, if_neg]
    · exact found
    · rintro ⟨rfl, rfl⟩
      rw [defines.fresh] at found
      cases found

theorem OwnedBy.keeps_openScope (owned : before.OwnedBy owner) {outer : ScopeId} {f : SymbolId}
    (inside : outer < before.scopes.size) (same : outer ≠ Table.global → owner outer = some f) :
    Keeps owner (fun s => if s = before.scopes.size then some f else owner s) before
      (before.openScope outer) where
  owned := owned.openScope inside same
  size := by
    rw [size_openScope]
    exact Nat.le_succ _
  owners := fun s lt => if_neg (Nat.ne_of_lt lt)
  globals := by
    intro name id found
    rw [lookupLocal_openScope]
    exact found

end Keeping

/-- What is done to a table for the function `f`, from `scope` on inward. -/
inductive Declares (f : SymbolId) : (scope : ScopeId) → (before after : Table) → Prop
  | nothing (scope : ScopeId) (table : Table) : Declares f scope table table
  | parameter {scope : ScopeId} {before middle after : Table} {name : String} {ty : Ty}
      {id : SymbolId} (defined : before.defineParameter scope f name ty = .ok (id, middle))
      (later : Declares f scope middle after) : Declares f scope before after
  | localVariable {scope : ScopeId} {before middle after : Table} {name : String} {ty : Ty}
      {id : SymbolId} (defined : before.defineVariable scope f name ty = .ok (id, middle))
      (later : Declares f scope middle after) : Declares f scope before after
  | block {scope : ScopeId} {before middle after : Table}
      (inner : Declares f before.scopes.size (before.openScope scope) middle)
      (later : Declares f scope middle after) : Declares f scope before after

namespace Declares

variable {owner : ScopeId → Option SymbolId} {f : SymbolId} {scope : ScopeId}
  {before middle after : Table}

theorem trans (first : Declares f scope before middle) (second : Declares f scope middle after) :
    Declares f scope before after := by
  induction first with
  | nothing => exact second
  | parameter defined _ ih => exact .parameter defined (ih second)
  | localVariable defined _ ih => exact .localVariable defined (ih second)
  | block inner _ _ ih => exact .block inner (ih second)

theorem keeps (declares : Declares f scope before after) (owned : before.OwnedBy owner)
    (inside : scope < before.scopes.size) (isOwner : owner scope = some f) :
    ∃ owner', Keeps owner owner' before after := by
  induction declares generalizing owner with
  | nothing => exact ⟨owner, .refl owned⟩
  | parameter defined _ ih =>
    obtain ⟨owned', _, defines⟩ := owned.defineParameter inside isOwner defined
    obtain ⟨owner', keeps⟩ := ih owned' (defines.size ▸ inside) isOwner
    exact ⟨owner', (defines.keeps owned').trans keeps⟩
  | localVariable defined _ ih =>
    obtain ⟨owned', _, defines⟩ := owned.defineVariable inside isOwner defined
    obtain ⟨owner', keeps⟩ := ih owned' (defines.size ▸ inside) isOwner
    exact ⟨owner', (defines.keeps owned').trans keeps⟩
  | @block scope before middle after _ _ ihInner ihLater =>
    have opened := owned.keeps_openScope inside fun _ => isOwner
    have wider : before.scopes.size < (before.openScope scope).scopes.size := by
      rw [size_openScope]
      exact Nat.lt_succ_self _
    obtain ⟨owner₁, inner⟩ := ihInner opened.owned wider (if_pos rfl)
    have first := opened.trans inner
    obtain ⟨owner₂, later⟩ := ihLater first.owned (Nat.lt_of_lt_of_le inside first.size)
      ((first.owners _ inside).trans isOwner)
    exact ⟨owner₂, first.trans later⟩

end Declares
end Table

/-! ## Walking -/

namespace Node

open Resolution Table

theorem declares_of_walkAll_declared {ctx : Context} {table after : Table} {f : SymbolId}
    {nodes walked : List Node} (inFunction : ctx.function = some f)
    (declared : ∀ node ∈ nodes, node.IsDeclaration ∨ node.IsParameter)
    (found : walkAll ctx table nodes = (walked, .ok after)) :
    Declares f ctx.scope table after := by
  induction nodes generalizing table walked with
  | nil =>
    cases found
    exact .nothing _ _
  | cons node nodes ih =>
    obtain ⟨isDeclared, areDeclared⟩ := List.forall_mem_cons.1 declared
    obtain ⟨⟨first, rest⟩, both, rfl⟩ := Walked.map_eq_ok.1 found
    obtain ⟨middle, foundFirst, foundRest⟩ := Walked.andThen_eq_ok.1 both
    cases node with
    | declaration info ty name =>
      obtain ⟨_, declares⟩ := Prod.mk.inj foundFirst
      obtain ⟨id, defined⟩ := declareVariable_eq_ok inFunction declares
      exact .localVariable defined (ih areDeclared foundRest)
    | parameter info ty name =>
      obtain ⟨_, declares⟩ := Prod.mk.inj foundFirst
      obtain ⟨id, defined⟩ := declareParameter_eq_ok inFunction declares
      exact .parameter defined (ih areDeclared foundRest)
    | _ => exact isDeclared.elim False.elim False.elim

mutual
/-- Walking through a statement only declares variables of its function. -/
theorem declares_of_walk {f : SymbolId} : (node : Node) → ∀ ⦃ctx : Context⦄
    ⦃table after : Table⦄ ⦃walked : Node⦄, node.IsStatement → ctx.function = some f →
    node.walk ctx table = (walked, .ok after) → Declares f ctx.scope table after
  | empty info => by
    intro ctx table after walked _ _ found
    cases found
    exact .nothing _ _
  | returnValue info value => by
    intro ctx table after walked isValue _ found
    obtain ⟨value', foundValue, _⟩ := walk_value ctx table value isValue
    rw [walk, foundValue] at found
    cases found
    exact .nothing _ _
  | assignment info target value => by
    rintro ctx table after walked ⟨_, isValue⟩ _ found
    obtain ⟨value', foundValue, _⟩ := walk_value ctx table value isValue
    rw [walk, foundValue] at found
    cases found
    exact .nothing _ _
  | ifThen info condition consequent => by
    rintro ctx table after walked ⟨isValue, isStatement⟩ inFunction found
    obtain ⟨condition', foundValue, _⟩ := walk_value ctx table condition isValue
    rw [walk] at found
    obtain ⟨⟨c, s⟩, both, rfl⟩ := Walked.map_eq_ok.1 found
    obtain ⟨middle, first, second⟩ := Walked.andThen_eq_ok.1 both
    rw [foundValue] at first
    cases first
    exact declares_of_walk consequent isStatement inFunction second
  | ifElse info condition consequent alternative => by
    rintro ctx table after walked ⟨isValue, isStatement, isStatement'⟩ inFunction found
    obtain ⟨condition', foundValue, _⟩ := walk_value ctx table condition isValue
    rw [walk] at found
    obtain ⟨⟨⟨c, s⟩, a⟩, all, rfl⟩ := Walked.map_eq_ok.1 found
    obtain ⟨middle, both, third⟩ := Walked.andThen_eq_ok.1 all
    obtain ⟨start, first, second⟩ := Walked.andThen_eq_ok.1 both
    rw [foundValue] at first
    cases first
    exact (declares_of_walk consequent isStatement inFunction second).trans
      (declares_of_walk alternative isStatement' inFunction third)
  | block info declarations statements => by
    rintro ctx table after walked ⟨declared, areStatements⟩ inFunction found
    rw [walk] at found
    obtain ⟨⟨ds, ss⟩, both, rfl⟩ := Walked.map_eq_ok.1 found
    obtain ⟨middle, first, second⟩ := Walked.andThen_eq_ok.1 both
    have inFunction' : ({ ctx with scope := table.scopes.size } : Context).function = some f :=
      inFunction
    have inner := declares_of_walkAll_declared inFunction'
      (fun node member => .inl (declared node member)) first
    exact .block (inner.trans (declares_of_walkAll statements areStatements inFunction' second))
      (.nothing _ _)
  | program .. | function .. | parameter .. | call .. | declaration .. | binary .. | unary ..
  | identifier .. | integer .. | real .. => fun _ _ _ _ isStatement => isStatement.elim
theorem declares_of_walkAll {f : SymbolId} : (nodes : List Node) → ∀ ⦃ctx : Context⦄
    ⦃table after : Table⦄ ⦃walked : List Node⦄, AreStatements nodes → ctx.function = some f →
    walkAll ctx table nodes = (walked, .ok after) → Declares f ctx.scope table after
  | [] => by
    intro ctx table after walked _ _ found
    cases found
    exact .nothing _ _
  | node :: nodes => by
    rintro ctx table after walked ⟨isStatement, areStatements⟩ inFunction found
    rw [walkAll] at found
    obtain ⟨⟨first, rest⟩, both, rfl⟩ := Walked.map_eq_ok.1 found
    obtain ⟨middle, foundFirst, foundRest⟩ := Walked.andThen_eq_ok.1 both
    exact (declares_of_walk node isStatement inFunction foundFirst).trans
      (declares_of_walkAll nodes areStatements inFunction foundRest)
end

/-- A function whose scope belongs to its symbol. -/
def OwnedIn (owner : ScopeId → Option SymbolId) (table : Table) : Node → Prop
  | function info _ name _ _ =>
      ∃ top symbol, info.scope = some top ∧ top < table.scopes.size ∧
        table.lookupLocal Table.global name = some symbol ∧ owner top = some symbol
  | _ => False

theorem OwnedIn.keeps {owner owner' : ScopeId → Option SymbolId} {before after : Table}
    {node : Node} (ownedIn : node.OwnedIn owner before) (keeps : Keeps owner owner' before after) :
    node.OwnedIn owner' after := by
  cases node with
  | function info returnType name parameters body =>
    obtain ⟨top, symbol, attached, inside, known, isOwner⟩ := ownedIn
    exact ⟨top, symbol, attached, Nat.lt_of_lt_of_le inside keeps.size, keeps.globals known,
      (keeps.owners top inside).trans isOwner⟩
  | _ => exact ownedIn.elim

/-- Walking through a function opens a scope that belongs to it. -/
theorem walk_owned {owner : ScopeId → Option SymbolId} {table after : Table} {node walked : Node}
    (owned : table.OwnedBy owner) (isFunction : node.IsFunction)
    (found : node.walk ⟨Table.global, none⟩ table = (walked, .ok after)) :
    ∃ owner', Keeps owner owner' table after ∧ walked.OwnedIn owner' after := by
  cases node with
  | function info returnType name parameters body =>
    obtain ⟨_, areParameters, isStatement⟩ := isFunction
    rw [walk] at found
    split at found
    · cases found
    · next inside opened enters =>
      obtain ⟨id, named, defined, rfl, rfl⟩ := defines_of_enterFunction enters
      obtain ⟨⟨ps, b⟩, both, rfl⟩ := Walked.map_eq_ok.1 found
      obtain ⟨entered, first, second⟩ := Walked.andThen_eq_ok.1 both
      have global_lt := owned.sound.global_lt
      obtain ⟨defines, rfl, ordinal, symbols⟩ := defineFunction_eq_ok global_lt defined
      have performed : table.perform (.defineFunction Table.global name returnType) =
          (.ok table.symbols.size, named) := perform_eq_ok.2 defined
      have valid : Operation.IsValid table (.defineFunction Table.global name returnType) :=
        global_lt
      obtain ⟨_, _, _, gains⟩ := gains_of_perform valid performed rfl
      have ownedNamed : named.OwnedBy owner := by
        refine owned.defines defines (by simp) gains ?_
          fun notGlobal => absurd rfl notGlobal
        rintro g id ⟨n, r, ps, ls, k, present, member⟩
        have lt := (Array.getElem?_eq_some_iff.1 present).1
        refine ⟨n, r, ps, ls, k, ?_, member⟩
        rw [symbols, Array.getElem?_push_lt lt, ← present, Array.getElem?_eq_getElem lt]
      have opened := ownedNamed.keeps_openScope (f := table.symbols.size)
        ownedNamed.sound.global_lt fun notGlobal => absurd rfl notGlobal
      have inside : named.scopes.size < (named.openScope Table.global).scopes.size := by
        rw [size_openScope]
        exact Nat.lt_succ_self _
      have declares := (declares_of_walkAll_declared rfl
        (fun node member => .inr (areParameters node member)) first).trans
          (declares_of_walk body isStatement rfl second)
      obtain ⟨owner', keeps⟩ := declares.keeps opened.owned inside (if_pos rfl)
      have known : named.lookupLocal Table.global name = some table.symbols.size := by
        rw [defines.lookupLocal, if_pos ⟨rfl, rfl⟩]
      refine ⟨owner', (defines.keeps ownedNamed).trans (opened.trans keeps), named.scopes.size,
        table.symbols.size, rfl, Nat.lt_of_lt_of_le inside keeps.size, ?_, ?_⟩
      · exact keeps.globals (opened.globals known)
      · exact (keeps.owners _ inside).trans (if_pos rfl)
  | _ => exact isFunction.elim

theorem walkAll_owned {owner : ScopeId → Option SymbolId} {table after : Table}
    {nodes walked : List Node} (owned : table.OwnedBy owner)
    (functions : ∀ node ∈ nodes, node.IsFunction)
    (found : walkAll ⟨Table.global, none⟩ table nodes = (walked, .ok after)) :
    ∃ owner', Keeps owner owner' table after ∧ ∀ node ∈ walked, node.OwnedIn owner' after := by
  induction nodes generalizing owner table walked with
  | nil =>
    cases found
    exact ⟨owner, .refl owned, fun _ member => absurd member List.not_mem_nil⟩
  | cons node nodes ih =>
    obtain ⟨isFunction, areFunctions⟩ := List.forall_mem_cons.1 functions
    rw [walkAll] at found
    obtain ⟨⟨first, rest⟩, both, rfl⟩ := Walked.map_eq_ok.1 found
    obtain ⟨middle, foundFirst, foundRest⟩ := Walked.andThen_eq_ok.1 both
    obtain ⟨owner₁, keeps, ownedIn⟩ := walk_owned owned isFunction foundFirst
    obtain ⟨owner₂, keeps', areOwnedIn⟩ := ih keeps.owned areFunctions foundRest
    exact ⟨owner₂, keeps.trans keeps', List.forall_mem_cons.2 ⟨ownedIn.keeps keeps', areOwnedIn⟩⟩

/-- In a resolved program every scope belongs to the function that it is in. -/
theorem resolve_owned {info : Info} {functions : List Node} {walked : Node} {table : Table}
    (areFunctions : ∀ node ∈ functions, node.IsFunction)
    (resolved : (program info functions).resolve = (walked, .ok table)) :
    ∃ info' functions' owner, walked = program info' functions' ∧ table.OwnedBy owner ∧
      ∀ node ∈ functions', node.OwnedIn owner table := by
  rw [resolve_eq_walk] at resolved
  rw [walk] at resolved
  obtain ⟨functions', found, rfl⟩ := Walked.map_eq_ok.1 resolved
  obtain ⟨owner, keeps, ownedIn⟩ := walkAll_owned ownedBy_initial areFunctions found
  exact ⟨_, functions', owner, rfl, keeps.owned, ownedIn⟩

end Node
end MiniC
