import MiniC.Proofs.Results
import MiniC.Symbol.Table

/-!
# What names mean in a symbol table

A lookup goes outward from scope to scope, so a definition changes what its name means only in the
scopes inside the one that it is made in. The place that a name is stored in, `slotAt`, is what the
later stages use of a table.

What a call has changed stays when it fails. No call that fails has changed anything yet
(`Update.Atomic`).
-/

namespace MiniC.Table

/-- The scope around a scope. -/
def outer? (table : Table) (scope : ScopeId) : Option ScopeId :=
  (table.scopes[scope]?).bind (·.outer)

/-- The place that a name is stored in when it is used in `scope`. -/
def slotAt (table : Table) (scope : ScopeId) (name : String) : Option Slot :=
  (table.find? scope name).bind (·.slot?)

/-- The place that a symbol stands for. -/
def slotOf (table : Table) (id : SymbolId) : Option Slot :=
  (table.symbols[id]?).bind (·.slot?)

/-- `target` is `scope` or one of the scopes around it. -/
inductive Reaches (table : Table) : ScopeId → ScopeId → Prop
  | refl (scope : ScopeId) : Reaches table scope scope
  | outward {scope outer target : ScopeId} :
      table.outer? scope = some outer → Reaches table outer target → Reaches table scope target

theorem Reaches.of_outer {before after : Table}
    (same : ∀ scope, after.outer? scope = before.outer? scope) {scope target : ScopeId}
    (reaches : before.Reaches scope target) : after.Reaches scope target := by
  induction reaches with
  | refl scope => exact .refl scope
  | outward found _ ih => exact .outward ((same _).trans found) ih

/-- What every table that a program is resolved to satisfies. -/
structure Sound (table : Table) : Prop where
  /-- There is a global scope, and nothing around it. -/
  global : ∃ scope, table.scopes[Table.global]? = some scope ∧ scope.outer = none
  outer_lt : ∀ {scope outer : Nat}, table.outer? scope = some outer → outer < scope
  /-- Names stand for symbols, and exactly the global ones are not stored in a frame. -/
  known : ∀ {scope : ScopeId} {name id}, table.lookupLocal scope name = some id →
    ∃ symbol, table.symbols[id]? = some symbol ∧ (symbol.slot? = none ↔ scope = Table.global)

/-! ## Lookup -/

theorem lookupLocal_of_le {table : Table} {scope : ScopeId} (outside : table.scopes.size ≤ scope)
    (name : String) : table.lookupLocal scope name = none := by
  unfold lookupLocal
  rw [Array.getElem?_eq_none outside]
  rfl

theorem outer?_of_le {table : Table} {scope : ScopeId} (outside : table.scopes.size ≤ scope) :
    table.outer? scope = none := by
  unfold outer?
  rw [Array.getElem?_eq_none outside]
  rfl

section Lookup

variable {table : Table}
  (outer_lt : ∀ {scope outer : Nat}, table.outer? scope = some outer → outer < scope)

include outer_lt

theorem outer?_zero : table.outer? 0 = none := by
  cases found : table.outer? 0 with
  | none => rfl
  | some outer => exact absurd (outer_lt found) (Nat.not_lt_zero _)

theorem lookupWithin_zero (name : String) (steps : Nat) :
    table.lookupWithin name steps 0 = table.lookupLocal 0 name := by
  have top := outer?_zero outer_lt
  unfold outer? at top
  cases steps with
  | zero => rfl
  | succ steps =>
    unfold lookupWithin
    rw [top]
    cases table.lookupLocal 0 name <;> rfl

/-- As an outer scope has a smaller number, any number of steps from that of the scope on does. -/
theorem lookupWithin_eq (name : String) (steps : Nat) :
    ∀ {other scope : Nat}, scope ≤ steps → scope ≤ other →
      table.lookupWithin name steps scope = table.lookupWithin name other scope := by
  induction steps with
  | zero =>
    intro other scope le _
    obtain rfl : scope = 0 := Nat.le_zero.1 le
    rw [lookupWithin_zero outer_lt, lookupWithin_zero outer_lt]
  | succ steps ih =>
    intro other scope le le'
    cases other with
    | zero =>
      obtain rfl : scope = 0 := Nat.le_zero.1 le'
      rw [lookupWithin_zero outer_lt, lookupWithin_zero outer_lt]
    | succ other =>
      unfold lookupWithin
      cases table.lookupLocal scope name with
      | some id => rfl
      | none =>
        dsimp only
        split
        · next outer found =>
          have lt := outer_lt (show table.outer? scope = some outer from found)
          exact ih (by omega) (by omega)
        · rfl

/-- A name means what it means in the scope itself, or else what it means in the scope around. -/
theorem lookup_eq (scope : ScopeId) (name : String) :
    table.lookup scope name =
      (table.lookupLocal scope name).or ((table.outer? scope).bind (table.lookup · name)) := by
  unfold lookup
  cases scope with
  | zero =>
    rw [lookupWithin_zero outer_lt, outer?_zero outer_lt, Option.bind_none, Option.or_none]
  | succ scope =>
    conv => lhs; unfold lookupWithin
    cases table.lookupLocal (scope + 1) name with
    | some id => rfl
    | none =>
      dsimp only [Option.none_or]
      unfold outer?
      split
      · next outer found =>
        have lt := outer_lt (show table.outer? (scope + 1) = some outer from found)
        rw [found]
        exact lookupWithin_eq outer_lt name scope (by omega) (Nat.le_refl _)
      · next found =>
        rw [found]
        rfl

end Lookup

namespace Sound

variable {table : Table}

theorem global_lt (sound : table.Sound) : Table.global < table.scopes.size := by
  obtain ⟨scope, found, _⟩ := sound.global
  exact (Array.getElem?_eq_some_iff.1 found).1

theorem lookupLocal_lt {scope : ScopeId} {name : String} {id : SymbolId} (sound : table.Sound)
    (found : table.lookupLocal scope name = some id) : id < table.symbols.size := by
  obtain ⟨symbol, present, _⟩ := sound.known found
  exact (Array.getElem?_eq_some_iff.1 present).1

theorem lookup_eq (sound : table.Sound) (scope : ScopeId) (name : String) :
    table.lookup scope name =
      (table.lookupLocal scope name).or ((table.outer? scope).bind (table.lookup · name)) :=
  Table.lookup_eq sound.outer_lt scope name

theorem slotAt_eq (sound : table.Sound) (scope : ScopeId) (name : String) :
    table.slotAt scope name = match table.lookupLocal scope name with
      | some id => table.slotOf id
      | none => (table.outer? scope).bind (table.slotAt · name) := by
  unfold slotAt find?
  rw [sound.lookup_eq]
  cases table.lookupLocal scope name with
  | some id => rfl
  | none => cases table.outer? scope <;> rfl

/-- Nothing has a place in the global scope. -/
theorem slotAt_global (sound : table.Sound) (name : String) :
    table.slotAt Table.global name = none := by
  rw [sound.slotAt_eq]
  cases found : table.lookupLocal Table.global name with
  | some id =>
    obtain ⟨symbol, present, place⟩ := sound.known found
    change (table.symbols[id]?).bind (·.slot?) = none
    rw [present]
    exact place.2 rfl
  | none =>
    obtain ⟨scope, present, top⟩ := sound.global
    change ((table.scopes[Table.global]?).bind (·.outer)).bind (table.slotAt · name) = none
    rw [present, Option.bind_some, top]
    rfl

/-- A name that is defined nowhere is not stored. -/
theorem slotAt_eq_none (sound : table.Sound) {name : String}
    (nowhere : ∀ scope, table.lookupLocal scope name = none) (scope : Nat) :
    table.slotAt scope name = none := by
  induction scope using Nat.strongRecOn with
  | ind scope ih =>
    rw [sound.slotAt_eq, nowhere]
    cases around : table.outer? scope with
    | none => rfl
    | some outer => exact ih outer (sound.outer_lt around)

/-- Nothing is found from outside of the table. -/
theorem lt_of_slotAt (sound : table.Sound) {scope : ScopeId} {name : String} {slot : Slot}
    (stored : table.slotAt scope name = some slot) : scope < table.scopes.size := by
  refine Nat.lt_of_not_le fun outside => ?_
  rw [sound.slotAt_eq, lookupLocal_of_le outside, outer?_of_le outside] at stored
  cases stored

theorem reaches_le (sound : table.Sound) {scope target : ScopeId}
    (reaches : table.Reaches scope target) : target ≤ scope := by
  induction reaches with
  | refl scope => exact Nat.le_refl _
  | outward found _ ih => exact Nat.le_trans ih (Nat.le_of_lt (sound.outer_lt found))

end Sound

/-! ## Opening a scope -/

section OpenScope

variable (table : Table) (outer : ScopeId)

@[simp] theorem size_openScope : (table.openScope outer).scopes.size = table.scopes.size + 1 := by
  simp [openScope]

@[simp] theorem symbols_openScope : (table.openScope outer).symbols = table.symbols := rfl

@[simp] theorem lookupLocal_openScope (scope : ScopeId) (name : String) :
    (table.openScope outer).lookupLocal scope name = table.lookupLocal scope name := by
  unfold lookupLocal openScope
  dsimp only
  rw [Array.getElem?_push, Array.size_modify, Array.getElem?_modify]
  split
  · next same =>
    rw [same, Array.getElem?_eq_none (Nat.le_refl _)]
    rfl
  · split
    · cases table.scopes[scope]? <;> rfl
    · rfl

theorem outer?_openScope (scope : ScopeId) : (table.openScope outer).outer? scope =
    if scope = table.scopes.size then some outer else table.outer? scope := by
  unfold outer? openScope
  dsimp only
  rw [Array.getElem?_push, Array.size_modify, Array.getElem?_modify]
  split
  · rfl
  · split
    · cases table.scopes[scope]? <;> rfl
    · rfl

variable {table outer}

theorem Sound.openScope (sound : table.Sound) (inside : outer < table.scopes.size) :
    (table.openScope outer).Sound where
  global := by
    obtain ⟨scope, found, top⟩ := sound.global
    have lt := sound.global_lt
    have top' : (table.openScope outer).outer? Table.global = none := by
      rw [outer?_openScope, if_neg (Nat.ne_of_lt lt)]
      unfold outer?
      rw [found]
      exact top
    have present : Table.global < (table.openScope outer).scopes.size := by
      rw [size_openScope]
      exact Nat.lt_succ_of_lt lt
    obtain ⟨scope', found'⟩ : ∃ scope', (table.openScope outer).scopes[Table.global]? = some scope' :=
      ⟨_, Array.getElem?_eq_getElem present⟩
    unfold outer? at top'
    rw [found'] at top'
    exact ⟨scope', found', top'⟩
  outer_lt := by
    intro scope around found
    rw [outer?_openScope] at found
    split at found
    · next same =>
      cases found
      rw [same]
      exact inside
    · exact sound.outer_lt found
  known := by
    intro scope name id found
    rw [lookupLocal_openScope] at found
    exact sound.known found

/-- Names mean the same as before in the scopes that there were. -/
theorem slotAt_openScope_of_lt (sound : table.Sound) (inside : outer < table.scopes.size) {s : Nat}
    (lt : s < table.scopes.size) (name : String) :
    (table.openScope outer).slotAt s name = table.slotAt s name := by
  induction s using Nat.strongRecOn with
  | ind s ih =>
    rw [(sound.openScope inside).slotAt_eq, sound.slotAt_eq, lookupLocal_openScope,
      outer?_openScope, if_neg (Nat.ne_of_lt lt)]
    cases table.lookupLocal s name with
    | some id => rfl
    | none =>
      cases around : table.outer? s with
      | none => rfl
      | some o =>
        have less := sound.outer_lt around
        exact ih o less (Nat.lt_trans less lt)

/-- The new scope finds what the scope around it finds. -/
theorem slotAt_openScope_self (sound : table.Sound) (inside : outer < table.scopes.size)
    (name : String) :
    (table.openScope outer).slotAt table.scopes.size name = table.slotAt outer name := by
  rw [(sound.openScope inside).slotAt_eq, lookupLocal_openScope,
    lookupLocal_of_le (Nat.le_refl _), outer?_openScope, if_pos rfl]
  exact slotAt_openScope_of_lt sound inside inside name

end OpenScope

/-! ## Defining a name -/

/-- `after` is `before` with one more symbol, called `name`, in `scope`. -/
structure Defines (before after : Table) (scope : ScopeId) (name : String) (slot : Option Slot) :
    Prop where
  size : after.scopes.size = before.scopes.size
  outer : ∀ s, after.outer? s = before.outer? s
  fresh : before.lookupLocal scope name = none
  lookupLocal : ∀ s n, after.lookupLocal s n =
    if s = scope ∧ n = name then some before.symbols.size else before.lookupLocal s n
  symbols : after.symbols.size = before.symbols.size + 1
  kept : ∀ id < before.symbols.size, after.slotOf id = before.slotOf id
  new : after.slotOf before.symbols.size = slot

theorem define_eq_ok {table after : Table} {scope : ScopeId} {symbol : Symbol} {id : SymbolId}
    (defined : table.define scope symbol = .ok (id, after)) :
    id = table.symbols.size ∧ after.symbols = table.symbols.push symbol ∧
      table.lookupLocal scope symbol.name = none ∧
      after.scopes = table.scopes.modify scope (·.add symbol.name table.symbols.size) := by
  rw [define_eq] at defined
  split at defined
  · cases defined
  · next absent =>
    cases defined
    exact ⟨rfl, rfl, by simpa using absent, rfl⟩

theorem find?_add (scope : Scope) (name other : String) (id : SymbolId) :
    (scope.add name id).find? other =
      (scope.find? other).or (if name = other then some id else none) := by
  unfold Scope.find? Scope.add
  rw [Array.find?_push]
  cases scope.names.find? (·.1 = other) with
  | some entry => rfl
  | none =>
    simp only [Option.none_or, Option.map_none, decide_eq_true_eq]
    split <;> rfl

theorem defines_of_scopes {table after : Table} {scope : ScopeId} {symbol : Symbol}
    (inside : scope < table.scopes.size) (fresh : table.lookupLocal scope symbol.name = none)
    (scopes : after.scopes = table.scopes.modify scope (·.add symbol.name table.symbols.size))
    (symbols : after.symbols.size = table.symbols.size + 1)
    (kept : ∀ id < table.symbols.size, after.slotOf id = table.slotOf id)
    (new : after.slotOf table.symbols.size = symbol.slot?) :
    table.Defines after scope symbol.name symbol.slot? where
  size := by rw [scopes, Array.size_modify]
  outer := by
    intro s
    unfold outer?
    rw [scopes, Array.getElem?_modify]
    split
    · cases table.scopes[s]? <;> rfl
    · rfl
  fresh := fresh
  lookupLocal := by
    intro s n
    unfold Table.lookupLocal
    rw [scopes, Array.getElem?_modify]
    by_cases same : scope = s
    · subst same
      rw [if_pos rfl]
      obtain ⟨found, present⟩ : ∃ found, table.scopes[scope]? = some found :=
        ⟨_, Array.getElem?_eq_getElem inside⟩
      unfold Table.lookupLocal at fresh
      rw [present] at fresh ⊢
      simp only [Option.map_some, Option.bind_some, find?_add, true_and] at fresh ⊢
      by_cases isName : n = symbol.name
      · rw [isName, fresh, if_pos rfl]
        rfl
      · rw [if_neg fun h => isName h.symm, if_neg isName, Option.or_none]
    · rw [if_neg same, if_neg fun h => same h.1.symm]
  symbols := symbols
  kept := kept
  new := new

namespace Defines

variable {before after : Table} {scope : ScopeId} {name : String} {slot : Option Slot}

theorem sound (defines : before.Defines after scope name slot) (sound : before.Sound)
    (stored : slot = none ↔ scope = Table.global) : after.Sound where
  global := by
    obtain ⟨found, present, top⟩ := sound.global
    have lt : Table.global < after.scopes.size := defines.size ▸ sound.global_lt
    refine ⟨_, Array.getElem?_eq_getElem lt, ?_⟩
    have same := defines.outer Table.global
    unfold outer? at same
    rw [present, Array.getElem?_eq_getElem lt] at same
    exact same.trans top
  outer_lt := by
    intro s o found
    rw [defines.outer] at found
    exact sound.outer_lt found
  known := by
    intro s n id found
    rw [defines.lookupLocal] at found
    split at found
    · next same =>
      cases found
      have lt : before.symbols.size < after.symbols.size := by
        rw [defines.symbols]
        exact Nat.lt_succ_self _
      refine ⟨_, Array.getElem?_eq_getElem lt, ?_⟩
      have new := defines.new
      unfold slotOf at new
      rw [Array.getElem?_eq_getElem lt, Option.bind_some] at new
      rw [new, same.1]
      exact stored
    · obtain ⟨symbol, present, place⟩ := sound.known found
      have lt := sound.lookupLocal_lt found
      have lt' : id < after.symbols.size := by
        rw [defines.symbols]
        exact Nat.lt_succ_of_lt lt
      refine ⟨_, Array.getElem?_eq_getElem lt', ?_⟩
      have kept := defines.kept id lt
      unfold slotOf at kept
      rw [present, Array.getElem?_eq_getElem lt', Option.bind_some, Option.bind_some] at kept
      rw [kept]
      exact place

theorem reaches_iff (defines : before.Defines after scope name slot) {s target : ScopeId} :
    after.Reaches s target ↔ before.Reaches s target :=
  ⟨.of_outer fun s => (defines.outer s).symm, .of_outer defines.outer⟩

/-- In the scope that it is made in, a definition gives its name its place. -/
theorem slotAt_self (defines : before.Defines after scope name slot) (sound : after.Sound) :
    after.slotAt scope name = slot := by
  rw [sound.slotAt_eq, defines.lookupLocal, if_pos ⟨rfl, rfl⟩]
  exact defines.new

/-- A definition changes nothing that is looked up without passing its scope under its name. -/
theorem slotAt_of_kept (defines : before.Defines after scope name slot) (sound : before.Sound)
    (sound' : after.Sound) {n : String} (s : Nat)
    (kept : n ≠ name ∨ ¬ before.Reaches s scope) : after.slotAt s n = before.slotAt s n := by
  induction s using Nat.strongRecOn with
  | ind s ih =>
    have local_eq : after.lookupLocal s n = before.lookupLocal s n := by
      rw [defines.lookupLocal, if_neg]
      rintro ⟨rfl, rfl⟩
      rcases kept with differs | apart
      · exact differs rfl
      · exact apart (.refl s)
    rw [sound'.slotAt_eq, sound.slotAt_eq, local_eq, defines.outer]
    cases found : before.lookupLocal s n with
    | some id => exact defines.kept id (sound.lookupLocal_lt found)
    | none =>
      cases around : before.outer? s with
      | none => rfl
      | some o =>
        exact ih o (sound.outer_lt around)
          (kept.imp id fun apart reaches => apart (.outward around reaches))

/-- A name that was not defined anywhere has its new place in all scopes inside. -/
theorem slotAt_of_reaches (defines : before.Defines after scope name slot) (sound' : after.Sound)
    (nowhere : ∀ s, before.lookupLocal s name = none) {s : ScopeId}
    (reaches : before.Reaches s scope) : after.slotAt s name = slot := by
  induction reaches with
  | refl s => exact defines.slotAt_self sound'
  | @outward s o target around inner ih =>
    rw [sound'.slotAt_eq, defines.lookupLocal]
    by_cases same : s = target
    · rw [if_pos ⟨same, rfl⟩]
      exact defines.new
    · rw [if_neg fun h => same h.1, nowhere, defines.outer, around]
      exact ih defines

/-- A global definition gives nothing a place. -/
theorem slotAt_of_global (defines : before.Defines after Table.global name none)
    (sound : before.Sound) (sound' : after.Sound) {n : String} (s : Nat) :
    after.slotAt s n = before.slotAt s n := by
  induction s using Nat.strongRecOn with
  | ind s ih =>
    rw [sound'.slotAt_eq, sound.slotAt_eq, defines.lookupLocal, defines.outer]
    by_cases same : s = Table.global ∧ n = name
    · obtain ⟨rfl, rfl⟩ := same
      have top : before.outer? Table.global = none := by
        obtain ⟨found, present, top⟩ := sound.global
        unfold outer?
        rw [present]
        exact top
      rw [if_pos ⟨rfl, rfl⟩, defines.fresh, top]
      exact defines.new
    · rw [if_neg same]
      cases found : before.lookupLocal s n with
      | some id => exact defines.kept id (sound.lookupLocal_lt found)
      | none =>
        cases around : before.outer? s with
        | none => rfl
        | some o => exact ih o (sound.outer_lt around)

end Defines

/-! ## Functions, parameters and variables -/

theorem slotOf_push_of_lt {symbols : Array Symbol} {scopes scopes' : Array Scope} {symbol : Symbol}
    {id : SymbolId} (lt : id < symbols.size) :
    slotOf ⟨scopes', symbols.push symbol⟩ id = slotOf ⟨scopes, symbols⟩ id := by
  unfold slotOf
  rw [Array.getElem?_push_lt lt, Array.getElem?_eq_getElem lt]

/-- Changes that keep the place of every symbol. -/
theorem slotOf_modify (scopes : Array Scope) (symbols : Array Symbol) (id other : SymbolId)
    {f : Symbol → Symbol} (kept : ∀ symbol, (f symbol).slot? = symbol.slot?) :
    slotOf ⟨scopes, symbols.modify id f⟩ other = slotOf ⟨scopes, symbols⟩ other := by
  unfold slotOf
  dsimp only
  rw [Array.getElem?_modify]
  split
  · cases symbols[other]? with
    | none => rfl
    | some symbol => exact kept symbol
  · rfl

theorem slot?_registerParameter (id : SymbolId) (symbol : Symbol) :
    (registerParameter id symbol).slot? = symbol.slot? := by
  cases symbol <;> rfl

theorem slot?_registerVariable (id : SymbolId) (symbol : Symbol) :
    (registerVariable id symbol).slot? = symbol.slot? := by
  cases symbol <;> rfl

variable {table after : Table} {scope : ScopeId} {name : String} {ty : Ty} {id function : SymbolId}

theorem defineFunction_eq_ok (inside : scope < table.scopes.size)
    (defined : table.defineFunction scope name ty = .ok (id, after)) :
    table.Defines after scope name none ∧ id = table.symbols.size ∧
      ∃ ordinal, after.symbols = table.symbols.push (.function name ty #[] #[] ordinal) := by
  rw [defineFunction_eq] at defined
  obtain ⟨isNext, symbols, fresh, scopes⟩ := define_eq_ok defined
  refine ⟨defines_of_scopes inside fresh scopes ?_ ?_ ?_, isNext, _, symbols⟩
  · rw [symbols, Array.size_push]
  · intro id lt
    obtain ⟨scopes', symbols'⟩ := after
    cases symbols
    exact slotOf_push_of_lt lt
  · unfold slotOf
    rw [symbols, Array.getElem?_push_size]
    rfl

/-- What a parameter or variable of `function` adds, where `register` enters it there. -/
theorem register_spec {after : Table} {symbol : Symbol} {register : Symbol → Symbol}
    {middle : Table} (inside : scope < table.scopes.size)
    (defined : table.define scope symbol = .ok (id, middle))
    (after_eq : after = { middle with symbols := middle.symbols.modify function register })
    (kept : ∀ symbol, (register symbol).slot? = symbol.slot?) (lt : function < table.symbols.size) :
    table.Defines after scope symbol.name symbol.slot? ∧ id = table.symbols.size ∧
      after.symbols[function]? = (table.symbols[function]?).map register ∧
      ∀ other < table.symbols.size, other ≠ function →
        after.symbols[other]? = table.symbols[other]? := by
  obtain ⟨isNext, symbols, fresh, scopes⟩ := define_eq_ok defined
  obtain ⟨scopes', symbols'⟩ := middle
  dsimp only at symbols scopes
  subst symbols scopes after_eq
  refine ⟨defines_of_scopes inside fresh rfl ?_ ?_ ?_, isNext, ?_, ?_⟩
  · rw [Array.size_modify, Array.size_push]
  · intro other lt'
    rw [slotOf_modify _ _ _ _ kept]
    exact slotOf_push_of_lt lt'
  · rw [slotOf_modify _ _ _ _ kept]
    unfold slotOf
    rw [Array.getElem?_push_size]
    rfl
  · rw [Array.getElem?_modify, if_pos rfl, Array.getElem?_push_lt lt, Array.getElem?_eq_getElem lt]
  · intro other lt' differs
    rw [Array.getElem?_modify, if_neg fun h => differs h.symm, Array.getElem?_push_lt lt',
      Array.getElem?_eq_getElem lt']

theorem parameters_eq_ok {ids : Array SymbolId} (found : table.parameters function = .ok ids) :
    ∃ n r locals k, table.symbols[function]? = some (.function n r ids locals k) := by
  unfold parameters at found
  split at found
  · next n r ps ls k present =>
    cases found
    exact ⟨n, r, ls, k, present⟩
  · cases found
  · cases found

theorem locals_eq_ok {ids : Array SymbolId} (found : table.locals function = .ok ids) :
    ∃ n r parameters k, table.symbols[function]? = some (.function n r parameters ids k) := by
  unfold locals at found
  split at found
  · next n r ps ls k present =>
    cases found
    exact ⟨n, r, ps, k, present⟩
  · cases found
  · cases found

/-- What was defined for a list has the next index of that list, and is then in it. -/
theorem exists_define_of_listed {listed : Table → Except Error (Array SymbolId)}
    {symbol : Nat → Symbol} {list : SymbolId → Symbol → Symbol}
    (defined : (Update.defineListed scope function listed symbol list).completed table =
      .ok (id, after)) :
    ∃ earlier middle, listed table = .ok earlier ∧
      table.define scope (symbol earlier.size) = .ok (id, middle) ∧
      after = middle.register function (list id) := by
  rw [completed_defineListed] at defined
  obtain ⟨earlier, found, adds⟩ := bind_eq_ok.1 defined
  obtain ⟨⟨id', middle⟩, added, last⟩ := bind_eq_ok.1 adds
  cases last
  exact ⟨earlier, middle, found, added, rfl⟩

/-- A parameter that was defined is one of a function. -/
theorem exists_define_of_parameter
    (defined : table.defineParameter scope function name ty = .ok (id, after)) :
    ∃ n r ps ls k middle, table.symbols[function]? = some (.function n r ps ls k) ∧
      table.define scope (.parameter name ty ps.size) = .ok (id, middle) ∧
      after = middle.register function (registerParameter id) := by
  obtain ⟨ps, middle, found, added, last⟩ := exists_define_of_listed defined
  obtain ⟨n, r, ls, k, present⟩ := parameters_eq_ok found
  exact ⟨n, r, ps, ls, k, middle, present, added, last⟩

/-- A variable that was defined is one of a function. -/
theorem exists_define_of_variable
    (defined : table.defineVariable scope function name ty = .ok (id, after)) :
    ∃ n r ps ls k middle, table.symbols[function]? = some (.function n r ps ls k) ∧
      table.define scope (.localVariable name ty ls.size) = .ok (id, middle) ∧
      after = middle.register function (registerVariable id) := by
  obtain ⟨ls, middle, found, added, last⟩ := exists_define_of_listed defined
  obtain ⟨n, r, ps, k, present⟩ := locals_eq_ok found
  exact ⟨n, r, ps, ls, k, middle, present, added, last⟩

theorem parameters_of_function {n : String} {r : Ty} {ps ls : Array SymbolId} {k : Nat}
    (present : table.symbols[function]? = some (.function n r ps ls k)) :
    table.parameters function = .ok ps := by
  unfold parameters
  rw [present]

theorem locals_of_function {n : String} {r : Ty} {ps ls : Array SymbolId} {k : Nat}
    (present : table.symbols[function]? = some (.function n r ps ls k)) :
    table.locals function = .ok ls := by
  unfold locals
  rw [present]

theorem defineParameter_eq_ok {n : String} {r : Ty} {ps ls : Array SymbolId} {k : Nat}
    (inside : scope < table.scopes.size)
    (present : table.symbols[function]? = some (.function n r ps ls k))
    (defined : table.defineParameter scope function name ty = .ok (id, after)) :
    table.Defines after scope name (some (.parameter ps.size)) ∧
      after.symbols[function]? = some (.function n r (ps.push table.symbols.size) ls k) ∧
      ∀ other < table.symbols.size, other ≠ function →
        after.symbols[other]? = table.symbols[other]? := by
  obtain ⟨_, _, _, _, _, middle, present', added, rfl⟩ := exists_define_of_parameter defined
  rw [present] at present'
  cases present'
  obtain ⟨defines, rfl, registered, others⟩ := register_spec inside added rfl
    (slot?_registerParameter _) (Array.getElem?_eq_some_iff.1 present).1
  rw [present] at registered
  exact ⟨defines, registered, others⟩

theorem defineVariable_eq_ok {n : String} {r : Ty} {ps ls : Array SymbolId} {k : Nat}
    (inside : scope < table.scopes.size)
    (present : table.symbols[function]? = some (.function n r ps ls k))
    (defined : table.defineVariable scope function name ty = .ok (id, after)) :
    table.Defines after scope name (some (.localVariable ls.size)) ∧
      after.symbols[function]? = some (.function n r ps (ls.push table.symbols.size) k) ∧
      ∀ other < table.symbols.size, other ≠ function →
        after.symbols[other]? = table.symbols[other]? := by
  obtain ⟨_, _, _, _, _, middle, present', added, rfl⟩ := exists_define_of_variable defined
  rw [present] at present'
  cases present'
  obtain ⟨defines, rfl, registered, others⟩ := register_spec inside added rfl
    (slot?_registerVariable _) (Array.getElem?_eq_some_iff.1 present).1
  rw [present] at registered
  exact ⟨defines, registered, others⟩

/-- A variable of a function can be defined under any name that is new in its scope. -/
theorem exists_defineVariable {n : String} {r : Ty} {ps ls : Array SymbolId} {k : Nat}
    (present : table.symbols[function]? = some (.function n r ps ls k))
    (fresh : table.lookupLocal scope name = none) :
    ∃ id after, table.defineVariable scope function name ty = .ok (id, after) := by
  rw [defineVariable_eq, locals_of_function present, ok_bind, define_eq]
  have new : ¬ (table.lookupLocal scope (Symbol.localVariable name ty ls.size).name).isSome := by
    simp [Symbol.name, fresh]
  rw [if_neg new]
  exact ⟨_, _, rfl⟩

/-! ## Calls that fail -/

namespace Update

variable {α : Type}

/-- A call that leaves the whole table as it was whenever it fails. -/
def Atomic (call : Update α) : Prop :=
  ∀ ⦃table : Table⦄ ⦃error : Error⦄ ⦃after : Table⦄,
    call.run table = .error error after → after = table

/-- The check for the name comes before all that changes something. -/
theorem atomic_define (scope : ScopeId) (symbol : Symbol) : (define scope symbol).Atomic := by
  intro table error after failed
  rw [run_define] at failed
  split at failed
  · cases failed
    rfl
  · cases failed

theorem atomic_defineFunction (scope : ScopeId) (name : String) (returnType : Ty) :
    (defineFunction scope name returnType).Atomic := by
  intro table error after failed
  rw [run_defineFunction] at failed
  exact atomic_define _ _ failed

/-- Behind the definition nothing fails any more. -/
theorem atomic_defineListed (scope : ScopeId) (function : SymbolId)
    (listed : Table → Except Error (Array SymbolId)) (symbol : Nat → Symbol)
    (list : SymbolId → Symbol → Symbol) :
    (defineListed scope function listed symbol list).Atomic := by
  intro table error after failed
  rw [run_defineListed] at failed
  cases found : listed table with
  | error unlisted =>
    rw [found] at failed
    cases failed
    rfl
  | ok earlier =>
    rw [found] at failed
    dsimp only at failed
    cases ran : (define scope (symbol earlier.size)).run table with
    | ok id middle =>
      rw [ran] at failed
      cases failed
    | error taken middle =>
      rw [ran] at failed
      cases failed
      exact atomic_define _ _ ran

theorem completed_eq_ok {call : Update α} {table after : Table} {a : α} :
    call.completed table = .ok (a, after) ↔ call.run table = .ok a after := by
  unfold completed
  cases call.run table with
  | ok b middle => simp [Prod.ext_iff]
  | error error middle => simp

/-- What an atomic call does is known from what it gives when it succeeds. -/
theorem Atomic.run_eq {call : Update α} (atomic : call.Atomic) (table : Table) :
    call.run table =
      match call.completed table with
      | .ok (a, after) => .ok a after
      | .error error => .error error table := by
  unfold completed
  cases ran : call.run table with
  | ok a after => rfl
  | error error after => rw [atomic ran]

end Update

end MiniC.Table

namespace MiniC.Lower

theorem freshTemporary_eq (frame : Frame) (state : Lowering) :
    freshTemporary frame state =
      match state.table.defineVariable frame.scope frame.symbol (temporaryName state.temporaries)
        .int with
      | .ok (_, table) =>
          .ok (temporaryName state.temporaries)
            { state with table, temporaries := state.temporaries + 1 }
      | .error error => .error error { state with temporaries := state.temporaries + 1 } := by
  unfold freshTemporary Table.defineVariable
  dsimp only
  have atomic : (Table.Update.defineVariable frame.scope frame.symbol
    (temporaryName state.temporaries) .int).Atomic := Table.Update.atomic_defineListed ..
  rw [atomic.run_eq]
  cases (Table.Update.defineVariable frame.scope frame.symbol
    (temporaryName state.temporaries) .int).completed state.table <;> rfl

end MiniC.Lower
