import MiniC.Proofs.Histories

/-!
# Lookups and definitions

A name is looked up in a scope and then in the scopes around it, one after the other up to the
global one. These are finitely many, in whatever order scopes were opened, since a scope lies in one
that was there before (`OuterChain`). So what a lookup finds is the first entry on a list of scopes,
and what a definition changes is an entry of one scope. Whether that is seen from another scope is
decided by the chain alone: the scope must be on it, with none before it that has the name
(`Exposes`).
-/

namespace MiniC

/-- The scope and the name of the symbol that is to be defined. -/
def Operation.definition? : Operation → Option (ScopeId × String)
  | .openScope _ => none
  | .defineFunction scope name _ | .defineParameter scope _ name _
  | .defineVariable scope _ name _ => some (scope, name)

namespace Table

/-- A scope and the scopes around it, outward up to one that has none around. -/
inductive OuterChain (table : Table) : ScopeId → List ScopeId → Prop
  | last {scope : ScopeId} (top : table.outer? scope = none) : OuterChain table scope [scope]
  | step {scope outer : ScopeId} {chain : List ScopeId} (around : table.outer? scope = some outer)
      (beyond : OuterChain table outer chain) : OuterChain table scope (scope :: chain)

/-- The scope is on the chain, and none before it has the name. -/
def Exposes (table : Table) (chain : List ScopeId) (scope : ScopeId) (name : String) : Prop :=
  ∃ inner beyond, chain = inner ++ scope :: beyond ∧
    ∀ s ∈ inner, table.lookupLocal s name = none

/-! ## Chains -/

variable {table before after : Table} {scope : ScopeId} {chain : List ScopeId} {name : String}

namespace OuterChain

theorem unique {other : List ScopeId} (isChain : table.OuterChain scope chain)
    (isChain' : table.OuterChain scope other) : other = chain := by
  induction isChain generalizing other with
  | last top =>
    cases isChain' with
    | last => rfl
    | step around =>
      rw [top] at around
      cases around
  | step around _ ih =>
    cases isChain' with
    | last top =>
      rw [top] at around
      cases around
    | step around' beyond =>
      rw [around] at around'
      cases around'
      rw [ih beyond]

/-- The chain depends on nothing but the scopes around those on it. -/
theorem congr (isChain : before.OuterChain scope chain)
    (outer : ∀ s ∈ chain, after.outer? s = before.outer? s) : after.OuterChain scope chain := by
  induction isChain with
  | last top => exact .last ((outer _ List.mem_cons_self).trans top)
  | step around _ ih =>
    exact .step ((outer _ List.mem_cons_self).trans around)
      (ih fun s member => outer s (List.mem_cons_of_mem _ member))

end OuterChain

namespace Nested

/-- Going outward ends, at the global scope. -/
theorem exists_outerChain (nested : table.Nested) (scope : Nat)
    (inside : scope < table.scopes.size) :
    ∃ chain, table.OuterChain scope chain ∧ chain.getLast? = some Table.global ∧
      ∀ s ∈ chain, s < table.scopes.size := by
  induction scope using Nat.strongRecOn with
  | ind scope ih =>
    rcases Nat.eq_zero_or_pos scope with rfl | positive
    · exact ⟨[0], .last nested.global.1, rfl, by simpa using inside⟩
    · obtain ⟨outer, _, around, less, _⟩ := nested.outer scope positive inside
      obtain ⟨chain, beyond, ends, within⟩ := ih outer less (Nat.lt_trans less inside)
      refine ⟨scope :: chain, .step around beyond, ?_, List.forall_mem_cons.2 ⟨inside, within⟩⟩
      rw [List.getLast?_cons, ends, Option.getD_some]

/-- A lookup finds the first entry on the chain. -/
theorem lookup_eq_findSome? (nested : table.Nested) (isChain : table.OuterChain scope chain)
    (name : String) : table.lookup scope name = chain.findSome? (table.lookupLocal · name) := by
  induction isChain with
  | @last scope top =>
    rw [lookup_eq fun found => (nested.outer_lt found).1, top, Option.bind_none, Option.or_none]
    cases found : table.lookupLocal scope name <;> simp [found]
  | @step scope outer chain around _ ih =>
    rw [lookup_eq fun found => (nested.outer_lt found).1, around, Option.bind_some, ih,
      List.findSome?_cons]
    cases table.lookupLocal scope name <;> rfl

end Nested

/-! ## Definitions -/

/-- A definition that succeeds gives the next symbol its name, in its scope. -/
theorem defines_of_perform {operation : Operation} {id : SymbolId}
    (valid : operation.IsValid before) (isDefinition : operation.definition? = some (scope, name))
    (performed : before.perform operation = (.ok id, after)) :
    id = before.symbols.size ∧ ∃ slot, before.Defines after scope name slot := by
  cases operation with
  | openScope outer => cases isDefinition
  | defineFunction =>
    cases isDefinition
    obtain ⟨defines, isNext, _⟩ := defineFunction_eq_ok valid (perform_eq_ok.1 performed)
    exact ⟨isNext, _, defines⟩
  | defineParameter =>
    cases isDefinition
    have defined := perform_eq_ok.1 performed
    obtain ⟨_, _, _, _, _, _, present, added, _⟩ := exists_define_of_parameter defined
    exact ⟨(define_eq_ok added).1, _, (defineParameter_eq_ok valid.1 present defined).1⟩
  | defineVariable =>
    cases isDefinition
    have defined := perform_eq_ok.1 performed
    obtain ⟨_, _, _, _, _, _, present, added, _⟩ := exists_define_of_variable defined
    exact ⟨(define_eq_ok added).1, _, (defineVariable_eq_ok valid.1 present defined).1⟩

theorem not_exposes_nil : ¬ table.Exposes [] scope name := by
  rintro ⟨inner, beyond, same, _⟩
  exact List.append_ne_nil_of_right_ne_nil inner (List.cons_ne_nil scope beyond) same.symm

theorem exposes_cons {s : ScopeId} : table.Exposes (s :: chain) scope name ↔
    s = scope ∨ table.lookupLocal s name = none ∧ table.Exposes chain scope name := by
  constructor
  · rintro ⟨inner, beyond, same, absent⟩
    cases inner with
    | nil => exact .inl (List.cons.inj same).1
    | cons first inner =>
      obtain ⟨rfl, rest⟩ := List.cons.inj same
      obtain ⟨absentFirst, absent⟩ := List.forall_mem_cons.1 absent
      exact .inr ⟨absentFirst, inner, beyond, rest, absent⟩
  · rintro (rfl | ⟨absentFirst, inner, beyond, rfl, absent⟩)
    · exact ⟨[], chain, rfl, fun s member => by cases member⟩
    · exact ⟨s :: inner, beyond, rfl, List.forall_mem_cons.2 ⟨absentFirst, absent⟩⟩

section Defines

variable {slot : Option Slot} (defines : before.Defines after scope name slot)

include defines

theorem Defines.findSome?_of_exposes (exposes : before.Exposes chain scope name) :
    chain.findSome? (after.lookupLocal · name) = some before.symbols.size := by
  induction chain with
  | nil => exact absurd exposes not_exposes_nil
  | cons s chain ih =>
    rw [List.findSome?_cons, defines.lookupLocal]
    by_cases here : s = scope
    · rw [if_pos ⟨here, rfl⟩]
    · obtain ⟨absent, exposes⟩ := (exposes_cons.1 exposes).resolve_left here
      rw [if_neg fun same => here same.1, absent]
      exact ih exposes

theorem Defines.findSome?_of_not_exposes {other : String}
    (hidden : ¬ (other = name ∧ before.Exposes chain scope name)) :
    chain.findSome? (after.lookupLocal · other) =
      chain.findSome? (before.lookupLocal · other) := by
  induction chain with
  | nil => rfl
  | cons s chain ih =>
    -- What is hidden from here on is also hidden further out, unless the name is found here.
    rw [List.findSome?_cons, List.findSome?_cons, defines.lookupLocal,
      if_neg fun same => hidden ⟨same.2, exposes_cons.2 (.inl same.1)⟩]
    cases found : before.lookupLocal s other with
    | some id => rfl
    | none =>
      refine ih fun exposed => hidden ⟨exposed.1, exposes_cons.2 (.inr ⟨?_, exposed.2⟩)⟩
      rw [← exposed.1, found]

end Defines

/-- A name that is looked up stands for a symbol that there is. -/
theorem WellBuilt.lookup_lt {calls : List Call} (built : table.WellBuilt calls)
    (isChain : table.OuterChain scope chain) {id : SymbolId}
    (found : table.lookup scope name = some id) : id < table.symbols.size := by
  rw [built.nested.lookup_eq_findSome? isChain] at found
  obtain ⟨s, _, here⟩ := List.exists_of_findSome?_eq_some found
  exact built.named.lookupLocal_lt here

/-! ## New scopes -/

theorem OuterChain.openScope {outer : ScopeId} (isChain : table.OuterChain scope chain)
    (within : ∀ s ∈ chain, s < table.scopes.size) :
    (table.openScope outer).OuterChain scope chain :=
  isChain.congr fun s member => by rw [outer?_openScope, if_neg (Nat.ne_of_lt (within s member))]

theorem Nested.lookup_openScope {outer : ScopeId} (nested : table.Nested)
    (inside : outer < table.scopes.size) (old : scope < table.scopes.size) (name : String) :
    (table.openScope outer).lookup scope name = table.lookup scope name := by
  obtain ⟨chain, isChain, _, within⟩ := nested.exists_outerChain scope old
  rw [(nested.openScope inside).lookup_eq_findSome? (isChain.openScope within),
    nested.lookup_eq_findSome? isChain]
  simp only [lookupLocal_openScope]

/-- There is nothing in a new scope, so it finds what the scope around it finds. -/
theorem Nested.lookup_opened {outer : ScopeId} (nested : table.Nested)
    (inside : outer < table.scopes.size) (name : String) :
    (table.openScope outer).lookup table.scopes.size name = table.lookup outer name := by
  rw [lookup_eq fun found => ((nested.openScope inside).outer_lt found).1, lookupLocal_openScope,
    lookupLocal_of_le (Nat.le_refl _), outer?_openScope, if_pos rfl, Option.none_or,
    Option.bind_some]
  exact nested.lookup_openScope inside inside name

/-! ## Tables of all histories -/

/-- Whatever was called on a fresh table, a lookup finds the nearest entry on the way outward, which
ends at the global scope. A definition changes the lookups of its name from the scopes that it is
exposed to, and those then find the new symbol; nothing else is found anywhere that was not found
before. Opening a scope changes no lookup, and the new scope finds what the one around it finds. -/
theorem lookup_nearest (operations : List Operation) (valid : initial.AllValid operations) :
    let table := (initial.performAll operations).2
    (∀ scope < table.scopes.size, ∃ chain, table.OuterChain scope chain ∧
      (∀ other, table.OuterChain scope other → other = chain) ∧
      chain.getLast? = some Table.global ∧
      ∀ name, table.lookup scope name = chain.findSome? (table.lookupLocal · name)) ∧
    (∀ operation scope name id after, operation.IsValid table →
      operation.definition? = some (scope, name) →
      table.perform operation = (.ok id, after) →
      ∀ user chain other, table.OuterChain user chain →
        table.lookup user other ≠ some id ∧
        (other = name ∧ table.Exposes chain scope name → after.lookup user other = some id) ∧
        (¬ (other = name ∧ table.Exposes chain scope name) →
          after.lookup user other = table.lookup user other)) ∧
    ∀ outer < table.scopes.size,
      (∀ scope < table.scopes.size, ∀ name,
        (table.openScope outer).lookup scope name = table.lookup scope name) ∧
      ∀ name, (table.openScope outer).lookup table.scopes.size name = table.lookup outer name := by
  intro table
  have built := wellBuilt_initial.performAll valid
  have nested : table.Nested := built.nested
  refine ⟨fun scope inside => ?_, ?_, fun outer inside =>
    ⟨fun scope old name => ?_, fun name => ?_⟩⟩
  · obtain ⟨chain, isChain, ends, _⟩ := nested.exists_outerChain scope inside
    exact ⟨chain, isChain, fun other => isChain.unique, ends, nested.lookup_eq_findSome? isChain⟩
  · intro operation scope name id after valid isDefinition performed user chain other isChain
    obtain ⟨rfl, slot, defines⟩ := defines_of_perform valid isDefinition performed
    have nested' : after.Nested := by
      have kept := (built.perform valid).nested
      rw [show (table.perform operation).2 = after from congrArg Prod.snd performed] at kept
      exact kept
    have isChain' : after.OuterChain user chain := isChain.congr fun s _ => defines.outer s
    rw [nested'.lookup_eq_findSome? isChain', nested.lookup_eq_findSome? isChain]
    refine ⟨fun found => ?_, fun exposed => ?_, defines.findSome?_of_not_exposes⟩
    · rw [← nested.lookup_eq_findSome? isChain] at found
      exact absurd (built.lookup_lt isChain found) (Nat.lt_irrefl _)
    · rw [exposed.1]
      exact defines.findSome?_of_exposes exposed.2
  · exact nested.lookup_openScope inside old name
  · exact nested.lookup_opened inside name

/-- A variable that is defined late in the scope of a function is found in a block inside, but not
outside, and the block still finds its own variable. -/
theorem mixed_lookups :
    let table := (initial.performAll mixedOperations).2
    let after := (table.perform (.defineVariable 1 2 "z" .int)).2
    after.lookup 2 "z" = some 8 ∧ after.lookup 2 "a" = some 4 ∧
      after.lookup 0 "z" = table.lookup 0 "z" ∧ (table.openScope 2).lookup 3 "a" = some 4 := by
  intro table after
  obtain ⟨_, defined, opened⟩ := lookup_nearest mixedOperations (by decide)
  have chain : table.OuterChain 2 [2, 1, 0] := .step rfl (.step rfl (.last rfl))
  have change := defined (.defineVariable 1 2 "z" .int) 1 "z" 8 after (by decide) rfl rfl
  refine ⟨(change 2 _ "z" chain).2.1 ⟨rfl, [2], [0], rfl, by decide⟩, ?_, ?_, ?_⟩
  · rw [(change 2 _ "a" chain).2.2 fun same => absurd same.1 (by decide)]
    decide
  · refine (change 0 [0] "z" (.last rfl)).2.2 fun exposed => ?_
    rcases exposes_cons.1 exposed.2 with impossible | ⟨_, beyond⟩
    · cases impossible
    · exact not_exposes_nil beyond
  · exact ((opened 2 (by decide)).2 "a").trans (by decide)

end Table
end MiniC
