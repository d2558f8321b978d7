import MiniC.Proofs.Histories

/-!
# Symbol tables keep what they have

Operations only ever add to a table, so what is said of a scope, of a name or of an entry in the
lists of a function stays true (`Retains`). And nothing is ever there twice: a symbol has one name
in one scope, and one place in the lists of one function (`Single`).
-/

namespace MiniC

/-- Functions are given further parameters and variables; nothing else changes about a symbol. -/
inductive Symbol.Grows : Symbol → Symbol → Prop
  | same (symbol : Symbol) : Grows symbol symbol
  | function {name : String} {returnType : Ty} {ps ls ps' ls' : Array SymbolId} {ordinal : Nat}
      (parameters : ∀ {index id : Nat}, ps[index]? = some id → ps'[index]? = some id)
      (locals : ∀ {index id : Nat}, ls[index]? = some id → ls'[index]? = some id) :
      Grows (.function name returnType ps ls ordinal) (.function name returnType ps' ls' ordinal)

theorem Symbol.Grows.trans {first second third : Symbol} (grows : first.Grows second)
    (grows' : second.Grows third) : first.Grows third := by
  cases grows with
  | same => exact grows'
  | function parameters locals =>
    cases grows' with
    | same => exact .function parameters locals
    | function parameters' locals' =>
      exact .function (fun found => parameters' (parameters found))
        fun found => locals' (locals found)

namespace Table

/-- Everything that was in a table is still there. -/
structure Retains (before after : Table) : Prop where
  scopes : before.scopes.size ≤ after.scopes.size
  outer : ∀ {scope : ScopeId}, scope < before.scopes.size →
    after.outer? scope = before.outer? scope
  names : ∀ {scope : ScopeId} {name : String} {id : SymbolId},
    before.lookupLocal scope name = some id → after.lookupLocal scope name = some id
  symbols : ∀ {id : SymbolId} {symbol : Symbol}, before.symbols[id]? = some symbol →
    ∃ grown, after.symbols[id]? = some grown ∧ symbol.Grows grown

/-- `after` comes from `before` by operations on valid handles. -/
inductive Follows : (before after : Table) → Prop
  | refl (table : Table) : Follows table table
  | step {table after : Table} {operation : Operation} (valid : operation.IsValid table)
      (later : Follows (table.perform operation).2 after) : Follows table after

variable {before middle after : Table}

theorem getElem?_push_of_some {α : Type} {items : Array α} {item : α} {index : Nat}
    (found : items[index]? = some item) (new : α) : (items.push new)[index]? = some item := by
  obtain ⟨lt, isItem⟩ := Array.getElem?_eq_some_iff.1 found
  rw [Array.getElem?_push_lt lt, isItem]

theorem Enters.grows {symbols symbols' : Array Symbol} {symbol : Symbol}
    (enters : Enters symbols symbol symbols') {other : SymbolId} {old : Symbol}
    (found : symbols[other]? = some old) :
    ∃ grown, symbols'[other]? = some grown ∧ old.Grows grown := by
  have pushed (new : Symbol) := getElem?_push_of_some found new
  cases enters with
  | function => exact ⟨old, pushed _, .same old⟩
  | @parameter f n r ps ls k isFunction =>
    rw [Array.getElem?_modify, pushed]
    split
    · next same =>
      rw [← same, isFunction] at found
      cases found
      exact ⟨_, rfl, .function (fun found => getElem?_push_of_some found _) id⟩
    · exact ⟨old, rfl, .same old⟩
  | @localVariable f n r ps ls k isFunction =>
    rw [Array.getElem?_modify, pushed]
    split
    · next same =>
      rw [← same, isFunction] at found
      cases found
      exact ⟨_, rfl, .function id fun found => getElem?_push_of_some found _⟩
    · exact ⟨old, rfl, .same old⟩

namespace Retains

theorem refl (table : Table) : table.Retains table where
  scopes := Nat.le_refl _
  outer _ := rfl
  names := id
  symbols found := ⟨_, found, .same _⟩

theorem trans (retains : before.Retains middle) (retains' : middle.Retains after) :
    before.Retains after where
  scopes := Nat.le_trans retains.scopes retains'.scopes
  outer lt := (retains'.outer (Nat.lt_of_lt_of_le lt retains.scopes)).trans (retains.outer lt)
  names found := retains'.names (retains.names found)
  symbols found := by
    obtain ⟨grown, found', grows⟩ := retains.symbols found
    obtain ⟨grown', found'', grows'⟩ := retains'.symbols found'
    exact ⟨grown', found'', grows.trans grows'⟩

theorem openScope (table : Table) (outer : ScopeId) : table.Retains (table.openScope outer) where
  scopes := by
    rw [size_openScope]
    exact Nat.le_succ _
  outer lt := by rw [outer?_openScope, if_neg (Nat.ne_of_lt lt)]
  names found := by rw [lookupLocal_openScope, found]
  symbols found := ⟨_, found, .same _⟩

theorem gains {scope : ScopeId} {symbol : Symbol} (gains : before.Gains after scope symbol) :
    before.Retains after where
  scopes := Nat.le_of_eq gains.defines.size.symm
  outer _ := gains.defines.outer _
  names found := by
    rw [gains.defines.lookupLocal, if_neg]
    · exact found
    · rintro ⟨rfl, rfl⟩
      rw [gains.fresh] at found
      cases found
  symbols := gains.symbols.grows

theorem perform {operation : Operation} (valid : operation.IsValid before) :
    before.Retains (before.perform operation).2 := by
  rcases perform_cases valid with
    ⟨outer, rfl, _⟩ | ⟨error, failed⟩ | ⟨scope, symbol, after, _, gains, done⟩
  · exact .openScope before outer
  · rw [failed]
    exact .refl before
  · rw [done]
    exact .gains gains

theorem parameters (retains : before.Retains after) {function : SymbolId} {ids : Array SymbolId}
    (found : before.parameters function = .ok ids) {index id : Nat} (at' : ids[index]? = some id) :
    ∃ ids', after.parameters function = .ok ids' ∧ ids'[index]? = some id := by
  obtain ⟨n, r, ls, k, present⟩ := parameters_eq_ok found
  obtain ⟨grown, present', grows⟩ := retains.symbols present
  cases grows with
  | same => exact ⟨ids, parameters_of_function present', at'⟩
  | function parameters => exact ⟨_, parameters_of_function present', parameters at'⟩

theorem locals (retains : before.Retains after) {function : SymbolId} {ids : Array SymbolId}
    (found : before.locals function = .ok ids) {index id : Nat} (at' : ids[index]? = some id) :
    ∃ ids', after.locals function = .ok ids' ∧ ids'[index]? = some id := by
  obtain ⟨n, r, ps, k, present⟩ := locals_eq_ok found
  obtain ⟨grown, present', grows⟩ := retains.symbols present
  cases grows with
  | same => exact ⟨ids, locals_of_function present', at'⟩
  | function _ locals => exact ⟨_, locals_of_function present', locals at'⟩

end Retains

namespace Follows

theorem single {operation : Operation} {answer : Except Error Nat}
    (performed : before.perform operation = (answer, after)) (valid : operation.IsValid before) :
    before.Follows after := by
  refine .step valid ?_
  rw [performed]
  exact .refl after

theorem trans (follows : before.Follows middle) (follows' : middle.Follows after) :
    before.Follows after := by
  induction follows with
  | refl => exact follows'
  | step valid _ ih => exact .step valid (ih follows')

theorem retains (follows : before.Follows after) : before.Retains after := by
  induction follows with
  | refl table => exact .refl table
  | step valid _ ih => exact (Retains.perform valid).trans ih

theorem wellBuilt (follows : before.Follows after) {calls : List Call}
    (built : before.WellBuilt calls) : ∃ calls', after.WellBuilt calls' := by
  induction follows generalizing calls with
  | refl => exact ⟨calls, built⟩
  | step valid _ ih => exact ih (built.perform valid)

end Follows

/-! ## One place for every symbol -/

/-- A symbol has one name in one scope, and one place in the lists of one function. -/
structure Single (table : Table) : Prop where
  name : ∀ {scope scope' : ScopeId} {name name' : String} {id : SymbolId},
    table.lookupLocal scope name = some id → table.lookupLocal scope' name' = some id →
    scope' = scope ∧ name' = name
  parameter : ∀ {f f' : SymbolId} {ids ids' : Array SymbolId} {index index' id : Nat},
    table.parameters f = .ok ids → ids[index]? = some id →
    table.parameters f' = .ok ids' → ids'[index']? = some id → f' = f ∧ index' = index
  localVariable : ∀ {f f' : SymbolId} {ids ids' : Array SymbolId} {index index' id : Nat},
    table.locals f = .ok ids → ids[index]? = some id →
    table.locals f' = .ok ids' → ids'[index']? = some id → f' = f ∧ index' = index

theorem Framed.single {list? : SymbolId → Option (Array SymbolId)} {slotOf : SymbolId → Option Slot}
    {slot : Nat → Slot} (framed : Framed list? slotOf slot)
    (injective : ∀ index index', slot index = slot index' → index = index')
    {f f' : SymbolId} {ids ids' : Array SymbolId} {index index' id : Nat}
    (found : list? f = some ids) (at' : ids[index]? = some id)
    (found' : list? f' = some ids') (at'' : ids'[index']? = some id) :
    f' = f ∧ index' = index := by
  have hasSlot := framed.entry _ _ _ _ found at'
  obtain ⟨owner, _, _, _, only⟩ := framed.owner id index hasSlot
  have isOwner := only f ids found (Array.mem_of_getElem? at')
  have isOwner' := only f' ids' found' (Array.mem_of_getElem? at'')
  refine ⟨isOwner'.trans isOwner.symm, injective _ _ (Option.some.inj ?_)⟩
  rw [← hasSlot, framed.entry _ _ _ _ found' at'']

theorem WellBuilt.single {table : Table} {calls : List Call} (built : table.WellBuilt calls) :
    table.Single where
  name := by
    intro scope scope' name name' id found found'
    obtain ⟨symbol, present, isName⟩ := Option.map_eq_some_iff.1 (built.named.known _ _ _ found)
    obtain ⟨_, _, only⟩ := built.named.registered id symbol present
    obtain ⟨rfl, rfl⟩ := only scope name found
    exact only scope' name' found'
  parameter found at' found' at'' :=
    built.numbered.parameters.single (fun _ _ => Slot.parameter.inj)
      (congrArg Except.toOption found) at' (congrArg Except.toOption found') at''
  localVariable found at' found' at'' :=
    built.numbered.locals.single (fun _ _ => Slot.localVariable.inj)
      (congrArg Except.toOption found) at' (congrArg Except.toOption found') at''

end Table
end MiniC
