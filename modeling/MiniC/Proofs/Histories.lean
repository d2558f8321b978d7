import Mathlib.Algebra.BigOperators.Group.List.Basic
import Mathlib.Data.List.Nodup
import MiniC.Proofs.Tables

/-!
# Symbol tables under any sequence of calls

A table keeps the same facts in several places: a scope knows the scope around it and the scopes
inside, a name leads to a symbol that has the name too, and a function lists the parameters and
variables whose slots they are. Whatever is called on a fresh table, in whatever order, and however
often it fails, these agree with each other and with what was called.

A call can do one of three things: open a scope, fail, or add one symbol (`perform_cases`). What is
kept by each of the three is kept by every sequence of calls. A call that fails may have changed the
table before it does, and what it leaves stays: that this is the table from before holds because all
checks come first (`perform_of_error`).

The map of a scope may give out its symbols in any order. They are listed in the order of their
definition because they are sorted and their numbers go up (`Named.defined_of_held`).
-/

namespace MiniC

/-! ## Calls -/

/-- A call that may change a symbol table. -/
inductive Operation where
  | openScope (outer : ScopeId)
  | defineFunction (scope : ScopeId) (name : String) (returnType : Ty)
  | defineParameter (scope : ScopeId) (function : SymbolId) (name : String) (ty : Ty)
  | defineVariable (scope : ScopeId) (function : SymbolId) (name : String) (ty : Ty)

/-- An operation and what it answered: the number of the new scope or symbol, or an error. -/
structure Call where
  operation : Operation
  answer : Except Error Nat

namespace Operation

/-- The scope in which a symbol is to be defined. -/
def scope? : Operation → Option ScopeId
  | openScope _ => none
  | defineFunction scope .. | defineParameter scope .. | defineVariable scope .. => some scope

/-- All handles are those of a scope or a symbol of the table. A symbol that is to have a parameter
or a variable need not be a function. -/
def IsValid (table : Table) : Operation → Prop
  | openScope outer => outer < table.scopes.size
  | defineFunction scope .. => scope < table.scopes.size
  | defineParameter scope function .. | defineVariable scope function .. =>
      scope < table.scopes.size ∧ function < table.symbols.size

instance (table : Table) : (operation : Operation) → Decidable (operation.IsValid table)
  | openScope _ | defineFunction .. => inferInstanceAs (Decidable (_ < _))
  | defineParameter .. | defineVariable .. => inferInstanceAs (Decidable (_ ∧ _))

/-- The call that is made. -/
def update : Operation → Table.Update Nat
  | openScope outer => modifyGet fun table => (table.scopes.size, table.openScope outer)
  | defineFunction scope name returnType => .defineFunction scope name returnType
  | defineParameter scope function name ty => .defineParameter scope function name ty
  | defineVariable scope function name ty => .defineVariable scope function name ty

end Operation

namespace Call

/-- The symbol that was defined in a scope. -/
def definedIn? (scope : ScopeId) (call : Call) : Option SymbolId :=
  if call.operation.scope? = some scope then call.answer.toOption else none

/-- The symbol that was defined, in whichever scope. -/
def defined? (call : Call) : Option SymbolId :=
  if call.operation.scope?.isSome then call.answer.toOption else none

end Call

namespace Table

/-- The answer of an operation, and the table as the operation leaves it, also when it fails. -/
def perform (table : Table) (operation : Operation) : Except Error Nat × Table :=
  match operation.update.run table with
  | .ok id after => (.ok id, after)
  | .error error after => (.error error, after)

/-- Operations one after the other: all calls, and the table that there is at the end. -/
def performAll (table : Table) : List Operation → List Call × Table
  | [] => ([], table)
  | operation :: operations =>
      let (answer, after) := table.perform operation
      let (calls, last) := after.performAll operations
      (⟨operation, answer⟩ :: calls, last)

/-- Every operation has valid handles when its turn comes. -/
def AllValid (table : Table) : List Operation → Prop
  | [] => True
  | operation :: operations =>
      operation.IsValid table ∧ (table.perform operation).2.AllValid operations

instance decidableAllValid (table : Table) :
    (operations : List Operation) → Decidable (table.AllValid operations)
  | [] => inferInstanceAs (Decidable True)
  | operation :: operations =>
      have := decidableAllValid (table.perform operation).2 operations
      inferInstanceAs (Decidable (_ ∧ _))

/-! ## What a call does -/

/-- The symbols after `symbol` was added: a function with nothing in it and the next ordinal, or
something with the next slot of a function, which then lists it. -/
inductive Enters (symbols : Array Symbol) : Symbol → Array Symbol → Prop
  | function (name : String) (returnType : Ty) :
      Enters symbols (.function name returnType #[] #[] (symbols.countP isFunction))
        (symbols.push (.function name returnType #[] #[] (symbols.countP isFunction)))
  | parameter {f n r ps ls k} : symbols[f]? = some (.function n r ps ls k) →
      (name : String) → (ty : Ty) →
      Enters symbols (.parameter name ty ps.size)
        ((symbols.push (.parameter name ty ps.size)).modify f (registerParameter symbols.size))
  | localVariable {f n r ps ls k} : symbols[f]? = some (.function n r ps ls k) →
      (name : String) → (ty : Ty) →
      Enters symbols (.localVariable name ty ls.size)
        ((symbols.push (.localVariable name ty ls.size)).modify f (registerVariable symbols.size))

/-- `after` is `before` with one more symbol in `scope`, where no other has its name. -/
structure Gains (before after : Table) (scope : ScopeId) (symbol : Symbol) : Prop where
  inside : scope < before.scopes.size
  fresh : before.lookupLocal scope symbol.name = none
  scopes : after.scopes = before.scopes.modify scope (·.add symbol.name before.symbols.size)
  symbols : Enters before.symbols symbol after.symbols

variable {table after : Table} {operation : Operation}

theorem perform_eq_ok {id : Nat} :
    table.perform operation = (.ok id, after) ↔
      operation.update.completed table = .ok (id, after) := by
  rw [Update.completed_eq_ok]
  unfold perform
  cases operation.update.run table with
  | ok other last => simp
  | error error last => simp

theorem atomic_update (operation : Operation) : operation.update.Atomic := by
  cases operation with
  | openScope outer => exact fun _ _ _ impossible => nomatch impossible
  | defineFunction => exact Update.atomic_defineFunction ..
  | defineParameter => exact Update.atomic_defineListed ..
  | defineVariable => exact Update.atomic_defineListed ..

/-- A call that answers with an error leaves the whole table as it was. -/
theorem perform_of_error {error : Error} (failed : (table.perform operation).1 = .error error) :
    (table.perform operation).2 = table := by
  unfold perform at failed ⊢
  cases ran : operation.update.run table with
  | ok id after =>
    rw [ran] at failed
    cases failed
  | error error' after => exact atomic_update operation ran

theorem gains_of_define {scope : ScopeId} {symbol : Symbol} {middle : Table} {id : SymbolId}
    (inside : scope < table.scopes.size) (defined : table.define scope symbol = .ok (id, middle))
    (scopes : after.scopes = middle.scopes)
    (enters : middle.symbols = table.symbols.push symbol →
      Enters table.symbols symbol after.symbols) :
    id = table.symbols.size ∧ table.Gains after scope symbol := by
  obtain ⟨isNext, pushed, fresh, entered⟩ := define_eq_ok defined
  exact ⟨isNext, inside, fresh, scopes.trans entered, enters pushed⟩

theorem perform_cases (valid : operation.IsValid table) :
    (∃ outer, operation = .openScope outer ∧ outer < table.scopes.size) ∨
    (∃ error, table.perform operation = (.error error, table)) ∨
    ∃ scope symbol after, operation.scope? = some scope ∧ table.Gains after scope symbol ∧
      table.perform operation = (.ok table.symbols.size, after) := by
  obtain ⟨answer, after, performed⟩ : ∃ answer after, table.perform operation = (answer, after) :=
    ⟨_, _, rfl⟩
  cases answer with
  | error error =>
    have same : after = table := by
      have kept := perform_of_error (congrArg Prod.fst performed)
      rwa [performed] at kept
    exact .inr (.inl ⟨error, same ▸ performed⟩)
  | ok id =>
    have defined := perform_eq_ok.1 performed
    cases operation with
    | openScope outer => exact .inl ⟨outer, rfl, valid⟩
    | defineFunction scope name returnType =>
      have defined : table.defineFunction scope name returnType = .ok (id, after) := defined
      rw [defineFunction_eq] at defined
      obtain ⟨rfl, gains⟩ := gains_of_define valid defined rfl fun pushed => by
        rw [pushed]
        exact .function name returnType
      exact .inr (.inr ⟨scope, _, after, rfl, gains, performed⟩)
    | defineParameter scope function name ty =>
      obtain ⟨_, _, ps, _, _, middle, present, added, rfl⟩ := exists_define_of_parameter defined
      have isNext := (define_eq_ok added).1
      have scopes : (middle.register function (registerParameter id)).scopes = middle.scopes := rfl
      obtain ⟨rfl, gains⟩ := gains_of_define valid.1 added scopes fun pushed => by
        rw [Table.register, pushed, isNext]
        exact .parameter present name ty
      exact .inr (.inr ⟨scope, _, _, rfl, gains, performed⟩)
    | defineVariable scope function name ty =>
      obtain ⟨_, _, _, ls, _, middle, present, added, rfl⟩ := exists_define_of_variable defined
      have isNext := (define_eq_ok added).1
      have scopes : (middle.register function (registerVariable id)).scopes = middle.scopes := rfl
      obtain ⟨rfl, gains⟩ := gains_of_define valid.1 added scopes fun pushed => by
        rw [Table.register, pushed, isNext]
        exact .localVariable present name ty
      exact .inr (.inr ⟨scope, _, _, rfl, gains, performed⟩)

/-! ## What stays of the symbols -/

theorem getElem?_modify_of_kept {α β : Type} {f : α → α} {g : α → Option β}
    (kept : ∀ a, g (f a) = g a) (items : Array α) (i j : Nat) :
    ((items.modify i f)[j]?).bind g = (items[j]?).bind g := by
  rw [Array.getElem?_modify]
  split
  · cases items[j]? with
    | none => rfl
    | some a => exact kept a
  · rfl

theorem bind_getElem?_push {α β : Type} {g : α → Option β} {items : Array α} {item : α} (i : Nat) :
    ((items.push item)[i]?).bind g = if i = items.size then g item else (items[i]?).bind g := by
  rw [Array.getElem?_push]
  split <;> rfl

/-- The ordinal of a function. -/
def ordinal? : Symbol → Option Nat
  | .function _ _ _ _ ordinal => some ordinal
  | _ => none

namespace Enters

variable {symbols symbols' : Array Symbol} {symbol : Symbol}

theorem size_eq (enters : Enters symbols symbol symbols') : symbols'.size = symbols.size + 1 := by
  cases enters <;> simp

/-- What registering does not change is that of the symbols before and of the new one. -/
theorem bind_getElem? {β : Type} {g : Symbol → Option β} (enters : Enters symbols symbol symbols')
    (kept : ∀ id symbol, g (registerParameter id symbol) = g symbol)
    (kept' : ∀ id symbol, g (registerVariable id symbol) = g symbol) (id : SymbolId) :
    (symbols'[id]?).bind g = if id = symbols.size then g symbol else (symbols[id]?).bind g := by
  cases enters with
  | function => exact bind_getElem?_push id
  | parameter => rw [getElem?_modify_of_kept (kept _), bind_getElem?_push]
  | localVariable => rw [getElem?_modify_of_kept (kept' _), bind_getElem?_push]

theorem map_name (enters : Enters symbols symbol symbols') (id : SymbolId) :
    (symbols'[id]?).map Symbol.name =
      if id = symbols.size then some symbol.name else (symbols[id]?).map Symbol.name := by
  rw [Option.map_eq_bind, Option.map_eq_bind]
  exact enters.bind_getElem? (fun _ symbol => by cases symbol <;> rfl)
    (fun _ symbol => by cases symbol <;> rfl) id

theorem ordinal?_eq (enters : Enters symbols symbol symbols') (id : SymbolId) :
    (symbols'[id]?).bind ordinal? =
      if id = symbols.size then ordinal? symbol else (symbols[id]?).bind ordinal? :=
  enters.bind_getElem? (fun _ symbol => by cases symbol <;> rfl)
    (fun _ symbol => by cases symbol <;> rfl) id

end Enters

namespace Gains

variable {before : Table} {scope : ScopeId} {symbol : Symbol}

theorem slotOf_eq (gains : before.Gains after scope symbol) (id : SymbolId) :
    after.slotOf id = if id = before.symbols.size then symbol.slot? else before.slotOf id :=
  gains.symbols.bind_getElem? slot?_registerParameter slot?_registerVariable id

theorem defines (gains : before.Gains after scope symbol) :
    before.Defines after scope symbol.name symbol.slot? := by
  refine defines_of_scopes gains.inside gains.fresh gains.scopes gains.symbols.size_eq ?_ ?_
  · intro id lt
    rw [gains.slotOf_eq, if_neg (Nat.ne_of_lt lt)]
  · rw [gains.slotOf_eq, if_pos rfl]

/-- What a new name does not change in a scope. -/
theorem bind_scopes {β : Type} {g : Scope → Option β} (gains : before.Gains after scope symbol)
    (kept : ∀ scope name id, g (Scope.add scope name id) = g scope) (s : ScopeId) :
    (after.scopes[s]?).bind g = (before.scopes[s]?).bind g := by
  rw [gains.scopes]
  exact getElem?_modify_of_kept (fun scope => kept scope _ _) _ _ _

end Gains

/-! ## Scopes -/

/-- The depth of a scope. -/
def level? (table : Table) (scope : ScopeId) : Option Nat :=
  (table.scopes[scope]?).bind fun found => some found.level

/-- Scopes nest: every scope but the global one lies one level below a scope that was opened before
it, and a scope lists exactly those that lie directly inside. -/
structure Nested (table : Table) : Prop where
  present : Table.global < table.scopes.size
  global : table.outer? Table.global = none ∧ table.level? Table.global = some 0
  outer : ∀ scope, Table.global < scope → scope < table.scopes.size →
    ∃ outer level, table.outer? scope = some outer ∧ outer < scope ∧
      table.level? outer = some level ∧ table.level? scope = some (level + 1)
  inner : ∀ scope < table.scopes.size, table.innerOf scope =
    (List.range table.scopes.size).filter (table.outer? · = some scope)

theorem level?_openScope {outer : ScopeId} {level : Nat} (found : table.level? outer = some level)
    (scope : ScopeId) : (table.openScope outer).level? scope =
      if scope = table.scopes.size then some (level + 1) else table.level? scope := by
  unfold level? at *
  unfold openScope
  dsimp only
  rw [Array.getElem?_push, Array.size_modify]
  split
  · cases present : table.scopes[outer]? with
    | none =>
      rw [present] at found
      cases found
    | some around =>
      rw [present] at found
      cases found
      rfl
  · exact getElem?_modify_of_kept (fun (found : Scope) =>
      show some (found.addInner table.scopes.size).level = some found.level from rfl) _ _ _

theorem innerOf_openScope {outer : ScopeId} (inside : outer < table.scopes.size)
    (scope : ScopeId) : (table.openScope outer).innerOf scope =
      if scope = outer then table.innerOf outer ++ [table.scopes.size]
      else if scope = table.scopes.size then [] else table.innerOf scope := by
  unfold innerOf openScope
  dsimp only
  rw [Array.getElem?_push, Array.size_modify, Array.getElem?_modify]
  by_cases isOuter : scope = outer
  · subst isOuter
    rw [if_neg (Nat.ne_of_lt inside), if_pos rfl, if_pos rfl, Array.getElem?_eq_getElem inside]
    simp [Scope.addInner]
  · rw [if_neg isOuter, if_neg (Ne.symm isOuter)]
    split <;> rfl

namespace Nested

theorem outer_lt (nested : table.Nested) {scope outer : ScopeId}
    (found : table.outer? scope = some outer) : outer < scope ∧ scope < table.scopes.size := by
  have inside : scope < table.scopes.size := by
    by_contra outside
    rw [outer?_of_le (Nat.le_of_not_lt outside)] at found
    cases found
  rcases Nat.eq_zero_or_pos scope with rfl | positive
  · rw [show table.outer? 0 = none from nested.global.1] at found
    cases found
  · obtain ⟨_, _, found', lt, _⟩ := nested.outer scope positive inside
    rw [found'] at found
    cases found
    exact ⟨lt, inside⟩

theorem openScope {outer : ScopeId} (nested : table.Nested) (inside : outer < table.scopes.size) :
    (table.openScope outer).Nested := by
  have old {scope : ScopeId} (lt : scope < table.scopes.size) :
      (table.openScope outer).outer? scope = table.outer? scope := by
    rw [outer?_openScope, if_neg (Nat.ne_of_lt lt)]
  have around : ∃ level, table.level? outer = some level :=
    ⟨_, by rw [level?, Array.getElem?_eq_getElem inside]; rfl⟩
  obtain ⟨level, found⟩ := around
  refine ⟨?_, ⟨?_, ?_⟩, ?_, ?_⟩
  · rw [size_openScope]
    exact Nat.lt_succ_of_lt nested.present
  · rw [old nested.present]
    exact nested.global.1
  · rw [level?_openScope found, if_neg (Nat.ne_of_lt nested.present)]
    exact nested.global.2
  · intro scope positive lt
    rw [size_openScope] at lt
    rcases Nat.lt_succ_iff_lt_or_eq.1 lt with lt | rfl
    · obtain ⟨outer', level', isOuter, less, isLevel', isLevel⟩ := nested.outer scope positive lt
      refine ⟨outer', level', ?_, less, ?_, ?_⟩
      · rw [old lt, isOuter]
      · rw [level?_openScope found, if_neg (Nat.ne_of_lt (Nat.lt_trans less lt)), isLevel']
      · rw [level?_openScope found, if_neg (Nat.ne_of_lt lt), isLevel]
    · refine ⟨outer, level, ?_, inside, ?_, ?_⟩
      · rw [outer?_openScope, if_pos rfl]
      · rw [level?_openScope found, if_neg (Nat.ne_of_lt inside), found]
      · rw [level?_openScope found, if_pos rfl]
  · intro scope lt
    rw [size_openScope] at lt ⊢
    have front : (List.range table.scopes.size).filter
          ((table.openScope outer).outer? · = some scope) =
        (List.range table.scopes.size).filter (table.outer? · = some scope) :=
      List.filter_congr fun s member => by rw [old (List.mem_range.1 member)]
    rw [innerOf_openScope inside, List.range_succ, List.filter_append, front, List.filter_singleton,
      outer?_openScope, if_pos rfl]
    by_cases isOuter : scope = outer
    · subst isOuter
      rw [if_pos rfl, nested.inner scope inside]
      simp
    · rw [if_neg isOuter]
      have other : decide (some outer = some scope) = false :=
        decide_eq_false fun same => isOuter (Option.some.inj same).symm
      rw [other, cond_false, List.append_nil]
      rcases Nat.lt_succ_iff_lt_or_eq.1 lt with lt | rfl
      · rw [if_neg (Nat.ne_of_lt lt), nested.inner scope lt]
      · -- No scope lies in one that is not open yet.
        rw [if_pos rfl, eq_comm, List.filter_eq_nil_iff]
        intro s _ found
        obtain ⟨less, lt⟩ := nested.outer_lt (of_decide_eq_true found)
        exact absurd lt (Nat.not_lt_of_lt less)

theorem gains {scope : ScopeId} {symbol : Symbol} (nested : table.Nested)
    (gains : table.Gains after scope symbol) : after.Nested := by
  have size := gains.defines.size
  have outer := gains.defines.outer
  have level (s : ScopeId) : after.level? s = table.level? s :=
    gains.bind_scopes (fun _ _ _ => rfl) s
  have inner (s : ScopeId) : after.innerOf s = table.innerOf s := by
    rw [innerOf, innerOf, Option.map_eq_bind, Option.map_eq_bind]
    exact congrArg (Option.getD · []) (gains.bind_scopes (fun _ _ _ => rfl) s)
  refine ⟨?_, ⟨?_, ?_⟩, ?_, ?_⟩
  · rw [size]
    exact nested.present
  · rw [outer]
    exact nested.global.1
  · rw [level]
    exact nested.global.2
  · simp only [size, outer, level]
    exact nested.outer
  · simp only [size, outer, inner]
    exact nested.inner

theorem mem_innerOf (nested : table.Nested) {scope outer : ScopeId} :
    scope ∈ table.innerOf outer ↔ table.outer? scope = some outer := by
  by_cases inside : outer < table.scopes.size
  · rw [nested.inner outer inside, List.mem_filter, List.mem_range, decide_eq_true_eq]
    exact ⟨And.right, fun found => ⟨(nested.outer_lt found).2, found⟩⟩
  · constructor
    · intro member
      rw [innerOf, Array.getElem?_eq_none (Nat.le_of_not_lt inside)] at member
      cases member
    · intro found
      obtain ⟨less, lt⟩ := nested.outer_lt found
      exact absurd (Nat.lt_trans less lt) inside

/-- A scope is listed once by each occurrence of the scope around it. -/
theorem count_flatMap_innerOf (nested : table.Nested) {scope outer : ScopeId}
    (around : table.outer? scope = some outer) (scopes : List ScopeId) :
    (scopes.flatMap table.innerOf).count scope = scopes.count outer := by
  obtain ⟨lt, inside⟩ := nested.outer_lt around
  have inOuter : (table.innerOf outer).count scope = 1 := by
    rw [nested.inner outer (Nat.lt_trans lt inside), List.count_filter (by simp [around])]
    exact List.count_eq_one_of_mem List.nodup_range (List.mem_range.2 inside)
  have elsewhere : ∀ s, s ≠ outer → s ∈ scopes → (table.innerOf s).count scope = 0 := by
    intro s differs _
    refine List.count_eq_zero.2 fun member => differs ?_
    rw [nested.mem_innerOf, around] at member
    exact (Option.some.inj member).symm
  rw [List.count_flatMap]
  refine (List.sum_map_eq_nsmul_single outer _ elsewhere).trans ?_
  rw [inOuter]
  exact Nat.mul_one _

/-- Every scope but the global one is listed once among all scopes that lie in others. -/
theorem count_inner (nested : table.Nested) {scope : ScopeId} (positive : Table.global < scope)
    (inside : scope < table.scopes.size) :
    (table.scopes.toList.flatMap (·.inner.toList)).count scope = 1 := by
  obtain ⟨outer, _, found, lt, _⟩ := nested.outer scope positive inside
  have lists : table.scopes.toList.flatMap (·.inner.toList) =
      (List.range table.scopes.size).flatMap table.innerOf := by
    rw [List.flatMap_def, List.flatMap_def]
    refine congrArg List.flatten (List.ext_getElem (by simp) fun s lt lt' => ?_)
    simp only [List.length_map, Array.length_toList] at lt
    simp [innerOf, Array.getElem?_eq_getElem lt]
  rw [lists, nested.count_flatMap_innerOf found]
  exact List.count_eq_one_of_mem List.nodup_range (List.mem_range.2 (Nat.lt_trans lt inside))

end Nested

/-! ## Names -/

/-- The symbols of a scope, as they are listed when maps give them out in some order. -/
def symbolsOf (table : Table) (scope : ScopeId) (iteration : Iteration := .stored) :
    List SymbolId :=
  ((table.scopes[scope]?).map (·.symbols iteration)).getD []

/-- The symbols that a fresh table has in a scope. -/
def builtinsIn (scope : ScopeId) : List SymbolId :=
  if scope = Table.global then List.range initial.symbols.size else []

/-- Every symbol is registered in one scope, under its own name. The symbols of a scope are those
that calls defined there, and symbols are numbered, both in the order of the calls: in whatever order
the map of the scope gives them out, they are listed in this order. -/
structure Named (table : Table) (calls : List Call) : Prop where
  known : ∀ scope name id, table.lookupLocal scope name = some id →
    (table.symbols[id]?).map Symbol.name = some name
  registered : ∀ id symbol, table.symbols[id]? = some symbol →
    ∃ scope, table.lookupLocal scope symbol.name = some id ∧
      ∀ scope' name, table.lookupLocal scope' name = some id → scope' = scope ∧ name = symbol.name
  defined : ∀ iteration scope, table.symbolsOf scope iteration =
    builtinsIn scope ++ calls.filterMap (·.definedIn? scope)
  numbered : List.range table.symbols.size =
    List.range initial.symbols.size ++ calls.filterMap (·.defined?)

/-- The symbols that the map of a scope holds, as they are stored. -/
def heldBy (table : Table) (scope : ScopeId) : List SymbolId :=
  ((table.scopes[scope]?).bind fun found => some (found.names.toList.map (·.2))).getD []

/-- Sorting gives back what the map holds. -/
theorem symbolsOf_perm (table : Table) (scope : ScopeId) (iteration : Iteration) :
    (table.symbolsOf scope iteration).Perm (table.heldBy scope) := by
  unfold symbolsOf heldBy
  cases table.scopes[scope]? with
  | none => exact .refl _
  | some found => exact (List.mergeSort_perm ..).trans (iteration.perm _)

theorem pairwise_symbolsOf (table : Table) (scope : ScopeId) (iteration : Iteration) :
    (table.symbolsOf scope iteration).Pairwise (· ≤ ·) := by
  unfold symbolsOf
  cases table.scopes[scope]? with
  | none => exact .nil
  | some found =>
    have sorted : (found.symbols iteration).Pairwise (fun a b => decide (a ≤ b) = true) :=
      List.pairwise_mergeSort (by simpa using fun a b c => Nat.le_trans)
        (by simpa using Nat.le_total) (iteration.values found.names)
    exact sorted.imp fun {_ _} => of_decide_eq_true

/-- Numbers that go up are listed in their order, whichever order the map has. -/
theorem symbolsOf_eq {scope : ScopeId} {ids : List SymbolId} (held : (table.heldBy scope).Perm ids)
    (increasing : ids.Pairwise (· ≤ ·)) (iteration : Iteration) :
    table.symbolsOf scope iteration = ids :=
  List.Perm.eq_of_pairwise (fun _ _ _ _ => Nat.le_antisymm)
    (table.pairwise_symbolsOf scope iteration) increasing
    ((table.symbolsOf_perm scope iteration).trans held)

theorem heldBy_openScope (table : Table) (outer scope : ScopeId) :
    (table.openScope outer).heldBy scope = table.heldBy scope := by
  unfold heldBy openScope
  dsimp only
  rw [Array.getElem?_push, Array.size_modify]
  split
  · next isNew =>
    rw [isNew, Array.getElem?_eq_none (Nat.le_refl _)]
    rfl
  · exact congrArg (Option.getD · []) (getElem?_modify_of_kept (fun (found : Scope) =>
      show some ((found.addInner table.scopes.size).names.toList.map (·.2)) =
        some (found.names.toList.map (·.2)) from rfl) _ _ _)

theorem Gains.heldBy_eq {scope : ScopeId} {symbol : Symbol}
    (gains : table.Gains after scope symbol) (s : ScopeId) : after.heldBy s =
      table.heldBy s ++ if s = scope then [table.symbols.size] else [] := by
  unfold heldBy
  rw [gains.scopes, Array.getElem?_modify]
  by_cases same : s = scope
  · subst same
    rw [if_pos rfl, if_pos rfl, Array.getElem?_eq_getElem gains.inside]
    simp [Scope.add]
  · rw [if_neg same, if_neg (Ne.symm same), List.append_nil]

namespace Named

variable {calls : List Call}

theorem held (named : table.Named calls) (scope : ScopeId) : (table.heldBy scope).Perm
    (builtinsIn scope ++ calls.filterMap (·.definedIn? scope)) := by
  rw [← named.defined .stored scope]
  exact (table.symbolsOf_perm scope .stored).symm

/-- What was defined in one scope is a part of all that was defined, and this is numbered in its
order. So the numbers in a scope go up in the order of definition. -/
theorem pairwise_defined (numbered : List.range table.symbols.size =
      List.range initial.symbols.size ++ calls.filterMap (·.defined?)) (scope : ScopeId) :
    (builtinsIn scope ++ calls.filterMap (·.definedIn? scope)).Pairwise (· ≤ ·) := by
  have inScope : calls.filterMap (·.definedIn? scope) =
      (calls.filter (·.operation.scope? = some scope)).filterMap (·.defined?) := by
    rw [List.filterMap_filter]
    refine List.filterMap_congr fun call _ => ?_
    unfold Call.definedIn? Call.defined?
    by_cases isScope : call.operation.scope? = some scope <;> simp [isScope]
  have builtins : (builtinsIn scope).Sublist (List.range initial.symbols.size) := by
    unfold builtinsIn
    split
    · exact .refl _
    · exact List.nil_sublist _
  have part := builtins.append
    ((List.filter_sublist (p := (·.operation.scope? = some scope)) (l := calls)).filterMap
      (·.defined?))
  rw [← numbered] at part
  rw [inScope]
  exact List.pairwise_le_range.sublist part

/-- The order of definition is found again by sorting. -/
theorem defined_of_held (held : ∀ scope, (table.heldBy scope).Perm
      (builtinsIn scope ++ calls.filterMap (·.definedIn? scope)))
    (numbered : List.range table.symbols.size =
      List.range initial.symbols.size ++ calls.filterMap (·.defined?))
    (iteration : Iteration) (scope : ScopeId) : table.symbolsOf scope iteration =
      builtinsIn scope ++ calls.filterMap (·.definedIn? scope) :=
  symbolsOf_eq (held scope) (pairwise_defined numbered scope) iteration

theorem openScope (named : table.Named calls) (outer : ScopeId) (answer : Except Error Nat) :
    (table.openScope outer).Named (calls ++ [⟨.openScope outer, answer⟩]) where
  known := by
    intro scope name id found
    rw [lookupLocal_openScope] at found
    exact named.known scope name id found
  registered := by
    intro id symbol found
    simp only [lookupLocal_openScope]
    exact named.registered id symbol found
  defined := by
    intro iteration scope
    have same : (table.openScope outer).symbolsOf scope iteration = table.symbolsOf scope iteration := by
      refine symbolsOf_eq ?_ (table.pairwise_symbolsOf scope iteration) iteration
      rw [heldBy_openScope]
      exact (table.symbolsOf_perm scope iteration).symm
    rw [same, named.defined, List.filterMap_append]
    simp [Call.definedIn?, Operation.scope?]
  numbered := by
    rw [symbols_openScope, named.numbered, List.filterMap_append]
    simp [Call.defined?, Operation.scope?]

theorem fails (named : table.Named calls) (operation : Operation) (error : Error) :
    table.Named (calls ++ [⟨operation, .error error⟩]) where
  known := named.known
  registered := named.registered
  defined := by
    intro iteration scope
    rw [named.defined, List.filterMap_append]
    simp [Call.definedIn?, Except.toOption]
  numbered := by
    rw [named.numbered, List.filterMap_append]
    simp [Call.defined?, Except.toOption]

theorem lookupLocal_lt (named : table.Named calls) {scope : ScopeId} {name : String} {id : SymbolId}
    (found : table.lookupLocal scope name = some id) : id < table.symbols.size := by
  by_contra outside
  have known := named.known scope name id found
  rw [Array.getElem?_eq_none (Nat.le_of_not_lt outside)] at known
  cases known

theorem gains {scope : ScopeId} {symbol : Symbol} (named : table.Named calls)
    (gains : table.Gains after scope symbol) (isScope : operation.scope? = some scope) :
    after.Named (calls ++ [⟨operation, .ok table.symbols.size⟩]) := by
  -- A name leads to the new symbol only where it was just defined.
  have isNew {s : ScopeId} {name : String}
      (found : after.lookupLocal s name = some table.symbols.size) :
      s = scope ∧ name = symbol.name := by
    rw [gains.defines.lookupLocal] at found
    split at found
    · next same => exact same
    · exact absurd (named.lookupLocal_lt found) (Nat.lt_irrefl _)
  have isOld {s : ScopeId} {name : String} {id : SymbolId} (old : id ≠ table.symbols.size) :
      after.lookupLocal s name = some id ↔ table.lookupLocal s name = some id := by
    rw [gains.defines.lookupLocal]
    split
    · next same =>
      rw [same.1, same.2, gains.fresh]
      exact ⟨fun found => absurd (Option.some.inj found).symm old, fun found => by cases found⟩
    · rfl
  have numbered : List.range after.symbols.size = List.range initial.symbols.size ++
      (calls ++ [(⟨operation, .ok table.symbols.size⟩ : Call)]).filterMap (·.defined?) := by
    rw [gains.symbols.size_eq, List.range_succ, named.numbered, List.filterMap_append]
    simp [Call.defined?, isScope, Except.toOption]
  refine ⟨?_, ?_, defined_of_held (fun s => ?_) numbered, numbered⟩
  · intro s name id found
    rw [gains.symbols.map_name]
    by_cases new : id = table.symbols.size
    · subst new
      rw [if_pos rfl, (isNew found).2]
    · rw [if_neg new]
      exact named.known s name id ((isOld new).1 found)
  · intro id symbol' found
    have sameName := gains.symbols.map_name id
    rw [found, Option.map_some] at sameName
    by_cases new : id = table.symbols.size
    · subst new
      rw [if_pos rfl] at sameName
      rw [Option.some.inj sameName]
      refine ⟨scope, ?_, fun s name found' => isNew found'⟩
      rw [gains.defines.lookupLocal, if_pos ⟨rfl, rfl⟩]
    · rw [if_neg new, eq_comm, Option.map_eq_some_iff] at sameName
      obtain ⟨before, found', sameName⟩ := sameName
      obtain ⟨s, registered, only⟩ := named.registered id before found'
      rw [← sameName]
      exact ⟨s, (isOld new).2 registered, fun s' name found => only s' name ((isOld new).1 found)⟩
  · rw [gains.heldBy_eq, List.filterMap_append, ← List.append_assoc]
    refine (named.held s).append ?_
    by_cases same : s = scope
    · subst same
      simp [Call.definedIn?, isScope, Except.toOption]
    · simp [Call.definedIn?, isScope, same, Ne.symm same]

end Named

/-! ## Frames -/

/-- Lists of what has a slot: the entry at an index has the slot of that index, and everything that
has such a slot is an entry there, in one list and no other. -/
structure Framed (list? : SymbolId → Option (Array SymbolId)) (slotOf : SymbolId → Option Slot)
    (slot : Nat → Slot) : Prop where
  entry : ∀ function ids index id, list? function = some ids → ids[index]? = some id →
    slotOf id = some (slot index)
  owner : ∀ id index, slotOf id = some (slot index) →
    ∃ function ids, list? function = some ids ∧ ids[index]? = some id ∧
      ∀ function' ids', list? function' = some ids' → id ∈ ids' → function' = function

namespace Framed

variable {list? list?' : SymbolId → Option (Array SymbolId)} {slotOf slotOf' : SymbolId → Option Slot}
  {slot : Nat → Slot} {new : SymbolId}

/-- Nothing with such a slot is added, and no list grows. -/
theorem other {fresh : Option (Array SymbolId)} {slot? : Option Slot}
    (framed : Framed list? slotOf slot) (empty : fresh = none ∨ fresh = some #[])
    (apart : ∀ index, slot? ≠ some (slot index))
    (lists : ∀ id, list?' id = if id = new then fresh else list? id)
    (unlisted : list? new = none) (unknown : slotOf new = none)
    (slots : ∀ id, slotOf' id = if id = new then slot? else slotOf id) :
    Framed list?' slotOf' slot := by
  have listed {function id : SymbolId} {ids : Array SymbolId} (found : list?' function = some ids)
      (member : id ∈ ids) : list? function = some ids := by
    rw [lists] at found
    split at found
    · rcases empty with rfl | rfl <;> cases found
      cases Array.not_mem_empty id member
    · exact found
  refine ⟨fun function ids index id found at' => ?_, fun id index hasSlot => ?_⟩
  · have hasSlot := framed.entry _ _ _ _ (listed found (Array.mem_of_getElem? at')) at'
    have old : id ≠ new := by
      rintro rfl
      rw [unknown] at hasSlot
      cases hasSlot
    rw [slots, if_neg old, hasSlot]
  · rw [slots] at hasSlot
    split at hasSlot
    · exact absurd hasSlot (apart index)
    · obtain ⟨function, ids, found, at', only⟩ := framed.owner id index hasSlot
      have old : function ≠ new := by
        rintro rfl
        rw [unlisted] at found
        cases found
      refine ⟨function, ids, ?_, at', fun f' ids' found' member => ?_⟩
      · rw [lists, if_neg old, found]
      · exact only f' ids' (listed found' member) member

/-- Something with the next slot is added, and the list of its function grows by it. -/
theorem push {function : SymbolId} {ids : Array SymbolId} (framed : Framed list? slotOf slot)
    (injective : ∀ index index', slot index = slot index' → index = index')
    (isList : list? function = some ids)
    (lists : ∀ id, list?' id = if id = function then some (ids.push new) else list? id)
    (unknown : slotOf new = none)
    (slots : ∀ id, slotOf' id = if id = new then some (slot ids.size) else slotOf id) :
    Framed list?' slotOf' slot := by
  have old {f id : SymbolId} {ids : Array SymbolId} (found : list? f = some ids)
      (member : id ∈ ids) : id ≠ new := by
    rintro rfl
    obtain ⟨index, at'⟩ := Array.getElem?_of_mem member
    rw [framed.entry f ids index _ found at'] at unknown
    cases unknown
  refine ⟨fun f ids' index id found at' => ?_, fun id index hasSlot => ?_⟩
  · rw [lists] at found
    split at found
    · cases found
      rw [Array.getElem?_push] at at'
      split at at'
      · next last =>
        cases at'
        rw [slots, if_pos rfl, last]
      · rw [slots, if_neg (old isList (Array.mem_of_getElem? at'))]
        exact framed.entry _ _ _ _ isList at'
    · rw [slots, if_neg (old found (Array.mem_of_getElem? at'))]
      exact framed.entry _ _ _ _ found at'
  · rw [slots] at hasSlot
    split at hasSlot
    · next isNew =>
      subst isNew
      obtain rfl := injective _ _ (Option.some.inj hasSlot)
      refine ⟨function, ids.push id, ?_, Array.getElem?_push_size, fun f ids' found member => ?_⟩
      · rw [lists, if_pos rfl]
      · rw [lists] at found
        split at found
        · next same => exact same
        · exact absurd rfl (old found member)
    · next isOld =>
      obtain ⟨f, ids', found, at', only⟩ := framed.owner id index hasSlot
      have unique (f' : SymbolId) (ids'' : Array SymbolId) (found' : list?' f' = some ids'')
          (member : id ∈ ids'') : f' = f := by
        rw [lists] at found'
        split at found'
        · next same =>
          cases found'
          have inList := (Array.mem_push.1 member).resolve_right isOld
          exact same.trans (only function ids isList inList)
        · exact only f' ids'' found' member
      by_cases same : f = function
      · subst same
        rw [isList] at found
        cases found
        refine ⟨f, ids.push new, ?_, ?_, unique⟩
        · rw [lists, if_pos rfl]
        · obtain ⟨lt, isId⟩ := Array.getElem?_eq_some_iff.1 at'
          rw [Array.getElem?_push_lt lt, isId]
      · refine ⟨f, ids', ?_, at', unique⟩
        rw [lists, if_neg same, found]

end Framed

/-- The parameters of a function. -/
def parameters? : Symbol → Option (Array SymbolId)
  | .function _ _ parameters _ _ => some parameters
  | _ => none

/-- The variables of a function. -/
def locals? : Symbol → Option (Array SymbolId)
  | .function _ _ _ locals _ => some locals
  | _ => none

theorem toOption_parameters (table : Table) (function : SymbolId) :
    (table.parameters function).toOption = (table.symbols[function]?).bind parameters? := by
  unfold parameters
  cases table.symbols[function]? with
  | none => rfl
  | some symbol => cases symbol <;> rfl

theorem toOption_locals (table : Table) (function : SymbolId) :
    (table.locals function).toOption = (table.symbols[function]?).bind locals? := by
  unfold locals
  cases table.symbols[function]? with
  | none => rfl
  | some symbol => cases symbol <;> rfl

/-- Only the list of the function changes that something is registered with. -/
theorem bind_register {list? : Symbol → Option (Array SymbolId)} {register : Symbol → Symbol}
    {symbols : Array Symbol} {symbol owner : Symbol} {function : SymbolId} {ids : Array SymbolId}
    (found : symbols[function]? = some owner) (registered : list? (register owner) = some ids)
    (plain : list? symbol = none) (id : SymbolId) :
    (((symbols.push symbol).modify function register)[id]?).bind list? =
      if id = function then some ids else (symbols[id]?).bind list? := by
  obtain ⟨lt, isOwner⟩ := Array.getElem?_eq_some_iff.1 found
  rw [Array.getElem?_modify]
  by_cases same : id = function
  · subst same
    rw [if_pos rfl, if_pos rfl, Array.getElem?_push_lt lt, isOwner]
    exact registered
  · rw [if_neg (Ne.symm same), if_neg same, bind_getElem?_push]
    split
    · next isNew => rw [isNew, Array.getElem?_eq_none (Nat.le_refl _), plain, Option.bind_none]
    · rfl

namespace Enters

variable {symbols symbols' : Array Symbol} {symbol : Symbol}

theorem slot?_eq (enters : Enters symbols symbol symbols') (id : SymbolId) :
    (symbols'[id]?).bind Symbol.slot? =
      if id = symbols.size then symbol.slot? else (symbols[id]?).bind Symbol.slot? :=
  enters.bind_getElem? slot?_registerParameter slot?_registerVariable id

theorem bind_size {β : Type} {g : Symbol → Option β} (symbols : Array Symbol) :
    (symbols[symbols.size]?).bind g = none := by
  rw [Array.getElem?_eq_none (Nat.le_refl _), Option.bind_none]

theorem framed_parameters (enters : Enters symbols symbol symbols')
    (framed : Framed (fun id => (symbols[id]?).bind parameters?)
      (fun id => (symbols[id]?).bind Symbol.slot?) .parameter) :
    Framed (fun id => (symbols'[id]?).bind parameters?)
      (fun id => (symbols'[id]?).bind Symbol.slot?) .parameter := by
  have slots := enters.slot?_eq
  cases enters with
  | function name returnType =>
    exact framed.other (.inr rfl) (by simp [Symbol.slot?]) bind_getElem?_push (bind_size _)
      (bind_size _) slots
  | parameter found name ty =>
    exact framed.push (fun _ _ => Slot.parameter.inj) (by rw [found]; rfl)
      (bind_register found rfl rfl) (bind_size _) slots
  | localVariable found name ty =>
    refine framed.other (.inl rfl) (by simp [Symbol.slot?]) (fun id => ?_) (bind_size _)
      (bind_size _) slots
    rw [getElem?_modify_of_kept fun symbol => by cases symbol <;> rfl]
    exact bind_getElem?_push id

theorem framed_locals (enters : Enters symbols symbol symbols')
    (framed : Framed (fun id => (symbols[id]?).bind locals?)
      (fun id => (symbols[id]?).bind Symbol.slot?) .localVariable) :
    Framed (fun id => (symbols'[id]?).bind locals?)
      (fun id => (symbols'[id]?).bind Symbol.slot?) .localVariable := by
  have slots := enters.slot?_eq
  cases enters with
  | function name returnType =>
    exact framed.other (.inr rfl) (by simp [Symbol.slot?]) bind_getElem?_push (bind_size _)
      (bind_size _) slots
  | localVariable found name ty =>
    exact framed.push (fun _ _ => Slot.localVariable.inj) (by rw [found]; rfl)
      (bind_register found rfl rfl) (bind_size _) slots
  | parameter found name ty =>
    refine framed.other (.inl rfl) (by simp [Symbol.slot?]) (fun id => ?_) (bind_size _)
      (bind_size _) slots
    rw [getElem?_modify_of_kept fun symbol => by cases symbol <;> rfl]
    exact bind_getElem?_push id

theorem countP_take (enters : Enters symbols symbol symbols') {id : SymbolId}
    (le : id ≤ symbols.size) :
    (symbols'.toList.take id).countP isFunction = (symbols.toList.take id).countP isFunction := by
  have same : (symbols'.toList.take id).map isFunction = (symbols.toList.take id).map isFunction := by
    refine List.ext_getElem? fun i => ?_
    have kept := enters.bind_getElem? (g := fun symbol => some (isFunction symbol))
      (fun _ symbol => by cases symbol <;> rfl) (fun _ symbol => by cases symbol <;> rfl) i
    rw [List.getElem?_map, List.getElem?_map, List.getElem?_take, List.getElem?_take]
    split
    · next lt =>
      rw [if_neg (Nat.ne_of_lt (Nat.lt_of_lt_of_le lt le))] at kept
      simpa [Option.map_eq_bind, Function.comp_def] using kept
    · rfl
  have count := congrArg (List.countP (· = true)) same
  simpa only [List.countP_map, Function.comp_def, Bool.decide_eq_true] using count

/-- A new function has the number of functions as its ordinal. -/
theorem ordinal_eq (enters : Enters symbols symbol symbols') {ordinal : Nat}
    (found : ordinal? symbol = some ordinal) : ordinal = symbols.toList.countP isFunction := by
  cases enters with
  | function =>
    rw [Array.countP_toList]
    exact (Option.some.inj found).symm
  | parameter => cases found
  | localVariable => cases found

end Enters

/-- Parameters and variables have the slots that the lists of their functions give them, and
functions are counted. -/
structure Numbered (table : Table) : Prop where
  parameters : Framed (fun function => (table.parameters function).toOption) table.slotOf .parameter
  locals : Framed (fun function => (table.locals function).toOption) table.slotOf .localVariable
  ordinals : ∀ function ordinal, (table.symbols[function]?).bind ordinal? = some ordinal →
    ordinal = (table.symbols.toList.take function).countP isFunction

theorem Numbered.gains {scope : ScopeId} {symbol : Symbol} (numbered : table.Numbered)
    (gains : table.Gains after scope symbol) : after.Numbered := by
  obtain ⟨parameters, locals, ordinals⟩ := numbered
  simp only [toOption_parameters, toOption_locals] at parameters locals
  refine ⟨?_, ?_, fun function ordinal found => ?_⟩
  · simp only [toOption_parameters]
    exact gains.symbols.framed_parameters parameters
  · simp only [toOption_locals]
    exact gains.symbols.framed_locals locals
  · rw [gains.symbols.ordinal?_eq] at found
    split at found
    · next isNew =>
      rw [isNew, gains.symbols.countP_take (Nat.le_refl _), ← Array.length_toList, List.take_length]
      exact gains.symbols.ordinal_eq found
    · have lt : function < table.symbols.size := by
        by_contra outside
        rw [Array.getElem?_eq_none (Nat.le_of_not_lt outside)] at found
        cases found
      rw [gains.symbols.countP_take (Nat.le_of_lt lt)]
      exact ordinals function ordinal found

/-! ## Sequences of calls -/

/-- A table as calls on a fresh one leave it. -/
structure WellBuilt (table : Table) (calls : List Call) : Prop where
  nested : table.Nested
  named : table.Named calls
  numbered : table.Numbered

theorem lookupLocal_initial_iff {scope : ScopeId} {name : String} {id : SymbolId} :
    initial.lookupLocal scope name = some id ↔
      scope = Table.global ∧ (name = "int" ∧ id = 0 ∨ name = "double" ∧ id = 1) := by
  cases scope with
  | zero =>
    unfold lookupLocal initial Scope.find?
    by_cases isInt : name = "int"
    · simp [isInt, Table.global, eq_comm]
    · by_cases isDouble : name = "double"
      · simp [isDouble, Table.global, eq_comm]
      · simp [isInt, isDouble, Ne.symm isInt, Ne.symm isDouble]
  | succ scope =>
    rw [lookupLocal_of_le (Nat.succ_le_succ (Nat.zero_le scope))]
    simp [Table.global]

theorem symbols_initial {id : SymbolId} {symbol : Symbol}
    (found : initial.symbols[id]? = some symbol) :
    id = 0 ∧ symbol = .builtinType .int ∨ id = 1 ∧ symbol = .builtinType .double := by
  obtain ⟨lt, isSymbol⟩ := Array.getElem?_eq_some_iff.1 found
  match id, lt with
  | 0, _ => exact .inl ⟨rfl, isSymbol.symm⟩
  | 1, _ => exact .inr ⟨rfl, isSymbol.symm⟩

/-- A fresh table has nothing that types do not have. -/
theorem bind_initial {β : Type} {g : Symbol → Option β} (types : ∀ ty, g (.builtinType ty) = none)
    (id : SymbolId) : (initial.symbols[id]?).bind g = none := by
  cases found : initial.symbols[id]? with
  | none => rfl
  | some symbol => rcases symbols_initial found with ⟨_, rfl⟩ | ⟨_, rfl⟩ <;> exact types _

theorem numbered_initial : initial.Numbered := by
  have noSlot (id : SymbolId) : initial.slotOf id = none := bind_initial (fun _ => rfl) id
  refine ⟨⟨?_, ?_⟩, ⟨?_, ?_⟩, ?_⟩
  · intro function ids index id found
    rw [toOption_parameters, bind_initial fun _ => rfl] at found
    cases found
  · intro id index hasSlot
    rw [noSlot] at hasSlot
    cases hasSlot
  · intro function ids index id found
    rw [toOption_locals, bind_initial fun _ => rfl] at found
    cases found
  · intro id index hasSlot
    rw [noSlot] at hasSlot
    cases hasSlot
  · intro function ordinal found
    rw [bind_initial fun _ => rfl] at found
    cases found

theorem wellBuilt_initial : initial.WellBuilt [] := by
  refine ⟨⟨by decide, by decide, fun scope positive lt => ?_, by decide⟩,
    ⟨fun scope name id found => ?_, fun id symbol found => ?_,
      Named.defined_of_held (fun scope => ?_) rfl, rfl⟩,
    numbered_initial⟩
  · exact absurd lt (Nat.not_lt_of_le positive)
  · obtain ⟨rfl, ⟨rfl, rfl⟩ | ⟨rfl, rfl⟩⟩ := lookupLocal_initial_iff.1 found <;> rfl
  · simp only [lookupLocal_initial_iff]
    rcases symbols_initial found with ⟨rfl, rfl⟩ | ⟨rfl, rfl⟩
    · exact ⟨Table.global, by simp [Symbol.name, Ty.name], by simp [Symbol.name, Ty.name]⟩
    · exact ⟨Table.global, by simp [Symbol.name, Ty.name], by simp [Symbol.name, Ty.name]⟩
  · rw [List.filterMap_nil, List.append_nil]
    cases scope <;> exact .refl _

/-- One call keeps a table well built, whatever it answers. -/
theorem WellBuilt.perform {calls : List Call} (built : table.WellBuilt calls)
    (valid : operation.IsValid table) :
    (table.perform operation).2.WellBuilt (calls ++ [⟨operation, (table.perform operation).1⟩]) := by
  obtain ⟨nested, named, numbered⟩ := built
  rcases perform_cases valid with
    ⟨outer, rfl, inside⟩ | ⟨error, failed⟩ | ⟨scope, symbol, after, isScope, gains, done⟩
  · obtain ⟨parameters, locals, ordinals⟩ := numbered
    exact ⟨nested.openScope inside, named.openScope outer _, parameters, locals, ordinals⟩
  · rw [failed]
    exact ⟨nested, named.fails operation error, numbered⟩
  · rw [done]
    exact ⟨nested.gains gains, named.gains gains isScope, numbered.gains gains⟩

theorem WellBuilt.performAll {calls : List Call} (built : table.WellBuilt calls)
    {operations : List Operation} (valid : table.AllValid operations) :
    (table.performAll operations).2.WellBuilt (calls ++ (table.performAll operations).1) := by
  induction operations generalizing table calls with
  | nil => simpa [Table.performAll] using built
  | cons operation operations ih =>
    have later := ih (built.perform valid.1) valid.2
    rw [List.append_assoc, List.singleton_append] at later
    exact later

/-- Whatever is called on a fresh table with valid handles, the table is well built, and every scope
but the global one is listed once in all scopes. A call that answers with an error changes
nothing. -/
theorem wellBuilt_of_allValid (operations : List Operation)
    (valid : initial.AllValid operations) :
    let calls := (initial.performAll operations).1
    let table := (initial.performAll operations).2
    table.WellBuilt calls ∧
    (∀ scope, Table.global < scope → scope < table.scopes.size →
      (table.scopes.toList.flatMap (·.inner.toList)).count scope = 1) ∧
    ∀ operation error, (table.perform operation).1 = .error error →
      (table.perform operation).2 = table := by
  have built := wellBuilt_initial.performAll valid
  exact ⟨built, fun scope => built.nested.count_inner, fun operation error => perform_of_error⟩

/-- Two functions, one of them in a block, and calls that fail: a name that is taken, a type as the
name of a function, and a variable of something that is no function. -/
def mixedOperations : List Operation :=
  [.defineFunction 0 "f" .int, .openScope 0, .defineParameter 1 2 "a" .int,
    .defineParameter 1 2 "a" .double, .openScope 1, .defineVariable 2 2 "a" .double,
    .defineVariable 2 3 "b" .int, .defineFunction 2 "g" .int, .defineFunction 0 "int" .double,
    .defineVariable 1 5 "x" .int, .defineVariable 1 2 "y" .int]

theorem wellBuilt_mixed :
    let calls := (initial.performAll mixedOperations).1
    let table := (initial.performAll mixedOperations).2
    table.WellBuilt calls ∧ calls.filterMap (·.defined?) = [2, 3, 4, 5, 6, 7] ∧
      table.symbolsOf 1 = [3, 6, 7] ∧ table.innerOf 1 = [2] := by
  have built := (wellBuilt_of_allValid mixedOperations (by decide)).1
  exact ⟨built, by decide, (built.named.defined .stored 1).trans (by decide), by decide⟩

end Table
end MiniC
