import MiniC.Proofs.Scoping

/-!
# Resolving gives every name its slot

A walk that succeeds attaches scopes in which names are stored as the layout of the tree says. The
table only grows on the way: what a name means at a place that was walked through never changes
again.
-/

namespace MiniC

namespace Table

/-! ## Definitions in one scope, one after the other -/

/-- `after` is `before` with the entries defined in `scope`, one after the other. -/
def DefinesAll (scope : ScopeId) : List (String × Slot) → (before after : Table) → Prop
  | [], before, after => after = before
  | (name, slot) :: entries, before, after =>
      ∃ middle, before.Defines middle scope name (some slot) ∧
        DefinesAll scope entries middle after

namespace DefinesAll

variable {scope : ScopeId} {entries : List (String × Slot)} {before after : Table}

theorem size_and_outer (defines : DefinesAll scope entries before after) :
    after.scopes.size = before.scopes.size ∧ ∀ s, after.outer? s = before.outer? s := by
  induction entries generalizing before with
  | nil =>
    rw [show after = before from defines]
    exact ⟨rfl, fun _ => rfl⟩
  | cons entry entries ih =>
    obtain ⟨middle, first, rest⟩ := defines
    obtain ⟨size, outer⟩ := ih rest
    exact ⟨size.trans first.size, fun s => (outer s).trans (first.outer s)⟩

theorem sound (defines : DefinesAll scope entries before after) (sound : before.Sound)
    (notGlobal : scope ≠ Table.global) : after.Sound := by
  induction entries generalizing before with
  | nil =>
    rw [show after = before from defines]
    exact sound
  | cons entry entries ih =>
    obtain ⟨middle, first, rest⟩ := defines
    exact ih rest (first.sound sound (by simp [notGlobal]))

/-- No name is defined twice, and none that the scope has already. -/
theorem fresh (defines : DefinesAll scope entries before after) {name : String} {id : SymbolId}
    (found : before.lookupLocal scope name = some id) : Blocks.findIn name entries = none := by
  induction entries generalizing before with
  | nil => rfl
  | cons entry entries ih =>
    obtain ⟨middle, first, rest⟩ := defines
    have differs : entry.1 ≠ name := by
      rintro rfl
      rw [first.fresh] at found
      cases found
    have found' : middle.lookupLocal scope name = some id := by
      rw [first.lookupLocal, if_neg fun h => differs h.2.symm]
      exact found
    rw [Blocks.findIn_cons, if_neg differs]
    exact ih rest found'

/-- In the scope itself the new entries come before all that was in sight. -/
theorem slotAt_self (defines : DefinesAll scope entries before after) (sound : before.Sound)
    (notGlobal : scope ≠ Table.global) (name : String) :
    after.slotAt scope name = (Blocks.findIn name entries).or (before.slotAt scope name) := by
  induction entries generalizing before with
  | nil =>
    rw [show after = before from defines]
    rfl
  | cons entry entries ih =>
    obtain ⟨middle, first, rest⟩ := defines
    have sound' : middle.Sound := first.sound sound (by simp [notGlobal])
    rw [ih rest sound', Blocks.findIn_cons]
    by_cases same : entry.1 = name
    · subst same
      have found : middle.lookupLocal scope entry.1 = some before.symbols.size := by
        rw [first.lookupLocal, if_pos ⟨rfl, rfl⟩]
      rw [fresh rest found, if_pos rfl, first.slotAt_self sound']
      rfl
    · rw [if_neg same, first.slotAt_of_kept sound sound' scope (.inl fun h => same h.symm)]

theorem slotAt_of_not_reaches (defines : DefinesAll scope entries before after)
    (sound : before.Sound) (notGlobal : scope ≠ Table.global) {s : ScopeId}
    (apart : ¬ before.Reaches s scope) (name : String) :
    after.slotAt s name = before.slotAt s name := by
  induction entries generalizing before with
  | nil => rw [show after = before from defines]
  | cons entry entries ih =>
    obtain ⟨middle, first, rest⟩ := defines
    have sound' : middle.Sound := first.sound sound (by simp [notGlobal])
    rw [ih rest sound' fun reaches => apart (first.reaches_iff.1 reaches),
      first.slotAt_of_kept sound sound' s (.inr apart)]

theorem lookupLocal_global (defines : DefinesAll scope entries before after)
    (notGlobal : scope ≠ Table.global) (name : String) :
    after.lookupLocal Table.global name = before.lookupLocal Table.global name := by
  induction entries generalizing before with
  | nil => rw [show after = before from defines]
  | cons entry entries ih =>
    obtain ⟨middle, first, rest⟩ := defines
    rw [ih rest, first.lookupLocal, if_neg fun h => notGlobal h.1.symm]

theorem symbols_le (defines : DefinesAll scope entries before after) :
    before.symbols.size ≤ after.symbols.size := by
  induction entries generalizing before with
  | nil =>
    have same : after = before := defines
    subst same
    exact Nat.le_refl _
  | cons entry entries ih =>
    obtain ⟨middle, first, rest⟩ := defines
    have le := ih rest
    rw [first.symbols] at le
    exact Nat.le_of_succ_le le

end DefinesAll

/-- Entries of a scope that was just opened are seen nowhere else. -/
theorem grows_of_opened {table after : Table} {outer : ScopeId} {entries : List (String × Slot)}
    (sound : table.Sound) (inside : outer < table.scopes.size)
    (defines : DefinesAll table.scopes.size entries (table.openScope outer) after) :
    table.Grows after where
  scopes := by
    rw [defines.size_and_outer.1, size_openScope]
    exact Nat.le_succ _
  symbols := defines.symbols_le
  outer := by
    intro scope lt
    rw [defines.size_and_outer.2, outer?_openScope, if_neg (Nat.ne_of_lt lt)]
  slotAt := by
    intro scope lt name _
    have opened := sound.openScope inside
    have notGlobal : table.scopes.size ≠ Table.global := Nat.ne_of_gt sound.global_lt
    have apart : ¬ (table.openScope outer).Reaches scope table.scopes.size := by
      intro reaches
      exact absurd (opened.reaches_le reaches) (Nat.not_le_of_lt lt)
    rw [defines.slotAt_of_not_reaches opened notGlobal apart]
    exact slotAt_openScope_of_lt sound inside lt name
  globals := by
    intro name id found
    have notGlobal : table.scopes.size ≠ Table.global := Nat.ne_of_gt sound.global_lt
    rw [defines.lookupLocal_global notGlobal, lookupLocal_openScope]
    exact found

theorem lays_of_opened {table after : Table} {outer : ScopeId} {entries : List (String × Slot)}
    {layout : Layout} (sound : table.Sound) (lays : table.Lays outer layout)
    (defines : DefinesAll table.scopes.size entries (table.openScope outer) after) :
    after.Lays table.scopes.size (entries :: layout) where
  inside := by
    rw [defines.size_and_outer.1, size_openScope]
    exact Nat.lt_succ_self _
  slotAt := by
    intro name isName
    have notGlobal : table.scopes.size ≠ Table.global := Nat.ne_of_gt sound.global_lt
    rw [defines.slotAt_self (sound.openScope lays.inside) notGlobal,
      slotAt_openScope_self sound lays.inside, lays.slotAt name isName, Blocks.find?_cons]

/-- No name is stored in the global scope. -/
theorem Sound.lays_global {table : Table} (sound : table.Sound) : table.Lays Table.global [] where
  inside := sound.global_lt
  slotAt := fun name _ => sound.slotAt_global name

/-! ## What a part of a function adds -/

/-- Only words are defined. -/
def DefinesWords (table : Table) : Prop :=
  ∀ {scope : ScopeId} {name id}, table.lookupLocal scope name = some id → IsIdentifier name

theorem DefinesAll.words {scope : ScopeId} {entries : List (String × Slot)} {before after : Table}
    (defines : DefinesAll scope entries before after) (words : before.DefinesWords)
    (areWords : ∀ name ∈ entries.map (·.1), IsIdentifier name) : after.DefinesWords := by
  induction entries generalizing before with
  | nil =>
    rw [show after = before from defines]
    exact words
  | cons entry entries ih =>
    obtain ⟨middle, first, rest⟩ := defines
    obtain ⟨isWord, areWords⟩ := List.forall_mem_cons.1 areWords
    refine ih rest (fun {s name id} found => ?_) areWords
    rw [first.lookupLocal] at found
    split at found
    · next same => exact same.2 ▸ isWord
    · exact words found

/-- What a part of the function `f` that declares `count` variables does to a table. -/
structure Extends (f : SymbolId) (count : Nat) (before after : Table) : Prop where
  sound : after.Sound
  grows : before.Grows after
  keeps : before.KeepsBut f after
  globals : ∀ name, after.lookupLocal Table.global name = before.lookupLocal Table.global name
  words : before.DefinesWords → after.DefinesWords
  locals : ∀ {n r ps ls k}, before.symbols[f]? = some (.function n r ps ls k) →
    ∃ ls', after.symbols[f]? = some (.function n r ps ls' k) ∧ ls'.size = ls.size + count

theorem Extends.refl {table : Table} (sound : table.Sound) (f : SymbolId) :
    table.Extends f 0 table :=
  ⟨sound, .refl table, fun _ _ _ => rfl, fun _ => rfl, id, fun present => ⟨_, present, rfl⟩⟩

theorem Extends.trans {f : SymbolId} {count count' : Nat} {first second third : Table}
    (extended : first.Extends f count second) (extended' : second.Extends f count' third) :
    first.Extends f (count + count') third where
  sound := extended'.sound
  grows := extended.grows.trans extended'.grows
  keeps := extended.keeps.trans extended.grows extended'.keeps
  globals := fun name => (extended'.globals name).trans (extended.globals name)
  words := fun words => extended'.words (extended.words words)
  locals := by
    intro n r ps ls k present
    obtain ⟨ls', present', size⟩ := extended.locals present
    obtain ⟨ls'', present'', size'⟩ := extended'.locals present'
    exact ⟨ls'', present'', by omega⟩

end Table

theorem map_fst_slotBlock (make : Nat → Slot) (names : List String) (index : Nat) :
    (slotBlock make names index).map (·.1) = names := by
  induction names generalizing index with
  | nil => rfl
  | cons name names ih => exact congrArg (List.cons name) (ih (index + 1))

namespace Walked

variable {α β : Type}

theorem andThen_eq_ok {first : Walked α} {second : Table → Walked β} {unvisited : β} {a : α} {b : β}
    {table : Table} :
    first.andThen second unvisited = ((a, b), .ok table) ↔
      ∃ middle, first = (a, .ok middle) ∧ second middle = (b, .ok table) := by
  obtain ⟨a', result⟩ := first
  cases result with
  | error error => simp [andThen]
  | ok middle =>
    simp only [andThen, Prod.mk.injEq, Except.ok.injEq]
    constructor
    · rintro ⟨⟨rfl, same⟩, rest⟩
      exact ⟨middle, ⟨rfl, rfl⟩, Prod.ext same rest⟩
    · rintro ⟨middle', ⟨rfl, rfl⟩, found⟩
      rw [found]
      exact ⟨⟨rfl, rfl⟩, rfl⟩

theorem map_eq_ok {f : α → β} {walked : Walked α} {b : β} {table : Table} :
    walked.map f = (b, .ok table) ↔ ∃ a, walked = (a, .ok table) ∧ f a = b := by
  obtain ⟨a, result⟩ := walked
  simp only [map, Prod.mk.injEq]
  constructor
  · rintro ⟨same, rfl⟩
    exact ⟨a, ⟨rfl, rfl⟩, same⟩
  · rintro ⟨a', ⟨rfl, rfl⟩, same⟩
    exact ⟨same, rfl⟩

end Walked

namespace Node

open Resolution

/-! ## Expressions -/

theorem walk_callee (ctx : Context) (table : Table) {node : Node} (callee : node.IsCallee) :
    ∃ walked, node.walk ctx table = (walked, .ok table) ∧ walked.CalleeIn ctx.scope := by
  cases node with
  | identifier info name => exact ⟨_, rfl, rfl, callee⟩
  | _ => exact callee.elim

mutual
/-- Walking through an expression attaches the current scope everywhere and defines nothing. -/
theorem walk_value (ctx : Context) (table : Table) : (node : Node) → node.IsValue →
    ∃ walked, node.walk ctx table = (walked, .ok table) ∧ walked.ValueIn ctx.scope
  | identifier info name => fun isValue => ⟨_, rfl, rfl, isValue⟩
  | integer info value => fun _ => ⟨_, rfl, rfl⟩
  | real info value => fun _ => ⟨_, rfl, rfl⟩
  | unary info op operand => by
    intro isValue
    obtain ⟨walked, found, inScope⟩ := walk_value ctx table operand isValue
    refine ⟨unary (attach info ctx.scope) op walked, ?_, rfl, inScope⟩
    rw [walk, found]
    rfl
  | binary info op lhs rhs => by
    rintro ⟨isLhs, isRhs⟩
    obtain ⟨l, found, inScope⟩ := walk_value ctx table lhs isLhs
    obtain ⟨r, found', inScope'⟩ := walk_value ctx table rhs isRhs
    refine ⟨binary (attach info ctx.scope) op l r, ?_, rfl, inScope, inScope'⟩
    rw [walk, Walked.andThen_eq_ok.2 ⟨table, found, found'⟩]
    rfl
  | call info callee arguments => by
    rintro ⟨isCallee, areValues⟩
    obtain ⟨c, found, inScope⟩ := walk_callee ctx table isCallee
    obtain ⟨xs, found', inScope'⟩ := walkAll_values ctx table arguments areValues
    refine ⟨call (attach info ctx.scope) c xs, ?_, rfl, inScope, inScope'⟩
    rw [walk, Walked.andThen_eq_ok.2 ⟨table, found, found'⟩]
    rfl
  | empty .. | program .. | function .. | parameter .. | returnValue .. | block .. | declaration ..
  | assignment .. | ifThen .. | ifElse .. => fun isValue => isValue.elim
theorem walkAll_values (ctx : Context) (table : Table) : (nodes : List Node) → AreValues nodes →
    ∃ walked, walkAll ctx table nodes = (walked, .ok table) ∧ ValuesIn ctx.scope walked
  | [] => fun _ => ⟨_, rfl, trivial⟩
  | node :: nodes => by
    rintro ⟨isValue, areValues⟩
    obtain ⟨x, found, inScope⟩ := walk_value ctx table node isValue
    obtain ⟨xs, found', inScope'⟩ := walkAll_values ctx table nodes areValues
    refine ⟨x :: xs, ?_, inScope, inScope'⟩
    rw [walkAll, Walked.andThen_eq_ok.2 ⟨table, found, found'⟩]
    rfl
end

/-! ## Declarations and parameters -/

section Declarations

variable {ctx : Context} {table after : Table} {f : SymbolId} {n : String} {r : Ty}
  {ps ls : Array SymbolId} {k : Nat}

theorem function_of_enclosingFunction {token : Token}
    (enclosing : enclosingFunction ctx token = .ok f) : ctx.function = some f := by
  unfold enclosingFunction at enclosing
  split at enclosing
  · next inFunction =>
    cases enclosing
    exact inFunction
  · cases enclosing

theorem defines_of_declareVariable {token : Token} {name : String} {ty : Ty}
    (declares : declareVariable ctx token name ty table = .ok after) :
    ∃ f id, ctx.function = some f ∧
      table.defineVariable ctx.scope f name ty = .ok (id, after) := by
  obtain ⟨_, _, declares⟩ := bind_eq_ok.1 declares
  obtain ⟨f, enclosing, declares⟩ := bind_eq_ok.1 declares
  obtain ⟨⟨id, added⟩, defined, last⟩ := bind_eq_ok.1 declares
  cases last
  exact ⟨f, id, function_of_enclosingFunction enclosing, defined⟩

theorem defines_of_declareParameter {token : Token} {name : String} {ty : Ty}
    (declares : declareParameter ctx token name ty table = .ok after) :
    ∃ f id, ctx.function = some f ∧
      table.defineParameter ctx.scope f name ty = .ok (id, after) := by
  obtain ⟨_, _, declares⟩ := bind_eq_ok.1 declares
  obtain ⟨f, enclosing, declares⟩ := bind_eq_ok.1 declares
  obtain ⟨⟨id, added⟩, defined, last⟩ := bind_eq_ok.1 declares
  cases last
  exact ⟨f, id, function_of_enclosingFunction enclosing, defined⟩

theorem declareVariable_eq_ok {token : Token} {name : String} {ty : Ty}
    (inFunction : ctx.function = some f)
    (declares : declareVariable ctx token name ty table = .ok after) :
    ∃ id, table.defineVariable ctx.scope f name ty = .ok (id, after) := by
  obtain ⟨g, id, inFunction', defined⟩ := defines_of_declareVariable declares
  rw [inFunction] at inFunction'
  cases inFunction'
  exact ⟨id, defined⟩

theorem declareParameter_eq_ok {token : Token} {name : String} {ty : Ty}
    (inFunction : ctx.function = some f)
    (declares : declareParameter ctx token name ty table = .ok after) :
    ∃ id, table.defineParameter ctx.scope f name ty = .ok (id, after) := by
  obtain ⟨g, id, inFunction', defined⟩ := defines_of_declareParameter declares
  rw [inFunction] at inFunction'
  cases inFunction'
  exact ⟨id, defined⟩

/-- The nodes of one kind take the places of a function in their order: the walk through such a node
defines its name at the next place, and `symbol`, the function with the list of these, lists it. -/
def Introduces (ctx : Context) (f : SymbolId) (IsKind : Node → Prop) (slot : Nat → Slot)
    (symbol : Array SymbolId → Symbol) : Prop :=
  ∀ ⦃table after : Table⦄ ⦃ids : Array SymbolId⦄ ⦃node walked : Node⦄, IsKind node →
    ctx.scope < table.scopes.size → table.symbols[f]? = some (symbol ids) →
    node.walk ctx table = (walked, .ok after) →
    IsKind walked ∧ (∃ name, node.declaredName? = some name ∧
      table.Defines after ctx.scope name (some (slot ids.size))) ∧
      after.symbols[f]? = some (symbol (ids.push table.symbols.size)) ∧ table.KeepsBut f after

theorem introduces_declaration (inFunction : ctx.function = some f) :
    Introduces ctx f IsDeclaration .localVariable (Symbol.function n r ps · k) := by
  intro table after ids node walked isDeclaration inside present found
  cases node with
  | declaration info ty name =>
    obtain ⟨rfl, declares⟩ := Prod.mk.inj found
    obtain ⟨id, defined⟩ := declareVariable_eq_ok inFunction declares
    obtain ⟨defines, present', keeps⟩ := Table.defineVariable_eq_ok inside present defined
    exact ⟨isDeclaration, ⟨name, rfl, defines⟩, present', keeps⟩
  | _ => exact isDeclaration.elim

theorem introduces_parameter (inFunction : ctx.function = some f) :
    Introduces ctx f IsParameter .parameter (Symbol.function n r · ls k) := by
  intro table after ids node walked isParameter inside present found
  cases node with
  | parameter info ty name =>
    obtain ⟨rfl, declares⟩ := Prod.mk.inj found
    obtain ⟨id, defined⟩ := declareParameter_eq_ok inFunction declares
    obtain ⟨defines, present', keeps⟩ := Table.defineParameter_eq_ok inside present defined
    exact ⟨isParameter, ⟨name, rfl, defines⟩, present', keeps⟩
  | _ => exact isParameter.elim

theorem Introduces.walkAll {IsKind : Node → Prop} {slot : Nat → Slot}
    {symbol : Array SymbolId → Symbol} {ids : Array SymbolId} {nodes walked : List Node}
    (introduces : Introduces ctx f IsKind slot symbol) (areKind : ∀ node ∈ nodes, IsKind node)
    (inside : ctx.scope < table.scopes.size) (present : table.symbols[f]? = some (symbol ids))
    (found : Node.walkAll ctx table nodes = (walked, .ok after)) :
    Table.DefinesAll ctx.scope (slotBlock slot (declaredNames nodes) ids.size) table after ∧
      table.KeepsBut f after ∧ (∀ node ∈ walked, IsKind node) ∧
      ∃ ids', after.symbols[f]? = some (symbol ids') ∧ ids'.size = ids.size + nodes.length := by
  induction nodes generalizing table walked ids with
  | nil =>
    cases found
    exact ⟨rfl, fun _ _ _ => rfl, fun _ member => absurd member List.not_mem_nil, ids, present, rfl⟩
  | cons node nodes ih =>
    obtain ⟨isKind, areKind⟩ := List.forall_mem_cons.1 areKind
    obtain ⟨⟨first, rest⟩, both, rfl⟩ := Walked.map_eq_ok.1 found
    obtain ⟨middle, foundFirst, foundRest⟩ := Walked.andThen_eq_ok.1 both
    obtain ⟨isWalked, ⟨name, named, defines⟩, present', keeps⟩ :=
      introduces isKind inside present foundFirst
    obtain ⟨definesAll, keeps', areWalked, ids', present'', size⟩ :=
      ih areKind (defines.size ▸ inside) present' foundRest
    rw [Array.size_push] at definesAll size
    refine ⟨?_, ?_, List.forall_mem_cons.2 ⟨isWalked, areWalked⟩, ids', present'', ?_⟩
    · rw [declaredNames, List.filterMap_cons_some named]
      exact ⟨_, defines, definesAll⟩
    · intro id lt differs
      have lt' : id < middle.symbols.size := by
        rw [defines.symbols]
        exact Nat.lt_succ_of_lt lt
      rw [keeps' id lt' differs, keeps id lt differs]
    · rw [size, List.length_cons]
      omega

end Declarations

theorem isIdentifier_of_mem_declaredNames {nodes : List Node}
    (declared : ∀ node ∈ nodes, node.IsDeclaration ∨ node.IsParameter) {name : String}
    (member : name ∈ declaredNames nodes) : IsIdentifier name := by
  obtain ⟨node, inNodes, introduces⟩ := List.mem_filterMap.1 member
  cases node with
  | declaration info ty other =>
    cases introduces
    exact (declared _ inNodes).elim id False.elim
  | parameter info ty other =>
    cases introduces
    exact (declared _ inNodes).elim False.elim id
  | _ => cases introduces

/-! ## Statements -/

section Statements

variable {f : SymbolId} {top : ScopeId} {n : String} {r : Ty} {ps : Array SymbolId} {k : Nat}

/-- The declarations of a block, walked in the scope that the block opens. -/
theorem walkAll_opened {ctx : Context} {table after : Table} {layout : Layout}
    {ls : Array SymbolId} {nodes walked : List Node} (inFunction : ctx.function = some f)
    (declared : ∀ node ∈ nodes, node.IsDeclaration) (sound : table.Sound)
    (present : table.symbols[f]? = some (.function n r ps ls k))
    (lays : table.Lays ctx.scope layout) (reaches : table.Reaches ctx.scope top)
    (found : walkAll { ctx with scope := table.scopes.size } (table.openScope ctx.scope) nodes =
      (walked, .ok after)) :
    table.Extends f nodes.length after ∧ (∀ node ∈ walked, node.IsDeclaration) ∧
      after.Reaches table.scopes.size top ∧
      after.Lays table.scopes.size
        (slotBlock .localVariable (declaredNames nodes) ls.size :: layout) ∧
      ∃ ls', after.symbols[f]? = some (.function n r ps ls' k) ∧
        ls'.size = ls.size + nodes.length := by
  have inside := lays.inside
  have inFunction' : ({ ctx with scope := table.scopes.size } : Context).function = some f := inFunction
  have opened := sound.openScope inside
  have notGlobal : table.scopes.size ≠ Table.global := Nat.ne_of_gt sound.global_lt
  have inside' : table.scopes.size < (table.openScope ctx.scope).scopes.size := by
    rw [Table.size_openScope]
    exact Nat.lt_succ_self _
  obtain ⟨defines, keeps, areWalked, ls', present', size⟩ :=
    (introduces_declaration inFunction').walkAll declared inside' present found
  have grows := Table.grows_of_opened sound inside defines
  have sound' := defines.sound opened notGlobal
  refine ⟨⟨sound', grows, keeps, ?_, ?_, ?_⟩, areWalked, ?_,
    Table.lays_of_opened sound lays defines, ls', present', size⟩
  · intro name
    rw [defines.lookupLocal_global notGlobal, Table.lookupLocal_openScope]
  · intro words
    refine defines.words (fun {s name id} local_eq => ?_) fun name member => ?_
    · rw [Table.lookupLocal_openScope] at local_eq
      exact words local_eq
    · rw [map_fst_slotBlock] at member
      exact isIdentifier_of_mem_declaredNames (fun node inNodes => .inl (declared node inNodes)) member
  · intro n' r' ps' ls'' k' present''
    rw [present] at present''
    cases present''
    exact ⟨ls', present', size⟩
  · refine .outward ?_ (grows.reaches sound inside reaches)
    rw [defines.size_and_outer.2, Table.outer?_openScope, if_pos rfl]

mutual
/-- Walking through a statement gives every name in it the slot that the layout says. -/
theorem walk_statement : (node : Node) → ∀ ⦃ctx : Context⦄ ⦃table after : Table⦄ ⦃layout : Layout⦄
    ⦃ls : Array SymbolId⦄ ⦃walked : Node⦄, node.IsStatement → ctx.function = some f →
    table.Sound → table.symbols[f]? = some (.function n r ps ls k) →
    table.Lays ctx.scope layout → table.Reaches ctx.scope top →
    node.walk ctx table = (walked, .ok after) →
    table.Extends f node.localCount after ∧ walked.ScopedIn after top ctx.scope layout ls.size ∧
      walked.localCount = node.localCount
  | empty info => by
    intro ctx table after layout ls walked _ _ sound _ _ _ found
    cases found
    exact ⟨.refl sound f, rfl, rfl⟩
  | returnValue info value => by
    intro ctx table after layout ls walked isValue _ sound _ _ _ found
    obtain ⟨value', foundValue, inScope⟩ := walk_value ctx table value isValue
    rw [walk, foundValue] at found
    cases found
    exact ⟨.refl sound f, ⟨rfl, inScope⟩, rfl⟩
  | assignment info target value => by
    rintro ctx table after layout ls walked ⟨isName, isValue⟩ _ sound _ _ _ found
    obtain ⟨value', foundValue, inScope⟩ := walk_value ctx table value isValue
    rw [walk, foundValue] at found
    cases found
    exact ⟨.refl sound f, ⟨rfl, isName, inScope⟩, rfl⟩
  | ifThen info condition consequent => by
    rintro ctx table after layout ls walked ⟨isValue, isStatement⟩ inFunction sound present lays
      reaches found
    obtain ⟨condition', foundValue, inScope⟩ := walk_value ctx table condition isValue
    rw [walk] at found
    obtain ⟨⟨c, s⟩, both, rfl⟩ := Walked.map_eq_ok.1 found
    obtain ⟨middle, first, second⟩ := Walked.andThen_eq_ok.1 both
    rw [foundValue] at first
    cases first
    obtain ⟨extended, placed, count⟩ :=
      walk_statement consequent isStatement inFunction sound present lays reaches second
    exact ⟨extended, ⟨rfl, inScope, placed⟩, count⟩
  | ifElse info condition consequent alternative => by
    rintro ctx table after layout ls walked ⟨isValue, isStatement, isStatement'⟩ inFunction sound
      present lays reaches found
    obtain ⟨condition', foundValue, inScope⟩ := walk_value ctx table condition isValue
    rw [walk] at found
    obtain ⟨⟨⟨c, s⟩, a⟩, all, rfl⟩ := Walked.map_eq_ok.1 found
    obtain ⟨middle, both, third⟩ := Walked.andThen_eq_ok.1 all
    obtain ⟨start, first, second⟩ := Walked.andThen_eq_ok.1 both
    rw [foundValue] at first
    cases first
    obtain ⟨extended, placed, count⟩ :=
      walk_statement consequent isStatement inFunction sound present lays reaches second
    obtain ⟨ls', present', size⟩ := extended.locals present
    obtain ⟨extended', placed', count'⟩ :=
      walk_statement alternative isStatement' inFunction extended.sound present'
        (extended.grows.lays lays) (extended.grows.reaches sound lays.inside reaches) third
    refine ⟨extended.trans extended', ⟨rfl, inScope, ?_, ?_⟩, ?_⟩
    · exact Node.ScopedIn.grows extended.sound extended'.grows s placed
    · rw [count, ← size]
      exact placed'
    · simp only [localCount, count, count']
  | block info declarations statements => by
    rintro ctx table after layout ls walked ⟨declared, areStatements⟩ inFunction sound present lays
      reaches found
    rw [walk] at found
    obtain ⟨⟨ds, ss⟩, both, rfl⟩ := Walked.map_eq_ok.1 found
    obtain ⟨middle, first, second⟩ := Walked.andThen_eq_ok.1 both
    have sameNames := declaredNames_walkAll { ctx with scope := table.scopes.size }
      (table.openScope ctx.scope) declarations
    have sameLength := length_walkAll { ctx with scope := table.scopes.size }
      (table.openScope ctx.scope) declarations
    rw [first] at sameNames sameLength
    have inFunction' : ({ ctx with scope := table.scopes.size } : Context).function = some f :=
      inFunction
    obtain ⟨extended, declared', reaches', lays', ls', present', size⟩ :=
      walkAll_opened inFunction declared sound present lays reaches first
    obtain ⟨extended', placed, count⟩ :=
      walkAll_statements statements areStatements inFunction' extended.sound present' lays'
        reaches' second
    refine ⟨extended.trans extended', ⟨table.scopes.size, rfl, declared', ?_, ?_, ?_⟩, ?_⟩
    · exact extended'.grows.reaches extended.sound lays'.inside reaches'
    · rw [sameNames]
      exact extended'.grows.lays lays'
    · rw [sameNames, sameLength, ← size]
      exact placed
    · simp only [localCount, sameLength, count]
  | program .. | function .. | parameter .. | call .. | declaration .. | binary .. | unary ..
  | identifier .. | integer .. | real .. => fun _ _ _ _ _ _ isStatement => isStatement.elim
theorem walkAll_statements : (nodes : List Node) → ∀ ⦃ctx : Context⦄ ⦃table after : Table⦄
    ⦃layout : Layout⦄ ⦃ls : Array SymbolId⦄ ⦃walked : List Node⦄, AreStatements nodes →
    ctx.function = some f → table.Sound → table.symbols[f]? = some (.function n r ps ls k) →
    table.Lays ctx.scope layout → table.Reaches ctx.scope top →
    walkAll ctx table nodes = (walked, .ok after) →
    table.Extends f (localCounts nodes) after ∧
      ScopedAll after top ctx.scope layout ls.size walked ∧
      localCounts walked = localCounts nodes
  | [] => by
    intro ctx table after layout ls walked _ _ sound _ _ _ found
    cases found
    exact ⟨.refl sound f, trivial, rfl⟩
  | node :: nodes => by
    rintro ctx table after layout ls walked ⟨isStatement, areStatements⟩ inFunction sound present
      lays reaches found
    rw [walkAll] at found
    obtain ⟨⟨first, rest⟩, both, rfl⟩ := Walked.map_eq_ok.1 found
    obtain ⟨middle, foundFirst, foundRest⟩ := Walked.andThen_eq_ok.1 both
    obtain ⟨extended, placed, count⟩ :=
      walk_statement node isStatement inFunction sound present lays reaches foundFirst
    obtain ⟨ls', present', size⟩ := extended.locals present
    obtain ⟨extended', placed', count'⟩ :=
      walkAll_statements nodes areStatements inFunction extended.sound present'
        (extended.grows.lays lays) (extended.grows.reaches sound lays.inside reaches) foundRest
    refine ⟨extended.trans extended', ⟨?_, ?_⟩, ?_⟩
    · exact Node.ScopedIn.grows extended.sound extended'.grows first placed
    · rw [count, ← size]
      exact placed'
    · simp only [localCounts, count, count']
end

end Statements

/-! ## Functions -/

theorem defines_of_enterFunction {ctx inside : Context} {token : Token} {name : String} {ty : Ty}
    {table start : Table} (enters : enterFunction ctx token name ty table = .ok (inside, start)) :
    ∃ id middle, table.defineFunction ctx.scope name ty = .ok (id, middle) ∧
      inside = ⟨middle.scopes.size, some id⟩ ∧ start = middle.openScope ctx.scope := by
  obtain ⟨_, _, enters⟩ := bind_eq_ok.1 enters
  obtain ⟨⟨id, middle⟩, defined, last⟩ := bind_eq_ok.1 enters
  cases last
  exact ⟨id, middle, defined, rfl, rfl⟩

theorem enterFunction_eq_ok {token : Token} {name : String} {returnType : Ty}
    {table opened : Table} {inside : Context} (sound : table.Sound)
    (enters : enterFunction ⟨Table.global, none⟩ token name returnType table = .ok (inside, opened)) :
    ∃ middle ordinal, table.Defines middle Table.global name none ∧
      middle.symbols = table.symbols.push (.function name returnType #[] #[] ordinal) ∧
      inside = ⟨middle.scopes.size, some table.symbols.size⟩ ∧
      opened = middle.openScope Table.global := by
  obtain ⟨id, middle, defined, isInside, isOpened⟩ := defines_of_enterFunction enters
  obtain ⟨defines, rfl, ordinal, symbols⟩ := Table.defineFunction_eq_ok sound.global_lt defined
  exact ⟨middle, ordinal, defines, symbols, isInside, isOpened⟩

/-- Defining a function moves nothing that was stored. -/
theorem grows_of_function {table after : Table} {name : String} (sound : table.Sound)
    (defines : table.Defines after Table.global name none) : table.Grows after := by
  have sound' := defines.sound sound (by simp)
  refine ⟨Nat.le_of_eq defines.size.symm, ?_, fun s _ => defines.outer s, ?_, ?_⟩
  · rw [defines.symbols]
    exact Nat.le_succ _
  · intro scope _ other _
    exact defines.slotAt_of_global sound sound' scope
  · intro other id known
    rw [defines.lookupLocal, if_neg]
    · exact known
    · rintro ⟨_, rfl⟩
      rw [defines.fresh] at known
      cases known

/-- What the parameters of the function `f` leave behind, which were walked in the scope that the
function opens. -/
structure WithParameters (f : SymbolId) (name : String) (returnType : Ty) (ordinal : Nat)
    (before : Table) (walked : List Node) (after : Table) : Prop where
  sound : after.Sound
  grows : before.Grows after
  words : before.DefinesWords → after.DefinesWords
  globals : ∀ other,
    after.lookupLocal Table.global other = before.lookupLocal Table.global other
  keeps : ∀ id < before.symbols.size, id ≠ f → after.symbols[id]? = before.symbols[id]?
  lays : after.Lays before.scopes.size (parameterLayout walked)
  areParameters : ∀ node ∈ walked, node.IsParameter
  inputs : ∃ ps : Array SymbolId,
    after.symbols[f]? = some (.function name returnType ps #[] ordinal) ∧ ps.size = walked.length

theorem walkAll_withParameters {f : SymbolId} {name : String} {returnType : Ty} {ordinal : Nat}
    {table after : Table} {parameters walked : List Node} (sound : table.Sound)
    (present : table.symbols[f]? = some (.function name returnType #[] #[] ordinal))
    (areParameters : ∀ node ∈ parameters, node.IsParameter)
    (found : walkAll ⟨table.scopes.size, some f⟩ (table.openScope Table.global) parameters =
      (walked, .ok after)) :
    WithParameters f name returnType ordinal table walked after := by
  have inside : table.scopes.size < (table.openScope Table.global).scopes.size := by
    rw [Table.size_openScope]
    exact Nat.lt_succ_self _
  have notGlobal : table.scopes.size ≠ Table.global := Nat.ne_of_gt sound.global_lt
  obtain ⟨defines, keeps, areWalked, ps, present', size⟩ :=
    (introduces_parameter rfl).walkAll areParameters inside
      (show (table.openScope Table.global).symbols[f]? = _ from present) found
  have sameNames := declaredNames_walkAll ⟨table.scopes.size, some f⟩
    (table.openScope Table.global) parameters
  have sameLength := length_walkAll ⟨table.scopes.size, some f⟩
    (table.openScope Table.global) parameters
  rw [found] at sameNames sameLength
  refine ⟨defines.sound (sound.openScope sound.global_lt) notGlobal,
    Table.grows_of_opened sound sound.global_lt defines, ?_, ?_, keeps, ?_, areWalked, ps, present',
    ?_⟩
  · intro words
    refine defines.words (fun {s other id} known => ?_) fun other member => ?_
    · rw [Table.lookupLocal_openScope] at known
      exact words known
    · rw [map_fst_slotBlock] at member
      exact isIdentifier_of_mem_declaredNames (fun node inNodes => .inr (areParameters node inNodes))
        member
  · intro other
    rw [defines.lookupLocal_global notGlobal, Table.lookupLocal_openScope]
  · unfold parameterLayout
    rw [sameNames]
    exact Table.lays_of_opened sound sound.lays_global defines
  · rw [size, sameLength, Array.size_empty, Nat.zero_add]

/-- Walking through a function defines its name, and stores its parameters and variables in its
frame. -/
theorem walk_function {table after : Table} {info : Info} {returnType : Ty} {name : String}
    {parameters : List Node} {body walked : Node} (sound : table.Sound)
    (areParameters : ∀ node ∈ parameters, node.IsParameter) (isStatement : body.IsStatement)
    (isName : IsIdentifier name)
    (found : (function info returnType name parameters body).walk ⟨Table.global, none⟩ table =
      (walked, .ok after)) :
    after.Sound ∧ table.Grows after ∧ (table.DefinesWords → after.DefinesWords) ∧
      (∀ id < table.symbols.size, after.symbols[id]? = table.symbols[id]?) ∧
      table.lookupLocal Table.global name = none ∧
      (∀ other, after.lookupLocal Table.global other =
        if other = name then some table.symbols.size else table.lookupLocal Table.global other) ∧
      walked.functionName? = some name ∧ walked.FunctionIn after := by
  rw [walk] at found
  split at found
  · cases found
  · next inside opened enters =>
    obtain ⟨middle, ordinal, defines, symbols, rfl, rfl⟩ := enterFunction_eq_ok sound enters
    obtain ⟨⟨ps, b⟩, both, rfl⟩ := Walked.map_eq_ok.1 found
    obtain ⟨start, first, second⟩ := Walked.andThen_eq_ok.1 both
    have sound' : middle.Sound := defines.sound sound (by simp)
    have notGlobal : middle.scopes.size ≠ Table.global := Nat.ne_of_gt sound'.global_lt
    have defined := grows_of_function sound defines
    have present : middle.symbols[table.symbols.size]? =
        some (.function name returnType #[] #[] ordinal) := by
      rw [symbols, Array.getElem?_push_size]
    have entered := walkAll_withParameters sound' present areParameters first
    obtain ⟨inputs, present', size⟩ := entered.inputs
    obtain ⟨extended, placed, count⟩ :=
      walk_statement body isStatement rfl entered.sound present' entered.lays (.refl _) second
    obtain ⟨ls, present'', size'⟩ := extended.locals present'
    have globals (other : String) : after.lookupLocal Table.global other =
        if other = name then some table.symbols.size
        else table.lookupLocal Table.global other := by
      rw [extended.globals, entered.globals, defines.lookupLocal]
      simp
    refine ⟨extended.sound, (defined.trans entered.grows).trans extended.grows, ?_, ?_,
      defines.fresh, globals, rfl, table.symbols.size, middle.scopes.size, rfl,
      entered.areParameters, ?_, notGlobal, extended.grows.lays entered.lays, placed⟩
    · intro words
      refine extended.words (entered.words fun {s other id} known => ?_)
      rw [defines.lookupLocal] at known
      split at known
      · next same => exact same.2 ▸ isName
      · exact words known
    · intro id lt
      have differs : id ≠ table.symbols.size := Nat.ne_of_lt lt
      have lt' : id < middle.symbols.size := Nat.lt_of_lt_of_le lt defined.symbols
      rw [extended.keeps id (Nat.lt_of_lt_of_le lt' entered.grows.symbols) differs,
        entered.keeps id lt' differs, symbols, Array.getElem?_push_lt lt,
        Array.getElem?_eq_getElem lt]
    · refine ⟨(globals name).trans (if_pos rfl), returnType, inputs, ls, ordinal, present'', size,
        ?_⟩
      rw [size', count, Array.size_empty, Nat.zero_add]

/-! ## Programs -/

/-- Walking through functions defines each of them once. -/
theorem walkAll_functions {table after : Table} {nodes walked : List Node} (sound : table.Sound)
    (functions : ∀ node ∈ nodes, node.IsFunction)
    (found : walkAll ⟨Table.global, none⟩ table nodes = (walked, .ok after)) :
    after.Sound ∧ table.Grows after ∧ (table.DefinesWords → after.DefinesWords) ∧
      (∀ id < table.symbols.size, after.symbols[id]? = table.symbols[id]?) ∧
      (∀ name ∈ functionNames walked, table.lookupLocal Table.global name = none) ∧
      (functionNames walked).Nodup ∧
      (∀ {name id}, after.lookupLocal Table.global name = some id →
        table.lookupLocal Table.global name = some id ∨ name ∈ functionNames walked) ∧
      ∀ node ∈ walked, node.FunctionIn after := by
  induction nodes generalizing table walked with
  | nil =>
    cases found
    exact ⟨sound, .refl _, id, fun _ _ => rfl, fun _ member => absurd member List.not_mem_nil,
      List.nodup_nil, fun known => .inl known, fun _ member => absurd member List.not_mem_nil⟩
  | cons node nodes ih =>
    obtain ⟨isFunction, areFunctions⟩ := List.forall_mem_cons.1 functions
    rw [walkAll] at found
    obtain ⟨⟨first, rest⟩, both, rfl⟩ := Walked.map_eq_ok.1 found
    obtain ⟨middle, foundFirst, foundRest⟩ := Walked.andThen_eq_ok.1 both
    cases node with
    | function info returnType name parameters body =>
      obtain ⟨isName, areParameters, isStatement⟩ := isFunction
      obtain ⟨sound', grows, words, kept, fresh, globals, named, placed⟩ :=
        walk_function sound areParameters isStatement isName foundFirst
      obtain ⟨sound'', grows', words', kept', fresh', distinct, globals', placed'⟩ :=
        ih sound' areFunctions foundRest
      have names : functionNames (first :: rest) = name :: functionNames rest := by
        unfold functionNames
        rw [List.filterMap_cons, named]
      have differ : ∀ other ∈ functionNames rest, other ≠ name := by
        rintro other member rfl
        have missing := fresh' other member
        rw [globals, if_pos rfl] at missing
        cases missing
      refine ⟨sound'', grows.trans grows', fun h => words' (words h), ?_, ?_, ?_, ?_, ?_⟩
      · intro id lt
        rw [kept' id (Nat.lt_of_lt_of_le lt grows.symbols), kept id lt]
      · rw [names]
        refine List.forall_mem_cons.2 ⟨fresh, fun other member => ?_⟩
        have missing := fresh' other member
        rw [globals, if_neg (differ other member)] at missing
        exact missing
      · rw [names]
        exact List.nodup_cons.2 ⟨fun member => differ name member rfl, distinct⟩
      · intro other id known
        rw [names]
        rcases globals' known with known' | member
        · rw [globals] at known'
          split at known'
          · next same => exact .inr (same ▸ List.mem_cons_self)
          · exact .inl known'
        · exact .inr (List.mem_cons_of_mem _ member)
      · exact List.forall_mem_cons.2 ⟨placed.grows sound' grows' kept', placed'⟩
    | _ => exact isFunction.elim

end Node

namespace Table

theorem lookupLocal_initial {scope : ScopeId} {name : String} {id : SymbolId}
    (found : initial.lookupLocal scope name = some id) :
    scope = global ∧ IsIdentifier name ∧ ∃ ty, initial.symbols[id]? = some (.builtinType ty) := by
  cases scope with
  | succ scope => cases found
  | zero =>
    obtain ⟨entry, member, rfl⟩ := Option.map_eq_some_iff.1 found
    have isName : entry.1 = name := by simpa using Array.find?_some member
    have inNames := Array.mem_of_find?_eq_some member
    have cases_of : entry = ("int", 0) ∨ entry = ("double", 1) := by
      simpa [initial] using inNames
    subst isName
    rcases cases_of with rfl | rfl
    · have start : ∀ c ∈ "int".toList.head?, isWordStart c := fun c isHead => by
        obtain rfl : 'i' = c := by simpa using isHead
        decide
      exact ⟨rfl, ⟨List.all_eq_true.1 (by decide), by decide, start⟩, .int, rfl⟩
    · have start : ∀ c ∈ "double".toList.head?, isWordStart c := fun c isHead => by
        obtain rfl : 'd' = c := by simpa using isHead
        decide
      exact ⟨rfl, ⟨List.all_eq_true.1 (by decide), by decide, start⟩, .double, rfl⟩

theorem sound_initial : initial.Sound where
  global := ⟨_, rfl, rfl⟩
  outer_lt := by
    intro scope outer found
    cases scope with
    | zero => cases found
    | succ scope => cases found
  known := by
    intro scope name id found
    obtain ⟨rfl, _, ty, present⟩ := lookupLocal_initial found
    exact ⟨_, present, iff_of_true rfl rfl⟩

end Table

namespace Node

/-- The functions of a resolved program and its table. -/
structure ProgramIn (table : Table) (functions : List Node) : Prop where
  sound : table.Sound
  words : table.DefinesWords
  distinct : (functionNames functions).Nodup
  /-- All that is global are types and these functions. -/
  globals : ∀ {name id}, table.lookupLocal Table.global name = some id →
    (∃ ty, table.symbols[id]? = some (.builtinType ty)) ∨ name ∈ functionNames functions
  placed : ∀ node ∈ functions, node.FunctionIn table

/-- A program that can be resolved has every name in its place. -/
theorem resolve_isProgram {tree walked : Node} {table : Table} (isProgram : tree.IsProgram)
    (resolved : tree.resolve = (walked, .ok table)) :
    ∃ info functions, walked = program info functions ∧ ProgramIn table functions := by
  cases tree with
  | program info functions =>
    rw [resolve_eq_walk] at resolved
    rw [walk] at resolved
    obtain ⟨walked', found, rfl⟩ := Walked.map_eq_ok.1 resolved
    obtain ⟨sound, _, words, kept, _, distinct, globals, placed⟩ :=
      walkAll_functions Table.sound_initial isProgram found
    refine ⟨_, walked', rfl, sound, ?_, distinct, ?_, placed⟩
    · exact words fun known => (Table.lookupLocal_initial known).2.1
    · intro name id known
      rcases globals known with known' | member
      · obtain ⟨_, _, ty, present⟩ := Table.lookupLocal_initial known'
        exact .inl ⟨ty, (kept id (Table.sound_initial.lookupLocal_lt known')).trans present⟩
      · exact .inr member
  | _ => exact isProgram.elim

end Node
end MiniC
