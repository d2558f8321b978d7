import MiniC.Proofs.DrawnTrees
import MiniC.Proofs.Histories

/-!
# Dumps of a table are complete

Both dumps of a table go down into the scopes that a scope lists as lying inside it. Nothing about
lists of numbers says that this ends, or that it comes to every scope, or only once. Scopes nest, and
that does: there is a finite tree of scopes (`Unfolds`), as a scope inside has a greater number, and
in its pre-order every scope but the root is listed once by each occurrence of the scope around it,
so that all of them occur once (`perm_range`). Whatever is written scope by scope is written along
this tree (`Nested.written_eq`).

A drawing has its edges from the lists of scopes inside. That an edge comes from the scope around the
one that it leads to holds because scopes nest.

The symbols of the scopes are all symbols, each of them once. A call keeps this, whether it opens a
scope, fails, or adds a symbol. Maps may give the symbols of a scope out in any order, and no dump
tells which.
-/

namespace MiniC

theorem Rose.preorders_eq_flatMap {α : Type} (trees : List (Rose α)) :
    preorders trees = trees.flatMap preorder := by
  induction trees with
  | nil => rfl
  | cons tree trees ih => rw [preorders, ih, List.flatMap_cons]

namespace Table

/-! ## Trees of scopes -/

/-- A tree of scopes: directly below a scope stand those that it lists, in this order. -/
inductive Unfolds (table : Table) : Rose ScopeId → Prop
  | node {scope : ScopeId} {trees : List (Rose ScopeId)}
      (inner : trees.map Rose.root = table.innerOf scope) (below : ∀ tree ∈ trees, Unfolds table tree) :
      Unfolds table (.node scope trees)

variable {table after : Table} {tree : Rose ScopeId}

theorem Nested.innerOf_eq_nil (nested : table.Nested) {scope : Nat}
    (outside : table.scopes.size ≤ scope) : table.innerOf scope = [] := by
  refine List.eq_nil_iff_forall_not_mem.2 fun inner member => ?_
  obtain ⟨less, lt⟩ := nested.outer_lt (nested.mem_innerOf.1 member)
  exact absurd (Nat.lt_trans less lt) (Nat.not_lt_of_le outside)

theorem Nested.lt_of_mem_innerOf (nested : table.Nested) {scope inner : Nat}
    (member : inner ∈ table.innerOf scope) : scope < inner ∧ inner < table.scopes.size :=
  nested.outer_lt (nested.mem_innerOf.1 member)

/-- Going inward ends. -/
theorem Nested.exists_unfolds (nested : table.Nested) (depth scope : Nat)
    (enough : table.scopes.size ≤ scope + depth) : ∃ tree, tree.root = scope ∧ table.Unfolds tree := by
  induction depth generalizing scope with
  | zero => exact ⟨.node scope [], rfl, .node (nested.innerOf_eq_nil enough).symm (by simp)⟩
  | succ depth ih =>
    have trees : ∀ scopes : List ScopeId, (∀ inner ∈ scopes, inner ∈ table.innerOf scope) →
        ∃ trees : List (Rose ScopeId), trees.map Rose.root = scopes ∧
          ∀ tree ∈ trees, table.Unfolds tree := by
      intro scopes areInner
      induction scopes with
      | nil => exact ⟨[], rfl, by simp⟩
      | cons inner scopes ih' =>
        obtain ⟨isInner, areInner⟩ := List.forall_mem_cons.1 areInner
        have less := (nested.lt_of_mem_innerOf isInner).1
        obtain ⟨tree, isRoot, unfolds⟩ := ih inner (by omega)
        obtain ⟨trees, areRoots, unfold⟩ := ih' areInner
        refine ⟨tree :: trees, ?_, List.forall_mem_cons.2 ⟨unfolds, unfold⟩⟩
        rw [List.map_cons, isRoot, areRoots]
    obtain ⟨trees, areRoots, unfold⟩ := trees _ fun _ => id
    exact ⟨.node scope trees, rfl, .node areRoots unfold⟩

/-- What is written of a scope and then of the scopes inside, deep enough, is what is written of all
scopes of the tree. -/
theorem Nested.written_eq {α : Type} (nested : table.Nested)
    (written : (depth : Nat) → ScopeId → List α) (own : ScopeId → List α)
    (flat : ∀ scope, written 0 scope = own scope)
    (deep : ∀ depth scope, written (depth + 1) scope =
      own scope ++ (table.innerOf scope).flatMap (written depth))
    (unfolds : table.Unfolds tree) (depth : Nat)
    (enough : table.scopes.size ≤ tree.root + depth) :
    written depth tree.root = tree.preorder.flatMap own := by
  induction unfolds generalizing depth with
  | @node scope trees inner _ ih =>
    rw [Rose.preorder, Rose.preorders_eq_flatMap, List.flatMap_cons]
    cases depth with
    | zero =>
      have outside : table.scopes.size ≤ scope := enough
      rw [nested.innerOf_eq_nil outside, List.map_eq_nil_iff] at inner
      rw [inner, Rose.root, flat, List.flatMap_nil, List.flatMap_nil, List.append_nil]
    | succ depth =>
      rw [Rose.root, deep, ← inner, List.flatMap_map, List.flatMap_assoc]
      refine congrArg (own scope ++ ·) (List.flatMap_congr fun tree member => ih tree member depth ?_)
      have isInner : tree.root ∈ table.innerOf scope := inner ▸ List.mem_map_of_mem member
      have less := (nested.lt_of_mem_innerOf isInner).1
      have enough : table.scopes.size ≤ scope + (depth + 1) := enough
      omega

/-! ## Every scope once -/

/-- What is listed in a tree is its root, and what the scopes of the tree list. -/
theorem Unfolds.perm (unfolds : table.Unfolds tree) :
    tree.preorder.Perm (tree.root :: tree.preorder.flatMap table.innerOf) := by
  induction unfolds with
  | @node scope trees inner _ ih =>
    have below : ∀ trees : List (Rose ScopeId),
        (∀ tree ∈ trees, tree.preorder.Perm (tree.root :: tree.preorder.flatMap table.innerOf)) →
        (trees.flatMap Rose.preorder).Perm
          (trees.map Rose.root ++ (trees.flatMap Rose.preorder).flatMap table.innerOf) := by
      intro trees ih
      induction trees with
      | nil => exact .nil
      | cons tree trees ih' =>
        obtain ⟨first, later⟩ := List.forall_mem_cons.1 ih
        rw [List.flatMap_cons, List.flatMap_append]
        exact (first.append (ih' later)).trans (.cons _ (List.perm_append_comm_assoc ..))
    rw [Rose.preorder, Rose.preorders_eq_flatMap, List.flatMap_cons, ← inner]
    exact .cons scope (below trees ih)

/-- A tree from the global scope on has every scope once. -/
theorem Nested.perm_range (nested : table.Nested) (unfolds : table.Unfolds tree)
    (isGlobal : tree.root = Table.global) :
    tree.preorder.Perm (List.range table.scopes.size) := by
  have counts (scope : ScopeId) : tree.preorder.count scope =
      [Table.global].count scope + (tree.preorder.flatMap table.innerOf).count scope := by
    rw [unfolds.perm.count_eq, isGlobal, ← List.singleton_append, List.count_append]
  have unlisted {scope : ScopeId} (top : table.outer? scope = none) :
      (tree.preorder.flatMap table.innerOf).count scope = 0 := by
    refine List.count_eq_zero.2 fun member => ?_
    obtain ⟨outer, _, isInner⟩ := List.mem_flatMap.1 member
    rw [nested.mem_innerOf, top] at isInner
    cases isInner
  refine List.perm_iff_count.2 fun scope => ?_
  by_cases inside : scope < table.scopes.size
  · rw [List.count_eq_one_of_mem List.nodup_range (List.mem_range.2 inside)]
    induction scope using Nat.strongRecOn with
    | ind scope ih =>
      rcases Nat.eq_zero_or_pos scope with rfl | positive
      · have top := unlisted nested.global.1
        rw [counts]
        exact congrArg (1 + ·) top
      · obtain ⟨outer, _, around, less, _⟩ := nested.outer scope positive inside
        have isOnce := ih outer less (Nat.lt_trans less inside)
        rw [counts, nested.count_flatMap_innerOf around, isOnce, List.count_singleton]
        simp [Table.global, Nat.ne_of_lt positive]
  · have outside := Nat.le_of_not_lt inside
    rw [List.count_eq_zero.2 (fun member => inside (List.mem_range.1 member)), counts,
      unlisted (outer?_of_le outside)]
    have apart : scope ≠ Table.global := fun same => inside (same ▸ nested.present)
    simp [Ne.symm apart]

/-! ## Every symbol once -/

/-- The scopes hold every symbol once. -/
def HoldsSymbols (table : Table) : Prop :=
  ((List.range table.scopes.size).flatMap table.heldBy).Perm (List.range table.symbols.size)

theorem HoldsSymbols.openScope (holds : table.HoldsSymbols) (outer : ScopeId) :
    (table.openScope outer).HoldsSymbols := by
  have isEmpty : table.heldBy table.scopes.size = [] := by
    rw [heldBy, Array.getElem?_eq_none (Nat.le_refl _)]
    rfl
  have same : (table.openScope outer).heldBy = table.heldBy :=
    funext (table.heldBy_openScope outer)
  unfold HoldsSymbols
  rw [size_openScope, symbols_openScope, same, List.range_succ, List.flatMap_append,
    List.flatMap_singleton, isEmpty, List.append_nil]
  exact holds

theorem flatMap_singleton_of_nodup {scopes : List ScopeId} (distinct : scopes.Nodup)
    {scope : ScopeId} (member : scope ∈ scopes) (id : SymbolId) :
    (scopes.flatMap fun s => if s = scope then [id] else []) = [id] := by
  obtain ⟨front, back, rfl⟩ := List.append_of_mem member
  obtain ⟨_, distinct, apart⟩ := List.nodup_append.1 distinct
  have absent (others : List ScopeId) (differ : ∀ s ∈ others, s ≠ scope) :
      (others.flatMap fun s => if s = scope then [id] else []) = [] :=
    List.flatMap_eq_nil_iff.2 fun s inOthers => if_neg (differ s inOthers)
  rw [List.flatMap_append, List.flatMap_cons, if_pos rfl,
    absent front fun s inFront => apart s inFront scope List.mem_cons_self,
    absent back fun s inBack same => (List.nodup_cons.1 distinct).1 (same ▸ inBack)]
  rfl

theorem HoldsSymbols.gains {scope : ScopeId} {symbol : Symbol} (holds : table.HoldsSymbols)
    (gains : table.Gains after scope symbol) : after.HoldsSymbols := by
  have grown : after.heldBy = fun s =>
      table.heldBy s ++ if s = scope then [table.symbols.size] else [] :=
    funext gains.heldBy_eq
  unfold HoldsSymbols
  rw [gains.defines.size, gains.symbols.size_eq, grown, List.range_succ]
  refine (List.flatMap_append_perm ..).symm.trans ?_
  rw [flatMap_singleton_of_nodup List.nodup_range (List.mem_range.2 gains.inside)]
  exact holds.append_right _

theorem HoldsSymbols.perform {operation : Operation} (holds : table.HoldsSymbols)
    (valid : operation.IsValid table) : (table.perform operation).2.HoldsSymbols := by
  rcases perform_cases valid with
    ⟨outer, rfl, _⟩ | ⟨error, failed⟩ | ⟨scope, symbol, after, _, gains, done⟩
  · exact holds.openScope outer
  · rw [failed]
    exact holds
  · rw [done]
    exact holds.gains gains

theorem HoldsSymbols.performAll (holds : table.HoldsSymbols) {operations : List Operation}
    (valid : table.AllValid operations) : (table.performAll operations).2.HoldsSymbols := by
  induction operations generalizing table with
  | nil => exact holds
  | cons operation operations ih => exact ih (holds.perform valid.1) valid.2

/-- Listing what the scopes hold, in whatever order maps give it out, misses nothing. -/
theorem HoldsSymbols.symbolsOf_perm (holds : table.HoldsSymbols) {scopes : List ScopeId}
    (perm : scopes.Perm (List.range table.scopes.size)) (iteration : Iteration) :
    (scopes.flatMap (table.symbolsOf · iteration)).Perm (List.range table.symbols.size) :=
  ((perm.flatMap fun scope _ => table.symbolsOf_perm scope iteration).trans holds)

/-! ## Dumps -/

/-- A scope is written as its level and its symbols: as a line that its level indents, and as the
label of a vertex. -/
inductive Displays (table : Table) (iteration : Iteration) (scope : ScopeId) :
    (line label : String) → Prop
  | of {level : Nat} {symbols : List Symbol} (isLevel : table.level? scope = some level)
      (areSymbols : (table.symbolsOf scope iteration).map (table.symbols[·]?) = symbols.map some) :
      Displays table iteration scope
        (Text.spaces (2 * level) ++ "L" ++ toString level ++ ": "
          ++ ", ".intercalate (symbols.map Symbol.text) ++ "\n")
        ("\n".intercalate (("L" ++ toString level) :: symbols.map Symbol.text))

/-- The label of a scope in the drawing. -/
def labelOf (table : Table) (scope : ScopeId) (iteration : Iteration := .stored) : String :=
  ((table.scopes[scope]?).map (table.scopeLabel · iteration)).getD ""

theorem exists_symbols (table : Table) {ids : List SymbolId}
    (known : ∀ id ∈ ids, id < table.symbols.size) :
    ∃ symbols : List Symbol, ids.map (table.symbols[·]?) = symbols.map some := by
  induction ids with
  | nil => exact ⟨[], rfl⟩
  | cons id ids ih =>
    obtain ⟨isKnown, known⟩ := List.forall_mem_cons.1 known
    obtain ⟨symbols, areSymbols⟩ := ih known
    refine ⟨table.symbols[id] :: symbols, ?_⟩
    rw [List.map_cons, areSymbols, Array.getElem?_eq_getElem isKnown, List.map_cons]

theorem displays_of_known {scope : ScopeId} {iteration : Iteration}
    (inside : scope < table.scopes.size)
    (known : ∀ id ∈ table.symbolsOf scope iteration, id < table.symbols.size) :
    table.Displays iteration scope (table.scopeText scope iteration)
      (table.labelOf scope iteration) := by
  have found := Array.getElem?_eq_getElem inside
  have isLevel : table.level? scope = some table.scopes[scope].level := by
    rw [level?, found]
    rfl
  have listed : table.symbolsOf scope iteration = table.scopes[scope].symbols iteration := by
    rw [symbolsOf, found]
    rfl
  obtain ⟨symbols, areSymbols⟩ := table.exists_symbols known
  have texts : table.symbolTexts table.scopes[scope] iteration = symbols.map Symbol.text := by
    have same := congrArg (List.map fun symbol? => (symbol?.map Symbol.text).getD "") areSymbols
    rw [List.map_map, List.map_map, listed] at same
    exact same
  have displays := Displays.of isLevel areSymbols
  rw [← texts] at displays
  rw [scopeText, labelOf, found]
  exact displays

theorem vertices_scopeVertex {scope : ScopeId} (inside : scope < table.scopes.size)
    (iteration : Iteration) : (table.scopeVertex iteration scope).filterMap Stroke.vertex? =
      [(table.labelOf scope iteration, scope)] := by
  rw [scopeVertex, labelOf, Array.getElem?_eq_getElem inside]
  rfl

theorem edges_scopeVertex (table : Table) (iteration : Iteration) (scope : ScopeId) :
    (table.scopeVertex iteration scope).filterMap Stroke.edge? = [] := by
  unfold scopeVertex
  cases table.scopes[scope]? <;> rfl

/-- An edge leads from a scope to one that it lists. -/
theorem mem_innerOf_of_edge {iteration : Iteration} {depth : Nat} {scope : ScopeId}
    {edge : Nat × Nat}
    (drawn : edge ∈ (table.strokesWithin iteration depth scope).filterMap Stroke.edge?) :
    edge.2 ∈ table.innerOf edge.1 := by
  induction depth generalizing scope with
  | zero =>
    rw [strokesWithin, edges_scopeVertex] at drawn
    cases drawn
  | succ depth ih =>
    rw [strokesWithin, List.filterMap_append, edges_scopeVertex, List.nil_append,
      List.filterMap_flatMap] at drawn
    obtain ⟨inner, isInner, drawn⟩ := List.mem_flatMap.1 drawn
    rcases List.mem_cons.1 drawn with rfl | below
    · exact isInner
    · exact ih below

namespace Nested

variable {iteration : Iteration} {depth : Nat}

theorem linesWithin_eq (nested : table.Nested) (unfolds : table.Unfolds tree)
    (enough : table.scopes.size ≤ tree.root + depth) :
    table.linesWithin iteration depth tree.root =
      tree.preorder.map (table.scopeText · iteration) := by
  rw [List.map_eq_flatMap]
  exact nested.written_eq _ _ (fun _ => rfl) (fun _ _ => rfl) unfolds depth enough

theorem vertices_strokesWithin (nested : table.Nested) (unfolds : table.Unfolds tree)
    (enough : table.scopes.size ≤ tree.root + depth)
    (inside : ∀ scope ∈ tree.preorder, scope < table.scopes.size) :
    (table.strokesWithin iteration depth tree.root).filterMap Stroke.vertex? =
      tree.preorder.map fun scope => (table.labelOf scope iteration, scope) := by
  have along := nested.written_eq
    (fun depth scope => (table.strokesWithin iteration depth scope).filterMap Stroke.vertex?)
    (fun scope => (table.scopeVertex iteration scope).filterMap Stroke.vertex?)
    (fun _ => rfl)
    (fun depth scope => by
      rw [strokesWithin, List.filterMap_append, List.filterMap_flatMap]
      rfl)
    unfolds depth enough
  rw [along, List.map_eq_flatMap]
  exact List.flatMap_congr fun scope member => vertices_scopeVertex (inside scope member) iteration

/-- The root of a drawing and the scopes that edges lead to are all scopes of the tree. -/
theorem targets_strokesWithin (nested : table.Nested) (iteration : Iteration)
    (unfolds : table.Unfolds tree) (enough : table.scopes.size ≤ tree.root + depth) :
    tree.root :: ((table.strokesWithin iteration depth tree.root).filterMap Stroke.edge?).map
      Prod.snd = tree.preorder := by
  have along := nested.written_eq
    (fun depth scope =>
      scope :: ((table.strokesWithin iteration depth scope).filterMap Stroke.edge?).map Prod.snd)
    (fun scope => [scope])
    (fun scope => by rw [strokesWithin, edges_scopeVertex, List.map_nil])
    (fun depth scope => by
      rw [strokesWithin, List.filterMap_append, edges_scopeVertex, List.nil_append,
        List.filterMap_flatMap, List.map_flatMap]
      rfl)
    unfolds depth enough
  rw [along, List.flatMap_singleton']

end Nested

/-- Going deeper than scopes nest draws nothing more. -/
theorem Nested.strokesWithin_add {iteration : Iteration} {depth : Nat} (nested : table.Nested)
    (more : Nat) (scope : Nat) (enough : table.scopes.size ≤ scope + depth) :
    table.strokesWithin iteration (depth + more) scope =
      table.strokesWithin iteration depth scope := by
  induction depth generalizing scope with
  | zero =>
    cases more with
    | zero => rfl
    | succ more =>
      have outside : table.scopes.size ≤ scope := enough
      simp only [strokesWithin, nested.innerOf_eq_nil outside, List.flatMap_nil, List.append_nil]
  | succ depth ih =>
    rw [Nat.add_right_comm, strokesWithin, strokesWithin]
    refine congrArg (table.scopeVertex iteration scope ++ ·)
      (List.flatMap_congr fun inner isInner => ?_)
    have less := (nested.lt_of_mem_innerOf isInner).1
    rw [ih inner (by omega)]

/-- Drawings of the same vertices have the same strokes. -/
theorem strokesWithin_congr {iteration iteration' : Iteration}
    (same : ∀ scope, table.scopeVertex iteration scope = table.scopeVertex iteration' scope)
    (depth : Nat) (scope : ScopeId) : table.strokesWithin iteration depth scope =
      table.strokesWithin iteration' depth scope := by
  induction depth generalizing scope with
  | zero => exact same scope
  | succ depth ih => rw [strokesWithin, strokesWithin, same, funext ih]

/-- The two dumps of a table, which `calls` have built, when maps give out what they hold in some
order. They are written along a tree of its scopes, of which `strokes` are the drawing. -/
structure DumpedAlong (table : Table) (calls : List Call) (iteration : Iteration)
    (tree : Rose ScopeId) (strokes : List (Stroke String)) : Prop where
  /-- The tree stands at the global scope, and it goes down into all scopes inside. -/
  unfolds : tree.root = Table.global ∧ table.Unfolds tree
  /-- A scope lists those inside in the order of opening. -/
  inner : ∀ scope < table.scopes.size, table.innerOf scope =
    (List.range table.scopes.size).filter (table.outer? · = some scope)
  /-- Going deeper than scopes nest finds nothing more. -/
  ends : ∀ depth, table.scopes.size ≤ depth →
    table.linesWithin iteration depth Table.global =
      tree.preorder.map (table.scopeText · iteration) ∧
    table.strokesWithin iteration depth Table.global = strokes
  scopes : tree.preorder.Perm (List.range table.scopes.size)
  symbols : (tree.preorder.flatMap (table.symbolsOf · iteration)).Perm
    (List.range table.symbols.size)
  /-- A scope has the symbols that were defined in it, in the order of definition. -/
  defined : ∀ scope, table.symbolsOf scope iteration =
    builtinsIn scope ++ calls.filterMap (·.definedIn? scope)
  shown : ∀ scope < table.scopes.size, table.Displays iteration scope
    (table.scopeText scope iteration) (table.labelOf scope iteration)
  text : table.text iteration = String.join (tree.preorder.map (table.scopeText · iteration))
  drawing : Text.lines (table.drawing iteration) =
    "digraph SymbolTable \x7b" :: (strokes.map Drawing.line ++ ["\x7d"])
  vertices : strokes.filterMap Stroke.vertex? =
    tree.preorder.map fun scope => (table.labelOf scope iteration, scope)
  /-- An edge leads to every scope but the global one, from the scope around it. -/
  edges : (strokes.filterMap Stroke.edge?).map Prod.snd = tree.preorder.tail ∧
    ∀ edge ∈ strokes.filterMap Stroke.edge?, table.outer? edge.2 = some edge.1
  edgeCount : (strokes.filterMap Stroke.edge?).length = table.scopes.size - 1

/-- The order in which maps give out what they hold is not seen in what is written of a scope. -/
theorem Named.written_alike {calls : List Call} (named : table.Named calls)
    (iteration : Iteration) (scope : ScopeId) :
    table.scopeText scope iteration = table.scopeText scope ∧
      table.scopeVertex iteration scope = table.scopeVertex .stored scope := by
  have same := (named.defined iteration scope).trans (named.defined .stored scope).symm
  unfold symbolsOf at same
  unfold scopeText scopeVertex scopeLabel symbolTexts
  cases found : table.scopes[scope]? with
  | none => exact ⟨rfl, rfl⟩
  | some present =>
    rw [found] at same
    have same : present.symbols iteration = present.symbols .stored := same
    dsimp only [Option.map_some]
    rw [same]
    exact ⟨rfl, rfl⟩

theorem Nested.dumpedAlong {calls : List Call} {strokes : List (Stroke String)}
    {iteration : Iteration} (nested : table.Nested) (named : table.Named calls)
    (holds : table.HoldsSymbols) (isRoot : tree.root = Table.global)
    (unfolds : table.Unfolds tree)
    (areStrokes : table.strokesWithin iteration table.scopes.size Table.global = strokes) :
    table.DumpedAlong calls iteration tree strokes := by
  have scopes := nested.perm_range unfolds isRoot
  have symbols := holds.symbolsOf_perm scopes iteration
  have deep {depth : Nat} (enough : table.scopes.size ≤ depth) :
      table.scopes.size ≤ tree.root + depth := Nat.le_add_left_of_le enough
  have lines (depth : Nat) (enough : table.scopes.size ≤ depth) :
      table.linesWithin iteration depth Table.global =
        tree.preorder.map (table.scopeText · iteration) := by
    rw [← isRoot]
    exact nested.linesWithin_eq unfolds (deep enough)
  have targets : (strokes.filterMap Stroke.edge?).map Prod.snd = tree.preorder.tail := by
    have drawn := nested.targets_strokesWithin iteration unfolds (deep (Nat.le_refl _))
    rw [isRoot, areStrokes] at drawn
    exact congrArg List.tail drawn
  refine {
    unfolds := ⟨isRoot, unfolds⟩
    inner := nested.inner
    ends := fun depth enough => ⟨lines depth enough, ?_⟩
    scopes := scopes
    symbols := symbols
    defined := named.defined iteration
    shown := ?_
    text := by rw [Table.text, lines _ (Nat.le_refl _)]
    drawing := ?_
    vertices := ?_
    edges := ⟨targets, ?_⟩
    edgeCount := ?_ }
  · rw [← areStrokes]
    obtain ⟨more, rfl⟩ := Nat.exists_eq_add_of_le enough
    exact nested.strokesWithin_add more _ (Nat.le_add_left ..)
  · intro scope lt
    refine displays_of_known lt fun id member => List.mem_range.1 (symbols.mem_iff.1 ?_)
    exact List.mem_flatMap.2 ⟨scope, scopes.mem_iff.2 (List.mem_range.2 lt), member⟩
  · rw [Table.drawing, areStrokes]
    exact Drawing.lines_document (by decide) _
  · rw [← areStrokes, ← isRoot]
    exact nested.vertices_strokesWithin unfolds (deep (Nat.le_refl _)) fun scope member =>
      List.mem_range.1 (scopes.mem_iff.1 member)
  · intro edge drawn
    rw [← areStrokes] at drawn
    exact nested.mem_innerOf.1 (mem_innerOf_of_edge drawn)
  · rw [← List.length_map Prod.snd, targets, List.length_tail, scopes.length_eq, List.length_range]

/-- Whatever is called on a fresh table with valid handles, both dumps come to an end, and they write
every scope once, in the pre-order of the scopes, and in it its symbols, every symbol once. In
whatever order maps give out what they hold, the same is written. -/
theorem dumps_complete (operations : List Operation) (valid : initial.AllValid operations) :
    let calls := (initial.performAll operations).1
    let table := (initial.performAll operations).2
    ∃ tree strokes, ∀ iteration, table.DumpedAlong calls iteration tree strokes ∧
      table.text iteration = table.text ∧ table.drawing iteration = table.drawing := by
  intro calls table
  have ⟨nested, named, _⟩ : table.WellBuilt calls := wellBuilt_initial.performAll valid
  have holds : table.HoldsSymbols :=
    HoldsSymbols.performAll (show initial.HoldsSymbols from .refl _) valid
  obtain ⟨tree, isRoot, unfolds⟩ := nested.exists_unfolds table.scopes.size Table.global
    (Nat.le_add_left ..)
  have sameStrokes (iteration : Iteration) :
      table.strokesWithin iteration table.scopes.size Table.global =
        table.strokesWithin .stored table.scopes.size Table.global :=
    strokesWithin_congr (fun scope => (named.written_alike iteration scope).2) _ _
  have dumped (iteration : Iteration) :=
    nested.dumpedAlong named holds isRoot unfolds (sameStrokes iteration)
  refine ⟨tree, _, fun iteration => ⟨dumped iteration, ?_, ?_⟩⟩
  · rw [(dumped iteration).text, (dumped .stored).text]
    exact congrArg String.join
      (List.map_congr_left fun scope _ => (named.written_alike iteration scope).1)
  · rw [Table.drawing, Table.drawing, sameStrokes]

/-- Scopes that are not opened in pre-order, a name that is taken, and a variable that is defined in a
block after the block behind it was opened. -/
def scatteredOperations : List Operation :=
  [.defineFunction 0 "f" .int, .openScope 0, .openScope 0, .openScope 1, .openScope 2,
    .defineVariable 4 2 "x" .int, .openScope 1, .defineVariable 4 2 "x" .double,
    .defineVariable 3 2 "x" .double]

theorem scattered_dumps :
    let calls := (initial.performAll scatteredOperations).1
    let table := (initial.performAll scatteredOperations).2
    (∃ tree strokes, ∀ iteration, table.DumpedAlong calls iteration tree strokes ∧
      table.text iteration = table.text ∧ table.drawing iteration = table.drawing) ∧
      table.innerOf 0 = [1, 2] ∧ table.innerOf 1 = [3, 5] ∧ table.innerOf 2 = [4] ∧
      table.symbolsOf 3 = [4] ∧ table.symbolsOf 4 = [3] ∧
      table.text = String.join ["L0: BuiltinType<int>, BuiltinType<double>, Function<f: int>\n",
        "  L1: \n", "    L2: Variable<x: double #1>\n", "    L2: \n", "  L1: \n",
        "    L2: Variable<x: int #0>\n"] := by
  refine ⟨dumps_complete scatteredOperations (by decide), by decide, by decide, by decide, by cbv,
    by cbv, congrArg String.join ?_⟩
  cbv

end Table
end MiniC
