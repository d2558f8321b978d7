import Mathlib.Data.List.Nodup
import MiniC.Proofs.Documents
import MiniC.Proofs.NormalForms

/-!
# What the drawing of a tree tells

A drawing names a node by its number in pre-order, and an edge is written behind the whole drawing
of the child that it leads to. So the number of a node depends on the sizes of all subtrees that
were drawn before it. Here a node is named by the path that leads to it from the root (`paths`), and
the number of a path is worked out once (`number`). An edge leads from a path to the same path with
one more step, and the edges of one node come in the order of its children.

The strokes of a drawing are put together again to the tree that they draw (`assemble`). As strokes
can be read off the lines of the document, the tree can be read off its text.
-/

namespace MiniC
namespace Rose

variable {α β : Type}

/-! ## Numbers from sizes -/

mutual
/-- The drawing of a tree whose root has number `id`, where every number is worked out from the sizes
of the subtrees drawn before. -/
def draw (id : Nat) : Rose α → List (Stroke α)
  | node label children => .vertex id label :: drawChildren id (id + 1) children
/-- The drawing of children of `parent`, the first of which has number `next`. -/
def drawChildren (parent next : Nat) : List (Rose α) → List (Stroke α)
  | [] => []
  | tree :: trees =>
      tree.draw next ++ .edge parent next :: drawChildren parent (next + tree.size) trees
end

mutual
/-- A tree takes as many numbers as it has nodes, so the number of what comes behind it is known. -/
theorem run_write : (tree : Rose α) → (sheet : Sheet α) →
    tree.write.run sheet = pure (sheet.next,
      ⟨sheet.strokes ++ (tree.draw sheet.next).toArray, sheet.next + tree.size⟩)
  | node label children, sheet => by
    unfold write draw
    rw [StateT.run_bind, StateT.run_modifyGet, pure_bind, StateT.run_bind, StateT.run_modify,
      pure_bind, StateT.run_bind, run_writeChildren children, pure_bind, StateT.run_pure]
    simp [Sheet.number, Sheet.put, size, Nat.add_assoc, Nat.add_comm 1]
theorem run_writeChildren : (trees : List (Rose α)) → (parent : Nat) → (sheet : Sheet α) →
    (writeChildren parent trees).run sheet = pure ((),
      ⟨sheet.strokes ++ (drawChildren parent sheet.next trees).toArray, sheet.next + sizes trees⟩)
  | [], parent, sheet => by simp [writeChildren, drawChildren, sizes]
  | tree :: trees, parent, sheet => by
    unfold writeChildren drawChildren
    rw [StateT.run_bind, run_write tree, pure_bind, StateT.run_bind, StateT.run_modify, pure_bind,
      run_writeChildren trees]
    simp [Sheet.put, sizes, Nat.add_assoc]
end

theorem strokes_eq_draw (tree : Rose α) : tree.strokes = tree.draw 0 := by
  unfold strokes
  rw [run_write]
  simp

/-! ## Paths -/

def root : Rose α → α
  | node label _ => label

def children : Rose α → List (Rose α)
  | node _ children => children

/-- The subtree that a path leads to: at every step the child with the given index. -/
def at? (tree : Rose α) : List Nat → Option (Rose α)
  | [] => some tree
  | index :: path => (tree.children[index]?).bind (at? · path)

mutual
/-- The paths to all nodes, in pre-order. -/
def paths : Rose α → List (List Nat)
  | node _ children => [] :: pathsAmong 0 children
/-- The paths to the nodes below children, the first of which has this index. -/
def pathsAmong (index : Nat) : List (Rose α) → List (List Nat)
  | [] => []
  | tree :: trees => tree.paths.map (index :: ·) ++ pathsAmong (index + 1) trees
end

mutual
theorem length_paths : (tree : Rose α) → tree.paths.length = tree.size
  | node label children => by
    rw [paths, List.length_cons, length_pathsAmong 0 children, size]
theorem length_pathsAmong (index : Nat) : (trees : List (Rose α)) →
    (pathsAmong index trees).length = sizes trees
  | [] => rfl
  | tree :: trees => by
    rw [pathsAmong, List.length_append, List.length_map, length_paths tree,
      length_pathsAmong (index + 1) trees, sizes]
end

mutual
/-- The paths lead to all nodes in pre-order. -/
theorem map_at?_paths : (tree : Rose α) →
    (tree.paths.map fun path => (tree.at? path).map root) = tree.preorder.map some
  | node label children => by
    have below := map_at?_pathsAmong label [] children
    rw [List.nil_append, List.length_nil] at below
    rw [paths, List.map_cons, below, preorder]
    rfl
theorem map_at?_pathsAmong (label : α) (front : List (Rose α)) : (trees : List (Rose α)) →
    ((pathsAmong front.length trees).map fun path =>
      ((node label (front ++ trees)).at? path).map root) = (preorders trees).map some
  | [] => rfl
  | tree :: trees => by
    have here (path : List Nat) :
        (node label (front ++ tree :: trees)).at? (front.length :: path) = tree.at? path := by
      rw [at?, children, List.getElem?_append_right (Nat.le_refl _), Nat.sub_self]
      rfl
    have later := map_at?_pathsAmong label (front ++ [tree]) trees
    rw [List.length_append, List.append_assoc] at later
    rw [pathsAmong, List.map_append, List.map_map, preorders, List.map_append, ← map_at?_paths tree,
      ← later]
    simp only [Function.comp_def, here]
    rfl
end

theorem head?_of_mem_pathsAmong {index : Nat} {trees : List (Rose α)} {path : List Nat}
    (member : path ∈ pathsAmong index trees) : ∃ step, path.head? = some step ∧ index ≤ step := by
  induction trees generalizing index with
  | nil => cases member
  | cons tree trees ih =>
    rcases List.mem_append.1 member with inFirst | inLater
    · obtain ⟨rest, _, rfl⟩ := List.mem_map.1 inFirst
      exact ⟨index, rfl, Nat.le_refl _⟩
    · obtain ⟨step, isHead, le⟩ := ih inLater
      exact ⟨step, isHead, Nat.le_of_succ_le le⟩

mutual
theorem nodup_paths : (tree : Rose α) → tree.paths.Nodup
  | node label children => by
    rw [paths, List.nodup_cons]
    refine ⟨fun member => ?_, nodup_pathsAmong 0 children⟩
    obtain ⟨step, isHead, _⟩ := head?_of_mem_pathsAmong member
    cases isHead
theorem nodup_pathsAmong (index : Nat) : (trees : List (Rose α)) → (pathsAmong index trees).Nodup
  | [] => .nil
  | tree :: trees => by
    rw [pathsAmong, List.nodup_append]
    refine ⟨(nodup_paths tree).map fun _ _ same => (List.cons.inj same).2,
      nodup_pathsAmong (index + 1) trees, ?_⟩
    rintro path inFirst _ inLater rfl
    obtain ⟨rest, _, rfl⟩ := List.mem_map.1 inFirst
    obtain ⟨step, isHead, le⟩ := head?_of_mem_pathsAmong inLater
    cases isHead
    exact absurd le (Nat.not_succ_le_self _)
end

/-! ## Numbers -/

/-- The number of a path in pre-order: before it come the node itself, the children in front of the
one that the path goes to, and what comes before it in that child. -/
def number (tree : Rose α) : List Nat → Nat
  | [] => 0
  | index :: path =>
      1 + sizes (tree.children.take index)
        + ((tree.children[index]?).map (number · path)).getD 0

theorem number_cons {label : α} {trees : List (Rose α)} {index : Nat} {child : Rose α}
    (isChild : trees[index]? = some child) (path : List Nat) :
    (node label trees).number (index :: path) =
      1 + sizes (trees.take index) + child.number path := by
  rw [number, children, isChild]
  rfl

/-- A path that goes on goes on in a child. -/
theorem at?_cons_eq_some {label : α} {trees : List (Rose α)} {index : Nat} {path : List Nat}
    {below : Rose α} : (node label trees).at? (index :: path) = some below ↔
      ∃ child, trees[index]? = some child ∧ child.at? path = some below :=
  Option.bind_eq_some_iff

theorem at?_append (tree : Rose α) (path more : List Nat) :
    tree.at? (path ++ more) = (tree.at? path).bind (at? · more) := by
  induction path generalizing tree with
  | nil => rfl
  | cons index path ih =>
    rw [List.cons_append, at?, at?]
    cases tree.children[index]? with
    | none => rfl
    | some child => exact ih child

/-- The nodes directly below a node are its children. -/
theorem at?_concat {tree below : Rose α} {path : List Nat} (found : tree.at? path = some below)
    (index : Nat) : tree.at? (path ++ [index]) = below.children[index]? := by
  rw [at?_append, found]
  show (below.children[index]?).bind (some ·) = _
  rw [Option.bind_fun_some]

theorem sizes_take_add {trees : List (Rose α)} {index : Nat} {child : Rose α}
    (isChild : trees[index]? = some child) :
    sizes (trees.take index) + child.size ≤ sizes trees := by
  induction trees generalizing index with
  | nil => cases isChild
  | cons tree trees ih =>
    cases index with
    | zero =>
      cases isChild
      simp [sizes]
    | succ index =>
      have later := ih isChild
      rw [List.take_succ_cons, sizes, sizes]
      omega

theorem number_lt {tree below : Rose α} {path : List Nat} (found : tree.at? path = some below) :
    tree.number path < tree.size := by
  induction path generalizing tree with
  | nil =>
    cases tree
    exact Nat.succ_pos _
  | cons index path ih =>
    obtain ⟨label, trees⟩ := tree
    obtain ⟨child, isChild, found⟩ := at?_cons_eq_some.1 found
    have within := sizes_take_add isChild
    have less := ih found
    rw [number_cons isChild, size]
    omega

theorem getElem?_pathsAmong {trees : List (Rose α)} {index : Nat} {child : Rose α}
    (isChild : trees[index]? = some child) (first : Nat) {i : Nat} (lt : i < child.size) :
    (pathsAmong first trees)[sizes (trees.take index) + i]? =
      (child.paths[i]?).map ((first + index) :: ·) := by
  induction trees generalizing index first with
  | nil => cases isChild
  | cons tree trees ih =>
    rw [pathsAmong, List.getElem?_append, List.length_map, length_paths]
    cases index with
    | zero =>
      cases isChild
      rw [List.take_zero, sizes, Nat.zero_add, if_pos lt, List.getElem?_map, Nat.add_zero]
    | succ index =>
      rw [List.take_succ_cons, sizes, if_neg (by omega), show tree.size + sizes (trees.take index) + i
        - tree.size = sizes (trees.take index) + i by omega, ih isChild (first + 1),
        Nat.add_right_comm]
      rfl

/-- A path has its number in the list of all paths. -/
theorem getElem?_number {tree below : Rose α} {path : List Nat} (found : tree.at? path = some below) :
    tree.paths[tree.number path]? = some path := by
  induction path generalizing tree with
  | nil =>
    cases tree
    rfl
  | cons index path ih =>
    obtain ⟨label, trees⟩ := tree
    obtain ⟨child, isChild, found⟩ := at?_cons_eq_some.1 found
    rw [number_cons isChild, paths, Nat.add_assoc, Nat.add_comm 1, List.getElem?_cons_succ,
      getElem?_pathsAmong isChild 0 (number_lt found), ih found, Nat.zero_add]
    rfl

theorem getElem?_paths_iff {tree : Rose α} {i : Nat} {path : List Nat} :
    tree.paths[i]? = some path ↔ ∃ below, tree.at? path = some below ∧ i = tree.number path := by
  constructor
  · intro found
    have leads := congrArg (·[i]?) (map_at?_paths tree)
    have lt : i < tree.preorder.length := by
      rw [length_preorder, ← length_paths]
      exact (List.getElem?_eq_some_iff.1 found).1
    simp only [List.getElem?_map, found, List.getElem?_eq_getElem lt, Option.map_some] at leads
    obtain ⟨below, isBelow, _⟩ := Option.map_eq_some_iff.1 (Option.some.inj leads)
    refine ⟨below, isBelow, ?_⟩
    refine (List.getElem?_inj (List.getElem?_eq_some_iff.1 found).1 (nodup_paths tree)).1 ?_
    rw [found, getElem?_number isBelow]
  · rintro ⟨below, found, rfl⟩
    exact getElem?_number found

/-! ## Edges -/

/-- The vertices that edges lead to from `source`, in the order of the edges. -/
def targets (source : Nat) (strokes : List (Stroke α)) : List Nat :=
  ((strokes.filterMap Stroke.edge?).filter (·.1 = source)).map Prod.snd

theorem targets_append (source : Nat) (strokes more : List (Stroke α)) :
    targets source (strokes ++ more) = targets source strokes ++ targets source more := by
  simp only [targets, List.filterMap_append, List.filter_append, List.map_append]

theorem targets_vertex (source id : Nat) (label : α) (strokes : List (Stroke α)) :
    targets source (.vertex id label :: strokes) = targets source strokes :=
  rfl

theorem targets_edge (source target : Nat) (strokes : List (Stroke α)) :
    targets source (.edge source target :: strokes) = target :: targets source strokes := by
  simp [targets, Stroke.edge?]

theorem targets_edge_of_ne {source other : Nat} (differs : other ≠ source) (target : Nat)
    (strokes : List (Stroke α)) :
    targets source (.edge other target :: strokes) = targets source strokes := by
  simp [targets, Stroke.edge?, differs]

theorem mem_targets {source target : Nat} {strokes : List (Stroke α)} :
    target ∈ targets source strokes ↔ (source, target) ∈ strokes.filterMap Stroke.edge? := by
  simp [targets]

mutual
/-- Only the numbers of a tree have edges from them in its drawing. -/
theorem targets_draw_of_outside (source : Nat) : (id : Nat) → (tree : Rose α) →
    (source < id ∨ id + tree.size ≤ source) → targets source (tree.draw id) = []
  | id, node label children => by
    intro outside
    rw [size] at outside
    rw [draw, targets_vertex]
    exact targets_drawChildren_of_outside source id (id + 1) children (by omega) (by omega)
theorem targets_drawChildren_of_outside (source parent : Nat) : (next : Nat) →
    (trees : List (Rose α)) → parent ≠ source → (source < next ∨ next + sizes trees ≤ source) →
    targets source (drawChildren parent next trees) = []
  | _, [] => fun _ _ => rfl
  | next, tree :: trees => by
    intro differs outside
    rw [sizes] at outside
    rw [drawChildren, targets_append, targets_edge_of_ne differs,
      targets_draw_of_outside source next tree (by omega),
      targets_drawChildren_of_outside source parent (next + tree.size) trees differs (by omega)]
    rfl
end

/-- The edges from a node lead to its children, in their order. -/
theorem targets_parent {parent next : Nat} (lt : parent < next) (trees : List (Rose α)) :
    targets parent (drawChildren parent next trees) =
      (List.range trees.length).map fun index => next + sizes (trees.take index) := by
  induction trees generalizing next with
  | nil => rfl
  | cons tree trees ih =>
    rw [drawChildren, targets_append, targets_draw_of_outside parent next tree (.inl lt),
      targets_edge, ih (Nat.lt_add_right _ lt), List.length_cons, List.range_succ_eq_map,
      List.map_cons, List.map_map]
    simp only [List.take_zero, sizes, Function.comp_def, List.take_succ_cons, Nat.add_assoc,
      List.nil_append, Nat.add_zero]

/-- The edges from the numbers of a child are those of its own drawing. -/
theorem targets_child {trees : List (Rose α)} {index : Nat} {child : Rose α}
    (isChild : trees[index]? = some child) {parent next source : Nat} (lt : parent < next)
    (from_ : next + sizes (trees.take index) ≤ source)
    (upTo : source < next + sizes (trees.take index) + child.size) :
    targets source (drawChildren parent next trees) =
      targets source (child.draw (next + sizes (trees.take index))) := by
  have differs : parent ≠ source := by omega
  induction trees generalizing index next with
  | nil => cases isChild
  | cons tree trees ih =>
    rw [drawChildren, targets_append, targets_edge_of_ne differs]
    cases index with
    | zero =>
      cases isChild
      rw [List.take_zero, sizes] at upTo ⊢
      rw [targets_drawChildren_of_outside source parent _ trees differs (by omega), List.append_nil,
        Nat.add_zero]
    | succ index =>
      rw [List.take_succ_cons, sizes, ← Nat.add_assoc] at from_ upTo ⊢
      rw [targets_draw_of_outside source next tree (by omega), List.nil_append]
      exact ih isChild (by omega) from_ upTo

/-- The edges from a node of a drawing lead to its children, in their order. -/
theorem targets_draw {tree below : Rose α} {path : List Nat} (found : tree.at? path = some below)
    (id : Nat) : targets (id + tree.number path) (tree.draw id) =
      (List.range below.children.length).map fun index => id + tree.number (path ++ [index]) := by
  induction path generalizing tree id with
  | nil =>
    obtain ⟨label, trees⟩ := tree
    cases found
    rw [draw, targets_vertex]
    refine (targets_parent (Nat.lt_succ_self id) trees).trans
      (List.map_congr_left fun index member => ?_)
    obtain ⟨child, isChild⟩ : ∃ child, trees[index]? = some child :=
      ⟨_, List.getElem?_eq_getElem (List.mem_range.1 member)⟩
    rw [List.nil_append, number_cons isChild, number]
    omega
  | cons index path ih =>
    obtain ⟨label, trees⟩ := tree
    obtain ⟨child, isChild, found⟩ := at?_cons_eq_some.1 found
    have less := number_lt found
    have shift (path : List Nat) : id + (node label trees).number (index :: path) =
        id + 1 + sizes (trees.take index) + child.number path := by
      rw [number_cons isChild, ← Nat.add_assoc, ← Nat.add_assoc]
    simp only [List.cons_append, shift]
    rw [draw, targets_vertex, targets_child isChild (Nat.lt_succ_self id) (by omega) (by omega)]
    exact ih found _

mutual
theorem length_edges_draw (id : Nat) : (tree : Rose α) →
    ((tree.draw id).filterMap Stroke.edge?).length + 1 = tree.size
  | node label children => by
    rw [draw, size, ← length_edges_drawChildren id (id + 1) children]
    rfl
theorem length_edges_drawChildren (parent : Nat) : (next : Nat) → (trees : List (Rose α)) →
    ((drawChildren parent next trees).filterMap Stroke.edge?).length = sizes trees
  | _, [] => rfl
  | next, tree :: trees => by
    have first := length_edges_draw next tree
    have later := length_edges_drawChildren parent (next + tree.size) trees
    rw [drawChildren, List.filterMap_append, List.length_append, sizes,
      show List.filterMap Stroke.edge? (.edge parent next :: drawChildren parent (next + tree.size) trees)
        = (parent, next) :: List.filterMap Stroke.edge? (drawChildren parent (next + tree.size) trees)
        from rfl, List.length_cons, later]
    omega
end

mutual
/-- The vertices of a drawing are numbered in pre-order. -/
theorem vertices_draw (id : Nat) : (tree : Rose α) →
    (tree.draw id).filterMap Stroke.vertex? = tree.preorder.zipIdx id
  | node label children => by
    rw [draw, preorder, List.zipIdx_cons, ← vertices_drawChildren id (id + 1) children]
    rfl
theorem vertices_drawChildren (parent : Nat) : (next : Nat) → (trees : List (Rose α)) →
    (drawChildren parent next trees).filterMap Stroke.vertex? = (preorders trees).zipIdx next
  | _, [] => rfl
  | next, tree :: trees => by
    rw [drawChildren, List.filterMap_append, vertices_draw next tree, preorders, List.zipIdx_append,
      length_preorder, ← vertices_drawChildren parent (next + tree.size) trees]
    rfl
end

/-- Edges lead to the paths that have one more step. -/
theorem mem_edges_draw_iff {tree : Rose α} {source target : Nat} :
    (source, target) ∈ (tree.draw 0).filterMap Stroke.edge? ↔
      ∃ path index, tree.paths[source]? = some path ∧ tree.paths[target]? = some (path ++ [index]) := by
  rw [← mem_targets]
  constructor
  · intro member
    have within : source < tree.size := by
      by_contra outside
      rw [targets_draw_of_outside source 0 tree (.inr (by omega))] at member
      cases member
    obtain ⟨path, isPath⟩ : ∃ path, tree.paths[source]? = some path :=
      ⟨_, List.getElem?_eq_getElem (by rwa [length_paths])⟩
    obtain ⟨below, found, rfl⟩ := getElem?_paths_iff.1 isPath
    have leads := targets_draw found 0
    simp only [Nat.zero_add] at leads
    rw [leads, List.mem_map] at member
    obtain ⟨index, isIndex, rfl⟩ := member
    have isChild := (at?_concat found index).trans
      (List.getElem?_eq_getElem (List.mem_range.1 isIndex))
    exact ⟨path, index, isPath, getElem?_number isChild⟩
  · rintro ⟨path, index, isPath, isPath'⟩
    obtain ⟨below, found, rfl⟩ := getElem?_paths_iff.1 isPath
    obtain ⟨child, found', rfl⟩ := getElem?_paths_iff.1 isPath'
    have leads := targets_draw found 0
    simp only [Nat.zero_add] at leads
    rw [at?_concat found] at found'
    rw [leads, List.mem_map]
    exact ⟨index, List.mem_range.2 (List.getElem?_eq_some_iff.1 found').1, rfl⟩

/-! ## Other labels -/

theorem edges_map (f : α → β) (strokes : List (Stroke α)) :
    (strokes.map (Stroke.map f)).filterMap Stroke.edge? = strokes.filterMap Stroke.edge? := by
  rw [List.filterMap_map]
  congr 1
  funext stroke
  cases stroke <;> rfl

theorem vertices_map (f : α → β) (strokes : List (Stroke α)) :
    (strokes.map (Stroke.map f)).filterMap Stroke.vertex? =
      (strokes.filterMap Stroke.vertex?).map (Prod.map f id) := by
  rw [List.filterMap_map, List.map_filterMap]
  congr 1
  funext stroke
  cases stroke <;> rfl

mutual
/-- The same tree with other labels. -/
def map (f : α → β) : Rose α → Rose β
  | node label children => .node (f label) (mapAll f children)
def mapAll (f : α → β) : List (Rose α) → List (Rose β)
  | [] => []
  | tree :: trees => tree.map f :: mapAll f trees
end

mutual
theorem map_map {γ : Type} (f : α → β) (g : β → γ) : (tree : Rose α) →
    (tree.map f).map g = tree.map (g ∘ f)
  | node label children => by
    rw [map, map, map, mapAll_mapAll f g children]
    rfl
theorem mapAll_mapAll {γ : Type} (f : α → β) (g : β → γ) : (trees : List (Rose α)) →
    mapAll g (mapAll f trees) = mapAll (g ∘ f) trees
  | [] => rfl
  | tree :: trees => by
    rw [mapAll, mapAll, mapAll, map_map f g tree, mapAll_mapAll f g trees]
end

mutual
theorem size_map (f : α → β) : (tree : Rose α) → (tree.map f).size = tree.size
  | node label children => by rw [map, size, size, sizes_mapAll f children]
theorem sizes_mapAll (f : α → β) : (trees : List (Rose α)) → sizes (mapAll f trees) = sizes trees
  | [] => rfl
  | tree :: trees => by rw [mapAll, sizes, sizes, size_map f tree, sizes_mapAll f trees]
end

mutual
theorem draw_map (f : α → β) (id : Nat) : (tree : Rose α) →
    (tree.map f).draw id = (tree.draw id).map (Stroke.map f)
  | node label children => by
    rw [map, draw, draw, drawChildren_mapAll f id (id + 1) children]
    rfl
theorem drawChildren_mapAll (f : α → β) (parent : Nat) : (next : Nat) → (trees : List (Rose α)) →
    drawChildren parent next (mapAll f trees) =
      (drawChildren parent next trees).map (Stroke.map f)
  | _, [] => rfl
  | next, tree :: trees => by
    rw [mapAll, drawChildren, drawChildren, draw_map f next tree, size_map,
      drawChildren_mapAll f parent (next + tree.size) trees, List.map_append]
    rfl
end

end Rose

/-! ## Putting strokes together -/

/-- A vertex whose children are still to come; those that it has are kept the last one first. -/
structure Growing where
  id : Nat
  label : String
  children : List (Rose String)

namespace Growing

/-- The tree that a vertex is the root of. -/
def tree (vertex : Growing) : Rose String :=
  .node vertex.label vertex.children.reverse

def add (vertex : Growing) (child : Rose String) : Growing :=
  { vertex with children := child :: vertex.children }

end Growing

namespace Drawing

/-- The tree that strokes draw, where `growing` are the vertices from the last one up to the root. An
edge to the last vertex closes it. -/
def assemble : (growing : List Growing) → List (Stroke String) → Option (Rose String)
  | [root], [] => some root.tree
  | growing, .vertex id label :: strokes => assemble (⟨id, label, []⟩ :: growing) strokes
  | child :: parent :: growing, .edge source target :: strokes =>
      if parent.id = source ∧ child.id = target then
        assemble (parent.add child.tree :: growing) strokes
      else none
  | _, _ => none

mutual
/-- What is drawn of a tree leaves its root as the last vertex. -/
theorem assemble_draw (id : Nat) (growing : List Growing) (later : List (Stroke String)) :
    (tree : Rose String) → assemble growing (tree.draw id ++ later) =
      assemble (⟨id, tree.root, tree.children.reverse⟩ :: growing) later
  | .node label trees => by
    have children := assemble_drawChildren ⟨id, label, []⟩ growing later (id + 1) trees
    rw [List.append_nil] at children
    rw [Rose.draw, List.cons_append, assemble, children]
    rfl
theorem assemble_drawChildren (parent : Growing) (growing : List Growing)
    (later : List (Stroke String)) : (next : Nat) → (trees : List (Rose String)) →
    assemble (parent :: growing) (Rose.drawChildren parent.id next trees ++ later) =
      assemble ({ parent with children := trees.reverse ++ parent.children } :: growing) later
  | _, [] => rfl
  | next, tree :: trees => by
    have whole : Growing.tree ⟨next, tree.root, tree.children.reverse⟩ = tree := by
      obtain ⟨label, children⟩ := tree
      exact congrArg (Rose.node label) children.reverse_reverse
    rw [Rose.drawChildren, List.append_assoc, assemble_draw next (parent :: growing) _ tree,
      List.cons_append, assemble, if_pos ⟨rfl, rfl⟩, whole, List.reverse_cons, List.append_assoc]
    exact assemble_drawChildren (parent.add tree) growing later (next + tree.size) trees
end

/-- The tree that is drawn in a document of that name. -/
def readTree? (name text : String) : Option (Rose String) :=
  (read? name text).bind (assemble [])

theorem readTree?_document {name : String} (oneLine : '\n' ∉ name.toList) (tree : Rose String) :
    readTree? name (document name (tree.draw 0)) = some tree := by
  have assembled := assemble_draw 0 [] [] tree
  rw [List.append_nil] at assembled
  rw [readTree?, read?_document oneLine, Option.bind_some, assembled, assemble, Growing.tree,
    List.reverse_reverse]
  cases tree
  rfl

end Drawing

namespace Node

/-! ## Syntax trees -/

/-- The paths to all nodes, in pre-order. -/
def paths (node : Node) : List (List Nat) :=
  node.shape.paths

theorem at?_shape (node : Node) (path : List Nat) :
    node.shape.at? path = (node.at? path).map shape := by
  induction path generalizing node with
  | nil => rfl
  | cons index path ih =>
    rw [Rose.at?, shape_eq, Rose.children, at?, List.getElem?_map]
    cases node.children[index]? with
    | none => rfl
    | some child => exact ih child

/-- The paths lead to all nodes in pre-order. -/
theorem map_at?_paths (node : Node) : node.paths.map node.at? = node.descendants.map some := by
  rw [paths, descendants, ← Rose.map_at?_paths]
  refine List.map_congr_left fun path _ => ?_
  rw [at?_shape]
  cases node.at? path with
  | none => rfl
  | some below => rw [Option.map_some, shape_eq]; rfl

/-- The strokes of a drawing of the tree. -/
structure DrawnBy (node : Node) (strokes : List (Stroke String)) : Prop where
  /-- There is one vertex for every node, and these are numbered in pre-order. -/
  vertices : strokes.filterMap Stroke.vertex? = (node.descendants.map label).zipIdx
  /-- There is one edge for every node but the root. -/
  edges : (strokes.filterMap Stroke.edge?).length = node.descendants.length - 1
  /-- Edges lead from nodes to their children. -/
  edge_iff : ∀ {source target : Nat}, (source, target) ∈ strokes.filterMap Stroke.edge? ↔
    ∃ path index, node.paths[source]? = some path ∧ node.paths[target]? = some (path ++ [index])
  /-- The edges from a node lead to its children in their order. -/
  inOrder : ∀ {source : Nat} {path : List Nat} {below : Node}, node.paths[source]? = some path →
    node.at? path = some below →
    (Rose.targets source strokes).map (node.paths[·]?) =
      (List.range below.children.length).map fun index => some (path ++ [index])

theorem drawnBy_draw (node : Node) :
    node.DrawnBy ((node.shape.draw 0).map (Stroke.map label)) where
  vertices := by
    rw [Rose.vertices_map, Rose.vertices_draw, descendants, List.zipIdx_map]
  edges := by
    have count := Rose.length_edges_draw 0 node.shape
    rw [← Rose.length_preorder] at count
    rw [Rose.edges_map]
    exact Nat.eq_sub_of_add_eq count
  edge_iff := by
    rw [Rose.edges_map]
    exact Rose.mem_edges_draw_iff
  inOrder := by
    intro source path below isPath found
    have found' : node.shape.at? path = some below.shape := by rw [at?_shape, found]; rfl
    obtain ⟨_, _, rfl⟩ := Rose.getElem?_paths_iff.1 isPath
    have leads := Rose.targets_draw found' 0
    simp only [Nat.zero_add] at leads
    have arity : below.shape.children.length = below.children.length := by
      rw [shape_eq, Rose.children, List.length_map]
    rw [Rose.targets, Rose.edges_map, ← Rose.targets, leads, arity, List.map_map]
    refine List.map_congr_left fun index isIndex => ?_
    have isChild := List.getElem?_eq_getElem (arity.symm ▸ List.mem_range.1 isIndex :
      index < below.shape.children.length)
    exact Rose.getElem?_number ((Rose.at?_concat found' index).trans isChild)

theorem drawnBy_strokes (node : Node) :
    node.DrawnBy (node.shape.strokes.map (Stroke.map label)) := by
  rw [Rose.strokes_eq_draw]
  exact node.drawnBy_draw

/-- The tree of labels can be read off its drawing. -/
theorem readTree?_drawing (node : Node) :
    Drawing.readTree? "SyntaxTree" node.drawing = some (node.shape.map label) := by
  rw [drawing, Rose.strokes_eq_draw, ← Rose.draw_map]
  exact Drawing.readTree?_document (by decide) _

/-- The document of a tree has one line for each stroke of a drawing of the tree, and the shape of
the tree and all its labels can be read off its text. In a label this is so whatever characters are
in it: written in its quotes it has no line break, the first quote without a backslash is the one
that closes it, and what stands in between is the label. -/
theorem drawing_faithful (node : Node) :
    (∃ strokes, node.DrawnBy strokes ∧ Text.lines node.drawing =
      "digraph SyntaxTree \x7b" :: (strokes.map Drawing.line ++ ["\x7d"])) ∧
    Drawing.readTree? "SyntaxTree" node.drawing = some (node.shape.map label) ∧
    (node.paths.Nodup ∧ node.paths.map node.at? = node.descendants.map some) ∧
    ∀ label : String,
      '\n' ∉ (Drawing.escape label).toList ∧
      (∀ behind, Drawing.quoted? ((Drawing.escape label).toList ++ '"' :: behind) =
        some ((Drawing.escape label).toList, behind)) ∧
      Drawing.unescape (Drawing.escape label).toList = label.toList := by
  have oneLine : '\n' ∉ "SyntaxTree".toList := by decide
  refine ⟨⟨_, node.drawnBy_strokes, Drawing.lines_document oneLine _⟩, node.readTree?_drawing,
    ⟨Rose.nodup_paths node.shape, node.map_at?_paths⟩, fun label => ?_⟩
  unfold Drawing.escape
  rw [String.toList_ofList]
  exact ⟨Drawing.oneLine_escape _, Drawing.quoted?_escape _, Drawing.unescape_escape _⟩

/-! ## Labels -/

/-- What a label holds: the name of the kind of the node, and on a second line what the node has
besides its children. -/
theorem label_eq (node : Node) : node.label =
    match node with
    | empty _ => "NoOperation"
    | program .. => "TranslationUnit"
    | function _ returnType name .. => "FunctionDefinition\n" ++ (returnType.name ++ " " ++ name)
    | parameter _ ty name => "Parameter\n" ++ (ty.name ++ " " ++ name)
    | call .. => "FunctionCall"
    | returnValue .. => "ReturnStatement"
    | block .. => "CompoundStatement"
    | declaration _ ty name => "Declaration\n" ++ (ty.name ++ " " ++ name)
    | assignment _ target _ => "Assignment\n" ++ (target ++ " =")
    | ifThen .. | ifElse .. => "IfStatement"
    | binary _ op _ _ => "BinaryOperator\n" ++ op.symbol
    | unary _ op _ => "UnaryOperator\n" ++ op.symbol
    | identifier _ name => "Identifier\n" ++ name
    | integer _ value => "IntegerConstant\n" ++ toString value.toInt
    | real _ value => "RealConstant\n" ++ Decimal.realText value := by
  cases node <;> rfl

end Node

namespace Drawing

/-- The kinds of nodes. -/
def kinds : List NodeKind :=
  [.empty, .program, .function, .parameter, .call, .returnValue, .block, .declaration, .assignment,
    .conditional, .binary, .unary, .identifier, .integer, .real]

/-- The kind that the first line of a label names, and what stands behind that line. -/
def readKind? (label : String) : Option (NodeKind × Option String) :=
  let chars := label.toList
  let caption :=
    match chars.dropWhile (· != '\n') with
    | _ :: caption => some (String.ofList caption)
    | [] => none
  (kinds.find? (·.name = String.ofList (chars.takeWhile (· != '\n')))).map (·, caption)

theorem find?_kinds (kind : NodeKind) : kinds.find? (·.name = kind.name) = some kind := by
  cases kind <;> rfl

theorem oneLine_kind (kind : NodeKind) : '\n' ∉ kind.name.toList := by
  cases kind <;> decide

/-- The kind of a node can be read off its label, whatever characters the caption has. -/
theorem readKind?_label (node : Node) :
    readKind? node.label = some (node.kind, node.caption?) := by
  have noBreak : ∀ c ∈ node.kind.name.toList, c != '\n' := fun c member =>
    bne_iff_ne.2 fun isBreak => oneLine_kind node.kind (isBreak ▸ member)
  unfold readKind? Node.label
  cases node.caption? with
  | none =>
    dsimp only
    rw [List.takeWhile_eq_self_iff.2 noBreak, List.dropWhile_eq_nil_iff.2 noBreak,
      String.ofList_toList, find?_kinds]
    rfl
  | some caption =>
    dsimp only
    rw [String.toList_append, String.toList_append, List.append_assoc,
      List.takeWhile_append_of_pos noBreak, List.dropWhile_append_of_pos noBreak]
    simp [find?_kinds]

end Drawing

/-- Trees that are drawn alike have the same shape, with nodes of the same kinds and captions. -/
theorem Node.alike_of_drawing {node node' : Node} (same : node.drawing = node'.drawing) :
    node.shape.map (fun below => (below.kind, below.caption?)) =
      node'.shape.map fun below => (below.kind, below.caption?) := by
  have labels : node.shape.map label = node'.shape.map label := by
    have read := node.readTree?_drawing
    rw [same, readTree?_drawing] at read
    exact (Option.some.inj read).symm
  have told (node : Node) : node.shape.map (fun below => (below.kind, below.caption?)) =
      (node.shape.map label).map fun label => (Drawing.readKind? label).getD default := by
    rw [Rose.map_map]
    refine congrArg (node.shape.map ·) (funext fun below => ?_)
    rw [Function.comp, Drawing.readKind?_label]
    rfl
  rw [told, told, labels]

end MiniC
