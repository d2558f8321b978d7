/-!
# Finitely branching trees

The nodes of a tree in pre-order, and its drawing as a graph.

A drawing names the nodes by numbers, which are given out one after the other as it is written.
-/

namespace MiniC

inductive Rose (α : Type) where
  | node (label : α) (children : List (Rose α))

/-- One line of a drawing. -/
inductive Stroke (α : Type) where
  | vertex (id : Nat) (label : α)
  | edge (source target : Nat)
deriving DecidableEq, Repr

namespace Rose

variable {α : Type}

mutual
/-- Number of nodes. -/
def size : Rose α → Nat
  | node _ children => sizes children + 1
def sizes : List (Rose α) → Nat
  | [] => 0
  | tree :: trees => tree.size + sizes trees
end

mutual
/-- All labels, each before those of its children. -/
def preorder : Rose α → List α
  | node label children => label :: preorders children
def preorders : List (Rose α) → List α
  | [] => []
  | tree :: trees => tree.preorder ++ preorders trees
end

/-- A drawing as far as it is written, and the number of the next vertex. -/
structure Sheet (α : Type) where
  strokes : Array (Stroke α)
  next : Nat

/-- Write a stroke at the end. -/
def Sheet.put (sheet : Sheet α) (stroke : Stroke α) : Sheet α :=
  { sheet with strokes := sheet.strokes.push stroke }

/-- Take the next number. -/
def Sheet.number (sheet : Sheet α) : Nat × Sheet α :=
  (sheet.next, { sheet with next := sheet.next + 1 })

mutual
/-- Write a tree, and tell the number of its root. The edge to a child follows the drawing of that
child. -/
def write : Rose α → StateM (Sheet α) Nat
  | node label children => do
      let id ← modifyGet Sheet.number
      modify (·.put (.vertex id label))
      writeChildren id children
      return id
def writeChildren (parent : Nat) : List (Rose α) → StateM (Sheet α) Unit
  | [] => return ()
  | tree :: trees => do
      let child ← tree.write
      modify (·.put (.edge parent child))
      writeChildren parent trees
end

/-- The drawing of a tree on an empty sheet. -/
def strokes (tree : Rose α) : List (Stroke α) :=
  (tree.write.run ⟨#[], 0⟩).run.2.strokes.toList

mutual
theorem length_preorder : (tree : Rose α) → tree.preorder.length = tree.size
  | node _ children => by simp [preorder, size, length_preorders children]
theorem length_preorders : (trees : List (Rose α)) → (preorders trees).length = sizes trees
  | [] => rfl
  | tree :: trees => by
      simp [preorders, sizes, length_preorder tree, length_preorders trees]
end

end Rose
end MiniC
