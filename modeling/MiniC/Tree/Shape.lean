import MiniC.Tree.Basic
import MiniC.Tree.Rose

/-!
# Shapes of syntax trees

The shape of a syntax tree: each node over its children, in source order. Counting, listing and
drawing need nothing else of a tree.
-/

namespace MiniC.Node

mutual
/-- The tree below a node, each label being the node itself. -/
def shape : Node → Rose Node
  | empty info => .node (empty info) []
  | program info functions => .node (program info functions) (shapes functions)
  | function info returnType name parameters body =>
      .node (function info returnType name parameters body) (shapes parameters ++ [body.shape])
  | parameter info ty name => .node (parameter info ty name) []
  | call info callee arguments =>
      .node (call info callee arguments) (callee.shape :: shapes arguments)
  | returnValue info value => .node (returnValue info value) [value.shape]
  | block info declarations statements =>
      .node (block info declarations statements) (shapes declarations ++ shapes statements)
  | declaration info ty name => .node (declaration info ty name) []
  | assignment info target value => .node (assignment info target value) [value.shape]
  | ifThen info condition consequent =>
      .node (ifThen info condition consequent) [condition.shape, consequent.shape]
  | ifElse info condition consequent alternative =>
      .node (ifElse info condition consequent alternative)
        [condition.shape, consequent.shape, alternative.shape]
  | binary info op lhs rhs => .node (binary info op lhs rhs) [lhs.shape, rhs.shape]
  | unary info op operand => .node (unary info op operand) [operand.shape]
  | identifier info name => .node (identifier info name) []
  | integer info value => .node (integer info value) []
  | real info value => .node (real info value) []
def shapes : List Node → List (Rose Node)
  | [] => []
  | node :: nodes => node.shape :: shapes nodes
end

/-- The node and everything below it, in pre-order. -/
def descendants (node : Node) : List Node :=
  node.shape.preorder

theorem shapes_eq_map (nodes : List Node) : shapes nodes = nodes.map shape := by
  induction nodes with
  | nil => rfl
  | cons node nodes ih => simp [shapes, ih]

/-- The shape follows `children` at every node. -/
theorem shape_eq (node : Node) : node.shape = .node node (node.children.map shape) := by
  cases node <;> simp [shape, children, shapes_eq_map]

theorem self_mem_descendants (node : Node) : node ∈ node.descendants := by
  rw [descendants, shape_eq, Rose.preorder]
  exact List.mem_cons_self

theorem mem_descendants_of_child {node child below : Node} (isChild : child ∈ node.children)
    (isBelow : below ∈ child.descendants) : below ∈ node.descendants := by
  have within : ∀ nodes : List Node, child ∈ nodes → below ∈ Rose.preorders (nodes.map shape) := by
    intro nodes member
    induction nodes with
    | nil => cases member
    | cons node nodes ih =>
      rw [List.map_cons, Rose.preorders, List.mem_append]
      rcases List.mem_cons.1 member with rfl | member
      · exact .inl isBelow
      · exact .inr (ih member)
  rw [descendants, shape_eq, Rose.preorder]
  exact List.mem_cons_of_mem _ (within _ isChild)

end MiniC.Node
