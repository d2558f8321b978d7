import MiniC.Proofs.FoldedChecks
import MiniC.Tree.Shape

/-!
# Folding reaches a normal form

A tree is normal if no operator is left in it that folding computes. Which operators those are is
said here without the pass: a sign in front of a constant, and a binary operator between two
constants of one type, unless it is a division that traps. The places that folding does not enter,
the callee of a call, parameters and declarations, are not looked at.

One walk is enough: operands are folded before their operator, so a constant that comes up is there
when the operator around it is looked at. A normal tree is left alone, and from any other at least
one node is taken away.
-/

namespace MiniC

/-- Only divisions have no result: those by zero, and the one whose quotient no word holds. -/
theorem BinaryOp.compute?_eq_none_iff {op : BinaryOp} {a b : Int32} :
    op.compute? a b = none ↔ op = .div ∧ (b = 0 ∨ a = Int32.minValue ∧ b = -1) := by
  cases op <;> simp [compute?, Decidable.or_iff_not_imp_left]

namespace Node

/-! ## Normal trees -/

/-- An operator that folding computes. -/
def IsRedex : Node → Prop
  | unary _ _ (integer ..) | unary _ _ (real ..) => True
  | binary _ op (integer _ a) (integer _ b) =>
      ¬ (op = .div ∧ (b = 0 ∨ a = Int32.minValue ∧ b = -1))
  | binary _ _ (real ..) (real ..) => True
  | _ => False

/-- The children that folding enters: all but callees, parameters and declarations. -/
def entered : Node → List Node
  | function _ _ _ _ body => [body]
  | call _ _ arguments => arguments
  | block _ _ statements => statements
  | node => node.children

/-- The second node is the first, or lies below it where folding comes. -/
inductive Holds : Node → Node → Prop
  | self (node : Node) : Holds node node
  | inside {node child inner : Node} : child ∈ node.entered → Holds child inner → Holds node inner

/-- No operator is left that folding computes. -/
def Normal (node : Node) : Prop :=
  ∀ inner, node.Holds inner → ¬ inner.IsRedex

theorem normal_iff {node : Node} :
    node.Normal ↔ ¬ node.IsRedex ∧ ∀ child ∈ node.entered, child.Normal := by
  constructor
  · intro normal
    exact ⟨normal node (.self node), fun child member inner holds =>
      normal inner (.inside member holds)⟩
  · rintro ⟨notRedex, children⟩ inner holds
    cases holds with
    | self => exact notRedex
    | inside member holds => exact children _ member inner holds

theorem normal_node (constant : Constant) (info : Info) : (constant.node info).Normal := by
  cases constant <;> exact normal_iff.2 ⟨id, fun child member => by cases member⟩

theorem foldUnary?_eq_none_iff {info : Info} {op : UnaryOp} {operand : Node} :
    foldUnary? info op operand = none ↔ ¬ (unary info op operand).IsRedex := by
  cases operand <;> simp [foldUnary?, IsRedex]

theorem foldBinary?_eq_none_iff {info : Info} {op : BinaryOp} {lhs rhs : Node} :
    foldBinary? info op lhs rhs = none ↔ ¬ (binary info op lhs rhs).IsRedex := by
  cases lhs with
  | integer _ a =>
    cases rhs with
    | integer _ b =>
      rw [foldBinary?, Option.map_eq_none_iff, BinaryOp.compute?_eq_none_iff, IsRedex,
        Classical.not_not]
    | _ => simp [foldBinary?, IsRedex]
  | real => cases rhs <;> simp [foldBinary?, IsRedex]
  | _ => simp [foldBinary?, IsRedex]

/-! ## One walk -/

mutual
theorem normal_fold : (node : Node) → node.fold.Normal
  | unary info op operand => by
    rw [fold_unary_eq]
    cases found : foldUnary? info op operand.fold with
    | none =>
      refine normal_iff.2 ⟨foldUnary?_eq_none_iff.1 found, fun child member => ?_⟩
      rw [List.mem_singleton.1 member]
      exact normal_fold operand
    | some folded =>
      obtain ⟨constant, _, rfl⟩ := foldUnary?_eq_some found
      exact normal_node _ _
  | binary info op lhs rhs => by
    have normalLeft := normal_fold lhs
    have normalRight := normal_fold rhs
    rw [fold_binary_eq]
    cases found : foldBinary? info op lhs.fold rhs.fold with
    | none =>
      refine normal_iff.2 ⟨foldBinary?_eq_none_iff.1 found, ?_⟩
      simp [entered, children, normalLeft, normalRight]
    | some folded =>
      obtain ⟨_, _, constant, _, _, _, rfl⟩ := foldBinary?_eq_some found
      exact normal_node _ _
  | program _ functions => normal_iff.2 ⟨id, normal_foldAll functions⟩
  | call _ _ arguments => normal_iff.2 ⟨id, normal_foldAll arguments⟩
  | block _ _ statements => normal_iff.2 ⟨id, normal_foldAll statements⟩
  | function _ _ _ _ body => by
    have normal := normal_fold body
    refine normal_iff.2 ⟨id, ?_⟩
    simp [fold, entered, normal]
  | returnValue _ value | assignment _ _ value => by
    have normal := normal_fold value
    refine normal_iff.2 ⟨id, ?_⟩
    simp [fold, entered, children, normal]
  | ifThen _ condition consequent => by
    have normal := normal_fold condition
    have normal' := normal_fold consequent
    refine normal_iff.2 ⟨id, ?_⟩
    simp [fold, entered, children, normal, normal']
  | ifElse _ condition consequent alternative => by
    have normal := normal_fold condition
    have normal' := normal_fold consequent
    have normal'' := normal_fold alternative
    refine normal_iff.2 ⟨id, ?_⟩
    simp [fold, entered, children, normal, normal', normal'']
  | empty _ | parameter .. | declaration .. | identifier .. | integer .. | real .. =>
    normal_iff.2 ⟨id, fun child member => by cases member⟩
theorem normal_foldAll : (nodes : List Node) → ∀ child ∈ foldAll nodes, child.Normal
  | [] => fun child member => by cases member
  | node :: nodes => by
    have normal := normal_fold node
    have others := normal_foldAll nodes
    rw [foldAll, List.forall_mem_cons]
    exact ⟨normal, others⟩
end

mutual
theorem fold_of_normal : (node : Node) → node.Normal → node.fold = node
  | unary info op operand => by
    intro normal
    obtain ⟨notRedex, children⟩ := normal_iff.1 normal
    rw [fold_unary_eq, fold_of_normal operand (children operand List.mem_cons_self),
      foldUnary?_eq_none_iff.2 notRedex, Option.getD_none]
  | binary info op lhs rhs => by
    intro normal
    obtain ⟨notRedex, children⟩ := normal_iff.1 normal
    rw [fold_binary_eq, fold_of_normal lhs (children lhs List.mem_cons_self),
      fold_of_normal rhs (children rhs (List.mem_cons_of_mem _ List.mem_cons_self)),
      foldBinary?_eq_none_iff.2 notRedex, Option.getD_none]
  | program _ functions => by
    intro normal
    rw [fold, foldAll_of_normal functions (normal_iff.1 normal).2]
  | call _ _ arguments => by
    intro normal
    rw [fold, foldAll_of_normal arguments (normal_iff.1 normal).2]
  | block _ _ statements => by
    intro normal
    rw [fold, foldAll_of_normal statements (normal_iff.1 normal).2]
  | function _ _ _ _ body => by
    intro normal
    rw [fold, fold_of_normal body ((normal_iff.1 normal).2 body List.mem_cons_self)]
  | returnValue _ value | assignment _ _ value => by
    intro normal
    rw [fold, fold_of_normal value ((normal_iff.1 normal).2 value List.mem_cons_self)]
  | ifThen _ condition consequent => by
    intro normal
    have children := (normal_iff.1 normal).2
    rw [fold, fold_of_normal condition (children condition (by simp [entered, Node.children])),
      fold_of_normal consequent (children consequent (by simp [entered, Node.children]))]
  | ifElse _ condition consequent alternative => by
    intro normal
    have children := (normal_iff.1 normal).2
    rw [fold, fold_of_normal condition (children condition (by simp [entered, Node.children])),
      fold_of_normal consequent (children consequent (by simp [entered, Node.children])),
      fold_of_normal alternative (children alternative (by simp [entered, Node.children]))]
  | empty _ | parameter .. | declaration .. | identifier .. | integer .. | real .. => fun _ => rfl
theorem foldAll_of_normal : (nodes : List Node) → (∀ child ∈ nodes, child.Normal) →
    foldAll nodes = nodes
  | [] => fun _ => rfl
  | node :: nodes => by
    intro normal
    obtain ⟨first, others⟩ := List.forall_mem_cons.1 normal
    rw [foldAll, fold_of_normal node first, foldAll_of_normal nodes others]
end

theorem fold_eq_self_iff {node : Node} : node.fold = node ↔ node.Normal :=
  ⟨fun same => same ▸ normal_fold node, fold_of_normal node⟩

/-! ## Node by node -/

/-- The node that a path leads to: at every step the child with the given index. -/
def at? (node : Node) : List Nat → Option Node
  | [] => some node
  | index :: path => (node.children[index]?).bind (at? · path)

/-- The children that folding does not enter. -/
def skipped : Node → List Node
  | function _ _ _ parameters _ => parameters
  | call _ callee _ => [callee]
  | block _ declarations _ => declarations
  | _ => []

theorem children_eq (node : Node) : node.children = node.skipped ++ node.entered := by
  cases node <;> rfl

/-- A node is kept over its folded children, or it is an operator that becomes a constant. -/
theorem children_fold (node : Node) :
    (node.fold.kind = node.kind ∧ node.fold.children = node.skipped ++ node.entered.map fold) ∨
      (node.fold.kind ≠ node.kind ∧ node.fold.children = []) := by
  cases node with
  | unary info op operand =>
    rcases fold_unary info op operand with same | ⟨value, same⟩ | ⟨value, same⟩ <;> rw [same]
    · exact .inl ⟨rfl, rfl⟩
    · exact .inr ⟨NodeKind.noConfusion, rfl⟩
    · exact .inr ⟨NodeKind.noConfusion, rfl⟩
  | binary info op lhs rhs =>
    rcases fold_binary info op lhs rhs with same | ⟨value, same⟩ | ⟨value, same⟩ <;> rw [same]
    · exact .inl ⟨rfl, rfl⟩
    · exact .inr ⟨NodeKind.noConfusion, rfl⟩
    · exact .inr ⟨NodeKind.noConfusion, rfl⟩
  | program | call | block =>
    refine .inl ⟨rfl, ?_⟩
    simp [fold, children, skipped, entered, foldAll_eq_map]
  | _ => exact .inl ⟨rfl, rfl⟩

theorem kind_fold_of_isRedex {node : Node} (redex : node.IsRedex) : node.fold.kind ≠ node.kind := by
  have computes := redex
  unfold IsRedex at redex
  split at redex
  · exact NodeKind.noConfusion
  · exact NodeKind.noConfusion
  · next info op i a j b =>
    have isSome : foldBinary? info op (integer i a) (integer j b) ≠ none :=
      fun isNone => foldBinary?_eq_none_iff.1 isNone computes
    obtain ⟨folded, found⟩ := Option.ne_none_iff_exists'.1 isSome
    obtain ⟨_, _, constant, _, _, _, rfl⟩ := foldBinary?_eq_some found
    rw [fold_binary_eq, fold, fold, found]
    cases constant <;> exact NodeKind.noConfusion
  · exact NodeKind.noConfusion
  · exact redex.elim

/-- Every node that remains has the token and scope that were at its place. -/
theorem info_at?_fold {node remaining : Node} {path : List Nat}
    (found : node.fold.at? path = some remaining) :
    ∃ original, node.at? path = some original ∧ remaining.info = original.info := by
  induction path generalizing node with
  | nil =>
    cases found
    exact ⟨node, rfl, info_fold node⟩
  | cons index path ih =>
    obtain ⟨child, isChild, found⟩ := Option.bind_eq_some_iff.1 found
    rcases children_fold node with ⟨_, same⟩ | ⟨_, none⟩
    · rw [same] at isChild
      rw [List.getElem?_append] at isChild
      rw [at?, children_eq, List.getElem?_append]
      split at isChild
      · next lt =>
        rw [if_pos lt, isChild]
        exact ⟨remaining, found, rfl⟩
      · next le =>
        rw [List.getElem?_map] at isChild
        obtain ⟨child, isEntered, rfl⟩ := Option.map_eq_some_iff.1 isChild
        rw [if_neg le, isEntered]
        exact ih found
    · rw [none] at isChild
      cases isChild

/-- Only in a normal tree are there nodes of the same kinds everywhere afterwards. -/
theorem normal_of_kinds {node : Node}
    (kinds : ∀ path, (node.fold.at? path).map kind = (node.at? path).map kind) : node.Normal := by
  intro inner holds redex
  induction holds with
  | self node => exact kind_fold_of_isRedex redex (Option.some.inj (kinds []))
  | @inside node child inner member _ ih =>
    refine ih (fun path => ?_) redex
    obtain ⟨index, isChild⟩ := List.getElem?_of_mem member
    rcases children_fold node with ⟨_, same⟩ | ⟨differs, _⟩
    · have there := kinds ((node.skipped.length + index) :: path)
      rw [at?, at?, children_eq node, same, List.getElem?_append_right (Nat.le_add_right _ _),
        List.getElem?_append_right (Nat.le_add_right _ _), Nat.add_sub_cancel_left,
        List.getElem?_map, isChild] at there
      exact there
    · exact absurd (Option.some.inj (kinds [])) differs

/-- Folding reaches a normal form in one walk and leaves exactly the normal trees alone: a tree that
is not normal has nodes of other kinds afterwards, so that it does not matter how reals are
compared. Every node that remains keeps its token and scope. -/
theorem fold_normalizes (node : Node) :
    node.fold.Normal ∧ (node.fold = node ↔ node.Normal) ∧
    ((∀ path, (node.fold.at? path).map kind = (node.at? path).map kind) ↔ node.Normal) ∧
    node.fold.fold = node.fold ∧
    ∀ path remaining, node.fold.at? path = some remaining →
      ∃ original, node.at? path = some original ∧ remaining.token = original.token ∧
        remaining.scope = original.scope := by
  have normal := normal_fold node
  refine ⟨normal, fold_eq_self_iff, ⟨normal_of_kinds, fun normal path => ?_⟩,
    fold_of_normal _ normal, fun path remaining found => ?_⟩
  · rw [fold_of_normal node normal]
  · obtain ⟨original, isOriginal, same⟩ := info_at?_fold found
    exact ⟨original, isOriginal, congrArg Info.token same, congrArg Info.scope same⟩

end Node
end MiniC
