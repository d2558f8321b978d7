import MiniC.Proofs.Interpretation

/-!
# Folding preserves meaning

A folded program computes the same values, makes the same calls in the same order and fails in the
same way as the program itself.
-/

namespace MiniC.Node

variable (calls : Calls) (name : String) (env : Environment)

theorem evaluate_foldBinary? {info : Info} {op : BinaryOp} {lhs rhs folded : Node}
    (found : foldBinary? info op lhs rhs = some folded) :
    folded.evaluate calls name env = (binary info op lhs rhs).evaluate calls name env := by
  funext last
  unfold foldBinary? at found
  split at found
  · next a _ b =>
    obtain ⟨value, computed, rfl⟩ := Option.map_eq_some_iff.1 found
    simp only [evaluate, ok_bind, computed]
    rfl
  · cases found
    rfl
  · cases found

theorem evaluate_foldUnary? {info : Info} {op : UnaryOp} {operand folded : Node}
    (found : foldUnary? info op operand = some folded) :
    folded.evaluate calls name env = (unary info op operand).evaluate calls name env := by
  funext last
  unfold foldUnary? at found
  split at found
  · cases found
    rfl
  · cases found
    rfl
  · cases found

theorem fold_unary_eq (info : Info) (op : UnaryOp) (operand : Node) :
    (unary info op operand).fold =
      (foldUnary? info op operand.fold).getD (unary info op operand.fold) := by
  rw [fold]

theorem fold_binary_eq (info : Info) (op : BinaryOp) (lhs rhs : Node) :
    (binary info op lhs rhs).fold =
      (foldBinary? info op lhs.fold rhs.fold).getD (binary info op lhs.fold rhs.fold) := by
  rw [fold]

theorem foldAll_eq_map (nodes : List Node) : foldAll nodes = nodes.map fold := by
  induction nodes with
  | nil => rfl
  | cons node nodes ih => rw [foldAll, ih, List.map_cons]

/-- A sign in front of an operand is kept or becomes a constant. -/
theorem fold_unary (info : Info) (op : UnaryOp) (operand : Node) :
    (unary info op operand).fold = unary info op operand.fold ∨
      (∃ value, (unary info op operand).fold = integer info value) ∨
      ∃ value, (unary info op operand).fold = real info value := by
  rw [fold_unary_eq]
  cases found : foldUnary? info op operand.fold with
  | none => exact .inl rfl
  | some folded =>
    unfold foldUnary? at found
    split at found
    · cases found
      exact .inr (.inl ⟨_, rfl⟩)
    · cases found
      exact .inr (.inr ⟨_, rfl⟩)
    · cases found

/-- An operator is kept or becomes a constant. -/
theorem fold_binary (info : Info) (op : BinaryOp) (lhs rhs : Node) :
    (binary info op lhs rhs).fold = binary info op lhs.fold rhs.fold ∨
      (∃ value, (binary info op lhs rhs).fold = integer info value) ∨
      ∃ value, (binary info op lhs rhs).fold = real info value := by
  rw [fold_binary_eq]
  cases found : foldBinary? info op lhs.fold rhs.fold with
  | none => exact .inl rfl
  | some folded =>
    unfold foldBinary? at found
    split at found
    · obtain ⟨value, _, rfl⟩ := Option.map_eq_some_iff.1 found
      exact .inr (.inl ⟨value, rfl⟩)
    · cases found
      exact .inr (.inr ⟨_, rfl⟩)
    · cases found

mutual
/-- Folding does not change the values of expressions. -/
theorem evaluate_fold : (node : Node) →
    node.fold.evaluate calls name env = node.evaluate calls name env
  | unary info op operand => by
    have same := evaluate_fold operand
    have kept : (unary info op operand.fold).evaluate calls name env =
        (unary info op operand).evaluate calls name env := by
      funext last
      simp only [evaluate, same]
    rw [fold_unary_eq]
    cases found : foldUnary? info op operand.fold with
    | none => exact kept
    | some folded => exact (evaluate_foldUnary? calls name env found).trans kept
  | binary info op lhs rhs => by
    have sameL := evaluate_fold lhs
    have sameR := evaluate_fold rhs
    have kept : (binary info op lhs.fold rhs.fold).evaluate calls name env =
        (binary info op lhs rhs).evaluate calls name env := by
      funext last
      simp only [evaluate, sameL, sameR]
    rw [fold_binary_eq]
    cases found : foldBinary? info op lhs.fold rhs.fold with
    | none => exact kept
    | some folded => exact (evaluate_foldBinary? calls name env found).trans kept
  | call _ callee arguments => by
    funext last
    cases callee with
    | identifier _ callee => simp only [fold, evaluate, evaluateAll_foldAll arguments]
    | _ => simp only [fold, evaluate]
  | empty .. | program .. | function .. | parameter .. | returnValue .. | block .. | declaration ..
  | assignment .. | ifThen .. | ifElse .. | identifier .. | integer .. | real .. => by
    funext last
    simp only [fold, evaluate, kind]
theorem evaluateAll_foldAll : (nodes : List Node) →
    evaluateAll calls name env (foldAll nodes) = evaluateAll calls name env nodes
  | [] => rfl
  | node :: nodes => by
    funext last
    simp only [foldAll, evaluateAll, evaluate_fold node, evaluateAll_foldAll nodes]
end

/-- An expression is run as a statement by evaluating it. -/
def IsPlain : Node → Prop
  | unary .. | binary .. | call .. | identifier .. | integer .. | real .. => True
  | _ => False

theorem execute_of_isPlain {node : Node} (plain : node.IsPlain) (env : Environment) (last : Int32) :
    node.execute calls name env last = (node.evaluate calls name env last >>= fun result =>
      return .finished env result.2) := by
  cases node with
  | unary | binary | call | identifier | integer | real => rfl
  | _ => exact plain.elim

theorem isPlain_fold {node : Node} (plain : node.IsPlain) : node.fold.IsPlain := by
  cases node with
  | unary info op operand =>
    rcases fold_unary info op operand with same | ⟨value, same⟩ | ⟨value, same⟩ <;> rw [same] <;>
      exact trivial
  | binary info op lhs rhs =>
    rcases fold_binary info op lhs rhs with same | ⟨value, same⟩ | ⟨value, same⟩ <;> rw [same] <;>
      exact trivial
  | call | identifier | integer | real => exact trivial
  | _ => exact plain.elim

theorem execute_fold_of_isPlain {node : Node} (plain : node.IsPlain) :
    node.fold.execute calls name = node.execute calls name := by
  funext env last
  rw [execute_of_isPlain calls name plain, execute_of_isPlain calls name (isPlain_fold plain),
    evaluate_fold]

mutual
/-- Folding does not change what statements do. -/
theorem execute_fold : (node : Node) → node.fold.execute calls name = node.execute calls name
  | empty .. | program .. | function .. | parameter .. | declaration .. => by
    funext env last
    simp only [fold, execute, evaluate, kind]
  | block _ _ statements => by
    funext env last
    simp only [fold, execute, executeAll_foldAll statements]
  | returnValue .. | assignment .. => by
    funext env last
    simp only [fold, execute, evaluate_fold]
  | ifThen _ _ consequent => by
    funext env last
    simp only [fold, execute, evaluate_fold, execute_fold consequent]
  | ifElse _ _ consequent alternative => by
    funext env last
    simp only [fold, execute, evaluate_fold, execute_fold consequent, execute_fold alternative]
  | unary .. | binary .. | call .. | identifier .. | integer .. | real .. =>
    execute_fold_of_isPlain calls name trivial
theorem executeAll_foldAll : (nodes : List Node) →
    executeAll calls name (foldAll nodes) = executeAll calls name nodes
  | [] => rfl
  | node :: nodes => by
    funext env last
    simp only [foldAll, executeAll, execute_fold node, executeAll_foldAll nodes]
end

theorem definition?_of_isPlain {node : Node} (plain : node.IsPlain) (name : String) :
    node.definition? name = none := by
  cases node with
  | unary | binary | call | identifier | integer | real => rfl
  | _ => exact plain.elim

theorem definition?_fold (name : String) (node : Node) :
    (node.fold.definition? name).map behaviour = (node.definition? name).map behaviour := by
  cases node with
  | function info returnType other parameters body =>
    simp only [fold, definition?]
    split
    · simp only [Option.map_some, behaviour, execute_fold]
    · rfl
  | unary info op operand =>
    rw [definition?_of_isPlain (isPlain_fold (show (unary info op operand).IsPlain from trivial))]
    rfl
  | binary info op lhs rhs =>
    rw [definition?_of_isPlain (isPlain_fold (show (binary info op lhs rhs).IsPlain from trivial))]
    rfl
  | _ => rfl

theorem findSome?_definition?_foldAll (name : String) (nodes : List Node) :
    ((foldAll nodes).findSome? (definition? name)).map behaviour =
      (nodes.findSome? (definition? name)).map behaviour := by
  induction nodes with
  | nil => rfl
  | cons node nodes ih =>
    have first := definition?_fold name node
    simp only [foldAll, List.findSome?_cons]
    cases found : node.definition? name with
    | none =>
      rw [found] at first
      rw [Option.map_eq_none_iff.1 first]
      exact ih
    | some definition =>
      rw [found] at first
      obtain ⟨definition', found', behaves⟩ := Option.map_eq_some_iff.1 first
      rw [found']
      exact congrArg some behaves

/-- Folding does not change what a program means. -/
theorem callWithin_fold (info : Info) (functions : List Node) (depth : Nat) :
    (program info functions).fold.callWithin depth = (program info functions).callWithin depth := by
  apply callWithin_congr
  intro name
  simp only [fold, function?]
  exact findSome?_definition?_foldAll name functions

end MiniC.Node
