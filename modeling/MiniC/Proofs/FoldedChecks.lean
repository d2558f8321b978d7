import MiniC.Checks.Types
import MiniC.Proofs.Folding
import MiniC.Proofs.Walks

/-!
# Folding is invisible to the analyses

Names and types are checked with the same result before and after folding, and scopes can be
attached in either order. This holds for every tree: a node may stand where no program has it, and
its scope may be missing.

What makes it so is that folding only replaces operators over constants. Such a node passes every
check, it is an expression of the type of its constants, and it opens no scope and declares nothing,
and all this is true of the constant in its place too. Whatever can fail is still there afterwards,
in the same order, with the same token and scope.
-/

namespace MiniC

/-- The value of a constant. -/
inductive Constant where
  | integer (value : Int32)
  | real (value : Float)

namespace Constant

def ty : Constant → Ty
  | integer _ => .int
  | real _ => .double

/-- The constant as a node. -/
def node (info : Info) : Constant → Node
  | integer value => .integer info value
  | real value => .real info value

/-- The value of an operator over two constants, where folding computes it. -/
def combine? (op : BinaryOp) : Constant → Constant → Option Constant
  | integer a, integer b => (op.compute? a b).map integer
  | real a, real b => some (real (op.applyReal a b))
  | _, _ => none

/-- The value of a constant with a sign in front. -/
def signed (op : UnaryOp) : Constant → Constant
  | integer a => integer (op.apply a)
  | real a => real (op.applyReal a)

/-- Constants are only combined with others of their type, and that is the type of the result. -/
theorem ty_combine? {op : BinaryOp} {left right result : Constant}
    (combined : left.combine? op right = some result) :
    left.ty = result.ty ∧ right.ty = result.ty := by
  cases left with
  | integer a =>
    cases right with
    | integer b =>
      obtain ⟨value, _, rfl⟩ := Option.map_eq_some_iff.1 combined
      exact ⟨rfl, rfl⟩
    | real b => cases combined
  | real a =>
    cases right with
    | integer b => cases combined
    | real b =>
      cases combined
      exact ⟨rfl, rfl⟩

end Constant

namespace Node

/-! ## Constants -/

/-- The value of a node that is a constant. -/
def constant? : Node → Option Constant
  | integer _ value => some (.integer value)
  | real _ value => some (.real value)
  | _ => none

theorem constant?_eq_some {node : Node} {constant : Constant}
    (isConstant : node.constant? = some constant) : node = constant.node node.info := by
  cases node with
  | integer | real =>
    cases isConstant
    rfl
  | _ => cases isConstant

theorem constant?_node (constant : Constant) (info : Info) :
    (constant.node info).constant? = some constant := by
  cases constant <;> rfl

theorem info_node (constant : Constant) (info : Info) : (constant.node info).info = info := by
  cases constant <;> rfl

theorem foldUnary?_eq (info : Info) (op : UnaryOp) (operand : Node) :
    foldUnary? info op operand = operand.constant?.map fun constant =>
      (constant.signed op).node info := by
  cases operand <;> rfl

theorem foldBinary?_eq (info : Info) (op : BinaryOp) (lhs rhs : Node) :
    foldBinary? info op lhs rhs = lhs.constant?.bind fun left => rhs.constant?.bind fun right =>
      (left.combine? op right).map (·.node info) := by
  cases lhs with
  | integer _ a =>
    cases rhs with
    | integer _ b =>
      change (op.compute? a b).map (integer info) = ((op.compute? a b).map _).map _
      rw [Option.map_map]
      rfl
    | _ => rfl
  | real => cases rhs <;> rfl
  | _ => cases rhs <;> rfl

theorem foldBinary?_eq_some {info : Info} {op : BinaryOp} {lhs rhs folded : Node}
    (found : foldBinary? info op lhs rhs = some folded) :
    ∃ left right result : Constant, lhs.constant? = some left ∧ rhs.constant? = some right ∧
      left.combine? op right = some result ∧ folded = result.node info := by
  rw [foldBinary?_eq] at found
  obtain ⟨left, isLeft, found⟩ := Option.bind_eq_some_iff.1 found
  obtain ⟨right, isRight, found⟩ := Option.bind_eq_some_iff.1 found
  obtain ⟨result, combined, rfl⟩ := Option.map_eq_some_iff.1 found
  exact ⟨left, right, result, isLeft, isRight, combined, rfl⟩

theorem foldUnary?_eq_some {info : Info} {op : UnaryOp} {operand folded : Node}
    (found : foldUnary? info op operand = some folded) :
    ∃ constant : Constant, operand.constant? = some constant ∧
      folded = (constant.signed op).node info := by
  rw [foldUnary?_eq] at found
  obtain ⟨constant, isConstant, rfl⟩ := Option.map_eq_some_iff.1 found
  exact ⟨constant, isConstant, rfl⟩

/-- Whatever becomes of a node, its token and scope stay. -/
@[simp] theorem info_fold (node : Node) : node.fold.info = node.info := by
  cases node with
  | unary info op operand =>
    rcases fold_unary info op operand with same | ⟨value, same⟩ | ⟨value, same⟩ <;> rw [same] <;>
      rfl
  | binary info op lhs rhs =>
    rcases fold_binary info op lhs rhs with same | ⟨value, same⟩ | ⟨value, same⟩ <;> rw [same] <;>
      rfl
  | _ => rfl

/-- A node becomes a constant or keeps its kind. -/
theorem kind_fold (node : Node) :
    node.fold.kind = node.kind ∨ ∃ constant, node.fold.constant? = some constant := by
  cases node with
  | unary info op operand =>
    rcases fold_unary info op operand with same | ⟨value, same⟩ | ⟨value, same⟩ <;> rw [same]
    · exact .inl rfl
    · exact .inr ⟨_, rfl⟩
    · exact .inr ⟨_, rfl⟩
  | binary info op lhs rhs =>
    rcases fold_binary info op lhs rhs with same | ⟨value, same⟩ | ⟨value, same⟩ <;> rw [same]
    · exact .inl rfl
    · exact .inr ⟨_, rfl⟩
    · exact .inr ⟨_, rfl⟩
  | _ => exact .inl rfl

theorem length_foldAll (nodes : List Node) : (foldAll nodes).length = nodes.length := by
  rw [foldAll_eq_map, List.length_map]

/-! ## The check of names -/

section Names

variable (table : Table)

theorem checkNames_constant {node : Node} {constant : Constant}
    (isConstant : node.constant? = some constant) (current : Option Nat) :
    node.checkNames table current = .ok current := by
  rw [constant?_eq_some isConstant]
  cases constant <;> rfl

mutual
theorem checkNames_fold (current : Option Nat) : (node : Node) →
    node.fold.checkNames table current = node.checkNames table current
  | unary info op operand => by
    have same := checkNames_fold current operand
    rw [fold_unary_eq]
    cases found : foldUnary? info op operand.fold with
    | none => simpa only [Option.getD_none, checkNames] using same
    | some folded =>
      obtain ⟨constant, isConstant, rfl⟩ := foldUnary?_eq_some found
      rw [Option.getD_some, checkNames, ← same, checkNames_constant table isConstant]
      cases constant <;> rfl
  | binary info op lhs rhs => by
    rw [fold_binary_eq]
    cases found : foldBinary? info op lhs.fold rhs.fold with
    | none =>
      simp only [Option.getD_none, checkNames, checkNames_fold _ lhs, checkNames_fold _ rhs]
    | some folded =>
      obtain ⟨left, right, result, isLeft, isRight, _, rfl⟩ := foldBinary?_eq_some found
      rw [Option.getD_some, checkNames, ← checkNames_fold _ lhs,
        checkNames_constant table isLeft, ok_bind, ← checkNames_fold _ rhs,
        checkNames_constant table isRight]
      cases result <;> rfl
  | function _ _ _ _ body => by simp only [fold, checkNames, checkNames_fold _ body]
  | program _ functions => by simp only [fold, checkNames, checkNamesAll_foldAll _ functions]
  | call _ callee arguments => by simp only [fold, checkNames, checkNamesAll_foldAll _ arguments]
  | block _ _ statements => by simp only [fold, checkNames, checkNamesAll_foldAll _ statements]
  | returnValue _ value => by simp only [fold, checkNames, checkNames_fold _ value]
  | assignment _ _ value => by
    simp only [fold, checkNames, symbolAt, scopeOf, scope, pos, info, kind, checkNames_fold _ value]
  | ifThen _ condition consequent => by
    simp only [fold, checkNames, checkNames_fold _ condition, checkNames_fold _ consequent]
  | ifElse _ condition consequent alternative => by
    simp only [fold, checkNames, checkNames_fold _ condition, checkNames_fold _ consequent,
      checkNames_fold _ alternative]
  | empty .. | parameter .. | declaration .. | identifier .. | integer .. | real .. => by
    simp only [fold]
theorem checkNamesAll_foldAll (current : Option Nat) : (nodes : List Node) →
    checkNamesAll table current (foldAll nodes) = checkNamesAll table current nodes
  | [] => rfl
  | node :: nodes => by
    simp only [foldAll, checkNamesAll, checkNames_fold current node, checkNamesAll_foldAll _ nodes]
end

theorem isMain_fold (node : Node) : node.fold.isMain = node.isMain := by
  cases node with
  | unary info op operand =>
    rcases fold_unary info op operand with same | ⟨value, same⟩ | ⟨value, same⟩ <;> rw [same] <;>
      rfl
  | binary info op lhs rhs =>
    rcases fold_binary info op lhs rhs with same | ⟨value, same⟩ | ⟨value, same⟩ <;> rw [same] <;>
      rfl
  | _ => rfl

theorem any_isMain_foldAll (functions : List Node) :
    (foldAll functions).any isMain = functions.any isMain := by
  induction functions with
  | nil => rfl
  | cons function functions ih => rw [foldAll, List.any_cons, List.any_cons, isMain_fold, ih]

theorem checkDeclarations_fold (node : Node) :
    node.fold.checkDeclarations table = node.checkDeclarations table := by
  cases node with
  | program info functions =>
    have same := checkNames_fold table none (program info functions)
    rw [fold] at same ⊢
    simp only [checkDeclarations, any_isMain_foldAll, same]
  | unary info op operand =>
    rcases fold_unary info op operand with same | ⟨value, same⟩ | ⟨value, same⟩ <;> rw [same] <;>
      rfl
  | binary info op lhs rhs =>
    rcases fold_binary info op lhs rhs with same | ⟨value, same⟩ | ⟨value, same⟩ <;> rw [same] <;>
      rfl
  | _ => rfl

end Names

/-! ## The check of types -/

section Types

variable (table : Table)

theorem typeOf_constant {node : Node} {constant : Constant}
    (isConstant : node.constant? = some constant) (result : Option Ty) :
    node.typeOf table result = .ok (some constant.ty) := by
  rw [constant?_eq_some isConstant]
  cases constant <;> rfl

/-- Where an expression is required, folding does not change which type is found, nor which kind of
node is complained about. -/
theorem required_fold {α : Type} {node : Node} {result : Option Ty}
    (same : node.fold.typeOf table result = node.typeOf table result)
    (next : Ty → Except Error α) :
    (node.fold.typeOf table result >>= fun ty => required node.fold ty >>= next) =
      (node.typeOf table result >>= fun ty => required node ty >>= next) := by
  rcases node.kind_fold with sameKind | ⟨constant, isConstant⟩
  · have sameRequired : required node.fold = required node := by
      funext ty
      cases ty with
      | some ty => rfl
      | none => rw [required, required, sameKind]
    rw [same, sameRequired]
  · rw [← same, typeOf_constant table isConstant]
    rfl

mutual
theorem typeOf_fold (result : Option Ty) : (node : Node) →
    node.fold.typeOf table result = node.typeOf table result
  | unary info op operand => by
    have same := required_fold table (typeOf_fold result operand) fun ty =>
      (return some ty : Except Error (Option Ty))
    rw [fold_unary_eq]
    cases found : foldUnary? info op operand.fold with
    | none => simpa only [Option.getD_none, typeOf] using same
    | some folded =>
      obtain ⟨constant, isConstant, rfl⟩ := foldUnary?_eq_some found
      rw [Option.getD_some, typeOf, ← same, typeOf_constant table isConstant]
      cases constant <;> rfl
  | binary info op lhs rhs => by
    have same : (binary info op lhs.fold rhs.fold).typeOf table result =
        (binary info op lhs rhs).typeOf table result := by
      simp only [typeOf, required_fold table (typeOf_fold result lhs),
        required_fold table (typeOf_fold result rhs)]
    rw [fold_binary_eq]
    cases found : foldBinary? info op lhs.fold rhs.fold with
    | none => exact same
    | some folded =>
      obtain ⟨left, right, constant, isLeft, isRight, combined, rfl⟩ := foldBinary?_eq_some found
      obtain ⟨leftType, rightType⟩ := Constant.ty_combine? combined
      rw [Option.getD_some, ← same, typeOf, typeOf_constant table isLeft,
        typeOf_constant table isRight, leftType, rightType]
      simp only [ok_bind, required, ne_eq, not_true_eq_false, if_false]
      cases constant <;> rfl
  | function _ returnType _ parameters body => by
    simp only [fold, typeOf, typeOf_fold _ body]
  | program _ functions => by simp only [fold, typeOf, checkTypesAll_foldAll result functions]
  | call info callee arguments => by
    simp only [fold, typeOf, length_foldAll, checkArguments_foldAll result _ _ _ arguments]
  | block _ declarations statements => by
    simp only [fold, typeOf, checkTypesAll_foldAll result statements]
  | returnValue _ value => by
    simp only [fold, typeOf, required_fold table (typeOf_fold result value)]
  | assignment _ _ value => by
    simp only [fold, typeOf, symbolAt, storedType, scopeOf, scope, pos, info, kind,
      required_fold table (typeOf_fold result value)]
  | ifThen _ condition consequent => by
    simp only [fold, typeOf, required_fold table (typeOf_fold result condition),
      typeOf_fold result consequent]
  | ifElse _ condition consequent alternative => by
    simp only [fold, typeOf, required_fold table (typeOf_fold result condition),
      typeOf_fold result consequent, typeOf_fold result alternative]
  | empty .. | parameter .. | declaration .. | identifier .. | integer .. | real .. => by
    simp only [fold]
theorem checkTypesAll_foldAll (result : Option Ty) : (nodes : List Node) →
    checkTypesAll table result (foldAll nodes) = checkTypesAll table result nodes
  | [] => rfl
  | node :: nodes => by
    simp only [foldAll, checkTypesAll, typeOf_fold result node, checkTypesAll_foldAll result nodes]
theorem checkArguments_foldAll (result : Option Ty) (name : String) :
    (position : Nat) → (inputs : List SymbolId) → (arguments : List Node) →
    checkArguments table result name position inputs (foldAll arguments) =
      checkArguments table result name position inputs arguments
  | _, [], arguments => by cases arguments <;> rfl
  | _, _ :: _, [] => rfl
  | position, input :: inputs, argument :: arguments => by
    simp only [foldAll, checkArguments, pos, info_fold,
      required_fold table (typeOf_fold result argument),
      checkArguments_foldAll result name (position + 1) inputs arguments]
end

theorem checkTypes_fold (node : Node) : node.fold.checkTypes table = node.checkTypes table := by
  rw [checkTypes, checkTypes, typeOf_fold]

end Types
end Node

/-! ## Attaching scopes -/

namespace Walked

variable {α β α' β' : Type}

/-- Parts are put together after they were changed, or the whole is changed. -/
theorem map_map_comm {f : α → α'} {g : β → β'} {build : α → β} {build' : α' → β'}
    (same : ∀ a, build' (f a) = g (build a)) (walked : Walked α) :
    (walked.map f).map build' = (walked.map build).map g :=
  Prod.ext (same walked.1) rfl

theorem map_id (walked : Walked α) : walked.map id = walked := rfl

theorem andThen_map {f : α → α'} {g : β → β'} {second : Table → Walked β}
    {second' : Table → Walked β'} (same : ∀ table, second' table = (second table).map g)
    (first : Walked α) (unvisited : β) :
    (first.map f).andThen second' (g unvisited) =
      (first.andThen second unvisited).map (Prod.map f g) := by
  obtain ⟨a, result⟩ := first
  cases result with
  | error error => rfl
  | ok table =>
    simp only [andThen, map, same]
    rfl

end Walked

namespace Node

open Resolution

variable (ctx : Context) (table : Table)

theorem walk_constant {node : Node} {constant : Constant}
    (isConstant : node.constant? = some constant) :
    node.walk ctx table = (constant.node (attach node.info ctx.scope), .ok table) := by
  rw [constant?_eq_some isConstant]
  cases constant <;> rfl

/-- A walk makes no constants and takes none away. -/
theorem constant?_walk (node : Node) : (node.walk ctx table).1.constant? = node.constant? := by
  cases node with
  | function info returnType name parameters body =>
    rw [walk]
    cases enterFunction ctx info.token name returnType table <;> rfl
  | _ => rfl

theorem constant?_walk_both (x y : Node) :
    let walked := (x.walk ctx table).andThen (walk ctx · y) y
    walked.1.1.constant? = x.constant? ∧ walked.1.2.constant? = y.constant? := by
  have isX := constant?_walk ctx table x
  cases found : x.walk ctx table with
  | mk walked result =>
    rw [found] at isX
    cases result with
    | error error => exact ⟨isX, rfl⟩
    | ok middle => exact ⟨isX, constant?_walk ctx middle y⟩

/-- An operator is folded before or after the walk through its operand. -/
theorem walk_foldUnary (info : Info) (op : UnaryOp) (operand : Node) :
    ((foldUnary? info op operand).getD (unary info op operand)).walk ctx table =
      (operand.walk ctx table).map fun x =>
        (foldUnary? (attach info ctx.scope) op x).getD (unary (attach info ctx.scope) op x) := by
  have kept := constant?_walk ctx table operand
  cases isConstant : operand.constant? with
  | none =>
    rw [isConstant] at kept
    rw [foldUnary?_eq, isConstant, Option.map_none, Option.getD_none, walk]
    refine Prod.ext ?_ rfl
    simp only [Walked.map, foldUnary?_eq, kept, Option.map_none, Option.getD_none]
  | some constant =>
    rw [foldUnary?_eq, isConstant, walk_constant ctx table isConstant]
    cases constant <;> rfl

theorem walk_foldBinary (info : Info) (op : BinaryOp) (lhs rhs : Node) :
    ((foldBinary? info op lhs rhs).getD (binary info op lhs rhs)).walk ctx table =
      ((lhs.walk ctx table).andThen (walk ctx · rhs) rhs).map fun (l, r) =>
        (foldBinary? (attach info ctx.scope) op l r).getD
          (binary (attach info ctx.scope) op l r) := by
  obtain ⟨isLeft, isRight⟩ := constant?_walk_both ctx table lhs rhs
  cases found : foldBinary? info op lhs rhs with
  | none =>
    rw [Option.getD_none, walk]
    refine Prod.ext ?_ rfl
    have kept : foldBinary? (attach info ctx.scope) op
        ((lhs.walk ctx table).andThen (walk ctx · rhs) rhs).1.1
        ((lhs.walk ctx table).andThen (walk ctx · rhs) rhs).1.2 = none := by
      rw [foldBinary?_eq] at found ⊢
      rw [isLeft, isRight]
      simpa only [Option.bind_eq_none_iff, Option.map_eq_none_iff] using found
    simp only [Walked.map, kept, Option.getD_none]
  | some folded =>
    obtain ⟨left, right, result, isLeft, isRight, combined, rfl⟩ := foldBinary?_eq_some found
    have computed : foldBinary? (attach info ctx.scope) op
        (left.node (attach lhs.info ctx.scope)) (right.node (attach rhs.info ctx.scope)) =
          some (result.node (attach info ctx.scope)) := by
      rw [foldBinary?_eq, constant?_node, constant?_node, Option.bind_some, Option.bind_some,
        combined, Option.map_some]
    rw [walk_constant ctx table isLeft, Option.getD_some,
      walk_constant ctx table (constant?_node _ _)]
    simp only [Walked.andThen, Walked.map, walk_constant ctx table isRight, computed,
      Option.getD_some, info_node]

mutual
/-- Folding before a walk or after it comes to the same tree, and the walk goes as far. -/
theorem walk_fold (ctx : Context) (table : Table) : (node : Node) →
    node.fold.walk ctx table = (node.walk ctx table).map fold
  | unary info op operand => by
    rw [fold_unary_eq, walk_foldUnary, walk_fold ctx table operand, walk]
    exact Walked.map_map_comm (fun _ => (fold_unary_eq ..).symm) _
  | binary info op lhs rhs => by
    rw [fold_binary_eq, walk_foldBinary, walk_fold ctx table lhs,
      Walked.andThen_map (fun table => walk_fold ctx table rhs), walk]
    exact Walked.map_map_comm (fun _ => (fold_binary_eq ..).symm) _
  | program _ functions => by
    rw [fold, walk, walk, walkAll_foldAll]
    exact Walked.map_map_comm (fun _ => rfl) _
  | function info returnType name parameters body => by
    rw [fold, walk, walk]
    cases enterFunction ctx info.token name returnType table with
    | error error => rfl
    | ok entered =>
      obtain ⟨inside, table⟩ := entered
      dsimp only
      rw [← Walked.map_id (walkAll inside table parameters),
        Walked.andThen_map fun table => walk_fold inside table body]
      exact Walked.map_map_comm (fun _ => rfl) _
  | call _ callee arguments => by
    rw [fold, walk, walk, ← Walked.map_id (callee.walk ctx table),
      Walked.andThen_map fun table => walkAll_foldAll ctx table arguments]
    exact Walked.map_map_comm (fun _ => rfl) _
  | block _ declarations statements => by
    rw [fold, walk, walk]
    dsimp only
    rw [← Walked.map_id (walkAll _ _ declarations),
      Walked.andThen_map fun table => walkAll_foldAll _ table statements]
    exact Walked.map_map_comm (fun _ => rfl) _
  | returnValue _ value | assignment _ _ value => by
    rw [fold, walk, walk, walk_fold ctx table value]
    exact Walked.map_map_comm (fun _ => rfl) _
  | ifThen _ condition consequent => by
    rw [fold, walk, walk, walk_fold ctx table condition,
      Walked.andThen_map fun table => walk_fold ctx table consequent]
    exact Walked.map_map_comm (fun _ => rfl) _
  | ifElse _ condition consequent alternative => by
    rw [fold, walk, walk, walk_fold ctx table condition,
      Walked.andThen_map fun table => walk_fold ctx table consequent,
      Walked.andThen_map fun table => walk_fold ctx table alternative]
    exact Walked.map_map_comm (fun _ => rfl) _
  | empty .. | parameter .. | declaration .. | identifier .. | integer .. | real .. => rfl
theorem walkAll_foldAll (ctx : Context) (table : Table) : (nodes : List Node) →
    walkAll ctx table (foldAll nodes) = (walkAll ctx table nodes).map foldAll
  | [] => rfl
  | node :: nodes => by
    rw [foldAll, walkAll, walkAll, walk_fold ctx table node,
      Walked.andThen_map fun table => walkAll_foldAll ctx table nodes]
    exact Walked.map_map_comm (fun _ => rfl) _
end

/-- Folding is invisible to the analyses: names and types are checked with the same result, and
resolving a folded tree is folding the resolved tree, with the same table or the same error. -/
theorem fold_invisible (node : Node) :
    (∀ table, node.fold.checkDeclarations table = node.checkDeclarations table ∧
      node.fold.checkTypes table = node.checkTypes table ∧
      node.fold.analyze table = node.analyze table) ∧
    node.fold.resolve.2 = node.resolve.2 ∧ node.fold.resolve.1 = node.resolve.1.fold := by
  refine ⟨fun table => ?_, ?_⟩
  · have names := checkDeclarations_fold table node
    have types := checkTypes_fold table node
    exact ⟨names, types, by rw [analyze, analyze, names, types]⟩
  · have walked : node.fold.resolve = node.resolve.map fold := by
      rw [resolve_eq_walk, resolve_eq_walk]
      exact walk_fold _ _ node
    rw [walked]
    exact ⟨rfl, rfl⟩

end Node
end MiniC
