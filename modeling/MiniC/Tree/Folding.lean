import MiniC.Event

/-!
# Folding constants

An operator over constants becomes the constant that it computes.

Operands are folded first, so one walk folds whatever can be folded. A constant keeps the token and
the scope of the operator that it replaces. Divisions that would trap are left as they are, and the
callee of a call, parameters and declarations are not entered.
-/

namespace MiniC.Node

/-- The constant that a binary operator over two constants makes. -/
def foldBinary? (info : Info) (op : BinaryOp) : Node → Node → Option Node
  | integer _ a, integer _ b => (op.compute? a b).map (integer info)
  | real _ a, real _ b => some (real info (op.applyReal a b))
  | _, _ => none

/-- The constant that a sign in front of a constant makes. -/
def foldUnary? (info : Info) (op : UnaryOp) : Node → Option Node
  | integer _ a => some (integer info (op.apply a))
  | real _ a => some (real info (op.applyReal a))
  | _ => none

mutual
/-- Fold every constant expression of a tree. -/
def fold : Node → Node
  | empty info => empty info
  | program info functions => program info (foldAll functions)
  | function info returnType name parameters body =>
      function info returnType name parameters body.fold
  | parameter info ty name => parameter info ty name
  | call info callee arguments => call info callee (foldAll arguments)
  | returnValue info value => returnValue info value.fold
  | block info declarations statements => block info declarations (foldAll statements)
  | declaration info ty name => declaration info ty name
  | assignment info target value => assignment info target value.fold
  | ifThen info condition consequent => ifThen info condition.fold consequent.fold
  | ifElse info condition consequent alternative =>
      ifElse info condition.fold consequent.fold alternative.fold
  | binary info op lhs rhs =>
      let l := lhs.fold
      let r := rhs.fold
      (foldBinary? info op l r).getD (binary info op l r)
  | unary info op operand =>
      let x := operand.fold
      (foldUnary? info op x).getD (unary info op x)
  | identifier info name => identifier info name
  | integer info value => integer info value
  | real info value => real info value
def foldAll : List Node → List Node
  | [] => []
  | node :: nodes => node.fold :: foldAll nodes
end

mutual
/-- What folding reports: each operator that it replaces, with its operands as they are by then. -/
def foldEvents : Node → List Event
  | empty _ => []
  | program _ functions => foldAllEvents functions
  | function _ _ _ _ body => body.foldEvents
  | parameter .. => []
  | call _ _ arguments => foldAllEvents arguments
  | returnValue _ value => value.foldEvents
  | block _ _ statements => foldAllEvents statements
  | declaration .. => []
  | assignment _ _ value => value.foldEvents
  | ifThen _ condition consequent => condition.foldEvents ++ consequent.foldEvents
  | ifElse _ condition consequent alternative =>
      condition.foldEvents ++ consequent.foldEvents ++ alternative.foldEvents
  | binary info op lhs rhs =>
      let l := lhs.fold
      let r := rhs.fold
      lhs.foldEvents ++ rhs.foldEvents ++
        if (foldBinary? info op l r).isSome then [.foldedBinary op l r info.pos] else []
  | unary info op operand =>
      let x := operand.fold
      operand.foldEvents ++
        if (foldUnary? info op x).isSome then [.foldedUnary op x info.pos] else []
  | identifier .. => []
  | integer .. => []
  | real .. => []
def foldAllEvents : List Node → List Event
  | [] => []
  | node :: nodes => node.foldEvents ++ foldAllEvents nodes
end

end MiniC.Node
