import MiniC.Operator
import MiniC.Symbol.Basic
import MiniC.Token

/-!
# Syntax trees

Every node keeps the token that messages about it point at, and has room for the lexical scope it
belongs to. A tree may hold any node at any place: a program as the operand of a sum is a tree too,
and it is the later passes that turn it down.
-/

namespace MiniC

inductive NodeKind where
  | empty
  | program
  | function
  | parameter
  | call
  | returnValue
  | block
  | declaration
  | assignment
  | conditional
  | binary
  | unary
  | identifier
  | integer
  | real
deriving DecidableEq, Repr, Inhabited

/-- The name of a kind in messages and drawings. -/
def NodeKind.name : NodeKind → String
  | empty => "NoOperation"
  | program => "TranslationUnit"
  | function => "FunctionDefinition"
  | parameter => "Parameter"
  | call => "FunctionCall"
  | returnValue => "ReturnStatement"
  | block => "CompoundStatement"
  | declaration => "Declaration"
  | assignment => "Assignment"
  | conditional => "IfStatement"
  | binary => "BinaryOperator"
  | unary => "UnaryOperator"
  | identifier => "Identifier"
  | integer => "IntegerConstant"
  | real => "RealConstant"

/-- What every node carries: its token, and its scope once one is attached. -/
structure Info where
  token : Token
  scope : Option ScopeId
deriving DecidableEq, Repr, Inhabited

/-- A node that no scope is attached to yet. -/
def Info.ofToken (token : Token) : Info := ⟨token, none⟩

def Info.pos (info : Info) : Position := info.token.pos

inductive Node where
  | empty (info : Info)
  | program (info : Info) (functions : List Node)
  | function (info : Info) (returnType : Ty) (name : String) (parameters : List Node) (body : Node)
  | parameter (info : Info) (ty : Ty) (name : String)
  | call (info : Info) (callee : Node) (arguments : List Node)
  | returnValue (info : Info) (value : Node)
  | block (info : Info) (declarations statements : List Node)
  | declaration (info : Info) (ty : Ty) (name : String)
  | assignment (info : Info) (target : String) (value : Node)
  | ifThen (info : Info) (condition consequent : Node)
  | ifElse (info : Info) (condition consequent alternative : Node)
  | binary (info : Info) (op : BinaryOp) (lhs rhs : Node)
  | unary (info : Info) (op : UnaryOp) (operand : Node)
  | identifier (info : Info) (name : String)
  | integer (info : Info) (value : Int32)
  | real (info : Info) (value : Float)
deriving Inhabited

namespace Node

def info : Node → Info
  | empty info => info
  | program info _ => info
  | function info .. => info
  | parameter info .. => info
  | call info .. => info
  | returnValue info _ => info
  | block info .. => info
  | declaration info .. => info
  | assignment info .. => info
  | ifThen info .. => info
  | ifElse info .. => info
  | binary info .. => info
  | unary info .. => info
  | identifier info _ => info
  | integer info _ => info
  | real info _ => info

def kind : Node → NodeKind
  | empty _ => .empty
  | program .. => .program
  | function .. => .function
  | parameter .. => .parameter
  | call .. => .call
  | returnValue .. => .returnValue
  | block .. => .block
  | declaration .. => .declaration
  | assignment .. => .assignment
  | ifThen .. => .conditional
  | ifElse .. => .conditional
  | binary .. => .binary
  | unary .. => .unary
  | identifier .. => .identifier
  | integer .. => .integer
  | real .. => .real

def token (node : Node) : Token := node.info.token
def pos (node : Node) : Position := node.info.token.pos
def scope (node : Node) : Option ScopeId := node.info.scope

/-- Children in source order. -/
def children : Node → List Node
  | empty _ => []
  | program _ functions => functions
  | function _ _ _ parameters body => parameters ++ [body]
  | parameter .. => []
  | call _ callee arguments => callee :: arguments
  | returnValue _ value => [value]
  | block _ declarations statements => declarations ++ statements
  | declaration .. => []
  | assignment _ _ value => [value]
  | ifThen _ condition consequent => [condition, consequent]
  | ifElse _ condition consequent alternative => [condition, consequent, alternative]
  | binary _ _ lhs rhs => [lhs, rhs]
  | unary _ _ operand => [operand]
  | identifier .. => []
  | integer .. => []
  | real .. => []

end Node
end MiniC
