import MiniC.Operator
import MiniC.Symbol.Basic
import MiniC.Text

/-!
# Quadruples

Flat instructions of an opcode, two operands and a result, each operand and the result optional.

A quadruple also keeps the scope that its names are looked up in, so that later stages find the
parameter or variable meant.
-/

namespace MiniC

inductive Opcode where
  | load
  | assign
  | plus
  | minus
  | mult
  | div
  | uplus
  | uminus
  | param
  | call
  | ret
  | label
  | jump
  | jumpIfNot
deriving DecidableEq, Repr, Inhabited

namespace Opcode

def name : Opcode → String
  | load => "q_load"
  | assign => "q_assign"
  | plus => "q_plus"
  | minus => "q_minus"
  | mult => "q_mult"
  | div => "q_div"
  | uplus => "q_uplus"
  | uminus => "q_uminus"
  | param => "q_param"
  | call => "q_call"
  | ret => "q_return"
  | label => "q_label"
  | jump => "q_jmp"
  | jumpIfNot => "q_jmpifnot"

def ofBinary : BinaryOp → Opcode
  | .add => plus
  | .sub => minus
  | .mul => mult
  | .div => div

def ofUnary : UnaryOp → Opcode
  | .plus => uplus
  | .minus => uminus

end Opcode

/-- A jump target. All functions of a compilation share one numbering. -/
structure Label where
  index : Nat
deriving DecidableEq, Repr, Inhabited

def Label.text (label : Label) : String :=
  "label" ++ toString label.index

inductive Operand where
  /-- A parameter, variable, temporary or function. -/
  | name (text : String)
  | constant (value : Int32)
  | label (target : Label)
  /-- How many arguments a call takes. -/
  | count (arguments : Nat)
deriving DecidableEq, Repr, Inhabited

def Operand.text : Operand → String
  | name text => text
  | constant value => toString value.toInt
  | label target => target.text
  | count arguments => toString arguments

inductive Field where
  | operand1
  | operand2
  | result
deriving DecidableEq, Repr, Inhabited

def Field.text : Field → String
  | operand1 => "operand 1"
  | operand2 => "operand 2"
  | result => "result"

/-- What an instruction wants to find in a field. -/
inductive OperandSort where
  | name
  | label
  | constant
  | count
deriving DecidableEq, Repr, Inhabited

def OperandSort.text : OperandSort → String
  | name => "a name"
  | label => "a label"
  | constant => "a constant"
  | count => "an argument count"

structure Quad where
  op : Opcode
  operand1 : Option Operand
  operand2 : Option Operand
  result : Option Operand
  scope : ScopeId
deriving DecidableEq, Repr, Inhabited

namespace Quad

def field? (quad : Quad) : Field → Option Operand
  | .operand1 => quad.operand1
  | .operand2 => quad.operand2
  | .result => quad.result

/-- Width of a column of the written form. -/
def columnWidth : Nat := 10

def fieldText : Option Operand → String
  | some operand => operand.text
  | none => "-"

/-- Four columns; a field that is absent shows as `-`. -/
def text (quad : Quad) : String :=
  Text.padRight columnWidth quad.op.name ++ Text.padRight columnWidth (fieldText quad.operand1)
    ++ Text.padRight columnWidth (fieldText quad.operand2)
    ++ Text.padRight columnWidth (fieldText quad.result)

end Quad

structure FunctionCode where
  name : String
  body : Array Quad
deriving DecidableEq, Repr, Inhabited

/-- The quadruples of every function, in the order of definition. -/
structure Code where
  functions : List FunctionCode
deriving DecidableEq, Repr, Inhabited

namespace Code

def empty : Code := ⟨[]⟩

/-- The body of the first function of that name. -/
def body? (code : Code) (name : String) : Option (Array Quad) :=
  (code.functions.find? (·.name = name)).map (·.body)

/-- Number of quadruples of all functions. -/
def size (code : Code) : Nat :=
  code.functions.foldr (fun function total => function.body.size + total) 0

def text (code : Code) : String :=
  String.join (code.functions.map fun function =>
    function.name ++ ":\n" ++ String.join (function.body.toList.map fun quad =>
      "\t" ++ quad.text ++ "\n"))

end Code
end MiniC
