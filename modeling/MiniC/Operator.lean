/-!
# Operators

The operators of expressions and what they compute on integers.

Integers are 32-bit words. Sums, differences, products and negations keep the low 32 bits; a
quotient is cut off toward zero, and there is none where the machine would trap.
-/

namespace MiniC

inductive BinaryOp where
  | add
  | sub
  | mul
  | div
deriving DecidableEq, Repr, Inhabited

inductive UnaryOp where
  | plus
  | minus
deriving DecidableEq, Repr, Inhabited

namespace BinaryOp

def symbol : BinaryOp → String
  | add => "+"
  | sub => "-"
  | mul => "*"
  | div => "/"

def ofSymbol? (symbol : String) : Option BinaryOp :=
  if symbol = "+" then some add
  else if symbol = "-" then some sub
  else if symbol = "*" then some mul
  else if symbol = "/" then some div
  else none

/-- The operators that bind loosely, `+` and `-`. -/
def ofSumSymbol? (symbol : String) : Option BinaryOp :=
  if symbol = "+" then some add else if symbol = "-" then some sub else none

/-- The operators that bind tightly, `*` and `/`. -/
def ofProductSymbol? (symbol : String) : Option BinaryOp :=
  if symbol = "*" then some mul else if symbol = "/" then some div else none

/-- The value of `a op b`. There is no quotient by zero, and none of the least word by `-1`,
which exceeds the greatest word. -/
def compute? (op : BinaryOp) (a b : Int32) : Option Int32 :=
  match op with
  | add => some (a + b)
  | sub => some (a - b)
  | mul => some (a * b)
  | div => if b = 0 ∨ (a = Int32.minValue ∧ b = -1) then none else some (a / b)

/-- The value of `a op b` on reals, which is always defined. -/
def applyReal (op : BinaryOp) (a b : Float) : Float :=
  match op with
  | add => a + b
  | sub => a - b
  | mul => a * b
  | div => a / b

theorem ofSymbol?_symbol (op : BinaryOp) : ofSymbol? op.symbol = some op := by
  cases op <;> decide

end BinaryOp

namespace UnaryOp

def symbol : UnaryOp → String
  | plus => "+"
  | minus => "-"

def ofSymbol? (symbol : String) : Option UnaryOp :=
  if symbol = "+" then some plus else if symbol = "-" then some minus else none

def apply (op : UnaryOp) (a : Int32) : Int32 :=
  match op with
  | plus => a
  | minus => -a

def applyReal (op : UnaryOp) (a : Float) : Float :=
  match op with
  | plus => a
  | minus => -a

theorem ofSymbol?_symbol (op : UnaryOp) : ofSymbol? op.symbol = some op := by
  cases op <;> decide

end UnaryOp
end MiniC
