/-!
# Static types

Both types are built in; a program declares none.
-/

namespace MiniC

inductive Ty where
  | int
  | double
deriving DecidableEq, Repr, Inhabited

namespace Ty

def name : Ty → String
  | int => "int"
  | double => "double"

/-- The type that a type word names. -/
def ofSpecifier? (word : String) : Option Ty :=
  if word = "int" then some int
  else if word = "double" then some double
  else none

def isInteger : Ty → Bool
  | int => true
  | double => false

/-- Bytes that a value takes on the target. -/
def size : Ty → Nat
  | int => 4
  | double => 8

/-- Every type, in the order in which a fresh symbol table holds them. -/
def all : List Ty := [int, double]

theorem ofSpecifier?_name (ty : Ty) : ofSpecifier? ty.name = some ty := by
  cases ty <;> decide

end Ty
end MiniC
