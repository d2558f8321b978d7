import MiniC.Ty

/-!
# Symbols

A symbol is what a name stands for. Scopes and symbols are numbered in the order of their creation,
and a parameter or variable knows its slot in the frame of its function.
-/

namespace MiniC

abbrev ScopeId := Nat
abbrev SymbolId := Nat

inductive SymbolKind where
  | builtinType
  | function
  | parameter
  | localVariable
deriving DecidableEq, Repr, Inhabited

def SymbolKind.name : SymbolKind → String
  | builtinType => "BuiltinType"
  | function => "Function"
  | parameter => "Parameter"
  | localVariable => "Variable"

inductive Symbol where
  | builtinType (ty : Ty)
  /-- `ordinal` is the number of functions defined before this one. -/
  | function (name : String) (returnType : Ty) (parameters locals : Array SymbolId)
      (ordinal : Nat)
  | parameter (name : String) (ty : Ty) (index : Nat)
  | localVariable (name : String) (ty : Ty) (index : Nat)
deriving DecidableEq, Repr, Inhabited

/-- A storage location of an activation: the parameters and the variables of its function are
numbered separately. -/
inductive Slot where
  | parameter (index : Nat)
  | localVariable (index : Nat)
deriving DecidableEq, Repr, Inhabited

namespace Symbol

def name : Symbol → String
  | builtinType ty => ty.name
  | function name .. => name
  | parameter name .. => name
  | localVariable name .. => name

def kind : Symbol → SymbolKind
  | builtinType _ => .builtinType
  | function .. => .function
  | parameter .. => .parameter
  | localVariable .. => .localVariable

/-- The type of the value stored under the name; only parameters and variables store one. -/
def valueType? : Symbol → Option Ty
  | parameter _ ty _ => some ty
  | localVariable _ ty _ => some ty
  | _ => none

/-- Where the value is stored; only parameters and variables have a slot. -/
def slot? : Symbol → Option Slot
  | parameter _ _ index => some (.parameter index)
  | localVariable _ _ index => some (.localVariable index)
  | _ => none

def text : Symbol → String
  | builtinType ty => "BuiltinType<" ++ ty.name ++ ">"
  | function name returnType .. => "Function<" ++ name ++ ": " ++ returnType.name ++ ">"
  | parameter name ty index =>
      "Parameter<" ++ name ++ ": " ++ ty.name ++ " #" ++ toString index ++ ">"
  | localVariable name ty index =>
      "Variable<" ++ name ++ ": " ++ ty.name ++ " #" ++ toString index ++ ">"

theorem isSome_slot? (symbol : Symbol) : symbol.slot?.isSome = symbol.valueType?.isSome := by
  cases symbol <;> rfl

end Symbol
end MiniC
