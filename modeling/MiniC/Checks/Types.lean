import MiniC.Checks.Declarations

/-!
# The check of types

Both operands of an operator have the same type, and so have a value and the place it goes to, be it
a variable, a parameter or the result of a function. Nothing is converted.
-/

namespace MiniC.Node

/-- The type of a value that must be stored under a name. -/
def storedType (node : Node) (name : String) (symbol : Symbol) : Except Error Ty :=
  match symbol.valueType? with
  | some ty => .ok ty
  | none => .error (.semantic node.pos (.notAVariable name))

/-- The signature that a call at `pos` goes by: the name of the callee, its result and its
parameters. -/
def signature (table : Table) (pos : Position) :
    Node → Except Error (String × Ty × List SymbolId)
  | identifier info name => do
      let symbol ← (identifier info name).symbolAt table name
      match symbol with
      | .function _ returnType parameters _ _ => return (name, returnType, parameters.toList)
      | _ => .error (.semantic pos (.notAFunction name))
  | _ => .error (.internal .calleeNotIdentifier)

/-- Where an expression is required, a node without a type is a mistake of the compiler. -/
def required (node : Node) : Option Ty → Except Error Ty
  | some ty => .ok ty
  | none => .error (.internal (.noType node.kind))

mutual
/-- The type of an expression, and none for any other node that is well typed. `result` is the type
that the function around the node returns. -/
def typeOf (table : Table) (result : Option Ty) : Node → Except Error (Option Ty)
  | empty _ => .ok none
  | program _ functions => do
      checkTypesAll table result functions
      return none
  | function _ returnType _ parameters body => do
      checkTypesAll table (some returnType) parameters
      let _ ← body.typeOf table (some returnType)
      return none
  | parameter .. => .ok none
  | call info callee arguments => do
      let (name, returnType, parameters) ← signature table info.pos callee
      if arguments.length ≠ parameters.length then
        .error (.semantic info.pos (.argumentCount name parameters.length arguments.length))
      checkArguments table result name 1 parameters arguments
      return some returnType
  | returnValue info value => do
      let actual ← required value (← value.typeOf table result)
      match result with
      | none => .error (.internal .returnOutsideFunction)
      | some expected =>
          if actual ≠ expected then
            .error (.semantic info.pos (.returnMismatch actual expected))
          return none
  | block _ declarations statements => do
      checkTypesAll table result declarations
      checkTypesAll table result statements
      return none
  | declaration .. => .ok none
  | assignment info target value => do
      let symbol ← (assignment info target value).symbolAt table target
      let expected ← (assignment info target value).storedType target symbol
      let actual ← required value (← value.typeOf table result)
      if actual ≠ expected then
        .error (.semantic info.pos (.assignmentMismatch target actual expected))
      return none
  | ifThen _ condition consequent => do
      let _ ← required condition (← condition.typeOf table result)
      let _ ← consequent.typeOf table result
      return none
  | ifElse _ condition consequent alternative => do
      let _ ← required condition (← condition.typeOf table result)
      let _ ← consequent.typeOf table result
      let _ ← alternative.typeOf table result
      return none
  | binary info op lhs rhs => do
      let left ← required lhs (← lhs.typeOf table result)
      let right ← required rhs (← rhs.typeOf table result)
      if left ≠ right then
        .error (.semantic info.pos (.operandMismatch op left right))
      return some left
  | unary _ _ operand => do
      let ty ← required operand (← operand.typeOf table result)
      return some ty
  | identifier info name => do
      let symbol ← (identifier info name).symbolAt table name
      let ty ← (identifier info name).storedType name symbol
      return some ty
  | integer .. => .ok (some .int)
  | real .. => .ok (some .double)
/-- Check nodes from left to right. -/
def checkTypesAll (table : Table) (result : Option Ty) : List Node → Except Error Unit
  | [] => .ok ()
  | node :: nodes => do
      let _ ← node.typeOf table result
      checkTypesAll table result nodes
/-- Check the arguments of a call of `name` against the parameters, the first of them being argument
number `position`. -/
def checkArguments (table : Table) (result : Option Ty) (name : String) (position : Nat) :
    List SymbolId → List Node → Except Error Unit
  | input :: inputs, argument :: arguments => do
      let actual ← required argument (← argument.typeOf table result)
      let expected := (table.symbols[input]?).bind (·.valueType?)
      if some actual ≠ expected then
        .error (.semantic argument.pos (.argumentMismatch name position actual expected))
      checkArguments table result name (position + 1) inputs arguments
  | _, _ => .ok ()
end

/-- Check the types of a whole tree. -/
def checkTypes (node : Node) (table : Table) : Except Error Unit := do
  let _ ← node.typeOf table none
  return ()

/-- The check of names and then the check of types. -/
def analyze (node : Node) (table : Table) : Except Error Unit := do
  node.checkDeclarations table
  node.checkTypes table

end MiniC.Node
