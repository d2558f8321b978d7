import MiniC.Resolution

/-!
# The check of names

A program defines `main`, every name that it uses is declared, and no function calls one that is
defined after it.
-/

namespace MiniC.Node

/-- The function that a program starts with. -/
def entryPoint : String := "main"

/-- What `name` means at a node, at which it has to be declared. -/
def symbolAt (node : Node) (table : Table) (name : String) : Except Error Symbol := do
  let scope ← node.scopeOf
  match table.find? scope name with
  | some symbol => return symbol
  | none => .error (.semantic node.pos (.undeclared name))

/-- The name that is called must be declared, and it must not mean a function that is defined after
the current one. `current` is the ordinal of the current function. -/
def checkCallee (table : Table) (current : Option Nat) : Node → Except Error Unit
  | identifier info name => do
      let symbol ← (identifier info name).symbolAt table name
      match symbol, current with
      | .function _ _ _ _ ordinal, some current =>
          if current < ordinal then .error (.semantic info.pos (.calledBeforeDefinition name))
          else return ()
      | _, _ => return ()
  | _ => .ok ()

/-- The ordinal that the body of a function is checked with: that of the global function of its
name. -/
def enterOrdinal (table : Table) (name : String) (current : Option Nat) :
    Except Error (Option Nat) :=
  match table.findGlobal? name with
  | some (.function _ _ _ _ ordinal) => .ok (some ordinal)
  | some _ => .ok current
  | none => .error (.internal (.functionNotGlobal name))

mutual
/-- Check the names of a node inside a function of ordinal `current`, and answer the ordinal to go
on with behind it: none, once a function has ended. -/
def checkNames (table : Table) (current : Option Nat) : Node → Except Error (Option Nat)
  | empty _ => .ok current
  | program _ functions => checkNamesAll table current functions
  | function _ _ name parameters body => do
      let inside ← enterOrdinal table name current
      let inside ← checkNamesAll table inside parameters
      let _ ← body.checkNames table inside
      return none
  | parameter .. => .ok current
  | call _ callee arguments => do
      checkCallee table current callee
      let current ← callee.checkNames table current
      checkNamesAll table current arguments
  | returnValue _ value => value.checkNames table current
  | block _ declarations statements => do
      let current ← checkNamesAll table current declarations
      checkNamesAll table current statements
  | declaration .. => .ok current
  | assignment info target value => do
      let _ ← (assignment info target value).symbolAt table target
      value.checkNames table current
  | ifThen _ condition consequent => do
      let current ← condition.checkNames table current
      consequent.checkNames table current
  | ifElse _ condition consequent alternative => do
      let current ← condition.checkNames table current
      let current ← consequent.checkNames table current
      alternative.checkNames table current
  | binary _ _ lhs rhs => do
      let current ← lhs.checkNames table current
      rhs.checkNames table current
  | unary _ _ operand => operand.checkNames table current
  | identifier info name => do
      let _ ← (identifier info name).symbolAt table name
      return current
  | integer .. => .ok current
  | real .. => .ok current
/-- Check the names of nodes from left to right. -/
def checkNamesAll (table : Table) (current : Option Nat) : List Node → Except Error (Option Nat)
  | [] => .ok current
  | node :: nodes => do
      let current ← node.checkNames table current
      checkNamesAll table current nodes
end

/-- Whether a node defines the entry point. -/
def isMain : Node → Bool
  | function _ _ name _ _ => name = entryPoint
  | _ => false

/-- Check the names of a whole program. -/
def checkDeclarations (node : Node) (table : Table) : Except Error Unit :=
  match node with
  | program info functions =>
      if functions.any isMain then do
        let _ ← (program info functions).checkNames table none
        return ()
      else .error (.semantic info.pos .missingMain)
  | _ => .error (.internal .notAProgram)

end MiniC.Node
