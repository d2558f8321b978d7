import MiniC.Event
import MiniC.Resolution

/-!
# Lowering syntax trees to quadruples

The code of a node is the code of its parts, put together, so it is returned and never patched. An
expression is lowered to code and the name that holds its value afterwards: a variable is its own
name, and every other value goes into a fresh temporary, which is defined in the scope of the
function as one of its variables. A function ends with the label that its returns jump to.

Only integers are lowered. A lowering that fails leaves the temporaries defined so far in the table.
-/

namespace MiniC

/-- What changes while functions are lowered: the table, and the numbers of the next temporary and
the next label, which run on from one function to the next. -/
structure Lowering where
  table : Table
  temporaries : Nat
  labels : Nat

/-- The function being lowered. -/
structure Frame where
  symbol : SymbolId
  scope : ScopeId
  exit : Label
deriving DecidableEq, Repr

/-- A step of lowering. Its effect stays when it fails. -/
abbrev Lower (α : Type) : Type := EStateM Error Lowering α

namespace Lower

/-- Fail as `result` does, or go on with its value. -/
def require {α : Type} (result : Except Error α) : Lower α := fun state =>
  match result with
  | .ok value => .ok value state
  | .error error => .error error state

def freshLabel : Lower Label := fun state =>
  .ok ⟨state.labels⟩ { state with labels := state.labels + 1 }

/-- Name of the temporary with number `n`. No identifier has a dollar sign. -/
def temporaryName (n : Nat) : String := "$" ++ toString n

/-- Define the next temporary as a variable of the function. -/
def freshTemporary (frame : Frame) : Lower String := fun state =>
  let name := temporaryName state.temporaries
  let state := { state with temporaries := state.temporaries + 1 }
  match (Table.Update.defineVariable frame.scope frame.symbol name .int).run state.table with
  | .ok _ table => .ok name { state with table }
  | .error error table => .error error { state with table }

end Lower

namespace Quad

/-- `result := value` -/
def load (value : Int32) (result : String) (scope : ScopeId) : Quad :=
  ⟨.load, some (.constant value), none, some (.name result), scope⟩

/-- `target := source` -/
def assign (source target : String) (scope : ScopeId) : Quad :=
  ⟨.assign, some (.name source), none, some (.name target), scope⟩

def binary (op : BinaryOp) (lhs rhs result : String) (scope : ScopeId) : Quad :=
  ⟨.ofBinary op, some (.name lhs), some (.name rhs), some (.name result), scope⟩

def unary (op : UnaryOp) (operand result : String) (scope : ScopeId) : Quad :=
  ⟨.ofUnary op, some (.name operand), none, some (.name result), scope⟩

/-- Push an argument. -/
def param (value : String) (scope : ScopeId) : Quad :=
  ⟨.param, some (.name value), none, none, scope⟩

/-- Call with the `arguments` values pushed last. -/
def call (callee : String) (arguments : Nat) (result : String) (scope : ScopeId) : Quad :=
  ⟨.call, some (.name callee), some (.count arguments), some (.name result), scope⟩

/-- Set the result of the function and leave it by its exit. -/
def ret (exit : Label) (value : String) (scope : ScopeId) : Quad :=
  ⟨.ret, some (.label exit), some (.name value), none, scope⟩

def mark (label : Label) (scope : ScopeId) : Quad :=
  ⟨.label, some (.label label), none, none, scope⟩

def jump (label : Label) (scope : ScopeId) : Quad :=
  ⟨.jump, some (.label label), none, none, scope⟩

/-- Jump if the condition is zero. -/
def jumpIfNot (condition : String) (label : Label) (scope : ScopeId) : Quad :=
  ⟨.jumpIfNot, some (.name condition), some (.label label), none, scope⟩

end Quad

namespace Node

open Lower

mutual
/-- Code that computes an expression, and the name that holds its value afterwards. -/
def lowerValue (frame : Frame) : Node → Lower (List Quad × String)
  | identifier info name => do
      let _ ← require (identifier info name).scopeOf
      return ([], name)
  | integer info value => do
      let scope ← require (integer info value).scopeOf
      let result ← freshTemporary frame
      return ([.load value result scope], result)
  | real info value => do
      let _ ← require (real info value).scopeOf
      throw (.unsupported (.realConstant value info.pos))
  | binary info op lhs rhs => do
      let scope ← require (binary info op lhs rhs).scopeOf
      let (first, l) ← lhs.lowerValue frame
      let (second, r) ← rhs.lowerValue frame
      let result ← freshTemporary frame
      return (first ++ (second ++ [.binary op l r result scope]), result)
  | unary info op operand => do
      let scope ← require (unary info op operand).scopeOf
      let (code, x) ← operand.lowerValue frame
      let result ← freshTemporary frame
      return (code ++ [.unary op x result scope], result)
  | call info callee arguments => do
      let scope ← require (call info callee arguments).scopeOf
      match callee with
      | identifier _ name => do
          let (code, values) ← lowerValues frame arguments
          let result ← freshTemporary frame
          -- The first argument is pushed last, so that it lies next to the frame of the callee.
          let pushes := values.reverse.map (Quad.param · scope)
          return (code ++ (pushes ++ [.call name values.length result scope]), result)
      | _ => throw (.internal (.calleeWithoutName info.pos))
  | node => do
      let _ ← require node.scopeOf
      throw (.internal (.notAnExpression node.kind node.pos))
/-- Code that computes expressions from left to right, and the names of their values. -/
def lowerValues (frame : Frame) : List Node → Lower (List Quad × List String)
  | [] => return ([], [])
  | node :: nodes => do
      let (first, value) ← node.lowerValue frame
      let (second, values) ← lowerValues frame nodes
      return (first ++ second, value :: values)
end

/-- A block is lowered only if all its variables are integers. -/
def requireIntVariables : List Node → Except Error Unit
  | [] => .ok ()
  | declaration _ ty name :: nodes =>
      if ty.isInteger then requireIntVariables nodes
      else .error (.unsupported (.variableType name ty))
  | _ :: nodes => requireIntVariables nodes

/-- A function is lowered only if all its parameters are integers. -/
def requireIntParameters : List Node → Except Error Unit
  | [] => .ok ()
  | parameter _ ty name :: nodes =>
      if ty.isInteger then requireIntParameters nodes
      else .error (.unsupported (.parameterType name ty))
  | _ :: nodes => requireIntParameters nodes

mutual
/-- Code of a statement. -/
def lowerStatement (frame : Frame) : Node → Lower (List Quad)
  | empty info => do
      let _ ← require (empty info).scopeOf
      return []
  | block info declarations statements => do
      let _ ← require (block info declarations statements).scopeOf
      require (requireIntVariables declarations)
      lowerStatements frame statements
  | returnValue info value => do
      let scope ← require (returnValue info value).scopeOf
      let (code, result) ← value.lowerValue frame
      return code ++ [.ret frame.exit result scope]
  | assignment info target value => do
      let scope ← require (assignment info target value).scopeOf
      let (code, result) ← value.lowerValue frame
      return code ++ [.assign result target scope]
  | ifThen info condition consequent => do
      let scope ← require (ifThen info condition consequent).scopeOf
      let (test, result) ← condition.lowerValue frame
      let otherwise ← freshLabel
      let positive ← consequent.lowerStatement frame
      return test ++ .jumpIfNot result otherwise scope :: (positive ++ [.mark otherwise scope])
  | ifElse info condition consequent alternative => do
      let scope ← require (ifElse info condition consequent alternative).scopeOf
      let (test, result) ← condition.lowerValue frame
      let otherwise ← freshLabel
      let positive ← consequent.lowerStatement frame
      let done ← freshLabel
      let negative ← alternative.lowerStatement frame
      return test ++ .jumpIfNot result otherwise scope ::
        (positive ++ .jump done scope :: .mark otherwise scope ::
          (negative ++ [.mark done scope]))
  | node => do
      let _ ← require node.scopeOf
      throw (.internal (.notAStatement node.kind node.pos))
/-- Code of statements one after the other. -/
def lowerStatements (frame : Frame) : List Node → Lower (List Quad)
  | [] => return []
  | node :: nodes => do
      let first ← node.lowerStatement frame
      let second ← lowerStatements frame nodes
      return first ++ second
end

/-- The symbol of a function, looked up by its name in the global scope. -/
def functionSymbol (table : Table) (name : String) : Except Error SymbolId :=
  match table.lookupLocal Table.global name with
  | some id => .ok id
  | none => .error (.internal (.functionNotGlobal name))

/-- Code of a function: that of its body, and the exit. -/
def lowerFunction : Node → Lower FunctionCode
  | function info returnType name parameters body => do
      if !returnType.isInteger then
        throw (.unsupported (.returnType name returnType))
      let symbol ← require (functionSymbol (← get).table name)
      let scope ← require (function info returnType name parameters body).scopeOf
      let exit ← freshLabel
      require (requireIntParameters parameters)
      let code ← body.lowerStatement ⟨symbol, scope, exit⟩
      return ⟨name, (code ++ [Quad.mark exit scope]).toArray⟩
  | node => throw (.internal (.expectedFunction node.kind))

/-- Code of functions one after the other, and what they leave behind. -/
def lowerFunctions : List Node → Lowering → Lowering × Traced (List FunctionCode)
  | [], state => (state, return [])
  | node :: nodes, state =>
      match node.lowerFunction state with
      | .error error state => (state, .ofExcept (.error error))
      | .ok code state =>
          let (state, later) := lowerFunctions nodes state
          (state, do
            .report (.lowered code.name code.body.size)
            return code :: (← later))

/-- The code of a whole program, and its table with the temporaries. -/
def lower (node : Node) (table : Table) : Table × Traced Code :=
  match node with
  | program _ functions =>
      let (state, traced) := lowerFunctions functions ⟨table, 0, 0⟩
      (state.table, do return ⟨← traced⟩)
  | node => (table, .ofExcept (.error (.internal (.expectedProgram node.kind))))

end Node
end MiniC
