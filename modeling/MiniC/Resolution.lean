import MiniC.Symbol.Table

/-!
# Attaching scopes to a syntax tree and building its symbol table

One visit of all nodes in source order. A function and a block open a scope inside the current one
and are attached the scope that they open; every other node is attached the current scope. The name
of a function goes into the scope around it before its body is entered, so that it can call itself.

The current scope and the function around it change when a function or a block is entered, and are
put back when it is left. A visit that fails puts nothing back. It leaves the nodes it has reached
with their new scopes and all others as they were.
-/

namespace MiniC

/-- What changes during a visit: the table, the scope to look names up in, and the function around
the node. -/
structure Resolver where
  table : Table
  current : ScopeId
  function : Option SymbolId

namespace Resolver

/-- A step of a visit. Its effect stays when it fails. -/
abbrev Step (α : Type) : Type := EStateM Error Resolver α

/-- Do something with the table. -/
def onTable {α : Type} (call : Table.Update α) : Step α := fun resolver =>
  match call.run resolver.table with
  | .ok a table => .ok a { resolver with table }
  | .error error table => .error error { resolver with table }

theorem run_onTable {α : Type} (call : Table.Update α) (resolver : Resolver) :
    (onTable call).run resolver =
      match call.run resolver.table with
      | .ok a table => .ok a { resolver with table }
      | .error error table => .error error { resolver with table } := rfl

/-- A name may be defined only once in a scope. -/
def ensureNew (name : String) (token : Token) : Step Unit := fun resolver =>
  if (resolver.table.lookupLocal resolver.current name).isSome then
    .error (.semantic token.pos (.redefinition name)) resolver
  else .ok () resolver

/-- Parameters and variables belong to the function around them. -/
def enclosingFunction (token : Token) : Step SymbolId := fun resolver =>
  match resolver.function with
  | some function => .ok function resolver
  | none => .error (.internal (.declaredOutsideFunction token)) resolver

/-- Open a scope inside the current one. -/
def openScope (resolver : Resolver) : ScopeId × Resolver :=
  (resolver.table.scopes.size,
    { resolver with table := resolver.table.openScope resolver.current })

/-- Enter the name of a function and open the scope of its parameters. -/
def enterFunction (token : Token) (name : String) (returnType : Ty) :
    Step (SymbolId × ScopeId) := do
  ensureNew name token
  let function ← onTable (.defineFunction (← get).current name returnType)
  let scope ← modifyGet openScope
  return (function, scope)

/-- Define something in the current scope that belongs to the function around it. -/
def declare (token : Token) (name : String)
    (define : ScopeId → (function : SymbolId) → Table.Update SymbolId) : Step Unit := do
  ensureNew name token
  let function ← enclosingFunction token
  let _ ← onTable (define (← get).current function)

def declareParameter (token : Token) (name : String) (ty : Ty) : Step Unit :=
  declare token name (.defineParameter · · name ty)

def declareVariable (token : Token) (name : String) (ty : Ty) : Step Unit :=
  declare token name (.defineVariable · · name ty)

end Resolver

/-- A visit of a part of the tree. It gives that part afterwards, and the resolver, also when it
fails. -/
abbrev Visit (α : Type) : Type := Resolver → α × EStateM.Result Error Resolver Unit

namespace Visit

variable {α β : Type}

/-- Visit `first` and then `second`; if `first` fails, `second` stays as it was. -/
def andThen (first : Visit α) (second : Visit β) (unvisited : β) : Visit (α × β) := fun resolver =>
  match first resolver with
  | (a, .error error resolver) => ((a, unvisited), .error error resolver)
  | (a, .ok () resolver) =>
      match second resolver with
      | (b, result) => ((a, b), result)

def map (f : α → β) (visit : Visit α) : Visit β := fun resolver =>
  match visit resolver with
  | (a, result) => (f a, result)

/-- Make `scope` the current one for a visit, and put the former one back after it. -/
def inScope (scope : ScopeId) (visit : Visit α) : Visit α := fun outer =>
  match visit { outer with current := scope } with
  | (a, .ok () inner) => (a, .ok () { inner with current := outer.current })
  | (a, .error error inner) => (a, .error error inner)

/-- Make `function` the one around a visit, and put the former one back after it. -/
def inFunction (function : SymbolId) (visit : Visit α) : Visit α := fun outer =>
  match visit { outer with function := some function } with
  | (a, .ok () inner) => (a, .ok () { inner with function := outer.function })
  | (a, .error error inner) => (a, .error error inner)

end Visit

/-- A part of the tree after it was visited, and the table or the failure. -/
abbrev Walked (α : Type) : Type := α × Except Error Table

/-- The same node in another scope. -/
def Resolution.attach (info : Info) (scope : ScopeId) : Info :=
  { info with scope := some scope }

namespace Node

open Resolution Resolver

mutual
/-- Visit a node. -/
def visit : Node → Visit Node
  | empty info => fun resolver => (empty (attach info resolver.current), .ok () resolver)
  | program info functions => fun resolver =>
      (visitAll functions).map (program (attach info resolver.current)) resolver
  | function info returnType name parameters body => fun resolver =>
      match (enterFunction info.token name returnType).run resolver with
      | .error error entered =>
          (function (attach info resolver.current) returnType name parameters body,
            .error error entered)
      | .ok (id, scope) entered =>
          ((((visitAll parameters).andThen body.visit body).inFunction id).inScope scope).map
            (fun (ps, b) => function (attach info scope) returnType name ps b) entered
  | parameter info ty name => fun resolver =>
      (parameter (attach info resolver.current) ty name,
        (declareParameter info.token name ty).run resolver)
  | call info callee arguments => fun resolver =>
      (callee.visit.andThen (visitAll arguments) arguments).map
        (fun (c, args) => call (attach info resolver.current) c args) resolver
  | returnValue info value => fun resolver =>
      value.visit.map (returnValue (attach info resolver.current)) resolver
  | block info declarations statements => fun resolver =>
      let (scope, entered) := resolver.openScope
      (((visitAll declarations).andThen (visitAll statements) statements).inScope scope).map
        (fun (ds, ss) => block (attach info scope) ds ss) entered
  | declaration info ty name => fun resolver =>
      (declaration (attach info resolver.current) ty name,
        (declareVariable info.token name ty).run resolver)
  | assignment info target value => fun resolver =>
      value.visit.map (assignment (attach info resolver.current) target) resolver
  | ifThen info condition consequent => fun resolver =>
      (condition.visit.andThen consequent.visit consequent).map
        (fun (c, s) => ifThen (attach info resolver.current) c s) resolver
  | ifElse info condition consequent alternative => fun resolver =>
      ((condition.visit.andThen consequent.visit consequent).andThen alternative.visit
        alternative).map
        (fun ((c, s), a) => ifElse (attach info resolver.current) c s a) resolver
  | binary info op lhs rhs => fun resolver =>
      (lhs.visit.andThen rhs.visit rhs).map
        (fun (l, r) => binary (attach info resolver.current) op l r) resolver
  | unary info op operand => fun resolver =>
      operand.visit.map (unary (attach info resolver.current) op) resolver
  | identifier info name => fun resolver =>
      (identifier (attach info resolver.current) name, .ok () resolver)
  | integer info value => fun resolver =>
      (integer (attach info resolver.current) value, .ok () resolver)
  | real info value => fun resolver => (real (attach info resolver.current) value, .ok () resolver)
/-- Visit nodes from left to right. -/
def visitAll : List Node → Visit (List Node)
  | [] => fun resolver => ([], .ok () resolver)
  | node :: nodes => (node.visit.andThen (visitAll nodes) nodes).map fun (n, ns) => n :: ns
end

/-- Attach scopes to a whole tree, starting from the initial table. -/
def resolve (node : Node) : Walked Node :=
  match node.visit ⟨.initial, Table.global, none⟩ with
  | (tree, .ok () resolver) => (tree, .ok resolver.table)
  | (tree, .error error _) => (tree, .error error)

/-- The scope attached to a node. -/
def scopeOf (node : Node) : Except Error ScopeId :=
  match node.scope with
  | some scope => .ok scope
  | none => .error (.internal (.noScope node.kind node.pos))

end Node
end MiniC
