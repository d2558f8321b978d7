import MiniC.Event
import MiniC.Symbol.Table
import MiniC.Tree.Shape

/-!
# Drawings

Drawings of syntax trees and of scopes, as documents for Graphviz.
-/

namespace MiniC

namespace Drawing

/-- A character of a label inside its quotes. -/
def escapeChar : Char → List Char
  | '"' => ['\\', '"']
  | '\\' => ['\\', '\\']
  | '\n' => ['\\', 'n']
  | c => [c]

/-- A label as it stands between its quotes: on one line, and ended by no quote of its own. -/
def escape (label : String) : String :=
  String.ofList (label.toList.flatMap escapeChar)

def vertexName (id : Nat) : String := "node" ++ toString id

def strokeText : Stroke String → String
  | .vertex id label => "  " ++ vertexName id ++ " [label=\"" ++ escape label ++ "\"];\n"
  | .edge source target => "  " ++ vertexName source ++ " -> " ++ vertexName target ++ ";\n"

/-- A document of that name. -/
def document (name : String) (strokes : List (Stroke String)) : String :=
  "digraph " ++ name ++ " \x7b\n" ++ String.join (strokes.map strokeText) ++ "\x7d\n"

end Drawing

/-- The same stroke with another label. -/
def Stroke.map {α β : Type} (f : α → β) : Stroke α → Stroke β
  | .vertex id label => .vertex id (f label)
  | .edge source target => .edge source target

namespace Node

/-- What a drawing tells about a node below its kind. -/
def caption? : Node → Option String
  | function _ returnType name _ _ => some (returnType.name ++ " " ++ name)
  | parameter _ ty name => some (ty.name ++ " " ++ name)
  | declaration _ ty name => some (ty.name ++ " " ++ name)
  | assignment _ target _ => some (target ++ " =")
  | binary _ op _ _ => some op.symbol
  | unary _ op _ => some op.symbol
  | identifier _ name => some name
  | integer _ value => some (toString value.toInt)
  | real _ value => some (Decimal.realText value)
  | _ => none

/-- The label of a node: its kind, and its caption on a second line. -/
def label (node : Node) : String :=
  match node.caption? with
  | some caption => node.kind.name ++ "\n" ++ caption
  | none => node.kind.name

/-- The drawing of a tree. -/
def drawing (node : Node) : String :=
  Drawing.document "SyntaxTree" (node.shape.strokes.map (Stroke.map label))

end Node

namespace Table

/-- The label of a scope: its level, and below it its symbols. -/
def scopeLabel (table : Table) (scope : Scope) (iteration : Iteration := .stored) : String :=
  "\n".intercalate (("L" ++ toString scope.level) :: table.symbolTexts scope iteration)

/-- The vertex of a scope. -/
def scopeVertex (table : Table) (iteration : Iteration) (id : ScopeId) : List (Stroke String) :=
  ((table.scopes[id]?).map fun scope => .vertex id (table.scopeLabel scope iteration)).toList

/-- The strokes of a scope and of all scopes inside, at most `depth` levels deep. An edge to a scope
inside goes before the strokes of that scope. -/
def strokesWithin (table : Table) (iteration : Iteration) :
    (depth : Nat) → ScopeId → List (Stroke String)
  | 0, scope => table.scopeVertex iteration scope
  | depth + 1, scope =>
      table.scopeVertex iteration scope ++ (table.innerOf scope).flatMap fun inner =>
        .edge scope inner :: table.strokesWithin iteration depth inner

/-- The drawing of all scopes. Scopes nest less deep than there are scopes. -/
def drawing (table : Table) (iteration : Iteration := .stored) : String :=
  Drawing.document "SymbolTable" (table.strokesWithin iteration table.scopes.size global)

end Table
end MiniC
