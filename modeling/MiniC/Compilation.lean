import MiniC.Assembly.Emission
import MiniC.Checks.Types
import MiniC.Quad.Evaluation
import MiniC.Quad.Lowering
import MiniC.Tree.Folding
import MiniC.Tree.Parser
import MiniC.Tree.Shape

/-!
# Compilation

From source text to assembly, stage by stage. The first failure of a stage ends it.
-/

namespace MiniC

structure Options where
  /-- Above zero, constants are folded. -/
  level : Nat := 0
  /-- The name that the listing gives its source. -/
  fileName : String := "a.c"
deriving DecidableEq, Repr, Inhabited

/-- A tree with scopes attached and its symbol table. -/
structure Analysis where
  tree : Node
  table : Table

/-- What a compilation produces: the tree as it was lowered, the table with the temporaries, the
code and its listing. -/
structure Compilation where
  tree : Node
  table : Table
  code : Code
  listing : List Assembly.Line

def Compilation.assembly (compilation : Compilation) : String :=
  Assembly.text compilation.listing

/-- Parse a source text, attach scopes, and check names and types. -/
def analyze (source : String) : Traced Analysis := do
  let tree ← .ofExcept (Node.parse source)
  .report (.parsed tree.descendants.length)
  let (tree, resolved) := tree.resolve
  let table ← .ofExcept resolved
  .report (.resolved table.scopes.size)
  .ofExcept (tree.analyze table)
  .report .analyzed
  return ⟨tree, table⟩

/-- Fold constants if the options ask for it. -/
def optimize (options : Options) (tree : Node) : Traced Node :=
  if options.level = 0 then return tree
  else ⟨.folding options.level :: tree.foldEvents, .ok tree.fold⟩

/-- Lower an analyzed tree to assembly. -/
def Analysis.lower (analysis : Analysis) (options : Options) : Traced Compilation := do
  let tree ← optimize options analysis.tree
  let (table, lowered) := tree.lower analysis.table
  let code ← lowered
  .report (.generated code.size)
  let listing ← code.assemble table options.fileName
  .report (.emitted (Text.lines (Assembly.text listing)).length)
  return ⟨tree, table, code, listing⟩

/-- Compile a source text. -/
def compile (source : String) (options : Options) : Traced Compilation := do
  let analysis ← analyze source
  analysis.lower options

/-- The assembly of a source text, with the default options. -/
def assemblyOf (source : String) : Traced String := do
  let compilation ← compile source {}
  return compilation.assembly

/-- Call a function of a compiled program. -/
def Compilation.run (compilation : Compilation) (function : String) (arguments : List Int32) :
    Traced Int32 :=
  compilation.code.run compilation.table function arguments

end MiniC
