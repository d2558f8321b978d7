/-!
# The arguments of the command

What the command is to do. How the words of a command line are read is no part of the command, which
works with whatever reader it is given.
-/

namespace MiniC.CommandLine

structure Arguments where
  source : String
  /-- Optimization level. -/
  level : Nat
  /-- Where the assembly goes. -/
  output : Option String
  /-- Where the drawing of the tree goes. -/
  treeGraph : Option String
  /-- Where the drawing of the scopes goes. -/
  tableGraph : Option String
  /-- Where the text of the quadruples goes. -/
  codeText : Option String
deriving DecidableEq, Repr

/-- What a reader makes of the words of a command line. -/
inductive Reading where
  | compile (arguments : Arguments)
  /-- Nothing is to be compiled. The reader has an answer of its own, as for a question about the
  version. -/
  | answered (text : String)
  | rejected (message : String)
deriving DecidableEq, Repr

abbrev Reader : Type := List String → Reading

end MiniC.CommandLine
