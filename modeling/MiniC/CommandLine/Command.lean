import MiniC.CommandLine.Files
import MiniC.CommandLine.Path
import MiniC.CommandLine.Words
import MiniC.Compilation
import MiniC.Drawing

/-!
# The command

One source is read and compiled, and the outputs that were asked for are written.

Drawings show the tree as it was analyzed and the table before temporaries are added to it, and they
are written before lowering starts. The first failure ends the command.
-/

namespace MiniC.CommandLine

/-- What the command leaves for the one who called it. -/
structure Outcome where
  status : Nat
  output : String
  errors : String
deriving DecidableEq, Repr

variable {m : Type → Type} [Monad m]

/-- Write a file; a failure is worded for the caller. -/
def writeFile (files : FileAccess m) (path text : String) : m (Except String Unit) := do
  match ← files.write path text with
  | .ok () => return .ok ()
  | .error failure =>
      return .error ("error: cannot write '" ++ path ++ "': " ++ failure.message)

/-- Write files in order, up to the first that fails. -/
def writeFiles (files : FileAccess m) : List (String × String) → m (Except String Unit)
  | [] => return .ok ()
  | (path, text) :: rest => do
      match ← writeFile files path text with
      | .ok () => writeFiles files rest
      | .error message => return .error message

/-- The options that the arguments ask for: the listing names the source by its file name. -/
def Arguments.options (arguments : Arguments) : Options where
  level := arguments.level
  fileName := (Path.fileName? arguments.source).getD arguments.source

/-- Where the assembly goes: next to the source, unless a path was given. -/
def Arguments.outputPath (arguments : Arguments) : String :=
  arguments.output.getD (Path.withExtension arguments.source "s")

/-- The drawings that were asked for, with their paths. -/
def Arguments.drawings (arguments : Arguments) (analysis : Analysis) : List (String × String) :=
  (arguments.treeGraph.map fun path => (path, analysis.tree.drawing)).toList
    ++ (arguments.tableGraph.map fun path => (path, analysis.table.drawing)).toList

/-- The results that were asked for, with their paths. The assembly always is. -/
def Arguments.results (arguments : Arguments) (compilation : Compilation) :
    List (String × String) :=
  (arguments.codeText.map fun path => (path, compilation.code.text)).toList
    ++ [(arguments.outputPath, compilation.assembly)]

/-- Compile a source and write the outputs; a failure is worded for the caller. -/
def build (files : FileAccess m) (arguments : Arguments) (source : String) :
    m (Except String Unit) := do
  match (analyze source).result with
  | .error error => return .error (error.report.render source)
  | .ok analysis =>
      match ← writeFiles files (arguments.drawings analysis) with
      | .error message => return .error message
      | .ok () =>
          match (analysis.lower arguments.options).result with
          | .error error => return .error (error.report.render source)
          | .ok compilation => writeFiles files (arguments.results compilation)

/-- The outcome of a failure. -/
def failed (message : String) : Outcome := ⟨1, "", message ++ "\n"⟩

/-- The outcome at the end of a run. -/
def ended : Except String Unit → Outcome
  | .ok () => ⟨0, "", ""⟩
  | .error message => failed message

/-- Run the command on arguments that have been read. -/
def run (files : FileAccess m) (arguments : Arguments) : m Outcome := do
  match ← files.read arguments.source with
  | .error failure =>
      return failed ("error: cannot read '" ++ arguments.source ++ "': " ++ failure.message)
  | .ok source =>
      return ended (← build files arguments source)

/-- Run the command on the words of a command line. -/
def command (files : FileAccess m) (words : List String) (reader : Reader := readWords) :
    m Outcome :=
  match reader words with
  | .compile arguments => run files arguments
  | .answered text => return ⟨0, text, ""⟩
  | .rejected message => return ⟨2, "", "error: " ++ message ++ "\n"⟩

end MiniC.CommandLine
