/-!
# Paths

Paths are texts: the name of a file, and the same path with another extension.
-/

namespace MiniC.Path

/-- A path in reverse without the slashes and dots at its end that name no further file. -/
def dropTrailing : List Char → List Char
  | '/' :: rest => dropTrailing rest
  | '.' :: '/' :: rest => dropTrailing rest
  | chars => chars

/-- The characters up to the last slash and those behind it. There is no name if nothing or only
dots that stand for a directory are left. -/
def split? (path : String) : Option (List Char × List Char) :=
  let reversed := dropTrailing path.toList.reverse
  let name := (reversed.takeWhile (· != '/')).reverse
  if name = [] ∨ name = ['.'] ∨ name = ['.', '.'] then none
  else some ((reversed.dropWhile (· != '/')).reverse, name)

/-- The name of the file that a path leads to. -/
def fileName? (path : String) : Option String :=
  (split? path).map fun (_, name) => String.ofList name

/-- A name without its extension: what stands before the last dot, unless nothing does. -/
def stem (name : List Char) : List Char :=
  match name.reverse.dropWhile (· != '.') with
  | '.' :: before@(_ :: _) => before.reverse
  | _ => name

/-- The path with the extension of its file replaced. The old extension goes before the new one
comes: if only two dots are left, they name no file that could have an extension, and stay. -/
def withExtension (path extension : String) : String :=
  match split? path with
  | some (directory, name) =>
      if stem name = ['.'] then String.ofList directory ++ ".."
      else String.ofList directory ++ String.ofList (stem name) ++ "." ++ extension
  | none => path

example : withExtension "d/two.dots.c" "s" = "d/two.dots.s" := by decide
example : withExtension ".hidden" "s" = ".hidden.s" := by decide
example : withExtension "trail." "s" = "trail.s" := by decide
example : withExtension "d/..c" "s" = "d/.." := by decide
example : withExtension "...c" "s" = "...s" := by decide
example : fileName? "d/./a.c/" = some "a.c" := by decide

end MiniC.Path
