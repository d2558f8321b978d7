import MiniC.CommandLine.Command

/-!
# The executable

The command, run on the files of the operating system.
-/

namespace MiniC.CommandLine

/-- The reason that the operating system gives. -/
def osFailure (error : IO.Error) : FileFailure :=
  match error with
  | .noFileOrDirectory .. => .missing
  | .inappropriateType _ 21 _ => .isADirectory
  | .inappropriateType _ 20 _ => .notADirectory
  | .invalidArgument _ 36 _ => .nameTooLong
  | error => .other (toString error)

def osAccess : FileAccess IO where
  read path := do
    try
      let content ← IO.FS.readBinFile path
      match String.fromUTF8? content with
      | some text => return .ok text
      | none => return .error .notText
    catch error => return .error (osFailure error)
  write path text := do
    try
      IO.FS.writeFile path text
      return .ok ()
    catch error => return .error (osFailure error)

end MiniC.CommandLine

open MiniC.CommandLine in
def main (arguments : List String) : IO UInt32 := do
  let outcome ← command osAccess arguments
  IO.print outcome.output
  IO.eprint outcome.errors
  return outcome.status.toUInt32
