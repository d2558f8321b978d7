/-!
# Files

Files as the command sees them, and a file system held in memory.

The file system in memory knows the directory that a command works in and what lies below it. A path
may lead out of that directory: the directories around it are there, and so is the root, but nothing
else is known to be in them.
-/

namespace MiniC.CommandLine

/-- Why a file can not be read or written. -/
inductive FileFailure where
  | missing
  | notADirectory
  | isADirectory
  | nameTooLong
  | notText
  | other (reason : String)
deriving DecidableEq, Repr

def FileFailure.message : FileFailure → String
  | missing => "No such file or directory (os error 2)"
  | notADirectory => "Not a directory (os error 20)"
  | isADirectory => "Is a directory (os error 21)"
  | nameTooLong => "File name too long (os error 36)"
  | notText => "stream did not contain valid UTF-8"
  | other reason => reason

/-- How a command gets at files. -/
structure FileAccess (m : Type → Type) where
  /-- The text of the file at a path. -/
  read : String → m (Except FileFailure String)
  /-- Make the file at a path hold a text. -/
  write : String → String → m (Except FileFailure Unit)

/-! ## A file system in memory -/

inductive Item where
  | directory
  | file (content : ByteArray)

/-- The bytes that one name may take. -/
def maxNameLength : Nat := 255

/-- The bytes that a path may take. -/
def maxPathLength : Nat := 4095

/-- A file system as seen from the directory that the command works in. An item is named by the
directories that lead to it and its own name: those above the working directory are a row of `..` in
front, and an item that is named from the root has `/` in front. -/
structure Disk where
  items : List (List String × Item)

namespace Disk

def empty : Disk := ⟨[]⟩

/-- Whether names lead to the working directory, to one around it or to the root. These directories
are always there. -/
def isAround (names : List String) : Bool :=
  names.all (· == "..") || names == ["/"]

/-- The directory around the one of that name. The root is around itself. -/
def outward (names : List String) : List String :=
  if names = ["/"] then names
  else if isAround names then names ++ [".."]
  else names.dropLast

def item? (disk : Disk) (names : List String) : Option Item :=
  if isAround names then some .directory
  else (disk.items.find? (·.1 = names)).map (·.2)

/-- Look for an item. A name that is too long can not even be looked for. -/
def find (disk : Disk) (names : List String) : Except FileFailure (Option Item) :=
  if names.any (maxNameLength < ·.utf8ByteSize) then .error .nameTooLong
  else .ok (disk.item? names)

def put (disk : Disk) (names : List String) (item : Item) : Disk :=
  ⟨(names, item) :: disk.items.filter (·.1 ≠ names)⟩

/-- The parts of a path between its slashes. -/
def parts (path : String) : List String :=
  path.splitOn "/"

/-- Where a path starts: at the root or in the working directory. -/
def start (path : String) : List String :=
  if path.toList.head? = some '/' then ["/"] else []

/-- Follow parts of a path that all have to be directories, starting in the directory `names`. -/
def enter (disk : Disk) (names : List String) : List String → Except FileFailure (List String)
  | [] => .ok names
  | part :: rest =>
      if part = "" ∨ part = "." then disk.enter names rest
      else if part = ".." then disk.enter (outward names) rest
      else do
        match ← disk.find (names ++ [part]) with
        | some .directory => disk.enter (names ++ [part]) rest
        | some (.file _) => .error .notADirectory
        | none => .error .missing

/-- The names that a path leads to. Its last part need not be there, but must not stand for a
directory. -/
def locate (disk : Disk) (path : String) : Except FileFailure (List String) :=
  match (parts path).reverse with
  | [] => .error .missing
  | last :: before => do
      let names ← disk.enter (start path) before.reverse
      if last = "" ∨ last = "." ∨ last = ".." then .error .isADirectory
      else return names ++ [last]

/-- A path that is too long is turned down before it is followed. -/
def checkLength (path : String) : Except FileFailure Unit :=
  if maxPathLength < path.utf8ByteSize then .error .nameTooLong else .ok ()

/-- The bytes of the file at a path. -/
def bytes (disk : Disk) (path : String) : Except FileFailure ByteArray := do
  checkLength path
  let names ← disk.locate path
  match ← disk.find names with
  | some (.file content) => return content
  | some .directory => .error .isADirectory
  | none => .error .missing

/-- The text of the file at a path. -/
def read (disk : Disk) (path : String) : Except FileFailure String := do
  let content ← disk.bytes path
  match String.fromUTF8? content with
  | some text => return text
  | none => .error .notText

/-- A path without the slashes at its end, and whether there were any. -/
def trimSlashes (path : String) : String × Bool :=
  let kept := (path.toList.reverse.dropWhile (· == '/')).reverse
  (String.ofList kept, path.toList.getLast? == some '/')

/-- The disk after a file was written. A slash at the end of the path asks for a directory, whatever
is there. -/
def write (disk : Disk) (path : String) (content : ByteArray) : Except FileFailure Disk := do
  checkLength path
  let (path, slashed) := trimSlashes path
  let names ← disk.locate path
  if slashed then .error .isADirectory
  match ← disk.find names with
  | some .directory => .error .isADirectory
  | _ => return disk.put names (.file content)

/-- The disk with a directory made. -/
def makeDirectory (disk : Disk) (path : String) : Disk :=
  match disk.locate (trimSlashes path).1 with
  | .ok names => disk.put names .directory
  | .error _ => disk

end Disk

/-- Access to a file system in memory. -/
def Disk.access : FileAccess (StateM Disk) where
  read path := do return (← get).read path
  write path text := do
    match (← get).write path text.toUTF8 with
    | .ok disk => do
        set disk
        return .ok ()
    | .error failure => return .error failure

end MiniC.CommandLine
