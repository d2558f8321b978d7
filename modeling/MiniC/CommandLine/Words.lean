import MiniC.CommandLine.Arguments

/-!
# The words of a command line

The reader of the executable. Words are read from left to right. The first mistake ends the reading,
and so does a request for the version or for help, which is an empty text. An option may be given
once; its value follows as the next word, which must not look like an option, or is attached: `-O1`,
`-O=1`, `--optimize=1`. Behind `--` there are no options.
-/

namespace MiniC.CommandLine

/-- What is asked for. -/
inductive Request where
  | compile (arguments : Arguments)
  | version
  | help
deriving DecidableEq, Repr

/-- An option that takes a value. -/
inductive Switch where
  | optimize
  | output
  | treeGraph
  | tableGraph
  | codeText
deriving DecidableEq, Repr

namespace Switch

def name : Switch → String
  | optimize => "--optimize"
  | output => "--output"
  | treeGraph => "--ast-graph"
  | tableGraph => "--symbol-table-graph"
  | codeText => "--intermediate-code"

def all : List Switch := [optimize, output, treeGraph, tableGraph, codeText]

/-- The option of a long name. -/
def ofName? (name : String) : Option Switch :=
  all.find? (·.name = name)

/-- The option of a letter. -/
def ofLetter? : Char → Option Switch
  | 'O' => some optimize
  | 'o' => some output
  | _ => none

end Switch

inductive Misuse where
  | unknown (argument : String)
  | missingValue (switch : Switch)
  | needlessValue (argument : String)
  | repeated (switch : Switch)
  | invalidLevel (value : String)
  | emptyPath
  | extraArgument (argument : String)
  | missingSource
deriving DecidableEq, Repr

def Misuse.message : Misuse → String
  | unknown argument => "unexpected argument '" ++ argument ++ "' found"
  | missingValue switch => "a value is required for '" ++ switch.name ++ "' but none was supplied"
  | needlessValue argument => "no value is expected in '" ++ argument ++ "'"
  | repeated switch => "the argument '" ++ switch.name ++ "' cannot be used multiple times"
  | invalidLevel value => "invalid optimization level '" ++ value ++ "'"
  | emptyPath => "a path must not be empty"
  | extraArgument argument => "unexpected argument '" ++ argument ++ "' found"
  | missingSource => "the source file is missing"

/-- What has been given so far. -/
structure Settings where
  source : Option String := none
  level : Option Nat := none
  output : Option String := none
  treeGraph : Option String := none
  tableGraph : Option String := none
  codeText : Option String := none
deriving DecidableEq, Repr, Inhabited

/-- The greatest optimization level. -/
def maxLevel : Nat := 4294967295

/-- The value of decimal digits, of which there must be one at least. -/
def digits? (chars : List Char) : Option Nat :=
  if chars ≠ [] ∧ chars.all Char.isDigit then
    some (chars.foldl (fun value c => 10 * value + (c.toNat - '0'.toNat)) 0)
  else none

/-- An optimization level: a whole number with or without a sign, of which only zero may be
negative. -/
def level? (value : String) : Option Nat :=
  match value.toList with
  | '-' :: chars => (digits? chars).filter (· = 0)
  | '+' :: chars => (digits? chars).filter (· ≤ maxLevel)
  | chars => (digits? chars).filter (· ≤ maxLevel)

namespace Settings

/-- The value so far of an option with a path. -/
def path? (settings : Settings) : Switch → Option String
  | .optimize => none
  | .output => settings.output
  | .treeGraph => settings.treeGraph
  | .tableGraph => settings.tableGraph
  | .codeText => settings.codeText

def withPath (settings : Settings) (path : String) : Switch → Settings
  | .optimize => settings
  | .output => { settings with output := some path }
  | .treeGraph => { settings with treeGraph := some path }
  | .tableGraph => { settings with tableGraph := some path }
  | .codeText => { settings with codeText := some path }

/-- Give an option its value. -/
def set (settings : Settings) (switch : Switch) (value : String) : Except Misuse Settings :=
  match switch with
  | .optimize =>
      if settings.level.isSome then .error (.repeated switch)
      else
        match level? value with
        | some level => .ok { settings with level := some level }
        | none => .error (.invalidLevel value)
  | switch =>
      if (settings.path? switch).isSome then .error (.repeated switch)
      else if value = "" then .error .emptyPath
      else .ok (settings.withPath value switch)

/-- An argument that is no option is the source. -/
def positional (settings : Settings) (argument : String) : Except Misuse Settings :=
  if settings.source.isSome then .error (.extraArgument argument)
  else if argument = "" then .error .emptyPath
  else .ok { settings with source := some argument }

/-- All arguments have been read. -/
def finish (settings : Settings) : Except Misuse Request :=
  match settings.source with
  | none => .error .missingSource
  | some source =>
      .ok (.compile
        { source
          level := settings.level.getD 0
          output := settings.output
          treeGraph := settings.treeGraph
          tableGraph := settings.tableGraph
          codeText := settings.codeText })

end Settings

/-- What an argument looks like by itself. -/
inductive Form where
  /-- `--`, behind which there are no options. -/
  | divider
  | version
  | help
  /-- An option, with its value if one is attached. -/
  | switch (switch : Switch) (attached : Option String)
  | positional
  | mistaken (misuse : Misuse)
deriving DecidableEq, Repr

/-- The form of an argument `--name` or `--name=value`. -/
def longForm (argument : String) : Form :=
  let chars := argument.toList
  let name := String.ofList (chars.takeWhile (· != '='))
  let value :=
    match chars.dropWhile (· != '=') with
    | _ :: value => some (String.ofList value)
    | [] => none
  if name = "--version" then if value.isSome then .mistaken (.needlessValue argument) else .version
  else if name = "--help" then if value.isSome then .mistaken (.needlessValue argument) else .help
  else
    match Switch.ofName? name with
    | some switch => .switch switch value
    | none => .mistaken (.unknown argument)

/-- The form of an argument `-letter`, where more may follow the letter. -/
def shortForm (argument : String) (letter : Char) (more : List Char) : Form :=
  if letter = 'V' then .version
  else if letter = 'h' then .help
  else
    match Switch.ofLetter? letter with
    | none => .mistaken (.unknown argument)
    | some switch =>
        match more with
        | [] => .switch switch none
        | '=' :: value => .switch switch (some (String.ofList value))
        | value => .switch switch (some (String.ofList value))

def form (argument : String) : Form :=
  match argument.toList with
  | ['-', '-'] => .divider
  | '-' :: '-' :: _ => longForm argument
  | '-' :: letter :: more => shortForm argument letter more
  | _ => .positional

/-- Read arguments behind `--`. -/
def readPositionals (settings : Settings) : List String → Except Misuse Request
  | [] => settings.finish
  | argument :: rest =>
      match settings.positional argument with
      | .ok settings => readPositionals settings rest
      | .error misuse => .error misuse

/-- Read arguments when `settings` have been given before. -/
def readFrom (settings : Settings) : List String → Except Misuse Request
  | [] => settings.finish
  | argument :: rest =>
      match form argument with
      | .divider => readPositionals settings rest
      | .version => .ok .version
      | .help => .ok .help
      | .mistaken misuse => .error misuse
      | .positional =>
          match settings.positional argument with
          | .ok settings => readFrom settings rest
          | .error misuse => .error misuse
      | .switch switch (some value) =>
          match settings.set switch value with
          | .ok settings => readFrom settings rest
          | .error misuse => .error misuse
      | .switch switch none =>
          match rest with
          | [] => .error (.missingValue switch)
          | value :: rest =>
              if form value = .positional then
                match settings.set switch value with
                | .ok settings => readFrom settings rest
                | .error misuse => .error misuse
              else .error (.missingValue switch)

def versionText : String := "seasub 0.1.0\n"

/-- Read the words of a command line. -/
def readWords (words : List String) : Reading :=
  match readFrom {} words with
  | .ok (.compile arguments) => .compile arguments
  | .ok .version => .answered versionText
  | .ok .help => .answered ""
  | .error misuse => .rejected misuse.message

example : readWords ["-O1", "a.c"] = .compile ⟨"a.c", 1, none, none, none, none⟩ := rfl
example : readWords ["--output=o", "--", "-x"] =
    .compile ⟨"-x", 0, some "o", none, none, none⟩ := rfl
example : readWords ["-o", "--version"] = .rejected (Misuse.missingValue .output).message := rfl

end MiniC.CommandLine
