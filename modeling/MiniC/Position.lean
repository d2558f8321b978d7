/-!
# Positions

Places in a source text. Lines and columns count from one, and a column counts characters.
-/

namespace MiniC

structure Position where
  line : Nat
  column : Nat
deriving DecidableEq, Repr, Inhabited

namespace Position

/-- The first character of a text. -/
def start : Position := ⟨1, 1⟩

/-- The place after reading `c` at `pos`: a line feed opens the next line. -/
def advance (pos : Position) (c : Char) : Position :=
  if c = '\n' then ⟨pos.line + 1, 1⟩ else ⟨pos.line, pos.column + 1⟩

/-- The place after reading all of `chars`. -/
def after (pos : Position) (chars : List Char) : Position :=
  chars.foldl advance pos

/-- `line:column`, as messages write it. -/
def text (pos : Position) : String :=
  toString pos.line ++ ":" ++ toString pos.column

end Position
end MiniC
