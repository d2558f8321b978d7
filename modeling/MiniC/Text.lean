/-!
# Plain text

The lines of a source, columns of a fixed width, and the blanks at the end of a line.
-/

namespace MiniC.Text

/-- A line break may be written with a carriage return in front; the held characters are in
reverse, so that return stands first. -/
def dropReturn : List Char → List Char
  | '\r' :: held => held
  | held => held

/-- Lines of the remaining characters, where `held` is the unfinished line in reverse. -/
def linesFrom (held : List Char) : List Char → List String
  | [] => if held.isEmpty then [] else [String.ofList held.reverse]
  | c :: rest =>
      if c = '\n' then String.ofList (dropReturn held).reverse :: linesFrom [] rest
      else linesFrom (c :: held) rest

/-- Lines of a text. A line ends at a line feed, one carriage return before it belongs to the
break, and nothing after the last line feed is no line. -/
def lines (text : String) : List String :=
  linesFrom [] text.toList

/-- A run of `n` spaces. -/
def spaces (n : Nat) : String :=
  String.ofList (List.replicate n ' ')

/-- `text` followed by as many spaces as it lacks to `width` characters. -/
def padRight (width : Nat) (text : String) : String :=
  text ++ spaces (width - text.length)

/-- Code points with the Unicode property White_Space, as inclusive ranges. -/
def blankRanges : List (Nat × Nat) :=
  [(0x9, 0xD), (0x20, 0x20), (0x85, 0x85), (0xA0, 0xA0), (0x1680, 0x1680), (0x2000, 0x200A),
    (0x2028, 0x2029), (0x202F, 0x202F), (0x205F, 0x205F), (0x3000, 0x3000)]

def isBlank (c : Char) : Bool :=
  blankRanges.any fun range => range.1 ≤ c.toNat && c.toNat ≤ range.2

/-- `text` without the blanks at its end. -/
def trimRight (text : String) : String :=
  String.ofList (text.toList.reverse.dropWhile isBlank).reverse

example : lines "a\r\n\nb\r" = ["a", "", "b\r"] := by decide
example : lines "a\n" = ["a"] := by decide
example : padRight 4 "ab" = "ab  " := by decide
example : trimRight " a \t\n" = " a" := by decide

end MiniC.Text
