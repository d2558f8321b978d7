import MiniC.Decimal.Nearest
import MiniC.Error

/-!
# Reading a source text as tokens

Spaces, tabs and line breaks separate tokens. At every other character the longest token that
starts there is taken, except that a word ends after `maxWordLength` characters and a longer run
of word characters goes on as the next token. Reading stops at the first character that starts no
token and at the first integer that is too large; otherwise the last token is the end of input.
-/

namespace MiniC

/-- The characters that may stand between tokens. -/
def isSpacing (c : Char) : Bool :=
  c == ' ' || c == '\t' || c == '\r' || c == '\n'

def isWordStart (c : Char) : Bool :=
  c == '_' || c.isAlpha

def isWordChar (c : Char) : Bool :=
  c == '_' || c.isAlphanum

/-- Words are at most this long. -/
def maxWordLength : Nat := 31

/-- The greatest value of an integer constant. -/
def maxInteger : Nat := 2147483647

/-- The kind of a token that is a single character. -/
def punctuation? : Char → Option TokenKind
  | '\x7b' => some .leftBrace
  | '\x7d' => some .rightBrace
  | '(' => some .leftParen
  | ')' => some .rightParen
  | ';' => some .semicolon
  | ',' => some .comma
  | '=' => some .assignment
  | '+' => some .operator
  | '-' => some .operator
  | '*' => some .operator
  | '/' => some .operator
  | _ => none

/-- Keywords and type words have kinds of their own. -/
def wordKind (word : String) : TokenKind :=
  if word = "int" || word = "double" then .typeSpecifier
  else if word = "return" then .returnWord
  else if word = "if" then .ifWord
  else if word = "else" then .elseWord
  else .identifier

/-- The number that starts with the digit `c`: its kind and its characters after `c`. A point
makes it a real, with or without digits behind it. -/
def number (c : Char) (rest : List Char) : Except LexicalCause (TokenKind × List Char) :=
  let whole := rest.takeWhile Char.isDigit
  match rest.dropWhile Char.isDigit with
  | '.' :: more => .ok (.doubleConstant, whole ++ '.' :: more.takeWhile Char.isDigit)
  | _ =>
      if Decimal.ofDigits (c :: whole) ≤ maxInteger then .ok (.integerConstant, whole)
      else .error (.integerTooLarge (String.ofList (c :: whole)))

/-- The token that starts with `c`: its kind and its characters after `c`. -/
def lexeme (c : Char) (rest : List Char) : Except LexicalCause (TokenKind × List Char) :=
  match punctuation? c with
  | some kind => .ok (kind, [])
  | none =>
      if c.isDigit then number c rest
      else if isWordStart c then
        let more := (rest.takeWhile isWordChar).take (maxWordLength - 1)
        .ok (wordKind (String.ofList (c :: more)), more)
      else .error (.unexpectedCharacter c)

/-- Tokens up to the end of input, or up to the first failure. -/
structure Lexing where
  tokens : List Token
  failure : Option Error
deriving DecidableEq

/-- The tokens of `chars`, the first of which stands at `pos`. -/
def lexFrom (pos : Position) (chars : List Char) : Lexing :=
  let pos := pos.after (chars.takeWhile isSpacing)
  match _found : chars.dropWhile isSpacing with
  | [] => ⟨[⟨.endOfInput, "", pos⟩], none⟩
  | c :: rest =>
      match lexeme c rest with
      | .error cause => ⟨[], some (.lexical pos cause)⟩
      | .ok (kind, more) =>
          let token : Token := ⟨kind, String.ofList (c :: more), pos⟩
          let later := lexFrom (pos.after (c :: more)) (rest.drop more.length)
          ⟨token :: later.tokens, later.failure⟩
termination_by chars.length
decreasing_by
  have shorter := (List.dropWhile_suffix (l := chars) isSpacing).length_le
  rw [_found, List.length_cons] at shorter
  simp only [List.length_drop]
  omega

/-- The tokens of a source text. -/
def lex (source : String) : Lexing :=
  lexFrom .start source.toList

/-- All tokens of a source text, or the failure that stopped the reading. -/
def Lexing.toExcept (lexing : Lexing) : Except Error (List Token) :=
  match lexing.failure with
  | some error => .error error
  | none => .ok lexing.tokens

end MiniC
