import MiniC.Position

/-!
# Tokens

A token is a kind, the characters read, and the place of the first of them.
-/

namespace MiniC

inductive TokenKind where
  | leftBrace
  | rightBrace
  | leftParen
  | rightParen
  | semicolon
  | comma
  | typeSpecifier
  | returnWord
  | ifWord
  | elseWord
  | integerConstant
  | doubleConstant
  | identifier
  | assignment
  | operator
  | endOfInput
deriving DecidableEq, Repr, Inhabited

/-- How a message names what it expected. -/
def TokenKind.description : TokenKind → String
  | leftBrace => "'\x7b'"
  | rightBrace => "'\x7d'"
  | leftParen => "'('"
  | rightParen => "')'"
  | semicolon => "';'"
  | comma => "','"
  | typeSpecifier => "type specifier"
  | returnWord => "'return'"
  | ifWord => "'if'"
  | elseWord => "'else'"
  | integerConstant => "integer constant"
  | doubleConstant => "double constant"
  | identifier => "identifier"
  | assignment => "'='"
  | operator => "arithmetic operator"
  | endOfInput => "end of input"

structure Token where
  kind : TokenKind
  text : String
  pos : Position
deriving DecidableEq, Repr, Inhabited

/-- How a message names what it found: the characters in quotes, or the end of the input. -/
def Token.description (token : Token) : String :=
  match token.kind with
  | .endOfInput => "end of input"
  | _ => "'" ++ token.text ++ "'"

end MiniC
