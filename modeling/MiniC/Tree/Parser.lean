import MiniC.Lexing
import MiniC.Tree.Basic

/-!
# Building syntax trees from tokens

One function per rule of the grammar, each deciding by the kind of the next token. A rule returns
the tokens that it left, with the proof that they are fewer, so that every recursion ends.

The tokens of a source that cannot be read to its end stop short of the end of input. A rule that
looks for a token behind the last one answers `exhausted`, and the failure of the reading is
reported: a mistake in the grammar before that place comes first, and one behind it is never seen.
-/

namespace MiniC.Parser

/-- Why a rule gives up. -/
inductive Stop where
  /-- There is no further token to look at. -/
  | exhausted
  | unexpected (pos : Position) (cause : SyntacticCause)
deriving DecidableEq, Repr

/-- Fewer tokens than `s`. -/
abbrev Shorter (s : List Token) : Type :=
  { rest : List Token // rest.length < s.length }

/-- No more tokens than `s`. -/
abbrev NoLonger (s : List Token) : Type :=
  { rest : List Token // rest.length ≤ s.length }

def unexpected {α : Type} (kind : TokenKind) (found : Token) : Except Stop α :=
  .error (.unexpected found.pos (.expected kind found))

/-- Take the next token, which must be of the given kind. -/
def eat (kind : TokenKind) : (s : List Token) → Except Stop (Token × Shorter s)
  | [] => .error .exhausted
  | token :: rest =>
      if token.kind = kind then .ok (token, ⟨rest, by simp⟩) else unexpected kind token

/-- A `+` or `-` between operands. -/
def sumOperator? (token : Token) : Option BinaryOp :=
  if token.kind = .operator then BinaryOp.ofSumSymbol? token.text else none

/-- A `*` or `/` between operands. -/
def productOperator? (token : Token) : Option BinaryOp :=
  if token.kind = .operator then BinaryOp.ofProductSymbol? token.text else none

/-- A sign in front of an operand. -/
def signOperator? (token : Token) : Option UnaryOp :=
  if token.kind = .operator then UnaryOp.ofSymbol? token.text else none

mutual
/-- `sum := product (('+' | '-') product)*`, grouped to the left. -/
def sum (s : List Token) : Except Stop (Node × Shorter s) := do
  let (first, ⟨r, _⟩) ← product s
  let (node, ⟨r1, _⟩) ← sumRest first r
  return (node, ⟨r1, by omega⟩)
termination_by 8 * s.length + 3
decreasing_by
  all_goals omega

/-- Further operands of a sum whose value so far is `lhs`. -/
def sumRest (lhs : Node) (s : List Token) : Except Stop (Node × NoLonger s) :=
  match s with
  | [] => .error .exhausted
  | token :: rest =>
      match sumOperator? token with
      | none => .ok (lhs, ⟨token :: rest, Nat.le_refl _⟩)
      | some op => do
          let (rhs, ⟨r, _⟩) ← product rest
          let (node, ⟨r1, _⟩) ← sumRest (.binary (.ofToken token) op lhs rhs) r
          return (node, ⟨r1, by simp only [List.length_cons]; omega⟩)
termination_by 8 * s.length
decreasing_by
  all_goals simp only [List.length_cons] at *
  all_goals omega

/-- `product := signed (('*' | '/') signed)*`, grouped to the left. -/
def product (s : List Token) : Except Stop (Node × Shorter s) := do
  let (first, ⟨r, _⟩) ← signed s
  let (node, ⟨r1, _⟩) ← productRest first r
  return (node, ⟨r1, by omega⟩)
termination_by 8 * s.length + 2
decreasing_by
  all_goals omega

/-- Further operands of a product whose value so far is `lhs`. -/
def productRest (lhs : Node) (s : List Token) : Except Stop (Node × NoLonger s) :=
  match s with
  | [] => .error .exhausted
  | token :: rest =>
      match productOperator? token with
      | none => .ok (lhs, ⟨token :: rest, Nat.le_refl _⟩)
      | some op => do
          let (rhs, ⟨r, _⟩) ← signed rest
          let (node, ⟨r1, _⟩) ← productRest (.binary (.ofToken token) op lhs rhs) r
          return (node, ⟨r1, by simp only [List.length_cons]; omega⟩)
termination_by 8 * s.length
decreasing_by
  all_goals simp only [List.length_cons] at *
  all_goals omega

/-- `signed := ('+' | '-') signed | primary` -/
def signed (s : List Token) : Except Stop (Node × Shorter s) :=
  match s with
  | [] => .error .exhausted
  | token :: rest =>
      match signOperator? token with
      | some op => do
          let (operand, ⟨r, _⟩) ← signed rest
          return (.unary (.ofToken token) op operand, ⟨r, by simp only [List.length_cons]; omega⟩)
      | none => primary (token :: rest)
termination_by 8 * s.length + 1
decreasing_by
  all_goals simp only [List.length_cons] at *
  all_goals omega

/-- `primary := '(' sum ')' | identifier | identifier '(' arguments ')' | constant` -/
def primary (s : List Token) : Except Stop (Node × Shorter s) :=
  match s with
  | [] => .error .exhausted
  | token :: rest =>
      match token.kind with
      | .leftParen => do
          let (node, ⟨r, _⟩) ← sum rest
          let (_, ⟨r1, _⟩) ← eat .rightParen r
          return (node, ⟨r1, by simp only [List.length_cons]; omega⟩)
      | .identifier =>
          match rest with
          | [] => .error .exhausted
          | next :: later =>
              if next.kind = .leftParen then do
                let (values, ⟨r, _⟩) ← arguments later
                return (.call (.ofToken token) (.identifier (.ofToken token) token.text) values,
                  ⟨r, by simp only [List.length_cons]; omega⟩)
              else
                .ok (.identifier (.ofToken token) token.text, ⟨next :: later, by simp⟩)
      | .integerConstant =>
          .ok (.integer (.ofToken token) (Int32.ofNat (Decimal.ofDigits token.text.toList)),
            ⟨rest, by simp⟩)
      | .doubleConstant =>
          .ok (.real (.ofToken token) (Decimal.read token.text.toList), ⟨rest, by simp⟩)
      | _ => .error (.unexpected token.pos (.expectedExpression token))
termination_by 8 * s.length
decreasing_by
  all_goals simp only [List.length_cons] at *
  all_goals omega

/-- The arguments of a call up to the closing parenthesis: none, or sums between commas. -/
def arguments (s : List Token) : Except Stop (List Node × Shorter s) :=
  match s with
  | [] => .error .exhausted
  | token :: rest =>
      if token.kind = .rightParen then .ok ([], ⟨rest, by simp⟩)
      else do
        let (first, ⟨r, _⟩) ← sum (token :: rest)
        let (more, ⟨r1, _⟩) ← argumentsRest r
        return (first :: more, ⟨r1, by omega⟩)
termination_by 8 * s.length + 4
decreasing_by
  all_goals simp only [List.length_cons] at *
  all_goals omega

/-- Further arguments, each behind a comma. -/
def argumentsRest (s : List Token) : Except Stop (List Node × Shorter s) :=
  match s with
  | [] => .error .exhausted
  | token :: rest =>
      if token.kind = .comma then do
        let (value, ⟨r, _⟩) ← sum rest
        let (more, ⟨r1, _⟩) ← argumentsRest r
        return (value :: more, ⟨r1, by simp only [List.length_cons]; omega⟩)
      else do
        let (_, r) ← eat .rightParen (token :: rest)
        return ([], r)
termination_by 8 * s.length
decreasing_by
  all_goals simp only [List.length_cons] at *
  all_goals omega
end

/-- A type word and its meaning. -/
def typeSpecifier (s : List Token) : Except Stop (Ty × Shorter s) := do
  let (token, r) ← eat .typeSpecifier s
  match Ty.ofSpecifier? token.text with
  | some ty => return (ty, r)
  | none => .error (.unexpected token.pos (.unknownType token.text))

/-- `declaration := type identifier ';'` -/
def declaration (s : List Token) : Except Stop (Node × Shorter s) := do
  let (ty, ⟨r, _⟩) ← typeSpecifier s
  let (name, ⟨r1, _⟩) ← eat .identifier r
  let (_, ⟨r2, _⟩) ← eat .semicolon r1
  return (.declaration (.ofToken name) ty name.text, ⟨r2, by omega⟩)

/-- All declarations that stand next. -/
def declarations (s : List Token) : Except Stop (List Node × NoLonger s) :=
  match s with
  | [] => .error .exhausted
  | token :: rest =>
      if token.kind = .typeSpecifier then do
        let (first, ⟨r, _⟩) ← declaration (token :: rest)
        let (more, ⟨r1, _⟩) ← declarations r
        return (first :: more, ⟨r1, by omega⟩)
      else .ok ([], ⟨token :: rest, Nat.le_refl _⟩)
termination_by s.length
decreasing_by
  all_goals simp only [List.length_cons] at *
  all_goals omega

mutual
/-- `statement := block | 'return' sum ';' | 'if' '(' sum ')' statement ('else' statement)? | ';'
| identifier '=' sum ';'`. An `else` belongs to the nearest `if` that has none. -/
def statement (s : List Token) : Except Stop (Node × Shorter s) :=
  match s with
  | [] => .error .exhausted
  | token :: rest =>
      match token.kind with
      | .leftBrace => block (token :: rest)
      | .returnWord => do
          let (value, ⟨r, _⟩) ← sum rest
          let (_, ⟨r1, _⟩) ← eat .semicolon r
          return (.returnValue (.ofToken token) value, ⟨r1, by simp only [List.length_cons]; omega⟩)
      | .ifWord => do
          let (_, ⟨r, _⟩) ← eat .leftParen rest
          let (condition, ⟨r1, _⟩) ← sum r
          let (_, ⟨r2, _⟩) ← eat .rightParen r1
          let (consequent, r3) ← statement r2
          match r3 with
          | ⟨[], _⟩ => .error .exhausted
          | ⟨next :: later, _⟩ =>
              if next.kind = .elseWord then do
                let (alternative, ⟨last, _⟩) ← statement later
                return (.ifElse (.ofToken token) condition consequent alternative,
                  ⟨last, by simp only [List.length_cons] at *; omega⟩)
              else
                return (.ifThen (.ofToken token) condition consequent,
                  ⟨next :: later, by simp only [List.length_cons] at *; omega⟩)
      | .semicolon => .ok (.empty (.ofToken token), ⟨rest, by simp⟩)
      | .identifier => do
          let (_, ⟨r, _⟩) ← eat .assignment rest
          let (value, ⟨r1, _⟩) ← sum r
          let (_, ⟨r2, _⟩) ← eat .semicolon r1
          return (.assignment (.ofToken token) token.text value,
            ⟨r2, by simp only [List.length_cons]; omega⟩)
      | _ => unexpected .identifier token
termination_by 8 * s.length + 1
decreasing_by
  all_goals simp only [List.length_cons] at *
  all_goals omega

/-- Declarations and then statements in braces; nothing in braces is the empty statement. -/
def block (s : List Token) : Except Stop (Node × Shorter s) := do
  let (brace, r) ← eat .leftBrace s
  match r with
  | ⟨[], _⟩ => .error .exhausted
  | ⟨next :: later, _⟩ =>
      if next.kind = .rightBrace then
        return (.empty (.ofToken brace), ⟨later, by simp only [List.length_cons] at *; omega⟩)
      else do
        let (first, ⟨r1, _⟩) ← declarations (next :: later)
        let (second, ⟨r2, _⟩) ← statements r1
        return (.block (.ofToken brace) first second, ⟨r2, by omega⟩)
termination_by 8 * s.length
decreasing_by
  simp only [List.length_cons] at *
  omega

/-- All statements up to the closing brace. -/
def statements (s : List Token) : Except Stop (List Node × Shorter s) :=
  match s with
  | [] => .error .exhausted
  | token :: rest =>
      if token.kind = .rightBrace then .ok ([], ⟨rest, by simp⟩)
      else do
        let (first, ⟨r, _⟩) ← statement (token :: rest)
        let (more, ⟨r1, _⟩) ← statements r
        return (first :: more, ⟨r1, by omega⟩)
termination_by 8 * s.length + 2
decreasing_by
  all_goals simp only [List.length_cons] at *
  all_goals omega
end

/-- `parameter := type identifier` -/
def parameter (s : List Token) : Except Stop (Node × Shorter s) := do
  let (ty, ⟨r, _⟩) ← typeSpecifier s
  let (name, ⟨r1, _⟩) ← eat .identifier r
  return (.parameter (.ofToken name) ty name.text, ⟨r1, by omega⟩)

/-- Further parameters up to the closing parenthesis, each behind a comma. -/
def parametersRest (s : List Token) : Except Stop (List Node × Shorter s) :=
  match s with
  | [] => .error .exhausted
  | token :: rest =>
      if token.kind = .comma then do
        let (first, ⟨r, _⟩) ← parameter rest
        let (more, ⟨r1, _⟩) ← parametersRest r
        return (first :: more, ⟨r1, by simp only [List.length_cons]; omega⟩)
      else do
        let (_, r) ← eat .rightParen (token :: rest)
        return ([], r)
termination_by s.length
decreasing_by
  simp only [List.length_cons]
  omega

/-- The parameters of a function up to the closing parenthesis. -/
def parameters (s : List Token) : Except Stop (List Node × Shorter s) :=
  match s with
  | [] => .error .exhausted
  | token :: rest =>
      if token.kind = .rightParen then .ok ([], ⟨rest, by simp⟩)
      else do
        let (first, ⟨r, _⟩) ← parameter (token :: rest)
        let (more, ⟨r1, _⟩) ← parametersRest r
        return (first :: more, ⟨r1, by omega⟩)

/-- `function := type identifier '(' parameters ')' block` -/
def function (s : List Token) : Except Stop (Node × Shorter s) := do
  let (returnType, ⟨r, _⟩) ← typeSpecifier s
  let (name, ⟨r1, _⟩) ← eat .identifier r
  let (_, ⟨r2, _⟩) ← eat .leftParen r1
  let (inputs, ⟨r3, _⟩) ← parameters r2
  let (body, ⟨last, _⟩) ← block r3
  return (.function (.ofToken name) returnType name.text inputs body, ⟨last, by omega⟩)

/-- Further functions, as long as a type word stands next. -/
def functions (s : List Token) : Except Stop (List Node × NoLonger s) :=
  match s with
  | [] => .error .exhausted
  | token :: rest =>
      if token.kind = .typeSpecifier then do
        let (first, ⟨r, _⟩) ← function (token :: rest)
        let (more, ⟨r1, _⟩) ← functions r
        return (first :: more, ⟨r1, by omega⟩)
      else .ok ([], ⟨token :: rest, Nat.le_refl _⟩)
termination_by s.length
decreasing_by
  all_goals simp only [List.length_cons] at *
  all_goals omega

/-- A whole program: one function at least, and then the end of input. -/
def program (s : List Token) : Except Stop (Node × Shorter s) := do
  let (first, ⟨r, _⟩) ← function s
  let (more, ⟨r1, _⟩) ← functions r
  let (stop, ⟨r2, _⟩) ← eat .endOfInput r1
  return (.program (.ofToken stop) (first :: more), ⟨r2, by omega⟩)

end MiniC.Parser

namespace MiniC

/-- The tree of the tokens that a reading yields. -/
def Lexing.parse (lexing : Lexing) : Except Error Node :=
  match Parser.program lexing.tokens with
  | .ok (node, _) => .ok node
  | .error (.unexpected pos cause) => .error (.syntactic pos cause)
  | .error .exhausted => .error (lexing.failure.getD (.internal .noEndOfInput))

/-- The tree of a source text. -/
def Node.parse (source : String) : Except Error Node :=
  (lex source).parse

end MiniC
