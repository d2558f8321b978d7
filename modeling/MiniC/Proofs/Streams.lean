import MiniC.Proofs.Tiling

/-!
# Parsing a stream that never runs dry

A stream shows one token. A rule that takes it makes the stream fetch the next one, and when there
is none left the stream shows the end of input for ever. The rules here go over such a stream, with
a loop wherever something may stand any number of times.

Nothing in a rule promises that it comes to an end. There are ten ways to go round: three rules that
lead back to themselves and seven loops. `Rules.next` says what they do in terms of each other, and
`Rules.nested` is what they do as long as they do not go round too often. A rule that goes on for
ever gives nothing, however often it may go round.
-/

namespace MiniC

namespace Lexing

/-- What is fetched next, and what comes after it: a token, the failure, or nothing any more. -/
def next? : Lexing → Option (Except Error (Token × Lexing))
  | ⟨token :: tokens, failure⟩ => some (.ok (token, ⟨tokens, failure⟩))
  | ⟨[], some error⟩ => some (.error error)
  | ⟨[], none⟩ => none

/-- The tokens end as those of a source text do, and each has a text of its class. -/
structure Proper (lexing : Lexing) : Prop where
  ended : lexing.Ended
  holds : ∀ token ∈ lexing.tokens, token.kind.Holds token.text.toList

theorem eq_next? (lexing : Lexing) :
    lexing = match lexing.next? with
      | some (.ok (token, later)) => ⟨token :: later.tokens, later.failure⟩
      | some (.error error) => ⟨[], some error⟩
      | none => ⟨[], none⟩ := by
  match lexing with
  | ⟨_ :: _, _⟩ | ⟨[], some _⟩ | ⟨[], none⟩ => rfl

theorem eq_of_next? {lexing later : Lexing} {token : Token}
    (found : lexing.next? = some (.ok (token, later))) :
    lexing = ⟨token :: later.tokens, later.failure⟩ := by
  have whole := lexing.eq_next?
  rwa [found] at whole

theorem Ended.tail {token : Token} {tokens : List Token} {failure : Option Error}
    (ended : Ended ⟨token :: tokens, failure⟩) (isInner : token.IsInner) :
    Ended ⟨tokens, failure⟩ := by
  generalize whole : (⟨token :: tokens, failure⟩ : Lexing) = lexing at ended
  cases ended with
  | @whole front stop areInner isStop =>
    cases front with
    | nil =>
      cases whole
      exact absurd isStop isInner
    | cons first front =>
      cases whole
      exact .whole (List.forall_mem_cons.1 areInner).2 isStop
  | failed areInner =>
    cases whole
    exact .failed (List.forall_mem_cons.1 areInner).2

theorem Proper.tail {token : Token} {tokens : List Token} {failure : Option Error}
    (proper : Proper ⟨token :: tokens, failure⟩) (isInner : token.IsInner) :
    Proper ⟨tokens, failure⟩ :=
  ⟨proper.ended.tail isInner, (List.forall_mem_cons.1 proper.holds).2⟩

/-- Nothing comes behind the end of input. -/
theorem Ended.nothing_behind {token : Token} {tokens : List Token} {failure : Option Error}
    (ended : Ended ⟨token :: tokens, failure⟩) (isStop : token.kind = .endOfInput) :
    tokens = [] ∧ failure = none :=
  ended.of_stop isStop (List.nil_append _).symm

/-- A token with others behind it is not the end of input. -/
theorem Ended.isInner_of_next {token next : Token} {tokens : List Token} {failure : Option Error}
    (ended : Ended ⟨token :: next :: tokens, failure⟩) : token.IsInner := fun isStop =>
  List.cons_ne_nil _ _ (ended.nothing_behind isStop).1

end Lexing

theorem proper_lex (source : String) : (lex source).Proper := by
  obtain ⟨tiles, rest, tiling⟩ := (lex_tiles_source source).2
  refine ⟨lexFrom_ended .start source.toList, fun token member => ?_⟩
  rw [tiling.tokens] at member
  obtain ⟨tile, isTile, rfl⟩ := List.mem_map.1 member
  obtain ⟨front, back, split⟩ := List.append_of_mem isTile
  exact (tiling.fits front tile back split).belongs

/-! ## Streams -/

/-- A stream of tokens: the one that it shows, and what it will fetch. -/
structure TokenStream where
  current : Token
  later : Lexing
  proper : Lexing.Proper ⟨current :: later.tokens, later.failure⟩

namespace TokenStream

/-- The tokens that it shows and will show, up to the end of input. -/
def lexing (s : TokenStream) : Lexing :=
  ⟨s.current :: s.later.tokens, s.later.failure⟩

/-- How many tokens wait behind the one that it shows. -/
def waiting (s : TokenStream) : Nat :=
  s.later.tokens.length

/-- The stream at the beginning of a source text. -/
def start (source : String) : Except Error TokenStream :=
  match found : (lex source).next? with
  | some (.ok (token, later)) =>
      .ok ⟨token, later, Lexing.eq_of_next? found ▸ proper_lex source⟩
  | some (.error error) => .error error
  | none => .ok ⟨⟨.endOfInput, "", .start⟩, ⟨[], none⟩,
      ⟨.whole (List.forall_mem_nil _) rfl, by simp [TokenKind.Holds]⟩⟩

/-- The stream when its token has been taken. Past the end it stays as it is. -/
def advance (s : TokenStream) : Except Error TokenStream :=
  match found : s.later.next? with
  | some (.ok (token, later)) =>
      .ok ⟨token, later, by
        have proper := s.proper
        rw [Lexing.eq_of_next? found] at proper
        exact proper.tail proper.ended.isInner_of_next⟩
  | some (.error error) => .error error
  | none => .ok s

end TokenStream

/-! ## Rules -/

namespace Streamed

/-- Something read from a stream: `none` if the reading did not come to an end. -/
abbrev Rule (α : Type) : Type :=
  StateT TokenStream (ExceptT Error Option) α

variable {α : Type}

/-- The token that stands next. -/
def peek : Rule Token := fun s => some (.ok (s.current, s))

/-- Stop at the token that stands next. -/
def refuse (cause : Token → SyntacticCause) : Rule α := fun s =>
  some (.error (.syntactic s.current.pos (cause s.current)))

/-- Take the next token, which must be of the given kind. -/
def eat (kind : TokenKind) : Rule Token := fun s =>
  if s.current.kind = kind then some (s.advance.map fun s' => (s.current, s'))
  else refuse (.expected kind) s

/-! Turns of loops. A turn gives what the loop has read so far, or nothing if the loop is over. -/

/-- A further operand, if an operator stands next. -/
abbrev operatorTurn (operator? : Token → Option BinaryOp) (operand : Rule Node) (lhs : Node) :
    Rule (Option Node) := do
  match operator? (← peek) with
  | none => return none
  | some op => do
      let token ← eat .operator
      let rhs ← operand
      return some (.binary (.ofToken token) op lhs rhs)

/-- A further item, if a comma stands next. -/
abbrev commaTurn (item : Rule Node) (items : List Node) : Rule (Option (List Node)) := do
  if (← peek).kind = .comma then do
    let _ ← eat .comma
    let node ← item
    return some (items ++ [node])
  else return none

/-- A further item, if a type word stands next. -/
abbrev typeTurn (item : Rule Node) (items : List Node) : Rule (Option (List Node)) := do
  if (← peek).kind = .typeSpecifier then do
    let node ← item
    return some (items ++ [node])
  else return none

/-- A further item, unless a closing brace stands next. -/
abbrev braceTurn (item : Rule Node) (items : List Node) : Rule (Option (List Node)) := do
  if (← peek).kind = .rightBrace then return none
  else do
    let node ← item
    return some (items ++ [node])

/-- A list up to the parenthesis that closes it. There may be nothing in it. -/
def closedList (list : Rule (List Node)) : Rule (List Node) := do
  let items ← if (← peek).kind = .rightParen then pure [] else list
  let _ ← eat .rightParen
  return items

/-- A list in parentheses. -/
def parenthesized (list : Rule (List Node)) : Rule (List Node) := do
  let _ ← eat .leftParen
  closedList list

def typeSpecifier : Rule Ty := do
  let token ← eat .typeSpecifier
  match Ty.ofSpecifier? token.text with
  | some ty => return ty
  | none => fun _ => some (.error (.syntactic token.pos (.unknownType token.text)))

def declaration : Rule Node := do
  let ty ← typeSpecifier
  let name ← eat .identifier
  let _ ← eat .semicolon
  return .declaration (.ofToken name) ty name.text

def parameter : Rule Node := do
  let ty ← typeSpecifier
  let name ← eat .identifier
  return .parameter (.ofToken name) ty name.text

/-- Everything that may go round: the rules that lead back to themselves, and the loops. -/
structure Rules where
  sum : Rule Node
  signed : Rule Node
  statement : Rule Node
  sumLoop : Node → Rule Node
  productLoop : Node → Rule Node
  argumentLoop : List Node → Rule (List Node)
  declarationLoop : List Node → Rule (List Node)
  statementLoop : List Node → Rule (List Node)
  parameterLoop : List Node → Rule (List Node)
  functionLoop : List Node → Rule (List Node)

namespace Rules

variable (r : Rules)

/-! Expressions. -/

def product : Rule Node := do
  let first ← r.signed
  r.productLoop first

def argumentList : Rule (List Node) := do
  let first ← r.sum
  r.argumentLoop [first]

def primary : Rule Node := do
  match (← peek).kind with
  | .leftParen => do
      let _ ← eat .leftParen
      let node ← r.sum
      let _ ← eat .rightParen
      return node
  | .identifier => do
      let token ← eat .identifier
      if (← peek).kind = .leftParen then do
        let values ← parenthesized r.argumentList
        return .call (.ofToken token) (.identifier (.ofToken token) token.text) values
      else return .identifier (.ofToken token) token.text
  | .integerConstant => do
      let token ← eat .integerConstant
      return .integer (.ofToken token) (Int32.ofNat (Decimal.ofDigits token.text.toList))
  | .doubleConstant => do
      let token ← eat .doubleConstant
      return .real (.ofToken token) (Decimal.read token.text.toList)
  | _ => refuse .expectedExpression

/-! Statements. -/

def returnStatement : Rule Node := do
  let token ← eat .returnWord
  let value ← r.sum
  let _ ← eat .semicolon
  return .returnValue (.ofToken token) value

def expressionStatement : Rule Node := do
  if (← peek).kind = .semicolon then do
    let token ← eat .semicolon
    return .empty (.ofToken token)
  else do
    let target ← eat .identifier
    let _ ← eat .assignment
    let value ← r.sum
    let _ ← eat .semicolon
    return .assignment (.ofToken target) target.text value

def ifStatement : Rule Node := do
  let token ← eat .ifWord
  let _ ← eat .leftParen
  let condition ← r.sum
  let _ ← eat .rightParen
  let consequent ← r.statement
  if (← peek).kind = .elseWord then do
    let _ ← eat .elseWord
    let alternative ← r.statement
    return .ifElse (.ofToken token) condition consequent alternative
  else return .ifThen (.ofToken token) condition consequent

def block : Rule Node := do
  let brace ← eat .leftBrace
  if (← peek).kind = .rightBrace then do
    let _ ← eat .rightBrace
    return .empty (.ofToken brace)
  else do
    let declarations ← r.declarationLoop []
    let statements ← r.statementLoop []
    let _ ← eat .rightBrace
    return .block (.ofToken brace) declarations statements

/-! Programs. -/

def parameterList : Rule (List Node) := do
  let first ← parameter
  r.parameterLoop [first]

def function : Rule Node := do
  let returnType ← typeSpecifier
  let name ← eat .identifier
  let parameters ← parenthesized r.parameterList
  let body ← r.block
  return .function (.ofToken name) returnType name.text parameters body

def program : Rule Node := do
  let first ← r.function
  let functions ← r.functionLoop [first]
  let stop ← eat .endOfInput
  return .program (.ofToken stop) functions

/-- The rules and the loops, written out once. -/
def next : Rules where
  sum := do
    let first ← r.product
    r.sumLoop first
  signed := do
    match Parser.signOperator? (← peek) with
    | some op => do
        let token ← eat .operator
        let operand ← r.signed
        return .unary (.ofToken token) op operand
    | none => r.primary
  statement := do
    match (← peek).kind with
    | .leftBrace => r.block
    | .returnWord => r.returnStatement
    | .ifWord => r.ifStatement
    | _ => r.expressionStatement
  sumLoop lhs := do
    match ← operatorTurn Parser.sumOperator? r.product lhs with
    | none => return lhs
    | some node => r.sumLoop node
  productLoop lhs := do
    match ← operatorTurn Parser.productOperator? r.signed lhs with
    | none => return lhs
    | some node => r.productLoop node
  argumentLoop values := do
    match ← commaTurn r.sum values with
    | none => return values
    | some values => r.argumentLoop values
  declarationLoop nodes := do
    match ← typeTurn declaration nodes with
    | none => return nodes
    | some nodes => r.declarationLoop nodes
  statementLoop nodes := do
    match ← braceTurn r.statement nodes with
    | none => return nodes
    | some nodes => r.statementLoop nodes
  parameterLoop nodes := do
    match ← commaTurn parameter nodes with
    | none => return nodes
    | some nodes => r.parameterLoop nodes
  functionLoop nodes := do
    match ← typeTurn r.function nodes with
    | none => return nodes
    | some nodes => r.functionLoop nodes

/-- What the rules and the loops do as long as they do not go round more often than that. -/
def nested : Nat → Rules
  | 0 =>
      let endless {α : Type} : Rule α := fun _ => none
      ⟨endless, endless, endless, fun _ => endless, fun _ => endless, fun _ => endless,
        fun _ => endless, fun _ => endless, fun _ => endless, fun _ => endless⟩
  | n + 1 => (nested n).next

end Rules

/-- The tree of a source text, if the parser comes to an end without going round more often than
that. -/
def parse (rounds : Nat) (source : String) : Option (Except Error Node) :=
  match TokenStream.start source with
  | .ok s => ((Rules.nested rounds).program.run s).run.map fun result => result.map (·.1)
  | .error error => some (.error error)

end Streamed
end MiniC
