import MiniC.Proofs.Results
import MiniC.Tree.Parser

/-!
# The rules of the parser, without their bounds

Every rule of the parser proves that it leaves fewer tokens, so that the recursion ends. What it
does with the tokens is said here without these proofs: a rule looks at the next token, skips it,
refuses it, or hands on to other rules.
-/

namespace MiniC.Parser

/-- Something read from the front of the tokens that are left. -/
abbrev Rule (α : Type) : Type :=
  StateT (List Token) (Except Stop) α

/-- A result without the bound on the tokens that are left. -/
def forget {α : Type} {Bound : List Token → Prop}
    (result : Except Stop (α × { rest : List Token // Bound rest })) :
    Except Stop (α × List Token) :=
  result.map fun found => (found.1, found.2.1)

/-- A rule of the parser without the bound on the tokens that it leaves. -/
def run {α : Type} {Bound : List Token → List Token → Prop}
    (rule : (s : List Token) → Except Stop (α × { rest : List Token // Bound s rest })) : Rule α :=
  fun s => forget (rule s)

/-- Look at the next token. -/
def look : Rule Token
  | [] => .error .exhausted
  | token :: s => .ok (token, token :: s)

/-- Leave out the next token. -/
def skip : Rule Unit
  | [] => .error .exhausted
  | _ :: s => .ok ((), s)

/-- Stop at the next token. -/
def refuse {α : Type} (cause : Token → SyntacticCause) : Rule α
  | [] => .error .exhausted
  | token :: _ => .error (.unexpected token.pos (cause token))

section Bind

variable {α β : Type} {Left Left' : List Token → List Token → Prop}

theorem bind_of_ok {first : Rule α} {next : α → Rule β} {s rest : List Token} {a : α}
    (found : first s = .ok (a, rest)) : (first >>= next) s = next a rest := by
  change (first s >>= fun found => next found.1 found.2) = _
  rw [found]
  rfl

theorem bind_of_error {first : Rule α} {next : α → Rule β} {s : List Token} {stop : Stop}
    (found : first s = .error stop) : (first >>= next) s = .error stop := by
  change (first s >>= fun found => next found.1 found.2) = _
  rw [found]
  rfl

theorem of_bind_ok {first : Rule α} {next : α → Rule β} {s rest : List Token} {b : β}
    (found : (first >>= next) s = .ok (b, rest)) :
    ∃ a middle, first s = .ok (a, middle) ∧ next a middle = .ok (b, rest) := by
  cases result : first s with
  | error stop =>
    rw [bind_of_error result] at found
    cases found
  | ok pair =>
    rw [bind_of_ok result] at found
    exact ⟨pair.1, pair.2, rfl, found⟩

theorem of_bind_error {first : Rule α} {next : α → Rule β} {s : List Token} {stop : Stop}
    (failed : (first >>= next) s = .error stop) :
    first s = .error stop ∨ ∃ a middle, first s = .ok (a, middle) ∧ next a middle = .error stop := by
  cases result : first s with
  | error stop' =>
    rw [bind_of_error result] at failed
    exact .inl (congrArg Except.error (Except.error.inj failed))
  | ok pair =>
    rw [bind_of_ok result] at failed
    exact .inr ⟨pair.1, pair.2, rfl, failed⟩

@[simp] theorem look_bind (next : Token → Rule β) (token : Token) (s : List Token) :
    (look >>= next) (token :: s) = next token (token :: s) := rfl

@[simp] theorem skip_bind (next : Unit → Rule β) (token : Token) (s : List Token) :
    (skip >>= next) (token :: s) = next () s := rfl

theorem run_bound {Bound : List Token → List Token → Prop}
    {rule : (s : List Token) → Except Stop (α × { rest : List Token // Bound s rest })}
    {s rest : List Token} {a : α} (found : run rule s = .ok (a, rest)) : Bound s rest := by
  unfold run at found
  cases result : rule s with
  | error stop =>
    rw [result] at found
    cases found
  | ok pair =>
    rw [result] at found
    cases found
    exact pair.2.2

/-- A part and what follows it, without their bounds. -/
theorem forget_bind {Bound Bound' : List Token → Prop}
    {part : Except Stop (α × { rest : List Token // Bound rest })}
    {next : α × { rest : List Token // Bound rest } →
      Except Stop (β × { rest : List Token // Bound' rest })}
    {next' : α × List Token → Except Stop (β × List Token)}
    (same : ∀ a rest bound, forget (next (a, ⟨rest, bound⟩)) = next' (a, rest)) :
    forget (part >>= next) = forget part >>= next' := by
  cases part with
  | error stop => rfl
  | ok found => exact same found.1 found.2.1 found.2.2

/-- The last part of a rule only needs another bound. -/
theorem forget_bind_last {Bound Bound' : List Token → Prop}
    {part : Except Stop (α × { rest : List Token // Bound rest })}
    {next : α × { rest : List Token // Bound rest } →
      Except Stop (α × { rest : List Token // Bound' rest })}
    (same : ∀ a rest bound, forget (next (a, ⟨rest, bound⟩)) = .ok (a, rest)) :
    forget (part >>= next) = forget part := by
  cases part with
  | error stop => rfl
  | ok found => exact same found.1 found.2.1 found.2.2

end Bind

theorem run_eat (kind : TokenKind) :
    run (eat kind) = (do
      let token ← look
      if token.kind = kind then do
        skip
        return token
      else refuse fun token => .expected kind token) := by
  funext s
  cases s with
  | nil => rfl
  | cons token s =>
    rw [look_bind]
    unfold run
    rw [eat]
    split <;> rfl

/-- An item, and the others behind it. -/
def both (item : Rule Node) (others : Rule (List Node)) : Rule (List Node) := do
  let first ← item
  let more ← others
  return first :: more

/-- Further items, each behind a comma, up to the closing parenthesis. -/
def further (item : Rule Node) (others : Rule (List Node)) : Rule (List Node) := do
  let token ← look
  if token.kind = .comma then do
    skip
    both item others
  else do
    let _ ← run (eat .rightParen)
    return []

/-- Items between commas up to the closing parenthesis, or none. -/
def series (item : Rule Node) (others : Rule (List Node)) : Rule (List Node) := do
  let token ← look
  if token.kind = .rightParen then do
    skip
    return []
  else both item others

/-- Items as long as a type word stands next. -/
def many (item : Rule Node) (others : Rule (List Node)) : Rule (List Node) := do
  let token ← look
  if token.kind = .typeSpecifier then both item others else return []

/-! ## Expressions -/

theorem run_sum :
    run sum = (do
      let first ← run product
      run (sumRest first)) := by
  funext s
  unfold run
  rw [sum]
  exact forget_bind fun first r _ => forget_bind_last fun _ _ _ => rfl

theorem run_sumRest (lhs : Node) :
    run (sumRest lhs) = (do
      let token ← look
      match sumOperator? token with
      | none => return lhs
      | some op => do
          skip
          let rhs ← run product
          run (sumRest (.binary (.ofToken token) op lhs rhs))) := by
  funext s
  unfold run
  rw [sumRest.eq_def]
  cases s with
  | nil => rfl
  | cons token s =>
    rw [look_bind]
    dsimp only
    cases sumOperator? token with
    | none => rfl
    | some op => exact forget_bind fun rhs r _ => forget_bind_last fun _ _ _ => rfl

theorem run_product :
    run product = (do
      let first ← run signed
      run (productRest first)) := by
  funext s
  unfold run
  rw [product]
  exact forget_bind fun first r _ => forget_bind_last fun _ _ _ => rfl

theorem run_productRest (lhs : Node) :
    run (productRest lhs) = (do
      let token ← look
      match productOperator? token with
      | none => return lhs
      | some op => do
          skip
          let rhs ← run signed
          run (productRest (.binary (.ofToken token) op lhs rhs))) := by
  funext s
  unfold run
  rw [productRest.eq_def]
  cases s with
  | nil => rfl
  | cons token s =>
    rw [look_bind]
    dsimp only
    cases productOperator? token with
    | none => rfl
    | some op => exact forget_bind fun rhs r _ => forget_bind_last fun _ _ _ => rfl

theorem run_signed :
    run signed = (do
      let token ← look
      match signOperator? token with
      | some op => do
          skip
          let operand ← run signed
          return .unary (.ofToken token) op operand
      | none => run primary) := by
  funext s
  unfold run
  rw [signed.eq_def]
  cases s with
  | nil => rfl
  | cons token s =>
    rw [look_bind]
    dsimp only
    cases signOperator? token with
    | none => rfl
    | some op => exact forget_bind fun _ _ _ => rfl

theorem run_primary :
    run primary = (do
      let token ← look
      match token.kind with
      | .leftParen => do
          skip
          let node ← run sum
          let _ ← run (eat .rightParen)
          return node
      | .identifier => do
          skip
          let next ← look
          if next.kind = .leftParen then do
            skip
            let values ← run arguments
            return .call (.ofToken token) (.identifier (.ofToken token) token.text) values
          else return .identifier (.ofToken token) token.text
      | .integerConstant => do
          skip
          return .integer (.ofToken token) (Int32.ofNat (Decimal.ofDigits token.text.toList))
      | .doubleConstant => do
          skip
          return .real (.ofToken token) (Decimal.read token.text.toList)
      | _ => refuse .expectedExpression) := by
  funext s
  unfold run
  rw [primary.eq_def]
  cases s with
  | nil => rfl
  | cons token s =>
    rw [look_bind]
    dsimp only
    cases token.kind with
    | leftParen => exact forget_bind fun node r _ => forget_bind fun _ _ _ => rfl
    | identifier =>
      cases s with
      | nil => rfl
      | cons next later =>
        dsimp only
        rw [skip_bind, look_bind]
        split
        · exact forget_bind fun _ _ _ => rfl
        · rfl
    | _ => rfl

theorem run_arguments : run arguments = series (run sum) (run argumentsRest) := by
  funext s
  unfold run series
  rw [arguments.eq_def]
  cases s with
  | nil => rfl
  | cons token s =>
    rw [look_bind]
    dsimp only
    split
    · rfl
    · exact forget_bind fun first r _ => forget_bind fun _ _ _ => rfl

theorem run_argumentsRest : run argumentsRest = further (run sum) (run argumentsRest) := by
  funext s
  unfold run further
  rw [argumentsRest.eq_def]
  cases s with
  | nil => rfl
  | cons token s =>
    rw [look_bind]
    dsimp only
    split
    · exact forget_bind fun first r _ => forget_bind fun _ _ _ => rfl
    · exact forget_bind fun _ _ _ => rfl

/-! ## Statements -/

theorem run_typeSpecifier :
    run typeSpecifier = (do
      let token ← look
      if token.kind = .typeSpecifier then
        match Ty.ofSpecifier? token.text with
        | some ty => do
            skip
            return ty
        | none => refuse fun token => .unknownType token.text
      else refuse fun token => .expected .typeSpecifier token) := by
  funext s
  unfold run
  cases s with
  | nil => rfl
  | cons token s =>
    rw [look_bind, typeSpecifier, eat]
    split
    · dsimp only [ok_bind]
      cases Ty.ofSpecifier? token.text <;> rfl
    · rfl

theorem run_declaration :
    run declaration = (do
      let ty ← run typeSpecifier
      let name ← run (eat .identifier)
      let _ ← run (eat .semicolon)
      return .declaration (.ofToken name) ty name.text) := by
  funext s
  exact forget_bind fun ty r _ => forget_bind fun name r1 _ => forget_bind fun _ _ _ => rfl

theorem run_declarations : run declarations = many (run declaration) (run declarations) := by
  funext s
  unfold run many
  rw [declarations.eq_def]
  cases s with
  | nil => rfl
  | cons token s =>
    rw [look_bind]
    dsimp only
    split
    · exact forget_bind fun first r _ => forget_bind fun _ _ _ => rfl
    · rfl

theorem run_statement :
    run statement = (do
      let token ← look
      match token.kind with
      | .leftBrace => run block
      | .returnWord => do
          skip
          let value ← run sum
          let _ ← run (eat .semicolon)
          return .returnValue (.ofToken token) value
      | .ifWord => do
          skip
          let _ ← run (eat .leftParen)
          let condition ← run sum
          let _ ← run (eat .rightParen)
          let consequent ← run statement
          let next ← look
          if next.kind = .elseWord then do
            skip
            let alternative ← run statement
            return .ifElse (.ofToken token) condition consequent alternative
          else return .ifThen (.ofToken token) condition consequent
      | .semicolon => do
          skip
          return .empty (.ofToken token)
      | .identifier => do
          skip
          let _ ← run (eat .assignment)
          let value ← run sum
          let _ ← run (eat .semicolon)
          return .assignment (.ofToken token) token.text value
      | _ => refuse fun token => .expected .identifier token) := by
  funext s
  unfold run
  rw [statement.eq_def]
  cases s with
  | nil => rfl
  | cons token s =>
    rw [look_bind]
    dsimp only
    cases token.kind with
    | returnWord => exact forget_bind fun value r _ => forget_bind fun _ _ _ => rfl
    | ifWord =>
      refine forget_bind fun _ r _ => forget_bind fun condition r1 _ => forget_bind fun _ r2 _ =>
        forget_bind fun consequent r3 _ => ?_
      -- The `else` is looked for among what the inner statement leaves, and that may be nothing.
      cases r3 with
      | nil => rfl
      | cons next later =>
        dsimp only
        rw [look_bind]
        split
        · exact forget_bind fun _ _ _ => rfl
        · rfl
    | identifier =>
      exact forget_bind fun _ r _ => forget_bind fun value r1 _ => forget_bind fun _ _ _ => rfl
    | _ => rfl

theorem run_block :
    run block = (do
      let brace ← run (eat .leftBrace)
      let next ← look
      if next.kind = .rightBrace then do
        skip
        return .empty (.ofToken brace)
      else do
        let first ← run declarations
        let second ← run statements
        return .block (.ofToken brace) first second) := by
  funext s
  unfold run
  rw [block.eq_def]
  refine forget_bind fun brace r _ => ?_
  cases r with
  | nil => rfl
  | cons next later =>
    dsimp only
    rw [look_bind]
    split
    · rfl
    · exact forget_bind fun first r1 _ => forget_bind fun _ _ _ => rfl

theorem run_statements :
    run statements = (do
      let token ← look
      if token.kind = .rightBrace then do
        skip
        return []
      else do
        let first ← run statement
        let more ← run statements
        return first :: more) := by
  funext s
  unfold run
  rw [statements.eq_def]
  cases s with
  | nil => rfl
  | cons token s =>
    rw [look_bind]
    dsimp only
    split
    · rfl
    · exact forget_bind fun first r _ => forget_bind fun _ _ _ => rfl

/-! ## Programs -/

theorem run_parameter :
    run parameter = (do
      let ty ← run typeSpecifier
      let name ← run (eat .identifier)
      return .parameter (.ofToken name) ty name.text) := by
  funext s
  exact forget_bind fun ty r _ => forget_bind fun _ _ _ => rfl

theorem run_parametersRest :
    run parametersRest = further (run parameter) (run parametersRest) := by
  funext s
  unfold run further
  rw [parametersRest.eq_def]
  cases s with
  | nil => rfl
  | cons token s =>
    rw [look_bind]
    dsimp only
    split
    · exact forget_bind fun first r _ => forget_bind fun _ _ _ => rfl
    · exact forget_bind fun _ _ _ => rfl

theorem run_parameters : run parameters = series (run parameter) (run parametersRest) := by
  funext s
  cases s with
  | nil => rfl
  | cons token s =>
    unfold run series
    rw [look_bind, parameters]
    split
    · rfl
    · exact forget_bind fun first r _ => forget_bind fun _ _ _ => rfl

theorem run_function :
    run function = (do
      let ty ← run typeSpecifier
      let name ← run (eat .identifier)
      let _ ← run (eat .leftParen)
      let inputs ← run parameters
      let body ← run block
      return .function (.ofToken name) ty name.text inputs body) := by
  funext s
  exact forget_bind fun ty r _ => forget_bind fun name r1 _ => forget_bind fun _ r2 _ =>
    forget_bind fun inputs r3 _ => forget_bind fun _ _ _ => rfl

theorem run_functions : run functions = many (run function) (run functions) := by
  funext s
  unfold run many
  rw [functions.eq_def]
  cases s with
  | nil => rfl
  | cons token s =>
    rw [look_bind]
    dsimp only
    split
    · exact forget_bind fun first r _ => forget_bind fun _ _ _ => rfl
    · rfl

theorem run_program :
    run program = (do
      let first ← run function
      let more ← run functions
      let stop ← run (eat .endOfInput)
      return .program (.ofToken stop) (first :: more)) := by
  funext s
  exact forget_bind fun first r _ => forget_bind fun more r1 _ => forget_bind fun _ _ _ => rfl

end MiniC.Parser

namespace MiniC

/-- What is made of what the parser finds. -/
theorem parse_eq (lexing : Lexing) : lexing.parse =
    match Parser.run Parser.program lexing.tokens with
    | .ok (node, _) => .ok node
    | .error (.unexpected pos cause) => .error (.syntactic pos cause)
    | .error .exhausted => .error (lexing.failure.getD (.internal .noEndOfInput)) := by
  unfold Lexing.parse Parser.run
  cases Parser.program lexing.tokens with
  | ok found => rfl
  | error stop => cases stop <;> rfl

end MiniC
