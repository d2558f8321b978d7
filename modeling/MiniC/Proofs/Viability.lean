import MiniC.Proofs.Completeness

/-!
# Where the parser gives up

The parser reads from left to right and refuses a token as soon as no program starts with the tokens
up to it. Tokens are read one at a time, so a failure of the reading is met in the same order: it is
reported exactly if all tokens before it are the beginning of a program.
-/

namespace MiniC

namespace Grammar

open MiniC.Parser

/-- The beginning of some program. -/
def Viable (front : List Token) : Prop :=
  ∃ later, Grammatical (front ++ later)

/-- The token with index `i` is the first one that no program has at its place. -/
structure FirstWrong (tokens : List Token) (i : Nat) : Prop where
  viable : Viable (tokens.take i)
  wrong : ¬ Viable (tokens.take (i + 1))

/-! ## The end of input is no part of a function -/

mutual
theorem Sum.inner {word : List Token} {node : Node} :
    Sum word node → ∀ token ∈ word, token.IsInner
  | .single isProduct => isProduct.inner
  | .chain isSum isSign isProduct => by
    have left := isSum.inner
    have right := isProduct.inner
    have sign := isSign.2.1
    grind [Token.IsInner]
theorem Product.inner {word : List Token} {node : Node} :
    Product word node → ∀ token ∈ word, token.IsInner
  | .single isSigned => isSigned.inner
  | .chain isProduct isSign isSigned => by
    have left := isProduct.inner
    have right := isSigned.inner
    have sign := isSign.2.1
    grind [Token.IsInner]
theorem Signed.inner {word : List Token} {node : Node} :
    Signed word node → ∀ token ∈ word, token.IsInner
  | .plain isPrimary => isPrimary.inner
  | .sign isSign isSigned => by
    have operand := isSigned.inner
    have sign := isSign.1
    grind [Token.IsInner]
theorem Primary.inner {word : List Token} {node : Node} :
    Primary word node → ∀ token ∈ word, token.IsInner
  | .parentheses isLeft isSum isRight => by
    have inside := isSum.inner
    grind [Token.IsInner]
  | .name isName => by grind [Token.IsInner]
  | .integer isInteger => by grind [Token.IsInner]
  | .real isReal => by grind [Token.IsInner]
  | .call isName isLeft isSeries isRight => by
    have inside := isSeries.inner
    grind [Token.IsInner]
theorem Series.inner {word : List Token} {nodes : List Node} :
    Series Sum word nodes → ∀ token ∈ word, token.IsInner
  | .none => by simp
  | .some isListed => isListed.inner
theorem Listed.inner {word : List Token} {nodes : List Node} :
    Listed Sum word nodes → ∀ token ∈ word, token.IsInner
  | .last isSum => isSum.inner
  | .more isSum isComma isListed => by
    have first := isSum.inner
    have others := isListed.inner
    grind [Token.IsInner]
end

theorem Many.inner {Item : List Token → Node → Prop} {word : List Token} {nodes : List Node}
    (items : ∀ {word node}, Item word node → ∀ token ∈ word, token.IsInner)
    (isMany : Many Item word nodes) : ∀ token ∈ word, token.IsInner := by
  induction isMany with
  | nil => simp
  | cons isItem _ ih => exact List.forall_mem_append.2 ⟨items isItem, ih⟩

theorem Declaration.inner {word : List Token} {node : Node} :
    Declaration word node → ∀ token ∈ word, token.IsInner
  | .intro isType isName isSemicolon => by
    have type := isType.1
    grind [Token.IsInner]

mutual
theorem Statement.inner {word : List Token} {node : Node} :
    Statement word node → ∀ token ∈ word, token.IsInner
  | .block isBlock => isBlock.inner
  | .returnValue isReturn isValue isSemicolon => by
    have value := isValue.inner
    grind [Token.IsInner]
  | .empty isSemicolon => by grind [Token.IsInner]
  | .assignment isName isEquals isValue isSemicolon => by
    have value := isValue.inner
    grind [Token.IsInner]
  | .ifThen isIf isLeft isTest isRight isConsequent => by
    have test := isTest.inner
    have consequent := isConsequent.inner
    grind [Token.IsInner]
  | .ifElse isIf isLeft isTest isRight isConsequent isElse isAlternative => by
    have test := isTest.inner
    have consequent := isConsequent.inner
    have alternative := isAlternative.inner
    grind [Token.IsInner]
theorem Block.inner {word : List Token} {node : Node} :
    Block word node → ∀ token ∈ word, token.IsInner
  | .empty isLeft isRight => by grind [Token.IsInner]
  | .full isLeft areDeclarations areStatements _ isRight => by
    have first := areDeclarations.inner Declaration.inner
    have second := inner_statements areStatements
    grind [Token.IsInner]
theorem inner_statements {word : List Token} {nodes : List Node} :
    Many Statement word nodes → ∀ token ∈ word, token.IsInner
  | .nil => by simp
  | .cons isStatement areStatements =>
    List.forall_mem_append.2 ⟨isStatement.inner, inner_statements areStatements⟩
end

theorem Series.inner_parameters {word : List Token} {nodes : List Node} :
    Series Parameter word nodes → ∀ token ∈ word, token.IsInner
  | .none => by simp
  | .some isListed => by
    induction isListed with
    | last isParameter =>
      obtain ⟨isType, isName⟩ := isParameter
      have type := isType.1
      grind [Token.IsInner]
    | more isParameter isComma _ ih =>
      obtain ⟨isType, isName⟩ := isParameter
      have type := isType.1
      grind [Token.IsInner]

theorem Function.inner {word : List Token} {node : Node} :
    Function word node → ∀ token ∈ word, token.IsInner
  | .intro isType isName isLeft areParameters isRight isBlock => by
    have type := isType.1
    have inputs := areParameters.inner_parameters
    have code := isBlock.inner
    grind [Token.IsInner]

/-- The end of input ends a program. -/
theorem Program.stop_last {before later : List Token} {stop : Token} {tree : Node}
    (isStop : stop.kind = .endOfInput) (isProgram : Program (before ++ stop :: later) tree) :
    later = [] := by
  generalize whole : before ++ stop :: later = tokens at isProgram
  obtain ⟨areFunctions, _, _⟩ := isProgram
  exact eq_nil_of_inner (areFunctions.inner Function.inner) isStop whole.symm

/-! ## Beginnings of programs -/

theorem viable_of_exhausted {tokens : List Token}
    (exhausted : run program tokens = .error .exhausted) : Viable tokens := by
  obtain ⟨later, tree, isProgram⟩ := (reads_program tokens).viable exhausted
  exact ⟨later, tree, isProgram⟩

theorem not_viable_of_unexpected {tokens : List Token} {pos : Position} {cause : SyntacticCause}
    (refused : run program tokens = .error (.unexpected pos cause)) : ¬ Viable tokens := by
  rintro ⟨later, grammatical⟩
  obtain ⟨tree, derives⟩ := grammatical.exists_derives
  have found := derives.run_program []
  rw [List.append_nil] at found
  -- A refusal stays one whatever tokens follow, and these make a program.
  rcases (reads_program (tokens ++ later)).stable_all rfl with exhausted | same
  · rw [refused] at exhausted
    cases exhausted
  · rw [found, refused] at same
    cases same

/-- The parser refuses the first wrong token. -/
theorem exists_firstWrong {tokens : List Token} {pos : Position} {cause : SyntacticCause}
    (refused : run program tokens = .error (.unexpected pos cause)) :
    ∃ i token, tokens[i]? = some token ∧ token.pos = pos ∧ FirstWrong tokens i := by
  obtain ⟨front, token, back, rfl, place, exhausted, decided⟩ :=
    (reads_program tokens).earliest pos cause refused
  refine ⟨front.length, token, by simp, place, ?_, ?_⟩
  · rw [List.take_left]
    exact viable_of_exhausted exhausted
  · have taken : (front ++ token :: back).take (front.length + 1) = front ++ [token] := by
      rw [List.append_cons]
      exact List.take_left' (by simp)
    rw [taken]
    -- The refusal does not depend on what stands behind the token.
    rcases (reads_program (front ++ token :: back)).stable_all (List.append_cons front token back)
      with exhausted' | same
    · exact absurd exhausted' decided
    · rw [refused] at same
      cases result : run program (front ++ [token]) with
      | ok found =>
        rw [result] at same
        cases same
      | error stop =>
        rw [result] at same
        cases same
        exact not_viable_of_unexpected result

end Grammar

open Grammar MiniC.Parser

/-- If a text is read as a whole, then the parser finds out whether it is a program. -/
theorem run_program_ne_exhausted {tokens : List Token} {stop : Token}
    (isStop : stop.kind = .endOfInput) : run program (tokens ++ [stop]) ≠ .error .exhausted := by
  intro exhausted
  obtain ⟨later, grammatical⟩ := viable_of_exhausted exhausted
  obtain ⟨tree, derives⟩ := grammatical.exists_derives
  have whole := derives.program
  rw [List.append_assoc, List.singleton_append] at whole
  obtain rfl := whole.stop_last isStop
  have found := derives.run_program []
  rw [List.append_nil, List.append_nil, exhausted] at found
  cases found

theorem Lexing.parse_eq_error {lexing : Lexing} {error : Error}
    (failed : lexing.parse = .error error) :
    (∃ pos cause, error = .syntactic pos cause ∧
      run program lexing.tokens = .error (.unexpected pos cause)) ∨
    (error = lexing.failure.getD (.internal .noEndOfInput) ∧
      run program lexing.tokens = .error .exhausted) := by
  unfold Lexing.parse at failed
  unfold run
  split at failed
  · cases failed
  · next pos cause result =>
    cases failed
    exact .inl ⟨pos, cause, rfl, by rw [result]; rfl⟩
  · next result =>
    cases failed
    exact .inr ⟨rfl, by rw [result]; rfl⟩

/-- Two tokens of a text that stand at the same place are the same one. -/
theorem Lexing.InOrder.index_unique {lexing : Lexing} (inOrder : lexing.InOrder) {i j : Nat}
    {token other : Token} (isToken : lexing.tokens[i]? = some token)
    (isOther : lexing.tokens[j]? = some other) (same : token.pos = other.pos) : i = j := by
  obtain ⟨less, rfl⟩ := List.getElem?_eq_some_iff.1 isToken
  obtain ⟨less', rfl⟩ := List.getElem?_eq_some_iff.1 isOther
  rcases Nat.lt_trichotomy i j with before | same' | after
  · exact absurd same (List.pairwise_iff_getElem.1 inOrder.tokens i j less less' before).ne
  · exact same'
  · exact absurd same.symm (List.pairwise_iff_getElem.1 inOrder.tokens j i less' less after).ne

/-- A source text that is not a program is refused at the first token that is wrong. If it cannot be
read as far as that, then the failure of the reading is reported. -/
theorem Node.parse_error_earliest {source : String} {error : Error}
    (failed : Node.parse source = .error error) :
    (∃ pos cause, error = .syntactic pos cause ∧
      (∃ (i : Nat) (token : Token), (lex source).tokens[i]? = some token ∧ token.pos = pos) ∧
      (∀ (i : Nat) (token : Token), (lex source).tokens[i]? = some token → token.pos = pos →
        FirstWrong (lex source).tokens i) ∧
      ∀ pos' cause', (lex source).failure = some (.lexical pos' cause') → pos.Before pos') ∨
    ∃ pos cause, error = .lexical pos cause ∧ (lex source).toExcept = .error error ∧
      Viable (lex source).tokens ∧ ∀ token ∈ (lex source).tokens, token.pos.Before pos := by
  have inOrder : (lex source).InOrder := lexFrom_inOrder .start source.toList
  have ended : (lex source).Ended := lexFrom_ended .start source.toList
  rcases Lexing.parse_eq_error failed with ⟨pos, cause, rfl, refused⟩ | ⟨rfl, exhausted⟩
  · obtain ⟨i, token, isToken, rfl, firstWrong⟩ := exists_firstWrong refused
    refine .inl ⟨token.pos, cause, rfl, ⟨i, token, isToken, rfl⟩, fun j other isOther same => ?_,
      fun pos' cause' failed' => ?_⟩
    · rwa [inOrder.index_unique isOther isToken same]
    · exact inOrder.failure pos' cause' failed' token (List.mem_of_getElem? isToken)
  · generalize lex source = lexing at inOrder ended exhausted
    cases ended with
    | whole _ isStop => exact absurd exhausted (run_program_ne_exhausted isStop)
    | @failed tokens pos cause _ =>
      exact .inr ⟨pos, cause, rfl, rfl, viable_of_exhausted exhausted,
        inOrder.failure pos cause rfl⟩

/-- A parameter is missing in front of the semicolon. The dollar sign behind it is never met. -/
theorem missing_parameter_refused :
    Node.parse "int f(; $" =
        .error (.syntactic ⟨1, 7⟩ (.expected .typeSpecifier ⟨.semicolon, ";", ⟨1, 7⟩⟩)) ∧
      FirstWrong (lex "int f(; $").tokens 3 := by
  have found : (match Node.parse "int f(; $" with
      | .ok _ => none
      | .error error => some error) =
        some (.syntactic ⟨1, 7⟩ (.expected .typeSpecifier ⟨.semicolon, ";", ⟨1, 7⟩⟩)) := by
    decide +kernel
  have place : (lex "int f(; $").tokens[3]? = some ⟨.semicolon, ";", ⟨1, 7⟩⟩ := by decide +kernel
  split at found
  · cases found
  · next error failed =>
    cases found
    rcases Node.parse_error_earliest failed with
      ⟨pos, cause, same, _, wrong, _⟩ | ⟨pos, cause, same, _⟩
    · cases same
      exact ⟨failed, wrong 3 _ place rfl⟩
    · cases same

end MiniC
