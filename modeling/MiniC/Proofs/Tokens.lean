import MiniC.Proofs.Parsing

/-!
# What the tokens of a source text are like

Tokens stand one behind the other, and what stops the reading stands behind all of them. The end of
input is the last token of a text that is read as a whole, and is no token of any other.
-/

namespace MiniC

namespace Position

/-- Further up, or on the same line and further to the left. -/
def Before (pos other : Position) : Prop :=
  pos.line < other.line ∨ pos.line = other.line ∧ pos.column < other.column

theorem Before.trans {pos middle other : Position} (first : pos.Before middle)
    (second : middle.Before other) : pos.Before other := by
  unfold Before at *
  omega

theorem Before.ne {pos other : Position} (before : pos.Before other) : pos ≠ other := by
  rintro rfl
  unfold Before at before
  omega

theorem before_advance (pos : Position) (c : Char) : pos.Before (pos.advance c) := by
  unfold advance Before
  split
  · exact .inl (Nat.lt_succ_self _)
  · exact .inr ⟨rfl, Nat.lt_succ_self _⟩

theorem eq_or_before_after (pos : Position) (chars : List Char) :
    pos = pos.after chars ∨ pos.Before (pos.after chars) := by
  unfold after
  induction chars generalizing pos with
  | nil => exact .inl rfl
  | cons c chars ih =>
    rw [List.foldl_cons]
    rcases ih (pos.advance c) with same | before
    · exact .inr (same ▸ pos.before_advance c)
    · exact .inr ((pos.before_advance c).trans before)

theorem Before.after {pos other : Position} (before : pos.Before other) (chars : List Char) :
    pos.Before (other.after chars) := by
  rcases other.eq_or_before_after chars with same | further
  · exact same ▸ before
  · exact before.trans further

theorem before_after_cons (pos : Position) (c : Char) (chars : List Char) :
    pos.Before (pos.after (c :: chars)) :=
  (pos.before_advance c).after chars

end Position

/-! ## Positions -/

namespace Lexing

/-- Everything that was found, tokens and failure, stands behind `pos`. -/
structure Behind (lexing : Lexing) (pos : Position) : Prop where
  tokens : ∀ token ∈ lexing.tokens, pos.Before token.pos
  failure : ∀ pos' cause, lexing.failure = some (.lexical pos' cause) → pos.Before pos'

/-- The tokens stand one behind the other, and the failure behind all of them. -/
structure InOrder (lexing : Lexing) : Prop where
  tokens : lexing.tokens.Pairwise fun token other => token.pos.Before other.pos
  failure : ∀ pos cause, lexing.failure = some (.lexical pos cause) →
    ∀ token ∈ lexing.tokens, token.pos.Before pos

end Lexing

theorem lexFrom_behind {start pos : Position} (chars : List Char) (before : start.Before pos) :
    (lexFrom pos chars).Behind start := by
  fun_induction lexFrom pos chars with
  | case1 pos chars place found =>
    refine ⟨fun token member => ?_, fun pos' cause failed => by cases failed⟩
    rw [List.mem_singleton.1 member]
    exact before.after _
  | case2 pos chars place c rest found cause' failed =>
    refine ⟨fun token member => absurd member List.not_mem_nil, fun pos' cause failed' => ?_⟩
    cases failed'
    exact before.after _
  | case3 pos chars place c rest found kind more isLexeme token later ih =>
    have here : start.Before place := before.after _
    have behind := ih (here.after _)
    exact ⟨List.forall_mem_cons.2 ⟨here, behind.tokens⟩, behind.failure⟩

theorem lexFrom_inOrder (pos : Position) (chars : List Char) : (lexFrom pos chars).InOrder := by
  fun_induction lexFrom pos chars with
  | case1 pos chars place found =>
    exact ⟨List.pairwise_singleton _ _, fun pos' cause failed => by cases failed⟩
  | case2 pos chars place c rest found cause' failed =>
    exact ⟨.nil, fun pos' cause failed' token member => absurd member List.not_mem_nil⟩
  | case3 pos chars place c rest found kind more isLexeme token later ih =>
    -- The reading goes on at the end of the token, and a token is never empty.
    have behind : later.Behind token.pos :=
      lexFrom_behind _ (place.before_after_cons c more)
    refine ⟨List.pairwise_cons.2 ⟨behind.tokens, ih.tokens⟩, fun pos' cause failed => ?_⟩
    exact List.forall_mem_cons.2 ⟨behind.failure pos' cause failed, ih.failure pos' cause failed⟩

/-! ## Names -/

/-- Only words are names, and only those that have no other kind. -/
theorem wordKind_of_lexeme {c : Char} {rest more : List Char}
    (found : lexeme c rest = .ok (.identifier, more)) :
    wordKind (String.ofList (c :: more)) = .identifier := by
  unfold lexeme at found
  split at found
  · next kind isPunctuation =>
    cases found
    exact absurd rfl (punctuation?_kind isPunctuation)
  · split at found
    · exact absurd rfl (number_kind found)
    · split at found
      · obtain ⟨isName, rfl⟩ := Prod.mk.inj (Except.ok.inj found)
        exact isName
      · cases found

theorem wordKind_of_mem_lexFrom {pos : Position} {chars : List Char} :
    ∀ token ∈ (lexFrom pos chars).tokens, token.kind = .identifier →
      wordKind token.text = .identifier := by
  fun_induction lexFrom pos chars with
  | case1 pos chars place found =>
    intro token member isName
    rw [List.mem_singleton.1 member] at isName
    cases isName
  | case2 => exact fun token member => absurd member List.not_mem_nil
  | case3 pos chars place c rest found kind more isLexeme token later ih =>
    refine List.forall_mem_cons.2 ⟨fun isName => @wordKind_of_lexeme c rest more ?_, ih⟩
    rw [isLexeme, show kind = .identifier from isName]

/-- No name is the word for a type. -/
theorem ne_typeName_of_mem_lex {source : String} {token : Token}
    (member : token ∈ (lex source).tokens) (isName : token.kind = .identifier) (ty : Ty) :
    token.text ≠ ty.name := by
  intro isType
  have isWord := wordKind_of_mem_lexFrom token member isName
  rw [isType] at isWord
  cases ty <;> exact absurd isWord (by decide)

/-! ## The end of input -/

theorem punctuation?_ne_endOfInput (c : Char) : punctuation? c ≠ some .endOfInput := by
  unfold punctuation?
  split <;> simp

theorem wordKind_ne_endOfInput (word : String) : wordKind word ≠ .endOfInput := by
  unfold wordKind
  split
  · simp
  split
  · simp
  split
  · simp
  split <;> simp

theorem number_ne_endOfInput {c : Char} {rest more : List Char} :
    number c rest ≠ .ok (.endOfInput, more) := by
  unfold number
  dsimp only
  split
  · simp
  · split <;> simp

theorem lexeme_ne_endOfInput {c : Char} {rest more : List Char} :
    lexeme c rest ≠ .ok (.endOfInput, more) := by
  unfold lexeme
  intro found
  split at found
  · next kind punctuation =>
    cases found
    exact punctuation?_ne_endOfInput c punctuation
  · split at found
    · exact number_ne_endOfInput found
    · split at found
      · exact wordKind_ne_endOfInput _ (Prod.mk.inj (Except.ok.inj found)).1
      · cases found

/-- A token other than the end of input. -/
def Token.IsInner (token : Token) : Prop := token.kind ≠ .endOfInput

/-- How a reading ends: with the end of input, or with a failure instead of it. -/
inductive Lexing.Ended : Lexing → Prop
  | whole {front : List Token} {stop : Token} : (∀ token ∈ front, token.IsInner) →
      stop.kind = .endOfInput → Ended ⟨front ++ [stop], none⟩
  | failed {tokens : List Token} {pos : Position} {cause : LexicalCause} :
      (∀ token ∈ tokens, token.IsInner) → Ended ⟨tokens, some (.lexical pos cause)⟩

theorem Lexing.Ended.cons {token : Token} {lexing : Lexing} (isInner : token.IsInner) :
    lexing.Ended → Ended ⟨token :: lexing.tokens, lexing.failure⟩
  | .whole areInner isStop => .whole (List.forall_mem_cons.2 ⟨isInner, areInner⟩) isStop
  | .failed areInner => .failed (List.forall_mem_cons.2 ⟨isInner, areInner⟩)

/-- Behind inner tokens, the end of input is the last one. -/
theorem eq_nil_of_inner {front before rest : List Token} {last stop : Token}
    (areInner : ∀ token ∈ front, token.IsInner) (isStop : stop.kind = .endOfInput)
    (split : front ++ [last] = before ++ stop :: rest) : rest = [] := by
  rcases List.eq_nil_or_concat rest with rfl | ⟨init, last', rfl⟩
  · rfl
  · have split' : front ++ [last] = (before ++ stop :: init) ++ [last'] := by simpa using split
    have member : stop ∈ front := by
      rw [(List.append_inj' split' rfl).1]
      exact List.mem_append_right _ List.mem_cons_self
    exact absurd isStop (areInner stop member)

/-- The end of input has no token behind it, and no failure. -/
theorem Lexing.Ended.of_stop {lexing : Lexing} {before rest : List Token} {stop : Token}
    (isStop : stop.kind = .endOfInput) :
    lexing.Ended → lexing.tokens = before ++ stop :: rest → rest = [] ∧ lexing.failure = none
  | .whole areInner _, split => ⟨eq_nil_of_inner areInner isStop split, rfl⟩
  | @Lexing.Ended.failed tokens _ _ areInner, split => by
    have member : stop ∈ tokens := by
      rw [show tokens = before ++ stop :: rest from split]
      exact List.mem_append_right _ List.mem_cons_self
    exact absurd isStop (areInner stop member)

theorem lexFrom_ended (pos : Position) (chars : List Char) : (lexFrom pos chars).Ended := by
  fun_induction lexFrom pos chars with
  | case1 => exact .whole (fun token member => absurd member List.not_mem_nil) rfl
  | case2 => exact .failed fun token member => absurd member List.not_mem_nil
  | case3 pos chars place c rest found kind more isLexeme token later ih =>
    refine ih.cons fun isStop => ?_
    rw [show kind = .endOfInput from isStop] at isLexeme
    exact lexeme_ne_endOfInput isLexeme

end MiniC
