import Mathlib.Data.List.TakeWhile
import MiniC.Proofs.Tokens

/-!
# Texts that are read as given tokens

A token is read again from its own text, wherever it stands, as long as nothing behind it goes on
with it. A text that is put together from the texts of tokens is therefore read as these tokens, if
a blank or a punctuation mark stands wherever two of them could run together.

What a text is read as is a property of tokens, a phrase: where tokens stand does not matter, only
what they say.
-/

namespace MiniC

/-! ## Single tokens -/

/-- What may stand behind a word or a number: nothing, or a character that does not go on with it. -/
def Breaks : List Char → Prop
  | [] => True
  | c :: _ => isWordChar c = false ∧ c ≠ '.'

theorem isWordChar_of_isDigit {c : Char} (digit : c.isDigit) : isWordChar c := by
  simp [isWordChar, Char.isAlphanum, digit]

/-- Characters of a word or a number end where the text breaks. -/
theorem takeWhile_of_breaks {p : Char → Bool} (within : ∀ c, p c → isWordChar c)
    {more later : List Char} (all : ∀ c ∈ more, p c) (breaks : Breaks later) :
    (more ++ later).takeWhile p = more ∧ (more ++ later).dropWhile p = later := by
  rw [List.takeWhile_append_of_pos all, List.dropWhile_append_of_pos all]
  cases later with
  | nil => simp
  | cons c later =>
    have stops : p c = false := by
      cases holds : p c with
      | false => rfl
      | true =>
        have isChar := within c holds
        rw [breaks.1] at isChar
        cases isChar
    simp [stops]

theorem number_append {c : Char} {rest more later : List Char} {kind : TokenKind}
    (found : number c rest = .ok (kind, more)) (breaks : Breaks later) :
    number c (more ++ later) = .ok (kind, more) := by
  have digits : ∀ d ∈ rest.takeWhile Char.isDigit, d.isDigit := fun d => List.mem_takeWhile_imp
  unfold number at found
  dsimp only at found
  split at found
  · next fraction _ =>
    cases found
    have digits' : ∀ d ∈ fraction.takeWhile Char.isDigit, d.isDigit := fun d => List.mem_takeWhile_imp
    obtain ⟨whole, point⟩ : (rest.takeWhile Char.isDigit ++
          '.' :: (fraction.takeWhile Char.isDigit ++ later)).takeWhile Char.isDigit =
            rest.takeWhile Char.isDigit ∧
        (rest.takeWhile Char.isDigit ++
          '.' :: (fraction.takeWhile Char.isDigit ++ later)).dropWhile Char.isDigit =
            '.' :: (fraction.takeWhile Char.isDigit ++ later) := by
      rw [List.takeWhile_append_of_pos digits, List.dropWhile_append_of_pos digits]
      simp
    unfold number
    dsimp only
    rw [List.append_assoc, List.cons_append, whole, point]
    have behind := (takeWhile_of_breaks (fun _ => isWordChar_of_isDigit) digits' breaks).1
    simp [behind]
  · split at found
    · next small =>
      cases found
      obtain ⟨whole, behind⟩ := takeWhile_of_breaks (fun _ => isWordChar_of_isDigit) digits breaks
      unfold number
      dsimp only
      rw [whole, behind]
      split
      · exact absurd rfl breaks.2
      · rw [if_pos small]
    · cases found

/-- A token is read again where its text stands, if nothing goes on with it. -/
theorem lexeme_append {c : Char} {rest more later : List Char} {kind : TokenKind}
    (found : lexeme c rest = .ok (kind, more)) (breaks : Breaks later) :
    lexeme c (more ++ later) = .ok (kind, more) := by
  unfold lexeme at found ⊢
  split at found
  · cases found
    rfl
  · split at found
    · next digit =>
      rw [if_pos digit]
      exact number_append found breaks
    · next noDigit =>
      split at found
      · next start =>
        obtain ⟨isKind, rfl⟩ := Prod.mk.inj (Except.ok.inj found)
        have all : ∀ d ∈ (rest.takeWhile isWordChar).take (maxWordLength - 1), isWordChar d :=
          fun d member => List.mem_takeWhile_imp (List.mem_of_mem_take member)
        rw [if_neg noDigit, if_pos start]
        dsimp only
        rw [(takeWhile_of_breaks (fun _ holds => holds) all breaks).1, List.take_take, Nat.min_self,
          isKind]
      · cases found

/-- The text is read as a token of that kind wherever it stands, if nothing goes on with it. -/
def IsSpelling (kind : TokenKind) (text : String) : Prop :=
  ∃ c more, text = String.ofList (c :: more) ∧ isSpacing c = false ∧
    ∀ later, Breaks later → lexeme c (more ++ later) = .ok (kind, more)

theorem isSpelling_of_lexeme {c : Char} (rest : List Char) {more : List Char} {kind : TokenKind}
    (noSpace : isSpacing c = false) (found : lexeme c rest = .ok (kind, more)) :
    IsSpelling kind (String.ofList (c :: more)) :=
  ⟨c, more, rfl, noSpace, fun _ => lexeme_append found⟩

/-- The tokens of a source text are read again from their texts. -/
theorem isSpelling_of_mem_lexFrom {pos : Position} {chars : List Char} :
    ∀ token ∈ (lexFrom pos chars).tokens, token.IsInner → IsSpelling token.kind token.text := by
  fun_induction lexFrom pos chars with
  | case1 pos chars place found =>
    intro token member isInner
    rw [List.mem_singleton.1 member] at isInner
    exact absurd rfl isInner
  | case2 => exact fun token member => absurd member List.not_mem_nil
  | case3 pos chars place c rest found kind more isLexeme token later ih =>
    have noSpace := List.head?_dropWhile_not isSpacing chars
    rw [found] at noSpace
    exact List.forall_mem_cons.2 ⟨fun _ => isSpelling_of_lexeme _ noSpace isLexeme, ih⟩

theorem isSpelling_type (ty : Ty) : IsSpelling .typeSpecifier ty.name := by
  cases ty with
  | int => exact isSpelling_of_lexeme (c := 'i') "nt".toList rfl rfl
  | double => exact isSpelling_of_lexeme (c := 'd') "ouble".toList rfl rfl

/-! ## Numbers -/

theorem not_isSpacing_of_isDigit {c : Char} (digit : c.isDigit) : isSpacing c = false := by
  have ne (other : Char) (noDigit : other.isDigit = false) : (c == other) = false := by
    refine beq_false_of_ne ?_
    rintro rfl
    rw [digit] at noDigit
    cases noDigit
  unfold isSpacing
  rw [ne ' ' rfl, ne '\t' rfl, ne '\r' rfl, ne '\n' rfl]
  rfl

theorem lexeme_of_isDigit {c : Char} (digit : c.isDigit) (rest : List Char) :
    lexeme c rest = number c rest := by
  have noPunctuation : punctuation? c = none := by
    unfold punctuation?
    split <;> first | rfl | cases digit
  unfold lexeme
  rw [noPunctuation]
  exact if_pos digit

/-- Digits of a number that is not too large are an integer constant. -/
theorem isSpelling_integer {digits : List Char} (nonempty : digits ≠ [])
    (all : ∀ c ∈ digits, c.isDigit) (small : Decimal.ofDigits digits ≤ maxInteger) :
    IsSpelling .integerConstant (String.ofList digits) := by
  obtain ⟨c, rest, rfl⟩ := List.exists_cons_of_ne_nil nonempty
  obtain ⟨digit, rest_digits⟩ := List.forall_mem_cons.1 all
  refine isSpelling_of_lexeme rest (not_isSpacing_of_isDigit digit) ?_
  rw [lexeme_of_isDigit digit]
  unfold number
  dsimp only
  rw [List.takeWhile_eq_self_iff.2 rest_digits, List.dropWhile_eq_nil_iff.2 rest_digits]
  exact if_pos small

/-- Digits, a point and digits are a real constant. -/
theorem isSpelling_real {whole fraction : List Char} (nonempty : whole ≠ [])
    (all : ∀ c ∈ whole, c.isDigit) (all' : ∀ c ∈ fraction, c.isDigit) :
    IsSpelling .doubleConstant (String.ofList (whole ++ '.' :: fraction)) := by
  obtain ⟨c, rest, rfl⟩ := List.exists_cons_of_ne_nil nonempty
  obtain ⟨digit, rest_digits⟩ := List.forall_mem_cons.1 all
  refine isSpelling_of_lexeme (rest ++ '.' :: fraction) (not_isSpacing_of_isDigit digit) ?_
  rw [lexeme_of_isDigit digit]
  unfold number
  dsimp only
  rw [List.takeWhile_append_of_pos rest_digits, List.dropWhile_append_of_pos rest_digits]
  simp [List.takeWhile_eq_self_iff.2 all']

/-- The value of an integer constant is not too large. -/
theorem ofDigits_le_of_isSpelling {text : String} (spelling : IsSpelling .integerConstant text) :
    Decimal.ofDigits text.toList ≤ maxInteger := by
  obtain ⟨c, more, rfl, _, reads⟩ := spelling
  have found := reads [] trivial
  rw [List.append_nil] at found
  unfold lexeme at found
  split at found
  · next kind punctuation =>
    cases found
    unfold punctuation? at punctuation
    split at punctuation <;> cases punctuation
  · split at found
    · unfold number at found
      dsimp only at found
      split at found
      · cases found
      · split at found
        · next small =>
          obtain ⟨_, isMore⟩ := Prod.mk.inj (Except.ok.inj found)
          rw [isMore] at small
          rw [String.toList_ofList]
          exact small
        · cases found
    · split at found
      · obtain ⟨isKind, _⟩ := Prod.mk.inj (Except.ok.inj found)
        unfold wordKind at isKind
        split at isKind
        · cases isKind
        split at isKind
        · cases isKind
        split at isKind
        · cases isKind
        split at isKind <;> cases isKind
      · cases found

/-! ## Phrases -/

/-- A reading with tokens in front. -/
def Lexing.behind (lexing : Lexing) (tokens : List Token) : Lexing :=
  ⟨tokens ++ lexing.tokens, lexing.failure⟩

theorem Lexing.behind_behind (lexing : Lexing) (first second : List Token) :
    (lexing.behind second).behind first = lexing.behind (first ++ second) := by
  simp [behind]

/-- One token. -/
def Phrase.one (kind : TokenKind) (text : String) (tokens : List Token) : Prop :=
  ∃ token : Token, tokens = [token] ∧ token.kind = kind ∧ token.text = text

/-- One phrase after the other. -/
def Phrase.both (first second : List Token → Prop) (tokens : List Token) : Prop :=
  ∃ front back, tokens = front ++ back ∧ first front ∧ second back

/-- In front of a text that breaks, the characters are read as tokens of the phrase. -/
def Spells (phrase : List Token → Prop) (chars : List Char) : Prop :=
  ∀ pos later, Breaks later → ∃ tokens pos', phrase tokens ∧
    lexFrom pos (chars ++ later) = (lexFrom pos' later).behind tokens

/-- Whatever stands in front of the characters can end there. -/
def Separates (chars : List Char) : Prop :=
  ∀ later, Breaks later → Breaks (chars ++ later)

theorem separates_cons {c : Char} (noChar : isWordChar c = false) (noPoint : c ≠ '.')
    (chars : List Char) : Separates (c :: chars) :=
  fun _ _ => ⟨noChar, noPoint⟩

theorem Separates.append {chars chars' : List Char} (first : Separates chars)
    (second : Separates chars') : Separates (chars ++ chars') := by
  intro later breaks
  rw [List.append_assoc]
  exact first _ (second later breaks)

/-- The token read first, whose place no longer depends on the spacing in front. -/
def lexAt (pos : Position) : List Char → Lexing
  | [] => ⟨[⟨.endOfInput, "", pos⟩], none⟩
  | c :: rest =>
      match lexeme c rest with
      | .error cause => ⟨[], some (.lexical pos cause)⟩
      | .ok (kind, more) =>
          (lexFrom (pos.after (c :: more)) (rest.drop more.length)).behind
            [⟨kind, String.ofList (c :: more), pos⟩]

theorem lexFrom_eq (pos : Position) (chars : List Char) :
    lexFrom pos chars =
      lexAt (pos.after (chars.takeWhile isSpacing)) (chars.dropWhile isSpacing) := by
  fun_cases lexFrom pos chars with
  | case1 place found =>
    rw [found]
    rfl
  | case2 place c rest found cause failed =>
    rw [found, lexAt, failed]
  | case3 place c rest found kind more isLexeme =>
    rw [found, lexAt, isLexeme]
    rfl

theorem lexFrom_space {c : Char} (space : isSpacing c) (pos : Position) (chars : List Char) :
    lexFrom pos (c :: chars) = lexFrom (pos.advance c) chars := by
  rw [lexFrom_eq, lexFrom_eq, List.takeWhile_cons_of_pos space, List.dropWhile_cons_of_pos space]
  rfl

theorem lexFrom_lexeme {c : Char} {rest more : List Char} {kind : TokenKind} (pos : Position)
    (noSpace : isSpacing c = false) (found : lexeme c rest = .ok (kind, more)) :
    lexFrom pos (c :: rest) = (lexFrom (pos.after (c :: more)) (rest.drop more.length)).behind
      [⟨kind, String.ofList (c :: more), pos⟩] := by
  have visible : ¬ isSpacing c := by simp [noSpace]
  rw [lexFrom_eq, List.takeWhile_cons_of_neg visible, List.dropWhile_cons_of_neg visible, lexAt,
    found]
  rfl

namespace Spells

variable {phrase phrase' : List Token → Prop} {chars chars' : List Char}

theorem nil : Spells (· = []) [] :=
  fun pos _ _ => ⟨[], pos, rfl, rfl⟩

theorem mono (implies : ∀ tokens, phrase tokens → phrase' tokens) (spells : Spells phrase chars) :
    Spells phrase' chars := by
  intro pos later breaks
  obtain ⟨tokens, pos', holds, read⟩ := spells pos later breaks
  exact ⟨tokens, pos', implies tokens holds, read⟩

theorem space {c : Char} (isSpace : isSpacing c) (spells : Spells phrase chars) :
    Spells phrase (c :: chars) := by
  intro pos later breaks
  obtain ⟨tokens, pos', holds, read⟩ := spells (pos.advance c) later breaks
  refine ⟨tokens, pos', holds, ?_⟩
  rw [List.cons_append, lexFrom_space isSpace, read]

/-- A punctuation mark ends whatever stands behind it. -/
theorem mark {c : Char} {kind : TokenKind} (noSpace : isSpacing c = false)
    (punctuation : punctuation? c = some kind) (spells : Spells phrase chars) :
    Spells (Phrase.both (Phrase.one kind (String.ofList [c])) phrase) (c :: chars) := by
  intro pos later breaks
  have found : lexeme c (chars ++ later) = .ok (kind, []) := by
    unfold lexeme
    rw [punctuation]
  obtain ⟨tokens, pos', holds, read⟩ := spells (pos.after [c]) later breaks
  refine ⟨_, pos',
    ⟨_, tokens, rfl, ⟨⟨kind, String.ofList [c], pos⟩, rfl, rfl, rfl⟩, holds⟩, ?_⟩
  rw [List.cons_append, lexFrom_lexeme pos noSpace found, List.length_nil, List.drop_zero, read,
    Lexing.behind_behind]

theorem word {kind : TokenKind} {text : String} (spelling : IsSpelling kind text) :
    Spells (Phrase.one kind text) text.toList := by
  obtain ⟨c, more, rfl, noSpace, found⟩ := spelling
  intro pos later breaks
  refine ⟨_, pos.after (c :: more), ⟨⟨kind, String.ofList (c :: more), pos⟩, rfl, rfl, rfl⟩, ?_⟩
  rw [String.toList_ofList, List.cons_append, lexFrom_lexeme pos noSpace (found later breaks),
    List.drop_left]

theorem append (first : Spells phrase chars) (separates : Separates chars')
    (second : Spells phrase' chars') : Spells (Phrase.both phrase phrase') (chars ++ chars') := by
  intro pos later breaks
  obtain ⟨tokens, middle, holds, read⟩ := first pos (chars' ++ later) (separates later breaks)
  obtain ⟨tokens', pos', holds', read'⟩ := second middle later breaks
  refine ⟨_, pos', ⟨tokens, tokens', rfl, holds, holds'⟩, ?_⟩
  rw [List.append_assoc, read, read', Lexing.behind_behind]

end Spells

/-- A text that is spelled as a whole is read without failure, up to the end of input. -/
theorem Spells.lex_eq {phrase : List Token → Prop} {source : String}
    (spells : Spells phrase source.toList) :
    ∃ tokens stop, phrase tokens ∧ stop.kind = .endOfInput ∧
      lex source = ⟨tokens ++ [stop], none⟩ := by
  obtain ⟨tokens, pos, holds, read⟩ := spells .start [] trivial
  rw [List.append_nil] at read
  refine ⟨tokens, ⟨.endOfInput, "", pos⟩, holds, rfl, ?_⟩
  rw [lex, read, lexFrom.eq_def pos]
  rfl

end MiniC
