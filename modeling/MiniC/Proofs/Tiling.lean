import Mathlib.Data.List.Induction
import MiniC.Proofs.Spelling

/-!
# Tokens tile the source

A text is cut into tokens with gaps between them, and nothing of it is lost. What a token can be is
said here kind by kind, as classes of texts and without a reader: a token is the longest text of any
class at the place where it stands, and the place is counted off from the text in front of it. Where
the reading stops early, no text of a class begins, or an integer that is too large does.
-/

namespace MiniC

/-! ## Classes of texts -/

/-- One digit or more. -/
def IsDigits (chars : List Char) : Prop :=
  chars ≠ [] ∧ ∀ c ∈ chars, c.isDigit

/-- A letter or an underscore, and letters, digits and underscores behind it, up to the length that
words can have. -/
def IsWordText (chars : List Char) : Prop :=
  ∃ c more, chars = c :: more ∧ isWordStart c ∧ (∀ d ∈ more, isWordChar d) ∧
    chars.length ≤ maxWordLength

/-- The words with a meaning of their own. -/
def keywords : List String := ["int", "double", "return", "if", "else"]

/-- The texts that a token of a kind can have. An integer constant may be any number here, as a
number that is too large is not cut into smaller ones. -/
def TokenKind.Holds : TokenKind → List Char → Prop
  | .leftBrace, chars => chars = ['\x7b']
  | .rightBrace, chars => chars = ['\x7d']
  | .leftParen, chars => chars = ['(']
  | .rightParen, chars => chars = [')']
  | .semicolon, chars => chars = [';']
  | .comma, chars => chars = [',']
  | .assignment, chars => chars = ['=']
  | .operator, chars => chars ∈ [['+'], ['-'], ['*'], ['/']]
  | .typeSpecifier, chars => chars = "int".toList ∨ chars = "double".toList
  | .returnWord, chars => chars = "return".toList
  | .ifWord, chars => chars = "if".toList
  | .elseWord, chars => chars = "else".toList
  | .identifier, chars => IsWordText chars ∧ String.ofList chars ∉ keywords
  | .integerConstant, chars => IsDigits chars
  | .doubleConstant, chars => ∃ whole fraction, chars = whole ++ '.' :: fraction ∧ IsDigits whole ∧
      ∀ c ∈ fraction, c.isDigit
  | .endOfInput, chars => chars = []

/-- The three shapes of a text that some class holds, by its first character. -/
inductive Shaped (c : Char) : List Char → Prop
  | mark : (punctuation? c).isSome → Shaped c []
  | number {whole : List Char} : c.isDigit → (∀ d ∈ whole, d.isDigit) → Shaped c whole
  | real {whole fraction : List Char} : c.isDigit → (∀ d ∈ whole, d.isDigit) →
      (∀ d ∈ fraction, d.isDigit) → Shaped c (whole ++ '.' :: fraction)
  | word {more : List Char} : isWordStart c → (∀ d ∈ more, isWordChar d) →
      more.length < maxWordLength → Shaped c more

theorem shaped_of_keyword {c : Char} {more : List Char} {word : String} (isKeyword : word ∈ keywords)
    (isText : c :: more = word.toList) : Shaped c more := by
  simp only [keywords, List.mem_cons, List.not_mem_nil, or_false] at isKeyword
  rcases isKeyword with rfl | rfl | rfl | rfl | rfl <;> cases isText <;>
    exact .word rfl (List.all_eq_true.1 rfl) (by decide)

theorem TokenKind.Holds.shaped {kind : TokenKind} {c : Char} {more : List Char}
    (holds : kind.Holds (c :: more)) : Shaped c more := by
  cases kind with
  | leftBrace | rightBrace | leftParen | rightParen | semicolon | comma | assignment =>
    cases holds
    exact .mark rfl
  | operator =>
    simp only [Holds, List.mem_cons, List.not_mem_nil, or_false, List.cons.injEq] at holds
    rcases holds with ⟨rfl, rfl⟩ | ⟨rfl, rfl⟩ | ⟨rfl, rfl⟩ | ⟨rfl, rfl⟩ <;> exact .mark rfl
  | typeSpecifier =>
    rcases holds with isText | isText <;> exact shaped_of_keyword (by decide) isText
  | returnWord | ifWord | elseWord => exact shaped_of_keyword (by decide) holds
  | identifier =>
    obtain ⟨⟨d, more', isText, start, chars, short⟩, _⟩ := holds
    cases isText
    exact .word start chars (Nat.lt_of_succ_le short)
  | integerConstant =>
    obtain ⟨digit, digits⟩ := List.forall_mem_cons.1 holds.2
    exact .number digit digits
  | doubleConstant =>
    obtain ⟨whole, fraction, isText, ⟨nonempty, digits⟩, digits'⟩ := holds
    obtain ⟨d, whole, rfl⟩ := List.exists_cons_of_ne_nil nonempty
    obtain ⟨digit, others⟩ := List.forall_mem_cons.1 digits
    cases isText
    exact .real digit others digits'
  | endOfInput => cases holds

theorem not_isDigit_of_punctuation {c : Char} (isMark : (punctuation? c).isSome) :
    c.isDigit = false ∧ isWordStart c = false := by
  unfold punctuation? at isMark
  split at isMark <;> first | exact ⟨rfl, rfl⟩ | cases isMark

theorem not_isDigit_of_isWordStart {c : Char} (start : isWordStart c) : c.isDigit = false := by
  cases digit : c.isDigit with
  | false => rfl
  | true =>
    simp only [isWordStart, Bool.or_eq_true, beq_iff_eq] at start
    rcases start with rfl | alpha
    · exact absurd digit (by decide)
    · -- Letters of both cases stand behind the digits.
      delta Char.isAlpha Char.isUpper Char.isLower at alpha
      delta Char.isDigit at digit
      simp only [Bool.or_eq_true, Bool.and_eq_true, decide_eq_true_eq] at alpha digit
      rcases alpha with ⟨low, _⟩ | ⟨low, _⟩ <;>
      · have := UInt32.le_trans low digit.2
        exact absurd this (by decide)

/-- Characters of a kind at the beginning of a text are among those that a scan takes. -/
theorem prefix_takeWhile {p : Char → Bool} {front chars : List Char} (all : ∀ c ∈ front, p c)
    (isFront : front <+: chars) : front <+: chars.takeWhile p := by
  obtain ⟨back, rfl⟩ := isFront
  rw [List.takeWhile_append_of_pos all]
  exact List.prefix_append _ _

/-- Nothing of a class is longer than a number that is read. -/
theorem number_longest {c : Char} {rest more tail : List Char} {kind : TokenKind} (digit : c.isDigit)
    (found : number c rest = .ok (kind, more)) (shaped : Shaped c tail) (isFront : tail <+: rest) :
    tail.length ≤ more.length := by
  have whole_le : (rest.takeWhile Char.isDigit).length ≤ more.length := by
    unfold number at found
    dsimp only at found
    split at found
    · cases found
      simp
    · split at found
      · cases found
        exact Nat.le_refl _
      · cases found
  cases shaped with
  | mark => exact Nat.zero_le _
  | number _ digits => exact Nat.le_trans (prefix_takeWhile digits isFront).length_le whole_le
  | word start _ _ =>
    rw [not_isDigit_of_isWordStart start] at digit
    cases digit
  | @real whole fraction _ digits digits' =>
    obtain ⟨back, rfl⟩ := isFront
    -- The digits in front of the point are all there are, so the reader has come to the point too.
    unfold number at found
    dsimp only at found
    rw [List.append_assoc, List.takeWhile_append_of_pos digits, List.dropWhile_append_of_pos digits,
      List.cons_append, List.takeWhile_cons_of_neg (by decide),
      List.dropWhile_cons_of_neg (by decide)] at found
    cases found
    rw [List.takeWhile_append_of_pos digits']
    simp

/-- Nothing of a class is longer than the token that is read. -/
theorem lexeme_longest {c : Char} {rest more tail : List Char} {kind : TokenKind}
    (found : lexeme c rest = .ok (kind, more)) (shaped : Shaped c tail) (isFront : tail <+: rest) :
    tail.length ≤ more.length := by
  unfold lexeme at found
  split at found
  · next isMark =>
    have noDigit := not_isDigit_of_punctuation (Option.isSome_of_eq_some isMark)
    cases shaped with
    | mark => exact Nat.zero_le _
    | number digit | real digit => rw [noDigit.1] at digit; cases digit
    | word start => rw [noDigit.2] at start; cases start
  · next noMark =>
    split at found
    · next digit => exact number_longest digit found shaped isFront
    · next noDigit =>
      split at found
      · cases found
        cases shaped with
        | mark => exact Nat.zero_le _
        | number digit | real digit => exact absurd digit noDigit
        | word _ chars short =>
          rw [List.length_take]
          exact Nat.le_min.2 ⟨Nat.le_sub_one_of_lt short, (prefix_takeWhile chars isFront).length_le⟩
      · cases found

theorem holds_of_punctuation {c : Char} {kind : TokenKind} (isMark : punctuation? c = some kind) :
    kind.Holds [c] := by
  unfold punctuation? at isMark
  split at isMark <;> cases isMark <;> simp [TokenKind.Holds]

theorem holds_wordKind {chars : List Char} (isWord : IsWordText chars) :
    (wordKind (String.ofList chars)).Holds chars := by
  have text {word : String} (same : String.ofList chars = word) : chars = word.toList := by
    rw [← same, String.toList_ofList]
  unfold wordKind
  split
  · next isType =>
    simp only [Bool.or_eq_true, decide_eq_true_eq] at isType
    exact isType.imp text text
  · next noType =>
    simp only [Bool.or_eq_true, decide_eq_true_eq, not_or] at noType
    split
    · next isReturn => exact text isReturn
    · split
      · next isIf => exact text isIf
      · split
        · next isElse => exact text isElse
        · next noReturn noIf noElse =>
          refine ⟨isWord, fun isKeyword => ?_⟩
          simp only [keywords, List.mem_cons, List.not_mem_nil, or_false] at isKeyword
          grind

theorem number_holds {c : Char} {rest more : List Char} {kind : TokenKind} (digit : c.isDigit)
    (found : number c rest = .ok (kind, more)) : kind.Holds (c :: more) ∧
      (kind = .integerConstant → Decimal.ofDigits (c :: more) ≤ maxInteger) ∧ more <+: rest := by
  have digits : ∀ d ∈ c :: rest.takeWhile Char.isDigit, d.isDigit :=
    List.forall_mem_cons.2 ⟨digit, fun d => List.mem_takeWhile_imp⟩
  unfold number at found
  dsimp only at found
  split at found
  · next fraction behind =>
    cases found
    refine ⟨⟨c :: rest.takeWhile Char.isDigit, fraction.takeWhile Char.isDigit, rfl,
      ⟨List.cons_ne_nil _ _, digits⟩, fun d => List.mem_takeWhile_imp⟩, nofun,
      fraction.dropWhile Char.isDigit, ?_⟩
    rw [List.append_assoc, List.cons_append, List.takeWhile_append_dropWhile, ← behind,
      List.takeWhile_append_dropWhile]
  · split at found
    · next small =>
      cases found
      exact ⟨⟨List.cons_ne_nil _ _, digits⟩, fun _ => small, List.takeWhile_prefix _⟩
    · cases found

theorem isWordText_take {c : Char} (start : isWordStart c) (rest : List Char) :
    IsWordText (c :: (rest.takeWhile isWordChar).take (maxWordLength - 1)) := by
  refine ⟨c, _, rfl, start, fun d member => ?_, ?_⟩
  · exact List.mem_takeWhile_imp (List.mem_of_mem_take member)
  · exact Nat.succ_le_of_lt (Nat.lt_of_le_of_lt (List.length_take_le _ _) (by decide))

theorem wordKind_ne_integer (word : String) : wordKind word ≠ .integerConstant := by
  unfold wordKind
  grind

theorem punctuation?_ne_integer (c : Char) : punctuation? c ≠ some .integerConstant := by
  unfold punctuation?
  split <;> simp

/-- A token that is read is a text of its class, and it is the beginning of the text. -/
theorem lexeme_holds {c : Char} {rest more : List Char} {kind : TokenKind}
    (found : lexeme c rest = .ok (kind, more)) : kind.Holds (c :: more) ∧
      (kind = .integerConstant → Decimal.ofDigits (c :: more) ≤ maxInteger) ∧ more <+: rest := by
  unfold lexeme at found
  split at found
  · next isMark =>
    cases found
    refine ⟨holds_of_punctuation isMark, fun isInteger => ?_, List.nil_prefix⟩
    exact absurd (isInteger ▸ isMark) (punctuation?_ne_integer c)
  · split at found
    · next digit => exact number_holds digit found
    · split at found
      · next start =>
        obtain ⟨rfl, rfl⟩ := Prod.mk.inj (Except.ok.inj found)
        refine ⟨holds_wordKind (isWordText_take start rest), fun isInteger => ?_, ?_⟩
        · exact absurd isInteger (wordKind_ne_integer _)
        · exact (List.take_prefix _ _).trans (List.takeWhile_prefix _)
      · cases found

/-! ## What stops the reading -/

/-- The characters that may stand between tokens. -/
def gapChars : List Char := [' ', '\t', '\r', '\n']

theorem mem_gapChars {c : Char} : c ∈ gapChars ↔ isSpacing c := by
  simp [gapChars, isSpacing, or_assoc]

/-- The text goes on with something that is neither a gap nor a token: a character that no class has
a text for, or an integer that is too large and ends where no digit follows and no point. -/
def LexicalCause.Rejects : LexicalCause → List Char → Prop
  | unexpectedCharacter c, ahead => (∃ later, ahead = c :: later) ∧ c ∉ gapChars ∧
      ∀ kind chars, TokenKind.Holds kind chars → chars <+: ahead → chars = []
  | integerTooLarge digits, ahead => IsDigits digits.toList ∧
      maxInteger < Decimal.ofDigits digits.toList ∧
      ∃ later, ahead = digits.toList ++ later ∧
        ∀ c, later.head? = some c → c.isDigit = false ∧ c ≠ '.'

theorem number_rejects {c : Char} {rest : List Char} {cause : LexicalCause} (digit : c.isDigit)
    (failed : number c rest = .error cause) : cause.Rejects (c :: rest) := by
  unfold number at failed
  dsimp only at failed
  split at failed
  · cases failed
  · next noPoint =>
    split at failed
    · cases failed
    · next large =>
      cases failed
      have digits : ∀ d ∈ c :: rest.takeWhile Char.isDigit, d.isDigit :=
        List.forall_mem_cons.2 ⟨digit, fun d => List.mem_takeWhile_imp⟩
      have parts := List.takeWhile_append_dropWhile (p := Char.isDigit) (l := rest)
      simp only [LexicalCause.Rejects, String.toList_ofList]
      refine ⟨⟨List.cons_ne_nil _ _, digits⟩, Nat.lt_of_not_le large,
        rest.dropWhile Char.isDigit, ?_, fun d isNext => ⟨?_, ?_⟩⟩
      · rw [List.cons_append, parts]
      · have noDigit := List.head?_dropWhile_not Char.isDigit rest
        rw [isNext] at noDigit
        exact noDigit
      · rintro rfl
        obtain ⟨later, behind⟩ := List.head?_eq_some_iff.1 isNext
        exact noPoint later behind

/-- The reading stops only where the text goes on with something that is no token. -/
theorem lexeme_rejects {c : Char} {rest : List Char} {cause : LexicalCause}
    (noSpace : isSpacing c = false) (failed : lexeme c rest = .error cause) :
    cause.Rejects (c :: rest) := by
  unfold lexeme at failed
  split at failed
  · cases failed
  · next noMark =>
    split at failed
    · next digit => exact number_rejects digit failed
    · next noDigit =>
      split at failed
      · cases failed
      · next noStart =>
        cases failed
        refine ⟨⟨rest, rfl⟩, ?_, fun kind chars holds isFront => ?_⟩
        · rw [mem_gapChars, noSpace]
          exact Bool.false_ne_true
        cases chars with
        | nil => rfl
        | cons d tail =>
          obtain ⟨rfl, _⟩ := List.cons_prefix_cons.1 isFront
          cases holds.shaped with
          | mark isMark =>
            rw [noMark] at isMark
            cases isMark
          | number digit | real digit => exact absurd digit noDigit
          | word start => exact absurd start noStart

/-! ## Places -/

/-- The place behind a text: its line counts the line feeds, its column the characters behind the
last of them. -/
structure Position.Follows (pos : Position) (before : List Char) : Prop where
  line : pos.line = 1 + before.count '\n'
  column : pos.column = 1 + (before.reverse.takeWhile (· ≠ '\n')).length

theorem Position.after_append (pos : Position) (first second : List Char) :
    pos.after (first ++ second) = (pos.after first).after second :=
  List.foldl_append

theorem Position.start_after_follows (before : List Char) :
    (Position.start.after before).Follows before := by
  induction before using List.reverseRecOn with
  | nil => exact ⟨rfl, rfl⟩
  | append_singleton before c ih =>
    have step : Position.start.after (before ++ [c]) = (Position.start.after before).advance c :=
      Position.start.after_append before [c]
    obtain ⟨line, column⟩ := ih
    rw [step]
    unfold Position.advance
    split
    · next isFeed =>
      subst isFeed
      refine ⟨?_, ?_⟩
      · simp [line, Nat.add_assoc]
      · simp
    · next noFeed =>
      refine ⟨?_, ?_⟩
      · simp [line, noFeed]
      · simp [column, noFeed, Nat.add_assoc]

theorem Position.after_follows {pos : Position} {before : List Char}
    (place : pos = Position.start.after before) (text : List Char) :
    (pos.after text).Follows (before ++ text) := by
  rw [place, ← Position.after_append]
  exact Position.start_after_follows _

/-! ## Tiles -/

/-- A token with the characters that separate it from the token before it. -/
structure Tile where
  gap : List Char
  token : Token

def Tile.text (tile : Tile) : List Char := tile.gap ++ tile.token.text.toList

/-- The text that tiles cover. -/
def tilesText (tiles : List Tile) : List Char := tiles.flatMap Tile.text

/-- What may stand between tokens. -/
def IsGap (chars : List Char) : Prop :=
  ∀ c ∈ chars, c ∈ gapChars

/-- The token is right where it stands, behind the text `before` and at the beginning of `ahead`: it
is the longest text of any class there. -/
structure Token.Fits (token : Token) (before ahead : List Char) : Prop where
  belongs : token.kind.Holds token.text.toList
  small : token.kind = .integerConstant → Decimal.ofDigits token.text.toList ≤ maxInteger
  longest : ∀ kind chars, TokenKind.Holds kind chars → chars <+: ahead →
    chars.length ≤ token.text.toList.length
  place : token.pos.Follows before

/-- What is left behind the last token: nothing, or a gap and what stopped the reading. -/
def Lexing.Leaves (lexing : Lexing) (before rest : List Char) : Prop :=
  match lexing.failure with
  | none => rest = []
  | some error => ∃ gap ahead pos cause, rest = gap ++ ahead ∧ IsGap gap ∧
      error = .lexical pos cause ∧ pos.Follows (before ++ gap) ∧ cause.Rejects ahead

/-- The characters `chars`, which stand behind `before`, are cut into tiles with the tokens of a
reading, up to `rest`. -/
structure Tiling (before chars : List Char) (lexing : Lexing) (tiles : List Tile)
    (rest : List Char) : Prop where
  tokens : lexing.tokens = tiles.map (·.token)
  covers : chars = tilesText tiles ++ rest
  gaps : ∀ tile ∈ tiles, IsGap tile.gap
  fits : ∀ front tile back, tiles = front ++ tile :: back →
    tile.token.Fits (before ++ tilesText front ++ tile.gap)
      (tile.token.text.toList ++ tilesText back ++ rest)
  leaves : lexing.Leaves (before ++ tilesText tiles) rest

theorem isGap_takeWhile (chars : List Char) : IsGap (chars.takeWhile isSpacing) :=
  fun _ member => mem_gapChars.2 (List.mem_takeWhile_imp member)

/-- One more token in front. -/
theorem Tiling.cons {before gap text chars rest : List Char} {token : Token} {lexing : Lexing}
    {tiles : List Tile} (isText : token.text.toList = text) (isGap : IsGap gap)
    (fits : token.Fits (before ++ gap) (text ++ chars))
    (tiling : Tiling (before ++ gap ++ text) chars lexing tiles rest) :
    Tiling before (gap ++ text ++ chars) ⟨token :: lexing.tokens, lexing.failure⟩
      (⟨gap, token⟩ :: tiles) rest := by
  subst isText
  have first (tiles' : List Tile) :
      tilesText (⟨gap, token⟩ :: tiles') = gap ++ token.text.toList ++ tilesText tiles' := rfl
  refine ⟨?_, ?_, List.forall_mem_cons.2 ⟨isGap, tiling.gaps⟩, fun front tile back split => ?_, ?_⟩
  · rw [tiling.tokens, List.map_cons]
  · rw [first, List.append_assoc _ _ rest, ← tiling.covers]
  · cases front with
    | nil =>
      cases split
      rw [List.append_assoc _ _ rest, ← tiling.covers]
      simpa [tilesText] using fits
    | cons tile' front =>
      cases split
      rw [first, ← List.append_assoc, ← List.append_assoc]
      exact tiling.fits front tile back rfl
  · have leaves := tiling.leaves
    unfold Lexing.Leaves at leaves ⊢
    rw [first, ← List.append_assoc, ← List.append_assoc]
    exact leaves

/-- Every text is tiled, wherever it stands. -/
theorem lexFrom_tiling {pos : Position} {chars : List Char} (before : List Char)
    (place : pos = Position.start.after before) :
    ∃ tiles rest, Tiling before chars (lexFrom pos chars) tiles rest := by
  fun_induction lexFrom pos chars generalizing before with
  | case1 pos chars here found =>
    have follows : here.Follows (before ++ chars.takeWhile isSpacing) :=
      Position.after_follows place _
    have allGap : chars.takeWhile isSpacing = chars := by
      have parts := List.takeWhile_append_dropWhile (p := isSpacing) (l := chars)
      rwa [found, List.append_nil] at parts
    refine ⟨[⟨chars, ⟨.endOfInput, "", here⟩⟩], [], rfl, by simp [tilesText, Tile.text], ?_, ?_, rfl⟩
    · rw [List.forall_mem_singleton, ← allGap]
      exact isGap_takeWhile chars
    · intro front tile back split
      obtain ⟨rfl, rfl, rfl⟩ : front = [] ∧ tile = ⟨chars, ⟨.endOfInput, "", here⟩⟩ ∧ back = [] := by
        cases front <;> simp_all
      refine ⟨rfl, fun isInteger => TokenKind.noConfusion isInteger,
        fun kind text _ isFront => ?_, ?_⟩
      · simpa [tilesText] using isFront.length_le
      · rw [allGap] at follows
        simpa [tilesText] using follows
  | case2 pos chars here c rest found cause failed =>
    have parts := List.takeWhile_append_dropWhile (p := isSpacing) (l := chars)
    have noSpace := List.head?_dropWhile_not isSpacing chars
    rw [found] at parts noSpace
    refine ⟨[], chars, rfl, rfl, List.forall_mem_nil _, ?_, chars.takeWhile isSpacing, c :: rest,
      here, cause, parts.symm, isGap_takeWhile chars, rfl, ?_, lexeme_rejects noSpace failed⟩
    · intro front tile back split
      simp at split
    · simpa [tilesText] using Position.after_follows place (chars.takeWhile isSpacing)
  | case3 pos chars here c rest found kind more isLexeme token later ih =>
    obtain ⟨holds, small, isFront⟩ := lexeme_holds isLexeme
    have parts := List.takeWhile_append_dropWhile (p := isSpacing) (l := chars)
    rw [found] at parts
    obtain ⟨tiles, left, tiling⟩ := ih (before ++ chars.takeWhile isSpacing ++ c :: more)
      (by rw [Position.after_append, Position.after_append, ← place])
    have text : token.text.toList = c :: more := String.toList_ofList
    refine ⟨⟨chars.takeWhile isSpacing, token⟩ :: tiles, left, ?_⟩
    have whole : c :: more ++ rest.drop more.length = c :: rest := by
      rw [List.cons_append, List.prefix_iff_eq_append.1 isFront]
    have fits : token.Fits (before ++ chars.takeWhile isSpacing)
        (c :: more ++ rest.drop more.length) := by
      rw [whole]
      refine ⟨text ▸ holds, fun isInteger => text ▸ small isInteger,
        fun kind' chars' holds' isFront' => ?_, Position.after_follows place _⟩
      rw [text]
      -- Only texts that begin with the same character compete with the token.
      cases chars' with
      | nil => exact Nat.zero_le _
      | cons d tail =>
        obtain ⟨rfl, isTail⟩ := List.cons_prefix_cons.1 isFront'
        exact Nat.succ_le_succ (lexeme_longest isLexeme holds'.shaped isTail)
    have tiled := tiling.cons text (isGap_takeWhile chars) fits
    rwa [List.append_assoc, whole, parts] at tiled

/-- The tokens of a source text tile it. If it is read as a whole, the last token is the end of input
and all of the text is covered. If not, all of it is covered up to the place of the failure. -/
theorem lex_tiles_source (source : String) :
    (lex source).Ended ∧ ∃ tiles rest, Tiling [] source.toList (lex source) tiles rest :=
  ⟨lexFrom_ended .start source.toList, lexFrom_tiling [] rfl⟩

end MiniC
