import Mathlib.Data.List.Chain
import MiniC.Proofs.Places

/-!
# Words and numbers stand alone

The reader ends a word after as many characters as words can have, and it ends a number where a
letter follows. So it may cut a run of letters and digits into several tokens, and find the word for
a type in the middle of a long name.

No program contains such a cut. In the grammar a name or a number never has another word or number
directly behind it. A word with a meaning of its own may have one, but these words are shorter than
words can be, and the reader does not end them where a run goes on.
-/

namespace MiniC

namespace TokenKind

/-- Names, and the words with a meaning of their own. -/
def isWord : TokenKind → Bool
  | identifier | typeSpecifier | returnWord | ifWord | elseWord => true
  | _ => false

def isNumber : TokenKind → Bool
  | integerConstant | doubleConstant => true
  | _ => false

/-- Tokens that the reader may end inside a run of letters and digits. -/
def mayCut : TokenKind → Bool
  | identifier | integerConstant | doubleConstant => true
  | _ => false

/-- Tokens that are neither words nor numbers. -/
def isMark (kind : TokenKind) : Bool :=
  !kind.isWord && !kind.isNumber

theorem not_mayCut_of_isMark {kind : TokenKind} (isMark : kind.isMark) : kind.mayCut = false := by
  cases kind with
  | identifier | integerConstant | doubleConstant => cases isMark
  | _ => rfl

end TokenKind

/-! ## What may stand side by side -/

namespace Grammar

/-- `other` may stand directly behind `token`. -/
def Admits (token other : Token) : Prop :=
  token.kind.mayCut → other.kind.isMark

/-- No word or number stands behind a name or a number. -/
def Separated (word : List Token) : Prop :=
  word.IsChain Admits

theorem separated_single (token : Token) : Separated [token] :=
  List.isChain_singleton token

theorem Separated.cons {token : Token} {word : List Token} (closed : token.kind.mayCut = false)
    (separated : Separated word) : Separated (token :: word) := by
  refine List.isChain_cons.2 ⟨fun other _ isCut => ?_, separated⟩
  rw [closed] at isCut
  cases isCut

/-- A mark separates what stands on its two sides. -/
theorem Separated.around {left right : List Token} {mark : Token} (separated : Separated left)
    (isMark : mark.kind.isMark) (separated' : Separated right) :
    Separated (left ++ mark :: right) := by
  refine List.IsChain.append separated (separated'.cons (TokenKind.not_mayCut_of_isMark isMark))
    fun token _ other first => ?_
  obtain rfl : mark = other := Option.some.inj first
  exact fun _ => isMark

/-- A phrase that anything may follow. -/
structure Finished (word : List Token) : Prop where
  separated : Separated word
  closed : ∀ token ∈ word.getLast?, token.kind.mayCut = false

theorem Separated.finish {word : List Token} {mark : Token} (separated : Separated word)
    (isMark : mark.kind.isMark) : Finished (word ++ [mark]) where
  separated := separated.around isMark List.IsChain.nil
  closed := by
    rw [List.getLast?_concat]
    rintro token ⟨⟩
    exact TokenKind.not_mayCut_of_isMark isMark

theorem Finished.append {first second : List Token} (finished : Finished first)
    (finished' : Finished second) : Finished (first ++ second) where
  separated := by
    refine List.IsChain.append finished.separated finished'.separated
      fun token last other _ isCut => ?_
    rw [finished.closed token last] at isCut
    cases isCut
  closed := by
    intro token last
    rw [List.getLast?_append] at last
    rcases Option.or_eq_some_iff.1 last with inSecond | ⟨_, inFirst⟩
    · exact finished'.closed token inSecond
    · exact finished.closed token inFirst

theorem finished_nil : Finished [] :=
  ⟨List.IsChain.nil, fun _ last => by cases last⟩

theorem finished_single {token : Token} (closed : token.kind.mayCut = false) : Finished [token] where
  separated := separated_single token
  closed := by
    rintro other ⟨⟩
    exact closed

theorem isMark_of_eq {token : Token} {kind : TokenKind} (isKind : token.kind = kind)
    (isMark : kind.isMark) : token.kind.isMark :=
  isKind ▸ isMark

theorem not_mayCut_of_eq {token : Token} {kind : TokenKind} (isKind : token.kind = kind)
    (closed : kind.mayCut = false) : token.kind.mayCut = false :=
  isKind ▸ closed

mutual
theorem Sum.separated {word : List Token} {node : Node} : Sum word node → Separated word
  | .single isProduct => isProduct.separated
  | .chain isSum isSign isProduct =>
    isSum.separated.around (isMark_of_eq isSign.2.1 rfl) isProduct.separated
theorem Product.separated {word : List Token} {node : Node} : Product word node → Separated word
  | .single isSigned => isSigned.separated
  | .chain isProduct isSign isSigned =>
    isProduct.separated.around (isMark_of_eq isSign.2.1 rfl) isSigned.separated
theorem Signed.separated {word : List Token} {node : Node} : Signed word node → Separated word
  | .plain isPrimary => isPrimary.separated
  | .sign isSign isSigned => isSigned.separated.cons (not_mayCut_of_eq isSign.1 rfl)
theorem Primary.separated {word : List Token} {node : Node} : Primary word node → Separated word
  | .parentheses isLeft isSum isRight =>
    (isSum.separated.finish (isMark_of_eq isRight rfl)).separated.cons (not_mayCut_of_eq isLeft rfl)
  | .name _ | .integer _ | .real _ => separated_single _
  | .call _ isLeft isSeries isRight =>
    (separated_single _).around (isMark_of_eq isLeft rfl)
      (isSeries.separated.finish (isMark_of_eq isRight rfl)).separated
theorem Series.separated {word : List Token} {nodes : List Node} :
    Series Sum word nodes → Separated word
  | .none => List.IsChain.nil
  | .some isListed => isListed.separated
theorem Listed.separated {word : List Token} {nodes : List Node} :
    Listed Sum word nodes → Separated word
  | .last isSum => isSum.separated
  | .more isSum isComma isListed =>
    isSum.separated.around (isMark_of_eq isComma rfl) isListed.separated
end

theorem Many.finished {Item : List Token → Node → Prop} {word : List Token} {nodes : List Node}
    (items : ∀ {word node}, Item word node → Finished word) (isMany : Many Item word nodes) :
    Finished word := by
  induction isMany with
  | nil => exact finished_nil
  | cons isItem _ ih => exact (items isItem).append ih

theorem Declaration.finished {word : List Token} {node : Node} :
    Declaration word node → Finished word
  | .intro isType _ isSemicolon =>
    (((separated_single _).cons (not_mayCut_of_eq isType.1 rfl)).finish
      (isMark_of_eq isSemicolon rfl) :)

mutual
theorem Statement.finished {word : List Token} {node : Node} : Statement word node → Finished word
  | .block isBlock => isBlock.finished
  | .returnValue isReturn isValue isSemicolon =>
    ((isValue.separated.cons (not_mayCut_of_eq isReturn rfl)).finish (isMark_of_eq isSemicolon rfl) :)
  | .empty isSemicolon => finished_single (not_mayCut_of_eq isSemicolon rfl)
  | .assignment _ isEquals isValue isSemicolon =>
    (((separated_single _).around (isMark_of_eq isEquals rfl) isValue.separated).finish
      (isMark_of_eq isSemicolon rfl) :)
  | @Statement.ifThen test word keyword left right _ _ isIf isLeft isTest isRight isConsequent => by
    have opening := ((isTest.separated.cons (not_mayCut_of_eq isLeft rfl)).cons
      (not_mayCut_of_eq isIf rfl)).finish (isMark_of_eq isRight rfl)
    have whole := opening.append isConsequent.finished
    rwa [List.append_assoc] at whole
  | @Statement.ifElse test word word' keyword left right separator _ _ _ isIf isLeft isTest isRight
      isConsequent isElse isAlternative => by
    have opening := ((isTest.separated.cons (not_mayCut_of_eq isLeft rfl)).cons
      (not_mayCut_of_eq isIf rfl)).finish (isMark_of_eq isRight rfl)
    have closing := (finished_single (not_mayCut_of_eq isElse rfl)).append isAlternative.finished
    have whole := opening.append (isConsequent.finished.append closing)
    rwa [List.append_assoc] at whole
theorem Block.finished {word : List Token} {node : Node} : Block word node → Finished word
  | .empty isLeft isRight =>
    (finished_single (not_mayCut_of_eq isLeft rfl)).append
      (finished_single (not_mayCut_of_eq isRight rfl))
  | .full isLeft areDeclarations areStatements _ isRight =>
    (finished_single (not_mayCut_of_eq isLeft rfl)).append
      ((areDeclarations.finished Declaration.finished).append
        ((finished_statements areStatements).append (finished_single (not_mayCut_of_eq isRight rfl))))
theorem finished_statements {word : List Token} {nodes : List Node} :
    Many Statement word nodes → Finished word
  | .nil => finished_nil
  | .cons isStatement areStatements =>
    isStatement.finished.append (finished_statements areStatements)
end

theorem Parameter.separated {word : List Token} {node : Node} :
    Parameter word node → Separated word
  | .intro isType _ => (separated_single _).cons (not_mayCut_of_eq isType.1 rfl)

theorem Series.separated_parameters {word : List Token} {nodes : List Node} :
    Series Parameter word nodes → Separated word
  | .none => List.IsChain.nil
  | .some isListed => by
    induction isListed with
    | last isParameter => exact isParameter.separated
    | more isParameter isComma _ ih =>
      exact isParameter.separated.around (isMark_of_eq isComma rfl) ih

theorem Function.finished {word : List Token} {node : Node} : Function word node → Finished word
  | @Function.intro inputs code type name left right _ _ _ isType _ isLeft areParameters isRight
      isBlock => by
    have opening := (((separated_single name).around (isMark_of_eq isLeft rfl)
      areParameters.separated_parameters).cons (not_mayCut_of_eq isType.1 rfl)).finish
        (isMark_of_eq isRight rfl)
    have whole := opening.append isBlock.finished
    rwa [List.append_assoc] at whole

/-- In a program no word or number stands behind a name or a number. -/
theorem Program.separated {tokens : List Token} {tree : Node} :
    Program tokens tree → Separated tokens
  | .intro areFunctions _ isStop =>
    ((areFunctions.finished Function.finished).append
      (finished_single (not_mayCut_of_eq isStop rfl))).separated

end Grammar
/-! ## Characters on the border of a token -/

/-- A character that may stand beside a word or a number: one of a gap, or a token by itself. -/
def isBorder (c : Char) : Bool :=
  c ∈ gapChars || (punctuation? c).isSome

theorem not_isBorder_of_isWordChar {c : Char} (isChar : isWordChar c) : isBorder c = false := by
  have noGap : c ∉ gapChars := not_mem_gapChars_of_isWordChar isChar
  have noMark : (punctuation? c).isSome = false := by
    unfold punctuation?
    split <;> first | rfl | cases isChar
  simp [isBorder, noGap, noMark]

namespace TokenKind.Holds

variable {kind : TokenKind} {c : Char} {more chars : List Char}

/-- A mark is a single character. -/
theorem of_isMark (holds : kind.Holds (c :: more)) (isMark : kind.isMark) :
    more = [] ∧ (punctuation? c).isSome := by
  cases kind with
  | leftBrace | rightBrace | leftParen | rightParen | semicolon | comma | assignment =>
    cases holds
    exact ⟨rfl, rfl⟩
  | operator =>
    simp only [Holds, List.mem_cons, List.not_mem_nil, or_false, List.cons.injEq] at holds
    rcases holds with ⟨rfl, rfl⟩ | ⟨rfl, rfl⟩ | ⟨rfl, rfl⟩ | ⟨rfl, rfl⟩ <;> exact ⟨rfl, rfl⟩
  | endOfInput => cases holds
  | _ => cases isMark

/-- A word or a number begins with a letter, a digit or an underscore. -/
theorem isWordChar_head (holds : kind.Holds (c :: more)) (noMark : kind.isMark = false) :
    isWordChar c := by
  cases kind with
  | identifier =>
    obtain ⟨⟨d, _, isText, start, _⟩, _⟩ := holds
    cases isText
    exact isWordChar_of_isWordStart start
  | typeSpecifier => rcases holds with isText | isText <;> cases isText <;> rfl
  | returnWord | ifWord | elseWord => cases holds; rfl
  | integerConstant => exact isWordChar_of_isDigit (holds.2 c List.mem_cons_self)
  | doubleConstant =>
    obtain ⟨whole, _, isText, ⟨nonempty, digits⟩, _⟩ := holds
    obtain ⟨d, whole, rfl⟩ := List.exists_cons_of_ne_nil nonempty
    cases isText
    exact isWordChar_of_isDigit (digits c List.mem_cons_self)
  | _ => cases noMark

/-- A word with a meaning of its own can be made longer and is a word still. -/
theorem isWordText_append (holds : kind.Holds chars) (noMark : kind.isMark = false)
    (closed : kind.mayCut = false) (isChar : isWordChar c) : IsWordText (chars ++ [c]) := by
  have longer {first : Char} {others : List Char} (start : isWordStart first)
      (areChars : ∀ d ∈ others, isWordChar d) (short : others.length + 2 ≤ maxWordLength) :
      IsWordText (first :: others ++ [c]) := by
    refine ⟨first, others ++ [c], rfl, start, ?_, ?_⟩
    · rw [List.forall_mem_append, List.forall_mem_singleton]
      exact ⟨areChars, isChar⟩
    · rwa [List.length_append]
  cases kind with
  | typeSpecifier =>
    rcases holds with rfl | rfl <;> exact longer rfl (List.all_eq_true.1 rfl) (by decide)
  | returnWord | ifWord | elseWord =>
    cases holds
    exact longer rfl (List.all_eq_true.1 rfl) (by decide)
  | identifier | integerConstant | doubleConstant => cases closed
  | _ => cases noMark

end TokenKind.Holds

/-! ## Tokens in the text of a program -/

open Grammar

section Tiles

variable {before chars rest : List Char} {lexing : Lexing} {front back : List Tile} {tile : Tile}

/-- The end of input is the only token without characters, and no tile stands behind it. -/
theorem Tiling.text_ne_nil {next : Tile}
    (tiling : Tiling before chars lexing (front ++ tile :: next :: back) rest)
    (ended : lexing.Ended) : tile.token.text.toList ≠ [] := by
  intro isEmpty
  have holds := (tiling.fits front tile (next :: back) rfl).belongs
  rw [isEmpty] at holds
  have split : lexing.tokens =
      front.map (·.token) ++ tile.token :: (next :: back).map (·.token) := by
    rw [tiling.tokens, List.map_append, List.map_cons]
  cases (ended.of_stop holds.eq_endOfInput split).1

/-- Behind a word or a number the text goes on with a gap or a mark, if it goes on. -/
theorem Tiling.isBorder_behind
    (tiling : Tiling before chars lexing (front ++ tile :: back) rest) (ended : lexing.Ended)
    (separated : Separated lexing.tokens) (noMark : tile.token.kind.isMark = false) :
    ∀ c ∈ (tilesText back).head?, isBorder c := by
  cases back with
  | nil => exact fun c first => by cases first
  | cons next back =>
    intro c first
    have split : tilesText (next :: back) = next.gap ++ (next.token.text.toList ++ tilesText back) := by
      simp [tilesText, Tile.text]
    rw [split] at first
    cases isGap : next.gap with
    | cons d gap =>
      rw [isGap] at first
      cases first
      have inGap := tiling.gaps next (by simp) c (isGap ▸ List.mem_cons_self)
      simp [isBorder, inGap]
    | nil =>
      rw [isGap, List.nil_append] at first
      have tiling' : Tiling before chars lexing ((front ++ [tile]) ++ next :: back) rest := by
        simpa using tiling
      have holds := (tiling'.fits _ next back rfl).belongs
      cases isText : next.token.text.toList with
      | nil =>
        -- The end of input is next, and there is nothing behind it.
        cases back with
        | nil =>
          rw [isText] at first
          cases first
        | cons => exact absurd isText (tiling'.text_ne_nil ended)
      | cons d more =>
        rw [isText] at first holds
        cases first
        cases isMark : next.token.kind.isMark with
        | true => simp [isBorder, (holds.of_isMark isMark).2]
        | false =>
          have isChar := holds.isWordChar_head isMark
          have admits : Admits tile.token next.token := by
            unfold Separated at separated
            rw [tiling.tokens, List.map_append, List.map_cons, List.map_cons,
              List.isChain_append_cons_cons] at separated
            exact separated.2.1
          have closed : tile.token.kind.mayCut = false := by
            by_contra isCut
            rw [admits (Bool.not_eq_false _ ▸ isCut)] at isMark
            cases isMark
          -- So the token is a word with a meaning of its own, and not the longest word here.
          have fits := tiling.fits front tile (next :: back) rfl
          have isWord := fits.belongs.isWordText_append noMark closed isChar
          have longer := fits.longest _ _ (holds_wordKind isWord) (by
            rw [split, isGap, isText]
            exact ⟨more ++ (tilesText back ++ rest), by simp⟩)
          rw [List.length_append] at longer
          exact absurd longer (Nat.not_succ_le_self _)

/-- In front of a word or a number there is a gap or a mark, if there is anything. -/
theorem Tiling.isBorder_before
    (tiling : Tiling [] chars lexing (front ++ tile :: back) rest) (ended : lexing.Ended)
    (separated : Separated lexing.tokens) (noMark : tile.token.kind.isMark = false) :
    ∀ c ∈ (tilesText front ++ tile.gap).getLast?, isBorder c := by
  intro c last
  rw [List.getLast?_append] at last
  rcases Option.or_eq_some_iff.1 last with inGap | ⟨noGap, last⟩
  · have isGap := tiling.gaps tile (by simp) c (List.mem_of_getLast? inGap)
    simp [isBorder, isGap]
  · have isGap : tile.gap = [] := List.getLast?_eq_none_iff.1 noGap
    rcases List.eq_nil_or_concat front with rfl | ⟨front, previous, rfl⟩
    · cases last
    have tiling' : Tiling [] chars lexing (front ++ previous :: tile :: back) rest := by
      simpa using tiling
    have nonempty := tiling'.text_ne_nil ended
    have inText : previous.token.text.toList.getLast? = some c := by
      have whole : tilesText (front.concat previous) =
          (tilesText front ++ previous.gap) ++ previous.token.text.toList := by
        simp [tilesText, Tile.text]
      rwa [whole, List.getLast?_append_of_ne_nil _ nonempty] at last
    have holds := (tiling'.fits front previous (tile :: back) rfl).belongs
    cases isMark : previous.token.kind.isMark with
    | true =>
      obtain ⟨d, more, isText⟩ := List.exists_cons_of_ne_nil nonempty
      rw [isText] at holds inText
      obtain ⟨rfl, isMark⟩ := holds.of_isMark isMark
      cases inText
      simp [isBorder, isMark]
    | false =>
      -- Then this token begins with a character that may stand beside that one, which none does.
      have belongs := (tiling.fits _ tile back rfl).belongs
      obtain ⟨d, more, isText⟩ : ∃ d more, tile.token.text.toList = d :: more := by
        refine List.exists_cons_of_ne_nil fun isEmpty => ?_
        rw [isEmpty] at belongs
        rw [belongs.eq_endOfInput] at noMark
        cases noMark
      have border := tiling'.isBorder_behind ended separated isMark d (by
        simp [tilesText, Tile.text, isGap, isText])
      rw [isText] at belongs
      rw [not_isBorder_of_isWordChar (belongs.isWordChar_head noMark)] at border
      cases border

end Tiles

/-- The token has its place in the source, and there is no letter, digit or underscore directly in
front of it or behind it. What stands there, if anything does, is a character of a gap or a mark. -/
def Token.StandsAlone (token : Token) (source : String) : Prop :=
  ∃ before behind, source.toList = before ++ token.text.toList ++ behind ∧
    token.pos.Follows before ∧
    (∀ c ∈ before.getLast?, isWordChar c = false ∧ isBorder c) ∧
    ∀ c ∈ behind.head?, isWordChar c = false ∧ isBorder c

/-- Words and numbers stand alone in every source text that parses: none of them is a part that was
cut out of a longer run of letters and digits. -/
theorem words_stand_alone {source : String} {tree : Node} (parsed : Node.parse source = .ok tree) :
    ∀ token ∈ (lex source).tokens, token.kind.isWord ∨ token.kind.isNumber →
      token.StandsAlone source := by
  intro token member isRun
  have noMark : token.kind.isMark = false := by
    unfold TokenKind.isMark
    rcases isRun with isWord | isNumber
    · rw [isWord]
      rfl
    · rw [isNumber, Bool.not_true, Bool.and_false]
  have ended : (lex source).Ended := lexFrom_ended .start source.toList
  obtain ⟨tokens, read, derives⟩ := Node.derives_of_parse parsed
  obtain ⟨noFailure, rfl⟩ := Lexing.toExcept_eq_ok.1 read
  obtain ⟨tiles, rest, tiling⟩ : ∃ tiles rest, Tiling [] source.toList (lex source) tiles rest :=
    lexFrom_tiling [] rfl
  have atEnd : rest = [] := by
    have leaves := tiling.leaves
    unfold Lexing.Leaves at leaves
    rwa [noFailure] at leaves
  subst atEnd
  rw [tiling.tokens] at member
  obtain ⟨tile, inTiles, rfl⟩ := List.mem_map.1 member
  obtain ⟨front, back, rfl⟩ := List.append_of_mem inTiles
  have plain {c : Char} (border : isBorder c) : isWordChar c = false ∧ isBorder c := by
    refine ⟨?_, border⟩
    by_contra isChar
    rw [not_isBorder_of_isWordChar (Bool.not_eq_false _ ▸ isChar)] at border
    cases border
  refine ⟨tilesText front ++ tile.gap, tilesText back, ?_, (tiling.fits front tile back rfl).place,
    fun c last => plain ?_, fun c first => plain ?_⟩
  · rw [tiling.covers]
    simp [tilesText, Tile.text]
  · exact tiling.isBorder_before ended derives.program.separated noMark c last
  · exact tiling.isBorder_behind ended derives.program.separated noMark c first

/-- A name as long as words can be, between a word and a number, with no spaces but one. -/
def tightSource : String :=
  "int main()\x7breturn abcdefghijklmnopqrstuvwxyz_1234+12;\x7d"

theorem longest_name_stands_alone : ∃ tree, Node.parse tightSource = .ok tree ∧
    ∃ token ∈ (lex tightSource).tokens, token.text.length = maxWordLength ∧
      token.StandsAlone tightSource := by
  have accepted : (Node.parse tightSource).toOption.any fun _ => true := by decide +kernel
  have present : ∃ token ∈ (lex tightSource).tokens,
      token.text.length = maxWordLength ∧ token.kind.isWord := by decide +kernel
  obtain ⟨tree, parsed, _⟩ := exists_ok_of_any accepted
  obtain ⟨token, member, isLong, isWord⟩ := present
  exact ⟨tree, parsed, token, member, isLong, words_stand_alone parsed token member (.inl isWord)⟩

-- The reader by itself does cut: with three more letters the name goes on as a type.
example : (lex "abcdefghijklmnopqrstuvwxyz_1234int").tokens.map (·.kind) =
    [.identifier, .typeSpecifier, .endOfInput] := by decide +kernel

end MiniC
