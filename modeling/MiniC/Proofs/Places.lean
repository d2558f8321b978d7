import MiniC.Proofs.Layout
import MiniC.Proofs.Tiling

/-!
# Diagnostics point into the source

A diagnostic stands at the end of input or at the first character of a token, or of what could not
be read. That character is found in the lines of the source under the line and the column of the
diagnostic, and the caret of the rendered report stands below it.

Lines and columns are counted twice: by the reader, character by character, where only a line feed
opens a line, and by the lines of a text, where a carriage return in front of a line feed is no
character of its line and nothing behind the last line feed is no line. Where a text without line
feeds and carriage returns stands, both counts agree.
-/

namespace MiniC

/-! ## Lines of a text -/

namespace Text

/-- Only the last character that is held can be dropped. -/
theorem suffix_dropReturn {held : List Char} (noReturn : held.head? ≠ some '\r') (more : List Char) :
    held <:+ dropReturn (more ++ held) := by
  cases more with
  | nil =>
    unfold dropReturn
    split
    · next split => exact absurd (congrArg List.head? split) noReturn
    · exact List.suffix_refl held
  | cons d more =>
    unfold dropReturn
    split
    · next split =>
      obtain ⟨_, rfl⟩ := List.cons.inj split
      exact List.suffix_append more held
    · exact List.suffix_append (d :: more) held

/-- A line begins with what was held of it, whatever follows. -/
theorem linesFrom_held {held : List Char} (nonempty : held ≠ []) (noReturn : held.head? ≠ some '\r')
    (more back : List Char) :
    ∃ line, (linesFrom (more ++ held) back)[0]? = some line ∧ held.reverse <+: line.toList := by
  induction back generalizing more with
  | nil =>
    have present : (more ++ held).isEmpty = false := by simp [nonempty]
    rw [linesFrom, present]
    refine ⟨_, rfl, ?_⟩
    rw [String.toList_ofList, List.reverse_append]
    exact List.prefix_append _ _
  | cons c back ih =>
    rw [linesFrom]
    split
    · refine ⟨_, rfl, ?_⟩
      rw [String.toList_ofList]
      exact List.reverse_prefix.2 (suffix_dropReturn noReturn more)
    · exact ih (c :: more)

/-- A text without breaks is held as a whole. -/
theorem linesFrom_text {text : List Char} (oneLine : '\n' ∉ text) (held back : List Char) :
    linesFrom held (text ++ back) = linesFrom (text.reverse ++ held) back := by
  induction text generalizing held with
  | nil => rfl
  | cons c text ih =>
    obtain ⟨apart, oneLine⟩ := not_or.1 (mt List.mem_cons.2 oneLine)
    rw [List.cons_append, linesFrom, if_neg (Ne.symm apart), ih oneLine, List.reverse_cons,
      List.append_assoc]
    rfl

theorem takeWhile_break (front held : List Char) :
    (front ++ '\n' :: held).takeWhile (· ≠ '\n') = front.takeWhile (· ≠ '\n') := by
  induction front with
  | nil => rfl
  | cons c front ih => rw [List.cons_append, List.takeWhile_cons, List.takeWhile_cons, ih]

/-- The line on which a text stands: its number counts the line feeds in front of the text, and it
consists of what stands behind the last of them, the text, and more. -/
theorem linesFrom_at {text : List Char} (nonempty : text ≠ []) (oneLine : '\n' ∉ text)
    (noReturn : text.getLast? ≠ some '\r') (before back : List Char) {held : List Char}
    (isHeld : '\n' ∉ held) :
    ∃ line, (linesFrom held (before ++ (text ++ back)))[before.count '\n']? = some line ∧
      ((before.reverse ++ held).takeWhile (· ≠ '\n')).reverse ++ text <+: line.toList := by
  -- What is held is the part of the current line that stands in front of `before`, last character
  -- first. It is dropped at each line feed, where the number of the line goes up.
  induction before generalizing held with
  | nil =>
    have all : held.takeWhile (· ≠ '\n') = held :=
      List.takeWhile_eq_self_iff.2 fun c member => decide_eq_true fun same => isHeld (same ▸ member)
    have nonempty' : text.reverse ++ held ≠ [] := by simp [nonempty]
    have noReturn' : (text.reverse ++ held).head? ≠ some '\r' := by
      rw [List.head?_append, List.head?_reverse]
      cases last : text.getLast? with
      | none => exact absurd (List.getLast?_eq_none_iff.1 last) nonempty
      | some c => rwa [last] at noReturn
    obtain ⟨line, found, isFront⟩ := linesFrom_held nonempty' noReturn' [] back
    rw [List.nil_append, List.reverse_nil, List.nil_append, linesFrom_text oneLine, all]
    refine ⟨line, found, ?_⟩
    rwa [List.reverse_append, List.reverse_reverse] at isFront
  | cons c before ih =>
    rw [List.cons_append, linesFrom, List.reverse_cons, List.append_assoc, List.singleton_append]
    split
    · next isBreak =>
      subst isBreak
      obtain ⟨line, found, isFront⟩ := @ih [] List.not_mem_nil
      rw [List.append_nil] at isFront
      rw [List.count_cons_self, List.getElem?_cons_succ, takeWhile_break]
      exact ⟨line, found, isFront⟩
    · next noBreak =>
      rw [List.count_cons_of_ne noBreak]
      exact ih (by simpa [isHeld] using Ne.symm noBreak)

end Text

/-! ## Where texts stand -/

/-- A text without breaks stands where lines and columns say. -/
theorem Position.Follows.line_at {pos : Position} {before text back : List Char} {source : String}
    (follows : pos.Follows before) (split : source.toList = before ++ (text ++ back))
    (nonempty : text ≠ []) (noGap : ∀ c ∈ text, c ∉ gapChars) :
    1 ≤ pos.line ∧ 1 ≤ pos.column ∧ ∃ line, (Text.lines source)[pos.line - 1]? = some line ∧
      text <+: line.toList.drop (pos.column - 1) := by
  have oneLine : '\n' ∉ text := fun member => noGap _ member (by decide)
  have noReturn : text.getLast? ≠ some '\r' :=
    fun last => noGap _ (List.mem_of_getLast? last) (by decide)
  obtain ⟨line, found, later, isLine⟩ :=
    Text.linesFrom_at nonempty oneLine noReturn before back List.not_mem_nil
  rw [List.append_nil] at isLine
  refine ⟨?_, ?_, line, ?_, later, ?_⟩
  · rw [follows.line]
    exact Nat.le_add_right 1 _
  · rw [follows.column]
    exact Nat.le_add_right 1 _
  · rw [follows.line, Nat.add_sub_cancel_left, Text.lines, split]
    exact found
  · rw [follows.column, Nat.add_sub_cancel_left, ← isLine, List.append_assoc, List.drop_left']
    exact List.length_reverse

/-! ## What stands at a place -/

theorem not_mem_gapChars_of_isWordChar {c : Char} (isWord : isWordChar c) : c ∉ gapChars := by
  intro member
  simp only [gapChars, List.mem_cons, List.not_mem_nil, or_false] at member
  rcases member with rfl | rfl | rfl | rfl <;> exact absurd isWord (by decide)

theorem not_mem_gapChars_of_isDigit {c : Char} (digit : c.isDigit) : c ∉ gapChars :=
  not_mem_gapChars_of_isWordChar (isWordChar_of_isDigit digit)

theorem Shaped.noGap {c : Char} {more : List Char} (shaped : Shaped c more) :
    ∀ d ∈ c :: more, d ∉ gapChars := by
  cases shaped with
  | mark isMark =>
    rw [List.forall_mem_singleton]
    intro member
    simp only [gapChars, List.mem_cons, List.not_mem_nil, or_false] at member
    rcases member with rfl | rfl | rfl | rfl <;> cases isMark
  | number digit digits =>
    exact List.forall_mem_cons.2 ⟨not_mem_gapChars_of_isDigit digit,
      fun d member => not_mem_gapChars_of_isDigit (digits d member)⟩
  | real digit digits digits' =>
    rw [List.forall_mem_cons, List.forall_mem_append, List.forall_mem_cons]
    exact ⟨not_mem_gapChars_of_isDigit digit,
      fun d member => not_mem_gapChars_of_isDigit (digits d member), by decide,
      fun d member => not_mem_gapChars_of_isDigit (digits' d member)⟩
  | word start chars =>
    exact List.forall_mem_cons.2
      ⟨not_mem_gapChars_of_isWordChar (isWordChar_of_isWordStart start),
        fun d member => not_mem_gapChars_of_isWordChar (chars d member)⟩

theorem TokenKind.Holds.eq_endOfInput {kind : TokenKind} (holds : kind.Holds []) :
    kind = .endOfInput := by
  cases kind with
  | endOfInput => rfl
  | identifier =>
    obtain ⟨⟨_, _, isText, _⟩, _⟩ := holds
    cases isText
  | integerConstant => exact absurd rfl holds.1
  | doubleConstant =>
    obtain ⟨whole, fraction, isText, _⟩ := holds
    cases whole <;> cases isText
  | typeSpecifier => rcases holds with isText | isText <;> cases isText
  | _ => simp [Holds] at holds

/-- What could not be read. -/
def LexicalCause.rejected : LexicalCause → List Char
  | unexpectedCharacter c => [c]
  | integerTooLarge digits => digits.toList

theorem LexicalCause.Rejects.stands {cause : LexicalCause} {ahead : List Char}
    (rejects : cause.Rejects ahead) : cause.rejected ≠ [] ∧
      (∀ c ∈ cause.rejected, c ∉ gapChars) ∧ ∃ back, ahead = cause.rejected ++ back := by
  cases cause with
  | unexpectedCharacter c =>
    obtain ⟨⟨later, isAhead⟩, noGap, _⟩ := rejects
    exact ⟨List.cons_ne_nil c [], List.forall_mem_singleton.2 noGap, later, isAhead⟩
  | integerTooLarge digits =>
    obtain ⟨⟨nonempty, areDigits⟩, _, later, isAhead, _⟩ := rejects
    exact ⟨nonempty, fun c member => not_mem_gapChars_of_isDigit (areDigits c member), later, isAhead⟩

/-- A token of the source, or what could not be read of it, stands at a place. -/
def StandsAt (source : String) (pos : Position) (text : List Char) : Prop :=
  (∃ token ∈ (lex source).tokens, token.pos = pos ∧ token.text.toList = text) ∨
    ∃ cause, (lex source).failure = some (.lexical pos cause) ∧ cause.rejected = text

/-- What stands at a place of a token or of a failure is found behind the text in front of it. -/
theorem Lexing.Marks.exists_text {source : String} {pos : Position} (marks : (lex source).Marks pos) :
    (∃ token ∈ (lex source).tokens, token.kind = .endOfInput ∧ token.pos = pos) ∨
      ∃ before text back, source.toList = before ++ (text ++ back) ∧ pos.Follows before ∧
        text ≠ [] ∧ (∀ c ∈ text, c ∉ gapChars) ∧ StandsAt source pos text := by
  obtain ⟨tiles, rest, tiling⟩ : ∃ tiles rest, Tiling [] source.toList (lex source) tiles rest :=
    lexFrom_tiling [] rfl
  rcases marks with ⟨token, member, rfl⟩ | ⟨cause, failed⟩
  · have member' := member
    rw [tiling.tokens] at member'
    obtain ⟨tile, inTiles, rfl⟩ := List.mem_map.1 member'
    obtain ⟨front, back, rfl⟩ := List.append_of_mem inTiles
    have fits := tiling.fits front tile back rfl
    have holds := fits.belongs
    cases isText : tile.token.text.toList with
    | nil =>
      -- The end of input is the only token without text.
      rw [isText] at holds
      exact .inl ⟨tile.token, member, holds.eq_endOfInput, rfl⟩
    | cons c more =>
      rw [isText] at holds
      refine .inr ⟨_, c :: more, tilesText back ++ rest, ?_, fits.place, List.cons_ne_nil c more,
        holds.shaped.noGap, .inl ⟨tile.token, member, rfl, isText⟩⟩
      rw [tiling.covers, ← isText]
      simp [tilesText, Tile.text]
  · have leaves := tiling.leaves
    unfold Lexing.Leaves at leaves
    rw [failed] at leaves
    obtain ⟨gap, ahead, pos', cause', isRest, _, same, follows, rejects⟩ := leaves
    cases same
    obtain ⟨nonempty, noGap, back, isAhead⟩ := rejects.stands
    refine .inr ⟨_, cause.rejected, back, ?_, follows, nonempty, noGap, .inr ⟨cause, failed, rfl⟩⟩
    rw [tiling.covers, isRest, isAhead]
    simp

/-! ## Reports -/

/-- The report of an error points at the character `c` of the line `line` of a source text. -/
structure Error.PointsAt (error : Error) (source : String) (pos : Position) (line : String)
    (c : Char) : Prop where
  counted : 1 ≤ pos.line ∧ 1 ≤ pos.column
  isLine : (Text.lines source)[pos.line - 1]? = some line
  isChar : line.toList[pos.column - 1]? = some c
  /-- The character is the first one of a token, or of what could not be read. -/
  first : ∃ more, c :: more <+: line.toList.drop (pos.column - 1) ∧ StandsAt source pos (c :: more)
  /-- The report shows the line, and a caret at the index of the character in the line above it. -/
  shown : ∃ caret : String, error.report.render source =
      error.report.text ++ "\n" ++ ("  " ++ line) ++ "\n" ++ caret ++ " " ++ error.message ∧
    ∃ index, caret.toList = List.replicate index ' ' ++ ['^'] ∧ index = pos.column - 1 + 2 ∧
      ("  " ++ line).toList[index]? = some c

theorem Error.render_at {error : Error} {source line : String} {pos : Position}
    (isPlace : error.position = some pos) (isLine : (Text.lines source)[pos.line - 1]? = some line) :
    error.report.render source = error.report.text ++ "\n" ++ ("  " ++ line) ++ "\n" ++
      ("  " ++ Text.spaces (pos.column - 1) ++ "^") ++ " " ++ error.message := by
  unfold Report.render
  rw [show error.report.position = some pos from isPlace]
  dsimp only
  rw [isLine]
  rw [show "\n  " = "\n" ++ "  " by decide, show "^ " = "^" ++ " " by decide]
  simp only [String.append_assoc]
  rfl

/-- Diagnostics point into the source: an error with a place stands at the end of input, or the place
is that of a character in the lines of the source at which a token begins, or what could not be read,
and the rendered report has its caret below that character. -/
theorem diagnostics_point_into_source {source : String} {options : Options} {error : Error}
    {pos : Position} (failed : (compile source options).result = .error error)
    (isPlace : error.position = some pos) :
    (∃ token ∈ (lex source).tokens, token.kind = .endOfInput ∧ token.pos = pos) ∨
      ∃ line c, error.PointsAt source pos line c := by
  have ended : (lex source).Ended := lexFrom_ended .start source.toList
  rw [result_compile_lex] at failed
  refine (marks_of_error ended failed isPlace).exists_text.imp_right ?_
  rintro ⟨before, text, back, split, follows, nonempty, noGap, stands⟩
  obtain ⟨line, column, isLine⟩ := follows.line_at split nonempty noGap
  obtain ⟨lineText, found, isFront⟩ := isLine
  obtain ⟨c, more, rfl⟩ := List.exists_cons_of_ne_nil nonempty
  have isChar : lineText.toList[pos.column - 1]? = some c := by
    obtain ⟨later, whole⟩ := isFront
    rw [← Nat.add_zero (pos.column - 1), ← List.getElem?_drop, ← whole]
    rfl
  refine ⟨lineText, c, ⟨line, column⟩, found, isChar, ⟨more, isFront, stands⟩, _,
    error.render_at isPlace found, pos.column - 1 + 2, ?_, rfl, ?_⟩
  · simp [Text.spaces, List.replicate_succ]
  · simp [isChar]

/-- A letter that no word has, behind a tab on a line that ends with a carriage return. -/
theorem accent_points_into_source :
    let source := "int main() \x7b\r\n\treturn 1 + é;\r\n\x7d"
    ∃ error, (compile source { level := 1 }).result = .error error ∧
      error.position = some ⟨2, 13⟩ ∧ ∃ line c, error.PointsAt source ⟨2, 13⟩ line c := by
  intro source
  have noEnd : ∀ token ∈ (lex source).tokens, token.kind ≠ .endOfInput := by decide +kernel
  have found : (match (compile source { level := 1 }).result with
      | .ok _ => none
      | .error error => error.position) = some ⟨2, 13⟩ := by decide +kernel
  split at found
  · cases found
  · next error failed =>
    refine ⟨error, failed, found, ?_⟩
    rcases diagnostics_point_into_source failed found with ⟨token, member, isEnd, _⟩ | points
    · exact absurd isEnd (noEnd token member)
    · exact points

end MiniC
