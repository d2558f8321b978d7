import Mathlib
import MiniC.Proofs.Listings
import MiniC.Text

/-!
# Reading assembly

The text of a listing is read line by line. A line at the margin defines a name, all others are
directives and instructions, which consist of words with blanks and commas in between. Only the lines
that the compiler uses are known.

The text of a listing is read as that listing, as long as its names are those of a source text and no
function is named like a label.
-/

namespace MiniC

/-! ## Words -/

namespace Assembly

def isSeparator (c : Char) : Bool :=
  c == ' ' || c == '\t' || c == ','

/-- The words of a line. -/
def words (line : List Char) : List String :=
  ((line.splitOnP isSeparator).filter (· ≠ [])).map String.ofList

def Register.read? (text : String) : Option Register :=
  [rax, rbp, rsp, eax, ecx, edx].find? (·.text = text)

def Place.read? (text : String) : Option Place :=
  if text.toList.head? = some '$' then
    (String.ofList text.toList.tail).toInt?.map immediate
  else if "(%rbp)".toList.isSuffixOf text.toList then
    (String.ofList (text.toList.take (text.toList.length - 6))).toInt?.map frame
  else (Register.read? text).map register

/-- A constant that is no address. -/
def constant? (text : String) : Option Int :=
  match Place.read? text with
  | some (.immediate value) => some value
  | _ => none

end Assembly

/-- Labels are numbered without leading zeros. -/
def Label.read? (text : String) : Option Label :=
  match (String.ofList (text.toList.drop 5)).toNat? with
  | some index => if (Label.mk index).text = text then some ⟨index⟩ else none
  | none => none

namespace Assembly

def Instruction.ofWords? : List String → Option Instruction
  | ["pushq", source] => do return .pushq (← Register.read? source)
  | ["popq", target] => do return .popq (← Register.read? target)
  | ["movq", source, target] => do return .movq (← Register.read? source) (← Register.read? target)
  | ["addq", amount, target] => do
      return .addq (← constant? amount).toNat (← Register.read? target)
  | ["subq", amount, target] => do
      return .subq (← constant? amount).toNat (← Register.read? target)
  | ["movl", source, target] => do return .movl (← Place.read? source) (← Place.read? target)
  | ["addl", source, target] => do return .addl (← Register.read? source) (← Register.read? target)
  | ["subl", source, target] => do return .subl (← Register.read? source) (← Register.read? target)
  | ["imull", source, target] => do
      return .imull (← Register.read? source) (← Register.read? target)
  | ["negl", target] => do return .negl (← Register.read? target)
  | ["cltd"] => some .cltd
  | ["idivl", divisor] => do return .idivl (← Register.read? divisor)
  | ["cmpl", value, target] => do return .cmpl (← constant? value) (← Register.read? target)
  | ["je", target] => do return .je (← Label.read? target)
  | ["jmp", target] => do return .jmp (← Label.read? target)
  | ["call", function] => some (.call function)
  | ["ret"] => some .ret
  | _ => none

/-- A directive or an instruction. What a directive says about a file stands in quotes. -/
def Line.indented? (chars : List Char) : Option Line :=
  match words chars with
  | ".file" :: _ => some (.file (String.ofList (chars.drop 7).dropLast))
  | [".text"] => some .textSection
  | [".globl", function] => some (.globl function)
  | [".type", function, "@function"] => some (.type function)
  | [".size", function, extent] => if extent = ".-" ++ function then some (.size function) else none
  | content => (Instruction.ofWords? content).map .instruction

/-- The definition of a name. -/
def Line.margin? (chars : List Char) : Option Line :=
  if chars.getLast? = some ':' then
    match Label.read? (String.ofList chars.dropLast) with
    | some target => some (.label target)
    | none => some (.entry (String.ofList chars.dropLast))
  else none

def Line.read? (text : String) : Option Line :=
  match text.toList with
  | '\t' :: chars => indented? chars
  | chars => margin? chars

/-- The listing that a text is. -/
def read? (text : String) : Option (List Line) :=
  (Text.lines text).mapM Line.read?

/-! ## Words in a line -/

/-- What may stand in a word: all but blanks, commas and line breaks. -/
def isPlain (c : Char) : Bool :=
  !isSeparator c && c != '\n' && c != '\r'

def isWord (text : String) : Bool :=
  !text.toList.isEmpty && text.toList.all isPlain

/-- Words with a blank behind the first and commas behind the others. -/
def spaced : List String → List Char
  | [] => []
  | [name] => name.toList
  | name :: operand :: operands =>
      name.toList ++ ' ' :: (operand.toList ++ operands.flatMap fun other => ',' :: ' ' :: other.toList)

theorem mem_spaced {content : List String} {c : Char} (member : c ∈ spaced content) :
    isSeparator c ∨ ∃ word ∈ content, c ∈ word.toList := by
  cases content with
  | nil => exact absurd member List.not_mem_nil
  | cons name operands =>
    cases operands with
    | nil => exact .inr ⟨name, List.mem_cons_self, member⟩
    | cons operand operands =>
      simp only [spaced, List.mem_append, List.mem_cons, List.mem_flatMap] at member
      rcases member with inName | rfl | inOperand | ⟨other, inOperands, rfl | rfl | inOther⟩
      · exact .inr ⟨name, List.mem_cons_self, inName⟩
      · exact .inl rfl
      · exact .inr ⟨operand, List.mem_cons_of_mem _ List.mem_cons_self, inOperand⟩
      · exact .inl rfl
      · exact .inl rfl
      · exact .inr ⟨other, List.mem_cons_of_mem _ (List.mem_cons_of_mem _ inOperands), inOther⟩

theorem nonempty_of_isWord {text : String} (holds : isWord text) : text.toList ≠ [] := by
  unfold isWord at holds
  simp only [Bool.and_eq_true, Bool.not_eq_true', List.isEmpty_eq_false_iff] at holds
  exact holds.1

theorem isPlain_of_isWord {text : String} (holds : isWord text) {c : Char}
    (member : c ∈ text.toList) : isPlain c := by
  unfold isWord at holds
  rw [Bool.and_eq_true] at holds
  exact List.all_eq_true.1 holds.2 c member

theorem not_separator {text : String} (holds : isWord text) :
    ∀ c ∈ text.toList, isSeparator c = false := by
  intro c member
  have plain := isPlain_of_isWord holds member
  unfold isPlain at plain
  simp only [Bool.and_eq_true, Bool.not_eq_true'] at plain
  exact plain.1.1

theorem words_separator {c : Char} (separates : isSeparator c) (rest : List Char) :
    words (c :: rest) = words rest := by
  unfold words
  rw [List.splitOnP_cons_eq_if_modifyHead, if_pos separates]
  rfl

theorem words_cons {text : String} (holds : isWord text) {c : Char} (separates : isSeparator c)
    (rest : List Char) : words (text.toList ++ c :: rest) = text :: words rest := by
  unfold words
  rw [List.splitOnP_append_cons_of_forall_mem (not_separator holds) c separates,
    List.filter_cons_of_pos (by simpa using nonempty_of_isWord holds), List.map_cons,
    String.ofList_toList]

theorem words_single {text : String} (holds : isWord text) : words text.toList = [text] := by
  unfold words
  rw [List.splitOnP_eq_singleton (not_separator holds),
    List.filter_cons_of_pos (by simpa using nonempty_of_isWord holds)]
  exact congrArg (fun word => [word]) String.ofList_toList

theorem words_operands {operand : String} {operands : List String} (holds : isWord operand)
    (hold : ∀ other ∈ operands, isWord other) :
    words (operand.toList ++ operands.flatMap fun other => ',' :: ' ' :: other.toList) =
      operand :: operands := by
  induction operands generalizing operand with
  | nil =>
    rw [List.flatMap_nil, List.append_nil]
    exact words_single holds
  | cons other others ih =>
    obtain ⟨holds', hold'⟩ := List.forall_mem_cons.1 hold
    rw [List.flatMap_cons]
    show words (operand.toList ++ ',' :: ' ' :: (other.toList ++ _)) = _
    rw [words_cons holds rfl, words_separator rfl, ih holds' hold']

/-- A line that is written with words between blanks and commas has these words. -/
theorem words_spaced {content : List String} (hold : ∀ word ∈ content, isWord word) :
    words (spaced content) = content := by
  cases content with
  | nil => rfl
  | cons name operands =>
    obtain ⟨holds, hold⟩ := List.forall_mem_cons.1 hold
    cases operands with
    | nil => exact words_single holds
    | cons operand operands =>
      obtain ⟨holds', hold⟩ := List.forall_mem_cons.1 hold
      rw [spaced, words_cons holds rfl, words_operands holds' hold]

/-! ## Operands -/

/-- The characters of a number. -/
theorem mem_toString {value : Int} {c : Char} (member : c ∈ (toString value).toList) :
    c = '-' ∨ c.isDigit := by
  have isRepr : toString value = value.repr := rfl
  rw [isRepr, Int.repr_eq_if] at member
  split at member
  · exact .inr (Nat.isDigit_of_mem_toDigits (by decide) (Nat.le_refl 10) (by simpa using member))
  · rw [String.toList_append] at member
    rcases List.mem_append.1 member with sign | digit
    · exact .inl (List.mem_singleton.1 sign)
    · exact .inr (Nat.isDigit_of_mem_toDigits (by decide) (Nat.le_refl 10) (by simpa using digit))

theorem Register.read?_text (register : Register) : read? register.text = some register := by
  cases register <;> rfl

theorem Place.read?_immediate (value : Int) :
    read? ("$" ++ toString value) = some (.immediate value) := by
  unfold read?
  rw [String.toList_append]
  show (String.ofList (toString value).toList).toInt?.map immediate = _
  rw [String.ofList_toList]
  exact congrArg (Option.map immediate) (Int.toInt?_repr value)

theorem Place.read?_text (place : Place) : read? place.text = some place := by
  cases place with
  | immediate value => exact read?_immediate value
  | register name => cases name <;> rfl
  | frame offset =>
    have chars : (text (.frame offset)).toList = (toString offset).toList ++ "(%rbp)".toList :=
      String.toList_append
    have noDollar : ((toString offset).toList ++ "(%rbp)".toList).head? ≠ some '$' := by
      intro isDollar
      rcases List.mem_append.1 (List.mem_of_head? isDollar) with inNumber | inRest
      · rcases mem_toString inNumber with isSign | isDigit
        · cases isSign
        · cases isDigit
      · exact absurd inRest (by decide)
    have number : ((toString offset).toList ++ "(%rbp)".toList).take
        (((toString offset).toList ++ "(%rbp)".toList).length - 6) = (toString offset).toList := by
      rw [List.length_append]
      exact List.take_left
    unfold read?
    rw [chars, if_neg noDollar, if_pos (List.isSuffixOf_iff_suffix.2 (List.suffix_append _ _)), number,
      String.ofList_toList]
    exact congrArg (Option.map frame) (Int.toInt?_repr offset)

theorem constant?_eq (value : Int) : constant? ("$" ++ toString value) = some value := by
  unfold constant?
  rw [Place.read?_immediate]

end Assembly

namespace Label

theorem read?_text (label : Label) : read? label.text = some label := by
  have digits : String.ofList (label.text.toList.drop 5) = toString label.index := by
    unfold text
    rw [String.toList_append]
    exact String.ofList_toList
  have number : (toString label.index).toNat? = some label.index := Nat.toNat?_repr label.index
  unfold read?
  rw [digits, number]
  exact if_pos rfl

theorem read?_eq_none {name : String} (apart : ∀ label : Label, name ≠ label.text) :
    read? name = none := by
  unfold read?
  split
  · next index _ => exact if_neg fun same => apart ⟨index⟩ same.symm
  · rfl

end Label

namespace Assembly

/-! ## Instructions -/

theorem isWord_of_forall {text : String} (nonempty : text.toList ≠ [])
    (plain : ∀ c ∈ text.toList, isPlain c) : isWord text := by
  unfold isWord
  rw [Bool.and_eq_true]
  exact ⟨by simpa using nonempty, List.all_eq_true.2 plain⟩

theorem isPlain_of_isWordChar {c : Char} (isChar : isWordChar c) : isPlain c := by
  have ne (other : Char) (noChar : isWordChar other = false) : (c == other) = false := by
    refine beq_false_of_ne ?_
    rintro rfl
    rw [isChar] at noChar
    cases noChar
  unfold isPlain isSeparator bne
  rw [ne ' ' rfl, ne '\t' rfl, ne ',' rfl, ne '\n' rfl, ne '\r' rfl]
  rfl

theorem isPlain_of_mem_toString {value : Int} {c : Char} (member : c ∈ (toString value).toList) :
    isPlain c := by
  rcases mem_toString member with rfl | isDigit
  · rfl
  · refine isPlain_of_isWordChar ?_
    unfold isWordChar Char.isAlphanum
    rw [isDigit, Bool.or_true, Bool.or_true]

theorem isWord_identifier {name : String} (isName : IsIdentifier name) : isWord name :=
  isWord_of_forall isName.nonempty fun c member => isPlain_of_isWordChar (isName.word c member)

theorem isWord_append {first second : String} (holds : isWord first)
    (plain : ∀ c ∈ second.toList, isPlain c) : isWord (first ++ second) := by
  refine isWord_of_forall ?_ ?_
  · rw [String.toList_append]
    exact List.append_ne_nil_of_left_ne_nil (nonempty_of_isWord holds) _
  · rw [String.toList_append, List.forall_mem_append]
    exact ⟨fun c => isPlain_of_isWord holds, plain⟩

/-- A number behind a word belongs to it. -/
theorem isWord_numbered {name : String} (holds : isWord name) (value : Int) :
    isWord (name ++ toString value) :=
  isWord_append holds fun _ => isPlain_of_mem_toString

theorem isWord_label (label : Label) : isWord label.text :=
  isWord_numbered rfl label.index

theorem isWord_register (register : Register) : isWord register.text := by
  cases register <;> rfl

theorem isWord_place (place : Place) : isWord place.text := by
  cases place with
  | immediate value => exact isWord_numbered rfl value
  | register name => exact isWord_register name
  | frame offset =>
    have chars : (Place.text (.frame offset)).toList = (toString offset).toList ++ "(%rbp)".toList :=
      String.toList_append
    refine isWord_of_forall ?_ ?_
    · rw [chars]
      exact List.append_ne_nil_of_right_ne_nil _ (by decide)
    · rw [chars, List.forall_mem_append]
      exact ⟨fun c => isPlain_of_mem_toString, List.all_eq_true.1 (by decide)⟩

theorem isWord_one {name first : String} (isName : isWord name) (isFirst : isWord first) :
    ∀ word ∈ [name, first], isWord word :=
  List.forall_mem_cons.2 ⟨isName, List.forall_mem_singleton.2 isFirst⟩

theorem isWord_two {name first second : String} (isName : isWord name) (isFirst : isWord first)
    (isSecond : isWord second) : ∀ word ∈ [name, first, second], isWord word :=
  List.forall_mem_cons.2 ⟨isName, isWord_one isFirst isSecond⟩

/-- The words of an instruction. -/
def Instruction.words : Instruction → List String
  | pushq source => ["pushq", source.text]
  | popq target => ["popq", target.text]
  | movq source target => ["movq", source.text, target.text]
  | addq amount target => ["addq", "$" ++ toString amount, target.text]
  | subq amount target => ["subq", "$" ++ toString amount, target.text]
  | movl source target => ["movl", source.text, target.text]
  | addl source target => ["addl", source.text, target.text]
  | subl source target => ["subl", source.text, target.text]
  | imull source target => ["imull", source.text, target.text]
  | negl target => ["negl", target.text]
  | cltd => ["cltd"]
  | idivl divisor => ["idivl", divisor.text]
  | cmpl value target => ["cmpl", "$" ++ toString value, target.text]
  | je label => ["je", label.text]
  | jmp label => ["jmp", label.text]
  | call function => ["call", function]
  | ret => ["ret"]

namespace Instruction

theorem toList_text (instruction : Instruction) :
    instruction.text.toList = spaced instruction.words := by
  cases instruction <;>
    simp only [text, two, words, spaced, String.toList_append, List.flatMap_cons, List.flatMap_nil,
      List.append_assoc, List.append_nil, List.cons_append, List.nil_append, String.reduceToList]

theorem ofWords?_words (instruction : Instruction) :
    ofWords? instruction.words = some instruction := by
  cases instruction with
  | cltd | ret | call function => rfl
  | pushq register | popq register | negl register | idivl register =>
    show (Register.read? register.text).bind _ = _
    rw [Register.read?_text]
    rfl
  | movq source target | addl source target | subl source target | imull source target =>
    show (Register.read? source.text).bind _ = _
    rw [Register.read?_text, Option.bind_some, Register.read?_text]
    rfl
  | movl source target =>
    show (Place.read? source.text).bind _ = _
    rw [Place.read?_text, Option.bind_some, Place.read?_text]
    rfl
  | addq amount target | subq amount target =>
    show (constant? ("$" ++ toString (amount : Int))).bind _ = _
    rw [constant?_eq, Option.bind_some, Register.read?_text]
    rfl
  | cmpl value target =>
    show (constant? ("$" ++ toString value)).bind _ = _
    rw [constant?_eq, Option.bind_some, Register.read?_text]
    rfl
  | je label | jmp label =>
    show (Label.read? label.text).bind _ = _
    rw [Label.read?_text]
    rfl

/-- The function that an instruction calls. -/
def callee? : Instruction → Option String
  | call function => some function
  | _ => none

theorem isWord_words {instruction : Instruction}
    (named : ∀ function, instruction.callee? = some function → IsIdentifier function) :
    ∀ word ∈ instruction.words, isWord word := by
  cases instruction with
  | cltd | ret => exact List.forall_mem_singleton.2 rfl
  | call function => exact isWord_one rfl (isWord_identifier (named function rfl))
  | pushq register | popq register | negl register | idivl register =>
    exact isWord_one rfl (isWord_register register)
  | je label | jmp label => exact isWord_one rfl (isWord_label label)
  | movq source target | addl source target | subl source target | imull source target =>
    exact isWord_two rfl (isWord_register source) (isWord_register target)
  | movl source target => exact isWord_two rfl (isWord_place source) (isWord_place target)
  | addq amount target | subq amount target =>
    exact isWord_two rfl (isWord_numbered rfl amount) (isWord_register target)
  | cmpl value target => exact isWord_two rfl (isWord_numbered rfl value) (isWord_register target)

end Instruction

/-! ## Lines -/

/-- A line that can be read back. A function has a name of the source, and it is defined by a name
that no label has. -/
def Line.Readable : Line → Prop
  | file name => '\n' ∉ name.toList
  | textSection => True
  | globl function | type function | size function => IsIdentifier function
  | entry function => IsIdentifier function ∧ ∀ label : Label, function ≠ label.text
  | label _ => True
  | instruction content => ∀ function, content.callee? = some function → IsIdentifier function

/-- A line is its content and a line feed, and it is read from its content. -/
def Line.Reads (line : Line) (content : List Char) : Prop :=
  line.text.toList = content ++ ['\n'] ∧ '\n' ∉ content ∧ content.getLast? ≠ some '\r' ∧
    read? (String.ofList content) = some line

namespace Line

/-- A line of words is read from its words. -/
theorem reads_words {line : Line} {content : List String} (hold : ∀ word ∈ content, isWord word)
    (isText : line.text.toList = '\t' :: spaced content ++ ['\n'])
    (isLine : ∀ chars, words chars = content → indented? chars = some line) :
    line.Reads ('\t' :: spaced content) := by
  have absent {c : Char} (separates : isSeparator c = false) (plain : isPlain c = false)
      (noTab : c ≠ '\t') : c ∉ '\t' :: spaced content := by
    intro member
    rcases List.mem_cons.1 member with isTab | inContent
    · exact noTab isTab
    · rcases mem_spaced inContent with isSeparator | ⟨word, inWords, inWord⟩
      · rw [separates] at isSeparator
        cases isSeparator
      · have isPlain := isPlain_of_isWord (hold word inWords) inWord
        rw [plain] at isPlain
        cases isPlain
  refine ⟨isText, absent rfl rfl (by decide), ?_, ?_⟩
  · intro isLast
    exact absent rfl rfl (by decide) (List.mem_of_getLast? isLast)
  · unfold read?
    rw [String.toList_ofList]
    exact isLine _ (words_spaced hold)

/-- A line at the margin is read from the name that it defines. -/
theorem reads_name {line : Line} {name : String} (holds : isWord name)
    (isText : line.text.toList = (name.toList ++ [':']) ++ ['\n'])
    (isLine : margin? (name.toList ++ [':']) = some line) : line.Reads (name.toList ++ [':']) := by
  refine ⟨isText, ?_, ?_, ?_⟩
  · intro member
    rcases List.mem_append.1 member with inName | isColon
    · exact absurd (isPlain_of_isWord holds inName) (by decide)
    · exact absurd isColon (by decide)
  · rw [List.getLast?_concat]
    decide
  · unfold read?
    rw [String.toList_ofList]
    split
    · next chars isTab =>
      have first : (name.toList ++ [':']).head? = some '\t' := by rw [isTab]; rfl
      rw [List.head?_append_of_ne_nil _ (nonempty_of_isWord holds)] at first
      exact absurd (isPlain_of_isWord holds (List.mem_of_head? first)) (by decide)
    · exact isLine

theorem margin?_eq (name : String) : margin? (name.toList ++ [':']) =
    match Label.read? name with
    | some target => some (.label target)
    | none => some (.entry name) := by
  unfold margin?
  rw [List.getLast?_concat, if_pos rfl, List.dropLast_concat, String.ofList_toList]

/-- The name of a file may have blanks and commas in it, so that line is not put together from
words. -/
theorem reads_file {name : String} (oneLine : '\n' ∉ name.toList) :
    (file name).Reads ('\t' :: (".file".toList ++ ' ' :: ('"' :: (name.toList ++ ['"'])))) := by
  have split : words (".file".toList ++ ' ' :: ('"' :: (name.toList ++ ['"']))) =
      ".file" :: words ('"' :: (name.toList ++ ['"'])) := words_cons rfl rfl _
  refine ⟨?_, ?_, ?_, ?_⟩
  · unfold text
    simp only [String.toList_append, List.append_assoc, List.cons_append, List.nil_append,
      String.reduceToList]
  · simpa using oneLine
  · show ('\t' :: '.' :: 'f' :: 'i' :: 'l' :: 'e' :: ' ' :: '"' :: name.toList ++ ['"']).getLast? ≠ _
    rw [List.getLast?_concat]
    decide
  · unfold read?
    rw [String.toList_ofList]
    show indented? _ = _
    unfold indented?
    rw [split]
    show some (file (String.ofList (name.toList ++ ['"']).dropLast)) = _
    rw [List.dropLast_concat, String.ofList_toList]

theorem reads_textSection : textSection.Reads ('\t' :: spaced [".text"]) := by
  refine reads_words (List.forall_mem_singleton.2 rfl) rfl fun chars found => ?_
  rw [indented?, found]
  rfl

theorem reads_globl {function : String} (isName : isWord function) :
    (globl function).Reads ('\t' :: spaced [".globl", function]) := by
  refine reads_words (isWord_one rfl isName) ?_ fun chars found => ?_
  · unfold text
    simp only [spaced, String.toList_append, List.append_assoc, List.cons_append, List.nil_append,
      String.reduceToList, List.flatMap_nil]
  · rw [indented?, found]
    rfl

theorem reads_type {function : String} (isName : isWord function) :
    (type function).Reads ('\t' :: spaced [".type", function, "@function"]) := by
  refine reads_words (isWord_two rfl isName rfl) ?_ fun chars found => ?_
  · unfold text
    simp only [spaced, String.toList_append, List.append_assoc, List.cons_append, List.nil_append,
      String.reduceToList, List.flatMap_cons, List.flatMap_nil]
  · rw [indented?, found]
    rfl

theorem reads_size {function : String} (isName : isWord function) :
    (size function).Reads ('\t' :: spaced [".size", function, ".-" ++ function]) := by
  refine reads_words (isWord_two rfl isName (isWord_append rfl fun _ => isPlain_of_isWord isName)) ?_
    fun chars found => ?_
  · unfold text
    simp only [spaced, String.toList_append, List.append_assoc, List.cons_append, List.nil_append,
      String.reduceToList, List.flatMap_cons, List.flatMap_nil]
  · rw [indented?, found]
    exact if_pos rfl

/-- The name of a function is not taken for a label. -/
theorem reads_entry {function : String} (isName : isWord function)
    (apart : ∀ label : Label, function ≠ label.text) :
    (entry function).Reads (function.toList ++ [':']) := by
  refine reads_name isName ?_ ?_
  · unfold text
    rw [String.toList_append, List.append_assoc]
    rfl
  · rw [margin?_eq, Label.read?_eq_none apart]

theorem reads_label (target : Label) : (label target).Reads (target.text.toList ++ [':']) := by
  refine reads_name (isWord_label target) ?_ ?_
  · unfold text
    rw [String.toList_append, List.append_assoc]
    rfl
  · rw [margin?_eq, Label.read?_text]

theorem reads_instruction {content : Instruction} (readable : (instruction content).Readable) :
    (instruction content).Reads ('\t' :: spaced content.words) := by
  refine reads_words (Instruction.isWord_words readable) ?_ fun chars found => ?_
  · unfold text
    rw [String.toList_append, String.toList_append, Instruction.toList_text]
    rfl
  · have read := Instruction.ofWords?_words content
    rw [indented?, found]
    cases content <;> exact congrArg (Option.map instruction) read

/-- Every line that can be read back has a content. -/
theorem exists_reads {line : Line} (readable : line.Readable) : ∃ content, line.Reads content := by
  cases line with
  | file name => exact ⟨_, reads_file readable⟩
  | textSection => exact ⟨_, reads_textSection⟩
  | globl function => exact ⟨_, reads_globl (isWord_identifier readable)⟩
  | type function => exact ⟨_, reads_type (isWord_identifier readable)⟩
  | size function => exact ⟨_, reads_size (isWord_identifier readable)⟩
  | entry function => exact ⟨_, reads_entry (isWord_identifier readable.1) readable.2⟩
  | label target => exact ⟨_, reads_label target⟩
  | instruction content => exact ⟨_, reads_instruction readable⟩

end Line

end Assembly

/-! ## Listings -/

namespace Text

theorem linesFrom_append {content : List Char} (oneLine : '\n' ∉ content) (held rest : List Char) :
    linesFrom held (content ++ '\n' :: rest) =
      String.ofList (dropReturn (content.reverse ++ held)).reverse :: linesFrom [] rest := by
  induction content generalizing held with
  | nil =>
    rw [List.nil_append, linesFrom, if_pos rfl]
    rfl
  | cons c content ih =>
    obtain ⟨apart, oneLine⟩ := not_or.1 (mt List.mem_cons.2 oneLine)
    rw [List.cons_append, linesFrom, if_neg (Ne.symm apart), ih oneLine, List.reverse_cons,
      List.append_assoc]
    rfl

theorem dropReturn_of_ne {held : List Char} (noReturn : held.head? ≠ some '\r') :
    dropReturn held = held := by
  unfold dropReturn
  split
  · exact absurd rfl noReturn
  · rfl

/-- The first line of a text, unless a carriage return stands before the line feed. -/
theorem lines_append {content : List Char} (oneLine : '\n' ∉ content)
    (noReturn : content.getLast? ≠ some '\r') (rest : String) :
    lines (String.ofList (content ++ ['\n']) ++ rest) = String.ofList content :: lines rest := by
  unfold lines
  rw [String.toList_append, String.toList_ofList, List.append_assoc]
  show linesFrom [] (content ++ '\n' :: rest.toList) = _
  rw [linesFrom_append oneLine, List.append_nil, dropReturn_of_ne, List.reverse_reverse]
  rw [List.head?_reverse]
  exact noReturn

end Text

namespace Assembly

/-- The text of a listing is read as that listing. -/
theorem read?_text {lines : List Line} (readable : ∀ line ∈ lines, line.Readable) :
    read? (text lines) = some lines := by
  induction lines with
  | nil => rfl
  | cons line lines ih =>
    obtain ⟨first, later⟩ := List.forall_mem_cons.1 readable
    obtain ⟨content, isText, oneLine, noReturn, isRead⟩ := Line.exists_reads first
    have start : text (line :: lines) = String.ofList (content ++ ['\n']) ++ text lines := by
      unfold text
      rw [List.map_cons, String.join_cons, ← isText, String.ofList_toList]
    have rest := ih later
    unfold read? at rest ⊢
    rw [start, Text.lines_append oneLine noReturn, List.mapM_cons, isRead, rest]
    rfl

end Assembly
end MiniC
