import MiniC.Proofs.Listings
import MiniC.Proofs.Reading
import MiniC.Proofs.Tiling

/-!
# Reading the columns of a quadruple

A field that is shorter than its column has a blank behind it, and no field has one in it. So two
fields that stand side by side are read back, unless both fill their columns: then it takes what is
known of the fields to tell where the first one ends. A label does not end before a digit, a name
does not start with one, and a dollar sign starts a temporary. Two names of the source that fill
their columns are all that cannot be told apart.
-/

namespace MiniC

open Lower (temporaryName)

/-! ## Where a list can be cut -/

section Cut

variable {α : Type} {p : α → Bool} {front front' back back' : List α}

theorem takeWhile_run (all : ∀ a ∈ front, p a) (stops : ∀ a ∈ back.head?, p a = false) :
    (front ++ back).takeWhile p = front := by
  rw [List.takeWhile_append_of_pos all]
  cases back with
  | nil => exact List.append_nil front
  | cons a back =>
    rw [List.takeWhile_cons_of_neg (by simp [stops a rfl]), List.append_nil]

/-- A run at the beginning ends at the same place in equal lists. -/
theorem cut_run (all : ∀ a ∈ front, p a) (stops : ∀ a ∈ back.head?, p a = false)
    (all' : ∀ a ∈ front', p a) (stops' : ∀ a ∈ back'.head?, p a = false)
    (same : front ++ back = front' ++ back') : front = front' ∧ back = back' := by
  have isFront : front = front' := by
    rw [← takeWhile_run all stops, same, takeWhile_run all' stops']
  subst isFront
  exact ⟨rfl, List.append_cancel_left same⟩

/-- A run at the end starts at the same place in equal lists. -/
theorem cut_last_run (all : ∀ a ∈ back, p a) (stops : ∀ a ∈ front.getLast?, p a = false)
    (all' : ∀ a ∈ back', p a) (stops' : ∀ a ∈ front'.getLast?, p a = false)
    (same : front ++ back = front' ++ back') : front = front' ∧ back = back' := by
  have reversed : back.reverse ++ front.reverse = back'.reverse ++ front'.reverse := by
    rw [← List.reverse_append, same, List.reverse_append]
  obtain ⟨isBack, isFront⟩ := cut_run (p := p) (by simpa using all) (by simpa using stops)
    (by simpa using all') (by simpa using stops') reversed
  exact ⟨List.reverse_injective isFront, List.reverse_injective isBack⟩

/-- Equal lists have the last `c` at the same place. -/
theorem cut_at_last [DecidableEq α] {c : α} (apart : c ∉ back) (apart' : c ∉ back')
    (same : front ++ c :: back = front' ++ c :: back') : front = front' ∧ back = back' := by
  have others {list : List α} (apart : c ∉ list) : ∀ a ∈ list, decide (a ≠ c) := by
    intro a member
    exact decide_eq_true (ne_of_mem_of_not_mem member apart)
  have same : (front ++ [c]) ++ back = (front' ++ [c]) ++ back' := by
    rw [List.append_assoc, List.append_assoc]
    exact same
  obtain ⟨isFront, isBack⟩ := cut_last_run (p := fun a => decide (a ≠ c)) (others apart)
    (by simp) (others apart') (by simp) same
  exact ⟨List.append_cancel_right isFront, isBack⟩

end Cut

/-! ## Columns -/

namespace Quad

/-- A field, with the blanks that it lacks to the width of its column. -/
def column (field : List Char) : List Char :=
  field ++ List.replicate (columnWidth - field.length) ' '

/-- What is written in a column: something, without blanks. -/
structure IsField (field : List Char) : Prop where
  nonempty : field ≠ []
  noBlank : ' ' ∉ field

/-- There is no blank behind the field. -/
def Fills (field : List Char) : Prop :=
  columnWidth ≤ field.length

theorem toList_padRight (text : String) :
    (Text.padRight columnWidth text).toList = column text.toList := by
  unfold Text.padRight Text.spaces column
  rw [String.toList_append, String.toList_ofList, String.length_toList]

theorem toList_text (quad : Quad) :
    quad.text.toList = column quad.op.name.toList ++ (column (fieldText quad.operand1).toList ++
      (column (fieldText quad.operand2).toList ++ column (fieldText quad.result).toList)) := by
  unfold text
  simp only [String.toList_append, toList_padRight, List.append_assoc]

variable {field field' first first' second second' : List Char}

theorem column_of_fills (fills : Fills field) : column field = field := by
  unfold column
  rw [Nat.sub_eq_zero_of_le fills, List.replicate_zero, List.append_nil]

theorem mem_column {c : Char} (member : c ∈ column field) : c ∈ field ∨ c = ' ' :=
  (List.mem_append.1 member).imp_right List.eq_of_mem_replicate

/-- The name of an operation is not longer than its column. -/
theorem length_column_name (op : Opcode) : (column op.name.toList).length = columnWidth := by
  cases op <;> rfl

theorem noBlank_iff : ' ' ∉ field ↔ ∀ c ∈ field, (c != ' ') = true := by
  constructor
  · intro noBlank c member
    exact bne_iff_ne.2 (ne_of_mem_of_not_mem member noBlank)
  · intro others member
    exact absurd (others ' ' member) (by decide)

theorem head?_blanks {c : Char} {count : Nat} (isHead : c ∈ (List.replicate count ' ').head?) :
    (c != ' ') = false := by
  rw [List.eq_of_mem_replicate (List.mem_of_head? isHead)]
  rfl

theorem column_injective (noBlank : ' ' ∉ field) (noBlank' : ' ' ∉ field')
    (same : column field = column field') : field = field' :=
  (cut_run (p := (· != ' ')) (noBlank_iff.1 noBlank) (fun _ => head?_blanks)
    (noBlank_iff.1 noBlank') (fun _ => head?_blanks) same).1

theorem blank_mem_column_iff (isField : IsField field) : ' ' ∈ column field ↔ ¬ Fills field := by
  unfold column Fills
  rw [List.mem_append, or_iff_right isField.noBlank, List.mem_replicate, and_iff_left rfl,
    Nat.sub_ne_zero_iff_lt, Nat.not_le]

/-- A field that does not fill its column ends at the first blank. -/
theorem column_append_eq (isField : IsField field) (isField' : IsField field') (lacks : ¬ Fills field)
    (lacks' : ¬ Fills field') {back back' : List Char}
    (same : column field ++ back = column field' ++ back') : field = field' ∧ back = back' := by
  have stops {field : List Char} (lacks : ¬ Fills field) (back : List Char) :
      ∀ c ∈ (List.replicate (columnWidth - field.length) ' ' ++ back).head?, (c != ' ') = false := by
    have positive : 0 < columnWidth - field.length := by
      unfold Fills at lacks
      omega
    obtain ⟨count, isCount⟩ := Nat.exists_eq_succ_of_ne_zero positive.ne'
    rw [isCount]
    rintro _ ⟨⟩
    rfl
  unfold column at same
  rw [List.append_assoc, List.append_assoc] at same
  obtain ⟨rfl, sameBack⟩ := cut_run (p := (· != ' ')) (noBlank_iff.1 isField.noBlank)
    (stops lacks back) (noBlank_iff.1 isField'.noBlank) (stops lacks' back') same
  exact ⟨rfl, List.append_cancel_left sameBack⟩

theorem getLast?_append_field (isField : IsField second) {c : Char}
    (isLast : c ∈ (first ++ second).getLast?) : (c == ' ') = false := by
  rw [List.getLast?_append_of_ne_nil _ isField.nonempty] at isLast
  exact beq_false_of_ne (ne_of_mem_of_not_mem (List.mem_of_getLast? isLast) isField.noBlank)

/-- Of two fields side by side each is known, unless both fill their columns. -/
theorem columns_eq (isFirst : IsField first) (isSecond : IsField second) (isFirst' : IsField first')
    (isSecond' : IsField second')
    (same : column first ++ column second = column first' ++ column second') :
    first = first' ∧ second = second' ∨
      (Fills first ∧ Fills second ∧ Fills first' ∧ Fills second') ∧
        first ++ second = first' ++ second' := by
  have blanks (count : Nat) : ∀ c ∈ List.replicate count ' ', (c == ' ') = true := by
    intro c member
    rw [List.eq_of_mem_replicate member]
    rfl
  have blanksLast (first second : List Char) : column first ++ column second =
      (column first ++ second) ++ List.replicate (columnWidth - second.length) ' ' :=
    (List.append_assoc ..).symm
  rw [blanksLast, blanksLast] at same
  obtain ⟨sameFront, sameBlanks⟩ := cut_last_run (p := (· == ' ')) (blanks _)
    (fun _ => getLast?_append_field isSecond) (blanks _) (fun _ => getLast?_append_field isSecond')
    same
  have fills_iff : Fills first ↔ Fills first' := by
    have blank : ' ' ∈ column first ++ second ↔ ' ' ∈ column first' ++ second' := by rw [sameFront]
    rw [List.mem_append, List.mem_append, or_iff_left isSecond.noBlank,
      or_iff_left isSecond'.noBlank, blank_mem_column_iff isFirst,
      blank_mem_column_iff isFirst'] at blank
    exact not_iff_not.1 blank
  by_cases fills : Fills first
  · have fills' := fills_iff.1 fills
    rw [column_of_fills fills, column_of_fills fills'] at sameFront
    -- The blanks at the end tell how long the second field is, if it lacks any.
    have lacks := congrArg List.length sameBlanks
    rw [List.length_replicate, List.length_replicate] at lacks
    by_cases second_fills : Fills second
    · have second_fills' : Fills second' := by
        unfold Fills at second_fills ⊢
        omega
      exact .inr ⟨⟨fills, second_fills, fills', second_fills'⟩, sameFront⟩
    · unfold Fills at second_fills
      exact .inl (List.append_inj' sameFront (by omega))
  · exact .inl (column_append_eq isFirst isFirst' fills (mt fills_iff.2 fills) sameFront)

end Quad

/-! ## What stands in the columns -/

/-- A name that holds a value: a word of the source, or a temporary. -/
inductive IsPlaceName : String → Prop
  | source {name : String} : IsIdentifier name → IsPlaceName name
  | temporary (k : Nat) : IsPlaceName (temporaryName k)

theorem toList_temporaryName (k : Nat) : (temporaryName k).toList = '$' :: Nat.toDigits 10 k := by
  simp [temporaryName]

theorem isDigit_of_mem_toDigits {c : Char} {k : Nat} (member : c ∈ Nat.toDigits 10 k) :
    c.isDigit = true :=
  Nat.isDigit_of_mem_toDigits (by decide) (Nat.le_refl 10) member

theorem dollar_not_mem_toDigits (k : Nat) : '$' ∉ Nat.toDigits 10 k :=
  fun member => absurd (isDigit_of_mem_toDigits member) (by decide)

theorem isWordChar_of_mem_toDigits {c : Char} {k : Nat} (member : c ∈ Nat.toDigits 10 k) :
    isWordChar c := by
  unfold isWordChar Char.isAlphanum
  rw [isDigit_of_mem_toDigits member, Bool.or_true, Bool.or_true]

theorem toList_label (label : Label) :
    label.text.toList = "label".toList ++ Nat.toDigits 10 label.index := by
  simp [Label.text]

/-- The text of a label might also be a name. -/
theorem isIdentifier_label (label : Label) : IsIdentifier label.text := by
  refine ⟨?_, by simp [toList_label], ?_⟩
  · rw [toList_label, List.forall_mem_append]
    exact ⟨List.all_eq_true.1 (by decide), fun _ => isWordChar_of_mem_toDigits⟩
  · rw [toList_label]
    rintro _ ⟨⟩
    decide

namespace IsPlaceName

variable {name : String}

theorem chars (isName : IsPlaceName name) {c : Char} (member : c ∈ name.toList) :
    c = '$' ∨ isWordChar c := by
  cases isName with
  | source isName => exact .inr (isName.word c member)
  | temporary k =>
    rw [toList_temporaryName] at member
    exact (List.mem_cons.1 member).imp_right isWordChar_of_mem_toDigits

theorem not_mem (isName : IsPlaceName name) {c : Char} (apart : c ≠ '$')
    (other : isWordChar c = false) : c ∉ name.toList := by
  intro member
  have isChar := (isName.chars member).resolve_left apart
  rw [other] at isChar
  cases isChar

theorem isField (isName : IsPlaceName name) : Quad.IsField name.toList where
  nonempty := by
    cases isName with
    | source isName => exact isName.nonempty
    | temporary k => simp [toList_temporaryName]
  noBlank := isName.not_mem (by decide) (by decide)

/-- A name does not go on with a number that stands before it. -/
theorem head_not_digit (isName : IsPlaceName name) {c : Char} (isHead : c ∈ name.toList.head?) :
    c.isDigit = false := by
  cases isName with
  | source isName => exact not_isDigit_of_isWordStart (isName.start c isHead)
  | temporary k =>
    rw [toList_temporaryName] at isHead
    cases isHead
    rfl

theorem exists_eq_temporary (isName : IsPlaceName name) (dollar : '$' ∈ name.toList) :
    ∃ k, name = temporaryName k := by
  cases isName with
  | source isName => exact absurd (isName.word '$' dollar) (by decide)
  | temporary k => exact ⟨k, rfl⟩

theorem isIdentifier (isName : IsPlaceName name) (noDollar : '$' ∉ name.toList) :
    IsIdentifier name := by
  cases isName with
  | source isName => exact isName
  | temporary k => exact absurd (by simp [toList_temporaryName]) noDollar

end IsPlaceName

/-- A temporary ends before the name behind it, and starts behind the name before it. -/
theorem places_eq_of_append {lhs rhs lhs' rhs' : String} (isName : IsPlaceName lhs)
    (isName₂ : IsPlaceName rhs) (isName' : IsPlaceName lhs') (isName₂' : IsPlaceName rhs')
    (same : lhs.toList ++ rhs.toList = lhs'.toList ++ rhs'.toList) :
    lhs = lhs' ∧ rhs = rhs' ∨
      IsIdentifier lhs ∧ IsIdentifier rhs ∧ IsIdentifier lhs' ∧ IsIdentifier rhs' := by
  have sameHead : lhs.toList.head? = lhs'.toList.head? := by
    rw [← List.head?_append_of_ne_nil _ isName.isField.nonempty, same,
      List.head?_append_of_ne_nil _ isName'.isField.nonempty]
  by_cases dollar : '$' ∈ lhs.toList
  · obtain ⟨k, rfl⟩ := isName.exists_eq_temporary dollar
    obtain ⟨k', rfl⟩ := isName'.exists_eq_temporary (List.mem_of_head? (a := '$') (by
      rw [← sameHead, toList_temporaryName, List.head?_cons]))
    rw [toList_temporaryName, toList_temporaryName] at same
    obtain ⟨sameDigits, sameSecond⟩ := cut_run (p := Char.isDigit)
      (fun _ => isDigit_of_mem_toDigits) (fun _ => isName₂.head_not_digit)
      (fun _ => isDigit_of_mem_toDigits) (fun _ => isName₂'.head_not_digit) (List.cons.inj same).2
    exact .inl ⟨congrArg temporaryName (toDigits_injective sameDigits),
      String.toList_injective sameSecond⟩
  have dollar' : '$' ∉ lhs'.toList := by
    intro member
    obtain ⟨k', rfl⟩ := isName'.exists_eq_temporary member
    rw [toList_temporaryName] at sameHead
    exact dollar (List.mem_of_head? sameHead)
  have dollar_iff : '$' ∈ rhs.toList ↔ '$' ∈ rhs'.toList := by
    have both : '$' ∈ lhs.toList ++ rhs.toList ↔ '$' ∈ lhs'.toList ++ rhs'.toList := by rw [same]
    rwa [List.mem_append, List.mem_append, or_iff_right dollar, or_iff_right dollar'] at both
  by_cases dollar₂ : '$' ∈ rhs.toList
  · obtain ⟨k, rfl⟩ := isName₂.exists_eq_temporary dollar₂
    obtain ⟨k', rfl⟩ := isName₂'.exists_eq_temporary (dollar_iff.1 dollar₂)
    rw [toList_temporaryName, toList_temporaryName] at same
    obtain ⟨sameFirst, sameDigits⟩ :=
      cut_at_last (dollar_not_mem_toDigits k) (dollar_not_mem_toDigits k') same
    exact .inl ⟨String.toList_injective sameFirst,
      congrArg temporaryName (toDigits_injective sameDigits)⟩
  · exact .inr ⟨isName.isIdentifier dollar, isName₂.isIdentifier dollar₂,
      isName'.isIdentifier dollar', isName₂'.isIdentifier (mt dollar_iff.2 dollar₂)⟩

/-- A label ends before the name behind it. -/
theorem label_eq_of_append {label label' : Label} {name name' : String} (isName : IsPlaceName name)
    (isName' : IsPlaceName name')
    (same : label.text.toList ++ name.toList = label'.text.toList ++ name'.toList) :
    label = label' ∧ name = name' := by
  rw [toList_label, toList_label, List.append_assoc, List.append_assoc] at same
  obtain ⟨sameDigits, sameName⟩ := cut_run (p := Char.isDigit)
    (fun _ => isDigit_of_mem_toDigits) (fun _ => isName.head_not_digit)
    (fun _ => isDigit_of_mem_toDigits) (fun _ => isName'.head_not_digit)
    (List.append_cancel_left same)
  exact ⟨congrArg Label.mk (toDigits_injective sameDigits), String.toList_injective sameName⟩

/-- The number of a label at the end goes back to a letter. -/
theorem label_eq_of_append_label {label label' : Label} {name name' : String}
    (same : name.toList ++ label.text.toList = name'.toList ++ label'.text.toList) :
    name = name' ∧ label = label' := by
  have letter (name : String) : ∀ c ∈ (name.toList ++ "label".toList).getLast?,
      c.isDigit = false := by
    rw [List.getLast?_append_of_ne_nil _ (by decide)]
    rintro _ ⟨⟩
    rfl
  rw [toList_label, toList_label, ← List.append_assoc, ← List.append_assoc] at same
  obtain ⟨sameName, sameDigits⟩ := cut_last_run (p := Char.isDigit)
    (fun _ => isDigit_of_mem_toDigits) (letter name) (fun _ => isDigit_of_mem_toDigits)
    (letter name') same
  exact ⟨String.toList_injective (List.append_cancel_right sameName),
    congrArg Label.mk (toDigits_injective sameDigits)⟩

end MiniC
