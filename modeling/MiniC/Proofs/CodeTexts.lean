import MiniC.Proofs.Columns
import MiniC.Proofs.Discipline

/-!
# What the text of intermediate code tells

The text of a program tells its functions and their quadruples, apart from scopes. A line that starts
with a tab is a quadruple and any other names a function. The columns of a quadruple are read by its
operation; the number of arguments of a call is also that of the pushes before it. All that remains
open is where the first operand of arithmetic ends when both operands are names of the source that
fill their columns.
-/

namespace MiniC

open Lower (temporaryName)

namespace Opcode

theorem name_injective {op op' : Opcode} (same : op.name = op'.name) : op = op' := by
  revert same
  cases op <;> cases op' <;> decide

theorem ofBinary_injective {op op' : BinaryOp} (same : ofBinary op = ofBinary op') : op = op' := by
  cases op <;> cases op' <;> first | rfl | cases same

theorem ofUnary_injective {op op' : UnaryOp} (same : ofUnary op = ofUnary op') : op = op' := by
  cases op <;> cases op' <;> first | rfl | cases same

end Opcode

namespace Quad

/-! ## Quadruples of compiled code -/

/-- The quadruples differ in their scopes only. -/
def Alike (quad quad' : Quad) : Prop :=
  { quad with scope := quad'.scope } = quad'

/-- The same arithmetic on names of the source that fill their columns, with the same characters in
both names together. -/
def RunTogether (quad quad' : Quad) : Prop :=
  ∃ op lhs rhs lhs' rhs' result, quad = .binary op lhs rhs result quad.scope ∧
    quad' = .binary op lhs' rhs' result quad'.scope ∧
    (∀ name ∈ [lhs, rhs, lhs', rhs'], IsIdentifier name ∧ columnWidth ≤ name.length) ∧
    lhs ++ rhs = lhs' ++ rhs'

/-- What the fields of compiled code hold, by operation. -/
def Spelled (quad : Quad) : Prop :=
  match quad.op with
  | .load => ∃ value k, quad = .load value (temporaryName k) quad.scope
  | .assign => ∃ source target, IsPlaceName source ∧ IsIdentifier target ∧
      quad = .assign source target quad.scope
  | .plus | .minus | .mult | .div => ∃ op lhs rhs k, IsPlaceName lhs ∧ IsPlaceName rhs ∧
      quad = .binary op lhs rhs (temporaryName k) quad.scope
  | .uplus | .uminus => ∃ op operand k, IsPlaceName operand ∧
      quad = .unary op operand (temporaryName k) quad.scope
  | .param => ∃ value, IsPlaceName value ∧ quad = .param value quad.scope
  | .call => ∃ callee count k, IsIdentifier callee ∧
      quad = .call callee count (temporaryName k) quad.scope
  | .ret => ∃ exit value, IsPlaceName value ∧ quad = .ret exit value quad.scope
  | .label => ∃ label, quad = .mark label quad.scope
  | .jump => ∃ label, quad = .jump label quad.scope
  | .jumpIfNot => ∃ condition label, IsPlaceName condition ∧
      quad = .jumpIfNot condition label quad.scope

/-! ## The text of a quadruple -/

/-- The operation stands in the first column, which is never too narrow. -/
theorem columns_of_text {quad quad' : Quad} (same : quad.text = quad'.text) :
    quad.op = quad'.op ∧
      column (fieldText quad.operand1).toList ++ (column (fieldText quad.operand2).toList ++
        column (fieldText quad.result).toList) =
      column (fieldText quad'.operand1).toList ++ (column (fieldText quad'.operand2).toList ++
        column (fieldText quad'.result).toList) := by
  have chars := congrArg String.toList same
  rw [toList_text, toList_text] at chars
  obtain ⟨sameOp, sameFields⟩ := List.append_inj chars (by simp only [length_column_name])
  refine ⟨Opcode.name_injective (String.toList_injective (column_injective ?_ ?_ sameOp)), sameFields⟩
  · cases quad.op <;> decide
  · cases quad'.op <;> decide

/-- A temporary in the last column starts at the last dollar sign. -/
theorem columns_of_temporary {first second first' second' : List Char} {k k' : Nat}
    (same : first ++ (second ++ column (temporaryName k).toList) =
      first' ++ (second' ++ column (temporaryName k').toList)) :
    first ++ second = first' ++ second' ∧ k = k' := by
  have split (k : Nat) : ∃ rest, column (temporaryName k).toList = '$' :: rest ∧ '$' ∉ rest := by
    refine ⟨_, congrArg column (toList_temporaryName k), fun member => ?_⟩
    rcases List.mem_append.1 member with digit | blank
    · exact dollar_not_mem_toDigits k digit
    · exact absurd (List.eq_of_mem_replicate blank) (by decide)
  obtain ⟨rest, isColumn, apart⟩ := split k
  obtain ⟨rest', isColumn', apart'⟩ := split k'
  rw [isColumn, isColumn', ← List.append_assoc, ← List.append_assoc] at same
  obtain ⟨sameFront, rfl⟩ := cut_at_last apart apart' same
  rw [← isColumn'] at isColumn
  exact ⟨sameFront, temporaryName_injective (String.toList_injective (column_injective
    (IsPlaceName.temporary k).isField.noBlank (IsPlaceName.temporary k').isField.noBlank isColumn))⟩

theorem constant_eq_of_column {value value' : Int32}
    (same : column (Operand.constant value).text.toList =
      column (Operand.constant value').text.toList) : value = value' := by
  have noBlank (value : Int32) : ' ' ∉ (Operand.constant value).text.toList := by
    intro member
    rcases Assembly.mem_toString member with sign | digit
    · exact absurd sign (by decide)
    · exact absurd digit (by decide)
  have sameText := String.toList_injective (column_injective (noBlank value) (noBlank value') same)
  have sameInt := congrArg String.toInt? sameText
  rw [show (Operand.constant value).text.toInt? = some value.toInt from Int.toInt?_repr _,
    show (Operand.constant value').text.toInt? = some value'.toInt from Int.toInt?_repr _] at sameInt
  exact Int32.toInt_inj.1 (Option.some.inj sameInt)

theorem name_eq_of_column {name name' : String} (isName : IsPlaceName name)
    (isName' : IsPlaceName name') (same : column name.toList = column name'.toList) : name = name' :=
  String.toList_injective (column_injective isName.isField.noBlank isName'.isField.noBlank same)

theorem isField_label (label : Label) : IsField label.text.toList :=
  (IsPlaceName.source (isIdentifier_label label)).isField

theorem label_eq_of_column {label label' : Label}
    (same : column label.text.toList = column label'.text.toList) : label = label' :=
  Label.text_injective (name_eq_of_column (.source (isIdentifier_label label))
    (.source (isIdentifier_label label')) same)

/-- The dash of an absent operand is the last one, as no name has one. -/
theorem columns_of_absent {first first' : List Char} {name name' : String}
    (isName : IsPlaceName name) (isName' : IsPlaceName name')
    (same : first ++ (column (fieldText none).toList ++ column name.toList) =
      first' ++ (column (fieldText none).toList ++ column name'.toList)) :
    first = first' ∧ name = name' := by
  have apart {name : String} (isName : IsPlaceName name) :
      '-' ∉ List.replicate (columnWidth - 1) ' ' ++ column name.toList := by
    intro member
    rcases List.mem_append.1 member with blank | rest
    · exact absurd (List.eq_of_mem_replicate blank) (by decide)
    rcases mem_column rest with inName | blank
    · exact isName.not_mem (by decide) (by decide) inName
    · exact absurd blank (by decide)
  obtain ⟨sameFront, sameRest⟩ := cut_at_last (apart isName) (apart isName') same
  exact ⟨sameFront, name_eq_of_column isName isName' (List.append_cancel_left sameRest)⟩

theorem label_and_name_of_columns {label label' : Label} {name name' : String}
    {last : List Char} (isName : IsPlaceName name) (isName' : IsPlaceName name')
    (same : column label.text.toList ++ (column name.toList ++ last) =
      column label'.text.toList ++ (column name'.toList ++ last)) :
    label = label' ∧ name = name' := by
  rw [← List.append_assoc, ← List.append_assoc] at same
  rcases columns_eq (isField_label label) isName.isField (isField_label label') isName'.isField
    (List.append_cancel_right same) with ⟨sameLabel, sameName⟩ | ⟨_, together⟩
  · exact ⟨Label.text_injective (String.toList_injective sameLabel),
      String.toList_injective sameName⟩
  · exact label_eq_of_append isName isName' together

theorem name_and_label_of_columns {label label' : Label} {name name' : String}
    {last : List Char} (isName : IsPlaceName name) (isName' : IsPlaceName name')
    (same : column name.toList ++ (column label.text.toList ++ last) =
      column name'.toList ++ (column label'.text.toList ++ last)) :
    name = name' ∧ label = label' := by
  rw [← List.append_assoc, ← List.append_assoc] at same
  rcases columns_eq isName.isField (isField_label label) isName'.isField (isField_label label')
    (List.append_cancel_right same) with ⟨sameName, sameLabel⟩ | ⟨_, together⟩
  · exact ⟨String.toList_injective sameName,
      Label.text_injective (String.toList_injective sameLabel)⟩
  · exact label_eq_of_append_label together

/-- The text of arithmetic tells its operands, unless they run together. -/
theorem binary_of_text {op : BinaryOp} {lhs rhs lhs' rhs' : String} {k k' : Nat}
    {scope scope' : ScopeId} (isName : IsPlaceName lhs) (isName₂ : IsPlaceName rhs)
    (isName' : IsPlaceName lhs') (isName₂' : IsPlaceName rhs')
    (same : column lhs.toList ++ (column rhs.toList ++ column (temporaryName k).toList) =
      column lhs'.toList ++ (column rhs'.toList ++ column (temporaryName k').toList)) :
    Alike (.binary op lhs rhs (temporaryName k) scope)
        (.binary op lhs' rhs' (temporaryName k') scope') ∨
      RunTogether (.binary op lhs rhs (temporaryName k) scope)
        (.binary op lhs' rhs' (temporaryName k') scope') := by
  obtain ⟨sameOperands, rfl⟩ := columns_of_temporary same
  rcases columns_eq isName.isField isName₂.isField isName'.isField isName₂'.isField sameOperands with
    ⟨sameFirst, sameSecond⟩ | ⟨fill, sameTogether⟩
  · obtain rfl := String.toList_injective sameFirst
    obtain rfl := String.toList_injective sameSecond
    exact .inl rfl
  · rcases places_eq_of_append isName isName₂ isName' isName₂' sameTogether with
      ⟨rfl, rfl⟩ | ⟨isWord, isWord₂, isWord', isWord₂'⟩
    · exact .inl rfl
    · refine .inr ⟨op, lhs, rhs, lhs', rhs', temporaryName k, rfl, rfl, ?_, ?_⟩
      · unfold Fills at fill
        simp only [String.length_toList] at fill
        simp only [List.forall_mem_cons]
        exact ⟨⟨isWord, fill.1⟩, ⟨isWord₂, fill.2.1⟩, ⟨isWord', fill.2.2.1⟩, ⟨isWord₂', fill.2.2.2⟩,
          List.forall_mem_nil _⟩
      · exact String.toList_injective (by simpa using sameTogether)

/-- The text of a quadruple of compiled code tells the quadruple but for its scope, unless operands
run together. -/
theorem Spelled.alike_of_text {quad quad' : Quad} (spelled : quad.Spelled)
    (spelled' : quad'.Spelled) (counted : quad.op = .call → quad.operand2 = quad'.operand2)
    (same : quad.text = quad'.text) : quad.Alike quad' ∨ quad.RunTogether quad' := by
  obtain ⟨sameOp, sameFields⟩ := columns_of_text same
  unfold Spelled at spelled spelled'
  rw [← sameOp] at spelled'
  cases isOp : quad.op with
  | load =>
    rw [isOp] at spelled spelled'
    obtain ⟨value, k, isQuad⟩ := spelled
    obtain ⟨value', k', isQuad'⟩ := spelled'
    rw [isQuad, isQuad'] at sameFields ⊢
    obtain ⟨sameFront, rfl⟩ := columns_of_temporary sameFields
    obtain rfl := constant_eq_of_column (List.append_cancel_right sameFront)
    exact .inl rfl
  | assign =>
    rw [isOp] at spelled spelled'
    obtain ⟨source, target, isName, isTarget, isQuad⟩ := spelled
    obtain ⟨source', target', isName', isTarget', isQuad'⟩ := spelled'
    rw [isQuad, isQuad'] at sameFields ⊢
    obtain ⟨sameSource, sameTarget⟩ := columns_of_absent (.source isTarget) (.source isTarget')
      sameFields
    obtain rfl := name_eq_of_column isName isName' sameSource
    obtain rfl := sameTarget
    exact .inl rfl
  | plus | minus | mult | div =>
    rw [isOp] at spelled spelled'
    obtain ⟨op, lhs, rhs, k, isName, isName₂, isQuad⟩ := spelled
    obtain ⟨op', lhs', rhs', k', isName', isName₂', isQuad'⟩ := spelled'
    rw [isQuad, isQuad'] at sameOp sameFields ⊢
    obtain rfl := Opcode.ofBinary_injective sameOp
    exact binary_of_text isName isName₂ isName' isName₂' sameFields
  | uplus | uminus =>
    rw [isOp] at spelled spelled'
    obtain ⟨op, operand, k, isName, isQuad⟩ := spelled
    obtain ⟨op', operand', k', isName', isQuad'⟩ := spelled'
    rw [isQuad, isQuad'] at sameOp sameFields ⊢
    obtain rfl := Opcode.ofUnary_injective sameOp
    obtain ⟨sameFront, rfl⟩ := columns_of_temporary sameFields
    obtain rfl := name_eq_of_column isName isName' (List.append_cancel_right sameFront)
    exact .inl rfl
  | param =>
    rw [isOp] at spelled spelled'
    obtain ⟨value, isName, isQuad⟩ := spelled
    obtain ⟨value', isName', isQuad'⟩ := spelled'
    rw [isQuad, isQuad'] at sameFields ⊢
    obtain rfl := name_eq_of_column isName isName' (List.append_cancel_right sameFields)
    exact .inl rfl
  | call =>
    have sameCount := counted isOp
    rw [isOp] at spelled spelled'
    obtain ⟨callee, count, k, isName, isQuad⟩ := spelled
    obtain ⟨callee', count', k', isName', isQuad'⟩ := spelled'
    rw [isQuad, isQuad'] at sameFields sameCount ⊢
    cases sameCount
    obtain ⟨sameFront, rfl⟩ := columns_of_temporary sameFields
    obtain rfl := name_eq_of_column (.source isName) (.source isName')
      (List.append_cancel_right sameFront)
    exact .inl rfl
  | ret =>
    rw [isOp] at spelled spelled'
    obtain ⟨exit, value, isName, isQuad⟩ := spelled
    obtain ⟨exit', value', isName', isQuad'⟩ := spelled'
    rw [isQuad, isQuad'] at sameFields ⊢
    obtain ⟨rfl, rfl⟩ := label_and_name_of_columns isName isName' sameFields
    exact .inl rfl
  | label | jump =>
    rw [isOp] at spelled spelled'
    obtain ⟨label, isQuad⟩ := spelled
    obtain ⟨label', isQuad'⟩ := spelled'
    rw [isQuad, isQuad'] at sameFields ⊢
    obtain rfl := label_eq_of_column (List.append_cancel_right sameFields)
    exact .inl rfl
  | jumpIfNot =>
    rw [isOp] at spelled spelled'
    obtain ⟨condition, label, isName, isQuad⟩ := spelled
    obtain ⟨condition', label', isName', isQuad'⟩ := spelled'
    rw [isQuad, isQuad'] at sameFields ⊢
    obtain ⟨rfl, rfl⟩ := name_and_label_of_columns isName isName' sameFields
    exact .inl rfl

theorem Alike.text_eq {quad quad' : Quad} (alike : quad.Alike quad') : quad.text = quad'.text := by
  unfold Alike at alike
  rw [← alike]
  rfl

theorem RunTogether.text_eq {quad quad' : Quad} (together : quad.RunTogether quad') :
    quad.text = quad'.text := by
  obtain ⟨op, lhs, rhs, lhs', rhs', result, isQuad, isQuad', names, same⟩ := together
  simp only [List.forall_mem_cons] at names
  obtain ⟨⟨_, fills⟩, ⟨_, fills₂⟩, ⟨_, fills'⟩, ⟨_, fills₂'⟩, _⟩ := names
  have asIs {name : String} (fills : columnWidth ≤ name.length) : column name.toList = name.toList :=
    column_of_fills (fills.trans_eq String.length_toList.symm)
  have sameChars := congrArg String.toList same
  rw [String.toList_append, String.toList_append] at sameChars
  refine String.toList_injective ?_
  rw [isQuad, isQuad', toList_text, toList_text]
  show _ ++ (column lhs.toList ++ (column rhs.toList ++ _)) =
    _ ++ (column lhs'.toList ++ (column rhs'.toList ++ _))
  rw [asIs fills, asIs fills₂, asIs fills', asIs fills₂', ← List.append_assoc lhs.toList, sameChars,
    List.append_assoc]
  rfl

/-! ## A quadruple stays on its line -/

/-- What a field of compiled code holds. -/
inductive IsOperand : Option Operand → Prop
  | absent : IsOperand none
  | constant (value : Int32) : IsOperand (some (.constant value))
  | count (arguments : Nat) : IsOperand (some (.count arguments))
  | label (target : Label) : IsOperand (some (.label target))
  | name {name : String} : IsPlaceName name → IsOperand (some (.name name))

theorem IsOperand.not_mem {operand : Option Operand} (isOperand : IsOperand operand) {c : Char}
    (isBreak : c = '\n' ∨ c = '\r') : c ∉ (fieldText operand).toList := by
  have noNumber (value : Int) : c ∉ (toString value).toList := by
    intro member
    rcases Assembly.mem_toString member with rfl | digit
    · revert isBreak
      decide
    · rcases isBreak with rfl | rfl <;> exact absurd digit (by decide)
  cases isOperand with
  | absent => rcases isBreak with rfl | rfl <;> decide
  | constant value => exact noNumber value.toInt
  | count arguments => exact noNumber arguments
  | label target =>
    rcases isBreak with rfl | rfl <;>
    exact (IsPlaceName.source (isIdentifier_label target)).not_mem (by decide) (by decide)
  | name isName =>
    rcases isBreak with rfl | rfl <;>
    exact isName.not_mem (by decide) (by decide)

theorem Spelled.areOperands {quad : Quad} (spelled : quad.Spelled) :
    IsOperand quad.operand1 ∧ IsOperand quad.operand2 ∧ IsOperand quad.result := by
  unfold Spelled at spelled
  split at spelled
  · obtain ⟨value, k, isQuad⟩ := spelled
    rw [isQuad]
    exact ⟨.constant value, .absent, .name (.temporary k)⟩
  · obtain ⟨source, target, isName, isTarget, isQuad⟩ := spelled
    rw [isQuad]
    exact ⟨.name isName, .absent, .name (.source isTarget)⟩
  iterate 4
    · obtain ⟨op, lhs, rhs, k, isName, isName₂, isQuad⟩ := spelled
      rw [isQuad]
      exact ⟨.name isName, .name isName₂, .name (.temporary k)⟩
  iterate 2
    · obtain ⟨op, operand, k, isName, isQuad⟩ := spelled
      rw [isQuad]
      exact ⟨.name isName, .absent, .name (.temporary k)⟩
  · obtain ⟨value, isName, isQuad⟩ := spelled
    rw [isQuad]
    exact ⟨.name isName, .absent, .absent⟩
  · obtain ⟨callee, count, k, isName, isQuad⟩ := spelled
    rw [isQuad]
    exact ⟨.name (.source isName), .count count, .name (.temporary k)⟩
  · obtain ⟨exit, value, isName, isQuad⟩ := spelled
    rw [isQuad]
    exact ⟨.label exit, .name isName, .absent⟩
  iterate 2
    · obtain ⟨label, isQuad⟩ := spelled
      rw [isQuad]
      exact ⟨.label label, .absent, .absent⟩
  · obtain ⟨condition, label, isName, isQuad⟩ := spelled
    rw [isQuad]
    exact ⟨.name isName, .label label, .absent⟩

/-- The text of a quadruple is one line. -/
theorem Spelled.not_mem_text {quad : Quad} (spelled : quad.Spelled) {c : Char}
    (isBreak : c = '\n' ∨ c = '\r') : c ∉ quad.text.toList := by
  have noBlank : c ≠ ' ' := by rcases isBreak with rfl | rfl <;> decide
  have noOp : c ∉ quad.op.name.toList := by
    rcases isBreak with rfl | rfl <;> cases quad.op <;> decide
  obtain ⟨isFirst, isSecond, isResult⟩ := spelled.areOperands
  have apart {field : List Char} (noField : c ∉ field) : c ∉ column field :=
    fun member => (mem_column member).elim noField noBlank
  rw [toList_text, List.mem_append, List.mem_append, List.mem_append, not_or, not_or, not_or]
  exact ⟨apart noOp, apart (isFirst.not_mem isBreak), apart (isSecond.not_mem isBreak),
    apart (isResult.not_mem isBreak)⟩

end Quad

/-! ## Lines -/

theorem Text.lines_join {list : List String} (oneLine : ∀ line ∈ list, '\n' ∉ line.toList)
    (noReturn : ∀ line ∈ list, '\r' ∉ line.toList) :
    lines (String.join (list.map (· ++ "\n"))) = list := by
  induction list with
  | nil => rfl
  | cons line list ih =>
    obtain ⟨first, later⟩ := List.forall_mem_cons.1 oneLine
    obtain ⟨first', later'⟩ := List.forall_mem_cons.1 noReturn
    have isLine : line ++ "\n" = String.ofList (line.toList ++ ['\n']) := by
      rw [String.ofList_append, String.ofList_toList]
    rw [List.map_cons, String.join_cons, isLine,
      Text.lines_append first fun isLast => first' (List.mem_of_getLast? isLast), ih later later',
      String.ofList_toList]

/-- The lines of a function: its name, and its quadruples behind a tab each. -/
def FunctionCode.lines (function : FunctionCode) : List String :=
  (function.name ++ ":") :: function.body.toList.map fun quad => "\t" ++ quad.text

theorem Code.text_eq (code : Code) :
    code.text = String.join ((code.functions.flatMap FunctionCode.lines).map (· ++ "\n")) := by
  have ofFunction (function : FunctionCode) :
      function.name ++ ":\n" ++ String.join (function.body.toList.map fun quad =>
        "\t" ++ quad.text ++ "\n") = String.join (function.lines.map (· ++ "\n")) := by
    rw [FunctionCode.lines, List.map_cons, String.join_cons, List.map_map, String.append_assoc,
      String.append_assoc, String.append_assoc]
    rfl
  unfold Code.text
  simp only [ofFunction]
  induction code.functions with
  | nil => rfl
  | cons function functions ih =>
    rw [List.map_cons, String.join_cons, ih, List.flatMap_cons, List.map_append, String.join_append]

/-! ## Functions whose lines are read back -/

/-- What is known of the code of a function when its lines are read: what its quadruples hold, and
that a call takes the arguments pushed before it. -/
structure FunctionCode.Legible (function : FunctionCode) : Prop where
  named : IsIdentifier function.name
  spelled : ∀ quad ∈ function.body.toList, quad.Spelled
  pushed : Pushed 0 function.body.toList

/-- The functions have one name, and their quadruples are the same one by one, apart from scopes and
from operands that run together. -/
def FunctionCode.ReadsAs (function function' : FunctionCode) : Prop :=
  function.name = function'.name ∧
    List.Forall₂ (fun quad quad' => quad.Alike quad' ∨ quad.RunTogether quad') function.body.toList
      function'.body.toList

section Lines

variable {functions functions' : List FunctionCode}

theorem lines_text {code : Code} (legible : ∀ function ∈ code.functions, function.Legible) :
    Text.lines code.text = code.functions.flatMap FunctionCode.lines := by
  have noBreak {c : Char} (isBreak : c = '\n' ∨ c = '\r') :
      ∀ line ∈ code.functions.flatMap FunctionCode.lines, c ∉ line.toList := by
    intro line member
    obtain ⟨function, inCode, inLines⟩ := List.mem_flatMap.1 member
    have known := legible function inCode
    rcases List.mem_cons.1 inLines with rfl | inBody
    · rw [String.toList_append, List.mem_append, not_or]
      rcases isBreak with rfl | rfl <;>
      exact ⟨(IsPlaceName.source known.named).not_mem (by decide) (by decide), by decide⟩
    · obtain ⟨quad, inCode, rfl⟩ := List.mem_map.1 inBody
      rw [String.toList_append, List.mem_append, not_or]
      refine ⟨?_, (known.spelled quad inCode).not_mem_text isBreak⟩
      rcases isBreak with rfl | rfl <;> decide
  rw [Code.text_eq, Text.lines_join (noBreak (.inl rfl)) (noBreak (.inr rfl))]

/-- With as many arguments pushed on both sides, quadruples with the same lines are alike, or their
operands run together. -/
theorem alike_of_lines {body body' : List Quad} {count : Nat}
    (spelled : ∀ quad ∈ body, quad.Spelled) (spelled' : ∀ quad ∈ body', quad.Spelled)
    (pushed : Pushed count body) (pushed' : Pushed count body')
    (same : body.map (fun quad => "\t" ++ quad.text) = body'.map fun quad => "\t" ++ quad.text) :
    List.Forall₂ (fun quad quad' => quad.Alike quad' ∨ quad.RunTogether quad') body body' := by
  induction body generalizing body' count with
  | nil =>
    obtain rfl := List.map_eq_nil_iff.1 same.symm
    exact .nil
  | cons quad body ih =>
    cases body' with
    | nil => cases same
    | cons quad' body' =>
      obtain ⟨sameLine, sameLines⟩ := List.cons.inj same
      have sameText := (String.append_right_inj _).1 sameLine
      obtain ⟨isSpelled, areSpelled⟩ := List.forall_mem_cons.1 spelled
      obtain ⟨isSpelled', areSpelled'⟩ := List.forall_mem_cons.1 spelled'
      have sameOp := (Quad.columns_of_text sameText).1
      by_cases isParam : quad.op = .param
      · refine .cons (isSpelled.alike_of_text isSpelled' (fun isCall => ?_) sameText)
          (ih areSpelled areSpelled' ((pushed_param isParam).1 pushed)
            ((pushed_param (sameOp.symm.trans isParam)).1 pushed') sameLines)
        rw [isParam] at isCall
        cases isCall
      by_cases isCall : quad.op = .call
      · obtain ⟨counted, later⟩ := (pushed_call isCall).1 pushed
        obtain ⟨counted', later'⟩ := (pushed_call (sameOp.symm.trans isCall)).1 pushed'
        exact .cons (isSpelled.alike_of_text isSpelled' (fun _ => counted.trans counted'.symm)
          sameText) (ih areSpelled areSpelled' later later' sameLines)
      · have later := ((pushed_other isParam isCall).1 pushed).2
        have later' := ((pushed_other (sameOp ▸ isParam) (sameOp ▸ isCall)).1 pushed').2
        exact .cons (isSpelled.alike_of_text isSpelled' (absurd · isCall) sameText)
          (ih areSpelled areSpelled' later later' sameLines)

/-- The quadruples of a function are the lines with a tab behind its name. -/
theorem readsAs_of_lines (legible : ∀ function ∈ functions, function.Legible)
    (legible' : ∀ function ∈ functions', function.Legible)
    (same : functions.flatMap FunctionCode.lines = functions'.flatMap FunctionCode.lines) :
    List.Forall₂ FunctionCode.ReadsAs functions functions' := by
  have startsTab (function : FunctionCode) :
      ∀ line ∈ function.body.toList.map (fun quad => "\t" ++ quad.text),
        (line.toList.head? == some '\t') = true := by
    intro line member
    obtain ⟨quad, _, rfl⟩ := List.mem_map.1 member
    simp
  have stops {functions : List FunctionCode} (legible : ∀ function ∈ functions, function.Legible) :
      ∀ line ∈ (functions.flatMap FunctionCode.lines).head?,
        (line.toList.head? == some '\t') = false := by
    cases functions with
    | nil => rintro _ ⟨⟩
    | cons function functions =>
      rintro _ ⟨⟩
      have named := (legible function List.mem_cons_self).named
      refine beq_false_of_ne fun isTab => ?_
      rw [String.toList_append, List.head?_append_of_ne_nil _ named.nonempty] at isTab
      exact absurd (named.word _ (List.mem_of_head? isTab)) (by decide)
  induction functions generalizing functions' with
  | nil =>
    cases functions' with
    | nil => exact .nil
    | cons => cases same
  | cons function functions ih =>
    cases functions' with
    | nil => cases same
    | cons function' functions' =>
      obtain ⟨isLegible, areLegible⟩ := List.forall_mem_cons.1 legible
      obtain ⟨isLegible', areLegible'⟩ := List.forall_mem_cons.1 legible'
      rw [List.flatMap_cons, List.flatMap_cons] at same
      obtain ⟨sameName, sameRest⟩ := List.cons.inj same
      obtain ⟨sameBody, sameLater⟩ := cut_run (p := (·.toList.head? == some '\t'))
        (startsTab function) (stops areLegible) (startsTab function') (stops areLegible') sameRest
      refine .cons ⟨?_, ?_⟩ (ih areLegible areLegible' sameLater)
      · exact (String.append_left_inj _).1 sameName
      · exact alike_of_lines isLegible.spelled isLegible'.spelled isLegible.pushed
          isLegible'.pushed sameBody

end Lines

/-! ## The code of a tree -/

namespace Node

theorem isPlaceName_value {scope : ScopeId} {node : Node} (inScope : node.ValueIn scope)
    (next : Nat) : IsPlaceName (node.valueName next) := by
  cases node with
  | identifier info name => exact .source inScope.2
  | integer | real | unary | binary | call => exact .temporary _
  | _ => exact inScope.elim

mutual
theorem value_spelled {scope : ScopeId} : (node : Node) → ∀ next : Nat, node.ValueIn scope →
    ∀ quad ∈ node.valueCode scope next, quad.Spelled
  | integer info value => fun next _ => List.forall_mem_singleton.2 ⟨value, next, rfl⟩
  | unary info op operand => by
    rintro next ⟨_, inScope⟩
    rw [valueCode, List.forall_mem_append, List.forall_mem_singleton]
    refine ⟨value_spelled operand next inScope, ?_⟩
    cases op <;> exact ⟨_, _, _, isPlaceName_value inScope next, rfl⟩
  | binary info op lhs rhs => by
    rintro next ⟨_, inScope, inScope'⟩
    rw [valueCode, List.forall_mem_append, List.forall_mem_append, List.forall_mem_singleton]
    refine ⟨value_spelled lhs next inScope, value_spelled rhs _ inScope', ?_⟩
    cases op <;>
    exact ⟨_, _, _, _, isPlaceName_value inScope next, isPlaceName_value inScope' _, rfl⟩
  | call info callee arguments => by
    rintro next ⟨_, calleeIn, inScope⟩
    obtain ⟨inner, names⟩ := values_spelled arguments next inScope
    rw [valueCode, List.forall_mem_append, List.forall_mem_append, List.forall_mem_singleton]
    refine ⟨inner, fun quad pushed => ?_, ?_⟩
    · obtain ⟨name, member, rfl⟩ := List.mem_map.1 pushed
      exact ⟨name, names name (List.mem_reverse.1 member), rfl⟩
    · cases callee with
      | identifier info name => exact ⟨name, _, _, calleeIn.2, rfl⟩
      | _ => exact calleeIn.elim
  | identifier .. | real .. | empty .. | program .. | function .. | parameter .. | returnValue ..
  | block .. | declaration .. | assignment .. | ifThen .. | ifElse .. =>
    fun _ _ _ member => absurd member List.not_mem_nil
theorem values_spelled {scope : ScopeId} : (nodes : List Node) → ∀ next : Nat,
    ValuesIn scope nodes → (∀ quad ∈ valueCodes scope next nodes, quad.Spelled) ∧
      ∀ name ∈ valueNames next nodes, IsPlaceName name
  | [] => fun _ _ =>
    ⟨fun _ member => absurd member List.not_mem_nil, fun _ member => absurd member List.not_mem_nil⟩
  | node :: nodes => by
    rintro next ⟨inScope, inScope'⟩
    obtain ⟨rest, names⟩ := values_spelled nodes (next + node.temporaryCount) inScope'
    rw [valueCodes, valueNames, List.forall_mem_append, List.forall_mem_cons]
    exact ⟨⟨value_spelled node next inScope, rest⟩, isPlaceName_value inScope next, names⟩
end

mutual
theorem statement_spelled {table : Table} {top : ScopeId} (exit : Label) : (node : Node) →
    ∀ ⦃scope : ScopeId⦄ ⦃layout : Layout⦄ ⦃count next label : Nat⦄,
    node.ScopedIn table top scope layout count →
    ∀ quad ∈ node.statementCode exit scope next label, quad.Spelled
  | block info declarations statements => by
    rintro scope layout count next label ⟨inner, attached, _, _, _, placed⟩
    rw [statementCode, attached]
    exact statements_spelled exit statements placed
  | returnValue info value => by
    rintro scope layout count next label ⟨_, inScope⟩
    rw [statementCode, List.forall_mem_append, List.forall_mem_singleton]
    exact ⟨value_spelled value next inScope, exit, _, isPlaceName_value inScope next, rfl⟩
  | assignment info target value => by
    rintro scope layout count next label ⟨_, isName, inScope⟩
    rw [statementCode, List.forall_mem_append, List.forall_mem_singleton]
    exact ⟨value_spelled value next inScope, _, target, isPlaceName_value inScope next, isName, rfl⟩
  | ifThen info condition consequent => by
    rintro scope layout count next label ⟨_, inScope, placed⟩
    rw [statementCode, List.forall_mem_append, List.forall_mem_cons, List.forall_mem_append,
      List.forall_mem_singleton]
    exact ⟨value_spelled condition next inScope, ⟨_, _, isPlaceName_value inScope next, rfl⟩,
      statement_spelled exit consequent placed, _, rfl⟩
  | ifElse info condition consequent alternative => by
    rintro scope layout count next label ⟨_, inScope, placed, placed'⟩
    rw [statementCode, List.forall_mem_append, List.forall_mem_cons, List.forall_mem_append,
      List.forall_mem_cons, List.forall_mem_cons, List.forall_mem_append,
      List.forall_mem_singleton]
    exact ⟨value_spelled condition next inScope, ⟨_, _, isPlaceName_value inScope next, rfl⟩,
      statement_spelled exit consequent placed, ⟨_, rfl⟩, ⟨_, rfl⟩,
      statement_spelled exit alternative placed', _, rfl⟩
  | empty .. | program .. | function .. | parameter .. | call .. | declaration .. | binary ..
  | unary .. | identifier .. | integer .. | real .. =>
    fun _ _ _ _ _ _ _ member => absurd member List.not_mem_nil
theorem statements_spelled {table : Table} {top : ScopeId} (exit : Label) : (nodes : List Node) →
    ∀ ⦃scope : ScopeId⦄ ⦃layout : Layout⦄ ⦃count next label : Nat⦄,
    ScopedAll table top scope layout count nodes →
    ∀ quad ∈ statementsCode exit scope next label nodes, quad.Spelled
  | [] => fun _ _ _ _ _ _ _ member => absurd member List.not_mem_nil
  | node :: nodes => by
    rintro scope layout count next label ⟨placed, placed'⟩
    rw [statementsCode, List.forall_mem_append]
    exact ⟨statement_spelled exit node placed, statements_spelled exit nodes placed'⟩
end

end Node

/-! ## Programs -/

section Compiled

variable {source source' : String} {options options' : Options}
  {compilation compilation' : Compilation}

theorem legible_of_compile (compiled : (compile source options).result = .ok compilation) :
    ∀ function ∈ compilation.code.functions, function.Legible := by
  obtain ⟨functions, state, lowered, _, named, _⟩ := lowered_of_compile compiled
  intro function member
  obtain ⟨orderly, _⟩ := lowered.orderly default member
  obtain ⟨parameters, body, top, next, label, isBody, has, _⟩ := lowered.exists_has member
  refine ⟨named function member, ?_, orderly.pushed⟩
  rw [isBody, Node.functionCode, List.forall_mem_append, List.forall_mem_singleton]
  exact ⟨Node.statement_spelled ⟨label⟩ body has.placed, _, rfl⟩

theorem map_eq_of_forall₂ {α β : Type} {f : α → β} {list list' : List α}
    (same : List.Forall₂ (fun a b => f a = f b) list list') : list.map f = list'.map f := by
  rw [← List.forall₂_eq_eq_eq, List.forall₂_map_left_iff, List.forall₂_map_right_iff]
  exact same

theorem FunctionCode.ReadsAs.lines_eq {function function' : FunctionCode}
    (readsAs : function.ReadsAs function') : function.lines = function'.lines := by
  obtain ⟨sameName, same⟩ := readsAs
  unfold FunctionCode.lines
  rw [sameName]
  refine congrArg (_ :: ·) (map_eq_of_forall₂ (same.imp fun quad quad' isSame => ?_))
  exact congrArg ("\t" ++ ·) (isSame.elim Quad.Alike.text_eq Quad.RunTogether.text_eq)

/-- The intermediate code of two accepted programs has the same text exactly if it has the same
functions with the same quadruples one by one: the same operations, operands and results, except
that of two operands of arithmetic which are names of the source and fill their columns only the
characters of both together are the same. -/
theorem code_text_eq_iff (compiled : (compile source options).result = .ok compilation)
    (compiled' : (compile source' options').result = .ok compilation') :
    compilation.code.text = compilation'.code.text ↔
      List.Forall₂ FunctionCode.ReadsAs compilation.code.functions
        compilation'.code.functions := by
  have legible := legible_of_compile compiled
  have legible' := legible_of_compile compiled'
  constructor
  · intro same
    refine readsAs_of_lines legible legible' ?_
    rw [← lines_text legible, same, lines_text legible']
  · intro same
    rw [Code.text_eq, Code.text_eq, List.flatMap_def, List.flatMap_def,
      map_eq_of_forall₂ (same.imp fun _ _ => FunctionCode.ReadsAs.lines_eq)]

theorem factorial_texts : ∃ compilation compilation',
    (compile factorialSource { level := 0 }).result = .ok compilation ∧
      (compile factorialSource { level := 1 }).result = .ok compilation' ∧
      List.Forall₂ FunctionCode.ReadsAs compilation.code.functions
        compilation'.code.functions := by
  have facts : (compile factorialSource { level := 0 }).result.toOption.any fun compilation =>
      (compile factorialSource { level := 1 }).result.toOption.any fun compilation' =>
        compilation.code.text == compilation'.code.text := by decide +kernel
  obtain ⟨compilation, compiled, facts⟩ := exists_ok_of_any facts
  obtain ⟨compilation', compiled', same⟩ := exists_ok_of_any facts
  exact ⟨compilation, compilation', compiled, compiled',
    (code_text_eq_iff compiled compiled').1 (eq_of_beq same)⟩

end Compiled

/-- A difference of two variables with long names. -/
def differenceSource : String :=
  "int main() \x7b int aaaaaaaaaa; int aaaaaaaaaaa; return aaaaaaaaaa - aaaaaaaaaaa; \x7d"

/-- The difference the other way round. -/
def turnedDifferenceSource : String :=
  "int main() \x7b int aaaaaaaaaa; int aaaaaaaaaaa; return aaaaaaaaaaa - aaaaaaaaaa; \x7d"

/-- One text may stand for two programs: operands that fill their columns run together. -/
theorem differences_run_together : ∃ compilation compilation',
    (compile differenceSource {}).result = .ok compilation ∧
      (compile turnedDifferenceSource {}).result = .ok compilation' ∧
      compilation.code.text = compilation'.code.text ∧
      ¬ List.Forall₂ (fun function function' : FunctionCode => function.name = function'.name ∧
          List.Forall₂ Quad.Alike function.body.toList function'.body.toList)
        compilation.code.functions compilation'.code.functions := by
  have facts : (compile differenceSource {}).result.toOption.any fun compilation =>
      (compile turnedDifferenceSource {}).result.toOption.any fun compilation' =>
        compilation.code.text == compilation'.code.text &&
        !((compilation.code.functions.map fun function => function.body.toList.map (·.operand1)) ==
          compilation'.code.functions.map fun function => function.body.toList.map (·.operand1)) := by
    decide +kernel
  obtain ⟨compilation, compiled, facts⟩ := exists_ok_of_any facts
  obtain ⟨compilation', compiled', facts⟩ := exists_ok_of_any facts
  obtain ⟨same, differs⟩ := Bool.and_eq_true_iff.1 facts
  refine ⟨compilation, compilation', compiled, compiled', eq_of_beq same, fun alike => ?_⟩
  refine ne_of_beq_false (Bool.not_eq_true' _ ▸ differs) (map_eq_of_forall₂ (alike.imp ?_))
  rintro function function' ⟨_, areAlike⟩
  refine map_eq_of_forall₂ (areAlike.imp fun quad quad' isAlike => ?_)
  have isAlike : { quad with scope := quad'.scope } = quad' := isAlike
  rw [← isAlike]

end MiniC
