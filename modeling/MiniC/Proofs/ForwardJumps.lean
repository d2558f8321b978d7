import MiniC.Proofs.Counters

/-!
# Jumps go forward

Whatever tree is lowered, and in whatever table: if there is code, its labels are numbered without
gaps, every one of them is marked once, and every jump leads to a mark behind it in the same
function. A function ends with the mark of its exit, and its returns leave by that.
-/

namespace MiniC

open Lower

/-! ## Functions -/

theorem exists_of_mem_marks {code : List Quad} {label : Label} (member : label ∈ marks code) :
    ∃ (index : Nat) (quad : Quad), code[index]? = some quad ∧ quad.marked? = some label := by
  obtain ⟨quad, inCode, marked⟩ := List.mem_filterMap.1 member
  obtain ⟨index, found⟩ := List.mem_iff_getElem?.1 inCode
  exact ⟨index, quad, found, marked⟩

theorem Forward.leavesFor {exit : Label} {code : List Quad} (forward : Forward exit code)
    {index : Nat} {quad : Quad} (found : code[index]? = some quad) :
    quad.LeavesFor exit (marks (code.drop (index + 1))) := by
  induction code generalizing index with
  | nil => cases found
  | cons other code ih =>
    cases index with
    | zero =>
      cases found
      exact forward.1
    | succ index => exact ih forward.2 found

namespace FunctionCode

/-- Every jump of the function leads to a mark behind it. The function ends with the mark of its
exit, and every return leaves by that. -/
structure ForwardOnly (function : FunctionCode) : Prop where
  jumps : ∀ {index : Nat} {quad : Quad}, function.body[index]? = some quad →
    quad.op = .jump ∨ quad.op = .jumpIfNot ∨ quad.op = .ret →
    ∃ (label : Label) (later : Nat) (mark : Quad), quad.target? = some label ∧ index < later ∧
      function.body[later]? = some mark ∧ mark.marked? = some label
  exits : ∃ exit scope, function.body.back? = some (.mark exit scope) ∧
    ∀ quad ∈ function.body, quad.op = .ret → quad.target? = some exit

/-- The labels of the function have the numbers from `first` up to `last`, the exit being the
first. -/
def Numbered (function : FunctionCode) (first last : Nat) : Prop :=
  ∃ code scope, function.body.toList = code ++ [.mark ⟨first⟩ scope] ∧
    MiniC.Numbered ⟨first⟩ (first + 1) last code

variable {function : FunctionCode} {first last : Nat}

theorem Numbered.lt (numbered : function.Numbered first last) : first < last := by
  obtain ⟨_, _, _, inner⟩ := numbered
  exact inner.le

theorem Numbered.marked (numbered : function.Numbered first last) :
    (marks function.body.toList).Perm (labelsFrom first last) := by
  have lt := numbered.lt
  obtain ⟨code, scope, isBody, inner⟩ := numbered
  rw [isBody, marks_append, labelsFrom_succ lt]
  exact List.perm_append_comm.trans (inner.marked.cons _)

theorem Numbered.forwardOnly (numbered : function.Numbered first last) :
    function.ForwardOnly := by
  obtain ⟨code, scope, isBody, inner⟩ := numbered
  have leaves {index : Nat} {quad : Quad} (found : function.body[index]? = some quad) :
      quad.LeavesFor ⟨first⟩ (marks (function.body.toList.drop (index + 1))) := by
    have forward : Forward ⟨first⟩ function.body.toList := by
      rw [isBody]
      exact inner.forward.append ⟨trivial, trivial⟩
    exact forward.leavesFor (by rwa [Array.getElem?_toList])
  have later {index : Nat} {label : Label}
      (member : label ∈ marks (function.body.toList.drop (index + 1))) :
      ∃ (later : Nat) (mark : Quad), index < later ∧ function.body[later]? = some mark ∧
        mark.marked? = some label := by
    obtain ⟨offset, mark, found, marked⟩ := exists_of_mem_marks member
    rw [List.getElem?_drop, Array.getElem?_toList] at found
    exact ⟨index + 1 + offset, mark, by omega, found, marked⟩
  constructor
  case jumps =>
    intro index quad found isJump
    have leaves := leaves found
    unfold Quad.LeavesFor at leaves
    rcases isJump with isOp | isOp | isOp
    · rw [isOp] at leaves
      obtain ⟨label, member, named⟩ := leaves
      obtain ⟨later, mark, lt, found', marked⟩ := later member
      exact ⟨label, later, mark, named, lt, found', marked⟩
    · rw [isOp] at leaves
      obtain ⟨label, member, named⟩ := leaves
      obtain ⟨later, mark, lt, found', marked⟩ := later member
      exact ⟨label, later, mark, named, lt, found', marked⟩
    · rw [isOp] at leaves
      -- The exit is the last quadruple, and a return is not.
      rw [← Array.getElem?_toList, isBody] at found
      have lt : index < code.length := by
        by_contra notInside
        rw [List.getElem?_append_right (by omega)] at found
        obtain rfl := List.mem_singleton.1 (List.mem_of_getElem? found)
        cases isOp
      refine ⟨⟨first⟩, code.length, .mark ⟨first⟩ scope, leaves, lt, ?_, rfl⟩
      rw [← Array.getElem?_toList, isBody, List.getElem?_concat_length]
  case exits =>
    refine ⟨⟨first⟩, scope, ?_, ?_⟩
    · rw [← Array.getLast?_toList, isBody, List.getLast?_concat]
    · intro quad member isRet
      obtain ⟨index, found⟩ := Array.mem_iff_getElem?.1 member
      have leaves := leaves found
      unfold Quad.LeavesFor at leaves
      rwa [isRet] at leaves

end FunctionCode

/-! ## Programs -/

namespace Node

/-- The exit of a function takes the first of its labels. -/
theorem numbered_of_lowerFunction {node : Node} {state after : Lowering} {code : FunctionCode}
    (lowered : node.lowerFunction state = .ok code after) :
    code.Numbered state.labels after.labels := by
  obtain ⟨_, _, _, _, _, top, inner, _, _, _, isBody, emitted⟩ := lowerFunction_eq_ok lowered
  exact ⟨inner, top, isBody, emitted.numbered⟩

/-- Functions share one numbering of labels. -/
theorem LowersAll.numbered {nodes : List Node} {before after : Lowering}
    {codes : List FunctionCode} (lowered : LowersAll nodes before codes after) :
    before.labels ≤ after.labels ∧
    (codes.flatMap fun code => marks code.body.toList).Perm
      (labelsFrom before.labels after.labels) ∧
    ∀ code ∈ codes, ∃ first last, code.Numbered first last := by
  induction lowered with
  | nil state =>
    refine ⟨Nat.le_refl _, ?_, fun _ member => absurd member List.not_mem_nil⟩
    rw [labelsFrom_self]
    exact .nil
  | cons first _ ih =>
    have numbered := numbered_of_lowerFunction first
    obtain ⟨le, marked, allNumbered⟩ := ih
    refine ⟨Nat.le_trans (Nat.le_of_lt numbered.lt) le, ?_,
      List.forall_mem_cons.2 ⟨⟨_, _, numbered⟩, allNumbered⟩⟩
    rw [List.flatMap_cons, ← labelsFrom_append (Nat.le_of_lt numbered.lt) le]
    exact numbered.marked.append marked

/-- The labels of a program are numbered from zero on and marked once each. -/
theorem numbered_of_lower {node : Node} {table : Table} {code : Code}
    (lowered : (node.lower table).2.result = .ok code) :
    (∃ count, code.labels.Perm (labelsFrom 0 count)) ∧
    ∀ function ∈ code.functions, ∃ first last, function.Numbered first last := by
  obtain ⟨_, functions, after, _, all, _⟩ := lowersAll_of_lower lowered
  obtain ⟨_, marked, numbered⟩ := all.numbered
  exact ⟨⟨_, marked⟩, numbered⟩

end Node
end MiniC
