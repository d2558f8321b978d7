import Mathlib.Data.List.DropRight
import MiniC.Proofs.Waiting

/-!
# Each temporary is read once, each argument is taken once

What waits on a stack along the code is here read off by places. A temporary that is created in code
which starts and ends with nothing waiting is read by exactly one quadruple, later on, and no mark,
jump or return comes in between: at these nothing would be left to wait. A push is part of the pushes
directly before one call, and of no other call.
-/

namespace MiniC

/-! ## Places -/

/-- If one quadruple of some code is so and no other is, it is so at just that place. -/
theorem found_iff {P : Quad → Prop} {before after : List Quad} {quad : Quad} (holds : P quad)
    (notBefore : ∀ other ∈ before, ¬ P other) (notAfter : ∀ other ∈ after, ¬ P other)
    (index : Nat) :
    (∃ other, (before ++ quad :: after)[index]? = some other ∧ P other) ↔
      index = before.length := by
  constructor
  · rintro ⟨other, found, holds'⟩
    rcases Nat.lt_trichotomy index before.length with lt | same | gt
    · rw [List.getElem?_append_left lt] at found
      exact absurd holds' (notBefore other (List.mem_of_getElem? found))
    · exact same
    · obtain ⟨more, rfl⟩ := Nat.exists_eq_add_of_lt gt
      rw [List.getElem?_append_right (by omega), Nat.add_assoc, Nat.add_sub_cancel_left,
        List.getElem?_cons_succ] at found
      exact absurd holds' (notAfter other (List.mem_of_getElem? found))
  · rintro rfl
    refine ⟨quad, ?_, holds⟩
    rw [List.getElem?_append_right (Nat.le_refl _), Nat.sub_self]
    rfl

/-! ## Temporaries -/

/-- The results that are temporaries, in the order of the code. -/
def temporaryResults (code : List Quad) : List String :=
  (code.filterMap (·.result.bind Operand.name?)).filter isTemporary

theorem Quad.result_of_written? {quad : Quad} {name : String} (written : quad.written? = some name) :
    quad.result = some (.name name) := by
  have named : quad.result.bind Operand.name? = some name := by
    unfold Quad.written? at written
    split at written <;> first | exact written | cases written
  obtain ⟨operand, found, isName⟩ := Option.bind_eq_some_iff.1 named
  rw [found, Operand.name?_eq_some isName]

/-- What is supplied by some code was written there. -/
theorem mem_suppliedBy {names : List (ScopeId × String)} {code : List Quad} {scope : ScopeId}
    {name : String} (member : (scope, name) ∈ suppliedBy names code) :
    (scope, name) ∈ names ∨ ∃ quad ∈ code, quad.scope = scope ∧ quad.written? = some name := by
  induction code generalizing names with
  | nil => exact .inl member
  | cons quad code ih =>
    rcases ih member with here | ⟨other, later, facts⟩
    · unfold Quad.supplies at here
      split at here
      · cases here
      · rcases List.mem_append.1 here with new | before
        · obtain ⟨name', written, same⟩ := Option.map_eq_some_iff.1 (Option.mem_toList.1 new)
          cases same
          exact .inr ⟨quad, List.mem_cons_self, rfl, written⟩
        · exact .inl before
    · exact .inr ⟨other, List.mem_cons_of_mem _ later, facts⟩

/-- The quadruple at `written` alone has the name as its result, the one at `read` behind it alone
reads it, and no mark, jump or return is strictly between the two. -/
structure UsedOnce (code : List Quad) (name : String) (written read : Nat) : Prop where
  lt : written < read
  written_iff : ∀ index, (∃ quad, code[index]? = some quad ∧ quad.result = some (.name name)) ↔
    index = written
  read_iff : ∀ index, (∃ quad, code[index]? = some quad ∧ name ∈ quad.reads) ↔ index = read
  straight : ∀ index, written < index → index < read → ∀ quad, code[index]? = some quad →
    quad.op.isControl = false

namespace Stacked

variable {waiting left : List String} {code : List Quad} {name : String}

/-- Code can be cut at any place. -/
theorem cut {first second : List Quad} (stacked : Stacked waiting (first ++ second) left) :
    ∃ middle, Stacked waiting first middle ∧ Stacked middle second left := by
  induction first generalizing waiting with
  | nil => exact ⟨waiting, rfl, stacked⟩
  | cons quad first ih =>
    obtain ⟨below, split, alone, ofSource, rest⟩ := stacked
    obtain ⟨middle, rest, last⟩ := ih rest
    exact ⟨middle, ⟨below, split, alone, ofSource, rest⟩, last⟩

/-- A temporary that is a result is created there. -/
theorem created?_of_result (stacked : Stacked waiting code left) {quad : Quad}
    (member : quad ∈ code) (isResult : quad.result = some (.name name))
    (temporary : isTemporary name) : quad.created? = some name := by
  induction code generalizing waiting with
  | nil => exact absurd member List.not_mem_nil
  | cons first code ih =>
    obtain ⟨below, _, _, ofSource, rest⟩ := stacked
    rcases List.mem_cons.1 member with rfl | later
    · unfold Quad.created?
      split
      · next isAssign => exact absurd temporary (ofSource isAssign name isResult)
      · rw [isResult]
        rfl
    · exact ih rest later

theorem temporaryResults_eq (stacked : Stacked waiting code left) :
    temporaryResults code = (created code).filter isTemporary := by
  unfold temporaryResults created
  induction code generalizing waiting with
  | nil => rfl
  | cons quad code ih =>
    have same : (quad.result.bind Operand.name?).toList.filter isTemporary =
        quad.created?.toList.filter isTemporary := by
      cases named : quad.result.bind Operand.name? with
      | none =>
        unfold Quad.created?
        split <;> simp [named]
      | some name =>
        obtain ⟨operand, found, isName⟩ := Option.bind_eq_some_iff.1 named
        cases Operand.name?_eq_some isName
        by_cases temporary : isTemporary name
        · rw [stacked.created?_of_result List.mem_cons_self found temporary]
        · unfold Quad.created?
          split <;> simp [named, temporary]
    obtain ⟨below, _, _, _, rest⟩ := stacked
    have split (f : Quad → Option String) :
        (quad :: code).filterMap f = (f quad).toList ++ code.filterMap f := by
      rw [List.filterMap_cons]
      cases f quad <;> rfl
    rw [split, split, List.filter_append, List.filter_append, same, ih rest]

/-- A name that does not wait and is not created is not read. -/
theorem unused (stacked : Stacked waiting code left) (temporary : isTemporary name)
    (notWaiting : name ∉ waiting) (notCreated : name ∉ created code) :
    (∀ quad ∈ code, name ∉ quad.reads) ∧ name ∉ left := by
  induction code generalizing waiting with
  | nil =>
    obtain rfl : waiting = left := stacked
    exact ⟨fun _ member => absurd member List.not_mem_nil, notWaiting⟩
  | cons quad code ih =>
    obtain ⟨below, rfl, _, _, rest⟩ := stacked
    rw [created_cons, List.mem_append, not_or] at notCreated
    rw [List.mem_append, not_or] at notWaiting
    obtain ⟨noneRead, notLeft⟩ := ih rest
      (fun member => (List.mem_append.1 member).elim notWaiting.1 notCreated.1) notCreated.2
    refine ⟨List.forall_mem_cons.2 ⟨fun read => notWaiting.2 ?_, noneRead⟩, notLeft⟩
    exact List.mem_filter.2 ⟨read, temporary⟩

/-- A temporary that waits is read by exactly one quadruple, and the code before that is straight. -/
theorem read_once (stacked : Stacked waiting code []) (temporary : isTemporary name)
    (waits : waiting.count name = 1) (notCreated : name ∉ created code) :
    ∃ before quad after, code = before ++ quad :: after ∧ name ∈ quad.reads ∧ Straight before ∧
      (∀ other ∈ before, name ∉ other.reads) ∧ ∀ other ∈ after, name ∉ other.reads := by
  induction code generalizing waiting with
  | nil =>
    obtain rfl : waiting = [] := stacked
    cases waits
  | cons quad code ih =>
    obtain ⟨below, rfl, alone, _, rest⟩ := stacked
    rw [created_cons, List.mem_append, not_or] at notCreated
    have noCount := List.count_eq_zero.2 notCreated.1
    rw [List.count_append] at waits
    by_cases read : name ∈ quad.reads
    · have taken : name ∈ quad.takes := List.mem_filter.2 ⟨read, temporary⟩
      have notBelow : name ∉ below := by
        have positive := List.count_pos_iff.2 taken
        exact List.count_eq_zero.1 (by omega)
      refine ⟨[], quad, code, rfl, read, straight_nil, fun _ member => absurd member List.not_mem_nil,
        (rest.unused temporary ?_ notCreated.2).1⟩
      exact fun member => (List.mem_append.1 member).elim notBelow notCreated.1
    · have notTaken : quad.takes.count name = 0 :=
        List.count_eq_zero.2 fun taken => read (List.mem_filter.1 taken).1
      have noControl : quad.op.isControl = false := by
        refine Bool.eq_false_iff.2 fun isControl => ?_
        rw [alone isControl, notTaken] at waits
        cases waits
      obtain ⟨before, reader, after, rfl, isRead, straight, notBefore, notAfter⟩ :=
        ih rest (by rw [List.count_append]; omega) notCreated.2
      exact ⟨quad :: before, reader, after, rfl, isRead, List.forall_mem_cons.2 ⟨noControl, straight⟩,
        List.forall_mem_cons.2 ⟨read, notBefore⟩, notAfter⟩

/-- A temporary is used once if it is created once. -/
theorem usedOnce (stacked : Stacked [] code []) (distinct : (created code).Nodup)
    (temporary : isTemporary name) (member : name ∈ created code) :
    ∃ written read, UsedOnce code name written read := by
  obtain ⟨writer, inCode, creates⟩ := List.mem_filterMap.1 member
  obtain ⟨before, after, rfl⟩ := List.append_of_mem inCode
  rw [created_append, created_cons, creates] at distinct
  obtain ⟨_, distinct', apart⟩ := List.nodup_append.1 distinct
  have notBefore : name ∉ created before := fun early =>
    apart name early name List.mem_cons_self rfl
  have notAfter : name ∉ created after := (List.nodup_cons.1 distinct').1
  obtain ⟨middle, first, below, rfl, _, _, rest⟩ := stacked.cut
  obtain ⟨noneRead, notMiddle⟩ := first.unused temporary List.not_mem_nil notBefore
  rw [List.mem_append, not_or] at notMiddle
  rw [creates] at rest
  obtain ⟨between, reader, after, rfl, read, straight, notBetween, notLater⟩ :=
    rest.read_once temporary (by
      rw [List.count_append, List.count_eq_zero.2 notMiddle.1, Nat.zero_add]
      exact List.count_singleton_self) notAfter
  have isResult : writer.result = some (.name name) := by
    unfold Quad.created? at creates
    split at creates
    · cases creates
    · obtain ⟨operand, found, isName⟩ := Option.bind_eq_some_iff.1 creates
      rw [found, Operand.name?_eq_some isName]
  refine ⟨before.length, before.length + 1 + between.length, ?_, ?_, ?_, ?_⟩
  · omega
  · refine found_iff isResult ?_ ?_
    · intro other isOther isResult'
      exact notBefore (List.mem_filterMap.2
        ⟨other, isOther, first.created?_of_result isOther isResult' temporary⟩)
    · intro other isOther isResult'
      exact notAfter (List.mem_filterMap.2
        ⟨other, isOther, rest.created?_of_result isOther isResult' temporary⟩)
  · have unread : name ∉ writer.reads := fun isRead =>
      notMiddle.2 (List.mem_filter.2 ⟨isRead, temporary⟩)
    have split : before ++ writer :: (between ++ reader :: after) =
        (before ++ writer :: between) ++ reader :: after := by
      rw [List.append_assoc]
      rfl
    have size : (before ++ writer :: between).length = before.length + 1 + between.length := by
      rw [List.length_append, List.length_cons]
      omega
    rw [split, ← size]
    refine found_iff read ?_ notLater
    exact List.forall_mem_append.2 ⟨noneRead, List.forall_mem_cons.2 ⟨unread, notBetween⟩⟩
  · intro index gt lt quad found
    obtain ⟨more, rfl⟩ := Nat.exists_eq_add_of_lt gt
    rw [List.getElem?_append_right (by omega), Nat.add_assoc, Nat.add_sub_cancel_left,
      List.getElem?_cons_succ, List.getElem?_append_left (by omega)] at found
    exact straight quad (List.mem_of_getElem? found)

end Stacked

namespace UsedOnce

variable {code : List Quad} {name : String} {written read : Nat} {writer reader : Quad}

theorem result (used : UsedOnce code name written read) (isWriter : code[written]? = some writer) :
    writer.result = some (.name name) := by
  obtain ⟨quad, found, isResult⟩ := (used.written_iff written).2 rfl
  rw [isWriter] at found
  cases found
  exact isResult

theorem reads (used : UsedOnce code name written read) (isReader : code[read]? = some reader) :
    name ∈ reader.reads := by
  obtain ⟨quad, found, isRead⟩ := (used.read_iff read).2 rfl
  rw [isReader] at found
  cases found
  exact isRead

/-- A temporary is written and read in the same scope. -/
theorem scope_eq (used : UsedOnce code name written read) (supplied : Supplied [] code)
    (temporary : isTemporary name) (isWriter : code[written]? = some writer)
    (isReader : code[read]? = some reader) : writer.scope = reader.scope := by
  rcases mem_suppliedBy (supplied.reads isReader (used.reads isReader) temporary) with
    none | ⟨quad, member, isScope, isWritten⟩
  · cases none
  · obtain ⟨index, found⟩ := List.mem_iff_getElem?.1 (List.mem_of_mem_take member)
    obtain rfl := (used.written_iff index).1 ⟨quad, found, Quad.result_of_written? isWritten⟩
    rw [isWriter] at found
    cases found
    exact isScope

end UsedOnce

/-! ## Pushes -/

/-- The pushes that stand directly before a place. -/
def pushesBefore (code : List Quad) (index : Nat) : List Quad :=
  (code.take index).rtakeWhile (·.op = .param)

/-- The push is one of those that the call takes. -/
def TakenBy (code : List Quad) (push call : Nat) : Prop :=
  ∃ quad count, code[call]? = some quad ∧ quad.op = .call ∧ quad.operand2 = some (.count count) ∧
    push < call ∧ call ≤ push + count

section Pushes

variable {code : List Quad} {index : Nat} {quad : Quad}

theorem take_next (found : code[index]? = some quad) :
    code.take (index + 1) = code.take index ++ [quad] := by
  rw [List.take_add_one, found]
  rfl

theorem pushesBefore_param (found : code[index]? = some quad) (isParam : quad.op = .param) :
    pushesBefore code (index + 1) = pushesBefore code index ++ [quad] := by
  unfold pushesBefore
  rw [take_next found, List.rtakeWhile_concat, if_pos (decide_eq_true isParam)]

theorem pushesBefore_other (found : code[index]? = some quad) (noPush : quad.op ≠ .param) :
    pushesBefore code (index + 1) = [] := by
  unfold pushesBefore
  rw [take_next found, List.rtakeWhile_concat, if_neg (by simpa using noPush)]

/-- All quadruples of a run of pushes are pushes. -/
theorem op_of_pushesBefore {place : Nat} (lt : place < index)
    (le : index ≤ place + (pushesBefore code index).length) (found : code[place]? = some quad) :
    quad.op = .param := by
  induction index with
  | zero => exact absurd lt (Nat.not_lt_zero _)
  | succ index ih =>
    cases found' : code[index]? with
    | none =>
      have outside := List.getElem?_eq_none_iff.1 found'
      have inside := (List.getElem?_eq_some_iff.1 found).1
      refine ih (by omega) ?_
      unfold pushesBefore at le ⊢
      rw [List.take_of_length_le (by omega)] at le ⊢
      omega
    | some last =>
      by_cases isParam : last.op = .param
      · rcases Nat.lt_succ_iff_lt_or_eq.1 lt with earlier | rfl
        · rw [pushesBefore_param found' isParam, List.length_append, List.length_singleton] at le
          exact ih earlier (by omega)
        · rw [found] at found'
          cases found'
          exact isParam
      · rw [pushesBefore_other found' isParam, List.length_nil] at le
        omega

namespace Pushed

/-- At every place, what was pushed and not yet taken stands directly before it. -/
theorem drop (pushed : Pushed 0 code) (index : Nat) :
    Pushed (pushesBefore code index).length (code.drop index) := by
  induction index with
  | zero => exact pushed
  | succ index ih =>
    cases found : code[index]? with
    | none =>
      have outside := List.getElem?_eq_none_iff.1 found
      unfold pushesBefore at ih ⊢
      rw [List.drop_of_length_le (by omega)] at ih ⊢
      rw [List.take_of_length_le (by omega)] at ih ⊢
      exact ih
    | some quad =>
      rw [List.drop_eq_getElem?_toList_append, found] at ih
      change Pushed _ (quad :: code.drop (index + 1)) at ih
      by_cases isParam : quad.op = .param
      · rw [pushesBefore_param found isParam, List.length_append]
        exact (pushed_param isParam).1 ih
      rw [pushesBefore_other found isParam]
      by_cases isCall : quad.op = .call
      · exact ((pushed_call isCall).1 ih).2
      · exact ((pushed_other isParam isCall).1 ih).2

theorem at_place (pushed : Pushed 0 code) (found : code[index]? = some quad) :
    Pushed (pushesBefore code index).length (quad :: code.drop (index + 1)) := by
  have rest := pushed.drop index
  rwa [List.drop_eq_getElem?_toList_append, found] at rest

/-- A call takes as many arguments as there are pushes directly before it. -/
theorem counted (pushed : Pushed 0 code) (found : code[index]? = some quad)
    (isCall : quad.op = .call) :
    quad.operand2 = some (.count (pushesBefore code index).length) :=
  ((pushed_call isCall).1 (pushed.at_place found)).1

/-- There are no pushes directly before what is neither a push nor a call. -/
theorem pushesBefore_eq (pushed : Pushed 0 code) (found : code[index]? = some quad)
    (noPush : quad.op ≠ .param) (noCall : quad.op ≠ .call) : pushesBefore code index = [] :=
  List.eq_nil_of_length_eq_zero ((pushed_other noPush noCall).1 (pushed.at_place found)).1

/-- Behind waiting arguments there are further pushes, if any, and then a call. -/
theorem exists_call {count : Nat} (pushed : Pushed (count + 1) code) :
    ∃ (more : Nat) (quad : Quad), code[more]? = some quad ∧ quad.op = .call ∧
      quad.operand2 = some (.count (count + 1 + more)) := by
  induction code generalizing count with
  | nil => cases pushed
  | cons quad code ih =>
    by_cases isParam : quad.op = .param
    · obtain ⟨more, call, found, isCall, counted⟩ := ih ((pushed_param isParam).1 pushed)
      exact ⟨more + 1, call, found, isCall, by rw [counted, Nat.add_right_comm _ 1 more]; rfl⟩
    by_cases isCall : quad.op = .call
    · exact ⟨0, quad, rfl, isCall, ((pushed_call isCall).1 pushed).1⟩
    · cases ((pushed_other isParam isCall).1 pushed).1

/-- Every push is taken by exactly one call. -/
theorem existsUnique_takenBy (pushed : Pushed 0 code) (found : code[index]? = some quad)
    (isParam : quad.op = .param) : ∃! call, TakenBy code index call := by
  have rest := (pushed_param isParam).1 (pushed.at_place found)
  obtain ⟨more, call, found', isCall, counted⟩ := rest.exists_call
  rw [List.getElem?_drop] at found'
  refine ⟨index + 1 + more, ⟨call, _, found', isCall, counted, by omega, by omega⟩, ?_⟩
  -- Of two calls that took the same push, one would stand among the pushes of the other.
  have apart {first second : Nat} (taken : TakenBy code index first)
      (taken' : TakenBy code index second) : ¬ first < second := by
    obtain ⟨quad, _, found, isCall, _, lt, _⟩ := taken
    obtain ⟨quad', count, found', isCall', counted', lt', le'⟩ := taken'
    intro less
    rw [pushed.counted found' isCall'] at counted'
    cases counted'
    have isParam := op_of_pushesBefore less (by omega) found
    rw [isCall] at isParam
    cases isParam
  intro other taken
  have taken' : TakenBy code index (index + 1 + more) :=
    ⟨call, _, found', isCall, counted, by omega, by omega⟩
  have := apart taken taken'
  have := apart taken' taken
  omega

end Pushed
end Pushes
end MiniC
