import Mathlib.Logic.Relation
import MiniC.Proofs.Termination
import MiniC.Proofs.Uses

/-!
# What an activation finds

An activation goes from state to state by turns, and in a turn with a call any value may come back.
In code that uses temporaries and arguments in order, wherever the activation has come to: as many
arguments are pushed as there are pushes directly before the next quadruple; and behind the
quadruple that creates a temporary, up to the one that reads it, the place of the temporary has the
value that was stored there on the way. Jumps lead to marks, so none leads between the two, and what
is stored in between is stored elsewhere.
-/

namespace MiniC

/-! ## Storing and fetching -/

theorem Activation.read?_of_write? {frame after : Activation} {value : Int32} {slot : Slot}
    (written : frame.write? value slot = some after) (other : Slot) :
    after.read? other = if other = slot then some value else frame.read? other := by
  cases slot with
  | parameter index =>
    obtain ⟨lt, last⟩ := Option.ite_none_right_eq_some.1 written
    cases last
    cases other with
    | parameter index' =>
      simp only [read?, Array.getElem?_setIfInBounds, Slot.parameter.injEq, eq_comm, lt]
      split <;> simp_all
    | localVariable index' => rfl
  | localVariable index =>
    obtain ⟨lt, last⟩ := Option.ite_none_right_eq_some.1 written
    cases last
    cases other with
    | parameter index' => rfl
    | localVariable index' =>
      simp only [read?, Array.getElem?_setIfInBounds, Slot.localVariable.injEq, eq_comm, lt]
      split <;> simp_all

namespace Quad

variable {table : Table} {quad : Quad} {field : Field} {frame after : Activation} {value : Int32}
  {slot : Slot} {name : String}

theorem store_eq_ok : quad.store table frame field value = .ok after ↔
    ∃ name slot, quad.field? field = some (.name name) ∧ quad.locate table name = .ok slot ∧
      frame.write? value slot = some after := by
  unfold store
  simp only [bind_eq_ok, name_eq_ok]
  refine exists_congr fun name => ?_
  rw [← exists_and_left]
  refine exists_congr fun slot => and_congr_right fun _ => and_congr_right fun _ => ?_
  split
  · next found =>
    rw [found, Option.some.injEq]
    exact ⟨Except.ok.inj, congrArg Except.ok⟩
  · next missing =>
    rw [missing]
    exact ⟨nofun, nofun⟩

theorem fetch_of_read? (named : quad.field? field = some (.name name))
    (located : quad.locate table name = .ok slot) (found : frame.read? slot = some value) :
    quad.fetch table frame field = .ok value := by
  unfold fetch
  rw [name_eq_ok.2 named, ok_bind, located, ok_bind, found]
  rfl

theorem slotAt_of_locate (located : quad.locate table name = .ok slot) :
    table.slotAt quad.scope name = some slot := by
  unfold locate at located
  unfold Table.slotAt
  split at located
  · cases located
  · next symbol found =>
    split at located
    · next isSlot =>
      cases located
      rw [found]
      exact isSlot
    · cases located

theorem written?_of_targetField? (isJump : quad.op.targetField? = some field) :
    quad.written? = none := by
  unfold written?
  cases isOp : quad.op with
  | param | ret | label | jump | jumpIfNot => rfl
  | _ =>
    rw [isOp] at isJump
    cases isJump

end Quad

/-! ## Turns of an activation -/

namespace Routine

/-- A turn, in which a call may return any value. -/
inductive Turn (routine : Routine) (table : Table) (p : Progress) : Progress → Prop
  | proceeded {q : Progress} {quad : Quad} (found : routine.body[p.pc]? = some quad)
      (stepped : routine.step table { p with pc := p.pc + 1 } quad = .ok (.proceed q)) :
      Turn routine table p q
  | returned {q r : Progress} {quad : Quad} {callee : String} {arguments : List Int32}
      {value : Int32} (found : routine.body[p.pc]? = some quad)
      (stepped : routine.step table { p with pc := p.pc + 1 } quad =
        .ok (.call callee arguments q))
      (received : receive table q quad value = .ok r) : Turn routine table p r

/-- A run with a quadruple before it fails there, or goes on behind a turn. -/
theorem result_run {routine : Routine} {table : Table} {p : Progress} {quad : Quad} {limit steps : Nat}
    {callee : String → List Int32 → Traced Int32} (found : routine.body[p.pc]? = some quad) :
    (∃ error, (routine.run table limit callee (steps + 1) p).result = .error error) ∨
    ∃ q, routine.Turn table p q ∧ (routine.run table limit callee (steps + 1) p).result =
      (routine.run table limit callee steps q).result := by
  cases stepped : routine.step table { p with pc := p.pc + 1 } quad with
  | error error =>
    rw [run_of_quad found, stepped]
    exact .inl ⟨error, rfl⟩
  | ok action =>
    cases action with
    | proceed q =>
      rw [run_of_quad found, stepped]
      exact .inr ⟨q, .proceeded found stepped, rfl⟩
    | call function arguments q =>
      cases answer : (callee function arguments).result with
      | error error =>
        rw [run_of_quad found, stepped]
        simp only [Traced.result_bind, Traced.result_report, ok_bind, answer, error_bind]
        exact .inl ⟨error, rfl⟩
      | ok value =>
        rw [run_of_answer found stepped answer]
        cases received : receive table q quad value with
        | error error =>
          simp only [Traced.result_bind, Traced.result_report, ok_bind, answer,
            Traced.result_ofExcept, error_bind]
          exact .inl ⟨error, rfl⟩
        | ok r =>
          simp only [Traced.result_bind, Traced.result_report, ok_bind, answer,
            Traced.result_ofExcept]
          exact .inr ⟨r, .returned found stepped received, rfl⟩

/-- The activation may come from one state to the other. -/
def Comes (routine : Routine) (table : Table) : Progress → Progress → Prop :=
  Relation.ReflTransGen (routine.Turn table)

/-- What a turn changes: a value is stored, or pushed, or there is a jump, or nothing happens. -/
inductive Moves (routine : Routine) (table : Table) (p : Progress) (quad : Quad) : Progress → Prop
  | stores {value accumulator : Int32} {frame : Activation} {count : Nat}
      (isStoring : quad.op.computes ∧ count = 0 ∨
        quad.op = .call ∧ quad.operand2 = some (.count count))
      (stored : quad.store table p.frame .result value = .ok frame) :
      Moves routine table p quad ⟨p.pc + 1, accumulator, p.pushed.drop count, frame⟩
  | pushes {value : Int32} (isParam : quad.op = .param) :
      Moves routine table p quad ⟨p.pc + 1, p.accumulator, value :: p.pushed, p.frame⟩
  | jumps {field : Field} {pc : Nat} {accumulator : Int32}
      (isJump : quad.op.targetField? = some field) (found : routine.target quad field = .ok pc) :
      Moves routine table p quad ⟨pc, accumulator, p.pushed, p.frame⟩
  | passes (isPassed : quad.op = .label ∨ quad.op = .jumpIfNot) :
      Moves routine table p quad ⟨p.pc + 1, p.accumulator, p.pushed, p.frame⟩

variable {routine : Routine} {table : Table} {start p q : Progress} {quad : Quad}

theorem moves_of_turn (turn : routine.Turn table p q) :
    ∃ quad, routine.body[p.pc]? = some quad ∧ routine.Moves table p quad q := by
  cases turn with
  | @proceeded _ quad found stepped =>
    refine ⟨quad, found, ?_⟩
    cases does_of_step stepped with
    | stores computes stored => exact .stores (.inl ⟨computes, rfl⟩) stored
    | pushes isParam => exact .pushes isParam
    | jumps isJump reached => exact .jumps isJump reached
    | passes isPassed => exact .passes isPassed
  | @returned _ _ quad callee arguments value found stepped received =>
    refine ⟨quad, found, ?_⟩
    cases does_of_step stepped with
    | calls isCall _ counted _ =>
      obtain ⟨frame, stored, rfl⟩ := receive_eq_ok.1 received
      exact .stores (.inr ⟨isCall, Quad.count_eq_ok.1 counted⟩) stored

/-- What is known of a routine whose labels are those of its body: only what computes or calls has a
result, and results with different names have different places. -/
structure Arranged (routine : Routine) (table : Table) : Prop where
  collected : labelTargets 0 routine.body.toList = .ok routine.targets
  results : ∀ quad ∈ routine.body.toList, ∀ name, quad.result = some (.name name) →
    quad.written? = some name
  apart : ∀ quad ∈ routine.body.toList, ∀ quad' ∈ routine.body.toList, ∀ name name' slot,
    quad.result = some (.name name) → quad'.result = some (.name name') →
    quad.locate table name = .ok slot → quad'.locate table name' = .ok slot → name = name'

namespace Arranged

variable (arranged : routine.Arranged table)
include arranged

/-- A jump leads to a mark. -/
theorem op_of_target {field : Field} {pc : Nat} (reached : routine.target quad field = .ok pc) :
    ∃ mark, routine.body.toList[pc]? = some mark ∧ mark.op = .label := by
  obtain ⟨label, _, placed⟩ := target_eq_ok.1 reached
  obtain ⟨index, mark, rfl, found, marked⟩ := marked_of_lastTarget? arranged.collected placed
  rw [Nat.zero_add]
  exact ⟨mark, found, Quad.op_of_marked marked⟩

/-! ## Pushed arguments -/

/-- A turn keeps as many arguments pushed as there are pushes directly before the next quadruple. -/
theorem pushed_of_turn (ordered : Pushed 0 routine.body.toList) (turn : routine.Turn table p q)
    (before : p.pushed.length = (pushesBefore routine.body.toList p.pc).length) :
    q.pushed.length = (pushesBefore routine.body.toList q.pc).length := by
  obtain ⟨quad, found, moves⟩ := moves_of_turn turn
  rw [← Array.getElem?_toList] at found
  have nothing (noPush : quad.op ≠ .param) (noCall : quad.op ≠ .call) : p.pushed = [] := by
    rw [ordered.pushesBefore_eq found noPush noCall] at before
    exact List.eq_nil_of_length_eq_zero before
  cases moves with
  | @stores _ _ _ count isStoring _ =>
    rcases isStoring with ⟨computes, rfl⟩ | ⟨isCall, counted⟩
    · have noPush : quad.op ≠ .param := fun isParam => by simp [isParam, Opcode.computes] at computes
      have noCall : quad.op ≠ .call := fun isCall => by simp [isCall, Opcode.computes] at computes
      rw [pushesBefore_other found noPush, nothing noPush noCall]
      rfl
    · rw [ordered.counted found isCall] at counted
      cases counted
      rw [pushesBefore_other found (by rw [isCall]; nofun), ← before, List.drop_length]
      rfl
  | pushes isParam =>
    rw [pushesBefore_param found isParam, List.length_append, ← before]
    rfl
  | jumps isJump reached =>
    have noPush : quad.op ≠ .param := fun isParam => by simp [isParam, Opcode.targetField?] at isJump
    have noCall : quad.op ≠ .call := fun isCall => by simp [isCall, Opcode.targetField?] at isJump
    obtain ⟨mark, found', isLabel⟩ := arranged.op_of_target reached
    rw [ordered.pushesBefore_eq found' (by rw [isLabel]; nofun) (by rw [isLabel]; nofun),
      nothing noPush noCall]
    rfl
  | passes isPassed =>
    have noPush : quad.op ≠ .param := by rcases isPassed with isOp | isOp <;> rw [isOp] <;> nofun
    have noCall : quad.op ≠ .call := by rcases isPassed with isOp | isOp <;> rw [isOp] <;> nofun
    rw [pushesBefore_other found noPush, nothing noPush noCall]
    rfl

theorem pushed_of_comes (ordered : Pushed 0 routine.body.toList) (comes : routine.Comes table start p)
    (atStart : start.pc = 0) (nonePushed : start.pushed = []) :
    p.pushed.length = (pushesBefore routine.body.toList p.pc).length := by
  induction comes with
  | refl =>
    rw [atStart, nonePushed]
    rfl
  | tail _ turn ih => exact arranged.pushed_of_turn ordered turn ih

end Arranged

/-! ## Temporaries -/

/-- On the way from `start` to `p`, a quadruple with the result `name` stored `value` there. -/
def Stored (routine : Routine) (table : Table) (start p : Progress) (name : String)
    (value : Int32) : Prop :=
  ∃ quad before after, routine.Comes table start before ∧
    routine.body[before.pc]? = some quad ∧ quad.result = some (.name name) ∧
    quad.store table before.frame .result value = .ok after.frame ∧
    routine.Turn table before after ∧ routine.Comes table after p

/-- The quadruple finds the value at the name. -/
def Finds (table : Table) (quad : Quad) (frame : Activation) (name : String) (value : Int32) :
    Prop :=
  ∃ slot, quad.locate table name = .ok slot ∧ frame.read? slot = some value

namespace Arranged

variable {name : String} {value : Int32} {written read : Nat} (arranged : routine.Arranged table)
include arranged

/-- What stores another name leaves the value of this one. -/
theorem finds_of_store {writer : Quad} {frame after : Activation} {stored : Int32}
    (inBody : writer ∈ routine.body.toList) (inBody' : quad ∈ routine.body.toList)
    (isResult : writer.result = some (.name name))
    (isStored : quad.store table frame .result stored = .ok after)
    (differs : quad.result ≠ some (.name name)) (finds : Finds table writer frame name value) :
    Finds table writer after name value := by
  obtain ⟨slot, located, found⟩ := finds
  obtain ⟨other, slot', named, located', wrote⟩ := Quad.store_eq_ok.1 isStored
  refine ⟨slot, located, ?_⟩
  rw [Activation.read?_of_write? wrote, if_neg, found]
  rintro rfl
  obtain rfl := arranged.apart writer inBody quad inBody' name other slot isResult named located
    located'
  exact differs named

/-- A quadruple with a result stores a value there, and nothing else happens. -/
theorem stores_of_moves {writer : Quad} (inBody : writer ∈ routine.body.toList)
    (isResult : writer.result = some (.name name)) (moves : routine.Moves table p writer q) :
    ∃ value, writer.store table p.frame .result value = .ok q.frame ∧
      Finds table writer q.frame name value := by
  have written := arranged.results writer inBody name isResult
  cases moves with
  | @stores value _ frame _ _ stored =>
    obtain ⟨other, slot, named, located, wrote⟩ := Quad.store_eq_ok.1 stored
    change writer.result = _ at named
    rw [isResult] at named
    cases named
    refine ⟨value, stored, slot, located, ?_⟩
    rw [Activation.read?_of_write? wrote, if_pos rfl]
  | pushes isParam =>
    rw [Quad.written?, isParam] at written
    cases written
  | jumps isJump =>
    rw [Quad.written?_of_targetField? isJump] at written
    cases written
  | passes isPassed =>
    rcases isPassed with isOp | isOp <;> rw [Quad.written?, isOp] at written <;> cases written

/-- What has another result leaves the value of this one. -/
theorem finds_of_moves {writer : Quad} (inBody : writer ∈ routine.body.toList)
    (inBody' : quad ∈ routine.body.toList) (isResult : writer.result = some (.name name))
    (differs : quad.result ≠ some (.name name)) (moves : routine.Moves table p quad q)
    (finds : Finds table writer p.frame name value) : Finds table writer q.frame name value := by
  cases moves with
  | stores _ stored => exact arranged.finds_of_store inBody inBody' isResult stored differs finds
  | pushes | jumps | passes => exact finds

/-- A jump would lead to a mark, and there is none behind the writer of a temporary, up to the
reader. -/
theorem target_ne_of_usedOnce {pc : Nat} {field : Field}
    (used : UsedOnce routine.body.toList name written read)
    (gt : written < pc) (le : pc ≤ read) : routine.target quad field ≠ .ok pc := by
  intro reached
  obtain ⟨mark, isMark, isLabel⟩ := arranged.op_of_target reached
  rcases Nat.lt_or_eq_of_le le with lt | rfl
  · have straight := used.straight pc gt lt mark isMark
    rw [isLabel] at straight
    cases straight
  · have isRead := used.reads isMark
    rw [Quad.reads, isLabel] at isRead
    cases isRead

/-- Behind the quadruple that creates a temporary, up to the one that reads it, the value is the one
that was stored. -/
theorem finds_of_comes {writer : Quad} (used : UsedOnce routine.body.toList name written read)
    (isWriter : routine.body.toList[written]? = some writer) (comes : routine.Comes table start p)
    (atStart : start.pc = 0) (gt : written < p.pc) (le : p.pc ≤ read) :
    ∃ value, routine.Stored table start p name value ∧
      Finds table writer p.frame name value := by
  have isResult := used.result isWriter
  have inBody := List.mem_of_getElem? isWriter
  induction comes with
  | refl => omega
  | @tail p q comes turn ih =>
    obtain ⟨quad, found, moves⟩ := moves_of_turn turn
    have found' : routine.body.toList[p.pc]? = some quad := by rwa [Array.getElem?_toList]
    have next : q.pc = p.pc + 1 := by
      cases moves with
      | stores | pushes | passes => rfl
      | jumps _ reached => exact absurd reached (arranged.target_ne_of_usedOnce used gt le)
    by_cases atWriter : p.pc = written
    · rw [atWriter, isWriter] at found'
      cases found'
      obtain ⟨value, stored, finds⟩ := arranged.stores_of_moves inBody isResult moves
      exact ⟨value, ⟨writer, p, q, comes, found, isResult, stored, turn, .refl⟩, finds⟩
    · obtain ⟨value, ⟨quad', before, after, comes', isQuad, isResult', stored, turn', later⟩, finds⟩ :=
        ih (by omega) (by omega)
      have differs : quad.result ≠ some (.name name) := fun isResult' =>
        atWriter ((used.written_iff p.pc).1 ⟨quad, found', isResult'⟩)
      exact ⟨value, ⟨quad', before, after, comes', isQuad, isResult', stored, turn',
        later.tail turn⟩, arranged.finds_of_moves inBody (List.mem_of_getElem? found') isResult differs
        moves finds⟩

end Arranged
end Routine

end MiniC
