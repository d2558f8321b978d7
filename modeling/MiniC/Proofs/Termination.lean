import MiniC.Proofs.ForwardJumps
import MiniC.Proofs.Turns

/-!
# Runs of lowered code terminate

The loop that runs an activation would go round forever if a jump led backward. In lowered code none
does, so the index of the next quadruple grows with every turn, and it never gets beyond the end of
the body. Calls nest at most so deep. So every call ends by itself, in whatever table names are
looked up, and the number of steps that a run is granted never matters.
-/

namespace MiniC

namespace Traced

variable {α β : Type} {first : Traced α}

theorem bind_of_ok {value : α} (hasValue : first.result = .ok value) (next : α → Traced β) :
    (first >>= next) = (first >>= fun _ => next value) := by
  change bind first next = bind first fun _ => next value
  unfold bind
  rw [hasValue]

theorem bind_of_error {error : Error} (noValue : first.result = .error error)
    (next : α → Traced α) : (first >>= next) = first := by
  obtain ⟨events, result⟩ := first
  change result = _ at noValue
  subst noValue
  rfl

@[simp] theorem ofExcept_ok_bind (value : α) (next : α → Traced β) :
    (ofExcept (.ok value) >>= next) = next value := rfl

@[simp] theorem ofExcept_error_bind (error : Error) (next : α → Traced β) :
    (ofExcept (.error error) >>= next) = ofExcept (.error error) := rfl

end Traced

/-! ## Single turns -/

/-- No label has two marks. -/
theorem index_of_marked {code : List Quad} (distinct : (marks code).Nodup) {index other : Nat}
    {quad quad' : Quad} {label : Label} (found : code[index]? = some quad)
    (found' : code[other]? = some quad') (marked : quad.marked? = some label)
    (marked' : quad'.marked? = some label) : index = other := by
  have member {code : List Quad} {index : Nat} {quad : Quad} (found : code[index]? = some quad)
      (marked : quad.marked? = some label) : label ∈ marks code :=
    List.mem_filterMap.2 ⟨quad, List.mem_of_getElem? found, marked⟩
  induction code generalizing index other with
  | nil => cases found
  | cons first code ih =>
    rw [marks_cons] at distinct
    have apart := (List.nodup_append.1 distinct).2.2
    cases index with
    | zero =>
      cases found
      cases other with
      | zero => rfl
      | succ other =>
        exact absurd rfl (apart label (by rw [marked]; exact List.mem_cons_self) label
          (member found' marked'))
    | succ index =>
      cases other with
      | zero =>
        cases found'
        exact absurd rfl (apart label (by rw [marked']; exact List.mem_cons_self) label
          (member found marked))
      | succ other =>
        exact congrArg Nat.succ (ih (List.nodup_append.1 distinct).2.1 found found')

theorem Quad.target?_eq {quad : Quad} {field : Field} {label : Label}
    (isJump : quad.op.targetField? = some field)
    (named : quad.field? field = some (.label label)) : quad.target? = some label := by
  obtain ⟨op, operand1, operand2, result, scope⟩ := quad
  cases op with
  | ret | jump =>
    cases isJump
    change operand1 = _ at named
    rw [named]
    rfl
  | jumpIfNot =>
    cases isJump
    change operand2 = _ at named
    rw [named]
    rfl
  | _ => cases isJump

/-- Whatever jumps leads forward, and not out of the body. -/
def Routine.GoesForward (routine : Routine) : Prop :=
  ∀ ⦃pc : Nat⦄ ⦃quad : Quad⦄ ⦃field : Field⦄ ⦃target : Nat⦄, routine.body[pc]? = some quad →
    quad.op.targetField? = some field → routine.target quad field = .ok target →
    pc < target ∧ target < routine.body.size

/-- The routine of a function whose jumps go forward goes forward. -/
theorem FunctionCode.ForwardOnly.goesForward {function : FunctionCode}
    (forward : function.ForwardOnly) (distinct : (marks function.body.toList).Nodup)
    {targets : List (Label × Nat)} (collected : labelTargets 0 function.body.toList = .ok targets)
    (name : String) : (Routine.mk name function.body targets).GoesForward := by
  intro pc quad field target found isJump reached
  obtain ⟨label, named, placed⟩ := Routine.target_eq_ok.1 reached
  have isTarget := Quad.target?_eq isJump named
  have jumps : quad.op = .jump ∨ quad.op = .jumpIfNot ∨ quad.op = .ret := by
    unfold Opcode.targetField? at isJump
    grind
  obtain ⟨label', later, mark, isTarget', lt, found', marked⟩ := forward.jumps found jumps
  rw [isTarget] at isTarget'
  cases isTarget'
  obtain ⟨index, quad', atIndex, foundIndex, marked'⟩ := marked_of_lastTarget? collected placed
  rw [Nat.zero_add] at atIndex
  subst atIndex
  rw [← Array.getElem?_toList] at found'
  obtain rfl := index_of_marked distinct found' foundIndex marked marked'
  rw [Array.getElem?_toList] at found'
  exact ⟨lt, (Array.getElem?_eq_some_iff.1 found').1⟩

namespace Routine

variable {routine : Routine} {table : Table} {p q r : Progress} {quad : Quad}

/-- How many quadruples a run may still take. -/
def left (routine : Routine) (p : Progress) : Nat :=
  routine.body.size - p.pc

theorem left_lt (found : routine.body[p.pc]? = some quad) (forward : p.pc < q.pc) :
    routine.left q < routine.left p := by
  have lt := (Array.getElem?_eq_some_iff.1 found).1
  unfold left
  omega

/-- A turn leaves less to take. -/
theorem left_of_proceed (forward : routine.GoesForward) (found : routine.body[p.pc]? = some quad)
    (stepped : routine.step table { p with pc := p.pc + 1 } quad = .ok (.proceed q)) :
    routine.left q < routine.left p := by
  refine left_lt found ?_
  cases does_of_step stepped with
  | stores | pushes | passes => exact Nat.lt_succ_self _
  | jumps isJump reached => exact (forward found isJump reached).1

theorem pc_of_call {callee : String} {arguments : List Int32}
    (stepped : routine.step table p quad = .ok (.call callee arguments q)) : q.pc = p.pc := by
  cases does_of_step stepped with
  | calls => rfl

theorem left_of_call {callee : String} {arguments : List Int32} {value : Int32}
    (found : routine.body[p.pc]? = some quad)
    (stepped : routine.step table { p with pc := p.pc + 1 } quad = .ok (.call callee arguments q))
    (received : receive table q quad value = .ok r) : routine.left r < routine.left p := by
  obtain ⟨frame, _, rfl⟩ := receive_eq_ok.1 received
  refine left_lt found ?_
  rw [pc_of_call stepped]
  exact Nat.lt_succ_self _

/-! ## Whole runs -/

section Runs

variable {answers : String → List Int32 → Traced Int32 → Prop}
  {callee : String → List Int32 → Traced Int32} {limit steps : Nat}

theorem run_of_quad (found : routine.body[p.pc]? = some quad) :
    routine.run table limit callee (steps + 1) p =
      (match routine.step table { p with pc := p.pc + 1 } quad with
      | .error error => .ofExcept (.error error)
      | .ok (.proceed q) => routine.run table limit callee steps q
      | .ok (.call function arguments q) => do
          .report (.called routine.name function arguments)
          let value ← callee function arguments
          let r ← .ofExcept (receive table q quad value)
          routine.run table limit callee steps r) := by
  rw [run]
  split
  · next missing =>
    rw [found] at missing
    cases missing
  · next other isQuad =>
    rw [found] at isQuad
    cases isQuad
    rfl

theorem run_of_answer {function : String} {arguments : List Int32} {value : Int32}
    (found : routine.body[p.pc]? = some quad)
    (stepped : routine.step table { p with pc := p.pc + 1 } quad =
      .ok (.call function arguments q))
    (hasValue : (callee function arguments).result = .ok value) :
    routine.run table limit callee (steps + 1) p = (do
      .report (.called routine.name function arguments)
      let _ ← callee function arguments
      let r ← .ofExcept (receive table q quad value)
      routine.run table limit callee steps r) := by
  rw [run_of_quad found, stepped]
  dsimp only
  rw [Traced.bind_of_ok hasValue]

/-- A run with more steps than quadruples ends by itself. -/
theorem loops_run (forward : routine.GoesForward)
    (answered : ∀ function arguments, answers function arguments (callee function arguments))
    (enough : routine.left p < steps) :
    routine.Loops table answers p (routine.run table limit callee steps p) := by
  induction steps generalizing p with
  | zero => exact absurd enough (Nat.not_lt_zero _)
  | succ steps ih =>
    cases found : routine.body[p.pc]? with
    | none =>
      rw [run, found]
      exact .ended found
    | some quad =>
      cases stepped : routine.step table { p with pc := p.pc + 1 } quad with
      | error error =>
        rw [run_of_quad found, stepped]
        exact .failed found stepped
      | ok action =>
        cases action with
        | proceed q =>
          have less := left_of_proceed forward found stepped
          rw [run_of_quad found, stepped]
          exact .proceeded found stepped (ih (by omega))
        | call function arguments q =>
          have isAnswer := answered function arguments
          cases answer : (callee function arguments).result with
          | error error =>
            rw [run_of_quad found, stepped]
            dsimp only
            rw [Traced.bind_of_error answer]
            exact .callFailed found stepped isAnswer answer
          | ok value =>
            rw [run_of_answer found stepped answer]
            cases received : receive table q quad value with
            | error error => exact .notReceived found stepped isAnswer answer received
            | ok r =>
              have less := left_of_call found stepped received
              exact .returned found stepped isAnswer answer received (ih (by omega))

/-- A run that ends by itself ends as a run with enough steps. -/
theorem Loops.eq_run (forward : routine.GoesForward)
    (answered : ∀ {function arguments answer}, answers function arguments answer →
      answer = callee function arguments)
    {outcome : Traced Int32} (loops : routine.Loops table answers p outcome)
    (enough : routine.left p < steps) :
    outcome = routine.run table limit callee steps p := by
  induction loops generalizing steps with
  | ended atEnd =>
    obtain ⟨steps, rfl⟩ := Nat.exists_eq_add_of_lt enough
    rw [run, atEnd]
  | failed found stepped =>
    obtain ⟨steps, rfl⟩ := Nat.exists_eq_add_of_lt enough
    rw [run_of_quad found, stepped]
  | proceeded found stepped later ih =>
    obtain ⟨more, rfl⟩ := Nat.exists_eq_add_of_lt enough
    have less := left_of_proceed forward found stepped
    rw [run_of_quad found, stepped]
    exact ih (by omega)
  | callFailed found stepped isAnswer noValue =>
    obtain ⟨steps, rfl⟩ := Nat.exists_eq_add_of_lt enough
    obtain rfl := answered isAnswer
    rw [run_of_quad found, stepped]
    dsimp only
    rw [Traced.bind_of_error noValue]
  | notReceived found stepped isAnswer hasValue noRoom =>
    obtain ⟨steps, rfl⟩ := Nat.exists_eq_add_of_lt enough
    obtain rfl := answered isAnswer
    rw [run_of_answer found stepped hasValue, noRoom, Traced.ofExcept_error_bind]
  | returned found stepped isAnswer hasValue received later ih =>
    obtain ⟨more, rfl⟩ := Nat.exists_eq_add_of_lt enough
    obtain rfl := answered isAnswer
    have less := left_of_call found stepped received
    rw [run_of_answer found stepped hasValue, received, Traced.ofExcept_ok_bind,
      ← ih (show routine.left _ < _ by omega)]

end Runs
end Routine

/-- A call ends as one in which every activation is granted enough steps, and in no other way. -/
theorem Code.calls_iff {code : Code} {table : Table}
    (forward : ∀ {function arguments routine p},
      code.enter table function arguments = .ok (routine, p) → routine.GoesForward)
    {steps : Nat} (enough : ∀ {function arguments routine p},
      code.enter table function arguments = .ok (routine, p) → routine.left p < steps)
    (depth : Nat) : ∀ (function : String) (arguments : List Int32) (outcome : Traced Int32),
    code.Calls table depth function arguments outcome ↔
      outcome = code.callWithin table steps depth function arguments := by
  induction depth with
  | zero => exact fun _ _ _ => Iff.rfl
  | succ depth ih =>
    intro function arguments outcome
    rw [Calls, callWithin]
    cases entered : code.enter table function arguments with
    | error error => exact Iff.rfl
    | ok start =>
      obtain ⟨routine, p⟩ := start
      rw [Traced.ofExcept_ok_bind]
      constructor
      · intro loops
        exact loops.eq_run (forward entered) (fun answered => (ih _ _ _).1 answered)
          (enough entered)
      · rintro rfl
        exact Routine.loops_run (forward entered) (fun _ _ => (ih _ _ _).2 rfl) (enough entered)

/-- Lowered code, whatever tree it is from, goes forward only: its labels have numbers without gaps
and one mark each, every jump leads to a mark behind it in the same function, and a function ends
with the exit that its returns leave by. So every call of it ends by itself, in any table, and ends
as `Code.run` says. -/
theorem lowered_code_terminates {tree : Node} {table : Table} {code : Code}
    (lowered : (tree.lower table).2.result = .ok code) :
    (∃ count, code.labels.Perm (labelsFrom 0 count)) ∧
    (∀ function ∈ code.functions, function.ForwardOnly) ∧
    ∀ (table : Table) (function : String) (arguments : List Int32) (outcome : Traced Int32),
      code.Calls table maxCallDepth function arguments outcome ↔
        outcome = code.run table function arguments := by
  obtain ⟨once, numbered⟩ := Node.numbered_of_lower lowered
  have forward : ∀ function ∈ code.functions, function.ForwardOnly := by
    intro function member
    obtain ⟨_, _, isNumbered⟩ := numbered function member
    exact isNumbered.forwardOnly
  refine ⟨once, forward, fun table => ?_⟩
  have inCode {name : String} {arguments : List Int32} {routine : Routine} {p : Progress}
      (entered : code.enter table name arguments = .ok (routine, p)) :
      p.pc = 0 ∧ ∃ function ∈ code.functions, routine.body = function.body ∧
        ∃ targets, labelTargets 0 function.body.toList = .ok targets ∧
          routine = ⟨name, function.body, targets⟩ := by
    obtain ⟨body, _, _, _, targets, found, _, _, _, _, collected, rfl, rfl⟩ :=
      Code.enter_eq_ok entered
    obtain ⟨function, found', rfl⟩ := Option.map_eq_some_iff.1 found
    exact ⟨rfl, function, List.mem_of_find?_eq_some found', rfl, targets, collected, rfl⟩
  refine Code.calls_iff (fun entered => ?_) (fun entered => ?_) maxCallDepth
  · obtain ⟨_, function, member, _, targets, collected, rfl⟩ := inCode entered
    obtain ⟨_, _, isNumbered⟩ := numbered function member
    have distinct : (marks function.body.toList).Nodup :=
      isNumbered.marked.nodup_iff.2 (nodup_labelsFrom _ _)
    exact (forward function member).goesForward distinct collected _
  · obtain ⟨atStart, function, member, isBody, _⟩ := inCode entered
    unfold Routine.left
    rw [atStart, isBody]
    exact Nat.lt_succ_of_le (Node.le_size_of_mem member)

/-- A program that no check accepts: its function reads a variable that is not declared, and calls
itself before anything else. -/
def strayTree : Node :=
  let info : Info := { (default : Info) with scope := some Table.global }
  .program info [.function info .int "stray" []
    (.ifElse info (.call info (.identifier info "stray") [.identifier info "x"])
      (.ifThen info (.identifier info "x") (.returnValue info (.integer info 1)))
      (.returnValue info (.identifier info "x")))]

def strayTable : Table :=
  match Table.initial.defineFunction Table.global "stray" .int with
  | .ok (_, table) => table
  | .error _ => .initial

theorem stray_terminates : ∃ code, (strayTree.lower strayTable).2.result = .ok code ∧
    (∃ count, code.labels.Perm (labelsFrom 0 count)) ∧
    ∃ outcome, code.Calls Table.initial maxCallDepth "stray" [1] outcome := by
  have isLowered : (strayTree.lower strayTable).2.result.toOption.any fun _ => true := by
    decide +kernel
  obtain ⟨code, lowered, _⟩ := exists_ok_of_any isLowered
  obtain ⟨once, _, ends⟩ := lowered_code_terminates lowered
  exact ⟨code, lowered, once, _, (ends Table.initial "stray" [1] _).2 rfl⟩

end MiniC
