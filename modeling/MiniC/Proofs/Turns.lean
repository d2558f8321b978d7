import MiniC.Proofs.Results
import MiniC.Quad.Evaluation

/-!
# What a turn of a run does

An activation runs in turns, one quadruple each. Whatever the quadruples are, a turn that succeeds
does one of five things (`Does`): it stores a value in the frame, pushes an argument, asks for a
call, goes where a label is, or goes on with the next quadruple. All that is said about whole runs
follows from what these five leave as it was.

A run that is cut off after a number of steps may end only for that. `Loops` and `Code.Calls` say
what a run gives without such a number: there is an outcome only if the run ends by itself.
-/

namespace MiniC

/-! ## Fields -/

namespace Quad

variable {quad : Quad} {field : Field}

theorem name_eq_ok {name : String} : quad.name field = .ok name ↔
    quad.field? field = some (.name name) := by
  unfold Quad.name
  split
  · next text found =>
    rw [found, Except.ok.injEq, Option.some.injEq, Operand.name.injEq]
  · next other =>
    exact ⟨nofun, fun found => absurd found (other name)⟩

theorem label_eq_ok {label : Label} : quad.label field = .ok label ↔
    quad.field? field = some (.label label) := by
  unfold Quad.label
  split
  · next target found =>
    rw [found, Except.ok.injEq, Option.some.injEq, Operand.label.injEq]
  · next other =>
    exact ⟨nofun, fun found => absurd found (other label)⟩

theorem count_eq_ok {count : Nat} : quad.count field = .ok count ↔
    quad.field? field = some (.count count) := by
  unfold Quad.count
  split
  · next arguments found =>
    rw [found, Except.ok.injEq, Option.some.injEq, Operand.count.injEq]
  · next other =>
    exact ⟨nofun, fun found => absurd found (other count)⟩

end Quad

/-- The field for the label that a jump or a return goes to. -/
def Opcode.targetField? : Opcode → Option Field
  | .ret | .jump => some .operand1
  | .jumpIfNot => some .operand2
  | _ => none

/-- What computes a value and stores it. -/
def Opcode.computes : Opcode → Bool
  | .load | .assign | .plus | .minus | .mult | .div | .uplus | .uminus => true
  | _ => false

namespace Routine

variable {routine : Routine} {table : Table} {p q : Progress} {quad : Quad} {action : Action}

theorem target_eq_ok {field : Field} {pc : Nat} : routine.target quad field = .ok pc ↔
    ∃ label, quad.field? field = some (.label label) ∧
      lastTarget? label routine.targets = some pc := by
  unfold target
  rw [bind_eq_ok]
  simp only [Quad.label_eq_ok]
  refine exists_congr fun label => and_congr_right fun _ => ?_
  split
  · next found =>
    rw [found, Option.some.injEq]
    exact ⟨Except.ok.inj, congrArg Except.ok⟩
  · next missing =>
    rw [missing]
    exact ⟨nofun, nofun⟩

/-! ## Single turns -/

/-- What a quadruple does that is taken at `p`; the index of the next one is in `p` already. -/
inductive Does (routine : Routine) (table : Table) (p : Progress) (quad : Quad) : Action → Prop
  | stores {value : Int32} {frame : Activation} (computes : quad.op.computes)
      (stored : quad.store table p.frame .result value = .ok frame) :
      Does routine table p quad (.proceed { p with frame })
  | pushes {value : Int32} (isParam : quad.op = .param)
      (fetched : quad.fetch table p.frame .operand1 = .ok value) :
      Does routine table p quad (.proceed { p with pushed := value :: p.pushed })
  | calls {callee : String} {count : Nat} (isCall : quad.op = .call)
      (named : quad.name .operand1 = .ok callee) (counted : quad.count .operand2 = .ok count)
      (enough : count ≤ p.pushed.length) :
      Does routine table p quad (.call callee (p.pushed.take count)
        { p with pushed := p.pushed.drop count })
  | jumps {field : Field} {pc : Nat} {accumulator : Int32}
      (isJump : quad.op.targetField? = some field) (found : routine.target quad field = .ok pc) :
      Does routine table p quad (.proceed { p with pc, accumulator })
  | passes (isPassed : quad.op = .label ∨ quad.op = .jumpIfNot) :
      Does routine table p quad (.proceed p)

theorem does_of_unary {f : Int32 → Int32} (computes : quad.op.computes)
    (stepped : unary table p quad f = .ok action) : routine.Does table p quad action := by
  obtain ⟨_, _, stepped⟩ := bind_eq_ok.1 stepped
  obtain ⟨_, stored, stepped⟩ := bind_eq_ok.1 stepped
  cases stepped
  exact .stores computes stored

theorem does_of_binary {f : Int32 → Int32 → Option Int32} (computes : quad.op.computes)
    (stepped : routine.binary table p quad f = .ok action) : routine.Does table p quad action := by
  obtain ⟨_, _, stepped⟩ := bind_eq_ok.1 stepped
  obtain ⟨_, _, stepped⟩ := bind_eq_ok.1 stepped
  split at stepped
  · cases stepped
  · obtain ⟨_, stored, stepped⟩ := bind_eq_ok.1 stepped
    cases stepped
    exact .stores computes stored

/-- A step that succeeds does one of five things. -/
theorem does_of_step (stepped : routine.step table p quad = .ok action) :
    routine.Does table p quad action := by
  unfold step at stepped
  cases isOp : quad.op with
  | assign | uplus | uminus =>
    rw [isOp] at stepped
    exact does_of_unary (by rw [isOp]; rfl) stepped
  | plus | minus | mult | div =>
    rw [isOp] at stepped
    exact does_of_binary (by rw [isOp]; rfl) stepped
  | load =>
    rw [isOp] at stepped
    obtain ⟨_, _, stepped⟩ := bind_eq_ok.1 stepped
    obtain ⟨_, stored, stepped⟩ := bind_eq_ok.1 stepped
    cases stepped
    exact .stores (by rw [isOp]; rfl) stored
  | param =>
    rw [isOp] at stepped
    obtain ⟨_, fetched, stepped⟩ := bind_eq_ok.1 stepped
    cases stepped
    exact .pushes isOp fetched
  | call =>
    rw [isOp] at stepped
    obtain ⟨callee, named, stepped⟩ := bind_eq_ok.1 stepped
    obtain ⟨count, counted, stepped⟩ := bind_eq_ok.1 stepped
    dsimp only at stepped
    split at stepped
    · cases stepped
    · next enough =>
      cases stepped
      exact .calls isOp named counted (Nat.le_of_not_lt enough)
  | ret =>
    rw [isOp] at stepped
    obtain ⟨_, _, stepped⟩ := bind_eq_ok.1 stepped
    obtain ⟨pc, found, stepped⟩ := bind_eq_ok.1 stepped
    cases stepped
    exact .jumps (by rw [isOp]; rfl) found
  | jump =>
    rw [isOp] at stepped
    obtain ⟨pc, found, stepped⟩ := bind_eq_ok.1 stepped
    cases stepped
    exact .jumps (by rw [isOp]; rfl) found
  | jumpIfNot =>
    rw [isOp] at stepped
    obtain ⟨_, _, stepped⟩ := bind_eq_ok.1 stepped
    split at stepped
    · obtain ⟨pc, found, stepped⟩ := bind_eq_ok.1 stepped
      cases stepped
      exact .jumps (by rw [isOp]; rfl) found
    · cases stepped
      exact .passes (.inr isOp)
  | label =>
    rw [isOp] at stepped
    cases stepped
    exact .passes (.inl isOp)

/-- A call that has its value back only stores it. -/
theorem receive_eq_ok {value : Int32} : receive table p quad value = .ok q ↔
    ∃ frame, quad.store table p.frame .result value = .ok frame ∧
      q = { p with frame, accumulator := value } := by
  unfold receive
  rw [bind_eq_ok]
  exact exists_congr fun frame => and_congr_right fun _ => ⟨fun h => by cases h; rfl,
    fun h => h ▸ rfl⟩

/-! ## Runs without a limit -/

/-- A run from `p` ends with that outcome, where a call may have each outcome that `answers` gives
it. -/
inductive Loops (routine : Routine) (table : Table)
    (answers : String → List Int32 → Traced Int32 → Prop) : Progress → Traced Int32 → Prop
  | ended {p : Progress} (atEnd : routine.body[p.pc]? = none) :
      Loops routine table answers p (pure p.accumulator)
  | failed {p : Progress} {quad : Quad} {error : Error} (found : routine.body[p.pc]? = some quad)
      (stepped : routine.step table { p with pc := p.pc + 1 } quad = .error error) :
      Loops routine table answers p (.ofExcept (.error error))
  | proceeded {p q : Progress} {quad : Quad} {outcome : Traced Int32}
      (found : routine.body[p.pc]? = some quad)
      (stepped : routine.step table { p with pc := p.pc + 1 } quad = .ok (.proceed q))
      (later : Loops routine table answers q outcome) : Loops routine table answers p outcome
  | callFailed {p q : Progress} {quad : Quad} {callee : String} {arguments : List Int32}
      {answer : Traced Int32} {error : Error} (found : routine.body[p.pc]? = some quad)
      (stepped : routine.step table { p with pc := p.pc + 1 } quad =
        .ok (.call callee arguments q))
      (answered : answers callee arguments answer) (noValue : answer.result = .error error) :
      Loops routine table answers p (do
        .report (.called routine.name callee arguments)
        answer)
  | notReceived {p q : Progress} {quad : Quad} {callee : String} {arguments : List Int32}
      {answer : Traced Int32} {value : Int32} {error : Error}
      (found : routine.body[p.pc]? = some quad)
      (stepped : routine.step table { p with pc := p.pc + 1 } quad =
        .ok (.call callee arguments q))
      (answered : answers callee arguments answer) (hasValue : answer.result = .ok value)
      (noRoom : receive table q quad value = .error error) :
      Loops routine table answers p (do
        .report (.called routine.name callee arguments)
        let _ ← answer
        .ofExcept (.error error))
  | returned {p q r : Progress} {quad : Quad} {callee : String} {arguments : List Int32}
      {answer : Traced Int32} {value : Int32} {outcome : Traced Int32}
      (found : routine.body[p.pc]? = some quad)
      (stepped : routine.step table { p with pc := p.pc + 1 } quad =
        .ok (.call callee arguments q))
      (answered : answers callee arguments answer) (hasValue : answer.result = .ok value)
      (received : receive table q quad value = .ok r)
      (later : Loops routine table answers r outcome) :
      Loops routine table answers p (do
        .report (.called routine.name callee arguments)
        let _ ← answer
        outcome)

end Routine

namespace Code

variable {code : Code} {table : Table} {function : String} {arguments : List Int32}

/-- A function that is entered has code and a symbol, and gets as many arguments as it has
parameters. Its activation begins at its first quadruple with zeros in its variables. -/
theorem enter_eq_ok {routine : Routine} {p : Progress}
    (entered : code.enter table function arguments = .ok (routine, p)) :
    ∃ body symbol parameters locals targets, code.body? function = some body ∧
      table.lookupLocal Table.global function = some symbol ∧
      table.parameters symbol = .ok parameters ∧ table.locals symbol = .ok locals ∧
      parameters.size = arguments.length ∧ labelTargets 0 body.toList = .ok targets ∧
      routine = ⟨function, body, targets⟩ ∧
      p = ⟨0, 0, [], ⟨arguments.toArray, Array.replicate locals.size 0⟩⟩ := by
  unfold enter at entered
  split at entered
  · cases entered
  next body isBody =>
  split at entered
  · cases entered
  next symbol isSymbol =>
  obtain ⟨parameters, areParameters, entered⟩ := bind_eq_ok.1 entered
  dsimp only at entered
  split at entered
  · cases entered
  next sameLength =>
  obtain ⟨locals, areLocals, entered⟩ := bind_eq_ok.1 entered
  obtain ⟨targets, collected, entered⟩ := bind_eq_ok.1 entered
  cases entered
  exact ⟨body, symbol, parameters, locals, targets, isBody, isSymbol, areParameters, areLocals,
    Decidable.not_not.1 sameLength, collected, rfl, rfl⟩

/-- A call ends with that outcome, where calls nest at most `depth` deep. -/
def Calls (code : Code) (table : Table) :
    (depth : Nat) → String → List Int32 → Traced Int32 → Prop
  | 0, function, _, outcome =>
      outcome = .ofExcept (.error (.evaluation (.depthExceeded maxCallDepth function)))
  | depth + 1, function, arguments, outcome =>
      match code.enter table function arguments with
      | .error error => outcome = .ofExcept (.error error)
      | .ok (routine, progress) =>
          routine.Loops table (code.Calls table depth) progress outcome

end Code
end MiniC
