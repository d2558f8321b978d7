import MiniC.Proofs.Listings
import MiniC.Proofs.Paths

/-!
# The machine follows the run

A run of quadruples and the machine that executes their lines go together: where the run is at a
quadruple, the machine is at its lines, and the stack holds what the activation holds. One lemma
takes a quadruple, one takes a run to its end, and the last one takes calls within calls.
-/

namespace MiniC

open Assembly (Line Instruction instructions quadLines slotCount slotOffset frameSize locate?)

/-! ## Results -/

namespace Machine

/-- The machine gets to a state that is good for the value of a result. If the result is a division
that faults, the machine gets to a division that raises an error. -/
def Realizes (lines : List Line) (machine : Machine) (result : Except Error Int32)
    (good : Int32 → Machine → Prop) : Prop :=
  match result with
  | .ok value => ∃ last, Reaches lines machine last ∧ good value last
  | .error (.evaluation (.divisionFault ..)) => ∃ last, Reaches lines machine last ∧ Faults lines last
  | .error _ => True

theorem Reaches.realizes {lines : List Line} {first second : Machine}
    {result : Except Error Int32} {good : Int32 → Machine → Prop}
    (reaches : Reaches lines first second) (realizes : Realizes lines second result good) :
    Realizes lines first result good := by
  unfold Realizes at realizes ⊢
  split
  · obtain ⟨last, reaches', isGood⟩ := realizes
    exact ⟨last, reaches.trans reaches', isGood⟩
  · obtain ⟨last, reaches', faults⟩ := realizes
    exact ⟨last, reaches.trans reaches', faults⟩
  · trivial

/-- Where there is no value, it does not matter what a state has to be good for. -/
theorem Realizes.of_error {lines : List Line} {machine : Machine} {error : Error}
    {good good' : Int32 → Machine → Prop} (realizes : Realizes lines machine (.error error) good) :
    Realizes lines machine (.error error) good' := by
  unfold Realizes at realizes ⊢
  split
  · next isValue => cases isValue
  · next isFault =>
    cases isFault
    exact realizes
  · trivial

end Machine

/-! ## Activations -/

/-- The function that a run is in. -/
def Running.function (running : Running) : FunctionCode :=
  ⟨running.routine.name, running.routine.body⟩

/-- The function of a run is in a listing. -/
structure Running.Emitted (running : Running) (functions : String → Option Nat)
    (lines : List Line) (arity : Nat) (exit : Label) (start : Nat) : Prop where
  distinct : (lines.filterMap Line.symbol?).Nodup
  known : ∀ {callee count}, functions callee = some count →
    Assembly.isGlobalFunction running.table callee
  located : ∀ {callee count}, functions callee = some count →
    ∃ target, locate? lines callee = some target
  assembled : Assembled running.table functions lines arity running.function exit start
  targets : labelTargets 0 running.routine.body.toList = .ok running.routine.targets

/-- A run and the machine are at the same point. Once the run returned, its value is in `%eax`, and
nothing is left but the mark of the exit. -/
structure Running.Meets (running : Running) (start : Nat) (record : Record) (assigned : List Nat)
    (returned : Bool) (p : Progress) (machine : Machine) : Prop where
  line : machine.rip = running.function.line running.table start p.pc
  slots : record.slots = slotCount running.table running.routine.name
  holds : record.Holds assigned p.frame p.pushed machine.cpu
  done : returned = true →
    machine.cpu.eax = p.accumulator.toBitVec ∧ running.routine.body.size ≤ p.pc + 1
  /-- Unless the next quadruple is a mark, what was written since the last mark is assigned. -/
  supplied : ∀ {quad}, running.routine.body[p.pc]? = some quad → quad.op ≠ .label →
    ∀ {scope name slot}, (scope, name) ∈ suppliedBy [] (running.routine.body.toList.take p.pc) →
      running.table.slotAt scope name = some slot → slot.Known assigned

/-- The machine gets behind the lines of a quadruple and meets the run again at `q`. It takes at most
one slot of the stack, and has in `%eax` what the quadruple leaves there. -/
def Running.Follows (running : Running) (lines : List Line) (start : Nat) (record : Record)
    (assigned : List Nat) (returned : Bool) (quad : Quad) (q : Progress) (machine : Machine) : Prop :=
  ∃ machine', Machine.Reaches lines machine machine' ∧
    running.Meets start record (quad.assignedAfter running.table assigned)
      (returned || quad.op == .ret) q machine' ∧
    machine.cpu.rsp.toNat ≤ machine'.cpu.rsp.toNat + 8 ∧
    machine'.cpu.eax = quad.leaves running.table q.frame machine.cpu.eax

namespace Quad

theorem assignedAfter_eq {table : Table} {quad : Quad} {name : String} {slot : Slot}
    (writes : quad.written? = some name) (found : table.slotAt quad.scope name = some slot)
    (assigned : List Nat) : quad.assignedAfter table assigned = slot.assign assigned := by
  unfold assignedAfter
  rw [writes, Option.bind_some, found]

theorem known_assignedAfter {table : Table} {assigned : List Nat} {slot : Slot}
    (known : slot.Known assigned) (quad : Quad) : slot.Known (quad.assignedAfter table assigned) := by
  unfold assignedAfter
  split
  · exact known.mono _
  · exact known

end Quad

namespace Running

variable {running : Running} {functions : String → Option Nat} {lines : List Line} {arity : Nat}
  {exit : Label} {start : Nat} {record : Record} {assigned : List Nat} {returned : Bool}
  {p q : Progress} {machine : Machine} {quad : Quad}

/-- What a quadruple reads is in memory. -/
theorem Meets.known (meets : running.Meets start record assigned returned p machine)
    (emitted : running.Emitted functions lines arity exit start)
    (found : running.routine.body[p.pc]? = some quad)
    (reads : quad.readsAssigned running.table assigned) {name : String} (read : name ∈ quad.reads)
    {slot : Slot} (isSlot : running.table.slotAt quad.scope name = some slot) :
    slot.Known assigned := by
  have noLabel : quad.op ≠ .label := by
    intro isLabel
    unfold Quad.reads at read
    rw [isLabel] at read
    exact absurd read List.not_mem_nil
  have checked := List.all_eq_true.1 reads name read
  rw [isSlot, Bool.or_eq_true] at checked
  rcases checked with temporary | isKnown
  · have found' : running.routine.body.toList[p.pc]? = some quad := by
      rw [Array.getElem?_toList]
      exact found
    exact meets.supplied found noLabel (emitted.assembled.supplied.reads found' read temporary) isSlot
  · exact of_decide_eq_true isKnown

/-- What was written since the last mark is still assigned behind the next quadruple. -/
theorem Meets.supplied_next (meets : running.Meets start record assigned returned p machine)
    (found : running.routine.body[p.pc]? = some quad) {scope : ScopeId} {name : String} {slot : Slot}
    (member : (scope, name) ∈ suppliedBy [] (running.routine.body.toList.take (p.pc + 1)))
    (isSlot : running.table.slotAt scope name = some slot) :
    slot.Known (quad.assignedAfter running.table assigned) := by
  have found' : running.routine.body.toList[p.pc]? = some quad := by
    rw [Array.getElem?_toList]
    exact found
  rw [List.take_add_one, found', suppliedBy_append] at member
  have member' : (scope, name) ∈
      quad.supplies (suppliedBy [] (running.routine.body.toList.take p.pc)) := member
  unfold Quad.supplies at member'
  split at member'
  · exact absurd member' List.not_mem_nil
  · next noLabel =>
    rcases List.mem_append.1 member' with here | before
    · obtain ⟨written, writes, isPair⟩ := Option.map_eq_some_iff.1 (Option.mem_toList.1 here)
      cases isPair
      rw [Quad.assignedAfter_eq writes isSlot]
      exact Slot.known_assign slot assigned
    · exact Quad.known_assignedAfter (meets.supplied found noLabel before isSlot) quad

/-- Before the run returned, there may be any quadruple; after it, only the mark of the exit. -/
theorem Meets.not_returned (meets : running.Meets start record assigned returned p machine)
    (emitted : running.Emitted functions lines arity exit start)
    (found : running.routine.body[p.pc]? = some quad) (unmarked : quad.marked? = none) :
    returned = false := by
  cases returned with
  | false => rfl
  | true =>
    obtain ⟨scope, rfl⟩ := emitted.assembled.last_exit found (meets.done rfl).2
    cases unmarked

/-- The machine goes on behind the lines of a quadruple that neither jumps nor returns. -/
theorem Meets.next (meets : running.Meets start record assigned returned p machine)
    (emitted : running.Emitted functions lines arity exit start)
    (found : running.routine.body[p.pc]? = some quad) (unmarked : quad.marked? = none)
    (noReturn : quad.op ≠ .ret) {list : List Instruction} {cpu : Cpu} (isNext : q.pc = p.pc + 1)
    (isLines : quadLines running.table quad = instructions list)
    (executed : machine.cpu.executeAll? list = some cpu)
    (holds : record.Holds (quad.assignedAfter running.table assigned) q.frame q.pushed cpu) :
    ∃ machine', machine'.cpu = cpu ∧ Machine.Reaches lines machine machine' ∧
      running.Meets start record (quad.assignedAfter running.table assigned)
        (returned || quad.op == .ret) q machine' := by
  obtain ⟨present, after⟩ := emitted.assembled.quad_at found
  rw [isLines, ← meets.line] at present
  have length : (instructions list).length = list.length := List.length_map ..
  rw [isLines, length, ← meets.line] at after
  have notReturned := meets.not_returned emitted found unmarked
  refine ⟨⟨machine.rip + list.length, cpu⟩, rfl, Machine.reaches_instructions present executed, ?_,
    meets.slots, holds, ?_, ?_⟩
  · rw [isNext]
    exact after.symm
  · intro isReturned
    rw [notReturned, Bool.false_or, beq_iff_eq] at isReturned
    exact absurd isReturned noReturn
  · intro quad' _ _ scope name slot member isSlot
    rw [isNext] at member
    exact meets.supplied_next found member isSlot

/-! ## Single quadruples -/

theorem Meets.resolved (meets : running.Meets start record assigned returned p machine)
    (emitted : running.Emitted functions lines record.arity exit start)
    (found : running.routine.body[p.pc]? = some quad) :
    quad.Resolved running.table record.arity record.slots functions exit := by
  rw [meets.slots]
  exact emitted.assembled.resolved quad (Array.mem_toList_iff.2 (Array.mem_of_getElem? found))

/-- What a quadruple does at `p` whose names are places of the frame: it goes on in the activation,
unless its label is not there, it calls a function, or it divides without a result. -/
inductive StepKind (running : Running) (arity slots : Nat) (functions : String → Option Nat)
    (p : Progress) : Quad → Prop
  | proceeds {quad : Quad} {q : Progress} :
      running.routine.step running.table { p with pc := p.pc + 1 } quad = .ok (.proceed q) →
      StepKind running arity slots functions p quad
  | strays {quad : Quad} {label : Label} :
      running.routine.step running.table { p with pc := p.pc + 1 } quad =
        .error (.evaluation (.undefinedLabel label)) →
      StepKind running arity slots functions p quad
  | calls {callee result : String} {count : Nat} {scope : ScopeId} {slot : Slot} :
      functions callee = some count → running.table.Stores arity slots scope result slot →
      StepKind running arity slots functions p (.call callee count result scope)
  | divides {lhs rhs result : String} {scope : ScopeId} {slot slot' slot'' : Slot} :
      running.table.Stores arity slots scope lhs slot →
      running.table.Stores arity slots scope rhs slot' →
      running.table.Stores arity slots scope result slot'' →
      BinaryOp.div.compute? (p.frame.get slot) (p.frame.get slot') = none →
      StepKind running arity slots functions p (.binary .div lhs rhs result scope)

theorem stepKind_of_resolved {slots : Nat} (fits : p.frame.Fits arity slots)
    (resolved : quad.Resolved running.table arity slots functions exit) :
    running.StepKind arity slots functions p quad := by
  cases resolved with
  | load value stored => exact .proceeds (step_load fits value stored)
  | assign stored stored' => exact .proceeds (step_assign fits stored stored')
  | unary op stored stored' => exact .proceeds (step_unary fits op stored stored')
  | binary op stored stored' stored'' =>
    have stepped := step_binary fits op stored stored' stored''
    split at stepped
    · exact .proceeds stepped
    · next faulty =>
      cases op with
      | add | sub | mul => cases faulty
      | div => exact .divides stored stored' stored'' faulty
  | param stored => exact .proceeds (step_param fits stored)
  | call isKnown stored => exact .calls isKnown stored
  | ret stored =>
    have stepped := step_ret fits exit stored
    split at stepped
    · exact .proceeds stepped
    · exact .strays stepped
  | mark label scope => exact .proceeds rfl
  | jump label scope =>
    have stepped : running.routine.step running.table { p with pc := p.pc + 1 }
        (.jump label scope) = _ := step_jump label scope
    split at stepped
    · exact .proceeds stepped
    · exact .strays stepped
  | jumpIfNot label stored =>
    have stepped := step_jumpIfNot fits label stored
    split at stepped
    · split at stepped
      · exact .proceeds stepped
      · exact .strays stepped
    · exact .proceeds stepped

/-- A quadruple that writes a slot. -/
theorem Meets.write (meets : running.Meets start record assigned returned p machine)
    (emitted : running.Emitted functions lines arity exit start)
    (found : running.routine.body[p.pc]? = some quad) (unmarked : quad.marked? = none)
    (noReturn : quad.op ≠ .ret) {name : String} {slot : Slot} (writes : quad.written? = some name)
    (stored : running.table.Stores record.arity record.slots quad.scope name slot)
    {list : List Instruction} {value : Int32} {cpu : Cpu}
    (isLines : quadLines running.table quad = instructions list)
    (executed : machine.cpu.executeAll? list = some cpu)
    (wrote : machine.cpu.Wrote (machine.cpu.address (slotOffset slot)) value.toBitVec cpu)
    (left : cpu.eax = quad.leaves running.table (p.frame.put slot value) machine.cpu.eax) :
    running.Follows lines start record assigned returned quad
      { p with pc := p.pc + 1, frame := p.frame.put slot value } machine := by
  have holds := meets.holds.write stored.2 wrote
  rw [← Quad.assignedAfter_eq writes stored.1] at holds
  obtain ⟨machine', isCpu, reaches, meets'⟩ :=
    meets.next (q := { p with pc := p.pc + 1, frame := p.frame.put slot value }) emitted found
      unmarked noReturn rfl isLines executed holds
  refine ⟨machine', reaches, meets', ?_, ?_⟩
  · rw [isCpu, wrote.rsp]
    exact Nat.le_add_right _ _
  · rw [isCpu]
    exact left

/-- A quadruple that passes a value through `%eax` to its result. -/
theorem Meets.pass (meets : running.Meets start record assigned returned p machine)
    (emitted : running.Emitted functions lines arity exit start)
    (found : running.routine.body[p.pc]? = some quad) (unmarked : quad.marked? = none)
    (passing : quad.passing? = some .result) {name : String} {slot : Slot}
    (named : quad.result = some (.name name)) (writes : quad.written? = some name)
    (stored : running.table.Stores record.arity record.slots quad.scope name slot)
    {list : List Instruction} {value : Int32}
    (isLines : quadLines running.table quad = instructions list)
    (executed : ∃ cpu, machine.cpu.executeAll? list = some cpu ∧
      machine.cpu.Passed (machine.cpu.address (slotOffset slot)) value.toBitVec cpu) :
    running.Follows lines start record assigned returned quad
      { p with pc := p.pc + 1, frame := p.frame.put slot value } machine := by
  have noReturn : quad.op ≠ .ret := by
    intro isReturn
    unfold Quad.passing? at passing
    rw [isReturn] at passing
    cases passing
  obtain ⟨cpu, executed, passed⟩ := executed
  refine meets.write emitted found unmarked noReturn writes stored isLines executed passed.toWrote ?_
  unfold Quad.leaves
  rw [passed.eax, Quad.passed?_put passing named meets.holds.fits stored]
  rfl

/-- The machine is at the mark of a label that is jumped to. -/
theorem Emitted.locate (emitted : running.Emitted functions lines arity exit start) {label : Label}
    {target : Nat} (found : lastTarget? label running.routine.targets = some target) :
    ∃ quad, running.routine.body[target]? = some quad ∧ quad.marked? = some label ∧
      locate? lines label.text = some (running.function.line running.table start target) := by
  obtain ⟨index, quad, rfl, isQuad, marked⟩ := marked_of_lastTarget? emitted.targets found
  rw [Nat.zero_add]
  rw [Array.getElem?_toList] at isQuad
  exact ⟨quad, isQuad, marked, emitted.assembled.locate_mark emitted.distinct isQuad marked⟩

/-- The machine jumps to a mark together with the run. -/
theorem Meets.jump (meets : running.Meets start record assigned returned p machine)
    (emitted : running.Emitted functions lines arity exit start) {label : Label} {target : Nat}
    (found : lastTarget? label running.routine.targets = some target)
    {cpu : Cpu} (kept : machine.cpu.Kept cpu) {returned' : Bool} (accumulator : Int32)
    (done : returned' = true → cpu.eax = accumulator.toBitVec ∧ label = exit) :
    running.Meets start record assigned returned'
      { p with pc := target, accumulator := accumulator }
      ⟨running.function.line running.table start target, cpu⟩ := by
  obtain ⟨mark, isMark, marked, _⟩ := emitted.locate found
  refine ⟨rfl, meets.slots, meets.holds.keep kept, ?_, ?_⟩
  · intro isReturned
    obtain ⟨value, rfl⟩ := done isReturned
    exact ⟨value, Nat.le_of_eq (emitted.assembled.exit_last isMark marked).symm⟩
  · intro quad' isQuad noLabel
    cases isMark.symm.trans isQuad
    exact absurd (Quad.op_of_marked marked) noLabel

/-- What a quadruple reads has its value in memory. -/
theorem Meets.read (meets : running.Meets start record assigned returned p machine)
    (emitted : running.Emitted functions lines record.arity exit start)
    (found : running.routine.body[p.pc]? = some quad)
    (reads : quad.readsAssigned running.table assigned) {name : String} {slot : Slot}
    (isRead : name ∈ quad.reads)
    (stored : running.table.Stores record.arity record.slots quad.scope name slot) :
    machine.cpu.memory.word (machine.cpu.address (slotOffset slot)) =
      (p.frame.get slot).toBitVec :=
  meets.holds.read stored.2 (meets.known emitted found reads isRead stored.1)

/-- A quadruple that takes a value through `%eax` leaves it there. -/
theorem Meets.leaves_value (meets : running.Meets start record assigned returned p machine)
    {name : String} {slot : Slot} {field : Field}
    (stored : running.table.Stores record.arity record.slots quad.scope name slot)
    (passing : quad.passing? = some field) (named : quad.field? field = some (.name name)) :
    quad.leaves running.table p.frame machine.cpu.eax = (p.frame.get slot).toBitVec := by
  unfold Quad.leaves
  rw [Quad.passed?_eq passing named meets.holds.fits stored]
  rfl

/-- Behind a quadruple that writes nothing, the machine meets the run if memory was kept. -/
theorem Meets.behind (meets : running.Meets start record assigned returned p machine)
    (found : running.routine.body[p.pc]? = some quad)
    (same : quad.assignedAfter running.table assigned = assigned) {cpu : Cpu} {rip : Nat}
    (line : rip = running.function.line running.table start (p.pc + 1))
    (kept : machine.cpu.Kept cpu) {returned' : Bool}
    (done : returned' = true →
      cpu.eax = p.accumulator.toBitVec ∧ running.routine.body.size ≤ p.pc + 1 + 1) :
    running.Meets start record (quad.assignedAfter running.table assigned) returned'
      { p with pc := p.pc + 1 } ⟨rip, cpu⟩ where
  line := line
  slots := meets.slots
  holds := same.symm ▸ meets.holds.keep kept
  done := done
  supplied := fun _ _ _ _ _ member isSlot => meets.supplied_next found member isSlot

section Following

variable {name : String} {slot : Slot} {scope : ScopeId} {label : Label} {target : Nat}

/-- A pushed argument is on top of the stack. -/
theorem Meets.proceed_param (meets : running.Meets start record assigned returned p machine)
    (emitted : running.Emitted functions lines record.arity exit start)
    (found : running.routine.body[p.pc]? = some (.param name scope))
    (reads : (Quad.param name scope).readsAssigned running.table assigned)
    (room : 8 ≤ machine.cpu.rsp.toNat)
    (stored : running.table.Stores record.arity record.slots scope name slot) :
    running.Follows lines start record assigned returned (.param name scope)
      { p with pc := p.pc + 1, pushed := p.frame.get slot :: p.pushed } machine := by
  obtain ⟨cpu, executed, rbp, rsp, eax, memory⟩ :=
    Cpu.executes_param (meets.read emitted found reads List.mem_cons_self stored)
  have holds := meets.holds.push room _ rbp rsp memory
  obtain ⟨machine', isCpu, reaches, meets'⟩ :=
    meets.next (q := { p with pc := p.pc + 1, pushed := p.frame.get slot :: p.pushed }) emitted
      found rfl Opcode.noConfusion rfl (Assembly.quadLines_eq (Assembly.ofQuad_param stored))
      executed holds
  refine ⟨machine', reaches, meets', ?_, ?_⟩
  · have top := meets.holds.top
    have top' := holds.top
    rw [List.length_cons] at top'
    rw [isCpu]
    omega
  · rw [isCpu, eax, meets.leaves_value stored rfl rfl]

/-- A return reads its value into `%eax` and jumps to the exit. -/
theorem Meets.proceed_ret (meets : running.Meets start record assigned returned p machine)
    (emitted : running.Emitted functions lines record.arity exit start)
    (found : running.routine.body[p.pc]? = some (.ret exit name scope))
    (reads : (Quad.ret exit name scope).readsAssigned running.table assigned)
    (stored : running.table.Stores record.arity record.slots scope name slot)
    (isTarget : lastTarget? exit running.routine.targets = some target) :
    running.Follows lines start record assigned returned (.ret exit name scope)
      { p with pc := target, accumulator := p.frame.get slot } machine := by
  obtain ⟨cpu, executed, kept, eax, _⟩ :=
    Cpu.executes_read (meets.read emitted found reads List.mem_cons_self stored)
  obtain ⟨_, _, _, located⟩ := emitted.locate isTarget
  obtain ⟨present, _⟩ := emitted.assembled.quad_at found
  rw [Assembly.quadLines_eq (Assembly.ofQuad_ret exit stored), ← meets.line] at present
  have present' : OccursAt lines machine.rip
    (instructions [.movl (.frame (slotOffset slot)) (.register .eax)] ++
      [.instruction (.jmp exit)]) := present
  have reaches := Machine.reaches_instructions present'.left executed
  refine ⟨_, reaches.trans (.single (Machine.step?_jmp present'.right.head located)), ?_, ?_, ?_⟩
  · exact meets.jump emitted isTarget kept _ fun _ => ⟨eax, rfl⟩
  · rw [kept.rsp]
    exact Nat.le_add_right _ _
  · rw [meets.leaves_value stored rfl rfl]
    exact eax

/-- A mark takes a line, but nothing is executed there. -/
theorem Meets.proceed_mark (meets : running.Meets start record assigned returned p machine)
    (emitted : running.Emitted functions lines record.arity exit start)
    (found : running.routine.body[p.pc]? = some (.mark label scope)) :
    running.Follows lines start record assigned returned (.mark label scope)
      { p with pc := p.pc + 1 } machine := by
  obtain ⟨present, after⟩ := emitted.assembled.quad_at found
  rw [← meets.line] at present after
  refine ⟨⟨machine.rip + 1, machine.cpu⟩, .single (Machine.step?_symbol present.head rfl), ?_,
    Nat.le_add_right _ _, rfl⟩
  refine meets.behind found rfl after.symm ⟨rfl, rfl, rfl⟩ fun isReturned => ?_
  have before : returned = true := by simpa [Quad.mark] using isReturned
  obtain ⟨eax, last⟩ := meets.done before
  exact ⟨eax, Nat.le_succ_of_le last⟩

theorem Meets.proceed_jump (meets : running.Meets start record assigned returned p machine)
    (emitted : running.Emitted functions lines record.arity exit start)
    (found : running.routine.body[p.pc]? = some (.jump label scope))
    (isTarget : lastTarget? label running.routine.targets = some target) :
    running.Follows lines start record assigned returned (.jump label scope)
      { p with pc := target } machine := by
  obtain ⟨_, _, _, located⟩ := emitted.locate isTarget
  obtain ⟨present, _⟩ := emitted.assembled.quad_at found
  rw [← meets.line] at present
  obtain rfl := meets.not_returned emitted found rfl
  exact ⟨_, .single (Machine.step?_jmp present.head located),
    meets.jump emitted isTarget ⟨rfl, rfl, rfl⟩ _ nofun, Nat.le_add_right _ _, rfl⟩

/-- A condition is read and compared with zero; the machine is then at the jump. -/
theorem Meets.tests (meets : running.Meets start record assigned returned p machine)
    (emitted : running.Emitted functions lines record.arity exit start)
    (found : running.routine.body[p.pc]? = some (.jumpIfNot name label scope))
    (reads : (Quad.jumpIfNot name label scope).readsAssigned running.table assigned)
    (stored : running.table.Stores record.arity record.slots scope name slot) :
    ∃ middle : Machine, Machine.Reaches lines machine middle ∧ machine.cpu.Kept middle.cpu ∧
      middle.cpu.eax = (p.frame.get slot).toBitVec ∧
      middle.cpu.zero = some (decide (p.frame.get slot = 0)) ∧
      lines[middle.rip]? = some (.instruction (.je label)) ∧
      middle.rip + 1 = running.function.line running.table start (p.pc + 1) := by
  obtain ⟨cpu, executed, kept, eax, zero⟩ :=
    Cpu.executes_test (meets.read emitted found reads List.mem_cons_self stored)
  obtain ⟨present, after⟩ := emitted.assembled.quad_at found
  rw [Assembly.quadLines_eq (Assembly.ofQuad_jumpIfNot label stored), ← meets.line] at present after
  have present' : OccursAt lines machine.rip
    (instructions [.movl (.frame (slotOffset slot)) (.register .eax), .cmpl 0 .eax] ++
      [.instruction (.je label)]) := present
  exact ⟨_, Machine.reaches_instructions present'.left executed, kept, eax, zero,
    present'.right.head, after.symm⟩

theorem Meets.proceed_jumpIfNot_zero
    (meets : running.Meets start record assigned returned p machine)
    (emitted : running.Emitted functions lines record.arity exit start)
    (found : running.routine.body[p.pc]? = some (.jumpIfNot name label scope))
    (reads : (Quad.jumpIfNot name label scope).readsAssigned running.table assigned)
    (stored : running.table.Stores record.arity record.slots scope name slot)
    (isZero : p.frame.get slot = 0)
    (isTarget : lastTarget? label running.routine.targets = some target) :
    running.Follows lines start record assigned returned (.jumpIfNot name label scope)
      { p with pc := target } machine := by
  obtain ⟨middle, reaches, kept, eax, zero, present, _⟩ := meets.tests emitted found reads stored
  obtain ⟨_, _, _, located⟩ := emitted.locate isTarget
  rw [decide_eq_true isZero] at zero
  obtain rfl := meets.not_returned emitted found rfl
  refine ⟨_, reaches.trans (.single (Machine.step?_je_true present zero located)),
    meets.jump emitted isTarget kept _ nofun, ?_, ?_⟩
  · rw [kept.rsp]
    exact Nat.le_add_right _ _
  · rw [meets.leaves_value stored rfl rfl]
    exact eax

theorem Meets.proceed_jumpIfNot_nonzero
    (meets : running.Meets start record assigned returned p machine)
    (emitted : running.Emitted functions lines record.arity exit start)
    (found : running.routine.body[p.pc]? = some (.jumpIfNot name label scope))
    (reads : (Quad.jumpIfNot name label scope).readsAssigned running.table assigned)
    (stored : running.table.Stores record.arity record.slots scope name slot)
    (nonzero : p.frame.get slot ≠ 0) :
    running.Follows lines start record assigned returned (.jumpIfNot name label scope)
      { p with pc := p.pc + 1 } machine := by
  obtain ⟨middle, reaches, kept, eax, zero, present, after⟩ :=
    meets.tests emitted found reads stored
  rw [decide_eq_false nonzero] at zero
  obtain rfl := meets.not_returned emitted found rfl
  refine ⟨_, reaches.trans (.single (Machine.step?_je_false present zero)),
    meets.behind found rfl after kept nofun, ?_, ?_⟩
  · rw [kept.rsp]
    exact Nat.le_add_right _ _
  · rw [meets.leaves_value stored rfl rfl]
    exact eax

end Following

/-- The machine follows a quadruple that goes on in the same activation. -/
theorem Meets.proceed (meets : running.Meets start record assigned returned p machine)
    (emitted : running.Emitted functions lines record.arity exit start)
    (found : running.routine.body[p.pc]? = some quad)
    (reads : quad.readsAssigned running.table assigned) (room : 8 ≤ machine.cpu.rsp.toNat)
    (stepped : running.routine.step running.table { p with pc := p.pc + 1 } quad =
      .ok (.proceed q)) :
    running.Follows lines start record assigned returned quad q machine := by
  have fits := meets.holds.fits
  cases meets.resolved emitted found with
  | load value stored =>
    rw [step_load fits value stored] at stepped
    cases stepped
    obtain ⟨cpu, executed, wrote, kept⟩ := Cpu.executes_load value (slotOffset _)
    exact meets.write emitted found rfl Opcode.noConfusion rfl stored
      (Assembly.quadLines_eq (Assembly.ofQuad_load value stored)) executed wrote kept
  | assign stored stored' =>
    rw [step_assign fits stored stored'] at stepped
    cases stepped
    exact meets.pass emitted found rfl rfl rfl rfl stored'
      (Assembly.quadLines_eq (Assembly.ofQuad_assign stored stored'))
      (Cpu.executes_assign (meets.read emitted found reads List.mem_cons_self stored) _)
  | unary op stored stored' =>
    rw [step_unary fits op stored stored'] at stepped
    cases stepped
    have isRead := meets.read emitted found reads
      (by rw [Node.reads_unary]; exact List.mem_cons_self) stored
    exact meets.pass emitted found (Node.marked?_unary ..) (by cases op <;> rfl) rfl
      (Node.written?_unary ..) stored'
      (Assembly.quadLines_eq (Assembly.ofQuad_unary op stored stored'))
      (Cpu.executes_unary op isRead _)
  | binary op stored stored' stored'' =>
    rw [step_binary fits op stored stored' stored''] at stepped
    split at stepped
    · next value computed =>
      cases stepped
      have isRead := meets.read emitted found reads
        (by rw [Node.reads_binary]; exact List.mem_cons_self) stored
      have isRead' := meets.read emitted found reads
        (by rw [Node.reads_binary]; exact List.mem_cons_of_mem _ List.mem_cons_self) stored'
      exact meets.pass emitted found (Node.marked?_binary ..) (by cases op <;> rfl) rfl
        (Node.written?_binary ..) stored''
        (Assembly.quadLines_eq (Assembly.ofQuad_binary op stored stored' stored''))
        (Cpu.executes_binary op isRead isRead' computed _)
    · cases stepped
  | param stored =>
    rw [step_param fits stored] at stepped
    cases stepped
    exact meets.proceed_param emitted found reads room stored
  | call isKnown stored =>
    simp only [Routine.step, Quad.call, Quad.name, Quad.count, Quad.field?, ok_bind] at stepped
    split at stepped <;> cases stepped
  | ret stored =>
    rw [step_ret fits exit stored] at stepped
    split at stepped
    · next target isTarget =>
      cases stepped
      exact meets.proceed_ret emitted found reads stored isTarget
    · cases stepped
  | mark label scope =>
    cases stepped
    exact meets.proceed_mark emitted found
  | jump label scope =>
    rw [step_jump] at stepped
    split at stepped
    · next target isTarget =>
      cases stepped
      exact meets.proceed_jump emitted found isTarget
    · cases stepped
  | jumpIfNot label stored =>
    rw [step_jumpIfNot fits label stored] at stepped
    split at stepped
    · next isZero =>
      split at stepped
      · next target isTarget =>
        cases stepped
        exact meets.proceed_jumpIfNot_zero emitted found reads stored isZero isTarget
      · cases stepped
    · next nonzero =>
      cases stepped
      exact meets.proceed_jumpIfNot_nonzero emitted found reads stored nonzero

/-- Where a division has no result, the machine comes to an `idivl` that raises an error. -/
theorem Meets.fault_div (meets : running.Meets start record assigned returned p machine)
    (emitted : running.Emitted functions lines record.arity exit start)
    {lhs rhs result : String} {scope : ScopeId} {slot slot' slot'' : Slot}
    (found : running.routine.body[p.pc]? = some (.binary .div lhs rhs result scope))
    (reads : (Quad.binary .div lhs rhs result scope).readsAssigned running.table assigned)
    (stored : running.table.Stores record.arity record.slots scope lhs slot)
    (stored' : running.table.Stores record.arity record.slots scope rhs slot')
    (stored'' : running.table.Stores record.arity record.slots scope result slot'')
    (faulty : BinaryOp.div.compute? (p.frame.get slot) (p.frame.get slot') = none) :
    ∃ last, Machine.Reaches lines machine last ∧ Machine.Faults lines last := by
  obtain ⟨cpu, executed, _, isDividend, isDivisor⟩ := Cpu.executes_dividend
    (meets.read emitted found reads List.mem_cons_self stored)
    (meets.read emitted found reads (List.mem_cons_of_mem _ List.mem_cons_self) stored')
  obtain ⟨present, _⟩ := emitted.assembled.quad_at found
  rw [Assembly.quadLines_eq (Assembly.ofQuad_binary .div stored stored' stored''),
    ← meets.line] at present
  have present' : OccursAt lines machine.rip
    (instructions [.movl (.frame (slotOffset slot)) (.register .eax), .cltd,
      .movl (.frame (slotOffset slot')) (.register .ecx)] ++
      instructions [.idivl .ecx, .movl (.register .eax) (.frame (slotOffset slot''))]) := present
  refine ⟨_, Machine.reaches_instructions present'.left executed, .ecx, _,
    present'.right.head, rfl, ?_⟩
  rw [isDivisor]
  exact Cpu.divide?_of_fault isDividend faulty

/-- A quadruple without a result is a division, and the machine comes to one that raises an error. -/
theorem Meets.fault (meets : running.Meets start record assigned returned p machine)
    (emitted : running.Emitted functions lines record.arity exit start)
    (found : running.routine.body[p.pc]? = some quad)
    (reads : quad.readsAssigned running.table assigned) {lhs rhs : Int32} {name : String}
    (stepped : running.routine.step running.table { p with pc := p.pc + 1 } quad =
      .error (.evaluation (.divisionFault lhs rhs name))) :
    ∃ last, Machine.Reaches lines machine last ∧ Machine.Faults lines last := by
  cases stepKind_of_resolved meets.holds.fits (meets.resolved emitted found) with
  | proceeds proceeds => cases proceeds.symm.trans stepped
  | strays strays => cases strays.symm.trans stepped
  | calls isKnown stored =>
    simp only [Routine.step, Quad.call, Quad.name, Quad.count, Quad.field?, ok_bind] at stepped
    split at stepped <;> cases stepped
  | divides stored stored' stored'' faulty =>
    exact meets.fault_div emitted found reads stored stored' stored'' faulty

end Running

end MiniC
