import MiniC.Proofs.Realization

/-!
# Calls on the machine

A call of a function is realized by its lines. At the entry the arguments are on the stack, above the
return address; the prologue makes room for the variables, the lines of the body follow the run, and
the epilogue leaves the stack as it was. The calls that are made on the way lie below: all that they
change is memory below the stack pointer.
-/

namespace MiniC

open Assembly (Line Instruction instructions quadLines slotCount slotOffset frameSize locate?)

/-- The machine is at the entry of a function, with the return address on top of the stack and the
arguments above it, the first one lowest. -/
structure Machine.Called (lines : List Line) (function : String) (arguments : List Int32)
    (machine : Machine) : Prop where
  entry : locate? lines function = some machine.rip
  inside : machine.cpu.rsp.toNat + 8 + 8 * arguments.length ≤ memorySize
  arguments : ∀ {index : Nat} {value : Int32}, arguments[index]? = some value →
    machine.cpu.memory.word (machine.cpu.rsp.toNat + 8 + 8 * index) = value.toBitVec

/-- The machine is back at the return address of a call, with the value in `%eax`, both pointers
restored, and memory above the `count` arguments as it was. -/
structure Machine.Returned (machine : Machine) (count : Nat) (value : Int32) (last : Machine) :
    Prop where
  back : last.rip = machine.cpu.top.toNat
  eax : last.cpu.eax = value.toBitVec
  rsp : last.cpu.rsp = machine.cpu.rsp + 8
  rbp : last.cpu.rbp = machine.cpu.rbp
  memory : ∀ place, machine.cpu.rsp.toNat + 8 + 8 * count ≤ place → place < memorySize →
    last.cpu.memory.byte place = machine.cpu.memory.byte place

/-- Where the activation of a function lies that the machine is at the entry of. -/
def Machine.record (machine : Machine) (arity slots : Nat) : Record where
  arity := arity
  slots := slots
  base := machine.cpu.rsp.toNat - 8
  caller := machine.cpu.rbp
  back := machine.cpu.top
  before := machine.cpu.memory

/-! ## Back from a call -/

namespace Machine.Returned

variable {machine last : Machine} {target count : Nat} {back : BitVec 64} {value : Int32}

/-- The stack pointer is where it was before the return address was pushed. -/
theorem rsp_eq (isBack : Returned ⟨target, machine.cpu.push back⟩ count value last) :
    last.cpu.rsp = machine.cpu.rsp := by
  rw [isBack.rsp]
  show machine.cpu.rsp - 8 + 8 = _
  exact BitVec.sub_add_cancel _ _

/-- The machine is at the line behind the call. -/
theorem rip_eq (isBack : Returned
      ⟨target, machine.cpu.push (BitVec.ofNat 64 (machine.rip + 1))⟩ count value last)
    (room : 8 ≤ machine.cpu.rsp.toNat) (inside : machine.cpu.rsp.toNat ≤ memorySize)
    (short : machine.rip + 1 < memorySize) : last.rip = machine.rip + 1 := by
  have isTop : (machine.cpu.push (BitVec.ofNat 64 (machine.rip + 1))).top =
      BitVec.ofNat 64 (machine.rip + 1) := by
    refine Memory.wide_setWide _ ?_
    rw [toNat_push room, Nat.sub_add_cancel room]
    exact inside
  rw [isBack.back, isTop, BitVec.toNat_ofNat]
  unfold memorySize at short
  omega

/-- Above the arguments, memory is as it was before the call. -/
theorem byte_eq (isBack : Returned ⟨target, machine.cpu.push back⟩ count value last)
    (room : 8 ≤ machine.cpu.rsp.toNat) (inside : machine.cpu.rsp.toNat ≤ memorySize) {place : Nat}
    (above : machine.cpu.rsp.toNat + 8 * count ≤ place) (lt : place < memorySize) :
    last.cpu.memory.byte place = machine.cpu.memory.byte place := by
  have down := toNat_push room
  have kept := isBack.memory place (by
    show (machine.cpu.rsp - 8).toNat + 8 + 8 * count ≤ place
    omega) lt
  rw [kept]
  refine Memory.byte_store_of_apart ?_ lt (.inr ?_) <;> rw [down] <;> omega

end Machine.Returned

/-- Arguments are dropped from the stack. Without any, there is no instruction for it. -/
theorem Cpu.executes_drop {cpu : Cpu} {count : Nat}
    (inside : cpu.rsp.toNat + 8 * count < memorySize) :
    ∃ cpu', cpu.executeAll? (if count = 0 then []
        else [.addq (count * Assembly.argumentSize) .rsp]) = some cpu' ∧
      cpu'.rbp = cpu.rbp ∧ cpu'.rsp.toNat = cpu.rsp.toNat + 8 * count ∧
      cpu'.memory = cpu.memory ∧ cpu'.eax = cpu.eax := by
  by_cases none : count = 0
  · subst none
    exact ⟨_, rfl, rfl, rfl, rfl, rfl⟩
  · rw [if_neg none]
    refine ⟨_, rfl, rfl, ?_, rfl, rfl⟩
    show (cpu.rsp + BitVec.ofNat 64 (count * 8)).toNat = _
    unfold memorySize at inside
    rw [BitVec.toNat_add, BitVec.toNat_ofNat]
    omega

namespace Running

variable {running : Running} {functions : String → Option Nat} {lines : List Line} {arity : Nat}
  {exit : Label} {start : Nat} {record : Record} {assigned : List Nat} {returned : Bool}
  {p q : Progress} {machine : Machine} {quad : Quad}

/-- What a call asks for. -/
theorem Meets.call_eq (meets : running.Meets start record assigned returned p machine)
    (emitted : running.Emitted functions lines record.arity exit start)
    (found : running.routine.body[p.pc]? = some quad) {callee : String} {arguments : List Int32}
    (stepped : running.routine.step running.table { p with pc := p.pc + 1 } quad =
      .ok (.call callee arguments q)) :
    ∃ result scope slot pushed, quad = .call callee arguments.length result scope ∧
      functions callee = some arguments.length ∧
      running.table.Stores record.arity record.slots scope result slot ∧
      p.pushed = arguments ++ pushed ∧ q = { p with pc := p.pc + 1, pushed := pushed } := by
  cases stepKind_of_resolved meets.holds.fits (meets.resolved emitted found) with
  | proceeds proceeds => cases proceeds.symm.trans stepped
  | strays strays => cases strays.symm.trans stepped
  | divides stored stored' stored'' faulty =>
    have fits := meets.holds.fits
    rw [step_binary fits .div stored stored' stored'', faulty] at stepped
    cases stepped
  | @calls callee' result count scope slot isKnown stored =>
    simp only [Routine.step, Quad.call, Quad.name, Quad.count, Quad.field?, ok_bind] at stepped
    split at stepped
    · cases stepped
    · next enough =>
      cases stepped
      have length : (p.pushed.take count).length = count := by
        rw [List.length_take]
        exact Nat.min_eq_left (Nat.le_of_not_lt enough)
      exact ⟨result, scope, slot, p.pushed.drop count, by rw [length], by rw [length]; exact isKnown,
        stored, (List.take_append_drop ..).symm, rfl⟩

section Call

variable {callee result : String} {scope : ScopeId} {slot : Slot} {arguments pushed : List Int32}
  {target : Nat}

/-- The arguments of a call are where the callee finds them. -/
theorem Meets.called (meets : running.Meets start record assigned returned p machine)
    (room : 8 ≤ machine.cpu.rsp.toNat) (given : p.pushed = arguments ++ pushed)
    (located : locate? lines callee = some target) (back : BitVec 64) :
    Machine.Called lines callee arguments ⟨target, machine.cpu.push back⟩ := by
  have top := meets.holds.top
  have inside := meets.holds.inside
  have down := toNat_push room
  rw [given, List.length_append] at top
  refine ⟨located, ?_, ?_⟩
  · show (machine.cpu.rsp - 8).toNat + 8 + 8 * arguments.length ≤ memorySize
    omega
  · intro index value isArgument
    have lt := (List.getElem?_eq_some_iff.1 isArgument).1
    have isPushed : p.pushed[index]? = some value := by
      rw [given, List.getElem?_append_left lt]
      exact isArgument
    rw [← meets.holds.pushed isPushed]
    show ((machine.cpu.memory.setWide (machine.cpu.rsp - 8).toNat back)).word
      ((machine.cpu.rsp - 8).toNat + 8 + 8 * index) = _
    rw [down, Nat.sub_add_cancel room]
    exact congrArg (BitVec.ofNat 32)
      (Memory.load_store_of_apart (by omega) (by omega) (by omega))

/-- After a call the arguments are dropped, and its value goes to the result. It stays in `%eax`. -/
theorem Meets.received (meets : running.Meets start record assigned returned p machine)
    (emitted : running.Emitted functions lines record.arity exit start)
    (found : running.routine.body[p.pc]? =
      some (.call callee arguments.length result scope))
    (isKnown : functions callee = some arguments.length)
    (stored : running.table.Stores record.arity record.slots scope result slot)
    (room : 8 ≤ machine.cpu.rsp.toNat) (short : lines.length < memorySize)
    (given : p.pushed = arguments ++ pushed) {value : Int32} {last : Machine}
    (isBack : Machine.Returned
      ⟨target, machine.cpu.push (BitVec.ofNat 64 (machine.rip + 1))⟩ arguments.length value last) :
    ∃ machine', Machine.Reaches lines last machine' ∧
      running.Meets start record
        ((Quad.call callee arguments.length result scope).assignedAfter running.table assigned)
        returned ⟨p.pc + 1, value, pushed, p.frame.put slot value⟩ machine' ∧
      machine.cpu.rsp.toNat ≤ machine'.cpu.rsp.toNat ∧ machine'.cpu.eax = value.toBitVec := by
  have inside := meets.holds.inside
  have top := meets.holds.top
  rw [given, List.length_append] at top
  have inMemory : machine.cpu.rsp.toNat + 8 * arguments.length < memorySize := by omega
  obtain rfl := meets.not_returned emitted found rfl
  obtain ⟨present, after⟩ := emitted.assembled.quad_at found
  rw [Assembly.quadLines_eq (Assembly.ofQuad_call _ (emitted.known isKnown) stored),
    Assembly.callInstructions, ← meets.line] at present after
  have lt : machine.rip < lines.length := (List.getElem?_eq_some_iff.1 present.head).1
  have isLine := isBack.rip_eq room (by omega) (Nat.lt_of_le_of_lt lt short)
  have rsp := isBack.rsp_eq
  have room' : last.cpu.rsp.toNat + 8 * arguments.length < memorySize := by
    rw [rsp]
    exact inMemory
  obtain ⟨cpu, executed, rbp, rsp', memory, eax⟩ := Cpu.executes_drop room'
  generalize (if arguments.length = 0 then []
    else [Instruction.addq (arguments.length * Assembly.argumentSize) .rsp]) = list
    at present after executed
  rw [rsp] at rsp'
  have released : record.Holds assigned p.frame (p.pushed.drop arguments.length) cpu := by
    refine meets.holds.release ?_ ?_ rsp' ?_
    · rw [given, List.length_append]
      exact Nat.le_add_right _ _
    · rw [rbp, isBack.rbp]
      rfl
    · intro place above lt
      rw [memory]
      exact isBack.byte_eq room (by omega) above lt
  rw [given, List.drop_left] at released
  obtain ⟨cpu', executed', passed⟩ := Cpu.executes_write value.toBitVec
    (eax.trans isBack.eax) (slotOffset slot)
  have present' : OccursAt lines last.rip
      (instructions (list ++ [.movl (.register .eax) (.frame (slotOffset slot))])) := by
    rw [isLine]
    exact present.tail
  have reaches := Machine.reaches_instructions present' (Cpu.executeAll?_append executed executed')
  refine ⟨_, reaches, ⟨?_, meets.slots, ?_, nofun, ?_⟩, ?_, passed.eax⟩
  · show last.rip + _ = _
    rw [after, isLine]
    simp only [instructions, List.length_map, List.length_append, List.length_singleton]
    omega
  · rw [Quad.assignedAfter_eq rfl stored.1]
    exact released.write stored.2 passed.toWrote
  · intro quad' _ _ scope' name slot' member isSlot
    exact meets.supplied_next found member isSlot
  · show machine.cpu.rsp.toNat ≤ cpu'.rsp.toNat
    rw [passed.rsp, rsp']
    exact Nat.le_add_right _ _

end Call

/-- The machine follows a call, if it realizes the call from the entry of the callee. The call needs
a slot of the stack for the return address. -/
theorem Meets.call (meets : running.Meets start record assigned returned p machine)
    (emitted : running.Emitted functions lines record.arity exit start)
    (short : lines.length < memorySize) (found : running.routine.body[p.pc]? = some quad)
    {callee : String} {arguments : List Int32}
    (stepped : running.routine.step running.table { p with pc := p.pc + 1 } quad =
      .ok (.call callee arguments q))
    {floor : Nat} (room : floor + 8 ≤ machine.cpu.rsp.toNat) {result : Except Error Int32}
    (realizes : functions callee = some arguments.length → ∀ {machine : Machine},
      Machine.Called lines callee arguments machine → floor ≤ machine.cpu.rsp.toNat →
      Machine.Realizes lines machine result (machine.Returned arguments.length)) :
    Machine.Realizes lines machine result fun value machine' =>
      ∃ q', Routine.receive running.table q quad value = .ok q' ∧
        running.Meets start record (quad.assignedAfter running.table assigned) returned q' machine' ∧
        machine.cpu.rsp.toNat ≤ machine'.cpu.rsp.toNat ∧
        machine'.cpu.eax = quad.leaves running.table q'.frame machine.cpu.eax := by
  obtain ⟨destination, scope, slot, pushed, rfl, isKnown, stored, given, rfl⟩ :=
    meets.call_eq emitted found stepped
  obtain ⟨target, located⟩ := emitted.located isKnown
  obtain ⟨present, _⟩ := emitted.assembled.quad_at found
  rw [Assembly.quadLines_eq (Assembly.ofQuad_call _ (emitted.known isKnown) stored),
    ← meets.line] at present
  have calls : Machine.Reaches lines machine
      ⟨target, machine.cpu.push (BitVec.ofNat 64 (machine.rip + 1))⟩ :=
    .single (Machine.step?_call present.head located)
  have down : (machine.cpu.rsp - 8).toNat = machine.cpu.rsp.toNat - 8 := toNat_push (by omega)
  have realized := realizes isKnown (meets.called (by omega) given located
    (BitVec.ofNat 64 (machine.rip + 1))) (by
      show floor ≤ (machine.cpu.rsp - 8).toNat
      omega)
  cases result with
  | error error => exact calls.realizes realized.of_error
  | ok value =>
    obtain ⟨last, reaches, isBack⟩ := realized
    obtain ⟨machine', reaches', meets', up, eax⟩ :=
      meets.received emitted found isKnown stored (by omega) short given isBack
    refine ⟨machine', calls.trans (reaches.trans reaches'),
      ⟨p.pc + 1, value, pushed, p.frame.put slot value⟩, ?_, meets', up, ?_⟩
    · exact receive_call (p := { p with pc := p.pc + 1, pushed := pushed }) meets.holds.fits callee
        arguments.length value stored
    · unfold Quad.leaves
      rw [eax, Quad.passed?_put rfl rfl meets.holds.fits stored]
      rfl

/-! ## Prologue and epilogue -/

/-- Once the base pointer is saved and room is made for the variables, a fresh activation is laid
out, in which no variable is assigned. -/
theorem holds_of_called {rip : Nat} {cpu cpu' : Cpu} {function : String} {arguments : List Int32}
    {slots : Nat} (called : Machine.Called lines function arguments ⟨rip, cpu⟩)
    (room : 8 + frameSize slots ≤ cpu.rsp.toNat) (rbp : cpu'.rbp = cpu.rsp - 8)
    (rsp : cpu'.rsp.toNat = cpu.rsp.toNat - 8 - frameSize slots)
    (memory : cpu'.memory = cpu.memory.setWide (cpu.rsp - 8).toNat cpu.rbp) :
    (Machine.record ⟨rip, cpu⟩ arguments.length slots).Holds []
      ⟨arguments.toArray, Array.replicate slots 0⟩ [] cpu' := by
  have inside : cpu.rsp.toNat + 8 + 8 * arguments.length ≤ memorySize := called.inside
  have down : (cpu.rsp - 8).toNat = cpu.rsp.toNat - 8 := toNat_push (by omega)
  have inMemory : cpu.rsp.toNat - 8 + 8 ≤ memorySize := by omega
  rw [down] at memory
  have loads (address size : Nat) (above : cpu.rsp.toNat ≤ address)
      (fits : address + size ≤ memorySize) :
      cpu'.memory.load address size = cpu.memory.load address size := by
    rw [memory]
    exact Memory.load_store_of_apart inMemory fits (by omega)
  refine ⟨⟨rfl, Array.size_replicate⟩, ?_, ?_, ?_, ?_, ?_, ?_, ?_, ?_⟩
  · rw [rbp, down]
    rfl
  · show cpu'.rsp.toNat + 0 + frameSize slots = cpu.rsp.toNat - 8
    omega
  · show cpu.rsp.toNat - 8 + 16 + 8 * arguments.length ≤ memorySize
    omega
  · intro slot within known
    cases slot with
    | localVariable index => exact absurd known List.not_mem_nil
    | parameter index =>
      have lt : index < arguments.length := within
      have isArgument := List.getElem?_eq_getElem lt
      show cpu'.memory.word (cpu.rsp.toNat - 8 + 16 + 8 * index) =
        (arguments.toArray[index]?.getD 0).toBitVec
      rw [List.getElem?_toArray, isArgument, Option.getD_some, ← called.arguments isArgument,
        show cpu.rsp.toNat - 8 + 16 + 8 * index = cpu.rsp.toNat + 8 + 8 * index by omega]
      exact congrArg (BitVec.ofNat 32) (loads _ _ (by omega) (by omega))
  · intro index value found
    cases found
  · show cpu'.memory.wide (cpu.rsp.toNat - 8) = cpu.rbp
    rw [memory]
    exact Memory.wide_setWide _ inMemory
  · show cpu'.memory.wide (cpu.rsp.toNat - 8 + 8) = cpu.memory.wide cpu.rsp.toNat
    rw [Nat.sub_add_cancel (by omega)]
    exact congrArg (BitVec.ofNat 64) (loads _ _ (Nat.le_refl _) (by omega))
  · intro place above lt
    change cpu.rsp.toNat - 8 + 16 + 8 * arguments.length ≤ place at above
    rw [memory]
    exact Memory.byte_store_of_apart inMemory lt (by omega)

/-- The prologue lays out a fresh activation. It leaves `%eax`. -/
theorem Emitted.enters {arguments : List Int32}
    (emitted : running.Emitted functions lines arguments.length exit start)
    (called : Machine.Called lines running.routine.name arguments machine)
    (room : 8 + frameSize (slotCount running.table running.routine.name) ≤ machine.cpu.rsp.toNat) :
    ∃ machine', Machine.Reaches lines machine machine' ∧
      running.Meets start
        (machine.record arguments.length (slotCount running.table running.routine.name)) [] false
        ⟨0, 0, [], ⟨arguments.toArray,
          Array.replicate (slotCount running.table running.routine.name) 0⟩⟩ machine' ∧
      machine.cpu.rsp.toNat = machine'.cpu.rsp.toNat + 8 +
        frameSize (slotCount running.table running.routine.name) ∧
      machine'.cpu.eax = machine.cpu.eax := by
  generalize isSlots : slotCount running.table running.routine.name = slots at room ⊢
  obtain ⟨rip, cpu⟩ := machine
  have isStart : rip = start :=
    Option.some.inj (called.entry.symm.trans (emitted.assembled.locate_entry emitted.distinct))
  subst isStart
  change 8 + frameSize slots ≤ cpu.rsp.toNat at room
  have down : (cpu.rsp - 8 - BitVec.ofNat 64 (frameSize slots)).toNat =
      cpu.rsp.toNat - 8 - frameSize slots := by
    have lt := cpu.rsp.isLt
    rw [BitVec.toNat_sub, toNat_push (by omega), BitVec.toNat_ofNat]
    omega
  have present : OccursAt lines (rip + 1)
      (instructions [.pushq .rbp, .movq .rsp .rbp, .subq (frameSize slots) .rsp]) := by
    rw [← isSlots]
    exact emitted.assembled.prologue_at
  refine ⟨_, .step (Machine.step?_symbol emitted.assembled.entry_at rfl)
    (Machine.reaches_instructions present rfl),
    ⟨rfl, isSlots.symm, holds_of_called called room rfl down rfl, nofun, ?_⟩, ?_, rfl⟩
  · intro quad _ _ scope name slot member
    exact absurd member List.not_mem_nil
  · show cpu.rsp.toNat = (cpu.rsp - 8 - BitVec.ofNat 64 (frameSize slots)).toNat + 8 +
      frameSize slots
    omega

/-- The epilogue takes a run that is at its end back to the caller, with what is in `%eax`. -/
theorem Meets.leaves {origin : Machine} {slots : Nat}
    (meets : running.Meets start (origin.record arity slots) assigned returned p machine)
    (emitted : running.Emitted functions lines arity exit start)
    (atEnd : running.routine.body[p.pc]? = none) (room : 8 ≤ origin.cpu.rsp.toNat) {value : Int32}
    (eax : machine.cpu.eax = value.toBitVec) :
    ∃ last, Machine.Reaches lines machine last ∧ origin.Returned arity value last := by
  obtain ⟨rip, cpu⟩ := machine
  have base : cpu.rbp.toNat = origin.cpu.rsp.toNat - 8 := meets.holds.base
  have isBase : cpu.rbp = origin.cpu.rsp - 8 := by
    apply BitVec.eq_of_toNat_eq
    rw [base, toNat_push room]
  have isSecond : (cpu.rbp + 8).toNat = origin.cpu.rsp.toNat - 8 + 8 := by
    rw [isBase, show origin.cpu.rsp - 8 + 8 = origin.cpu.rsp from BitVec.sub_add_cancel _ _]
    omega
  have isLine : rip = running.function.line running.table start running.routine.body.size := by
    rw [show rip = _ from meets.line]
    unfold FunctionCode.line
    have past := Array.getElem?_eq_none_iff.1 atEnd
    rw [List.take_of_length_le (by rw [Array.length_toList]; exact past),
      List.take_of_length_le (by rw [Array.length_toList]; exact Nat.le_refl _)]
  have present := emitted.assembled.epilogue_at
  rw [show running.function.body.size = running.routine.body.size from rfl, ← isLine] at present
  have present' : OccursAt lines rip
    (instructions [.movq .rbp .rsp, .popq .rbp] ++ [.instruction .ret]) := present
  have executed : cpu.executeAll? [.movq .rbp .rsp, .popq .rbp] =
      some { cpu with rsp := cpu.rbp + 8, rbp := cpu.memory.wide cpu.rbp.toNat } := rfl
  refine ⟨_, (Machine.reaches_instructions present'.left executed).trans
    (.single (Machine.step?_ret present'.right.head)), ?_, ?_, ?_, ?_, ?_⟩
  · show (cpu.memory.wide (cpu.rbp + 8).toNat).toNat = origin.cpu.top.toNat
    rw [isSecond]
    exact congrArg BitVec.toNat meets.holds.back
  · -- Both processors differ in the stack pointer, which must not be compared here.
    dsimp only [Cpu.drop, Cpu.eax]
    exact eax
  · show cpu.rbp + 8 + 8 = origin.cpu.rsp + 8
    rw [isBase, show origin.cpu.rsp - 8 + 8 = origin.cpu.rsp from BitVec.sub_add_cancel _ _]
  · show cpu.memory.wide cpu.rbp.toNat = origin.cpu.rbp
    rw [base]
    exact meets.holds.caller
  · intro place above lt
    have above' : origin.cpu.rsp.toNat - 8 + 16 + 8 * arity ≤ place := by omega
    dsimp only [Cpu.drop]
    exact meets.holds.outside place above' lt

/-! ## Runs -/

/-- Behind the last quadruple the machine returns what is in the accumulator. -/
theorem Meets.run_ends {origin : Machine} {slots : Nat}
    (meets : running.Meets start (origin.record arity slots) assigned true p machine)
    (emitted : running.Emitted functions lines arity exit start)
    (atEnd : running.routine.body[p.pc]? = none) (apart : 8 ≤ origin.cpu.rsp.toNat) (steps : Nat) :
    Machine.Realizes lines machine (running.result (steps + 1) p) (origin.Returned arity) := by
  have isResult : running.result (steps + 1) p = .ok p.accumulator := by
    unfold Running.result
    rw [Routine.run, atEnd]
    rfl
  rw [isResult]
  exact meets.leaves emitted atEnd apart (meets.done rfl).1

/-- A quadruple that fails ends the run, and if it is a division, the machine raises an error. -/
theorem Meets.run_fails {error : Error} {good : Int32 → Machine → Prop}
    (meets : running.Meets start record assigned returned p machine)
    (emitted : running.Emitted functions lines record.arity exit start)
    (found : running.routine.body[p.pc]? = some quad)
    (reads : quad.readsAssigned running.table assigned)
    (stepped : running.routine.step running.table { p with pc := p.pc + 1 } quad = .error error) :
    Machine.Realizes lines machine (.error error) good := by
  unfold Machine.Realizes
  split
  · next isValue => cases isValue
  · next isFault =>
    cases isFault
    exact meets.fault emitted found reads stepped
  · trivial

/-- The machine follows a tidy run to its end. Every step leaves room for those that are left, above
the `floor` that the calls need. -/
theorem Meets.run {origin : Machine} {slots floor steps : Nat}
    {calleeIsTidy : String → List Int32 → Bool}
    (realizes : ∀ {callee : String} {arguments : List Int32} {machine : Machine},
      functions callee = some arguments.length → calleeIsTidy callee arguments →
      Machine.Called lines callee arguments machine → floor ≤ machine.cpu.rsp.toNat →
      Machine.Realizes lines machine (running.callee callee arguments).result
        (machine.Returned arguments.length))
    (emitted : running.Emitted functions lines arity exit start) (short : lines.length < memorySize)
    (apart : 8 ≤ origin.cpu.rsp.toNat)
    (meets : running.Meets start (origin.record arity slots) assigned returned p machine)
    (tidy : running.routine.isTidy running.table running.callee calleeIsTidy steps assigned returned p)
    (room : floor + 8 + 8 * steps ≤ machine.cpu.rsp.toNat) :
    Machine.Realizes lines machine (running.result steps p) (origin.Returned arity) := by
  induction steps generalizing assigned returned p machine with
  | zero => trivial
  | succ steps ih =>
    rw [Routine.isTidy] at tidy
    cases found : running.routine.body[p.pc]? with
    | none =>
      rw [found] at tidy
      change returned = true at tidy
      subst tidy
      exact meets.run_ends emitted found apart steps
    | some quad =>
      rw [found] at tidy
      dsimp only at tidy
      rw [Bool.and_eq_true] at tidy
      obtain ⟨reads, tidy⟩ := tidy
      rw [result_of_quad found]
      cases stepped : running.routine.step running.table { p with pc := p.pc + 1 } quad with
      | error error =>
        rw [error_bind]
        exact meets.run_fails emitted found reads stepped
      | ok action =>
        rw [stepped] at tidy
        rw [ok_bind]
        cases action with
        | proceed q =>
          obtain ⟨machine', reaches, meets', down, _⟩ :=
            meets.proceed emitted found reads (by omega) stepped
          exact reaches.realizes (ih meets' tidy (by omega))
        | call callee arguments q =>
          dsimp only at tidy
          rw [Bool.and_eq_true] at tidy
          obtain ⟨isTidy, tidy⟩ := tidy
          have realized := meets.call emitted short found stepped (by omega)
            fun isKnown _ called room => realizes isKnown isTidy called room
          dsimp only
          cases answer : (running.callee callee arguments).result with
          | error error =>
            rw [answer] at realized
            exact realized.of_error
          | ok value =>
            rw [answer] at realized tidy
            obtain ⟨machine', reaches, q', received, meets', up, _⟩ := realized
            dsimp only at tidy
            rw [received] at tidy
            rw [ok_bind, received, ok_bind]
            exact reaches.realizes (ih meets' tidy (by omega))

end Running

/-! ## Calls within calls -/

/-- A function of a listing is entered with a fresh activation. -/
theorem Listed.enter_eq {table : Table} {code : Code} {functions : String → Option Nat}
    {lines : List Line} (listed : Listed table code functions lines) {function : String}
    {arguments : List Int32} (known : functions function = some arguments.length) :
    ∃ body targets exit start,
      Assembled table functions lines arguments.length ⟨function, body⟩ exit start ∧
      labelTargets 0 body.toList = .ok targets ∧
      code.enter table function arguments = .ok (⟨function, body, targets⟩,
        ⟨0, 0, [], ⟨arguments.toArray, Array.replicate (slotCount table function) 0⟩⟩) := by
  obtain ⟨body, symbol, exit, start, isBody, holds, assembled⟩ := listed.assembled known
  obtain ⟨global, _, _, _, _, present, count, slots⟩ := holds
  obtain ⟨targets, collected⟩ := assembled.targets
  refine ⟨body, targets, exit, start, assembled, collected, ?_⟩
  unfold Code.enter
  rw [isBody]
  dsimp only
  rw [global]
  dsimp only
  rw [Table.parameters_of_function present, Table.locals_of_function present, ok_bind, count,
    if_neg (not_not.2 rfl)]
  simp only [ok_bind, collected, slots]
  rfl

/-- A run of a function that is listed is in the listing. -/
theorem Listed.emitted {table : Table} {code : Code} {functions : String → Option Nat}
    {lines : List Line} (listed : Listed table code functions lines) {running : Running}
    (isTable : running.table = table) {arity : Nat} {exit : Label} {start : Nat}
    (assembled : Assembled table functions lines arity running.function exit start)
    (targets : labelTargets 0 running.routine.body.toList = .ok running.routine.targets) :
    running.Emitted functions lines arity exit start := by
  subst isTable
  refine ⟨listed.distinct, listed.known, ?_, assembled, targets⟩
  intro callee count isKnown
  obtain ⟨_, _, _, target, _, _, assembled'⟩ := listed.assembled isKnown
  exact ⟨target, assembled'.locate_entry listed.distinct⟩

/-- A listing realizes the calls of its functions, where the stack has room for every activation. -/
theorem Listed.realizes {table : Table} {code : Code} {functions : String → Option Nat}
    {lines : List Line} (listed : Listed table code functions lines)
    (short : lines.length < memorySize) {steps size : Nat}
    (enough : ∀ {function : String} {arity : Nat}, functions function = some arity →
      16 + frameSize (slotCount table function) + 8 * steps ≤ size)
    {depth : Nat} {function : String} {arguments : List Int32} {machine : Machine}
    (known : functions function = some arguments.length)
    (tidy : code.isTidyWithin table steps depth function arguments)
    (called : machine.Called lines function arguments)
    (room : depth * size ≤ machine.cpu.rsp.toNat) :
    machine.Realizes lines (code.callWithin table steps depth function arguments).result
      (machine.Returned arguments.length) := by
  induction depth generalizing function arguments machine with
  | zero => trivial
  | succ depth ih =>
    obtain ⟨body, targets, exit, start, assembled, collected, entered⟩ := listed.enter_eq known
    have enough' := enough known
    rw [Nat.succ_mul] at room
    let running : Running :=
      ⟨⟨function, body, targets⟩, table, steps, code.callWithin table steps depth⟩
    have emitted : running.Emitted functions lines arguments.length exit start :=
      listed.emitted rfl assembled collected
    obtain ⟨machine', reaches, meets, down, _⟩ := emitted.enters called (by
      show 8 + frameSize (slotCount table function) ≤ _
      omega)
    rw [Code.isTidyWithin, entered] at tidy
    rw [Code.callWithin, Traced.result_bind, Traced.result_ofExcept, entered, ok_bind]
    change machine.cpu.rsp.toNat = machine'.cpu.rsp.toNat + 8 + frameSize (slotCount table function)
      at down
    exact reaches.realizes (meets.run ih emitted short (by omega) tidy (by omega))

end MiniC
