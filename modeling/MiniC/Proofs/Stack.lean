import MiniC.Proofs.Assigned
import MiniC.Proofs.Execution

/-!
# Activations on the stack

Where the slots of an activation lie in memory. From the stack pointer upwards there are the pushed
arguments, the variables, the frame pointer of the caller, the return address and the parameters. No
two of these overlap, so that writing one of them keeps the others, and so does everything that only
touches memory below the stack pointer.

A variable is only known to be in memory once it was assigned.
-/

namespace MiniC

open Assembly (slotOffset frameSize)

/-- The address of a slot, where the frame pointer is `base`. -/
def slotAddress (base : Nat) : Slot → Nat
  | .parameter index => base + 16 + 8 * index
  | .localVariable index => base - 4 * (index + 1)

theorem le_frameSize (slots : Nat) : 4 * slots ≤ frameSize slots := by
  simp only [frameSize, Ty.size]
  omega

theorem slotAddress_inside {arity slots base : Nat} {slot : Slot} (within : slot.Within arity slots)
    (low : frameSize slots ≤ base) : base - frameSize slots ≤ slotAddress base slot ∧
      slotAddress base slot + 4 ≤ base + 16 + 8 * arity := by
  have le := le_frameSize slots
  cases slot with
  | parameter index =>
    simp only [Slot.Within] at within
    simp only [slotAddress]
    omega
  | localVariable index =>
    simp only [Slot.Within] at within
    simp only [slotAddress]
    omega

/-- No slot overlaps the saved frame pointer and the return address. -/
theorem slotAddress_apart_linkage {arity slots base : Nat} {slot : Slot}
    (within : slot.Within arity slots) (low : frameSize slots ≤ base) :
    slotAddress base slot + 4 ≤ base ∨ base + 16 ≤ slotAddress base slot := by
  have le := le_frameSize slots
  cases slot with
  | parameter index =>
    simp only [slotAddress]
    omega
  | localVariable index =>
    simp only [Slot.Within] at within
    simp only [slotAddress]
    omega

/-- Different slots do not overlap. -/
theorem slotAddress_apart {arity slots base : Nat} {slot other : Slot}
    (within : slot.Within arity slots) (within' : other.Within arity slots)
    (low : frameSize slots ≤ base) (apart : other ≠ slot) :
    slotAddress base other + 4 ≤ slotAddress base slot ∨
      slotAddress base slot + 4 ≤ slotAddress base other := by
  have le := le_frameSize slots
  cases slot with
  | parameter index =>
    cases other with
    | parameter index' =>
      have ne : index' ≠ index := fun same => apart (congrArg Slot.parameter same)
      simp only [slotAddress]
      omega
    | localVariable index' =>
      simp only [Slot.Within] at within'
      simp only [slotAddress]
      omega
  | localVariable index =>
    cases other with
    | parameter index' =>
      simp only [Slot.Within] at within
      simp only [slotAddress]
      omega
    | localVariable index' =>
      have ne : index' ≠ index := fun same => apart (congrArg Slot.localVariable same)
      simp only [Slot.Within] at within within'
      simp only [slotAddress]
      omega

/-- The operand of an instruction that names a slot has the address of the slot. -/
theorem Cpu.address_slotOffset {cpu : Cpu} {arity slots base : Nat} {slot : Slot}
    (within : slot.Within arity slots) (isBase : cpu.rbp.toNat = base)
    (low : frameSize slots ≤ base) (high : base + 16 + 8 * arity ≤ memorySize) :
    cpu.address (slotOffset slot) = slotAddress base slot := by
  have le := le_frameSize slots
  unfold Cpu.address
  rw [BitVec.toNat_add, isBase, BitVec.toNat_ofInt]
  unfold memorySize at high
  cases slot with
  | parameter index =>
    simp only [Slot.Within] at within
    simp only [slotOffset, Assembly.argumentSize, Assembly.linkageSize, slotAddress]
    omega
  | localVariable index =>
    simp only [Slot.Within] at within
    simp only [slotOffset, Ty.size, slotAddress]
    omega

/-- The stack pointer goes down by one slot. -/
theorem toNat_push {rsp : BitVec 64} (room : 8 ≤ rsp.toNat) : (rsp - 8).toNat = rsp.toNat - 8 := by
  have lt := rsp.isLt
  rw [BitVec.toNat_sub]
  simp only [BitVec.ofNat_eq_ofNat, BitVec.toNat_ofNat]
  omega

/-! ## Records -/

/-- Where an activation lies on the stack, and what it has to leave as it was. -/
structure Record where
  arity : Nat
  slots : Nat
  /-- The frame pointer. -/
  base : Nat
  /-- The frame pointer of the caller. -/
  caller : BitVec 64
  /-- The return address. -/
  back : BitVec 64
  /-- Memory when the function was called. -/
  before : Memory

/-- The stack holds the frame of an activation and the arguments that it pushed. -/
structure Record.Holds (record : Record) (assigned : List Nat) (frame : Activation)
    (pushed : List Int32) (cpu : Cpu) : Prop where
  fits : frame.Fits record.arity record.slots
  base : cpu.rbp.toNat = record.base
  top : cpu.rsp.toNat + 8 * pushed.length + frameSize record.slots = record.base
  inside : record.base + 16 + 8 * record.arity ≤ memorySize
  slots : ∀ {slot : Slot}, slot.Within record.arity record.slots → slot.Known assigned →
    cpu.memory.word (slotAddress record.base slot) = (frame.get slot).toBitVec
  pushed : ∀ {index : Nat} {value : Int32}, pushed[index]? = some value →
    cpu.memory.word (cpu.rsp.toNat + 8 * index) = value.toBitVec
  caller : cpu.memory.wide record.base = record.caller
  back : cpu.memory.wide (record.base + 8) = record.back
  outside : ∀ place, record.base + 16 + 8 * record.arity ≤ place → place < memorySize →
    cpu.memory.byte place = record.before.byte place

namespace Record.Holds

variable {record : Record} {assigned : List Nat} {frame : Activation} {pushed : List Int32}
  {cpu cpu' : Cpu} {slot : Slot}

theorem low (holds : record.Holds assigned frame pushed cpu) :
    frameSize record.slots ≤ record.base := by
  have top := holds.top
  omega

theorem address_eq (holds : record.Holds assigned frame pushed cpu)
    (within : slot.Within record.arity record.slots) :
    cpu.address (slotOffset slot) = slotAddress record.base slot :=
  Cpu.address_slotOffset within holds.base holds.low holds.inside

/-- The value of a known slot is read. -/
theorem read (holds : record.Holds assigned frame pushed cpu)
    (within : slot.Within record.arity record.slots) (known : slot.Known assigned) :
    cpu.memory.word (cpu.address (slotOffset slot)) = (frame.get slot).toBitVec := by
  rw [holds.address_eq within]
  exact holds.slots within known

/-- Registers other than the two pointers do not matter. -/
theorem keep (holds : record.Holds assigned frame pushed cpu) (kept : cpu.Kept cpu') :
    record.Holds assigned frame pushed cpu' where
  fits := holds.fits
  base := by rw [kept.rbp]; exact holds.base
  top := by rw [kept.rsp]; exact holds.top
  inside := holds.inside
  slots := by rw [kept.memory]; exact holds.slots
  pushed := by rw [kept.memory, kept.rsp]; exact holds.pushed
  caller := by rw [kept.memory]; exact holds.caller
  back := by rw [kept.memory]; exact holds.back
  outside := by rw [kept.memory]; exact holds.outside

/-- Writing a slot puts a value into it and keeps all else. -/
theorem write (holds : record.Holds assigned frame pushed cpu)
    (within : slot.Within record.arity record.slots) {value : Int32}
    (wrote : cpu.Wrote (cpu.address (slotOffset slot)) value.toBitVec cpu') :
    record.Holds (slot.assign assigned) (frame.put slot value) pushed cpu' := by
  obtain ⟨rbp, rsp, memory⟩ := wrote
  rw [holds.address_eq within] at memory
  have low := holds.low
  have top := holds.top
  have inside := holds.inside
  have bounds := slotAddress_inside within low
  have linkage := slotAddress_apart_linkage within low
  have inMemory : slotAddress record.base slot + 4 ≤ memorySize := by omega
  refine ⟨holds.fits.put slot value, by rw [rbp]; exact holds.base, by rw [rsp]; exact top, inside,
    ?_, ?_, ?_, ?_, ?_⟩
  · intro other within' known
    rw [memory, Activation.get_put holds.fits within]
    by_cases same : other = slot
    · rw [same, if_pos rfl]
      exact Memory.word_setWord _ inMemory
    · rw [if_neg same, ← holds.slots within' (known.of_assign same)]
      have bounds' := slotAddress_inside within' low
      have apart := slotAddress_apart within within' low same
      exact congrArg (BitVec.ofNat 32) (Memory.load_store_of_apart inMemory (by omega) apart)
  · intro index argument found
    have lt := (List.getElem?_eq_some_iff.1 found).1
    rw [memory, rsp, ← holds.pushed found]
    exact congrArg (BitVec.ofNat 32) (Memory.load_store_of_apart inMemory (by omega) (by omega))
  · rw [memory, ← holds.caller]
    exact congrArg (BitVec.ofNat 64) (Memory.load_store_of_apart inMemory (by omega) (by omega))
  · rw [memory, ← holds.back]
    exact congrArg (BitVec.ofNat 64) (Memory.load_store_of_apart inMemory (by omega) (by omega))
  · intro place above lt
    rw [memory, ← holds.outside place above lt]
    exact Memory.byte_store_of_apart inMemory lt (by omega)

/-- The stack pointer goes up past arguments, and memory from there on is the same. -/
theorem release (holds : record.Holds assigned frame pushed cpu) {count : Nat}
    (le : count ≤ pushed.length) (rbp : cpu'.rbp = cpu.rbp)
    (rsp : cpu'.rsp.toNat = cpu.rsp.toNat + 8 * count)
    (same : ∀ place, cpu.rsp.toNat + 8 * count ≤ place → place < memorySize →
      cpu'.memory.byte place = cpu.memory.byte place) :
    record.Holds assigned frame (pushed.drop count) cpu' := by
  have low := holds.low
  have top := holds.top
  have inside := holds.inside
  have loads (address size : Nat) (above : cpu.rsp.toNat + 8 * count ≤ address)
      (fits : address + size ≤ memorySize) :
      cpu'.memory.load address size = cpu.memory.load address size :=
    Memory.load_congr fun place le lt => same place (by omega) (by omega)
  refine ⟨holds.fits, by rw [rbp]; exact holds.base, ?_, inside, ?_, ?_, ?_, ?_, ?_⟩
  · rw [List.length_drop]
    omega
  · intro slot within known
    have bounds := slotAddress_inside within low
    rw [← holds.slots within known]
    exact congrArg (BitVec.ofNat 32) (loads _ 4 (by omega) (by omega))
  · intro index argument found
    rw [List.getElem?_drop] at found
    have lt := (List.getElem?_eq_some_iff.1 found).1
    rw [← holds.pushed found, rsp, Nat.mul_add, Nat.add_assoc]
    exact congrArg (BitVec.ofNat 32) (loads _ 4 (by omega) (by omega))
  · rw [← holds.caller]
    exact congrArg (BitVec.ofNat 64) (loads _ 8 (by omega) (by omega))
  · rw [← holds.back]
    exact congrArg (BitVec.ofNat 64) (loads _ 8 (by omega) (by omega))
  · intro place above lt
    rw [← holds.outside place above lt]
    exact same place (by omega) lt

/-- An argument is pushed below what is there. -/
theorem push (holds : record.Holds assigned frame pushed cpu) (room : 8 ≤ cpu.rsp.toNat)
    (value : Int32) (rbp : cpu'.rbp = cpu.rbp) (rsp : cpu'.rsp = cpu.rsp - 8)
    (memory : cpu'.memory =
      cpu.memory.setWide (cpu.rsp - 8).toNat (value.toBitVec.setWidth 64)) :
    record.Holds assigned frame (value :: pushed) cpu' := by
  have low := holds.low
  have top := holds.top
  have inside := holds.inside
  have down := toNat_push room
  have inMemory : cpu.rsp.toNat - 8 + 8 ≤ memorySize := by omega
  rw [down] at memory
  have loads (address size : Nat) (above : cpu.rsp.toNat ≤ address)
      (fits : address + size ≤ memorySize) :
      cpu'.memory.load address size = cpu.memory.load address size := by
    rw [memory]
    exact Memory.load_store_of_apart inMemory fits (by omega)
  refine ⟨holds.fits, by rw [rbp]; exact holds.base, ?_, inside, ?_, ?_, ?_, ?_, ?_⟩
  · rw [rsp, down, List.length_cons]
    omega
  · intro slot within known
    have bounds := slotAddress_inside within low
    rw [← holds.slots within known]
    exact congrArg (BitVec.ofNat 32) (loads _ 4 (by omega) (by omega))
  · intro index argument found
    rw [rsp, down]
    cases index with
    | zero =>
      cases found
      rw [memory, Nat.mul_zero, Nat.add_zero, Memory.word_setWide _ inMemory, Cpu.setWidth_low]
    | succ index =>
      have found' : pushed[index]? = some argument := found
      have lt := (List.getElem?_eq_some_iff.1 found').1
      rw [← holds.pushed found', show cpu.rsp.toNat - 8 + 8 * (index + 1) = cpu.rsp.toNat + 8 * index by
        omega]
      exact congrArg (BitVec.ofNat 32) (loads _ 4 (by omega) (by omega))
  · rw [← holds.caller]
    exact congrArg (BitVec.ofNat 64) (loads _ 8 (by omega) (by omega))
  · rw [← holds.back]
    exact congrArg (BitVec.ofNat 64) (loads _ 8 (by omega) (by omega))
  · intro place above lt
    rw [← holds.outside place above lt, memory]
    exact Memory.byte_store_of_apart inMemory lt (by omega)

end Record.Holds
end MiniC
