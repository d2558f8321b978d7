import MiniC.Proofs.Emitted
import MiniC.Proofs.Machine

/-!
# Executing the lines of a quadruple

The instructions of a quadruple read words of the frame, compute what the quadruple computes, and
write the result back. They leave the frame pointer and the stack pointer alone, and of memory they
change the place of the result only. Where the quadruple has no result, the division raises an
error.
-/

namespace MiniC

open Assembly (Line Instruction Register Place instructions unaryInstructions binaryInstructions
  locate?)

/-! ## Lines one after the other -/

namespace Machine

variable {lines : List Line} {first second last : Machine} {rip : Nat} {cpu cpu' : Cpu}

theorem Reaches.trans (reaches : Reaches lines first second) (reaches' : Reaches lines second last) :
    Reaches lines first last := by
  induction reaches with
  | refl machine => exact reaches'
  | step stepped _ ih => exact .step stepped (ih reaches')

theorem Reaches.single (stepped : step? lines first = some second) : Reaches lines first second :=
  .step stepped (.refl second)

theorem step?_execute {instruction : Instruction}
    (found : lines[rip]? = some (.instruction instruction))
    (executed : cpu.execute? instruction = some cpu') :
    step? lines ⟨rip, cpu⟩ = some ⟨rip + 1, cpu'⟩ := by
  unfold step?
  dsimp only
  rw [found]
  cases instruction with
  | je label | jmp label | call function | ret => cases executed
  | _ =>
    dsimp only
    rw [executed]
    rfl

/-- Instructions that are found line by line are executed one after the other. -/
theorem reaches_instructions {list : List Instruction}
    (present : OccursAt lines rip (instructions list))
    (executed : cpu.executeAll? list = some cpu') :
    Reaches lines ⟨rip, cpu⟩ ⟨rip + list.length, cpu'⟩ := by
  induction list generalizing rip cpu with
  | nil =>
    cases executed
    exact .refl _
  | cons instruction list ih =>
    obtain ⟨middle, executed₁, executed₂⟩ := Option.bind_eq_some_iff.1 executed
    have rest := ih present.tail executed₂
    rw [Nat.add_assoc, Nat.add_comm 1] at rest
    exact .step (step?_execute present.head executed₁) rest

theorem step?_jmp {label : Label} {target : Nat}
    (found : lines[rip]? = some (.instruction (.jmp label)))
    (located : locate? lines label.text = some target) :
    step? lines ⟨rip, cpu⟩ = some ⟨target, cpu⟩ := by
  unfold step?
  dsimp only
  rw [found]
  dsimp only
  rw [goTo?, located]
  rfl

theorem step?_je_true {label : Label} {target : Nat}
    (found : lines[rip]? = some (.instruction (.je label))) (zero : cpu.zero = some true)
    (located : locate? lines label.text = some target) :
    step? lines ⟨rip, cpu⟩ = some ⟨target, cpu⟩ := by
  unfold step?
  dsimp only
  rw [found]
  dsimp only
  rw [zero, goTo?, located]
  rfl

theorem step?_je_false {label : Label} (found : lines[rip]? = some (.instruction (.je label)))
    (zero : cpu.zero = some false) : step? lines ⟨rip, cpu⟩ = some ⟨rip + 1, cpu⟩ := by
  unfold step?
  dsimp only
  rw [found]
  dsimp only
  rw [zero]

theorem step?_call {function : String} {target : Nat}
    (found : lines[rip]? = some (.instruction (.call function)))
    (located : locate? lines function = some target) :
    step? lines ⟨rip, cpu⟩ = some ⟨target, cpu.push (BitVec.ofNat 64 (rip + 1))⟩ := by
  unfold step?
  dsimp only
  rw [found]
  dsimp only
  rw [goTo?, located]
  rfl

theorem step?_ret (found : lines[rip]? = some (.instruction .ret)) :
    step? lines ⟨rip, cpu⟩ = some ⟨cpu.top.toNat, cpu.drop⟩ := by
  unfold step?
  dsimp only
  rw [found]

theorem step?_symbol {line : Line} (found : lines[rip]? = some line) (defines : line.symbol?.isSome) :
    step? lines ⟨rip, cpu⟩ = some ⟨rip + 1, cpu⟩ := by
  unfold step?
  dsimp only
  rw [found]
  cases line with
  | entry function => rfl
  | label target => rfl
  | _ => cases defines

end Machine

/-- If no two elements have the same image, an image is found where its element is. -/
theorem findIdx?_of_nodup {α β : Type} [DecidableEq β] {f : α → Option β} {list : List α}
    (distinct : (list.filterMap f).Nodup) {index : Nat} {a : α} (found : list[index]? = some a)
    {b : β} (isImage : f a = some b) : list.findIdx? (f · = some b) = some index := by
  induction list generalizing index with
  | nil => cases found
  | cons first rest ih =>
    rw [List.findIdx?_cons]
    cases index with
    | zero =>
      cases found
      rw [if_pos (by simpa using isImage)]
    | succ index =>
      have later : a ∈ rest := List.mem_of_getElem? found
      have inRest : b ∈ rest.filterMap f := List.mem_filterMap.2 ⟨a, later, isImage⟩
      have distinct' : (rest.filterMap f).Nodup ∧ f first ≠ some b := by
        cases image : f first with
        | none =>
          rw [List.filterMap_cons_none image] at distinct
          exact ⟨distinct, by simp⟩
        | some other =>
          rw [List.filterMap_cons_some image] at distinct
          obtain ⟨absent, distinct⟩ := List.nodup_cons.1 distinct
          refine ⟨distinct, fun same => absent ?_⟩
          cases same
          exact inRest
      rw [if_neg (by simpa using distinct'.2)]
      exact congrArg (Option.map (· + 1)) (ih distinct'.1 found)

/-! ## Instructions of a quadruple -/

namespace Cpu

/-- The frame pointer, the stack pointer and memory are the same, apart from a word that was
written. -/
structure Wrote (cpu : Cpu) (address : Nat) (value : BitVec 32) (cpu' : Cpu) : Prop where
  rbp : cpu'.rbp = cpu.rbp
  rsp : cpu'.rsp = cpu.rsp
  memory : cpu'.memory = cpu.memory.setWord address value

/-- The word that was written came from `%eax`, which still holds it. -/
structure Passed (cpu : Cpu) (address : Nat) (value : BitVec 32) (cpu' : Cpu) : Prop
    extends cpu.Wrote address value cpu' where
  eax : cpu'.eax = value

/-- The frame pointer, the stack pointer and memory are the same. -/
structure Kept (cpu cpu' : Cpu) : Prop where
  rbp : cpu'.rbp = cpu.rbp
  rsp : cpu'.rsp = cpu.rsp
  memory : cpu'.memory = cpu.memory

variable {cpu : Cpu} {x y z : Int} {a b : Int32}

theorem executeAll?_append {cpu' cpu'' : Cpu} {first second : List Instruction}
    (executed : cpu.executeAll? first = some cpu') (executed' : cpu'.executeAll? second = some cpu'') :
    cpu.executeAll? (first ++ second) = some cpu'' := by
  induction first generalizing cpu with
  | nil =>
    cases executed
    exact executed'
  | cons instruction first ih =>
    obtain ⟨middle, executed₁, executed₂⟩ := Option.bind_eq_some_iff.1 executed
    exact Option.bind_eq_some_iff.2 ⟨middle, executed₁, ih executed₂⟩

@[simp] theorem setWidth_low (value : BitVec 32) : (value.setWidth 64).setWidth 32 = value := by
  simp

theorem executes_load (value : Int32) (z : Int) :
    ∃ cpu', cpu.executeAll? [.movl (.immediate value.toInt) (.frame z)] = some cpu' ∧
      cpu.Wrote (cpu.address z) value.toBitVec cpu' ∧ cpu'.eax = cpu.eax := by
  refine ⟨_, rfl, ⟨rfl, rfl, ?_⟩, rfl⟩
  show cpu.memory.setWord _ (BitVec.ofInt 32 value.toInt) = _
  rw [← Int32.toInt_toBitVec, BitVec.ofInt_toInt]

theorem executes_read (readsX : cpu.memory.word (cpu.address x) = a.toBitVec) :
    ∃ cpu', cpu.executeAll? [.movl (.frame x) (.register .eax)] = some cpu' ∧ cpu.Kept cpu' ∧
      cpu'.eax = a.toBitVec ∧ cpu'.rax = a.toBitVec.setWidth 64 := by
  refine ⟨_, rfl, ⟨rfl, rfl, rfl⟩, ?_, ?_⟩
  · show (BitVec.setWidth 64 (cpu.memory.word (cpu.address x))).setWidth 32 = _
    rw [readsX, setWidth_low]
  · exact congrArg (BitVec.setWidth 64) readsX

theorem executes_write (value : BitVec 32) (isValue : cpu.eax = value) (z : Int) :
    ∃ cpu', cpu.executeAll? [.movl (.register .eax) (.frame z)] = some cpu' ∧
      cpu.Passed (cpu.address z) value cpu' := by
  refine ⟨_, rfl, ⟨rfl, rfl, ?_⟩, isValue⟩
  show cpu.memory.setWord _ cpu.eax = _
  rw [isValue]

/-- Instructions that leave a value in `%eax` pass it to a slot. -/
theorem executes_pass (list : List Instruction) {cpu' : Cpu} {value : BitVec 32}
    (executed : cpu.executeAll? list = some cpu') (kept : cpu.Kept cpu') (isValue : cpu'.eax = value)
    (z : Int) :
    ∃ cpu'', cpu.executeAll? (list ++ [.movl (.register .eax) (.frame z)]) = some cpu'' ∧
      cpu.Passed (cpu.address z) value cpu'' := by
  obtain ⟨cpu'', executed', passed⟩ := executes_write value isValue z
  have same : cpu'.address z = cpu.address z := by
    unfold address
    rw [kept.rbp]
  refine ⟨cpu'', executeAll?_append executed executed',
    ⟨passed.rbp.trans kept.rbp, passed.rsp.trans kept.rsp, ?_⟩, passed.eax⟩
  rw [passed.memory, kept.memory, same]

theorem executes_assign (readsX : cpu.memory.word (cpu.address x) = a.toBitVec) (z : Int) :
    ∃ cpu', cpu.executeAll? [.movl (.frame x) (.register .eax), .movl (.register .eax) (.frame z)] =
        some cpu' ∧ cpu.Passed (cpu.address z) a.toBitVec cpu' := by
  obtain ⟨cpu', executed, kept, isValue, _⟩ := executes_read readsX
  exact executes_pass _ executed kept isValue z

theorem executes_unary (op : UnaryOp) (readsX : cpu.memory.word (cpu.address x) = a.toBitVec)
    (z : Int) :
    ∃ cpu', cpu.executeAll? (unaryInstructions op x z) = some cpu' ∧
      cpu.Passed (cpu.address z) (op.apply a).toBitVec cpu' := by
  cases op with
  | plus => exact executes_assign readsX z
  | minus =>
    refine executes_pass [_, _] rfl ?_ ?_ z
    · exact ⟨rfl, rfl, rfl⟩
    · show (BitVec.setWidth 64 (-(BitVec.setWidth 64 (cpu.memory.word _)).setWidth 32)).setWidth 32 = _
      rw [readsX, setWidth_low, setWidth_low]
      rfl

/-! ## Division -/

/-- A number whose sign fills the upper half. -/
theorem toInt_extended (value : BitVec 32) :
    ((if value.msb then BitVec.allOnes 32 else 0) ++ value : BitVec 64).toInt = value.toInt := by
  have extended : ((if value.msb then BitVec.allOnes 32 else 0) ++ value : BitVec 64) =
      value.signExtend 64 := by
    apply BitVec.eq_of_getLsbD_eq
    intro i lt
    rw [BitVec.getLsbD_append, BitVec.getLsbD_signExtend]
    by_cases low : i < 32
    · simp [low, lt]
    · have lt' : i - 32 < 32 := by omega
      by_cases sign : value.msb
      · simp [low, lt, lt', sign, -BitVec.reduceAllOnes]
      · simp [low, lt, sign]
  rw [extended, BitVec.toInt_signExtend_of_le (by omega)]

theorem divide?_of_compute {dividend : BitVec 64} {value : Int32}
    (isDividend : dividend.toInt = a.toInt) (computed : BinaryOp.div.compute? a b = some value) :
    ∃ remainder, divide? dividend b.toBitVec = some (value.toBitVec, remainder) := by
  simp only [BinaryOp.compute?, Option.ite_none_left_eq_some, not_or, not_and] at computed
  obtain ⟨⟨nonzero, fits⟩, isValue⟩ := computed
  have quotient : a.toInt.tdiv b.toInt = value.toInt := by
    rw [← Option.some.inj isValue]
    by_cases least : a = Int32.minValue
    · exact (Int32.toInt_div_of_ne_right a b (fits least)).symm
    · exact (Int32.toInt_div_of_ne_left a b least).symm
  have nonzero' : b.toBitVec ≠ 0 := fun zero => nonzero (Int32.toBitVec_inj.1 zero)
  have bounds := Alu.toInt_bounds value
  unfold divide?
  rw [if_neg nonzero', isDividend, Int32.toInt_toBitVec, quotient]
  dsimp only
  rw [if_pos bounds, ← Int32.toInt_toBitVec, BitVec.ofInt_toInt]
  exact ⟨_, rfl⟩

theorem divide?_of_fault {dividend : BitVec 64} (isDividend : dividend.toInt = a.toInt)
    (computed : BinaryOp.div.compute? a b = none) : divide? dividend b.toBitVec = none := by
  simp only [BinaryOp.compute?, ite_eq_left_iff, reduceCtorEq, imp_false, Decidable.not_not]
    at computed
  unfold divide?
  rcases computed with rfl | ⟨rfl, rfl⟩
  · exact if_pos rfl
  · rw [if_neg (by decide), isDividend]
    decide

/-- The dividend and the divisor are in place when the division is reached. -/
theorem executes_dividend (readsX : cpu.memory.word (cpu.address x) = a.toBitVec)
    (readsY : cpu.memory.word (cpu.address y) = b.toBitVec) :
    ∃ cpu', cpu.executeAll? [.movl (.frame x) (.register .eax), .cltd,
        .movl (.frame y) (.register .ecx)] = some cpu' ∧ cpu.Kept cpu' ∧
      cpu'.dividend.toInt = a.toInt ∧ cpu'.ecx = b.toBitVec := by
  let low : BitVec 32 := (BitVec.setWidth 64 (cpu.memory.word (cpu.address x))).setWidth 32
  have isLow : low = a.toBitVec := by
    show (BitVec.setWidth 64 (cpu.memory.word (cpu.address x))).setWidth 32 = _
    rw [readsX, setWidth_low]
  refine ⟨_, rfl, ⟨rfl, rfl, rfl⟩, ?_, ?_⟩
  · show ((((if low.msb then BitVec.allOnes 32 else 0).setWidth 64).setWidth 32) ++ low :
      BitVec 64).toInt = _
    rw [setWidth_low, toInt_extended, isLow, Int32.toInt_toBitVec]
  · show (BitVec.setWidth 64 (cpu.memory.word (cpu.address y))).setWidth 32 = _
    rw [readsY, setWidth_low]

/-! ## Binary operators -/

/-- The instructions of a binary operator. -/
theorem executes_binary (op : BinaryOp) {value : Int32}
    (readsX : cpu.memory.word (cpu.address x) = a.toBitVec)
    (readsY : cpu.memory.word (cpu.address y) = b.toBitVec)
    (computed : op.compute? a b = some value) (z : Int) :
    ∃ cpu', cpu.executeAll? (binaryInstructions op x y z) = some cpu' ∧
      cpu.Passed (cpu.address z) value.toBitVec cpu' := by
  have lowX : (BitVec.setWidth 64 (cpu.memory.word (cpu.address x))).setWidth 32 = a.toBitVec := by
    rw [readsX, setWidth_low]
  have lowY : (BitVec.setWidth 64 (cpu.memory.word (cpu.address y))).setWidth 32 = b.toBitVec := by
    rw [readsY, setWidth_low]
  cases op with
  | add =>
    cases computed
    refine executes_pass [_, _, _] rfl ?_ ?_ z
    · exact ⟨rfl, rfl, rfl⟩
    · show (BitVec.setWidth 64 ((BitVec.setWidth 64 (cpu.memory.word (cpu.address x))).setWidth 32 +
        (BitVec.setWidth 64 (cpu.memory.word (cpu.address y))).setWidth 32)).setWidth 32 = _
      rw [lowX, lowY, setWidth_low]
      rfl
  | sub =>
    cases computed
    refine executes_pass [_, _, _] rfl ?_ ?_ z
    · exact ⟨rfl, rfl, rfl⟩
    · show (BitVec.setWidth 64 ((BitVec.setWidth 64 (cpu.memory.word (cpu.address x))).setWidth 32 -
        (BitVec.setWidth 64 (cpu.memory.word (cpu.address y))).setWidth 32)).setWidth 32 = _
      rw [lowX, lowY, setWidth_low]
      rfl
  | mul =>
    cases computed
    refine executes_pass [_, _, _] rfl ?_ ?_ z
    · exact ⟨rfl, rfl, rfl⟩
    · show (BitVec.setWidth 64 ((BitVec.setWidth 64 (cpu.memory.word (cpu.address x))).setWidth 32 *
        (BitVec.setWidth 64 (cpu.memory.word (cpu.address y))).setWidth 32)).setWidth 32 = _
      rw [lowX, lowY, setWidth_low]
      rfl
  | div =>
    obtain ⟨middle, executed, kept, isDividend, isDivisor⟩ := executes_dividend readsX readsY
    obtain ⟨remainder, divided⟩ := divide?_of_compute isDividend computed
    have last : middle.executeAll? [.idivl .ecx] =
        some { middle with
          rax := value.toBitVec.setWidth 64
          rdx := remainder.setWidth 64
          zero := none } := by
      simp only [executeAll?, execute?, low?, isDivisor, Option.bind_eq_bind, Option.bind_some, divided]
      rfl
    have kept' : cpu.Kept
        { middle with
          rax := value.toBitVec.setWidth 64
          rdx := remainder.setWidth 64
          zero := none } := ⟨kept.rbp, kept.rsp, kept.memory⟩
    exact executes_pass [_, _, _, _] (executeAll?_append executed last) kept' (setWidth_low _) z

/-! ## Tests and arguments -/

theorem executes_test (readsX : cpu.memory.word (cpu.address x) = a.toBitVec) :
    ∃ cpu', cpu.executeAll? [.movl (.frame x) (.register .eax), .cmpl 0 .eax] = some cpu' ∧
      cpu.Kept cpu' ∧ cpu'.eax = a.toBitVec ∧ cpu'.zero = some (decide (a = 0)) := by
  have low : (BitVec.setWidth 64 (cpu.memory.word (cpu.address x))).setWidth 32 = a.toBitVec := by
    rw [readsX, setWidth_low]
  refine ⟨_, rfl, ⟨rfl, rfl, rfl⟩, low, ?_⟩
  show some ((BitVec.setWidth 64 (cpu.memory.word (cpu.address x))).setWidth 32 - 0#32 == 0#32) = _
  rw [low, BitVec.sub_zero, ← Int32.toBitVec_zero]
  refine congrArg some ?_
  by_cases zero : a = 0
  · simp [zero]
  · have apart : a.toBitVec ≠ (0 : Int32).toBitVec := fun same => zero (Int32.toBitVec_inj.1 same)
    rw [decide_eq_false zero]
    exact beq_false_of_ne apart

/-- A word that is pushed takes the lower half of its slot. -/
theorem executes_param (readsX : cpu.memory.word (cpu.address x) = a.toBitVec) :
    ∃ cpu', cpu.executeAll? [.movl (.frame x) (.register .eax), .pushq .rax] = some cpu' ∧
      cpu'.rbp = cpu.rbp ∧ cpu'.rsp = cpu.rsp - 8 ∧ cpu'.eax = a.toBitVec ∧
      cpu'.memory = cpu.memory.setWide (cpu.rsp - 8).toNat (a.toBitVec.setWidth 64) := by
  refine ⟨_, rfl, rfl, rfl, ?_, ?_⟩
  · show (BitVec.setWidth 64 (cpu.memory.word (cpu.address x))).setWidth 32 = _
    rw [readsX, setWidth_low]
  · show cpu.memory.setWide _ (BitVec.setWidth 64 (cpu.memory.word (cpu.address x))) = _
    rw [readsX]

end Cpu
end MiniC
