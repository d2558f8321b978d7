import MiniC.Proofs.Running
import MiniC.Tree.Folding

/-!
# Folded constants are what the target computes

Constants are folded with arithmetic on words of 32 bits. The target widens the words to 64 bits,
computes with these, and cuts the result back. Both are compared with integers without bounds.

1. An instruction keeps the low 32 bits of the exact result (`instruction_onInt`, `sign_onInt`).
2. There is a quotient exactly if the divisor is not zero and a word can hold it
   (`div?_eq_some_iff`). That of the least word by `-1` is the only one that no word can hold
   (`faults_iff`).
3. Each operator is folded as the quadruple for it is run (`folding_computes_as_target`).
-/

namespace MiniC

/-- What an operator computes on integers without bounds. Quotients are cut off toward zero. -/
def BinaryOp.onInt (op : BinaryOp) (a b : Int) : Int :=
  match op with
  | add => a + b
  | sub => a - b
  | mul => a * b
  | div => a.tdiv b

/-- What a sign computes on integers without bounds. -/
def UnaryOp.onInt (op : UnaryOp) (a : Int) : Int :=
  match op with
  | plus => a
  | minus => -a

namespace Alu

/-- The instruction of the target for an operator. -/
def instruction (op : BinaryOp) (a b : Int32) : Option Int32 :=
  match op with
  | .add => some (add a b)
  | .sub => some (sub a b)
  | .mul => some (mul a b)
  | .div => div? a b

/-- The instruction of the target for a sign. -/
def sign (op : UnaryOp) (a : Int32) : Int32 :=
  match op with
  | .plus => a
  | .minus => neg a

/-- Some word has this value. -/
def Fits (n : Int) : Prop :=
  Int32.minValue.toInt ≤ n ∧ n ≤ Int32.maxValue.toInt

/-- A division traps: the divisor is zero, or no word can hold the quotient. -/
def Faults (dividend divisor : Int32) : Prop :=
  divisor = 0 ∨ ¬ Fits (dividend.toInt.tdiv divisor.toInt)

instance (n : Int) : Decidable (Fits n) :=
  inferInstanceAs (Decidable (_ ∧ _))

instance (dividend divisor : Int32) : Decidable (Faults dividend divisor) :=
  inferInstanceAs (Decidable (_ ∨ _))

theorem fits_iff {n : Int} : Fits n ↔ -2147483648 ≤ n ∧ n ≤ 2147483647 := Iff.rfl

theorem instruction_eq (op : BinaryOp) (a b : Int32) : instruction op a b = op.compute? a b := by
  rw [compute?_eq]
  rfl

theorem sign_eq (op : UnaryOp) (a : Int32) : sign op a = op.apply a := by
  cases op with
  | plus => rfl
  | minus => exact neg_eq a

/-! ## Against integers without bounds -/

theorem sign_onInt (op : UnaryOp) (a : Int32) : sign op a = Int32.ofInt (op.onInt a.toInt) := by
  rw [sign_eq]
  cases op with
  | plus => simp [UnaryOp.apply, UnaryOp.onInt]
  | minus => simp [UnaryOp.apply, UnaryOp.onInt, Int32.ofInt_neg]

/-- Only the least word has a quotient that no word can hold, and only if it is divided by `-1`. -/
theorem fits_quotient_iff {a b : Int32} :
    Fits (a.toInt.tdiv b.toInt) ↔ ¬ (a = Int32.minValue ∧ b = -1) := by
  by_cases minusOne : b = -1
  · subst minusOne
    have quotient : a.toInt.tdiv (-1 : Int32).toInt = -a.toInt := by
      rw [show (-1 : Int32).toInt = -1 by decide, Int.tdiv_neg, Int.tdiv_one]
    have bounds := toInt_bounds a
    have least : a = Int32.minValue ↔ a.toInt = -2147483648 := Int32.toInt_inj.symm
    rw [quotient, fits_iff, least, and_iff_left rfl]
    omega
  · have fits : Fits (a / b).toInt := toInt_bounds (a / b)
    rw [Int32.toInt_div_of_ne_right _ _ minusOne] at fits
    exact iff_of_true fits fun both => minusOne both.2

theorem faults_iff {a b : Int32} : Faults a b ↔ b = 0 ∨ a = Int32.minValue ∧ b = -1 := by
  unfold Faults
  rw [fits_quotient_iff, Classical.not_not]

theorem div?_eq_ite (a b : Int32) : div? a b = if Faults a b then none else some (a / b) := by
  rw [div?_eq]
  simp only [BinaryOp.compute?, faults_iff]

theorem toInt_div_of_fits {a b : Int32} (fits : Fits (a.toInt.tdiv b.toInt)) :
    (a / b).toInt = a.toInt.tdiv b.toInt := by
  rw [fits_iff] at fits
  rw [Int32.toInt_div]
  exact Int.bmod_eq_of_le (by omega) (by omega)

/-- There is a quotient exactly if a word can hold it, and then that word is the result. -/
theorem div?_eq_some_iff {a b quotient : Int32} :
    div? a b = some quotient ↔ b ≠ 0 ∧ quotient.toInt = a.toInt.tdiv b.toInt := by
  rw [div?_eq_ite]
  constructor
  · intro found
    split at found
    · cases found
    · next runs =>
      obtain ⟨nonzero, fits⟩ := not_or.1 runs
      cases found
      exact ⟨nonzero, toInt_div_of_fits (Classical.not_not.1 fits)⟩
  · rintro ⟨nonzero, isQuotient⟩
    have fits : Fits (a.toInt.tdiv b.toInt) := isQuotient ▸ toInt_bounds quotient
    have runs : ¬ Faults a b := not_or.2 ⟨nonzero, Classical.not_not.2 fits⟩
    rw [if_neg runs]
    refine congrArg some (Int32.toInt_inj.1 ?_)
    rw [toInt_div_of_fits fits, isQuotient]

/-- The low 32 bits of the exact result are what is left of it. -/
theorem instruction_onInt (op : BinaryOp) (a b : Int32) :
    instruction op a b =
      if op = .div ∧ Faults a b then none
      else some (Int32.ofInt (op.onInt a.toInt b.toInt)) := by
  cases op with
  | add => simp [instruction, add, BinaryOp.onInt, Int32.ofInt_add]
  | sub => simp [instruction, sub, BinaryOp.onInt, Int32.ofInt_sub]
  | mul => simp [instruction, mul, BinaryOp.onInt, Int32.ofInt_mul]
  | div =>
    change div? a b = _
    rw [div?_eq_ite]
    by_cases faults : Faults a b
    · simp [faults]
    · have fits : Fits (a.toInt.tdiv b.toInt) := Classical.not_not.1 (not_or.1 faults).2
      simp only [faults, and_false, if_false, BinaryOp.onInt]
      rw [← toInt_div_of_fits fits, Int32.ofInt_toInt]

theorem compute?_eq_none_iff {op : BinaryOp} {a b : Int32} :
    op.compute? a b = none ↔ op = .div ∧ Faults a b := by
  cases op with
  | div => rw [← div?_eq, div?_eq_ite]; simp
  | _ => simp [BinaryOp.compute?]

end Alu

/-! ## Against the quadruples that are run -/

/-- The quadruple for an operator executes its instruction on both operands. -/
theorem Routine.step_ofBinary (routine : Routine) (table : Table) (progress : Progress)
    (quad : Quad) (op : BinaryOp) :
    routine.step table progress { quad with op := .ofBinary op } =
      routine.binary table progress { quad with op := .ofBinary op } (Alu.instruction op) := by
  cases op <;> rfl

/-- The quadruple for a sign executes its instruction on the operand. -/
theorem Routine.step_ofUnary (routine : Routine) (table : Table) (progress : Progress)
    (quad : Quad) (op : UnaryOp) :
    routine.step table progress { quad with op := .ofUnary op } =
      Routine.unary table progress { quad with op := .ofUnary op } (Alu.sign op) := by
  cases op <;> rfl

/-- Constants are folded to what their quadruple would compute if it were run. The instruction for
an operator keeps the low 32 bits of the exact result; a quotient is exact and cut off toward zero,
and where no word can hold it, or the divisor is zero, the instruction traps and nothing is
folded. -/
theorem folding_computes_as_target :
    (∀ (op : BinaryOp) a b, op.compute? a b = Alu.instruction op a b) ∧
    (∀ (op : UnaryOp) a, op.apply a = Alu.sign op a) ∧
    (∀ info info₁ info₂ op a b,
      Node.foldBinary? info op (.integer info₁ a) (.integer info₂ b) =
        (Alu.instruction op a b).map (.integer info)) ∧
    (∀ info info₁ op a,
      Node.foldUnary? info op (.integer info₁ a) = some (.integer info (Alu.sign op a))) ∧
    -- These are the instructions that a run executes.
    (∀ (routine : Routine) table progress (quad : Quad) op,
      routine.step table progress { quad with op := .ofBinary op } =
        routine.binary table progress { quad with op := .ofBinary op } (Alu.instruction op)) ∧
    (∀ (routine : Routine) table progress (quad : Quad) op,
      routine.step table progress { quad with op := .ofUnary op } =
        Routine.unary table progress { quad with op := .ofUnary op } (Alu.sign op)) ∧
    -- This is what they compute.
    (∀ op a b, Alu.instruction op a b =
      if op = .div ∧ Alu.Faults a b then none
      else some (Int32.ofInt (op.onInt a.toInt b.toInt))) ∧
    (∀ (op : UnaryOp) a, Alu.sign op a = Int32.ofInt (op.onInt a.toInt)) ∧
    (∀ a b quotient, Alu.instruction .div a b = some quotient ↔
      b ≠ 0 ∧ quotient.toInt = a.toInt.tdiv b.toInt) ∧
    -- Only a division that traps has no result.
    (∀ (op : BinaryOp) a b, op.compute? a b = none ↔ op = .div ∧ Alu.Faults a b) ∧
    ∀ a b, Alu.Faults a b ↔ b = 0 ∨ a = Int32.minValue ∧ b = -1 := by
  refine ⟨fun op a b => (Alu.instruction_eq op a b).symm, fun op a => (Alu.sign_eq op a).symm,
    fun info info₁ info₂ op a b => ?_, fun info info₁ op a => ?_, Routine.step_ofBinary,
    Routine.step_ofUnary, Alu.instruction_onInt, Alu.sign_onInt,
    fun _ _ _ => Alu.div?_eq_some_iff, fun _ _ _ => Alu.compute?_eq_none_iff,
    fun _ _ => Alu.faults_iff⟩
  · rw [Alu.instruction_eq]
    rfl
  · rw [Alu.sign_eq]
    rfl

end MiniC
