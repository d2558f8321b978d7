import Mathlib.Algebra.Group.Nat.Defs

/-!
# Memory of the target

Bytes at 64-bit addresses. Numbers of several bytes are stored with the lowest byte first, and
addresses wrap around at the end of memory. What is written is what is read, and it changes nothing
that it does not overlap, as long as neither wraps around.
-/

namespace MiniC

/-- Number of addresses. -/
def memorySize : Nat := 18446744073709551616

/-- The bytes at all addresses. -/
def Memory : Type := BitVec 64 → BitVec 8

namespace Memory

/-- The byte at an address. -/
def byte (memory : Memory) (address : Nat) : BitVec 8 :=
  memory (BitVec.ofNat 64 address)

/-- The number in `count` bytes. -/
def load (memory : Memory) (address : Nat) : (count : Nat) → Nat
  | 0 => 0
  | count + 1 => (memory.byte address).toNat + 256 * memory.load (address + 1) count

/-- Write a number to `count` bytes. -/
def store (memory : Memory) (address count value : Nat) : Memory := fun other =>
  let distance := (other - BitVec.ofNat 64 address).toNat
  if distance < count then BitVec.ofNat 8 (value >>> (8 * distance)) else memory other

/-- The 32-bit word at an address. -/
def word (memory : Memory) (address : Nat) : BitVec 32 :=
  BitVec.ofNat 32 (memory.load address 4)

/-- The 64-bit word at an address. -/
def wide (memory : Memory) (address : Nat) : BitVec 64 :=
  BitVec.ofNat 64 (memory.load address 8)

def setWord (memory : Memory) (address : Nat) (value : BitVec 32) : Memory :=
  memory.store address 4 value.toNat

def setWide (memory : Memory) (address : Nat) (value : BitVec 64) : Memory :=
  memory.store address 8 value.toNat

/-! ## Bytes -/

variable {memory other : Memory} {address count value : Nat}

theorem byte_store_of_apart {place : Nat} (inside : address + count ≤ memorySize)
    (inside' : place < memorySize) (apart : place < address ∨ address + count ≤ place) :
    (memory.store address count value).byte place = memory.byte place := by
  unfold memorySize at inside inside'
  have far : ¬ (BitVec.ofNat 64 place - BitVec.ofNat 64 address).toNat < count := by
    rw [BitVec.toNat_sub, BitVec.toNat_ofNat, BitVec.toNat_ofNat]
    omega
  exact if_neg far

theorem byte_store {index : Nat} (inside : address + count ≤ memorySize) (lt : index < count) :
    (memory.store address count value).byte (address + index) =
      BitVec.ofNat 8 (value >>> (8 * index)) := by
  unfold memorySize at inside
  have distance : (BitVec.ofNat 64 (address + index) - BitVec.ofNat 64 address).toNat = index := by
    rw [BitVec.toNat_sub, BitVec.toNat_ofNat, BitVec.toNat_ofNat]
    omega
  unfold store byte
  dsimp only
  rw [distance, if_pos lt]

/-! ## Numbers -/

theorem load_congr (same : ∀ place, address ≤ place → place < address + count →
    other.byte place = memory.byte place) : other.load address count = memory.load address count := by
  induction count generalizing address with
  | zero => rfl
  | succ count ih =>
    rw [load, load, same address (Nat.le_refl _) (by omega)]
    rw [ih fun place le lt => same place (by omega) (by omega)]

theorem load_store_from {start : Nat} (inside : address + count ≤ memorySize) :
    ∀ {length : Nat}, start + length ≤ count →
      (memory.store address count value).load (address + start) length =
        (value >>> (8 * start)) % 256 ^ length := by
  intro length le
  induction length generalizing start with
  | zero =>
    rw [pow_zero, Nat.mod_one]
    rfl
  | succ length ih =>
    have rest : (memory.store address count value).load (address + (start + 1)) length =
        (value >>> (8 * start)) / 256 % 256 ^ length := by
      rw [ih (by omega), show 8 * (start + 1) = 8 * start + 8 by omega, Nat.shiftRight_add,
        Nat.shiftRight_eq_div_pow _ 8]
    rw [load, byte_store inside (by omega), Nat.add_assoc, rest, BitVec.toNat_ofNat]
    show (value >>> (8 * start)) % 256 + 256 * _ = _
    rw [pow_succ', Nat.mod_mul]

theorem load_store (inside : address + count ≤ memorySize) :
    (memory.store address count value).load address count = value % 256 ^ count := by
  have loaded : (memory.store address count value).load (address + 0) count =
      (value >>> (8 * 0)) % 256 ^ count := load_store_from inside (Nat.le_of_eq (Nat.zero_add count))
  exact loaded

theorem load_store_of_apart {place length : Nat} (inside : address + count ≤ memorySize)
    (inside' : place + length ≤ memorySize)
    (apart : place + length ≤ address ∨ address + count ≤ place) :
    (memory.store address count value).load place length = memory.load place length := by
  refine load_congr fun other le lt => ?_
  exact byte_store_of_apart inside (by omega) (by omega)

/-! ## Words -/

theorem word_setWord (value : BitVec 32) (inside : address + 4 ≤ memorySize) :
    (memory.setWord address value).word address = value := by
  unfold word setWord
  rw [load_store inside]
  apply BitVec.eq_of_toNat_eq
  have lt := value.isLt
  rw [BitVec.toNat_ofNat]
  omega

theorem wide_setWide (value : BitVec 64) (inside : address + 8 ≤ memorySize) :
    (memory.setWide address value).wide address = value := by
  unfold wide setWide
  rw [load_store inside]
  apply BitVec.eq_of_toNat_eq
  have lt := value.isLt
  rw [BitVec.toNat_ofNat]
  omega

/-- The lower half of a wide word is the word at its address. -/
theorem word_setWide (value : BitVec 64) (inside : address + 8 ≤ memorySize) :
    (memory.setWide address value).word address = value.setWidth 32 := by
  have loaded : (memory.store address 8 value.toNat).load (address + 0) 4 =
      (value.toNat >>> (8 * 0)) % 256 ^ 4 := load_store_from inside (by omega)
  rw [Nat.add_zero, Nat.mul_zero, Nat.shiftRight_zero] at loaded
  unfold word setWide
  rw [loaded]
  apply BitVec.eq_of_toNat_eq
  rw [BitVec.toNat_ofNat, BitVec.toNat_setWidth]
  omega

end Memory
end MiniC
