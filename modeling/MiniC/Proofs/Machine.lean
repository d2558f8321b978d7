import MiniC.Assembly.Instruction
import MiniC.Proofs.Memory

/-!
# The target machine

What the instructions of a listing do, line by line. A line without an instruction is passed over.
Code is addressed by line, and a return address is the number of a line.

A register of 32 bits is the lower half of one of 64 bits, and writing it clears the upper half. Of
the flags only the one for zero matters; products and quotients leave it undefined, and then there
is no conditional jump. A division raises an error if the divisor is zero or the quotient is no
32-bit number. An instruction whose operands do not have the right size is not executed at all.
-/

namespace MiniC

open Assembly (Line Instruction Register Place)

/-- Registers, the zero flag unless it is undefined, and memory. -/
structure Cpu where
  rax : BitVec 64
  rcx : BitVec 64
  rdx : BitVec 64
  rbp : BitVec 64
  rsp : BitVec 64
  zero : Option Bool
  memory : Memory

namespace Cpu

/-! ## Operands -/

def eax (cpu : Cpu) : BitVec 32 := cpu.rax.setWidth 32
def ecx (cpu : Cpu) : BitVec 32 := cpu.rcx.setWidth 32
def edx (cpu : Cpu) : BitVec 32 := cpu.rdx.setWidth 32

/-- A register of 64 bits. -/
def wide? (cpu : Cpu) : Register → Option (BitVec 64)
  | .rax => some cpu.rax
  | .rbp => some cpu.rbp
  | .rsp => some cpu.rsp
  | _ => none

def setWide? (cpu : Cpu) (value : BitVec 64) : Register → Option Cpu
  | .rax => some { cpu with rax := value }
  | .rbp => some { cpu with rbp := value }
  | .rsp => some { cpu with rsp := value }
  | _ => none

/-- A register of 32 bits. -/
def low? (cpu : Cpu) : Register → Option (BitVec 32)
  | .eax => some cpu.eax
  | .ecx => some cpu.ecx
  | .edx => some cpu.edx
  | _ => none

def setLow? (cpu : Cpu) (value : BitVec 32) : Register → Option Cpu
  | .eax => some { cpu with rax := value.setWidth 64 }
  | .ecx => some { cpu with rcx := value.setWidth 64 }
  | .edx => some { cpu with rdx := value.setWidth 64 }
  | _ => none

/-- The address at a distance from the frame pointer. -/
def address (cpu : Cpu) (offset : Int) : Nat :=
  (cpu.rbp + BitVec.ofInt 64 offset).toNat

def fetch? (cpu : Cpu) : Place → Option (BitVec 32)
  | .immediate value => some (BitVec.ofInt 32 value)
  | .register name => cpu.low? name
  | .frame offset => some (cpu.memory.word (cpu.address offset))

def put? (cpu : Cpu) (value : BitVec 32) : Place → Option Cpu
  | .immediate _ => none
  | .register name => cpu.setLow? value name
  | .frame offset =>
      some { cpu with memory := cpu.memory.setWord (cpu.address offset) value }

/-! ## Instructions -/

def push (cpu : Cpu) (value : BitVec 64) : Cpu :=
  { cpu with
    rsp := cpu.rsp - 8
    memory := cpu.memory.setWide (cpu.rsp - 8).toNat value }

/-- What the stack pointer points to. -/
def top (cpu : Cpu) : BitVec 64 :=
  cpu.memory.wide cpu.rsp.toNat

def drop (cpu : Cpu) : Cpu :=
  { cpu with rsp := cpu.rsp + 8 }

/-- Set a register to a result of 64 bits, and the flag by it. -/
def finishWide? (cpu : Cpu) (result : BitVec 64) (target : Register) : Option Cpu :=
  { cpu with zero := some (result == 0) }.setWide? result target

/-- Set a register to a result of 32 bits, and the flag by it. -/
def finishLow? (cpu : Cpu) (result : BitVec 32) (target : Register) : Option Cpu :=
  { cpu with zero := some (result == 0) }.setLow? result target

/-- Quotient and remainder of a signed division, unless it raises an error. -/
def divide? (dividend : BitVec 64) (divisor : BitVec 32) : Option (BitVec 32 × BitVec 32) :=
  if divisor = 0 then none
  else
    let quotient := dividend.toInt.tdiv divisor.toInt
    if -2147483648 ≤ quotient ∧ quotient ≤ 2147483647 then
      some (BitVec.ofInt 32 quotient, BitVec.ofInt 32 (dividend.toInt.tmod divisor.toInt))
    else none

/-- The number in `%edx` and `%eax`, which a division divides. -/
def dividend (cpu : Cpu) : BitVec 64 :=
  cpu.edx ++ cpu.eax

/-- Execute an instruction that goes on to the next line. -/
def execute? (cpu : Cpu) : Instruction → Option Cpu
  | .pushq source => do
      let value ← cpu.wide? source
      return cpu.push value
  | .popq target => cpu.drop.setWide? cpu.top target
  | .movq source target => do
      let value ← cpu.wide? source
      cpu.setWide? value target
  | .addq amount target => do
      let value ← cpu.wide? target
      cpu.finishWide? (value + BitVec.ofNat 64 amount) target
  | .subq amount target => do
      let value ← cpu.wide? target
      cpu.finishWide? (value - BitVec.ofNat 64 amount) target
  | .movl (.frame _) (.frame _) => none
  | .movl source target => do
      let value ← cpu.fetch? source
      cpu.put? value target
  | .addl source target => do
      let lhs ← cpu.low? target
      let rhs ← cpu.low? source
      cpu.finishLow? (lhs + rhs) target
  | .subl source target => do
      let lhs ← cpu.low? target
      let rhs ← cpu.low? source
      cpu.finishLow? (lhs - rhs) target
  | .imull source target => do
      let lhs ← cpu.low? target
      let rhs ← cpu.low? source
      { cpu with zero := none }.setLow? (lhs * rhs) target
  | .negl target => do
      let value ← cpu.low? target
      cpu.finishLow? (-value) target
  | .cltd => cpu.setLow? (if cpu.eax.msb then BitVec.allOnes 32 else 0) .edx
  | .idivl divisor => do
      let value ← cpu.low? divisor
      let (quotient, remainder) ← divide? cpu.dividend value
      return { cpu with
        rax := quotient.setWidth 64
        rdx := remainder.setWidth 64
        zero := none }
  | .cmpl value target => do
      let result ← cpu.low? target
      return { cpu with zero := some (result - BitVec.ofInt 32 value == 0) }
  | .je _ | .jmp _ | .call _ | .ret => none

/-- Execute instructions one after the other. -/
def executeAll? (cpu : Cpu) : List Instruction → Option Cpu
  | [] => some cpu
  | instruction :: rest => do
      let cpu ← cpu.execute? instruction
      cpu.executeAll? rest

end Cpu

/-! ## Lines -/

namespace Assembly

/-- The name that a line defines. -/
def Line.symbol? : Line → Option String
  | .entry function => some function
  | .label target => some target.text
  | _ => none

/-- The line that defines a name. -/
def locate? (lines : List Line) (name : String) : Option Nat :=
  lines.findIdx? (·.symbol? = some name)

end Assembly

open Assembly (locate?)

/-- A processor and the line that it is at. -/
structure Machine where
  rip : Nat
  cpu : Cpu

namespace Machine

/-- Go on at a name. -/
def goTo? (lines : List Line) (name : String) (cpu : Cpu) : Option Machine :=
  (locate? lines name).map (⟨·, cpu⟩)

/-- Execute one line. -/
def step? (lines : List Line) (machine : Machine) : Option Machine :=
  match lines[machine.rip]? with
  | none => none
  | some (.instruction (.jmp label)) => goTo? lines label.text machine.cpu
  | some (.instruction (.je label)) =>
      match machine.cpu.zero with
      | none => none
      | some true => goTo? lines label.text machine.cpu
      | some false => some ⟨machine.rip + 1, machine.cpu⟩
  | some (.instruction (.call function)) =>
      goTo? lines function (machine.cpu.push (BitVec.ofNat 64 (machine.rip + 1)))
  | some (.instruction .ret) => some ⟨machine.cpu.top.toNat, machine.cpu.drop⟩
  | some (.instruction instruction) =>
      (machine.cpu.execute? instruction).map (⟨machine.rip + 1, ·⟩)
  | some _ => some ⟨machine.rip + 1, machine.cpu⟩

/-- The machine gets from one state to another. -/
inductive Reaches (lines : List Line) : Machine → Machine → Prop
  | refl (machine : Machine) : Reaches lines machine machine
  | step {first second last : Machine} : step? lines first = some second →
      Reaches lines second last → Reaches lines first last

/-- The machine is at a division that raises an error. -/
def Faults (lines : List Line) (machine : Machine) : Prop :=
  ∃ register divisor, lines[machine.rip]? = some (.instruction (.idivl register)) ∧
    machine.cpu.low? register = some divisor ∧
    Cpu.divide? machine.cpu.dividend divisor = none

end Machine
end MiniC
