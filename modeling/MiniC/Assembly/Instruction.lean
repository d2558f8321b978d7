import MiniC.Quad.Basic

/-!
# Assembly listings

The instructions and directives of x86-64 that the compiler uses, and their lines in the syntax of
the GNU assembler, source before target.
-/

namespace MiniC.Assembly

inductive Register where
  | rax
  | rbp
  | rsp
  | eax
  | ecx
  | edx
deriving DecidableEq, Repr, Inhabited

def Register.text : Register → String
  | rax => "%rax"
  | rbp => "%rbp"
  | rsp => "%rsp"
  | eax => "%eax"
  | ecx => "%ecx"
  | edx => "%edx"

/-- What a move of a word reads or writes. -/
inductive Place where
  | immediate (value : Int)
  | register (name : Register)
  /-- Memory at a distance from the frame pointer. -/
  | frame (offset : Int)
deriving DecidableEq, Repr, Inhabited

def Place.text : Place → String
  | immediate value => "$" ++ toString value
  | register name => name.text
  | frame offset => toString offset ++ "(%rbp)"

inductive Instruction where
  | pushq (source : Register)
  | popq (target : Register)
  | movq (source target : Register)
  | addq (amount : Nat) (target : Register)
  | subq (amount : Nat) (target : Register)
  | movl (source target : Place)
  | addl (source target : Register)
  | subl (source target : Register)
  | imull (source target : Register)
  | negl (target : Register)
  /-- Extend the sign of `%eax` into `%edx`. -/
  | cltd
  /-- Divide the double word in `%edx` and `%eax`. -/
  | idivl (divisor : Register)
  /-- Compare a register with a constant. -/
  | cmpl (value : Int) (target : Register)
  /-- Jump if the last comparison found both equal. -/
  | je (label : Label)
  | jmp (label : Label)
  | call (function : String)
  | ret
deriving DecidableEq, Repr, Inhabited

namespace Instruction

/-- An instruction with two operands. -/
def two (name first second : String) : String :=
  name ++ " " ++ first ++ ", " ++ second

def text : Instruction → String
  | pushq source => "pushq " ++ source.text
  | popq target => "popq " ++ target.text
  | movq source target => two "movq" source.text target.text
  | addq amount target => two "addq" ("$" ++ toString amount) target.text
  | subq amount target => two "subq" ("$" ++ toString amount) target.text
  | movl source target => two "movl" source.text target.text
  | addl source target => two "addl" source.text target.text
  | subl source target => two "subl" source.text target.text
  | imull source target => two "imull" source.text target.text
  | negl target => "negl " ++ target.text
  | cltd => "cltd"
  | idivl divisor => "idivl " ++ divisor.text
  | cmpl value target => two "cmpl" ("$" ++ toString value) target.text
  | je label => "je " ++ label.text
  | jmp label => "jmp " ++ label.text
  | call function => "call " ++ function
  | ret => "ret"

end Instruction

/-- A line of a listing. -/
inductive Line where
  | file (name : String)
  | textSection
  | globl (function : String)
  | type (function : String)
  | entry (function : String)
  | label (target : Label)
  | instruction (content : Instruction)
  | size (function : String)
deriving DecidableEq, Repr, Inhabited

/-- The line with its line feed. Labels stand at the margin, all else is indented. -/
def Line.text : Line → String
  | file name => "\t.file \"" ++ name ++ "\"\n"
  | textSection => "\t.text\n"
  | globl function => "\t.globl " ++ function ++ "\n"
  | type function => "\t.type " ++ function ++ ", @function\n"
  | entry function => function ++ ":\n"
  | label target => target.text ++ ":\n"
  | instruction content => "\t" ++ content.text ++ "\n"
  | size function => "\t.size " ++ function ++ ", .-" ++ function ++ "\n"

/-- The text of a listing. -/
def text (lines : List Line) : String :=
  String.join (lines.map Line.text)

end MiniC.Assembly
