import MiniC.Assembly.Instruction
import MiniC.Event
import MiniC.Quad.Access

/-!
# Assembly for quadruples

No value stays in a register between quadruples: each one reads its operands from the stack frame,
computes, and writes its result back. The caller pushes arguments in slots of eight bytes, the first
one last, and drops them after the call, so that the callee finds them above its saved frame pointer
and return address; variables lie below the frame pointer.

    24(%rbp)   second parameter
    16(%rbp)   first parameter
     8(%rbp)   return address
     0(%rbp)   frame pointer of the caller
    -4(%rbp)   first variable
    -8(%rbp)   second variable
-/

namespace MiniC

namespace Assembly

/-- Bytes of a pushed argument. -/
def argumentSize : Nat := 8

/-- Bytes of the return address and the saved frame pointer. -/
def linkageSize : Nat := 16

/-- Distance of a slot from the frame pointer. -/
def slotOffset : Slot → Int
  | .parameter index => (index * argumentSize + linkageSize : Nat)
  | .localVariable index => -((index + 1) * Ty.int.size : Nat)

/-- Bytes that so many variables take, rounded up to a multiple of eight. -/
def frameSize (locals : Nat) : Nat :=
  (locals * Ty.int.size + 7) / 8 * 8

/-- The place of the name in a field. -/
def address (table : Table) (quad : Quad) (field : Field) : Except Error Place := do
  let name ← quad.name field
  match table.find? quad.scope name with
  | none => .error (.internal (.notInScope name))
  | some symbol =>
      match symbol.slot? with
      | some slot => return .frame (slotOffset slot)
      | none => .error (.internal (.noStackSlot symbol.kind name))

/-- Whether a name is that of a global function. -/
def isGlobalFunction (table : Table) (name : String) : Bool :=
  match table.findGlobal? name with
  | some (.function ..) => true
  | _ => false

def instructions (list : List Instruction) : List Line :=
  list.map .instruction

/-- Copy a word through `%eax`, with `middle` in between. -/
def through (table : Table) (quad : Quad) (middle : List Instruction) :
    Except Error (List Line) := do
  let value ← address table quad .operand1
  let result ← address table quad .result
  return instructions
    ([.movl value (.register .eax)] ++ middle ++ [.movl (.register .eax) result])

/-- An operation on `%eax` and `%edx`. -/
def operation (table : Table) (quad : Quad) (compute : Instruction) :
    Except Error (List Line) := do
  let lhs ← address table quad .operand1
  let rhs ← address table quad .operand2
  let result ← address table quad .result
  return instructions
    [.movl rhs (.register .edx), .movl lhs (.register .eax), compute,
      .movl (.register .eax) result]

/-- The lines of a quadruple. -/
def ofQuad (table : Table) (quad : Quad) : Except Error (List Line) :=
  match quad.op with
  | .load => do
      let value ← quad.constant .operand1
      let result ← address table quad .result
      return instructions [.movl (.immediate value.toInt) result]
  | .assign => through table quad []
  | .uplus => through table quad []
  | .uminus => through table quad [.negl .eax]
  | .plus => operation table quad (.addl .edx .eax)
  | .minus => operation table quad (.subl .edx .eax)
  | .mult => operation table quad (.imull .edx .eax)
  | .div => do
      let lhs ← address table quad .operand1
      let rhs ← address table quad .operand2
      let result ← address table quad .result
      return instructions
        [.movl lhs (.register .eax), .cltd, .movl rhs (.register .ecx), .idivl .ecx,
          .movl (.register .eax) result]
  | .param => do
      let value ← address table quad .operand1
      return instructions [.movl value (.register .eax), .pushq .rax]
  | .call => do
      let callee ← quad.name .operand1
      let count ← quad.count .operand2
      let result ← address table quad .result
      if !isGlobalFunction table callee then
        .error (.internal (.callOfNonFunction callee))
      let drop : List Instruction := if count = 0 then [] else [.addq (count * argumentSize) .rsp]
      return instructions ([.call callee] ++ drop ++ [.movl (.register .eax) result])
  | .ret => do
      let exit ← quad.label .operand1
      let value ← address table quad .operand2
      return instructions [.movl value (.register .eax), .jmp exit]
  | .label => do
      let label ← quad.label .operand1
      return [.label label]
  | .jump => do
      let label ← quad.label .operand1
      return instructions [.jmp label]
  | .jumpIfNot => do
      let condition ← address table quad .operand1
      let label ← quad.label .operand2
      return instructions [.movl condition (.register .eax), .cmpl 0 .eax, .je label]

/-- The lines of quadruples one after the other. -/
def ofQuads (table : Table) : List Quad → Except Error (List Line)
  | [] => .ok []
  | quad :: quads => do
      let first ← ofQuad table quad
      let later ← ofQuads table quads
      return first ++ later

/-- Save the frame pointer and make room for the variables. -/
def prologue (size : Nat) : List Line :=
  instructions [.pushq .rbp, .movq .rsp .rbp, .subq size .rsp]

/-- Drop the variables, restore the frame pointer and return. -/
def epilogue : List Line :=
  instructions [.movq .rbp .rsp, .popq .rbp, .ret]

/-- How many variables a function has. -/
def variableCount (table : Table) (name : String) : Except Error Nat :=
  match table.lookupLocal Table.global name with
  | none => .error (.internal (.noFunctionSymbol name))
  | some id => do return (← table.locals id).size

/-- The lines of a function. -/
def ofFunction (table : Table) (function : FunctionCode) : Traced (List Line) := do
  let count ← .ofExcept (variableCount table function.name)
  .report (.framed function.name count (frameSize count))
  let body ← .ofExcept (ofQuads table function.body.toList)
  return [.globl function.name, .type function.name, .entry function.name]
    ++ prologue (frameSize count) ++ body ++ epilogue ++ [.size function.name]

/-- The lines of functions one after the other. -/
def ofFunctions (table : Table) : List FunctionCode → Traced (List Line)
  | [] => return []
  | function :: functions => do
      let first ← ofFunction table function
      let later ← ofFunctions table functions
      return first ++ later

end Assembly

/-- The listing of the code of a whole program. -/
def Code.assemble (code : Code) (table : Table) (fileName : String) :
    Traced (List Assembly.Line) := do
  let lines ← Assembly.ofFunctions table code.functions
  return .file fileName :: .textSection :: lines

end MiniC
