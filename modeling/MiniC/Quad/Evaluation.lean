import MiniC.Event
import MiniC.Quad.Access

/-!
# Running quadruples

Arithmetic is that of the target: words are widened to 64 bits, computed with, and cut back to 32
bits, and a division traps if the divisor is zero or the quotient is no word. Every activation of a
function has its own slots, all variables starting at zero, and an accumulator that holds the value
returned last: a function that runs off its end returns what its accumulator holds.

Calls nest at most `maxCallDepth` deep. Within an activation a run is granted a number of steps;
jumps of lowered code only go forward, so as many steps as there are quadruples are enough for it.
-/

namespace MiniC

/-! ## Arithmetic of the target -/

namespace Alu

def add (lhs rhs : Int32) : Int32 := (lhs.toInt64 + rhs.toInt64).toInt32
def sub (lhs rhs : Int32) : Int32 := (lhs.toInt64 - rhs.toInt64).toInt32
def mul (lhs rhs : Int32) : Int32 := (lhs.toInt64 * rhs.toInt64).toInt32
def neg (value : Int32) : Int32 := (-value.toInt64).toInt32

/-- The quotient cut off toward zero, unless the division traps. -/
def div? (dividend divisor : Int32) : Option Int32 :=
  if divisor = 0 then none
  else
    let quotient := dividend.toInt64 / divisor.toInt64
    if Int32.minValue.toInt64 ≤ quotient ∧ quotient ≤ Int32.maxValue.toInt64 then
      some quotient.toInt32
    else none

end Alu

/-! ## Slots -/

/-- The storage of one call of a function. -/
structure Activation where
  parameters : Array Int32
  locals : Array Int32
deriving DecidableEq, Repr, Inhabited

namespace Activation

def read? (frame : Activation) : Slot → Option Int32
  | .parameter index => frame.parameters[index]?
  | .localVariable index => frame.locals[index]?

def write? (frame : Activation) (value : Int32) : Slot → Option Activation
  | .parameter index =>
      if index < frame.parameters.size then
        some { frame with parameters := frame.parameters.setIfInBounds index value }
      else none
  | .localVariable index =>
      if index < frame.locals.size then
        some { frame with locals := frame.locals.setIfInBounds index value }
      else none

end Activation

namespace Quad

/-- The slot of a name, looked up in the scope of the quadruple. -/
def locate (table : Table) (quad : Quad) (name : String) : Except Error Slot :=
  match table.find? quad.scope name with
  | none => .error (.evaluation (.unknownName name))
  | some symbol =>
      match symbol.slot? with
      | some slot => .ok slot
      | none => .error (.evaluation (.notStorage name symbol.kind))

/-- The value that the name in a field holds. -/
def fetch (table : Table) (frame : Activation) (quad : Quad) (field : Field) :
    Except Error Int32 := do
  let name ← quad.name field
  let slot ← quad.locate table name
  match frame.read? slot with
  | some value => return value
  | none => .error (.evaluation (.noSlot name))

/-- The activation after the name in a field got a value. -/
def store (table : Table) (frame : Activation) (quad : Quad) (field : Field) (value : Int32) :
    Except Error Activation := do
  let name ← quad.name field
  let slot ← quad.locate table name
  match frame.write? value slot with
  | some frame => return frame
  | none => .error (.evaluation (.noSlot name))

end Quad

/-! ## Single steps -/

/-- An activation in progress. -/
structure Progress where
  /-- Index of the next quadruple. -/
  pc : Nat
  /-- The value returned last. -/
  accumulator : Int32
  /-- Arguments pushed for calls to come, the last one first. -/
  pushed : List Int32
  frame : Activation
deriving DecidableEq, Repr

/-- What a quadruple asks for. -/
inductive Action where
  | proceed (progress : Progress)
  /-- Call a function, and then let the quadruple receive its value. -/
  | call (callee : String) (arguments : List Int32) (progress : Progress)

/-- What an activation runs: the body of a function and the places of its labels. -/
structure Routine where
  name : String
  body : Array Quad
  targets : List (Label × Nat)

/-- The labels of a body and the indices of their quadruples, the first of them being `index`. -/
def labelTargets (index : Nat) : List Quad → Except Error (List (Label × Nat))
  | [] => .ok []
  | quad :: quads =>
      match quad.op with
      | .label => do
          let label ← quad.label .operand1
          return (label, index) :: (← labelTargets (index + 1) quads)
      | _ => labelTargets (index + 1) quads

/-- The place of a label; if it is defined twice, the later one. -/
def lastTarget? (label : Label) : List (Label × Nat) → Option Nat
  | [] => none
  | (other, index) :: targets =>
      match lastTarget? label targets with
      | some found => some found
      | none => if other = label then some index else none

namespace Routine

def target (routine : Routine) (quad : Quad) (field : Field) : Except Error Nat := do
  let label ← quad.label field
  match lastTarget? label routine.targets with
  | some index => return index
  | none => .error (.evaluation (.undefinedLabel label))

/-- Apply `f` to the value in the first operand and store what it gives. -/
def unary (table : Table) (progress : Progress) (quad : Quad) (f : Int32 → Int32) :
    Except Error Action := do
  let value ← quad.fetch table progress.frame .operand1
  let frame ← quad.store table progress.frame .result (f value)
  return .proceed { progress with frame }

/-- Apply `f` to the values in both operands and store what it gives. -/
def binary (routine : Routine) (table : Table) (progress : Progress) (quad : Quad)
    (f : Int32 → Int32 → Option Int32) : Except Error Action := do
  let lhs ← quad.fetch table progress.frame .operand1
  let rhs ← quad.fetch table progress.frame .operand2
  match f lhs rhs with
  | none => .error (.evaluation (.divisionFault lhs rhs routine.name))
  | some value => do
      let frame ← quad.store table progress.frame .result value
      return .proceed { progress with frame }

/-- Take one quadruple; `progress` already points behind it. -/
def step (routine : Routine) (table : Table) (progress : Progress) (quad : Quad) :
    Except Error Action :=
  match quad.op with
  | .load => do
      let value ← quad.constant .operand1
      let frame ← quad.store table progress.frame .result value
      return .proceed { progress with frame }
  | .assign => unary table progress quad id
  | .uplus => unary table progress quad id
  | .uminus => unary table progress quad Alu.neg
  | .plus => routine.binary table progress quad fun lhs rhs => some (Alu.add lhs rhs)
  | .minus => routine.binary table progress quad fun lhs rhs => some (Alu.sub lhs rhs)
  | .mult => routine.binary table progress quad fun lhs rhs => some (Alu.mul lhs rhs)
  | .div => routine.binary table progress quad Alu.div?
  | .param => do
      let value ← quad.fetch table progress.frame .operand1
      return .proceed { progress with pushed := value :: progress.pushed }
  | .call => do
      let callee ← quad.name .operand1
      let count ← quad.count .operand2
      if progress.pushed.length < count then
        .error (.evaluation (.missingArguments callee count progress.pushed.length))
      return .call callee (progress.pushed.take count)
        { progress with pushed := progress.pushed.drop count }
  | .ret => do
      let value ← quad.fetch table progress.frame .operand2
      let pc ← routine.target quad .operand1
      return .proceed { progress with pc, accumulator := value }
  | .jump => do
      let pc ← routine.target quad .operand1
      return .proceed { progress with pc }
  | .jumpIfNot => do
      let value ← quad.fetch table progress.frame .operand1
      if value = 0 then
        let pc ← routine.target quad .operand2
        return .proceed { progress with pc }
      else return .proceed progress
  | .label => return .proceed progress

/-- The value of a call goes into the accumulator and into the result of the quadruple. -/
def receive (table : Table) (progress : Progress) (quad : Quad) (value : Int32) :
    Except Error Progress := do
  let frame ← quad.store table progress.frame .result value
  return { progress with frame, accumulator := value }

/-! ## Runs -/

/-- Run from `progress` to the end of the body, with calls answered by `callee`. -/
def run (routine : Routine) (table : Table) (limit : Nat)
    (callee : String → List Int32 → Traced Int32) : (steps : Nat) → Progress → Traced Int32
  | 0, _ => .ofExcept (.error (.evaluation (.stepsExceeded limit routine.name)))
  | steps + 1, progress =>
      match routine.body[progress.pc]? with
      | none => return progress.accumulator
      | some quad =>
          match routine.step table { progress with pc := progress.pc + 1 } quad with
          | .error error => .ofExcept (.error error)
          | .ok (.proceed progress) => routine.run table limit callee steps progress
          | .ok (.call function arguments progress) => do
              .report (.called routine.name function arguments)
              let value ← callee function arguments
              let progress ← .ofExcept (receive table progress quad value)
              routine.run table limit callee steps progress

end Routine

/-- The deepest nesting of calls. -/
def maxCallDepth : Nat := 1000

namespace Code

/-- Look a function up and lay out its slots. -/
def enter (code : Code) (table : Table) (function : String) (arguments : List Int32) :
    Except Error (Routine × Progress) := do
  match code.body? function with
  | none => .error (.evaluation (.noCode function))
  | some body =>
      match table.lookupLocal Table.global function with
      | none => .error (.evaluation (.unknownFunction function))
      | some id => do
          let parameters ← table.parameters id
          if parameters.size ≠ arguments.length then
            .error (.evaluation (.argumentCount function parameters.size arguments.length))
          let locals ← table.locals id
          let targets ← labelTargets 0 body.toList
          return (⟨function, body, targets⟩,
            ⟨0, 0, [], ⟨arguments.toArray, Array.replicate locals.size 0⟩⟩)

/-- Call a function, with calls nesting at most `depth` deep and `steps` steps in every
activation. -/
def callWithin (code : Code) (table : Table) (steps : Nat) :
    (depth : Nat) → String → List Int32 → Traced Int32
  | 0, function, _ => .ofExcept (.error (.evaluation (.depthExceeded maxCallDepth function)))
  | depth + 1, function, arguments => do
      let (routine, progress) ← .ofExcept (code.enter table function arguments)
      routine.run table steps (code.callWithin table steps depth) steps progress

/-- Call a function and return its value. Each activation may take one step for every quadruple of
the code and one to find its end. -/
def run (code : Code) (table : Table) (function : String) (arguments : List Int32) :
    Traced Int32 :=
  code.callWithin table (code.size + 1) maxCallDepth function arguments

end Code
end MiniC
