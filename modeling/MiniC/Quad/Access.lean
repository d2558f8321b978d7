import MiniC.Symbol.Table

/-!
# Access to the fields of a quadruple

Reading the fields of a quadruple as what its opcode needs them to be.
-/

namespace MiniC.Quad

def malformed (quad : Quad) (wanted : OperandSort) (field : Field) : Error :=
  .internal (.malformedQuad quad wanted field)

def name (quad : Quad) (field : Field) : Except Error String :=
  match quad.field? field with
  | some (.name text) => .ok text
  | _ => .error (quad.malformed .name field)

def label (quad : Quad) (field : Field) : Except Error Label :=
  match quad.field? field with
  | some (.label target) => .ok target
  | _ => .error (quad.malformed .label field)

def constant (quad : Quad) (field : Field) : Except Error Int32 :=
  match quad.field? field with
  | some (.constant value) => .ok value
  | _ => .error (quad.malformed .constant field)

def count (quad : Quad) (field : Field) : Except Error Nat :=
  match quad.field? field with
  | some (.count arguments) => .ok arguments
  | _ => .error (quad.malformed .count field)

end MiniC.Quad
