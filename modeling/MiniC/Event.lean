import MiniC.Error
import MiniC.Tree.Text

/-!
# Events

What a compilation reports on its way, beside its result.

A `Traced` computation keeps the events up to its end, whether it succeeds or fails.
-/

namespace MiniC

inductive Level where
  | debug
  | trace
deriving DecidableEq, Repr, Inhabited

inductive Event where
  | parsed (nodes : Nat)
  | resolved (scopes : Nat)
  | analyzed
  | folding (level : Nat)
  | foldedBinary (op : BinaryOp) (lhs rhs : Node) (pos : Position)
  | foldedUnary (op : UnaryOp) (operand : Node) (pos : Position)
  | lowered (function : String) (quads : Nat)
  | generated (quads : Nat)
  | framed (function : String) (locals frameSize : Nat)
  | emitted (lines : Nat)
  | called (caller callee : String) (arguments : List Int32)

namespace Event

def level : Event → Level
  | foldedBinary .. => .trace
  | foldedUnary .. => .trace
  | called .. => .trace
  | _ => .debug

def message : Event → String
  | parsed nodes => "parsed " ++ toString nodes ++ " syntax tree nodes"
  | resolved scopes => "resolved " ++ toString scopes ++ " scopes"
  | analyzed => "semantic analysis passed"
  | folding level => "folding constants (level " ++ toString level ++ ")"
  | foldedBinary op lhs rhs pos =>
      "folded (" ++ lhs.text ++ " " ++ op.symbol ++ " " ++ rhs.text ++ ") at " ++ pos.text
  | foldedUnary op operand pos =>
      "folded (" ++ op.symbol ++ operand.text ++ ") at " ++ pos.text
  | lowered function quads =>
      "lowered " ++ quoted function ++ " to " ++ toString quads ++ " quadruples"
  | generated quads => "generated " ++ toString quads ++ " quadruples"
  | framed function locals frameSize =>
      quoted function ++ ": " ++ toString locals ++ " local slot(s), " ++ toString frameSize
        ++ " byte frame"
  | emitted lines => "emitted " ++ toString lines ++ " lines of assembly"
  | called caller callee arguments =>
      caller ++ " -> " ++ callee ++ "["
        ++ ", ".intercalate (arguments.map fun value => toString value.toInt) ++ "]"

end Event

/-- A result together with the events reported before it was known. -/
structure Traced (α : Type) where
  events : List Event
  result : Except Error α

namespace Traced

variable {α β : Type}

def pure (value : α) : Traced α := ⟨[], .ok value⟩

/-- Go on with the value of `first`, if it has one. -/
def bind (first : Traced α) (next : α → Traced β) : Traced β :=
  match first.result with
  | .ok value =>
      let second := next value
      ⟨first.events ++ second.events, second.result⟩
  | .error error => ⟨first.events, .error error⟩

instance : Monad Traced where
  pure := pure
  bind := bind

/-- A result that nothing was reported for. -/
def ofExcept (result : Except Error α) : Traced α := ⟨[], result⟩

def report (event : Event) : Traced Unit := ⟨[event], .ok ()⟩

@[simp] theorem result_pure (value : α) : (Pure.pure value : Traced α).result = .ok value := rfl

/-- Events have no influence on results. -/
@[simp] theorem result_bind (first : Traced α) (next : α → Traced β) :
    (first >>= next).result = first.result >>= fun value => (next value).result := by
  change (bind first next).result = _
  unfold bind
  cases first.result <;> rfl

@[simp] theorem result_ofExcept (result : Except Error α) : (ofExcept result).result = result := rfl

@[simp] theorem result_report (event : Event) : (report event).result = .ok () := rfl

end Traced
end MiniC
