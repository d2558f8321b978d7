import MiniC.Event
import MiniC.Quad.Lowering

/-!
# Inversion of successful computations

A chain of steps succeeds exactly if every step does. Checks and parsers are chains in `Except`,
lowering is a chain that also carries a state.
-/

namespace MiniC

theorem bind_eq_ok {ε α β : Type} {first : Except ε α} {next : α → Except ε β} {b : β} :
    (first >>= next) = .ok b ↔ ∃ a, first = .ok a ∧ next a = .ok b := by
  cases first with
  | error e =>
    constructor
    · intro h
      cases h
    · rintro ⟨a, h, _⟩
      cases h
  | ok a =>
    constructor
    · intro h
      exact ⟨a, rfl, h⟩
    · rintro ⟨a', h, h'⟩
      cases h
      exact h'

@[simp] theorem ok_bind {ε α β : Type} (a : α) (next : α → Except ε β) :
    ((Except.ok a : Except ε α) >>= next) = next a := rfl

@[simp] theorem error_bind {ε α β : Type} (e : ε) (next : α → Except ε β) :
    ((Except.error e : Except ε α) >>= next) = .error e := rfl

theorem exists_ok_of_any {ε α : Type} {result : Except ε α} {good : α → Bool}
    (isGood : result.toOption.any good) : ∃ a, result = .ok a ∧ good a := by
  cases result with
  | error e => cases isGood
  | ok a => exact ⟨a, rfl, isGood⟩

namespace Lower

variable {α β : Type} {state last : Lowering}

theorem bind_eq_ok {first : Lower α} {next : α → Lower β} {b : β} :
    (first >>= next) state = .ok b last ↔
      ∃ a middle, first state = .ok a middle ∧ next a middle = .ok b last := by
  change EStateM.bind first next state = .ok b last ↔ _
  unfold EStateM.bind
  cases h : first state with
  | ok a middle =>
    constructor
    · intro h'
      exact ⟨a, middle, rfl, h'⟩
    · rintro ⟨a', middle', h', h''⟩
      cases h'
      exact h''
  | error e middle =>
    constructor
    · intro h'
      cases h'
    · rintro ⟨a', middle', h', _⟩
      cases h'

theorem require_eq_ok {result : Except Error α} {a : α} :
    require result state = .ok a last ↔ result = .ok a ∧ state = last := by
  unfold require
  cases result with
  | error e =>
    constructor
    · intro h
      cases h
    · rintro ⟨h, _⟩
      cases h
  | ok b =>
    constructor
    · intro h
      cases h
      exact ⟨rfl, rfl⟩
    · rintro ⟨h, rfl⟩
      cases h
      rfl

end Lower
end MiniC
