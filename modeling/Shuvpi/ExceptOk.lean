import Mathlib.Tactic

/-!
# Computations that succeed

What a computation that may fail has done, where it did not.
-/
namespace Shuvpi

variable {ε ε' α β : Type} {x : Except ε α}

theorem bind_ok {f : α → Except ε β} {b : β} : (x >>= f) = .ok b ↔ ∃ a, x = .ok a ∧ f a = .ok b := by
  cases x <;> simp [bind, Except.bind]

end Shuvpi
