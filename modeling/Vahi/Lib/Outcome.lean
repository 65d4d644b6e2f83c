import Mathlib.Tactic.Common

/-!
# Outcomes of kernel code

A computation returns a value, panics, or keeps running. A loop that is not bounded by its own data
carries a bound and reports `hang` when it uses it up.
-/

namespace Vahi.Lib

inductive Outcome (α : Type u) where
  | ok (a : α)
  | panic
  | hang
  deriving DecidableEq

namespace Outcome

variable {α β : Type u}

def bind (x : Outcome α) (f : α → Outcome β) : Outcome β :=
  match x with
  | ok a => f a
  | panic => panic
  | hang => hang

instance : Monad Outcome where
  pure := ok
  bind := bind

@[simp] theorem pure_eq_ok (a : α) : (pure a : Outcome α) = ok a := rfl

@[simp] theorem ok_bind (a : α) (f : α → Outcome β) : (ok a >>= f) = f a := rfl

@[simp] theorem panic_bind (f : α → Outcome β) : ((panic : Outcome α) >>= f) = panic := rfl

@[simp] theorem hang_bind (f : α → Outcome β) : ((hang : Outcome α) >>= f) = hang := rfl

variable {x : Outcome α} {f : α → Outcome β}

/-- A sequence returns exactly when both of its parts do. -/
theorem bind_eq_ok {b : β} : (x >>= f) = ok b ↔ ∃ a, x = ok a ∧ f a = ok b := by
  cases x <;> simp

end Outcome

end Vahi.Lib
