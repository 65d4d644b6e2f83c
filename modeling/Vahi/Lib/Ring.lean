import Mathlib.Data.List.Basic
import Mathlib.Data.Nat.Bitwise
import Mathlib.Data.Nat.ModEq

/-!
# Rings

Position `i` of a growing log is in slot `slot i`. As long as no two positions in use have the same
slot, writing the next one leaves the others as they are. A ring whose size is a power of two gives
as many consecutive positions as it has slots different ones.
-/

namespace Vahi.Lib.Ring

open List

variable {α : Type*}

/-- The slots with `x` in slot `i`; slots that did not exist are filled with `d`. -/
def put (d : α) (slots : List α) (i : ℕ) (x : α) : List α :=
  (slots ++ List.replicate (i + 1 - slots.length) d).set i x

/-- The elements are put into the slots for the positions from `n` on. -/
def putAll (d : α) (slot : ℕ → ℕ) : List α → ℕ → List α → List α
  | slots, _, [] => slots
  | slots, n, x :: xs => putAll d slot (put d slots (slot n) x) (n + 1) xs

def Holds (slot : ℕ → ℕ) (slots log : List α) (lo : ℕ) : Prop :=
  ∀ i, lo ≤ i → i < log.length → slots[slot i]? = log[i]?

/-- Different positions from `lo` on, up to `hi`, have different slots. -/
def Apart (slot : ℕ → ℕ) (lo hi : ℕ) : Prop :=
  ∀ i j, lo ≤ i → i < j → j < hi → slot i ≠ slot j

theorem getElem?_put_self (d : α) (slots : List α) (i : ℕ) (x : α) :
    (put d slots i x)[i]? = some x := by
  rw [put, getElem?_set_self]
  rw [length_append, length_replicate]
  omega

theorem getElem?_put_of_ne (d : α) {slots : List α} {i j : ℕ} (x : α) (hne : j ≠ i)
    (hj : j < slots.length) : (put d slots i x)[j]? = slots[j]? := by
  rw [put, getElem?_set_ne hne.symm, getElem?_append_left hj]

theorem mod_ne_of_lt {c i n : ℕ} (hi : i < n) (hn : n < i + c) : i % c ≠ n % c := by
  intro heq
  have hle := Nat.le_of_dvd (Nat.sub_pos_of_lt hi) ((Nat.modEq_iff_dvd' hi.le).mp heq)
  omega

/-- A mask that is one less than a power of two. -/
theorem apart_two_pow {k lo hi : ℕ} (h : hi ≤ lo + 2 ^ k) : Apart (· &&& (2 ^ k - 1)) lo hi := by
  intro i j hlo hij hhi
  dsimp only
  rw [Nat.and_two_pow_sub_one_eq_mod, Nat.and_two_pow_sub_one_eq_mod]
  exact mod_ne_of_lt hij (by omega)

namespace Holds

variable {slot : ℕ → ℕ} {slots log : List α} {lo : ℕ}

/-- Nothing is held from the end of the log on. -/
theorem none (slot : ℕ → ℕ) (slots log : List α) : Holds slot slots log log.length :=
  fun i hi hlt => absurd hlt (by omega)

theorem put (h : Holds slot slots log lo) (d x : α) (hapart : Apart slot lo (log.length + 1)) :
    Holds slot (Ring.put d slots (slot log.length) x) (log ++ [x]) lo := by
  intro i hlo hi
  rw [length_append, length_singleton] at hi
  rcases Nat.lt_succ_iff_lt_or_eq.mp hi with hlt | heq
  · have hslot := h i hlo hlt
    have hlen : slot i < slots.length := by
      rw [getElem?_eq_getElem hlt] at hslot
      exact (List.getElem?_eq_some_iff.mp hslot).1
    have hne := hapart i log.length hlo hlt (Nat.lt_succ_self _)
    rw [getElem?_put_of_ne d x hne hlen, hslot, getElem?_append_left hlt]
  · subst heq
    rw [getElem?_put_self, getElem?_concat_length]

theorem putAll (h : Holds slot slots log lo) (d : α) {xs : List α}
    (hapart : Apart slot lo (log.length + xs.length)) :
    Holds slot (Ring.putAll d slot slots log.length xs) (log ++ xs) lo := by
  induction xs generalizing slots log with
  | nil =>
    rw [append_nil]
    exact h
  | cons x xs ih =>
    rw [length_cons] at hapart
    have hput := h.put d x fun i j hlo hij hj => hapart i j hlo hij (by omega)
    have hlen : (log ++ [x]).length = log.length + 1 := length_append
    have hall := ih hput fun i j hlo hij hj => hapart i j hlo hij (by omega)
    rw [hlen, append_assoc] at hall
    exact hall

end Holds

end Vahi.Lib.Ring
