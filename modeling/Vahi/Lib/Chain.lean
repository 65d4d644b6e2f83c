import Mathlib.Data.List.Nodup

/-!
# Singly linked chains

A list kept inside the cells it links: each cell holds the address of the next one.
-/

namespace Vahi.Lib

open Function

variable {α : Type*}

/-- Following `next` from `head` visits exactly the cells `l` and then ends. -/
def IsChain (next : α → Option α) : Option α → List α → Prop
  | head, [] => head = none
  | head, a :: l => head = some a ∧ IsChain next (next a) l

def walk (next : α → Option α) : ℕ → Option α → List α
  | 0, _ => []
  | _ + 1, none => []
  | n + 1, some a => a :: walk next n (next a)

namespace IsChain

variable {next : α → Option α} {head : Option α} {l : List α}

theorem head_eq (h : IsChain next head l) : head = l.head? := by
  cases l with
  | nil => exact h
  | cons a l => exact h.1

variable {a : α} {l₁ l₂ : List α}

/-- A traversal with enough steps meets every cell of the chain and no other. -/
theorem walk_eq (h : IsChain next head l) {n : ℕ} (hn : l.length ≤ n) :
    walk next n head = l := by
  induction l generalizing head n with
  | nil =>
    obtain rfl : head = none := h
    cases n <;> rfl
  | cons a l ih =>
    obtain ⟨rfl, h⟩ := h
    cases n with
    | zero => simp at hn
    | succ n =>
      rw [walk, ih h (by simpa using hn)]

/-- The part of a chain behind one of its cells. -/
theorem after_append (h : IsChain next head (l₁ ++ a :: l₂)) : IsChain next (next a) l₂ := by
  induction l₁ generalizing head with
  | nil => exact h.2
  | cons b l₁ ih => exact ih h.2

variable [DecidableEq α]

/-- Rewriting the link of a cell outside the chain leaves the chain alone. -/
theorem update_of_notMem (h : IsChain next head l) (ha : a ∉ l) (v : Option α) :
    IsChain (update next a v) head l := by
  induction l generalizing head with
  | nil => exact h
  | cons b l ih =>
    simp only [List.mem_cons, not_or] at ha
    refine ⟨h.1, ?_⟩
    rw [update_of_ne (Ne.symm ha.1)]
    exact ih h.2 ha.2

/-- Pushing a fresh cell in front of the chain. -/
theorem push (h : IsChain next head l) (ha : a ∉ l) :
    IsChain (update next a head) (some a) (a :: l) := by
  refine ⟨rfl, ?_⟩
  rw [update_self]
  exact h.update_of_notMem ha head

/-- Unlinking the cell `a` behind `p` by letting `p` point past it. -/
theorem unlink {p : α} (h : IsChain next head (l₁ ++ p :: a :: l₂))
    (hnd : (l₁ ++ p :: a :: l₂).Nodup) :
    IsChain (update next p (next a)) head (l₁ ++ p :: l₂) := by
  induction l₁ generalizing head with
  | nil =>
    obtain ⟨rfl, hpa, h⟩ := h
    simp only [List.nil_append, List.nodup_cons, List.mem_cons, not_or] at hnd
    refine ⟨rfl, ?_⟩
    rw [update_self]
    exact h.update_of_notMem hnd.1.2 _
  | cons b l₁ ih =>
    simp only [List.cons_append, List.nodup_cons, List.mem_append, List.mem_cons, not_or] at hnd
    refine ⟨h.1, ?_⟩
    rw [update_of_ne hnd.1.2.1]
    exact ih h.2 hnd.2

end IsChain

end Vahi.Lib
