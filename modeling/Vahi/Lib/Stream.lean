import Mathlib.Data.List.Basic

/-!
# Streams

A channel takes elements in, holds some, and gives them out. It is intact if what it took in is what
it gave out followed by what it holds.
-/

namespace Vahi.Lib

variable {α : Type*}

structure Stream (α : Type*) where
  accepted : List α
  delivered : List α
  buffered : List α

namespace Stream

def new (buffered : List α) : Stream α := ⟨buffered, [], buffered⟩

def Intact (s : Stream α) : Prop := s.accepted = s.delivered ++ s.buffered

def push (s : Stream α) (xs kept : List α) : Stream α :=
  ⟨s.accepted ++ xs, s.delivered, s.buffered ++ kept⟩

def pop (s : Stream α) (n : ℕ) (out : List α) : Stream α :=
  ⟨s.accepted, s.delivered ++ out, s.buffered.drop n⟩

theorem intact_new (buffered : List α) : (new buffered).Intact := rfl

namespace Intact

variable {s : Stream α}

theorem push_iff (h : s.Intact) (xs kept : List α) : (s.push xs kept).Intact ↔ kept = xs := by
  rw [Intact, push, h, ← List.append_assoc, List.append_cancel_left_eq]
  exact eq_comm

theorem pop_iff (h : s.Intact) (n : ℕ) (out : List α) :
    (s.pop n out).Intact ↔ out = s.buffered.take n := by
  have hsplit := List.take_append_drop n s.buffered
  rw [Intact, pop, h, List.append_assoc, List.append_cancel_left_eq]
  constructor
  · intro heq
    exact List.append_cancel_right (heq.symm.trans hsplit.symm)
  · rintro rfl
    exact hsplit.symm

/-- What was given out is what was taken in first. -/
theorem isPrefix (h : s.Intact) : s.delivered <+: s.accepted := ⟨s.buffered, h.symm⟩

end Intact

end Stream

end Vahi.Lib
