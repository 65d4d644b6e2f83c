import Mathlib.Data.List.Nodup
import Mathlib.Data.List.TakeWhile
import Mathlib.Order.Lattice

/-!
# Stable priority queues

The next entry served is the oldest of those with the highest key. A list sorted by key, new entries
behind those of the same key, has them in the order in which they will be served.
-/

namespace Vahi.Lib

open List

variable {α κ : Type*}

/-- `arrivals` is the number of entries that ever arrived. -/
structure StableQueue (α : Type*) where
  arrivals : ℕ
  waiting : List (ℕ × α)
  served : List (ℕ × α)

namespace StableQueue

def empty : StableQueue α := ⟨0, [], []⟩

def arrive (s : StableQueue α) (x : α) : StableQueue α :=
  { s with arrivals := s.arrivals + 1, waiting := s.waiting ++ [(s.arrivals, x)] }

def serve [DecidableEq α] (s : StableQueue α) (e : ℕ × α) : StableQueue α :=
  { s with waiting := s.waiting.erase e, served := s.served ++ [e] }

/-- The entry waits, no waiting entry has a higher key, and it arrived before all others
of its key. -/
def Next [LinearOrder κ] (key : α → κ) (s : StableQueue α) (e : ℕ × α) : Prop :=
  e ∈ s.waiting ∧ ∀ e' ∈ s.waiting, key e'.2 < key e.2 ∨ key e'.2 = key e.2 ∧ e.1 ≤ e'.1

structure Distinct (s : StableQueue α) : Prop where
  below : ∀ e ∈ s.waiting ++ s.served, e.1 < s.arrivals
  nodup : ((s.waiting ++ s.served).map Prod.fst).Nodup

theorem distinct_empty : (empty : StableQueue α).Distinct :=
  ⟨by simp [empty], by simp [empty]⟩

variable {s : StableQueue α}

theorem Distinct.arrive (h : s.Distinct) (x : α) :
    (s.arrive x).Distinct := by
  have hperm : ((s.arrive x).waiting ++ (s.arrive x).served).Perm
      ((s.arrivals, x) :: (s.waiting ++ s.served)) := by
    show (s.waiting ++ [(s.arrivals, x)] ++ s.served).Perm _
    rw [append_assoc]
    exact perm_middle
  constructor
  · intro e he
    cases mem_cons.mp (hperm.mem_iff.mp he) with
    | inl hnew => rw [hnew]; exact Nat.lt_succ_self _
    | inr hold => exact Nat.lt_succ_of_lt (h.below e hold)
  · rw [(hperm.map Prod.fst).nodup_iff, map_cons, nodup_cons]
    refine ⟨?_, h.nodup⟩
    intro hmem
    obtain ⟨e, he, heq⟩ := mem_map.mp hmem
    exact absurd (h.below e he) (by rw [heq]; exact Nat.lt_irrefl _)

theorem Distinct.serve [DecidableEq α] (h : s.Distinct) {e : ℕ × α}
    (he : e ∈ s.waiting) : (s.serve e).Distinct := by
  have hperm : ((s.serve e).waiting ++ (s.serve e).served).Perm (s.waiting ++ s.served) := by
    show (s.waiting.erase e ++ (s.served ++ [e])).Perm _
    rw [← append_assoc]
    calc s.waiting.erase e ++ s.served ++ [e]
        |>.Perm (e :: (s.waiting.erase e ++ s.served)) := perm_append_singleton _ _
      List.Perm _ (s.waiting ++ s.served) :=
        (perm_cons_erase he).symm.append_right s.served
  constructor
  · intro e' he'
    exact h.below e' (hperm.mem_iff.mp he')
  · rw [(hperm.map Prod.fst).nodup_iff]
    exact h.nodup

end StableQueue

section Sorted

variable [LinearOrder κ] (key : α → κ)

def Before (e e' : ℕ × α) : Prop := key e'.2 < key e.2 ∨ key e'.2 = key e.2 ∧ e.1 < e'.1

structure Sorts (q w : List (ℕ × α)) : Prop where
  perm : q.Perm w
  sorted : q.Pairwise (Before key)

/-- The place of a new entry: before the first one with a smaller key. -/
def insertByKey (x : α) (l : List α) : List α :=
  l.insertIdx (l.findIdx fun y => decide (key y < key x)) x

theorem insertByKey_cons (x y : α) (l : List α) :
    insertByKey key x (y :: l) =
      if key y < key x then x :: y :: l else y :: insertByKey key x l := by
  unfold insertByKey
  rw [findIdx_cons]
  by_cases hlow : key y < key x
  · simp [hlow]
  · simp [hlow]

theorem map_insertByKey {β : Type*} (f : β → α) (x : β) (l : List β) :
    (insertByKey (key ∘ f) x l).map f = insertByKey key (f x) (l.map f) := by
  induction l with
  | nil => rfl
  | cons y l ih =>
    rw [insertByKey_cons, map_cons, insertByKey_cons]
    by_cases hlow : key (f y) < key (f x)
    · rw [if_pos hlow, if_pos (show (key ∘ f) y < (key ∘ f) x from hlow)]
      rfl
    · rw [if_neg hlow, if_neg (show ¬(key ∘ f) y < (key ∘ f) x from hlow), map_cons, ih]

theorem insertByKey_perm (x : α) (l : List α) : (insertByKey key x l).Perm (x :: l) :=
  perm_insertIdx x l (findIdx_le_length)

variable {key}

theorem Sorts.nil : Sorts key ([] : List (ℕ × α)) [] := ⟨List.Perm.refl _, List.Pairwise.nil⟩

variable {e : ℕ × α} {q w : List (ℕ × α)}

theorem Sorts.tail [DecidableEq α] (h : Sorts key (e :: q) w) : Sorts key q (w.erase e) := by
  refine ⟨?_, h.sorted.of_cons⟩
  have herase := h.perm.erase e
  rwa [erase_cons_head] at herase

theorem Sorts.next {s : StableQueue α} (h : Sorts key (e :: q) s.waiting) : s.Next key e := by
  refine ⟨h.perm.mem_iff.mp (mem_cons_self ..), ?_⟩
  intro e' he'
  cases mem_cons.mp (h.perm.mem_iff.mpr he') with
  | inl hsame => exact Or.inr ⟨by rw [hsame], by rw [hsame]⟩
  | inr hrest =>
    cases rel_of_pairwise_cons h.sorted hrest with
    | inl hlow => exact Or.inl hlow
    | inr hold => exact Or.inr ⟨hold.1, Nat.le_of_lt hold.2⟩

/-- A new entry goes behind all those of its key or a higher one. -/
theorem Sorts.insert (h : Sorts key q w) {n : ℕ} (hn : ∀ e ∈ w, e.1 < n)
    (x : α) : Sorts key (insertByKey (key ∘ Prod.snd) (n, x) q) (w ++ [(n, x)]) := by
  have hq : ∀ e ∈ q, e.1 < n := fun e he => hn e (h.perm.mem_iff.mp he)
  constructor
  · calc (insertByKey (key ∘ Prod.snd) (n, x) q)
        |>.Perm ((n, x) :: q) := insertByKey_perm _ _ _
      List.Perm _ ((n, x) :: w) := h.perm.cons _
      List.Perm _ (w ++ [(n, x)]) := (perm_append_singleton _ _).symm
  · have hsorted := h.sorted
    clear h hn
    induction q with
    | nil => exact pairwise_singleton _ _
    | cons e q ih =>
      obtain ⟨hhead, htail⟩ := pairwise_cons.mp hsorted
      have hrest := ih (fun e' he' => hq e' (mem_cons_of_mem _ he')) htail
      rw [insertByKey_cons]
      by_cases hlow : (key ∘ Prod.snd) e < (key ∘ Prod.snd) (n, x)
      · -- everything behind the first smaller key is smaller as well
        rw [if_pos hlow]
        refine pairwise_cons.mpr ⟨?_, hsorted⟩
        intro e' he'
        cases mem_cons.mp he' with
        | inl hsame => exact Or.inl (hsame ▸ hlow)
        | inr hmem =>
          cases hhead e' hmem with
          | inl hlt => exact Or.inl (lt_trans hlt hlow)
          | inr heq => exact Or.inl (lt_of_eq_of_lt heq.1 hlow)
      · rw [if_neg hlow]
        refine pairwise_cons.mpr ⟨?_, hrest⟩
        intro e' he'
        cases mem_cons.mp ((insertByKey_perm _ _ _).mem_iff.mp he') with
        | inl hnew =>
          rw [hnew]
          cases lt_or_eq_of_le (not_lt.mp hlow) with
          | inl hlt => exact Or.inl hlt
          | inr heq => exact Or.inr ⟨heq, hq e (mem_cons_self ..)⟩
        | inr hmem => exact hhead e' hmem

end Sorted

end Vahi.Lib
