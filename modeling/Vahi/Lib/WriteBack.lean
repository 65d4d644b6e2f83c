import Mathlib.Data.List.Basic

/-!
# Write-back caches

A dirty line holds a value that the store does not have yet. Cache and store together are a plain
map, and the operations on single lines change it as such.
-/

namespace Vahi.Lib

open List Function

structure Line (κ ν : Type*) where
  key : κ
  data : ν
  dirty : Bool
  valid : Bool
  deriving DecidableEq

variable {κ ν : Type*} [DecidableEq κ]

variable (lines : List (Line κ ν))

def view (back : κ → ν) (k : κ) : ν :=
  ((lines.find? fun l => l.valid && l.key = k).map Line.data).getD (back k)

def Absent (k : κ) : Prop := ∀ l ∈ lines, l.valid → l.key ≠ k

section

variable {α : Type*} {xs : List α} {i j : ℕ} {x y : α}

/-- An element of the new list is the new one or one of the others. -/
theorem set_cases (hlt : i < xs.length) (hj : (xs.set i y)[j]? = some x) :
    (j = i ∧ x = y) ∨ (j ≠ i ∧ xs[j]? = some x) := by
  by_cases hji : i = j
  · subst hji
    rw [getElem?_set_self hlt] at hj
    exact Or.inl ⟨rfl, (Option.some.inj hj).symm⟩
  · rw [getElem?_set_ne hji] at hj
    exact Or.inr ⟨Ne.symm hji, hj⟩

theorem find?_set {p : α → Bool} (hi : xs[i]? = some x)
    (hx : p x = false) (hy : p y = false) : (xs.set i y).find? p = xs.find? p := by
  induction xs generalizing i with
  | nil => rfl
  | cons z xs ih =>
    cases i with
    | zero =>
      cases hi
      rw [set_cons_zero, find?_cons, find?_cons, hx, hy]
    | succ i => rw [set_cons_succ, find?_cons, find?_cons, ih hi]

end

structure Coherent (lines : List (Line κ ν)) (back : κ → ν) : Prop where
  unique : ∀ (i j : ℕ) (l l' : Line κ ν), lines[i]? = some l → lines[j]? = some l' →
    l.valid → l'.valid → l.key = l'.key → i = j
  dirtyValid : ∀ l ∈ lines, l.dirty → l.valid
  clean : ∀ l ∈ lines, l.valid → ¬l.dirty → l.data = back l.key

theorem view_of_absent {lines : List (Line κ ν)} {k : κ} (h : Absent lines k) (back : κ → ν) :
    view lines back k = back k := by
  have hnone : lines.find? (fun l => l.valid && l.key = k) = none := by
    rw [find?_eq_none]
    intro l hl hk
    simp only [Bool.and_eq_true, decide_eq_true_eq] at hk
    exact h l hl hk.1 hk.2
  rw [view, hnone]
  rfl

namespace Coherent

variable {lines : List (Line κ ν)} {back : κ → ν}

theorem view_eq (h : Coherent lines back) {l : Line κ ν} (hl : l ∈ lines) (hvalid : l.valid) :
    view lines back l.key = l.data := by
  obtain ⟨l', hfind⟩ : ∃ l', lines.find? (fun m => m.valid && m.key = l.key) = some l' := by
    apply Option.isSome_iff_exists.mp
    rw [find?_isSome]
    exact ⟨l, hl, by simp [hvalid]⟩
  have hkey := find?_some hfind
  simp only [Bool.and_eq_true, decide_eq_true_eq] at hkey
  obtain ⟨i, hi⟩ := mem_iff_getElem?.mp hl
  obtain ⟨j, hj⟩ := mem_iff_getElem?.mp (mem_of_find?_eq_some hfind)
  obtain rfl := h.unique j i l' l hj hi hkey.1 hvalid hkey.2
  obtain rfl : l' = l := Option.some.inj (hj.symm.trans hi)
  rw [view, hfind]
  rfl

end Coherent

/-! ## Replacing one line -/

def Elsewhere (i : ℕ) (k : κ) : Prop :=
  ∃ j l, j ≠ i ∧ lines[j]? = some l ∧ l.valid ∧ l.key = k

namespace Coherent

variable {lines : List (Line κ ν)} {back back' : κ → ν} {i : ℕ} {l l' : Line κ ν}

omit [DecidableEq κ] in
theorem not_elsewhere (h : Coherent lines back) (hi : lines[i]? = some l) (hvalid : l.valid) :
    ¬Elsewhere lines i l.key := by
  rintro ⟨j, m, hne, hj, hm, hkey⟩
  exact hne (h.unique j i m l hj hi hm hvalid hkey)

omit [DecidableEq κ] in
theorem set (h : Coherent lines back) (hi : lines[i]? = some l)
    (hback : ∀ k, Elsewhere lines i k → back' k = back k)
    (hnew : l'.valid → ¬Elsewhere lines i l'.key) (hdirty : l'.dirty → l'.valid)
    (hclean : l'.valid → ¬l'.dirty → l'.data = back' l'.key) :
    Coherent (lines.set i l') back' := by
  have hlt := (List.getElem?_eq_some_iff.mp hi).1
  constructor
  · intro j j' m m' hj hj' hm hm' hkey
    cases set_cases hlt hj with
    | inl hself =>
      obtain ⟨rfl, rfl⟩ := hself
      cases set_cases hlt hj' with
      | inl hself' => exact hself'.1.symm
      | inr hother => exact absurd ⟨j', m', hother.1, hother.2, hm', hkey.symm⟩ (hnew hm)
    | inr hother =>
      cases set_cases hlt hj' with
      | inl hself' =>
        obtain ⟨rfl, rfl⟩ := hself'
        exact absurd ⟨j, m, hother.1, hother.2, hm, hkey⟩ (hnew hm')
      | inr hother' => exact h.unique j j' m m' hother.2 hother'.2 hm hm' hkey
  · intro m hm hmdirty
    obtain ⟨j, hj⟩ := mem_iff_getElem?.mp hm
    cases set_cases hlt hj with
    | inl hself =>
      rw [hself.2] at hmdirty ⊢
      exact hdirty hmdirty
    | inr hother => exact h.dirtyValid m (mem_of_getElem? hother.2) hmdirty
  · intro m hm hvalid hmclean
    obtain ⟨j, hj⟩ := mem_iff_getElem?.mp hm
    cases set_cases hlt hj with
    | inl hself =>
      obtain ⟨-, rfl⟩ := hself
      exact hclean hvalid hmclean
    | inr hother =>
      rw [hback m.key ⟨j, m, hother.1, hother.2, hvalid, rfl⟩]
      exact h.clean m (mem_of_getElem? hother.2) hvalid hmclean

section

variable (h : Coherent lines back)

include h

section

variable (hi : lines[i]? = some l) {k : κ}

include hi

/-- A line for `k` or a free one is replaced by such a line: only the value at `k` changes. -/
theorem set_update {n : Line κ ν} (hnot : ¬Elsewhere lines i k) (hold : l.valid → l.key = k)
    (hnew : n.valid → n.key = k) (hback : ∀ k', k' ≠ k → back' k' = back k')
    (hdirty : n.dirty → n.valid) (hclean : n.valid → ¬n.dirty → n.data = back' k) :
    Coherent (lines.set i n) back' ∧ view (lines.set i n) back' =
      update (view lines back) k (if n.valid then n.data else back' k) := by
  have hcoherent : Coherent (lines.set i n) back' := by
    apply h.set hi
    · intro k' hk'
      exact hback k' fun hkey => hnot (hkey ▸ hk')
    · intro hv
      rwa [hnew hv]
    · exact hdirty
    · intro hv hd
      rw [hnew hv]
      exact hclean hv hd
  refine ⟨hcoherent, ?_⟩
  have hlt := (List.getElem?_eq_some_iff.mp hi).1
  funext k'
  by_cases hk : k' = k
  · subst hk
    rw [update_self]
    split
    · rename_i hv
      rw [← hnew hv]
      exact hcoherent.view_eq (mem_of_getElem? (getElem?_set_self hlt)) hv
    apply view_of_absent
    intro m hm hvalid hkey
    obtain ⟨j, hj⟩ := mem_iff_getElem?.mp hm
    obtain ⟨rfl, rfl⟩ | ⟨hji, hj⟩ := set_cases hlt hj
    · contradiction
    · exact hnot ⟨j, m, hji, hj, hvalid, hkey⟩
  · rw [update_of_ne hk, view, view, hback k' hk, find?_set hi]
    · simpa using fun hv hkey => hk (hkey.symm.trans (hold hv))
    · simpa using fun hv hkey => hk (hkey.symm.trans (hnew hv))

/-- A line is written back if needed and given up. -/
theorem evict (hvalid : l.valid)
    (hback : back' = if l.dirty then update back l.key l.data else back) :
    Coherent (lines.set i { l with dirty := false, valid := false }) back' ∧
      view (lines.set i { l with dirty := false, valid := false }) back' = view lines back := by
  have hself : back' l.key = view lines back l.key := by
    rw [hback, h.view_eq (mem_of_getElem? hi) hvalid]
    split
    · exact update_self ..
    · rename_i hclean
      exact (h.clean l (mem_of_getElem? hi) hvalid hclean).symm
  have hother : ∀ k, k ≠ l.key → back' k = back k := by
    intro k hk
    rw [hback]
    split
    · exact update_of_ne hk ..
    · rfl
  have hset := h.set_update (n := { l with dirty := false, valid := false }) hi
    (h.not_elsewhere hi hvalid) (fun _ => rfl) nofun hother nofun nofun
  rwa [if_neg Bool.false_ne_true, hself, update_eq_self] at hset

/-- A free line takes the value of a key that no line holds. -/
theorem fill (hfree : ¬l.valid)
    (habsent : Absent lines k) (d : ν) (dirty : Bool) (hd : ¬dirty → d = back k) :
    Coherent (lines.set i ⟨k, d, dirty, true⟩) back ∧
      view (lines.set i ⟨k, d, dirty, true⟩) back = update (view lines back) k d := by
  have hnot : ¬Elsewhere lines i k := by
    rintro ⟨j, m, -, hj, hm, hkey⟩
    exact habsent m (mem_of_getElem? hj) hm hkey
  exact h.set_update (n := ⟨k, d, dirty, true⟩) hi hnot (fun hv => absurd hv hfree)
    (fun _ => rfl) (fun _ _ => rfl) (fun _ => rfl) (fun _ => hd)

/-- The line of a key takes a new value. -/
theorem overwrite (hvalid : l.valid) (d : ν) :
    Coherent (lines.set i { l with data := d, dirty := true }) back ∧
      view (lines.set i { l with data := d, dirty := true }) back =
        update (view lines back) l.key d := by
  have hset := h.set_update (n := { l with data := d, dirty := true }) hi
    (h.not_elsewhere hi hvalid) (fun _ => rfl) (fun _ => rfl) (fun _ _ => rfl) (fun _ => hvalid)
    (fun _ hclean => absurd rfl hclean)
  rwa [if_pos hvalid] at hset

/-- A dirty line is written back and kept. -/
theorem flush (hdirty : l.dirty) :
    Coherent (lines.set i { l with dirty := false }) (update back l.key l.data) ∧
      view (lines.set i { l with dirty := false }) (update back l.key l.data) =
        view lines back := by
  have hvalid := h.dirtyValid l (mem_of_getElem? hi) hdirty
  have hset := h.set_update (n := { l with dirty := false }) hi (h.not_elsewhere hi hvalid)
    (fun _ => rfl) (fun _ => rfl) (fun k hk => update_of_ne hk ..) nofun
    (fun _ _ => (update_self l.key l.data back).symm)
  have hself := h.view_eq (mem_of_getElem? hi) hvalid
  rw [if_pos hvalid] at hset
  exact ⟨hset.1, hset.2.trans (update_eq_self_iff.mpr hself.symm)⟩

end

/-- With no dirty line left, the store has the whole view. -/
theorem view_eq_back (hclean : ∀ l ∈ lines, ¬l.dirty) : view lines back = back := by
  funext k
  by_cases habsent : Absent lines k
  · exact view_of_absent habsent back
  unfold Absent at habsent
  push Not at habsent
  obtain ⟨l, hl, hvalid, rfl⟩ := habsent
  rw [h.view_eq hl hvalid]
  exact h.clean l hl hvalid (hclean l hl)

end

end Coherent

end Vahi.Lib
