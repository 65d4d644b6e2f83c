import Mathlib.Algebra.BigOperators.Group.List.Basic
import Mathlib.Data.List.Count

/-!
# Reference-counted cells

A heap of values that are shared by counted references. Cells are never reused; whoever drops the
last reference gets the value back, to run its destructor.
-/

namespace Vahi.Lib

open List

structure Cell (α : Type*) where
  value : α
  strong : ℕ
  deriving DecidableEq

namespace Arc

variable {α : Type*}

def strong (h : List (Cell α)) (i : ℕ) : ℕ := (h[i]?.map Cell.strong).getD 0

variable (h : List (Cell α))

def alloc (a : α) : List (Cell α) := h ++ [⟨a, 1⟩]

def clone (i : ℕ) : List (Cell α) :=
  h.modify i fun c => { c with strong := c.strong + 1 }

def drop (i : ℕ) : Option α × List (Cell α) :=
  ((h[i]?.filter fun c => c.strong = 1).map Cell.value,
    h.modify i fun c => { c with strong := c.strong - 1 })

def update (i : ℕ) (f : α → α) : List (Cell α) :=
  h.modify i fun c => { c with value := f c.value }

def live : List α := (h.filter fun c => 0 < c.strong).map Cell.value

def values : List α := h.map Cell.value

def Counted (refs : List ℕ) : Prop := ∀ i, strong h i = refs.count i

theorem counted_nil : Counted ([] : List (Cell α)) [] := fun _ => rfl

variable {i : ℕ} {refs : List ℕ} {β : Type*} {f : α → α} (h : List (Cell α))

theorem strong_modify (f : Cell α → Cell α) (i j : ℕ) : strong (h.modify i f) j =
      if i = j then (h[j]?.map fun c => (f c).strong).getD 0 else strong h j := by
  unfold strong
  rw [getElem?_modify]
  by_cases hij : i = j
  · subst hij
    cases h[i]? <;> simp
  · simp only [hij, if_false, id_map']

theorem strong_alloc (a : α) (i : ℕ) :
    strong (alloc h a) i = if i = h.length then 1 else strong h i := by
  unfold strong alloc
  by_cases hi : i = h.length
  · simp [hi]
  rw [if_neg hi]
  by_cases hlt : i < h.length
  · rw [getElem?_append_left hlt]
  · rw [getElem?_eq_none (by simp; omega), getElem?_eq_none (by omega)]

@[simp] theorem length_clone (i : ℕ) : (clone h i).length = h.length :=
  length_modify ..

@[simp] theorem length_drop (i : ℕ) : (drop h i).2.length = h.length :=
  length_modify ..

@[simp] theorem length_update (i : ℕ) (f : α → α) : (update h i f).length = h.length :=
  length_modify ..

variable {h}

/-- A counted reference points to a cell. -/
theorem exists_cell_of_strong_pos (hi : 0 < strong h i) :
    ∃ c, h[i]? = some c ∧ strong h i = c.strong := by
  unfold strong at hi ⊢
  cases hc : h[i]? with
  | none => simp [hc] at hi
  | some c => exact ⟨c, rfl, rfl⟩

/-- The value comes back exactly with the last reference. -/
theorem drop_cases (hi : 0 < strong h i) :
    (∃ a ∈ values h, (drop h i).1 = some a ∧ strong h i = 1) ∨
      (drop h i).1 = none ∧ 1 < strong h i := by
  obtain ⟨c, hcell, hstrong⟩ := exists_cell_of_strong_pos hi
  unfold drop
  by_cases hlast : c.strong = 1
  · exact Or.inl ⟨c.value, mem_map_of_mem (mem_of_getElem? hcell), by simp [hcell, hlast],
      by rw [hstrong, hlast]⟩
  · exact Or.inr ⟨by simp [hcell, hlast], by omega⟩

theorem strong_clone (hi : 0 < strong h i) (j : ℕ) :
    strong (clone h i) j = if i = j then strong h j + 1 else strong h j := by
  unfold clone
  rw [strong_modify]
  by_cases hij : i = j
  · subst hij
    obtain ⟨c, hcell, hstrong⟩ := exists_cell_of_strong_pos hi
    rw [if_pos rfl, if_pos rfl, hcell, hstrong]
    rfl
  · rw [if_neg hij, if_neg hij]

theorem strong_drop (h : List (Cell α)) (i j : ℕ) :
    strong (drop h i).2 j = if i = j then strong h j - 1 else strong h j := by
  unfold drop
  rw [strong_modify]
  by_cases hij : i = j
  · rw [if_pos hij, if_pos hij, strong]
    cases h[j]? <;> rfl
  · rw [if_neg hij, if_neg hij]

section

variable (hc : Counted h refs)

include hc

theorem Counted.perm {refs' : List ℕ} (hp : refs.Perm refs') : Counted h refs' := by
  intro i
  rw [hc i, hp.count_eq]

theorem Counted.strong_pos_iff (i : ℕ) :
    0 < strong h i ↔ i ∈ refs := by
  rw [hc i, count_pos_iff]

theorem Counted.alloc (a : α) :
    Counted (alloc h a) (h.length :: refs) := by
  intro i
  rw [strong_alloc, count_cons]
  by_cases hi : i = h.length
  · -- no reference to the new cell was held before
    have hnone : strong h h.length = 0 := by simp [strong]
    subst hi
    rw [if_pos rfl, ← hc, hnone]
    simp
  · rw [if_neg hi, hc i]
    simp [Ne.symm hi]

theorem Counted.clone (hi : i ∈ refs) : Counted (clone h i) (i :: refs) := by
  intro j
  rw [strong_clone ((hc.strong_pos_iff i).mpr hi), count_cons, hc j]
  by_cases hij : i = j <;> simp [hij]

end

theorem Counted.drop (hc : Counted h (i :: refs)) : Counted (drop h i).2 refs := by
  intro j
  rw [strong_drop, hc j, count_cons]
  by_cases hij : i = j <;> simp [hij]

theorem strong_update (h : List (Cell α)) (i : ℕ) (f : α → α) (j : ℕ) :
    strong (update h i f) j = strong h j := by
  unfold update
  rw [strong_modify]
  by_cases hij : i = j
  · rw [if_pos hij]
    rfl
  · rw [if_neg hij]

/-- A cell with the cells before and after it. -/
theorem modify_split {c : Cell α} (hc : h[i]? = some c) :
    ∃ before after, h = before ++ c :: after ∧
      ∀ f : Cell α → Cell α, h.modify i f = before ++ f c :: after := by
  obtain ⟨hlt, hget⟩ := List.getElem?_eq_some_iff.mp hc
  refine ⟨h.take i, h.drop (i + 1), ?_, ?_⟩
  · rw [← hget, ← drop_eq_getElem_cons hlt, take_append_drop]
  · intro f
    rw [modify_eq_take_cons_drop hlt, hget]

/-- What a change of one cell does not affect. -/
theorem map_modify_of_eq {f : Cell α → Cell α} {g : Cell α → β}
    (hg : ∀ c, g (f c) = g c) (h : List (Cell α)) (i : ℕ) : (h.modify i f).map g = h.map g := by
  cases hc : h[i]? with
  | none => rw [modify_eq_self (getElem?_eq_none_iff.mp hc)]
  | some c =>
    obtain ⟨before, after, hh, hmod⟩ := modify_split hc
    rw [hmod, hh]
    simp [hg]

variable (h) {g : α → β}

theorem values_clone (i : ℕ) : values (clone h i) = values h := by
  apply map_modify_of_eq
  intro c
  rfl

theorem values_drop (i : ℕ) : values (drop h i).2 = values h := by
  apply map_modify_of_eq
  intro c
  rfl

theorem values_alloc (a : α) : values (alloc h a) = values h ++ [a] := by
  simp [values, alloc]

theorem map_values_update (hg : ∀ a, g (f a) = g a)
    (h : List (Cell α)) (i : ℕ) : (values (update h i f)).map g = (values h).map g := by
  unfold values
  rw [map_map, map_map]
  exact map_modify_of_eq (fun c => hg c.value) h i

theorem live_append (h' : List (Cell α)) : live (h ++ h') = live h ++ live h' := by
  simp [live]

theorem live_cons (c : Cell α) (h : List (Cell α)) :
    live (c :: h) = if 0 < c.strong then c.value :: live h else live h := by
  unfold live
  by_cases hc : 0 < c.strong <;> simp [hc]

theorem live_alloc (a : α) : live (alloc h a) = live h ++ [a] := by
  rw [alloc, live_append]
  rfl

theorem live_clone {h : List (Cell α)} (hi : 0 < strong h i) : live (clone h i) = live h := by
  obtain ⟨c, hcell, hstrong⟩ := exists_cell_of_strong_pos hi
  obtain ⟨before, after, hh, hmod⟩ := modify_split hcell
  have hpos : 0 < c.strong := hstrong ▸ hi
  rw [clone, hmod, hh, live_append, live_append, live_cons, live_cons, if_pos (Nat.succ_pos _),
    if_pos hpos]

theorem map_live (g : α → β) : (live h).map g =
    ((h.map fun c => (c.strong, g c.value)).filter fun c => 0 < c.1).map Prod.snd := by
  simp [live, filter_map, Function.comp_def]

/-- What a change of a value does not affect is the same for the live values. -/
theorem map_live_update (hg : ∀ a, g (f a) = g a)
    (h : List (Cell α)) (i : ℕ) : (live (update h i f)).map g = (live h).map g := by
  rw [map_live, map_live, update, map_modify_of_eq fun c => by rw [hg]]

/-- Dropping a reference takes its value from the live ones exactly when it was the last. -/
theorem live_drop {h : List (Cell α)} (hi : 0 < strong h i) :
    (live h).Perm ((drop h i).1.toList ++ live (drop h i).2) := by
  obtain ⟨c, hcell, hstrong⟩ := exists_cell_of_strong_pos hi
  obtain ⟨before, after, hh, hmod⟩ := modify_split hcell
  have hpos : 0 < c.strong := hstrong ▸ hi
  unfold drop
  rw [hcell, hmod]
  nth_rewrite 1 [hh]
  rw [live_append, live_append, live_cons, live_cons, if_pos hpos]
  by_cases hlast : c.strong = 1
  · simp only [Option.filter_some, hlast, decide_true, if_true, Option.map_some,
      Option.toList_some, Nat.sub_self, Nat.lt_irrefl, if_false, singleton_append]
    exact perm_middle
  have hmore : 0 < c.strong - 1 := by omega
  simp only [Option.filter_some, hlast, decide_false, Bool.false_eq_true, if_false,
    Option.map_none, Option.toList_none, hmore, if_true, nil_append]
  exact List.Perm.refl _

end Arc

/-- One holder among the others: what is gathered from a list changes only there. -/
theorem flatMap_set {β γ : Type*} {l : List β} {i : ℕ} {b : β} (h : l[i]? = some b)
    (f : β → List γ) : ∃ before after, l.flatMap f = before ++ f b ++ after ∧
      ∀ b', (l.set i b').flatMap f = before ++ f b' ++ after := by
  obtain ⟨hlt, hget⟩ := List.getElem?_eq_some_iff.mp h
  refine ⟨(l.take i).flatMap f, (l.drop (i + 1)).flatMap f, ?_, ?_⟩
  · calc l.flatMap f = (l.take i ++ l.drop i).flatMap f := by rw [take_append_drop]
      _ = _ := by
        rw [drop_eq_getElem_cons hlt, hget, flatMap_append, flatMap_cons, append_assoc]
  · intro b'
    rw [set_eq_take_append_cons_drop, if_pos hlt, flatMap_append, flatMap_cons, append_assoc]

end Vahi.Lib
