import Mathlib.Data.List.Sort

/-!
# Insertion into a sorted list

A list that is in order is extended at its end and sorted again: the new element stands behind those
that may precede it, and the others keep their places.
-/

namespace Vahi.Lib

open List

variable {α : Type*} {r : α → α → Prop} [DecidableRel r] {l : List α}

theorem orderedInsert_of_forall_le {a : α} (h : ∀ b ∈ l, r a b) :
    l.orderedInsert r a = a :: l := by
  cases l with
  | nil => rfl
  | cons b l => exact orderedInsert_cons_of_le r l (h b mem_cons_self)

theorem exists_insertionSort_eq [IsTrans α r] (h : l.Pairwise r) (new : α) :
    ∃ before after, l = before ++ after ∧ (∀ a ∈ before, r a new) ∧
      (∀ a ∈ after, ¬ r a new) ∧ (l ++ [new]).insertionSort r = before ++ new :: after := by
  induction l with
  | nil => exact ⟨[], [], rfl, nofun, nofun, rfl⟩
  | cons a l ih =>
    obtain ⟨ha, hrest⟩ := pairwise_cons.mp h
    obtain ⟨before, after, rfl, hbefore, hafter, hsort⟩ := ih hrest
    rw [cons_append, insertionSort_cons, hsort]
    by_cases hle : r a new
    · refine ⟨a :: before, after, rfl, forall_mem_cons.mpr ⟨hle, hbefore⟩, hafter, ?_⟩
      have hhead : ∀ b ∈ before ++ new :: after, r a b := fun b hb => by
        obtain hb | hb := mem_append.mp hb
        · exact ha b (mem_append_left _ hb)
        · obtain rfl | hb := mem_cons.mp hb
          · exact hle
          · exact ha b (mem_append_right _ hb)
      exact orderedInsert_of_forall_le hhead
    · have hempty : before = [] := by
        by_contra hne
        obtain ⟨b, hb⟩ := exists_mem_of_ne_nil before hne
        exact hle (IsTrans.trans _ _ _ (ha b (mem_append_left _ hb)) (hbefore b hb))
      subst hempty
      refine ⟨[], a :: after, rfl, nofun, forall_mem_cons.mpr ⟨hle, hafter⟩, ?_⟩
      rw [nil_append, nil_append, orderedInsert_of_not_le _ after hle,
        orderedInsert_of_forall_le (l := after) ha]

end Vahi.Lib
