import Mathlib.Algebra.BigOperators.Fin
import Mathlib.Algebra.Order.BigOperators.Group.Multiset

/-!
# Custody of items

All items that are held anywhere are one multiset. `Transfers R` relates the multisets before and
after a step that only hands items on, where `R` says what may become of an item.
-/

namespace Vahi.Lib

variable {α β ι : Type*}

/-- The items on the right are those on the left, each changed as `R` allows. -/
abbrev Transfers (R : α → α → Prop) (m m' : Multiset α) : Prop := Multiset.Rel R m m'

namespace Transfers

variable {R : α → α → Prop} {m m' m'' : Multiset α} {a b : α}

theorem refl [Std.Refl R] (m : Multiset α) : Transfers R m m :=
  Multiset.rel_refl_of_refl_on fun a _ => Std.Refl.refl a

theorem of_eq [Std.Refl R] (h : m = m') : Transfers R m m' := h ▸ refl m

theorem trans [IsTrans α R] (h : Transfers R m m') (h' : Transfers R m' m'') : Transfers R m m'' :=
  Multiset.Rel.trans R h h'

theorem singleton (h : R a b) : Transfers R {a} {b} :=
  Multiset.Rel.cons h Multiset.Rel.zero

/-- One item changes, the others stay. -/
theorem add_singleton [Std.Refl R] (h : R a b) (m : Multiset α) :
    Transfers R (m + {a}) (m + {b}) :=
  (refl m).add (singleton h)

/-- A function that no change of an item affects has the same values before and after. -/
theorem map_eq {f : α → β} (hf : ∀ a b, R a b → f b = f a) (h : Transfers R m m') :
    m'.map f = m.map f := by
  induction h with
  | zero => rfl
  | cons hab _ ih => rw [Multiset.map_cons, Multiset.map_cons, hf _ _ hab, ih]

theorem exists_of_mem (h : Transfers R m m') (hb : b ∈ m') : ∃ a ∈ m, R a b :=
  Multiset.exists_mem_of_rel_of_mem (Multiset.rel_flip.mpr h) hb

end Transfers

variable [Fintype ι] [DecidableEq ι]

/-- What one holder has is part of all; the rest is the same whatever it has. -/
theorem exists_sum_rest (f : β → Multiset α) (g : ι → β) (i : ι) :
    ∃ rest, ∑ j, f (g j) = f (g i) + rest ∧
      ∀ b, ∑ j, f (Function.update g i b j) = f b + rest := by
  refine ⟨∑ j ∈ Finset.univ \ {i}, f (g j),
    Finset.sum_eq_add_sum_sdiff_singleton_of_mem (Finset.mem_univ i) _, fun b => ?_⟩
  have hsum := Finset.sum_update_of_mem (Finset.mem_univ i) (f ∘ g) (f b)
  rwa [← Function.comp_update] at hsum

end Vahi.Lib
