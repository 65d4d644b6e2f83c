import Mathlib.Data.List.Perm.Basic
import Mathlib.Data.Vector.Defs
import Vahi.Skyfs.BTree

/-!
# Entries and children of nodes

Insertion into a leaf adds the new entry; a split deals out all of them except the median. The
children of interior nodes are old ones or the new one.
-/

namespace Vahi.Skyfs.BTreeNode

open Vahi.Lib
open List hiding Vector

def entry (n : BTreeNode) (i : ℕ) : Entry := (n.key i, n.value i)

variable {i k j ci : ℕ} {all : List Entry} {cs : List (BitVec 64)} {p : Promoted} {g : Gathered}
  (n : BTreeNode) (e : Entry) (isLeaf : BitVec 8)

theorem entries_eq : n.entries = (List.range n.numKeys.toNat).map n.entry := rfl

theorem length_entries : n.entries.length = n.numKeys.toNat := by
  rw [entries_eq, length_map, length_range]

theorem entry_setEntry (hi : i < KEY_MAX) (e : Entry) (j : ℕ) :
    (n.setEntry i e).entry j = if j = i then e else n.entry j := by
  by_cases h : i = j
  · subst h
    simp [entry, key, value, setEntry, hi]
  · simp [entry, key, value, setEntry, h, Ne.symm h]

theorem map_entry_succ (k : ℕ) :
    (List.range (k + 1)).map n.entry = (List.range k).map n.entry ++ [n.entry k] := by
  rw [range_succ, map_append, map_singleton]

/-- The first entries do not change if a later one is set. -/
theorem map_entry_setEntry (hi : i < KEY_MAX) (hk : k ≤ i) (e : Entry) :
    (List.range k).map (n.setEntry i e).entry = (List.range k).map n.entry := by
  apply map_congr_left
  intro j hj
  rw [entry_setEntry n hi, if_neg (Nat.ne_of_lt (Nat.lt_of_lt_of_le (mem_range.mp hj) hk))]

/-! ## Insertion -/

/-- Making room and setting the new entry adds it to the first `i` entries. -/
theorem shiftEntries_perm (hi : i < KEY_MAX) (n : BTreeNode) : ((List.range (i + 1)).map
        ((n.shiftEntries e.1 i).2.setEntry (n.shiftEntries e.1 i).1 e).entry).Perm
      (e :: (List.range i).map n.entry) ∧
    ∀ j, i < j → ((n.shiftEntries e.1 i).2.setEntry (n.shiftEntries e.1 i).1 e).entry j =
      n.entry j := by
  induction i generalizing n with
  | zero =>
    refine ⟨?_, ?_⟩
    · change [(n.setEntry 0 e).entry 0].Perm [e]
      rw [entry_setEntry n hi, if_pos rfl]
    · intro j hj
      exact (entry_setEntry n hi e j).trans (if_neg (Nat.ne_of_gt hj))
  | succ i ih =>
    rw [shiftEntries]
    by_cases hlt : e.1 < n.key i
    · rw [if_pos hlt]
      obtain ⟨hperm, hrest⟩ := ih (Nat.lt_of_succ_lt hi) (n.setEntry (i + 1) (n.key i, n.value i))
      have hlast := hrest (i + 1) (Nat.lt_succ_self i)
      rw [entry_setEntry n hi, if_pos rfl] at hlast
      rw [map_entry_setEntry n hi (Nat.le_succ i)] at hperm
      refine ⟨?_, ?_⟩
      · rw [map_entry_succ, hlast, map_entry_succ n]
        exact hperm.append_right _
      · intro j hj
        rw [hrest j (Nat.lt_of_succ_lt hj), entry_setEntry n hi, if_neg (Nat.ne_of_gt hj)]
    · rw [if_neg hlt]
      refine ⟨?_, ?_⟩
      · rw [map_entry_succ, entry_setEntry n hi, if_pos rfl, map_entry_setEntry n hi (Nat.le_refl _)]
        exact perm_append_singleton ..
      · intro j hj
        rw [entry_setEntry n hi, if_neg (Nat.ne_of_gt hj)]

theorem shiftEntries_isLeaf (k : BitVec 64) (i : ℕ) (n : BTreeNode) :
    (n.shiftEntries k i).2.isLeaf = n.isLeaf := by
  induction i generalizing n with
  | zero => rfl
  | succ i ih =>
    rw [shiftEntries]
    split
    · rw [ih]
      rfl
    · rfl

theorem insertLeaf_isLeaf : (n.insertLeaf e).isLeaf = n.isLeaf :=
  shiftEntries_isLeaf ..

/-- One more key, as long as there is room for it. -/
theorem numKeys_succ (hn : n.numKeys.toNat < KEY_MAX) :
    (n.numKeys + 1).toNat = n.numKeys.toNat + 1 := by
  rw [KEY_MAX, BTREE_ORDER] at hn
  rw [BitVec.toNat_add, Nat.mod_eq_of_lt]
  · rfl
  · change n.numKeys.toNat + 1 < 2 ^ 16
    omega

theorem insertLeaf_entries (hn : n.numKeys.toNat < KEY_MAX) :
    (n.insertLeaf e).entries.Perm (e :: n.entries) := by
  have hkeys : (n.insertLeaf e).numKeys.toNat = n.numKeys.toNat + 1 := numKeys_succ n hn
  rw [entries_eq, hkeys]
  exact (shiftEntries_perm e hn n).1

/-! ## Splits -/

theorem gatherKeys_inserted (xs : List Entry) : gatherKeys e true xs = xs := by
  induction xs with
  | nil => rfl
  | cons x xs ih =>
    rw [gatherKeys, Bool.not_true, Bool.false_and, if_neg Bool.false_ne_true, ih]

theorem gatherKeys_perm (xs : List Entry) : (gatherKeys e false xs).Perm (e :: xs) := by
  induction xs with
  | nil => exact List.Perm.refl _
  | cons x xs ih =>
    rw [gatherKeys]
    split
    · rw [gatherKeys_inserted]
    · exact (ih.cons x).trans (List.Perm.swap ..)

theorem entry_setChildren (cs : List (BitVec 64)) (j : ℕ) :
    (n.setChildren cs).entry j = n.entry j := by
  have hset : ∀ (n : BTreeNode) i c, (n.setChild i c).entry j = n.entry j := fun _ _ _ => rfl
  exact setAll_eq (f := fun n => n.entry j) hset n 0 cs

/-- Overwritten from the start, the first entries are the new ones. -/
theorem map_entry_setEntries {es : List Entry} (h : es.length ≤ KEY_MAX) (cs : List (BitVec 64)) :
    (List.range es.length).map ((n.setEntries es).setChildren cs).entry = es := by
  have hget : ∀ j, (n.setEntries es).entry j = es.getD j (n.entry j) :=
    get_setAll (fun n i e j hi => entry_setEntry n hi e j) n (i := 0) (by omega)
  apply ext_getElem
  · rw [length_map, length_range]
  · intro i _ hi
    rw [getElem_map, getElem_range, entry_setChildren, hget, getD_eq_getElem?_getD,
      getElem?_eq_getElem hi, Option.getD_some]

theorem leftHalf_entries (h : all.length = KEY_MAX + 1)
    (cs : List (BitVec 64)) : (n.leftHalf all cs).entries = all.take mid := by
  have hlen : (all.take mid).length = mid := by
    rw [length_take, h]
    rfl
  have hmap := map_entry_setEntries n (by rw [hlen]; decide) (cs.take (mid + 1))
  rwa [hlen] at hmap

theorem rightHalf_entries (h : all.length = KEY_MAX + 1)
    (cs : List (BitVec 64)) : (rightHalf isLeaf all cs).entries = all.drop (mid + 1) := by
  have hlen : (all.drop (mid + 1)).length = KEY_MAX - mid := by
    rw [length_drop, h]
    rfl
  have hmap := map_entry_setEntries empty (by rw [hlen]; decide) (cs.drop (mid + 1))
  rwa [hlen] at hmap

/-! ## Children -/

theorem child_setChild (hi : i < CHILD_MAX) (c : BitVec 64) (j : ℕ) :
    (n.setChild i c).child j = if j = i then c else n.child j := by
  by_cases h : i = j
  · subst h
    simp [child, setChild, hi]
  · simp [child, setChild, h, Ne.symm h]

theorem child_setChildren (h : cs.length ≤ CHILD_MAX)
    (j : ℕ) : (n.setChildren cs).child j = cs.getD j (n.child j) :=
  get_setAll (fun n i c j hi => child_setChild n hi c j) n (i := 0) (by omega) j

theorem child_setChildren_mem (h : cs.length ≤ CHILD_MAX) (hj : j < cs.length) :
    (n.setChildren cs).child j ∈ cs := by
  rw [child_setChildren n h, getD_eq_getElem?_getD, getElem?_eq_getElem hj, Option.getD_some]
  exact getElem_mem _

theorem insertIndex_le (k : BitVec 64) (i : ℕ) : n.insertIndex k i ≤ i := by
  induction i with
  | zero => exact Nat.le_refl 0
  | succ i ih =>
    rw [insertIndex]
    split
    · exact Nat.le_succ_of_le ih
    · exact Nat.le_refl _

theorem childIndex_le (off : BitVec 64) (idx k : ℕ) : n.childIndex off idx k ≤ idx + k := by
  induction k generalizing idx with
  | zero => exact Nat.le_refl idx
  | succ k ih =>
    rw [childIndex]
    split
    · have := ih (idx + 1)
      omega
    · omega

theorem shiftInterior_child (i : ℕ) (hk : k < KEY_MAX) (n : BTreeNode) (j : ℕ) :
    (shiftInterior i k n).child j =
      if i + 1 < j ∧ j ≤ k + 1 then n.child (j - 1) else n.child j := by
  induction k generalizing n with
  | zero => rw [shiftInterior, if_neg (by omega)]
  | succ k ih =>
    rw [shiftInterior]
    by_cases hik : i < k + 1
    · have hin : k + 2 < CHILD_MAX := by
        rw [KEY_MAX] at hk
        rw [CHILD_MAX]
        omega
      have hset : ∀ j, ((n.setEntry (k + 1) (n.key k, n.value k)).setChild (k + 2)
          (n.child (k + 1))).child j = if j = k + 2 then n.child (k + 1) else n.child j :=
        fun j => child_setChild _ hin _ j
      rw [if_pos hik, ih (Nat.lt_of_succ_lt hk), hset, hset]
      by_cases hmoved : i + 1 < j ∧ j ≤ k + 1
      · rw [if_pos hmoved, if_neg (by omega), if_pos (by omega)]
      rw [if_neg hmoved]
      by_cases hlast : j = k + 2
      · rw [if_pos hlast, if_pos (by omega), hlast]
        rfl
      · rw [if_neg hlast, if_neg (by omega)]
    · rw [if_neg hik, if_neg (by omega)]

theorem shiftInterior_isLeaf (i k : ℕ) (n : BTreeNode) : (shiftInterior i k n).isLeaf = n.isLeaf := by
  induction k generalizing n with
  | zero => rfl
  | succ k ih =>
    rw [shiftInterior]
    split
    · rw [ih]
      rfl
    · rfl

theorem insertInterior_isLeaf (i : ℕ) (p : Promoted) : (n.insertInterior i p).isLeaf = n.isLeaf :=
  shiftInterior_isLeaf ..

theorem insertInterior_child (p : Promoted) (hn : n.numKeys.toNat < KEY_MAX)
    (hi : i ≤ n.numKeys.toNat) (hj : j ≤ n.numKeys.toNat + 1) :
    (n.insertInterior i p).child j = p.newChild ∨
      ∃ j' ≤ n.numKeys.toNat, (n.insertInterior i p).child j = n.child j' := by
  have hin : i + 1 < CHILD_MAX := by
    rw [KEY_MAX] at hn
    rw [CHILD_MAX]
    omega
  have hchild : (n.insertInterior i p).child j =
      if j = i + 1 then p.newChild else (shiftInterior i n.numKeys.toNat n).child j :=
    child_setChild _ hin _ j
  rw [hchild, shiftInterior_child i hn]
  split_ifs with h₁ h₂
  · exact Or.inl rfl
  · exact Or.inr ⟨j - 1, by omega, rfl⟩
  · exact Or.inr ⟨j, by omega, rfl⟩

/-! ## Interior splits -/

/-- Children that a split may deal out: the old ones, the new one, and 0 where an array was never
written. -/
def Dealt (n : BTreeNode) (p : Promoted) (c : BitVec 64) : Prop :=
  c = 0 ∨ c = p.newChild ∨ ∃ j ≤ n.numKeys.toNat, c = n.child j

def Deals (n : BTreeNode) (p : Promoted) (g : Gathered) : Prop :=
  ∀ x ∈ g.allChildren.toList, Dealt n p x

theorem dealt_setIfInBounds {n : BTreeNode} {v : Vector (BitVec 64) k}
    {c : BitVec 64} (hv : ∀ x ∈ v.toList, Dealt n p x) (hc : Dealt n p c) :
    ∀ x ∈ (v.setIfInBounds i c).toList, Dealt n p x := by
  intro x hx
  rw [Vector.toList_setIfInBounds] at hx
  rcases mem_or_eq_of_mem_set hx with hx | rfl
  · exact hv x hx
  · exact hc

theorem dealt_newChild (p : Promoted) : Dealt n p p.newChild := Or.inr (Or.inl rfl)

theorem dealt_child (p : Promoted) (hj : j ≤ n.numKeys.toNat) : Dealt n p (n.child j) :=
  Or.inr (Or.inr ⟨j, hj, rfl⟩)

theorem Deals.placeKey {n : BTreeNode} (hg : Deals n p g)
    (hci : ci < n.numKeys.toNat) : Deals n p (n.placeKey p g ci) := by
  rw [BTreeNode.placeKey]
  split
  · exact dealt_setIfInBounds (dealt_setIfInBounds hg (dealt_newChild n p)) (dealt_child n p hci)
  · exact dealt_setIfInBounds hg (dealt_child n p hci)

theorem Deals.gatherStep {n : BTreeNode} (hg : Deals n p g) (i : ℕ) (hci : ci ≤ n.numKeys.toNat) :
    Deals n p (n.gatherStep i p g ci) := by
  have hchild : Deals n p { g with allChildren := g.allChildren.setIfInBounds g.ai (n.child ci) } :=
    dealt_setIfInBounds hg (dealt_child n p hci)
  rw [BTreeNode.gatherStep]
  generalize { g with allChildren := g.allChildren.setIfInBounds g.ai (n.child ci) } = g₁ at hchild ⊢
  have hkey : Deals n p (if ci < n.numKeys.toNat then n.placeKey p g₁ ci else g₁) := by
    split
    · next hlt => exact hchild.placeKey hlt
    · exact hchild
  generalize (if ci < n.numKeys.toNat then n.placeKey p g₁ ci else g₁) = g₂ at hkey ⊢
  split
  · exact dealt_setIfInBounds hkey (dealt_newChild n p)
  · exact hkey

theorem gather_children (i : ℕ) (p : Promoted) : Deals n p (n.gather i p) := by
  have hloop : ∀ l : List ℕ, (∀ ci ∈ l, ci ≤ n.numKeys.toNat) → ∀ g, Deals n p g →
      Deals n p (l.foldl (n.gatherStep i p) g) := by
    intro l
    induction l with
    | nil => exact fun _ g hg => hg
    | cons ci l ih =>
      intro hl g hg
      exact ih (fun x hx => hl x (mem_cons_of_mem _ hx)) _
        (hg.gatherStep i (hl ci mem_cons_self))
  apply hloop
  · intro ci hci
    exact Nat.le_of_lt_succ (mem_range.mp hci)
  · intro x hx
    exact Or.inl (eq_of_mem_replicate hx)

theorem leftHalf_isLeaf (all : List Entry) (cs : List (BitVec 64)) :
    (n.leftHalf all cs).isLeaf = n.isLeaf := by
  have hentry : ∀ (n : BTreeNode) i e, (n.setEntry i e).isLeaf = n.isLeaf := fun _ _ _ => rfl
  have hchild : ∀ (n : BTreeNode) i c, (n.setChild i c).isLeaf = n.isLeaf := fun _ _ _ => rfl
  exact (setAll_eq (f := isLeaf) hchild _ 0 _).trans (setAll_eq (f := isLeaf) hentry n 0 _)

theorem leftHalf_child (all : List Entry)
    (hcs : cs.length = KEY_MAX + 2) (hj : j ≤ mid) : (n.leftHalf all cs).child j ∈ cs := by
  have hlen : (cs.take (mid + 1)).length = mid + 1 := by
    rw [length_take, hcs]
    rfl
  exact mem_of_mem_take
    (child_setChildren_mem (n.setEntries (all.take mid)) (by rw [hlen]; decide) (by omega))

theorem rightHalf_child (all : List Entry)
    (hcs : cs.length = KEY_MAX + 2) (hj : j ≤ KEY_MAX - mid) :
    (rightHalf isLeaf all cs).child j ∈ cs := by
  have hlen : (cs.drop (mid + 1)).length = KEY_MAX - mid + 1 := by
    rw [length_drop, hcs]
    rfl
  exact mem_of_mem_drop (child_setChildren_mem (empty.setEntries (all.drop (mid + 1)))
    (by rw [hlen]; decide) (by omega))

end Vahi.Skyfs.BTreeNode
