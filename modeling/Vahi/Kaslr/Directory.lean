import Mathlib.Data.List.Basic
import Mathlib.Tactic.Ring

/-!
# The slid page directory

The copy loop of `activate_kaslr_mapping` (`kernel/src/kaslr_reloc.rs`), which rebuilds the page
directory of the kernel with every page at its old and at its slid index.
-/

namespace Vahi.Kaslr

/-- The entries of a page directory, by indices below 512; an unused one is zero. -/
abbrev PageDirectory := ℕ → BitVec 64

def LINK_BASE : BitVec 64 := 0xFFFFFFFF80000000

def kernelMapPages (sizeBytes : BitVec 64) : ℕ := (sizeBytes.toNat + (2 ^ 21 - 1)) / 2 ^ 21

def kernelBasePdIndex : ℕ := ((LINK_BASE >>> 21) &&& 0x1FF).toNat

variable (pdIndexShift pages : ℕ)

/-- Sums of `usize` wrap around. -/
def pdDestinationIndex (page : ℕ) : ℕ := (kernelBasePdIndex + pdIndexShift + page) % 2 ^ 64 % 512

def pdShiftAliases : Bool := 512 < (kernelBasePdIndex + pdIndexShift + pages) % 2 ^ 64

def pdShiftConflicts : Bool := pdIndexShift < pages || pdShiftAliases pdIndexShift pages

/-- One turn of the loop. -/
def copyEntry (oldPd newPd : PageDirectory) (i : ℕ) : PageDirectory :=
  let srcIdx := (kernelBasePdIndex + i) % 512
  if oldPd srcIdx = 0 then newPd
  else
    Function.update (Function.update newPd (pdDestinationIndex pdIndexShift i) (oldPd srcIdx))
      srcIdx (oldPd srcIdx)

def copyEntries (oldPd : PageDirectory) : PageDirectory :=
  (List.range pages).foldl (copyEntry pdIndexShift oldPd) fun _ => 0

variable {pdIndexShift pages}

/-- The directory after `n` turns, while the slid range lies behind the old one. -/
theorem copyEntries_apply (oldPd : PageDirectory) {n : ℕ} (hbehind : n ≤ pdIndexShift)
    (hend : pdIndexShift + n ≤ 512) (j : ℕ) :
    copyEntries pdIndexShift n oldPd j =
      if j < n then oldPd j
      else if pdIndexShift ≤ j ∧ j < pdIndexShift + n then oldPd (j - pdIndexShift)
      else 0 := by
  induction n with
  | zero =>
    rw [if_neg (Nat.not_lt_zero j), if_neg (by omega)]
    rfl
  | succ n ih =>
    have hsrc : (kernelBasePdIndex + n) % 512 = n := by
      rw [show kernelBasePdIndex = 0 from rfl]
      omega
    have hdst : pdDestinationIndex pdIndexShift n = pdIndexShift + n := by
      rw [pdDestinationIndex, show kernelBasePdIndex = 0 from rfl]
      omega
    have ih := ih (by omega) (by omega)
    unfold copyEntries at ih ⊢
    rw [List.range_succ, List.foldl_append, List.foldl_cons, List.foldl_nil]
    simp only [copyEntry, hsrc, hdst]
    grind

/-- Without a conflict each used entry is found at its old and at its slid index, in disjoint
ranges of the directory, and all others are zero. -/
theorem copyEntries_slid (oldPd : PageDirectory) (slide spanBytes : BitVec 64)
    (h : pdShiftConflicts (slide >>> 21).toNat (kernelMapPages spanBytes) = false) :
    let shift := (slide >>> 21).toNat
    let pages := kernelMapPages spanBytes
    let newPd := copyEntries shift pages oldPd
    pages ≤ shift ∧ shift + pages ≤ 512 ∧
      (∀ i < pages, oldPd i ≠ 0 → newPd i = oldPd i ∧ newPd (i + shift) = oldPd i) ∧
      ∀ j, (∀ i < pages, oldPd i ≠ 0 → j ≠ i ∧ j ≠ i + shift) → newPd j = 0 := by
  intro shift pages newPd
  have hpages : pages ≤ 2 ^ 43 := by
    have := spanBytes.isLt
    simp only [pages, kernelMapPages]
    omega
  have hslide : shift < 2 ^ 43 := by
    have := slide.isLt
    simp only [shift, BitVec.toNat_ushiftRight, Nat.shiftRight_eq_div_pow]
    omega
  obtain ⟨hbehind, hend⟩ : pages ≤ shift ∧ shift + pages ≤ 512 := by
    have hbase : kernelBasePdIndex = 0 := rfl
    simp only [pdShiftConflicts, pdShiftAliases, Bool.or_eq_false_iff, decide_eq_false_iff_not,
      hbase] at h
    omega
  have hnew : ∀ j, newPd j = _ := copyEntries_apply oldPd hbehind hend
  refine ⟨hbehind, hend, fun i hi _ => ⟨?_, ?_⟩, fun j hj => ?_⟩
  · rw [hnew, if_pos hi]
  · rw [hnew, if_neg (by omega), if_pos (by omega), Nat.add_sub_cancel]
  · rw [hnew]
    split_ifs with hlow hslid
    · by_contra hused
      exact (hj j hlow hused).1 rfl
    · by_contra hused
      exact (hj (j - shift) (by omega) hused).2 (by omega)
    · rfl

theorem copyEntries_slid_two :
    copyEntries 2 2 (fun i => if i = 1 then 0x83 else 0) 3 = 0x83 :=
  ((copyEntries_slid (fun i => if i = 1 then 0x83 else 0) 0x400000 0x200001 (by decide)).2.2.1 1
    (by decide) (by decide)).2

end Vahi.Kaslr
