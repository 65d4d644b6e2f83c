import Mathlib.Data.List.Pairwise
import Vahi.Lib.StableSort
import Vahi.Memory.PageMap
import Vahi.Task.Process

/-!
# The list of memory areas

Embedding of `find_free_vma_region`, `insert_vma_locked`, `merge_vmas_inner` and
`remove_vma_range` (`kernel/src/task/process.rs`). Sums wrap, as they do in a release build.
-/

namespace Vahi.Task

open Vahi.Lib Vahi.Memory List

namespace Vma

def compatible (v w : Vma) : Bool :=
  v.flags = w.flags ∧ v.fileHandle = w.fileHandle ∧ v.isShared = w.isShared ∧ v.shmId = w.shmId

/-- The ranges have an address in common, if neither is empty. -/
def Overlaps (v w : Vma) : Prop := v.start < w.stop ∧ w.start < v.stop

instance (v w : Vma) : Decidable (v.Overlaps w) := inferInstanceAs (Decidable (_ ∧ _))

def extend (v w : Vma) : Vma := { v with stop := if v.stop ≤ w.stop then w.stop else v.stop }

end Vma

/-- Areas that touch and agree become one. -/
def mergeFrom (v : Vma) : List Vma → List Vma
  | [] => [v]
  | w :: ws =>
    if v.compatible w ∧ w.start ≤ v.stop then mergeFrom (v.extend w) ws
    else v :: mergeFrom w ws

def mergeVmasInner : List Vma → List Vma
  | [] => []
  | v :: vs => mergeFrom v vs

def insertVmaLocked (vmas : List Vma) (newVma : Vma) : List Vma :=
  mergeVmasInner ((vmas ++ [newVma]).insertionSort fun v w => v.start ≤ w.start)

/-- The four ways in which an area can meet the range. -/
def removeVmaRange (start stop : BitVec 64) : List Vma → List Vma
  | [] => []
  | v :: vs =>
    if v.stop ≤ start ∨ stop ≤ v.start then v :: removeVmaRange start stop vs
    else if v.start < start ∧ stop < v.stop then
      -- the function returns after it has split an area
      { v with stop := start } :: { v with start := stop } :: vs
    else if start ≤ v.start ∧ v.stop ≤ stop then removeVmaRange start stop vs
    else if v.start < start ∧ v.stop ≤ stop then
      { v with stop := start } :: removeVmaRange start stop vs
    else { v with start := stop } :: removeVmaRange start stop vs

/-- `find_vma`: the first area that has the address. -/
def findVma (vmas : List Vma) (addr : BitVec 64) : Option Vma :=
  vmas.find? fun vma => vma.start ≤ addr ∧ addr < vma.stop

/-- The loop of `find_free_vma_region`, with a bound on its rounds. -/
def findFreeFrom (vmas : List Vma) (len maxAddr : BitVec 64) :
    ℕ → BitVec 64 → Outcome (Option (BitVec 64))
  | 0, _ => .hang
  | fuel + 1, candidate =>
    -- the sum saturates
    if min (candidate.toNat + len.toNat) (2 ^ 64 - 1) ≤ maxAddr.toNat then
      match vmas.find? fun v => candidate < v.stop ∧ v.start < candidate + len with
      | none => .ok (some candidate)
      | some v => findFreeFrom vmas len maxAddr fuel ((v.stop + 4095) &&& ~~~ 4095)
    else .ok none

/-- `find_free_vma_region`. Every round passes an area; after a sum has wrapped the
candidate is 0, and a second wrap repeats the rounds since the first for ever. -/
def findFreeVmaRegion (vmas : List Vma) (hint len maxAddr : BitVec 64) :
    Outcome (Option (BitVec 64)) :=
  findFreeFrom vmas len maxAddr (2 * (vmas.length + 1)) hint

structure WellFormed (vmas : List Vma) : Prop where
  sorted : vmas.Pairwise fun v w => v.start ≤ w.start
  nonempty : ∀ v ∈ vmas, v.start < v.stop
  disjoint : vmas.Pairwise fun v w => ¬ v.Overlaps w
  user : ∀ v ∈ vmas, v.stop.toNat ≤ userEnd

/-- An area that may be inserted: it is in the user half and overlaps only areas it is merged
with; or it ends before it starts and vanishes in the area before it. -/
def InsertOk (vmas : List Vma) (new : Vma) : Prop :=
  if new.start < new.stop then
    new.stop.toNat ≤ userEnd ∧ ∀ v ∈ vmas, v.Overlaps new → v.compatible new
  else ∃ v ∈ (vmas.filter fun w => w.start ≤ new.start).getLast?,
    v.compatible new ∧ new.start ≤ v.stop

def Vma.Ok (v : Vma) : Prop := v.start < v.stop ∧ v.stop.toNat ≤ userEnd

variable {w x : Vma} {vmas ws : List Vma} {α : Type*}
  {addr start stop len maxAddr candidate : BitVec 64} {fuel : ℕ} {v : Vma}

theorem Vma.compatible_iff : v.compatible w ↔ v.flags = w.flags ∧
    v.fileHandle = w.fileHandle ∧ v.isShared = w.isShared ∧ v.shmId = w.shmId := by
  simp [Vma.compatible]

theorem Vma.compatible_comm : v.compatible w ↔ w.compatible v := by
  rw [Vma.compatible_iff, Vma.compatible_iff]
  exact ⟨fun ⟨hf, hh, hs, hi⟩ => ⟨hf.symm, hh.symm, hs.symm, hi.symm⟩,
    fun ⟨hf, hh, hs, hi⟩ => ⟨hf.symm, hh.symm, hs.symm, hi.symm⟩⟩

theorem Vma.compatible_congr {u v : Vma} (h : u.compatible v) :
    u.compatible w ↔ v.compatible w := by
  rw [Vma.compatible_iff] at h
  simp only [Vma.compatible_iff, h]

theorem wellFormed_nil : WellFormed [] := ⟨.nil, nofun, .nil, nofun⟩

/-- In a well-formed list every area ends before the next starts. -/
theorem wellFormed_cons_iff :
    WellFormed (v :: vmas) ↔ v.Ok ∧ (∀ w ∈ vmas, v.stop ≤ w.start) ∧ WellFormed vmas := by
  constructor
  · rintro ⟨hsorted, hne, hdisj, huser⟩
    rw [pairwise_cons] at hsorted hdisj
    rw [forall_mem_cons] at hne huser
    refine ⟨⟨hne.1, huser.1⟩, fun w hw => ?_, hsorted.2, hne.2, hdisj.2, huser.2⟩
    have hover := hdisj.1 w hw
    have hle := hsorted.1 w hw
    have hlt := hne.2 w hw
    rw [Vma.Overlaps] at hover
    bv_omega
  · rintro ⟨hok, hle, hrest⟩
    have hlt := hok.1
    refine ⟨pairwise_cons.mpr ⟨fun w hw => ?_, hrest.sorted⟩,
      forall_mem_cons.mpr ⟨hok.1, hrest.nonempty⟩,
      pairwise_cons.mpr ⟨fun w hw => ?_, hrest.disjoint⟩,
      forall_mem_cons.mpr ⟨hok.2, hrest.user⟩⟩
    · have := hle w hw
      bv_omega
    · have := hle w hw
      rw [Vma.Overlaps]
      bv_omega

/-- Merging keeps the first start and does not create new ones. -/
theorem map_start_mergeFrom (v : Vma) (ws : List Vma) :
    ∃ starts, (mergeFrom v ws).map (·.start) = v.start :: starts ∧ starts ⊆ ws.map (·.start) := by
  induction ws generalizing v with
  | nil => exact ⟨[], rfl, List.Subset.refl _⟩
  | cons w ws ih =>
    rw [mergeFrom]
    split
    · obtain ⟨starts, heq, hsub⟩ := ih (v.extend w)
      exact ⟨starts, heq, subset_cons_of_subset _ hsub⟩
    · obtain ⟨starts, heq, hsub⟩ := ih w
      exact ⟨w.start :: starts, congrArg (v.start :: ·) heq, cons_subset_cons _ hsub⟩

/-- An area in front of a merged list. -/
theorem wellFormed_cons_mergeFrom_iff {u v : Vma} (hu : u.Ok) (hle : ∀ w ∈ ws, v.start ≤ w.start) :
    WellFormed (u :: mergeFrom v ws) ↔ u.stop ≤ v.start ∧ WellFormed (mergeFrom v ws) := by
  rw [wellFormed_cons_iff, and_iff_right hu]
  obtain ⟨starts, heq, hsub⟩ := map_start_mergeFrom v ws
  have hall : (∀ x ∈ mergeFrom v ws, u.stop ≤ x.start) ↔
      ∀ a ∈ (mergeFrom v ws).map (·.start), u.stop ≤ a := forall_mem_map.symm
  rw [hall, heq, forall_mem_cons]
  refine and_congr_left fun _ => and_iff_left_of_imp fun h a ha => ?_
  obtain ⟨w, hw, rfl⟩ := mem_map.mp (hsub ha)
  exact BitVec.le_trans h (hle w hw)

/-- An area of any length in front of a well-formed list. -/
theorem wellFormed_mergeFrom_iff (h : WellFormed vmas) (hlt : ∀ w ∈ vmas, v.start < w.start) :
    WellFormed (mergeFrom v vmas) ↔ v.Ok ∧ ∀ w ∈ vmas, w.start < v.stop → v.compatible w := by
  induction vmas generalizing v with
  | nil =>
    rw [mergeFrom, wellFormed_cons_iff]
    simp [wellFormed_nil]
  | cons w vmas ih =>
    obtain ⟨hw, hnext, hrest⟩ := wellFormed_cons_iff.mp h
    obtain ⟨hvw, hlt⟩ := forall_mem_cons.mp hlt
    rw [mergeFrom, forall_mem_cons]
    have hpos := hw.1
    have hnone : ∀ u ∈ vmas, ¬ u.start < w.stop := fun u hu => BitVec.not_lt.mpr (hnext u hu)
    split
    · next hmerge =>
      have hwstop := hw.2
      rw [ih (v := v.extend w) hrest hlt]
      simp only [Vma.Ok, Vma.extend]
      by_cases hle : v.stop ≤ w.stop
      · rw [if_pos hle]
        exact iff_of_true ⟨⟨by bv_omega, hwstop⟩, fun u hu hlt => absurd hlt (hnone u hu)⟩
          ⟨⟨by bv_omega, by bv_omega⟩, fun _ => hmerge.1,
            fun u hu hlt => absurd (by bv_omega) (hnone u hu)⟩
      · rw [if_neg hle]
        exact and_congr_right fun _ => (and_iff_right fun _ => hmerge.1).symm
    · next hmerge =>
      have hafter : ∀ u ∈ vmas, w.start < u.start := fun u hu => by
        have := hnext u hu
        bv_omega
      have hself : WellFormed (mergeFrom w vmas) :=
        (ih hrest hafter).mpr ⟨hw, fun u hu hlt => absurd hlt (hnone u hu)⟩
      have hcons (hok : v.Ok) : WellFormed (v :: mergeFrom w vmas) ↔ v.stop ≤ w.start := by
        rw [wellFormed_cons_mergeFrom_iff hok fun u hu => BitVec.le_of_lt (hafter u hu),
          and_iff_left hself]
      constructor
      · intro hwf
        have hok := (wellFormed_cons_iff.mp hwf).1
        have hle := (hcons hok).mp hwf
        refine ⟨hok, fun hlt => by bv_omega, fun u hu hlt => ?_⟩
        have := hafter u hu
        bv_omega
      · rintro ⟨hok, hcompat, -⟩
        refine (hcons hok).mpr ?_
        by_contra hgt
        exact hmerge ⟨hcompat (by bv_omega), by bv_omega⟩

def InsertBetween (before after : List Vma) (new : Vma) : Prop :=
  if new.start < new.stop then
    new.stop.toNat ≤ userEnd ∧ (∀ v ∈ before, v.Overlaps new → v.compatible new) ∧
      ∀ v ∈ after, v.Overlaps new → v.compatible new
  else ∃ v ∈ before.getLast?, v.compatible new ∧ new.start ≤ v.stop

theorem insertOk_append_iff {before after : List Vma} {new : Vma}
    (hbefore : ∀ v ∈ before, v.start ≤ new.start) (hafter : ∀ v ∈ after, new.start < v.start) :
    InsertOk (before ++ after) new ↔ InsertBetween before after new := by
  have hleft : before.filter (fun w => w.start ≤ new.start) = before := by
    rw [filter_eq_self]
    exact fun v hv => decide_eq_true (hbefore v hv)
  have hright : after.filter (fun w => w.start ≤ new.start) = [] := by
    rw [filter_eq_nil_iff]
    intro v hv
    have := hafter v hv
    rw [decide_eq_true_iff]
    bv_omega
  rw [InsertOk, InsertBetween, filter_append, hleft, hright, append_nil]
  simp only [forall_mem_append]

variable {new u v : Vma} {before after : List Vma}

/-- Two areas that are merged count as one. -/
theorem insertBetween_extend_iff (hu : u.start < u.stop) (hv : v.start < v.stop)
    (hcompat : u.compatible v) (hnext : u.stop = v.start) (hstart : v.start ≤ new.start) :
    InsertBetween (u.extend v :: before) after new ↔ InsertBetween (u :: v :: before) after new := by
  have hstop : (u.extend v).stop = v.stop := by
    exact if_pos (by bv_omega)
  have hsame : (u.extend v).compatible new ↔ v.compatible new := Vma.compatible_congr hcompat
  rw [InsertBetween, InsertBetween]
  split
  · next hpos =>
    simp only [forall_mem_cons, Vma.Overlaps, hstop, hsame]
    refine and_congr_right fun _ => and_congr_left fun _ => ?_
    rw [← and_assoc]
    refine and_congr_left fun _ => ⟨fun h => ⟨fun hover => ?_, fun hover => ?_⟩, fun h hover => ?_⟩
    · bv_omega
    · exact h ⟨show u.start < new.stop by bv_omega, hover.2⟩
    · exact h.2 ⟨by bv_omega, hover.2⟩
  · cases before with
    | nil =>
      simp only [getLast?_singleton, getLast?_cons_cons, Option.mem_some_iff,
        exists_eq_left', hsame, hstop]
    | cons w before => simp only [getLast?_cons_cons]

/-- An area that ends before the one in front of the new area does not matter. -/
theorem insertBetween_skip_iff (hle : u.stop ≤ v.start) (hstart : v.start ≤ new.start) :
    InsertBetween (v :: before) after new ↔ InsertBetween (u :: v :: before) after new := by
  rw [InsertBetween, InsertBetween]
  split
  · have hover : ¬ u.Overlaps new := by
      rw [Vma.Overlaps]
      bv_omega
    simp [hover]
  · rw [getLast?_cons_cons]

/-- An area that starts after the new one overlaps it if it starts before its end. -/
theorem forall_overlaps_iff {p : Vma → Prop} (h : WellFormed after)
    (hafter : ∀ w ∈ after, new.start < w.start) :
    (∀ w ∈ after, w.Overlaps new → p w) ↔ ∀ w ∈ after, w.start < new.stop → p w := by
  refine forall₂_congr fun w hw => ?_
  have := hafter w hw
  have := h.nonempty w hw
  have hover : new.start < w.stop := by bv_omega
  rw [Vma.Overlaps, and_iff_left hover]

/-- The new area is merged with the one before it. -/
theorem wellFormed_mergeFrom_extend_iff (hv : v.Ok)
    (hafter : ∀ w ∈ after, v.stop ≤ w.start ∧ new.start < w.start) (h : WellFormed after)
    (hcompat : v.compatible new) (hnext : new.start ≤ v.stop) :
    WellFormed (mergeFrom (v.extend new) after) ↔ InsertBetween [v] after new := by
  obtain ⟨hvlt, hvuser⟩ := hv
  have hlt : ∀ w ∈ after, (v.extend new).start < w.start := fun w hw => by
    have := hafter w hw
    show v.start < w.start
    bv_omega
  have hsame (w : Vma) : (v.extend new).compatible w ↔ w.compatible new := by
    rw [Vma.compatible_comm (v := w)]
    exact Vma.compatible_congr hcompat
  rw [wellFormed_mergeFrom_iff h hlt, InsertBetween]
  simp only [hsame, Vma.Ok, forall_overlaps_iff h fun w hw => (hafter w hw).2]
  by_cases hle : v.stop ≤ new.stop
  · have hstop : (v.extend new).stop = new.stop := if_pos hle
    have hstart' : (v.extend new).start < new.stop := by
      show v.start < new.stop
      bv_omega
    rw [hstop, and_iff_right hstart']
    split
    · simp only [forall_mem_singleton, hcompat, implies_true, true_and]
    · -- the new area ends where it starts, at the end of `v`
      have huser : new.stop.toNat ≤ userEnd := by bv_omega
      refine iff_of_true ⟨huser, fun w hw hlt => ?_⟩ ⟨v, rfl, hcompat, hnext⟩
      have := hafter w hw
      bv_omega
  · have hstop : (v.extend new).stop = v.stop := if_neg hle
    have hnone : ∀ w ∈ after, ¬ w.start < v.stop := fun w hw => by
      have := hafter w hw
      bv_omega
    rw [hstop]
    have hleft : ((v.extend new).start < v.stop ∧ v.stop.toNat ≤ userEnd) ∧
        ∀ w ∈ after, w.start < v.stop → w.compatible new :=
      ⟨⟨hvlt, hvuser⟩, fun w hw hlt => absurd hlt (hnone w hw)⟩
    refine iff_of_true hleft ?_
    split
    · refine ⟨by bv_omega, forall_mem_singleton.mpr fun _ => hcompat, fun w hw hover => ?_⟩
      have := hnone w hw
      bv_omega
    · exact ⟨v, rfl, hcompat, hnext⟩

/-- The new area right after `v`. -/
theorem wellFormed_mergeFrom_new_iff (hv : v.Ok) (hstart : v.start ≤ new.start)
    (hafter : ∀ w ∈ after, v.stop ≤ w.start ∧ new.start < w.start) (h : WellFormed after) :
    WellFormed (mergeFrom v (new :: after)) ↔ InsertBetween [v] after new := by
  rw [mergeFrom]
  split
  · next hmerge =>
    exact wellFormed_mergeFrom_extend_iff hv hafter h hmerge.1 hmerge.2
  next hmerge =>
  have hle : ∀ w ∈ after, new.start ≤ w.start := fun w hw => by
    have := hafter w hw
    bv_omega
  rw [wellFormed_cons_mergeFrom_iff hv hle,
    wellFormed_mergeFrom_iff h fun w hw => (hafter w hw).2, InsertBetween, Vma.Ok]
  split
  · next hpos =>
    rw [forall_overlaps_iff h fun w hw => (hafter w hw).2]
    simp only [hpos, true_and, forall_mem_singleton, Vma.compatible_comm (v := new), Vma.Overlaps]
    have hbefore : v.stop ≤ new.start ↔
        (v.start < new.stop ∧ new.start < v.stop → v.compatible new) := by
      refine ⟨fun hle hover => ?_, fun hcompat => ?_⟩
      · bv_omega
      · by_contra hgt
        exact hmerge ⟨hcompat ⟨by bv_omega, by bv_omega⟩, by bv_omega⟩
    tauto
  · next hneg =>
    refine iff_of_false (fun hwf => hneg hwf.2.1.1) ?_
    rintro ⟨w, hw, hcompat, hnext⟩
    obtain rfl : v = w := Option.some.inj hw
    exact hmerge ⟨hcompat, hnext⟩

/-- The new area somewhere after `v`. -/
theorem wellFormed_mergeFrom_append_iff (h : WellFormed (v :: (before ++ after)))
    (hv : v.start ≤ new.start) (hbefore : ∀ w ∈ before, w.start ≤ new.start)
    (hafter : ∀ w ∈ after, new.start < w.start) :
    WellFormed (mergeFrom v (before ++ new :: after)) ↔ InsertBetween (v :: before) after new := by
  -- induction over the areas before the new one, with `v` as the result of the merges so far
  induction before generalizing v with
  | nil =>
    obtain ⟨hok, hnext, hrest⟩ := wellFormed_cons_iff.mp h
    exact wellFormed_mergeFrom_new_iff hok hv (fun w hw => ⟨hnext w hw, hafter w hw⟩) hrest
  | cons w before ih =>
    obtain ⟨hok, hnext, hrest⟩ := wellFormed_cons_iff.mp h
    obtain ⟨hwok, hwnext, hrest'⟩ := wellFormed_cons_iff.mp hrest
    obtain ⟨hw, hbefore⟩ := forall_mem_cons.mp hbefore
    have hvw : v.stop ≤ w.start := hnext w mem_cons_self
    rw [cons_append, mergeFrom]
    split
    · next hmerge =>
      have heq : v.stop = w.start := by
        bv_omega
      have hstop : (v.extend w).stop = w.stop := if_pos (by have := hwok.1; bv_omega)
      have hwf : WellFormed (v.extend w :: (before ++ after)) := by
        refine wellFormed_cons_iff.mpr ⟨⟨?_, hstop ▸ hwok.2⟩, hstop ▸ hwnext, hrest'⟩
        have := hok.1
        have := hwok.1
        rw [hstop]
        show v.start < w.stop
        bv_omega
      rw [ih hwf hv hbefore]
      exact insertBetween_extend_iff hok.1 hwok.1 hmerge.1 heq hw
    · have hle : ∀ x ∈ before ++ new :: after, w.start ≤ x.start := fun x hx => by
        obtain hx | hx := mem_append.mp hx
        · have := hwnext x (mem_append_left _ hx)
          have := hwok.1
          bv_omega
        obtain rfl | hx := mem_cons.mp hx
        · exact hw
        · have := hafter x hx
          bv_omega
      rw [wellFormed_cons_mergeFrom_iff hok hle, and_iff_right hvw, ih hrest hw hbefore]
      exact insertBetween_skip_iff hvw hw

/-- An insertion keeps the list well-formed exactly if the new area permits it. -/
theorem wellFormed_insertVmaLocked_iff (h : WellFormed vmas) (new : Vma) :
    WellFormed (insertVmaLocked vmas new) ↔ InsertOk vmas new := by
  obtain ⟨before, after, rfl, hbefore, hafter, hsort⟩ := exists_insertionSort_eq h.sorted new
  have hafter : ∀ v ∈ after, new.start < v.start := fun v hv => BitVec.not_le.mp (hafter v hv)
  rw [insertVmaLocked, hsort, insertOk_append_iff hbefore hafter]
  cases before with
  | nil =>
    rw [nil_append] at h
    rw [nil_append, mergeVmasInner, wellFormed_mergeFrom_iff h hafter, InsertBetween, Vma.Ok]
    split
    · next hpos =>
      rw [and_iff_right hpos, and_iff_right (fun v hv => nomatch hv), forall_overlaps_iff h hafter]
      simp only [Vma.compatible_comm (v := new)]
    · next hneg =>
      refine iff_of_false (fun hwf => hneg hwf.1.1) ?_
      rintro ⟨w, hw, -⟩
      cases hw
  | cons v before =>
    obtain ⟨hv, hbefore⟩ := forall_mem_cons.mp hbefore
    exact wellFormed_mergeFrom_append_iff h hv hbefore hafter

def Vma.Covers (v : Vma) (addr : BitVec 64) : Prop := v.start ≤ addr ∧ addr < v.stop

/-- Merging uncovers no address. -/
theorem exists_covers_mergeFrom
    (hsorted : (v :: ws).Pairwise fun v w => v.start ≤ w.start) (hw : w ∈ v :: ws)
    (hcovers : w.Covers addr) : ∃ x ∈ mergeFrom v ws, x.Covers addr := by
  induction ws generalizing v w with
  | nil => exact ⟨w, hw, hcovers⟩
  | cons u ws ih =>
    obtain ⟨hv, hrest⟩ := pairwise_cons.mp hsorted
    obtain ⟨hu, hws⟩ := pairwise_cons.mp hrest
    have hvu := hv u mem_cons_self
    obtain ⟨hle, hlt⟩ := hcovers
    rw [mergeFrom]
    split
    · have hsorted' : (v.extend u :: ws).Pairwise fun v w => v.start ≤ w.start :=
        pairwise_cons.mpr ⟨fun x hx => hv x (mem_cons_of_mem _ hx), hws⟩
      have hextend (hw : w = v ∨ w = u) : (v.extend u).Covers addr := by
        simp only [Vma.Covers, Vma.extend]
        obtain rfl | rfl := hw <;> split <;> bv_omega
      rw [mem_cons, mem_cons, ← or_assoc] at hw
      obtain hw | hw := hw
      · exact ih hsorted' mem_cons_self (hextend hw)
      · exact ih hsorted' (mem_cons_of_mem _ hw) ⟨hle, hlt⟩
    · obtain rfl | hw := mem_cons.mp hw
      · exact ⟨w, mem_cons_self, hle, hlt⟩
      · obtain ⟨x, hx, hcovers⟩ := ih hrest hw ⟨hle, hlt⟩
        exact ⟨x, mem_cons_of_mem _ hx, hcovers⟩

/-- A new area is covered after its insertion, whatever the list. -/
theorem exists_covers_insertVmaLocked (vmas : List Vma)
    (hcovers : new.Covers addr) : ∃ x ∈ insertVmaLocked vmas new, x.Covers addr := by
  have hsorted := pairwise_insertionSort (fun v w : Vma => v.start ≤ w.start) (vmas ++ [new])
  have hmem : new ∈ (vmas ++ [new]).insertionSort fun v w => v.start ≤ w.start := by
    simp
  rw [insertVmaLocked]
  generalize (vmas ++ [new]).insertionSort (fun v w => v.start ≤ w.start) = sorted at hsorted hmem ⊢
  cases sorted with
  | nil => cases hmem
  | cons v ws => exact exists_covers_mergeFrom hsorted hmem hcovers

/-- A removal starts no area before one that was there. -/
theorem exists_start_le_of_mem_removeVmaRange
    (hx : x ∈ removeVmaRange start stop vmas) : ∃ v ∈ vmas, v.start ≤ x.start := by
  induction vmas with
  | nil => cases hx
  | cons v vmas ih =>
    have hrest : x ∈ removeVmaRange start stop vmas → ∃ w ∈ v :: vmas, w.start ≤ x.start :=
      fun hx => (ih hx).imp fun w hw => ⟨mem_cons_of_mem v hw.1, hw.2⟩
    have hself {y : Vma} (hy : v.start ≤ y.start) (hxy : x = y) :
        ∃ w ∈ v :: vmas, w.start ≤ x.start :=
      ⟨v, mem_cons_self, hxy ▸ hy⟩
    rw [removeVmaRange] at hx
    split at hx
    · exact (mem_cons.mp hx).elim (hself (by bv_omega)) hrest
    next hover =>
    have hstop : v.start ≤ stop := by bv_omega
    split at hx
    · obtain hx | hx := mem_cons.mp hx
      · exact hself (y := { v with stop := start }) (by simp) hx
      obtain hx | hx := mem_cons.mp hx
      · exact hself (y := { v with start := stop }) hstop hx
      · exact ⟨x, mem_cons_of_mem v hx, by simp⟩
    split at hx
    · exact hrest hx
    split at hx
    · exact (mem_cons.mp hx).elim (hself (by simp)) hrest
    · exact (mem_cons.mp hx).elim (hself hstop) hrest

theorem wellFormed_removeVmaRange (hle : start ≤ stop)
    (h : WellFormed vmas) : WellFormed (removeVmaRange start stop vmas) := by
  induction vmas with
  | nil => exact h
  | cons v vmas ih =>
    obtain ⟨⟨hlt, huser⟩, hnext, hrest⟩ := wellFormed_cons_iff.mp h
    have hkeep {y : Vma} (hy : y.Ok) (hstop : y.stop ≤ v.stop) :
        WellFormed (y :: removeVmaRange start stop vmas) := by
      refine wellFormed_cons_iff.mpr ⟨hy, fun x hx => ?_, ih hrest⟩
      obtain ⟨w, hw, hwx⟩ := exists_start_le_of_mem_removeVmaRange hx
      have := hnext w hw
      bv_omega
    rw [removeVmaRange]
    split
    · exact hkeep ⟨hlt, huser⟩ (by simp)
    next hover =>
    split
    · next hsplit =>
      have hright : WellFormed ({ v with start := stop } :: vmas) :=
        wellFormed_cons_iff.mpr ⟨⟨hsplit.2, huser⟩, hnext, hrest⟩
      refine wellFormed_cons_iff.mpr ⟨⟨hsplit.1, ?_⟩, fun x hx => ?_, hright⟩
      · bv_omega
      · obtain rfl | hx := mem_cons.mp hx
        · exact hle
        · have := hnext x hx
          bv_omega
    split
    · exact ih hrest
    split
    · next htrim =>
      refine hkeep ⟨htrim.1, ?_⟩ ?_
      · bv_omega
      · bv_omega
    · refine hkeep ⟨?_, huser⟩ (by simp)
      bv_omega

/-- A range that ends before it starts: an area around it becomes two that overlap. -/
theorem wellFormed_removeVmaRange_wrapped_iff (hlt : stop < start) (h : WellFormed vmas) :
    WellFormed (removeVmaRange start stop vmas) ↔
      ∀ v ∈ vmas, ¬ (v.start < stop ∧ start < v.stop) := by
  induction vmas with
  | nil => exact iff_of_true h nofun
  | cons v vmas ih =>
    obtain ⟨hok, hnext, hrest⟩ := wellFormed_cons_iff.mp h
    rw [removeVmaRange, forall_mem_cons]
    split
    · next hskip =>
      have hnot : ¬ (v.start < stop ∧ start < v.stop) := by bv_omega
      rw [and_iff_right hnot, ← ih hrest, wellFormed_cons_iff, and_iff_right hok]
      refine and_iff_right fun x hx => ?_
      obtain ⟨w, hw, hwx⟩ := exists_start_le_of_mem_removeVmaRange hx
      have := hnext w hw
      bv_omega
    · next hover =>
      have hsplit : v.start < start ∧ stop < v.stop := by bv_omega
      rw [if_pos hsplit]
      refine iff_of_false (fun hwf => ?_) fun hnone => hnone.1 (by bv_omega)
      have hle := (wellFormed_cons_iff.mp hwf).2.1 _ mem_cons_self
      bv_omega

/-- A removal keeps the list well-formed unless its range wraps inside an area. -/
theorem wellFormed_removeVmaRange_iff (start stop : BitVec 64) (h : WellFormed vmas) :
    WellFormed (removeVmaRange start stop vmas) ↔
      (stop < start → ∀ v ∈ vmas, ¬ (v.start < stop ∧ start < v.stop)) := by
  by_cases hle : start ≤ stop
  · exact iff_of_true (wellFormed_removeVmaRange hle h) fun hlt => by bv_omega
  · have hlt : stop < start := by bv_omega
    rw [wellFormed_removeVmaRange_wrapped_iff hlt h, forall_prop_of_true hlt]

/-- Areas with other flags or backing at the same places. -/
theorem wellFormed_map {f : Vma → Vma} (hf : ∀ v, (f v).start = v.start ∧ (f v).stop = v.stop)
    (h : WellFormed vmas) : WellFormed (vmas.map f) := by
  constructor
  · simpa only [pairwise_map, hf] using h.sorted
  · simpa only [forall_mem_map, hf] using h.nonempty
  · simpa only [pairwise_map, Vma.Overlaps, hf] using h.disjoint
  · simpa only [forall_mem_map, hf] using h.user

/-- A part of a well-formed list. -/
theorem WellFormed.sublist {vmas' : List Vma} (h : WellFormed vmas)
    (hsub : vmas'.Sublist vmas) : WellFormed vmas' :=
  ⟨h.sorted.sublist hsub, fun v hv => h.nonempty v (hsub.subset hv), h.disjoint.sublist hsub,
    fun v hv => h.user v (hsub.subset hv)⟩

/-- An area that starts later starts after the end. -/
theorem WellFormed.stop_le_start (h : WellFormed vmas) (hv : v ∈ vmas)
    (hw : w ∈ vmas) (hlt : v.start < w.start) : v.stop ≤ w.start := by
  have hsymm : Std.Symm fun v w : Vma => ¬ v.Overlaps w := ⟨fun _ _ h h' => h h'.symm⟩
  have hover := h.disjoint.forall hv hw fun heq => BitVec.lt_irrefl _ (heq ▸ hlt)
  have := h.nonempty w hw
  rw [Vma.Overlaps] at hover
  bv_omega

def resizeAt (start stop : BitVec 64) : List Vma → List Vma
  | [] => []
  | v :: vs => if v.start = start then { v with stop } :: vs else v :: resizeAt start stop vs

theorem map_start_resizeAt (start stop : BitVec 64) (vmas : List Vma) :
    (resizeAt start stop vmas).map (·.start) = vmas.map (·.start) := by
  induction vmas with
  | nil => rfl
  | cons v vmas ih =>
    rw [resizeAt]
    split
    · rfl
    · rw [map_cons, ih, map_cons]

/-- An area may end anywhere up to the next one. -/
theorem wellFormed_resizeAt_iff (h : WellFormed vmas) (hv : v ∈ vmas) (stop : BitVec 64) :
    WellFormed (resizeAt v.start stop vmas) ↔
      v.start < stop ∧ stop.toNat ≤ userEnd ∧ ∀ w ∈ vmas, v.start < w.start → stop ≤ w.start := by
  induction vmas with
  | nil => cases hv
  | cons u vmas ih =>
    obtain ⟨hok, hnext, hrest⟩ := wellFormed_cons_iff.mp h
    have hpos := hok.1
    rw [resizeAt, forall_mem_cons]
    split
    · next heq =>
      rw [wellFormed_cons_iff, Vma.Ok, ← heq, and_assoc]
      refine and_congr_right fun _ => and_congr_right fun _ => ?_
      have hself : u.start < u.start → stop ≤ u.start := fun hlt => by bv_omega
      rw [and_iff_right hself, and_iff_left hrest]
      refine forall₂_congr fun w hw => ?_
      have := hnext w hw
      have hlt : u.start < w.start := by bv_omega
      rw [forall_prop_of_true hlt]
    · next hne =>
      obtain rfl | hv := mem_cons.mp hv
      · exact absurd rfl hne
      have hlt : u.stop ≤ v.start := hnext v hv
      have hbefore : v.start < u.start → stop ≤ u.start := fun hlt => by bv_omega
      rw [wellFormed_cons_iff, ih hrest hv, and_iff_right hok, and_iff_right hbefore]
      refine and_iff_right (forall_mem_map.mp ?_)
      rw [map_start_resizeAt]
      exact forall_mem_map.mpr hnext

/-- A region that was found is free and below the bound. -/
theorem findFreeFrom_spec (hmax : maxAddr.toNat < 2 ^ 64 - 1)
    (h : findFreeFrom vmas len maxAddr fuel candidate = .ok (some addr)) :
    addr.toNat + len.toNat ≤ maxAddr.toNat ∧
      ∀ v ∈ vmas, ¬ (addr < v.stop ∧ v.start < addr + len) := by
  induction fuel generalizing candidate with
  | zero => cases h
  | succ fuel ih =>
    rw [findFreeFrom] at h
    split at h
    · next hfits =>
      split at h
      · next hnone =>
        obtain rfl : candidate = addr := by
          cases h
          rfl
        refine ⟨by omega, fun v hv hover => ?_⟩
        have hfree := find?_eq_none.mp hnone v hv
        exact hfree (decide_eq_true hover)
      · exact ih h
    · cases h

/-- The next candidate is past the area that was in the way. -/
theorem stop_le_nextPage (h : v.stop.toNat < 2 ^ 63) :
    v.stop ≤ (v.stop + 4095) &&& ~~~ 4095 := by
  rw [BitVec.le_def, toNat_and_not_4095, BitVec.toNat_add]
  have : (4095 : BitVec 64).toNat = 4095 := rfl
  omega

theorem countP_lt_countP {p q : α → Bool} {l : List α} {a : α}
    (hpq : ∀ b ∈ l, p b → q b) (ha : a ∈ l) (hq : q a) (hp : ¬ p a) : l.countP p < l.countP q := by
  obtain ⟨l₁, l₂, rfl⟩ := append_of_mem ha
  have h₁ : l₁.countP p ≤ l₁.countP q :=
    countP_mono_left fun b hb => hpq b (mem_append_left _ hb)
  have h₂ : l₂.countP p ≤ l₂.countP q :=
    countP_mono_left fun b hb => hpq b (mem_append_right _ (mem_cons_of_mem _ hb))
  rw [countP_append, countP_append, countP_cons_of_pos hq, countP_cons_of_neg hp]
  omega

/-- The search ends after at most one round for each area that ends after the candidate. -/
theorem exists_findFreeFrom_eq (hstop : ∀ v ∈ vmas, v.stop.toNat < 2 ^ 63)
    (hfuel : vmas.countP (fun v => candidate < v.stop) < fuel) :
    ∃ r, findFreeFrom vmas len maxAddr fuel candidate = .ok r := by
  induction fuel generalizing candidate with
  | zero => cases hfuel
  | succ fuel ih =>
    rw [findFreeFrom]
    split
    · split
      · exact ⟨_, rfl⟩
      · next v hfind =>
        have hmem := mem_of_find?_eq_some hfind
        have hv : candidate < v.stop ∧ v.start < candidate + len := by
          simpa using find?_some hfind
        have hpast := stop_le_nextPage (hstop v hmem)
        refine ih ?_
        -- the area itself no longer counts
        have hless : vmas.countP (fun w => (v.stop + 4095) &&& ~~~ 4095 < w.stop) <
            vmas.countP fun w => candidate < w.stop := by
          refine countP_lt_countP (fun w _ hw => ?_) hmem (decide_eq_true hv.1) ?_
          · have hpast' := of_decide_eq_true hw
            exact decide_eq_true (by bv_omega)
          · rw [decide_eq_true_iff]
            bv_omega
        omega
    · exact ⟨_, rfl⟩

/-- The search returns if all areas end in the lower half. -/
theorem exists_findFreeVmaRegion_eq (hstop : ∀ v ∈ vmas, v.stop.toNat < 2 ^ 63)
    (hint len maxAddr : BitVec 64) : ∃ r, findFreeVmaRegion vmas hint len maxAddr = .ok r := by
  refine exists_findFreeFrom_eq hstop ?_
  have := countP_le_length (p := fun v : Vma => hint < v.stop) (l := vmas)
  omega

end Vahi.Task
