import Vahi.Task.Vma

/-!
# What a list of memory areas means

`find_vma` finds the area of an address. A removal and an insertion keep what the list says about
the other addresses, except for the position in a file: an area that loses its beginning keeps its
`file_offset`, and areas are merged whatever theirs are.
-/

namespace Vahi.Task

open Vahi.Lib Vahi.Memory List

namespace Vma

def position (v : Vma) (addr : BitVec 64) : BitVec 64 := v.fileOffset + (addr - v.start)

def Apart (v w : Vma) : Prop := ∀ addr, v.Covers addr → ¬ w.Covers addr

theorem compatible_self (v : Vma) : v.compatible v := by
  simp [compatible]

end Vma

variable {u v w x : Vma} {vmas ws : List Vma} {addr start stop hint len maxAddr : BitVec 64}

/-! ### The search for a free region -/

/-- A page-aligned place for `len` bytes below the bound that has no address in common with an
area. -/
structure Fits (vmas : List Vma) (hint len maxAddr a : BitVec 64) : Prop where
  aligned : a.toNat % 4096 = 0
  above : hint ≤ a
  below : a.toNat + len.toNat ≤ maxAddr.toNat
  free : ∀ v ∈ vmas, ∀ x, v.Covers x → ¬ (a ≤ x ∧ x.toNat < a.toNat + len.toNat)

/-- The smallest such place, or none if there is none. -/
def IsLowest (P : BitVec 64 → Prop) : Option (BitVec 64) → Prop
  | some a => P a ∧ ∀ b, P b → a ≤ b
  | none => ∀ b, ¬ P b

/-- An area that is in the way of the candidate is in the way of every place before its end. -/
theorem Fits.stop_le {a c : BitVec 64} (h : Fits vmas hint len maxAddr a) (hv : v ∈ vmas)
    (hne : v.start < v.stop) (hlen : 0 < len) (hle : c ≤ a)
    (hover : v.start < c + len) : v.stop ≤ a := by
  by_contra hlt
  by_cases hstart : v.start ≤ a
  · exact h.free v hv a ⟨hstart, by bv_omega⟩ ⟨by bv_omega, by bv_omega⟩
  · exact h.free v hv v.start ⟨by bv_omega, hne⟩ ⟨by bv_omega, by bv_omega⟩

theorem findFreeFrom_isLowest {fuel : ℕ} {candidate : BitVec 64} {r : Option (BitVec 64)}
    (hvmas : ∀ v ∈ vmas, v.start < v.stop ∧ v.stop.toNat < 2 ^ 63) (hlen : 0 < len)
    (hmax : maxAddr.toNat < 2 ^ 63) (halign : candidate.toNat % 4096 = 0) (hhint : hint ≤ candidate)
    (hleast : ∀ b, Fits vmas hint len maxAddr b → candidate ≤ b)
    (h : findFreeFrom vmas len maxAddr fuel candidate = .ok r) :
    IsLowest (Fits vmas hint len maxAddr) r := by
  induction fuel generalizing candidate with
  | zero => cases h
  | succ fuel ih =>
    rw [findFreeFrom] at h
    split at h
    · next hfits =>
      split at h
      · next hnone =>
        cases h
        refine ⟨⟨halign, hhint, by omega, fun v hv x hx hin => ?_⟩, hleast⟩
        have hfree := find?_eq_none.mp hnone v hv
        obtain ⟨hle, hlt⟩ := hx
        refine hfree (decide_eq_true ⟨?_, ?_⟩)
        · bv_omega
        · bv_omega
      · next v hfind =>
        have hmem := mem_of_find?_eq_some hfind
        have hv : candidate < v.stop ∧ v.start < candidate + len := by
          simpa using find?_some hfind
        obtain ⟨hne, hstop⟩ := hvmas v hmem
        have hnext : ((v.stop + 4095) &&& ~~~ 4095).toNat = (v.stop.toNat + 4095) / 4096 * 4096 := by
          rw [toNat_and_not_4095, BitVec.toNat_add]
          have : (4095 : BitVec 64).toNat = 4095 := rfl
          omega
        refine ih ?_ ?_ (fun b hb => ?_) h
        · omega
        · bv_omega
        · have hle := hb.stop_le hmem hne hlen (hleast b hb) hv.2
          have := hb.aligned
          bv_omega
    · next hfits =>
      cases h
      intro b hb
      have := hb.below
      have := hleast b hb
      bv_omega

/-- The search ends, and it finds the lowest free region if there is one. -/
theorem findFreeVmaRegion_isLowest (hvmas : ∀ v ∈ vmas, v.start < v.stop ∧ v.stop.toNat < 2 ^ 63)
    (hhint : hint.toNat % 4096 = 0) (hlen : 0 < len) (hmax : maxAddr.toNat < 2 ^ 63) :
    ∃ r, findFreeVmaRegion vmas hint len maxAddr = .ok r ∧
      IsLowest (Fits vmas hint len maxAddr) r := by
  obtain ⟨r, hr⟩ := exists_findFreeVmaRegion_eq (fun v hv => (hvmas v hv).2) hint len maxAddr
  exact ⟨r, hr, findFreeFrom_isLowest hvmas hlen hmax hhint (by simp) (fun b hb => hb.above) hr⟩

def filePages : Vma := ⟨0x10000, 0x14000, 5, some 3, 0, false, none⟩

/-- Behind a gap of one page. -/
def laterPages : Vma := { filePages with start := 0x15000, stop := 0x18000, fileOffset := 0x5000 }

/-- Two pages do not fit into the gap. -/
theorem findFreeVmaRegion_isLowest_gap : ∃ r,
    findFreeVmaRegion [filePages, laterPages] 0x10000 0x2000 0x20000 = .ok r ∧ r = some 0x18000 ∧
      IsLowest (Fits [filePages, laterPages] 0x10000 0x2000 0x20000) r := by
  obtain ⟨r, hr, hlowest⟩ :
      ∃ r, findFreeVmaRegion [filePages, laterPages] 0x10000 0x2000 0x20000 = .ok r ∧
        IsLowest (Fits [filePages, laterPages] 0x10000 0x2000 0x20000) r :=
    findFreeVmaRegion_isLowest (by decide) (by decide) (by decide) (by decide)
  have hfound : findFreeVmaRegion [filePages, laterPages] 0x10000 0x2000 0x20000 =
      .ok (some 0x18000) := by decide
  exact ⟨r, hr, Outcome.ok.inj (hr.symm.trans hfound), hlowest⟩

/-! ### Removal -/

/-- What a removal leaves of an area at an address: the flags and the backing, and the position
unless the area began before the end of the range and goes on behind it. -/
def Kept (stop addr : BitVec 64) (x v : Vma) : Prop :=
  x.compatible v ∧ (x.position addr = v.position addr ↔ ¬ (v.start < stop ∧ stop ≤ addr))

theorem kept_of_start_eq (hcompat : x.compatible v) (hstart : x.start = v.start)
    (hoffset : x.fileOffset = v.fileOffset) (hnot : ¬ (v.start < stop ∧ stop ≤ addr)) :
    Kept stop addr x v := by
  refine ⟨hcompat, iff_of_true ?_ hnot⟩
  rw [Vma.position, Vma.position, hstart, hoffset]

theorem kept_behind (hlt : v.start < stop) (hle : stop ≤ addr) :
    Kept stop addr { v with start := stop } v := by
  refine ⟨v.compatible_self, iff_of_false (fun h => ?_) (not_not_intro ⟨hlt, hle⟩)⟩
  simp only [Vma.position] at h
  bv_omega

theorem findVma_cons (v : Vma) (vmas : List Vma) (addr : BitVec 64) :
    findVma (v :: vmas) addr =
      if v.start ≤ addr ∧ addr < v.stop then some v else findVma vmas addr := by
  simp only [findVma, find?_cons]
  split <;> simp_all

/-- Behind an area around the range nothing is left to trim. -/
theorem rel_findVma_of_apart (hlt : v.start < stop) (hstop : stop < v.stop)
    (hapart : ∀ w ∈ vmas, v.Apart w) (addr : BitVec 64) :
    Option.Rel (Kept stop addr) (findVma vmas addr) (findVma vmas addr) := by
  cases h : findVma vmas addr with
  | none => exact .none
  | some w =>
    have hmem := mem_of_find?_eq_some h
    have hcovers : w.start ≤ addr ∧ addr < w.stop := by simpa using find?_some h
    refine .some (kept_of_start_eq w.compatible_self rfl rfl fun hbehind => ?_)
    exact hapart w hmem stop ⟨by bv_omega, hstop⟩ ⟨by bv_omega, by bv_omega⟩

theorem rel_findVma_removeVmaRange (hlt : start < stop) (hapart : vmas.Pairwise Vma.Apart)
    (hout : ¬ (start ≤ addr ∧ addr < stop)) :
    Option.Rel (Kept stop addr) (findVma (removeVmaRange start stop vmas) addr)
      (findVma vmas addr) := by
  induction vmas with
  | nil => exact .none
  | cons v vmas ih =>
    obtain ⟨hv, hrest⟩ := pairwise_cons.mp hapart
    have ih := ih hrest
    rw [removeVmaRange, findVma_cons v]
    split
    · next hskip =>
      rw [findVma_cons]
      split
      · exact .some (kept_of_start_eq v.compatible_self rfl rfl (by bv_omega))
      · exact ih
    split
    · next hsplit =>
      rw [findVma_cons, findVma_cons]
      by_cases hcovers : v.start ≤ addr ∧ addr < v.stop
      · rw [if_pos hcovers]
        by_cases hleft : addr < start
        · rw [if_pos ⟨hcovers.1, hleft⟩]
          exact .some (kept_of_start_eq v.compatible_self rfl rfl (by bv_omega))
        · rw [if_neg (fun h => hleft h.2), if_pos ⟨by bv_omega, hcovers.2⟩]
          exact .some (kept_behind (by bv_omega) (by bv_omega))
      · rw [if_neg hcovers, if_neg (by bv_omega), if_neg (by bv_omega)]
        exact rel_findVma_of_apart (by bv_omega) hsplit.2 hv addr
    split
    · rw [if_neg (by bv_omega)]
      exact ih
    split
    · rw [findVma_cons]
      by_cases hcovers : v.start ≤ addr ∧ addr < v.stop
      · rw [if_pos hcovers, if_pos (by bv_omega)]
        exact .some (kept_of_start_eq v.compatible_self rfl rfl (by bv_omega))
      · rw [if_neg hcovers, if_neg (by bv_omega)]
        exact ih
    · rw [findVma_cons]
      by_cases hcovers : v.start ≤ addr ∧ addr < v.stop
      · rw [if_pos hcovers, if_pos (by bv_omega)]
        exact .some (kept_behind (by bv_omega) (by bv_omega))
      · rw [if_neg hcovers, if_neg (by bv_omega)]
        exact ih

theorem not_covers_removeVmaRange (hapart : vmas.Pairwise Vma.Apart)
    (hx : x ∈ removeVmaRange start stop vmas) (hcovers : x.Covers addr) :
    ¬ (start ≤ addr ∧ addr < stop) := by
  obtain ⟨hle, hlt'⟩ := hcovers
  induction vmas with
  | nil => cases hx
  | cons v vmas ih =>
    obtain ⟨hv, hrest⟩ := pairwise_cons.mp hapart
    rw [removeVmaRange] at hx
    split at hx
    · obtain rfl | hx := mem_cons.mp hx
      · bv_omega
      · exact ih hrest hx
    split at hx
    · next hsplit =>
      obtain rfl | hx := mem_cons.mp hx
      · exact fun h => by bv_omega
      obtain rfl | hx := mem_cons.mp hx
      · exact fun h => by bv_omega
      · exact fun hin => hv x hx addr ⟨by bv_omega, by bv_omega⟩ ⟨hle, hlt'⟩
    split at hx
    · exact ih hrest hx
    split at hx
    all_goals
      obtain rfl | hx := mem_cons.mp hx
      · exact fun h => by bv_omega
      · exact ih hrest hx

/-- After a removal no area has an address of the range. At every other address there is an area
exactly if there was one, with the same flags and backing, and it shows the same place of the
file exactly if the area there did not lose its beginning. -/
theorem removeVmaRange_exact (hlt : start < stop) (hapart : vmas.Pairwise Vma.Apart) :
    (∀ x ∈ removeVmaRange start stop vmas, ∀ addr, x.Covers addr →
      ¬ (start ≤ addr ∧ addr < stop)) ∧
    ∀ addr, ¬ (start ≤ addr ∧ addr < stop) → Option.Rel (Kept stop addr)
      (findVma (removeVmaRange start stop vmas) addr) (findVma vmas addr) :=
  ⟨fun _ hx _ hcovers => not_covers_removeVmaRange hapart hx hcovers,
    fun _ hout => rel_findVma_removeVmaRange hlt hapart hout⟩

theorem removeVmaRange_exact_pages : Option.Rel (Kept 0x12000 0x10000)
    (findVma (removeVmaRange 0x11000 0x12000 [filePages]) 0x10000)
    (findVma [filePages] 0x10000) :=
  (removeVmaRange_exact (by decide) (pairwise_singleton _ _)).2 _ (by decide)

/-- The third page of the file is mapped at `0x12000`; after the second is unmapped, the first is
found there. -/
theorem removeVmaRange_moves_file :
    (findVma [filePages] 0x12000).map (·.position 0x12000) = some 0x2000 ∧
      (findVma (removeVmaRange 0x11000 0x12000 [filePages]) 0x12000).map (·.position 0x12000) =
        some 0 := by
  decide

/-! ### Insertion -/

/-- Where areas with the same flags and backing meet, the file goes on. -/
def Contiguous (vmas : List Vma) : Prop :=
  ∀ u ∈ vmas, ∀ w ∈ vmas, u.compatible w → u.stop = w.start → w.fileOffset = u.position w.start

instance : Std.Symm Vma.Apart := ⟨fun _ _ h addr hw hv => h addr hv hw⟩

theorem covers_or_of_extend (hle : w.start ≤ v.stop) (h : (v.extend w).Covers addr) :
    v.Covers addr ∨ w.Covers addr := by
  obtain ⟨hstart, hstop⟩ := h
  simp only [Vma.extend] at hstart hstop
  by_cases hlt : addr < v.stop
  · exact .inl ⟨hstart, hlt⟩
  refine .inr ⟨by bv_omega, ?_⟩
  split at hstop
  · exact hstop
  · exact absurd hstop hlt

theorem pairwise_apart_extend (hle : w.start ≤ v.stop)
    (hapart : (v :: w :: ws).Pairwise Vma.Apart) : (v.extend w :: ws).Pairwise Vma.Apart := by
  obtain ⟨hv, hrest⟩ := pairwise_cons.mp hapart
  refine pairwise_cons.mpr ⟨fun y hy addr hcov => ?_, hrest.of_cons⟩
  obtain hcov | hcov := covers_or_of_extend hle hcov
  · exact hv y (mem_cons_of_mem _ hy) addr hcov
  · exact rel_of_pairwise_cons hrest hy addr hcov

/-- Areas that are merged meet. -/
theorem stop_eq_start (hapart : v.Apart w) (hsorted : v.start ≤ w.start) (hle : w.start ≤ v.stop)
    (hne : w.start < w.stop) : v.stop = w.start := by
  by_contra hneq
  exact hapart w.start ⟨hsorted, by bv_omega⟩ ⟨by bv_omega, hne⟩

theorem position_eq_position (h : w.fileOffset = v.position w.start) (addr : BitVec 64) :
    v.position addr = w.position addr := by
  rw [Vma.position, Vma.position, h, Vma.position]
  grind

theorem Contiguous.extend (h : Contiguous (v :: w :: ws)) (hapart : v.Apart w)
    (hsorted : v.start ≤ w.start) (hle : w.start ≤ v.stop) (hcompat : v.compatible w) :
    Contiguous (v.extend w :: ws) := by
  have hsub {a : Vma} (ha : a ∈ ws) : a ∈ v :: w :: ws := mem_cons_of_mem _ (mem_cons_of_mem _ ha)
  have hw : w ∈ v :: w :: ws := mem_cons_of_mem _ mem_cons_self
  intro a ha b hb hab hstop
  obtain rfl | ha := mem_cons.mp ha
  · obtain rfl | hb := mem_cons.mp hb
    · simp [Vma.position]
    have hvb : v.compatible b := hab
    simp only [Vma.extend] at hstop
    split at hstop
    · by_cases hne : w.start < w.stop
      · have hnext := h v mem_cons_self w hw hcompat (stop_eq_start hapart hsorted hle hne)
        have hwb : w.compatible b := (Vma.compatible_congr hcompat).mp hvb
        exact (h w hw b (hsub hb) hwb hstop).trans (position_eq_position hnext _).symm
      · exact h v mem_cons_self b (hsub hb) hvb (by bv_omega)
    · exact h v mem_cons_self b (hsub hb) hvb hstop
  · obtain rfl | hb := mem_cons.mp hb
    · exact h a (hsub ha) v mem_cons_self hab hstop
    · exact h a (hsub ha) b (hsub hb) hab hstop

/-- A merged area shows at every address what the area there showed. -/
theorem exists_covers_of_mem_mergeFrom (hsorted : (v :: ws).Pairwise fun v w => v.start ≤ w.start)
    (hapart : (v :: ws).Pairwise Vma.Apart) (hx : x ∈ mergeFrom v ws) (hcovers : x.Covers addr) :
    ∃ u ∈ v :: ws, u.Covers addr ∧ x.compatible u ∧
      (Contiguous (v :: ws) → x.position addr = u.position addr) := by
  induction ws generalizing v with
  | nil =>
    obtain rfl := mem_singleton.mp hx
    exact ⟨x, hx, hcovers, x.compatible_self, fun _ => rfl⟩
  | cons w ws ih =>
    obtain ⟨hv, hrest⟩ := pairwise_cons.mp hsorted
    obtain ⟨hva, hrest'⟩ := pairwise_cons.mp hapart
    have hvw := hv w mem_cons_self
    have hvwa := hva w mem_cons_self
    rw [mergeFrom] at hx
    split at hx
    · next hmerge =>
      obtain ⟨hcompat, hle⟩ := hmerge
      have hsorted' : (v.extend w :: ws).Pairwise fun v w => v.start ≤ w.start :=
        pairwise_cons.mpr ⟨fun y hy => hv y (mem_cons_of_mem _ hy), hrest.of_cons⟩
      have hapart' := pairwise_apart_extend hle hapart
      obtain ⟨u, hu, hcov, hxu, hpos⟩ := ih hsorted' hapart' hx
      have hpos (h : Contiguous (v :: w :: ws)) : x.position addr = u.position addr :=
        hpos (h.extend hvwa hvw hle hcompat)
      obtain rfl | hu := mem_cons.mp hu
      · obtain hcov | hcov := covers_or_of_extend hle hcov
        · exact ⟨v, mem_cons_self, hcov, hxu, hpos⟩
        · have hcongr {y : Vma} : y.compatible v ↔ y.compatible w := by
            rw [Vma.compatible_comm, Vma.compatible_congr hcompat, Vma.compatible_comm]
          refine ⟨w, mem_cons_of_mem _ mem_cons_self, hcov, hcongr.mp hxu, fun h => ?_⟩
          have hne : w.start < w.stop := by
            have := hcov.1
            have := hcov.2
            bv_omega
          have hnext := h v mem_cons_self w (mem_cons_of_mem _ mem_cons_self) hcompat
            (stop_eq_start hvwa hvw hle hne)
          exact (hpos h).trans (position_eq_position hnext addr)
      · exact ⟨u, mem_cons_of_mem _ (mem_cons_of_mem _ hu), hcov, hxu, hpos⟩
    · obtain rfl | hx := mem_cons.mp hx
      · exact ⟨x, mem_cons_self, hcovers, x.compatible_self, fun _ => rfl⟩
      · obtain ⟨u, hu, hcov, hxu, hpos⟩ := ih hrest hrest' hx
        refine ⟨u, mem_cons_of_mem _ hu, hcov, hxu, fun h => hpos fun a ha b hb => ?_⟩
        exact h a (mem_cons_of_mem _ ha) b (mem_cons_of_mem _ hb)

theorem exists_longer_mem_mergeFrom (v : Vma) (ws : List Vma) :
    ∃ x ∈ mergeFrom v ws, x.start = v.start ∧ v.stop ≤ x.stop := by
  induction ws generalizing v with
  | nil => exact ⟨v, mem_cons_self, rfl, BitVec.le_refl _⟩
  | cons w ws ih =>
    rw [mergeFrom]
    split
    · obtain ⟨x, hx, hstart, hstop⟩ := ih (v.extend w)
      refine ⟨x, hx, hstart, ?_⟩
      simp only [Vma.extend] at hstop
      split at hstop
      · bv_omega
      · exact hstop
    · exact ⟨v, mem_cons_self, rfl, BitVec.le_refl _⟩

/-- An area that begins where one of the list ends is not the first. -/
theorem mem_tail_of_meet (hsorted : ∀ w ∈ ws, v.start ≤ w.start)
    (hne : ∀ w ∈ v :: ws, w.start < w.stop) (hu : u ∈ v :: ws) (hw : w ∈ v :: ws)
    (hmeet : u.stop = w.start) : w ∈ ws := by
  refine (mem_cons.mp hw).resolve_left ?_
  rintro rfl
  have hlt := hne u hu
  obtain rfl | hu := mem_cons.mp hu
  · bv_omega
  · have := hsorted u hu
    bv_omega

/-- Nothing fits between areas that meet. -/
theorem eq_next_of_meet (hsorted : (v :: y :: ws).Pairwise fun v w => v.start ≤ w.start)
    (hapart : (v :: y :: ws).Pairwise Vma.Apart) (hne : ∀ w ∈ v :: y :: ws, w.start < w.stop)
    (hw : w ∈ y :: ws) (hmeet : v.stop = w.start) : w = y := by
  by_contra hwy
  have hmem := (mem_cons.mp hw).resolve_left hwy
  have hyw := rel_of_pairwise_cons hsorted.of_cons hmem
  by_cases hlt : y.start < v.stop
  · exact rel_of_pairwise_cons hapart mem_cons_self y.start
      ⟨rel_of_pairwise_cons hsorted mem_cons_self, hlt⟩
      ⟨BitVec.le_refl _, hne y (mem_cons_of_mem _ mem_cons_self)⟩
  · refine rel_of_pairwise_cons hapart.of_cons hmem w.start ⟨hyw, ?_⟩
      ⟨BitVec.le_refl _, hne w (mem_cons_of_mem _ hw)⟩
    have := hne y (mem_cons_of_mem _ mem_cons_self)
    bv_omega

/-- Compatible areas that meet become part of one. -/
theorem exists_joined_mem_mergeFrom (hsorted : (v :: ws).Pairwise fun v w => v.start ≤ w.start)
    (hapart : (v :: ws).Pairwise Vma.Apart) (hne : ∀ w ∈ v :: ws, w.start < w.stop)
    (hu : u ∈ v :: ws) (hw : w ∈ v :: ws) (hcompat : u.compatible w) (hmeet : u.stop = w.start) :
    ∃ x ∈ mergeFrom v ws, x.start ≤ u.start ∧ w.start < x.stop := by
  induction ws generalizing v u with
  | nil =>
    have := hne w hw
    rw [mem_singleton.mp hu, ← mem_singleton.mp hw] at hmeet
    bv_omega
  | cons y ws ih =>
    obtain ⟨hv, hrest⟩ := pairwise_cons.mp hsorted
    obtain ⟨hva, hrest'⟩ := pairwise_cons.mp hapart
    have hnev := hne v mem_cons_self
    have hney := hne y (mem_cons_of_mem _ mem_cons_self)
    have hneu := hne u hu
    have hwv : w ∈ y :: ws := mem_tail_of_meet hv hne hu hw hmeet
    rw [mergeFrom]
    split
    · next hmerge =>
      obtain ⟨hvy, hle⟩ := hmerge
      have hmeet' : v.stop = y.start :=
        stop_eq_start (hva y mem_cons_self) (hv y mem_cons_self) hle hney
      have hstop : (v.extend y).stop = y.stop := if_pos (by bv_omega)
      have hsorted' : (v.extend y :: ws).Pairwise fun v w => v.start ≤ w.start :=
        pairwise_cons.mpr ⟨fun a ha => hv a (mem_cons_of_mem _ ha), hrest.of_cons⟩
      have hapart' := pairwise_apart_extend hle hapart
      have hne' : ∀ a ∈ v.extend y :: ws, a.start < a.stop := by
        refine forall_mem_cons.mpr ⟨?_, fun a ha => hne a (mem_cons_of_mem _ (mem_cons_of_mem _ ha))⟩
        rw [hstop]
        have hle : (v.extend y).start ≤ y.start := hv y mem_cons_self
        bv_omega
      obtain huv | hu := mem_cons.mp hu
      · have hwy : w = y := eq_next_of_meet hsorted hapart hne hwv (huv ▸ hmeet)
        obtain ⟨x, hx, hstart, hle'⟩ := exists_longer_mem_mergeFrom (v.extend y) ws
        rw [hstop] at hle'
        refine ⟨x, hx, ?_, ?_⟩
        · rw [hstart, huv]
          exact BitVec.le_refl _
        · rw [hwy]
          bv_omega
      have hyu : y.start ≤ u.start := by
        obtain rfl | hu := mem_cons.mp hu
        · exact BitVec.le_refl _
        · exact rel_of_pairwise_cons hrest hu
      have hws : w ∈ ws := by
        refine (mem_cons.mp hwv).resolve_left ?_
        rintro rfl
        bv_omega
      obtain rfl | hu := mem_cons.mp hu
      · obtain ⟨x, hx, hstart, hjoined⟩ := ih hsorted' hapart' hne' mem_cons_self
          (mem_cons_of_mem _ hws) ((Vma.compatible_congr hvy).mpr hcompat) (hstop.trans hmeet)
        exact ⟨x, hx, BitVec.le_trans hstart (hv u mem_cons_self), hjoined⟩
      · exact ih hsorted' hapart' hne' (mem_cons_of_mem _ hu) (mem_cons_of_mem _ hws) hcompat hmeet
    · next hmerge =>
      obtain rfl | hu := mem_cons.mp hu
      · obtain rfl : w = y := eq_next_of_meet hsorted hapart hne hwv hmeet
        exact absurd ⟨hcompat, by bv_omega⟩ hmerge
      · obtain ⟨x, hx, hjoined⟩ := ih hrest hrest' (fun a ha => hne a (mem_cons_of_mem _ ha)) hu
          hwv hcompat hmeet
        exact ⟨x, mem_cons_of_mem _ hx, hjoined⟩

/-- After an insertion an address has an area exactly if it had one before or is in the new one,
with the same flags and backing; and every address shows the same place of its file exactly if the
file goes on wherever areas with the same flags and backing meet. -/
theorem insertVmaLocked_meaning_iff {new : Vma} (hapart : (new :: vmas).Pairwise Vma.Apart)
    (hne : ∀ v ∈ new :: vmas, v.start < v.stop) :
    (∀ addr, (∃ x ∈ insertVmaLocked vmas new, x.Covers addr) ↔
      ∃ v ∈ new :: vmas, v.Covers addr) ∧
    (∀ x ∈ insertVmaLocked vmas new, ∀ v ∈ new :: vmas, ∀ addr, x.Covers addr → v.Covers addr →
      x.compatible v) ∧
    ((∀ x ∈ insertVmaLocked vmas new, ∀ v ∈ new :: vmas, ∀ addr, x.Covers addr → v.Covers addr →
      x.position addr = v.position addr) ↔ Contiguous (new :: vmas)) := by
  have hsorted := pairwise_insertionSort (fun v w : Vma => v.start ≤ w.start) (vmas ++ [new])
  have hperm : (vmas ++ [new]).insertionSort (fun v w => v.start ≤ w.start) ~ new :: vmas :=
    (perm_insertionSort _ _).trans perm_append_comm
  rw [insertVmaLocked]
  generalize (vmas ++ [new]).insertionSort (fun v w => v.start ≤ w.start) = sorted at hsorted hperm ⊢
  have hapart' : sorted.Pairwise Vma.Apart := hapart.perm hperm.symm symm
  cases sorted with
  | nil => cases hperm.length_eq
  | cons s ws =>
    have hmem (v : Vma) : v ∈ s :: ws ↔ v ∈ new :: vmas := hperm.mem_iff
    have hshows {x v : Vma} {addr : BitVec 64} (hx : x ∈ mergeFrom s ws) (hv : v ∈ new :: vmas)
        (hxc : x.Covers addr) (hvc : v.Covers addr) : x.compatible v ∧
          (Contiguous (s :: ws) → x.position addr = v.position addr) := by
      obtain ⟨u, hu, huc, hcompat, hpos⟩ := exists_covers_of_mem_mergeFrom hsorted hapart' hx hxc
      obtain rfl : u = v := by
        by_contra hneq
        exact hapart'.forall hu ((hmem v).mpr hv) hneq addr huc hvc
      exact ⟨hcompat, hpos⟩
    refine ⟨fun addr => ⟨?_, ?_⟩, fun x hx v hv addr hxc hvc => (hshows hx hv hxc hvc).1,
      fun hall u hu w hw hcompat hmeet => ?_, fun h x hx v hv addr hxc hvc => ?_⟩
    · rintro ⟨x, hx, hxc⟩
      obtain ⟨u, hu, huc, -⟩ := exists_covers_of_mem_mergeFrom hsorted hapart' hx hxc
      exact ⟨u, (hmem u).mp hu, huc⟩
    · rintro ⟨v, hv, hvc⟩
      exact exists_covers_mergeFrom hsorted ((hmem v).mpr hv) hvc
    · obtain ⟨x, hx, hstart, hstop⟩ := exists_joined_mem_mergeFrom hsorted hapart'
        (fun v hv => hne v ((hmem v).mp hv)) ((hmem u).mpr hu) ((hmem w).mpr hw) hcompat hmeet
      have hneu := hne u hu
      have hnew := hne w hw
      have hfirst := hall x hx u hu u.start ⟨hstart, by bv_omega⟩ ⟨BitVec.le_refl _, hneu⟩
      have hsecond := hall x hx w hw w.start ⟨by bv_omega, hstop⟩ ⟨BitVec.le_refl _, hnew⟩
      simp only [Vma.position] at hfirst hsecond ⊢
      grind
    · exact (hshows hx hv hxc hvc).2 fun a ha b hb => h a ((hmem a).mp ha) b ((hmem b).mp hb)

/-- The next page of the memory, with the first of the file. -/
def firstPageAgain : Vma := { filePages with start := 0x14000, stop := 0x15000 }

theorem apart_firstPageAgain : [firstPageAgain, filePages].Pairwise Vma.Apart := by
  refine pairwise_cons.mpr ⟨fun v hv addr hnew hold => ?_, pairwise_singleton _ _⟩
  obtain rfl := mem_singleton.mp hv
  have hle : 0x14000#64 ≤ addr := hnew.1
  have hlt : addr < 0x14000#64 := hold.2
  bv_omega

theorem insertVmaLocked_meaning_iff_again :
    (∃ x ∈ insertVmaLocked [filePages] firstPageAgain, x.Covers 0x14000) ∧
      ¬ ∀ x ∈ insertVmaLocked [filePages] firstPageAgain, ∀ v ∈ [firstPageAgain, filePages],
        ∀ addr, x.Covers addr → v.Covers addr → x.position addr = v.position addr := by
  obtain ⟨hcovers, -, hposition⟩ := insertVmaLocked_meaning_iff apart_firstPageAgain (by decide)
  refine ⟨(hcovers _).mpr ⟨firstPageAgain, mem_cons_self, by decide, by decide⟩, fun h => ?_⟩
  have := hposition.mp h filePages (by decide) firstPageAgain (by decide) (by decide) rfl
  exact absurd this (by decide)

/-- The merged area shows the fifth page of the file where the first was mapped. -/
theorem insertVmaLocked_moves_file :
    firstPageAgain.position 0x14000 = 0 ∧
      insertVmaLocked [filePages] firstPageAgain = [{ filePages with stop := 0x15000 }] ∧
      Vma.position { filePages with stop := 0x15000 } 0x14000 = 0x4000 := by
  decide

end Vahi.Task
