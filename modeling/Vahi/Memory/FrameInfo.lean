import Mathlib.Data.List.Basic
import Mathlib.Data.List.Count
import Vahi.Memory.PageMap

/-!
# Frame reference counts

`crates/memory/src/frame_info.rs`: the table of `u16` counts, which wrap, and the queue of frames
whose count is zero. Frames beyond the table read as one. The allocator is any that meets the
contract of the allocation traits.
-/

namespace Vahi.Memory

open List

/-- A frame allocator. `allocate_frame` takes one of the free frames; `deallocate_frame`
may be called for a frame that came from it and makes it free again. -/
structure FrameAllocator (σ : Type) where
  allocate : σ → Option (ℕ × σ)
  deallocate : ℕ → σ → σ
  free : σ → ℕ → ℕ
  Held : σ → ℕ → Prop
  Valid : σ → Prop
  valid_allocate : ∀ {s f s'}, Valid s → allocate s = some (f, s') → Valid s'
  free_allocate : ∀ {s f s'}, Valid s → allocate s = some (f, s') →
    ∀ x, free s x = free s' x + [f].count x
  held_allocate : ∀ {s f s'}, Valid s → allocate s = some (f, s') →
    ∀ x, x = f ∨ Held s x → Held s' x
  valid_deallocate : ∀ {s f}, Valid s → Held s f → Valid (deallocate f s)
  free_deallocate : ∀ {s f}, Valid s → Held s f →
    ∀ x, free (deallocate f s) x = free s x + [f].count x
  held_deallocate : ∀ {s f}, Valid s → Held s f → ∀ x ≠ f, Held s x → Held (deallocate f s) x

/-- `RefCountTable` with `managed` entries, and the allocator behind it. -/
structure Frames (σ : Type) where
  counts : ℕ → BitVec 16
  managed : ℕ
  deferred : List ℕ
  alloc : σ

variable {σ : Type}

namespace Frames

variable (A : FrameAllocator σ) (fr : Frames σ)

def increment (f : ℕ) : Frames σ :=
  if f < fr.managed then
    { fr with counts := Function.update fr.counts f (fr.counts f + 1) }
  else fr

/-- A frame whose count falls to zero is freed later, by `drain_deferred`. -/
def decrement (f : ℕ) : Frames σ :=
  if f < fr.managed then
    { fr with
      counts := Function.update fr.counts f (fr.counts f - 1)
      deferred := if fr.counts f = 1 then fr.deferred ++ [f] else fr.deferred }
  else fr

def count (f : ℕ) : BitVec 16 :=
  if f < fr.managed then fr.counts f else 1

def allocateFrame : Option (ℕ × Frames σ) :=
  (A.allocate fr.alloc).map fun (f, alloc) => (f, { fr with alloc })

def deallocateFrame (f : ℕ) : Frames σ :=
  { fr with alloc := A.deallocate f fr.alloc }

/-- The counts are not looked at again. -/
def drainDeferred : Frames σ :=
  fr.deferred.foldl (deallocateFrame A) { fr with deferred := [] }

section Increment

variable (fr : Frames σ) (f : ℕ)

@[simp]
theorem increment_managed : (fr.increment f).managed = fr.managed := by
  unfold increment
  split <;> rfl

@[simp]
theorem increment_deferred : (fr.increment f).deferred = fr.deferred := by
  unfold increment
  split <;> rfl

@[simp]
theorem increment_alloc : (fr.increment f).alloc = fr.alloc := by
  unfold increment
  split <;> rfl

variable {fr f} {x : ℕ}

theorem increment_eq : fr.increment f = { fr with counts := (fr.increment f).counts } := by
  unfold increment
  split <;> rfl

theorem count_of_managed (hf : f < fr.managed) : fr.count f = fr.counts f :=
  if_pos hf

/-- A count with room does not wrap. -/
theorem count_increment_self (hf : f < fr.managed) (hroom : (fr.count f).toNat + 1 < 2 ^ 16) :
    ((fr.increment f).count f).toNat = (fr.count f).toNat + 1 := by
  have hcount : (fr.increment f).count f = fr.count f + 1 := by simp [increment, count, hf]
  rw [hcount]
  exact BitVec.toNat_add_of_lt hroom

theorem counts_increment_of_ne (fr : Frames σ) (hx : x ≠ f) :
    (fr.increment f).counts x = fr.counts x := by
  unfold increment
  split
  · exact Function.update_of_ne hx _ _
  · rfl

theorem count_increment_of_ne (fr : Frames σ) (hx : x ≠ f) :
    (fr.increment f).count x = fr.count x := by
  rw [count, increment_managed, counts_increment_of_ne fr hx, count]

end Increment

section Decrement

variable (fr : Frames σ) (f : ℕ)

@[simp]
theorem decrement_managed : (fr.decrement f).managed = fr.managed := by
  unfold decrement
  split <;> rfl

@[simp]
theorem decrement_alloc : (fr.decrement f).alloc = fr.alloc := by
  unfold decrement
  split <;> rfl

variable {fr f} {x : ℕ}

theorem decrement_of_not_managed (hf : ¬ f < fr.managed) : fr.decrement f = fr :=
  if_neg hf

theorem counts_decrement (hf : f < fr.managed) : (fr.decrement f).counts f = fr.counts f - 1 := by
  simp [decrement, hf]

theorem counts_decrement_of_ne (fr : Frames σ) (hx : x ≠ f) :
    (fr.decrement f).counts x = fr.counts x := by
  unfold decrement
  split
  · exact Function.update_of_ne hx _ _
  · rfl

theorem deferred_decrement (hf : f < fr.managed) : (fr.decrement f).deferred =
    if fr.counts f = 1 then fr.deferred ++ [f] else fr.deferred := by
  simp only [decrement, if_pos hf]

theorem mem_deferred_decrement (hx : x ∈ (fr.decrement f).deferred) :
    x ∈ fr.deferred ∨ x = f := by
  by_cases hf : f < fr.managed
  · rw [deferred_decrement hf] at hx
    split at hx
    · simpa using hx
    · exact .inl hx
  · rw [decrement_of_not_managed hf] at hx
    exact .inl hx

theorem count_deferred_decrement (hf : f < fr.managed) : (fr.decrement f).deferred.count f =
    fr.deferred.count f + if fr.counts f = 1 then 1 else 0 := by
  rw [deferred_decrement hf]
  split
  · rw [count_append, count_singleton_self]
  · rfl

theorem count_deferred_decrement_of_ne (fr : Frames σ) (hx : x ≠ f) :
    (fr.decrement f).deferred.count x = fr.deferred.count x := by
  by_cases hf : f < fr.managed
  · rw [deferred_decrement hf]
    split
    · rw [count_append, count_singleton, if_neg (by simpa using Ne.symm hx), Nat.add_zero]
    · rfl
  · rw [decrement_of_not_managed hf]

end Decrement

end Frames

open Frames

def mappedFrames (entries : List PageEntry) : List ℕ :=
  (entries.filter (·.present)).map (·.frame)

/-- The frames `mapped` by page-table entries and the frames of the `tables` themselves,
each listed as often as it is used, agree with the allocator and the counts: a
frame has one use, free, queued, table or mapped, those that may be given back
came from the allocator, and one that is mapped more than once has at least that count. -/
structure Accounted (A : FrameAllocator σ) (mapped tables : List ℕ) (fr : Frames σ) : Prop where
  valid : A.Valid fr.alloc
  held : ∀ f, f ∈ fr.deferred ∨ f ∈ tables ∨ (f ∈ mapped ∧ f < fr.managed) → A.Held fr.alloc f
  once : ∀ f, A.free fr.alloc f + fr.deferred.count f + tables.count f +
    min 1 (mapped.count f) ≤ 1
  counted : ∀ f, mapped.count f ≤ 1 ∨
    (f < fr.managed ∧ mapped.count f ≤ (fr.counts f).toNat)

/-- The counts of all frames that the entries map are right, and those of all frames they
name stay below `2^16` when each entry adds one. -/
def Forkable (mapped : List ℕ) (entries : List PageEntry) (fr : Frames σ) : Prop :=
  ∀ e ∈ entries,
    (e.present → e.frame < fr.managed ∧ mapped.count e.frame ≤ (fr.count e.frame).toNat) ∧
    (e.frame < fr.managed →
      (fr.count e.frame).toNat + (entries.map (·.frame)).count e.frame < 2 ^ 16)

instance (mapped : List ℕ) (entries : List PageEntry) (fr : Frames σ) :
    Decidable (Forkable mapped entries fr) :=
  inferInstanceAs (Decidable (∀ e ∈ entries, _))

namespace Accounted

variable {A : FrameAllocator σ} {mapped tables : List ℕ} {fr : Frames σ} {f : ℕ}

variable (h : Accounted A mapped tables fr) {mapped' tables' : List ℕ}

include h

/-- Fewer uses, in any order, are accounted for as well. -/
theorem mono
    (hm : ∀ f, mapped'.count f ≤ mapped.count f) (ht : ∀ f, tables'.count f ≤ tables.count f) :
    Accounted A mapped' tables' fr where
  valid := h.valid
  held f hf := by
    have hmem : ∀ {l l' : List ℕ}, l'.count f ≤ l.count f → f ∈ l' → f ∈ l := fun hle hf =>
      count_pos_iff.mp (Nat.lt_of_lt_of_le (count_pos_iff.mpr hf) hle)
    exact h.held f (hf.imp_right (Or.imp (hmem (ht f)) (And.imp_left (hmem (hm f)))))
  once f := by
    have := h.once f
    have := hm f
    have := ht f
    omega
  counted f := by
    have := h.counted f
    have := hm f
    omega

theorem perm
    (hm : mapped.Perm mapped') (ht : tables.Perm tables') : Accounted A mapped' tables' fr :=
  h.mono (fun f => (hm.count_eq f).ge) (fun f => (ht.count_eq f).ge)

omit h in
/-- A frame taken for a table may be mapped instead. -/
theorem retype (h : Accounted A mapped (f :: tables) fr) : Accounted A (f :: mapped) tables fr := by
  refine ⟨h.valid, ?_, ?_, ?_⟩
  · rintro x (hx | hx | ⟨hx, hmanaged⟩)
    · exact h.held x (.inl hx)
    · exact h.held x (.inr (.inl (mem_cons_of_mem f hx)))
    · rcases mem_cons.mp hx with rfl | hx
      · exact h.held x (.inr (.inl mem_cons_self))
      · exact h.held x (.inr (.inr ⟨hx, hmanaged⟩))
  · intro x
    have := h.once x
    simp only [count_cons] at this ⊢
    omega
  · intro x
    have := h.once x
    have := h.counted x
    simp only [count_cons] at *
    omega

omit h in
/-- One entry that maps the frame is removed. -/
theorem decrement (h : Accounted A (f :: mapped) tables fr) :
    Accounted A mapped tables (fr.decrement f) := by
  have hsub : Accounted A mapped tables fr :=
    h.mono (fun x => count_le_count_cons) (fun x => Nat.le_refl _)
  by_cases hf : f < fr.managed
  · have honce := h.once f
    have hcounted := h.counted f
    rw [count_cons_self] at honce hcounted
    have hone : (1 : BitVec 16).toNat = 1 := rfl
    refine ⟨by rw [decrement_alloc]; exact h.valid, ?_, ?_, ?_⟩
    · intro x hx
      rw [decrement_alloc]
      rw [decrement_managed] at hx
      cases hx with
      | inl hx =>
        cases mem_deferred_decrement hx with
        | inl hx => exact h.held x (.inl hx)
        | inr hx => exact hx ▸ h.held f (.inr (.inr ⟨mem_cons_self, hf⟩))
      | inr hx => exact hsub.held x (.inr hx)
    · intro x
      rw [decrement_alloc]
      by_cases hx : x = f
      · subst hx
        rw [count_deferred_decrement hf]
        split
        · -- the last reference goes, so no entry maps the queued frame any more
          next hlast =>
          rw [hlast] at hcounted
          omega
        · omega
      · rw [count_deferred_decrement_of_ne fr hx]
        exact hsub.once x
    · intro x
      rw [decrement_managed]
      by_cases hx : x = f
      · subst hx
        cases hcounted with
        | inl hone => exact .inl (by omega)
        | inr hle =>
          refine .inr ⟨hf, ?_⟩
          rw [counts_decrement hf, BitVec.toNat_sub_of_le (by rw [BitVec.le_def]; omega)]
          omega
      · rw [counts_decrement_of_ne fr hx]
        exact hsub.counted x
  · rw [decrement_of_not_managed hf]
    exact hsub

theorem allocateFrame {fr' : Frames σ}
    (ha : fr.allocateFrame A = some (f, fr')) : Accounted A mapped (f :: tables) fr' := by
  obtain ⟨⟨g, alloc⟩, hg, heq⟩ := Option.map_eq_some_iff.mp ha
  cases heq
  refine ⟨A.valid_allocate h.valid hg, ?_, ?_, h.counted⟩
  · intro x hx
    apply A.held_allocate h.valid hg
    rcases hx with hx | hx | hx
    · exact .inr (h.held x (.inl hx))
    · exact (mem_cons.mp hx).imp_right fun hx => h.held x (.inr (.inl hx))
    · exact .inr (h.held x (.inr (.inr hx)))
  · intro x
    have := h.once x
    rw [A.free_allocate h.valid hg] at this
    simp only [count_cons, count_nil] at this ⊢
    omega

omit h in
theorem deallocateFrame (h : Accounted A mapped (f :: tables) fr) :
    Accounted A mapped tables (fr.deallocateFrame A f) := by
  have hf : A.Held fr.alloc f := h.held f (.inr (.inl mem_cons_self))
  have honce := h.once f
  rw [count_cons_self] at honce
  refine ⟨A.valid_deallocate h.valid hf, ?_, ?_, h.counted⟩
  · intro x hx
    -- the frame has no other use, so this is about another one
    have hne : x ≠ f := by
      rintro rfl
      rcases hx with (hx : _ ∈ fr.deferred) | hx | ⟨hx, -⟩
      all_goals
        have := count_pos_iff.mpr hx
        omega
    refine A.held_deallocate h.valid hf x hne (h.held x ?_)
    exact hx.imp_right (Or.imp_left (mem_cons_of_mem f))
  · intro x
    have := h.once x
    simp only [Frames.deallocateFrame, A.free_deallocate h.valid hf, count_cons,
      count_nil] at this ⊢
    omega

theorem drainDeferred :
    Accounted A mapped tables (fr.drainDeferred A) := by
  have hqueue : Accounted A mapped (fr.deferred ++ tables) { fr with deferred := [] } := by
    refine ⟨h.valid, ?_, ?_, h.counted⟩
    · rintro x (hx | hx | hx)
      · cases hx
      · exact h.held x ((mem_append.mp hx).imp_right .inl)
      · exact h.held x (.inr (.inr hx))
    · intro x
      have := h.once x
      simp only [count_append, count_nil]
      omega
  have hfold : ∀ (queue : List ℕ) (fr : Frames σ), Accounted A mapped (queue ++ tables) fr →
      Accounted A mapped tables (queue.foldl (Frames.deallocateFrame A) fr) := by
    intro queue
    induction queue with
    | nil => exact fun fr h => h
    | cons f queue ih => exact fun fr h => ih _ h.deallocateFrame
  exact hfold _ _ hqueue

end Accounted

theorem mappedFrames_singleton (e : PageEntry) :
    mappedFrames [e] = if e.present then [e.frame] else [] := by
  cases h : e.present <;> simp [mappedFrames, h]

variable {e : PageEntry} {x : ℕ} {mapped : List ℕ}

/-- An entry does not add to other frames. -/
theorem count_mappedFrames_of_ne (hx : x ≠ e.frame) (mapped : List ℕ) :
    (mappedFrames [e] ++ mapped).count x = mapped.count x := by
  rw [mappedFrames_singleton]
  split
  · exact count_cons_of_ne (Ne.symm hx)
  · rfl

theorem mem_of_mem_mappedFrames
    (he : e.present → e.frame ∈ mapped) (hx : x ∈ mappedFrames [e] ++ mapped) :
    x ∈ mapped := by
  rw [mappedFrames_singleton] at hx
  split at hx
  · next hp =>
    cases mem_cons.mp hx with
    | inl hx => exact hx ▸ he hp
    | inr hx => exact hx
  · exact hx

theorem mappedFrames_append (l l' : List PageEntry) :
    mappedFrames (l ++ l') = mappedFrames l ++ mappedFrames l' := by
  simp [mappedFrames]

namespace Forkable

variable {mapped : List ℕ} {e : PageEntry} {entries : List PageEntry} {fr : Frames σ}

theorem room (h : Forkable mapped (e :: entries) fr) (hf : e.frame < fr.managed) :
    (fr.count e.frame).toNat + (entries.map (·.frame)).count e.frame + 1 < 2 ^ 16 := by
  have := (h e (by simp)).2 hf
  rw [map_cons, count_cons_self] at this
  omega

/-- Once an entry is cloned the others can still be. -/
theorem increment (h : Forkable mapped (e :: entries) fr) :
    Forkable (mappedFrames [e] ++ mapped) entries (fr.increment e.frame) := by
  intro x hx
  obtain ⟨hcounted, hroom⟩ := h x (mem_cons_of_mem e hx)
  rw [increment_managed]
  by_cases hsame : x.frame = e.frame
  · rw [hsame] at hcounted hroom ⊢
    have hone : (mappedFrames [e]).count e.frame ≤ 1 := by
      rw [mappedFrames_singleton]
      split <;> simp
    constructor
    · intro hp
      obtain ⟨hmanaged, hle⟩ := hcounted hp
      rw [count_increment_self hmanaged (by have := h.room hmanaged; omega), count_append]
      exact ⟨hmanaged, by omega⟩
    · intro hmanaged
      have := h.room hmanaged
      rw [count_increment_self hmanaged (by omega)]
      omega
  · rw [map_cons, count_cons_of_ne (Ne.symm hsame)] at hroom
    rw [count_increment_of_ne fr hsame, count_mappedFrames_of_ne hsame]
    exact ⟨hcounted, hroom⟩

theorem congr (h : Forkable mapped entries fr) {mapped' : List ℕ}
    (hm : ∀ f, mapped'.count f = mapped.count f) : Forkable mapped' entries fr := by
  intro e he
  rw [hm]
  exact h e he

theorem allocateFrame (h : Forkable mapped entries fr) {A : FrameAllocator σ} {f : ℕ}
    {fr' : Frames σ} (ha : fr.allocateFrame A = some (f, fr')) : Forkable mapped entries fr' := by
  obtain ⟨⟨g, alloc⟩, -, heq⟩ := Option.map_eq_some_iff.mp ha
  cases heq
  exact h

end Forkable

/-- One more entry for a frame that is mapped already. -/
theorem Accounted.increment {A : FrameAllocator σ} {tables : List ℕ}
    {entries : List PageEntry} {fr : Frames σ} (h : Accounted A mapped tables fr)
    (hfork : Forkable mapped (e :: entries) fr) (hm : e.present → e.frame ∈ mapped) :
    Accounted A (mappedFrames [e] ++ mapped) tables (fr.increment e.frame) := by
  have hself : (mappedFrames [e] ++ mapped).count e.frame ≤ mapped.count e.frame ∨
      (e.frame < fr.managed ∧ mapped.count e.frame ≤ (fr.count e.frame).toNat ∧
        (mappedFrames [e] ++ mapped).count e.frame = mapped.count e.frame + 1 ∧
        0 < mapped.count e.frame) := by
    rw [mappedFrames_singleton]
    split
    · next hp =>
      obtain ⟨hmanaged, hle⟩ := (hfork e (by simp)).1 hp
      exact .inr ⟨hmanaged, hle, count_cons_self, count_pos_iff.mpr (hm hp)⟩
    · exact .inl (Nat.le_refl _)
  rw [increment_eq]
  refine ⟨h.valid, fun x hx => ?_, fun x => ?_, fun x => ?_⟩ <;> dsimp only
  · exact h.held x (hx.imp_right (Or.imp_right (And.imp_left (mem_of_mem_mappedFrames hm))))
  · have := h.once x
    by_cases hx : x = e.frame
    · subst hx
      omega
    · rwa [count_mappedFrames_of_ne hx]
  · by_cases hx : x = e.frame
    · subst hx
      by_cases hmanaged : e.frame < fr.managed
      · have hcount := count_increment_self hmanaged (by have := hfork.room hmanaged; omega)
        rw [count_of_managed (by rwa [increment_managed])] at hcount
        have := h.counted e.frame
        rw [← count_of_managed hmanaged] at this
        omega
      · have := h.counted e.frame
        omega
    · rw [count_mappedFrames_of_ne hx, counts_increment_of_ne fr hx]
      exact h.counted x

/-- The entries, which are among those that map the frames, can all be cloned. -/
structure Ready (A : FrameAllocator σ) (mapped tables : List ℕ) (entries : List PageEntry)
    (fr : Frames σ) : Prop where
  accounted : Accounted A mapped tables fr
  forkable : Forkable mapped entries fr
  mem : ∀ e ∈ entries, e.present → e.frame ∈ mapped

namespace Ready

variable {A : FrameAllocator σ} {mapped tables : List ℕ} {e : PageEntry}
  {entries : List PageEntry} {fr : Frames σ}

theorem increment (h : Ready A mapped tables (e :: entries) fr) :
    Ready A (mappedFrames [e] ++ mapped) tables entries (fr.increment e.frame) where
  accounted := h.accounted.increment h.forkable (h.mem e mem_cons_self)
  forkable := h.forkable.increment
  mem x hx hp := mem_append_right _ (h.mem x (mem_cons_of_mem e hx) hp)

theorem allocateFrame (h : Ready A mapped tables entries fr) {f : ℕ} {fr' : Frames σ}
    (ha : fr.allocateFrame A = some (f, fr')) : Ready A mapped (f :: tables) entries fr' where
  accounted := h.accounted.allocateFrame ha
  forkable := h.forkable.allocateFrame ha
  mem := h.mem

theorem perm (h : Ready A mapped tables entries fr) {mapped' tables' : List ℕ}
    (hm : mapped.Perm mapped') (ht : tables.Perm tables') : Ready A mapped' tables' entries fr where
  accounted := h.accounted.perm hm ht
  forkable := h.forkable.congr fun f => (hm.count_eq f).symm
  mem e he hp := hm.mem_iff.mp (h.mem e he hp)

end Ready

end Vahi.Memory
