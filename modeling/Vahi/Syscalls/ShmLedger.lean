import Vahi.Syscalls.Shm

/-!
# The ledger of shared memory segments

The segments against the frames they own and the areas that name them. The functions of `Shm` keep
the ledger balanced, given the areas that come or go at the same time.
-/

namespace Vahi.Syscalls.Shm

open Vahi.Lib Vahi.Types Vahi.Memory Vahi.Task List

variable {σ : Type}

def segmentFrames (segments : List ShmSegment) : List ℕ := segments.flatMap (·.pages)

/-! ### Frames that are owned -/

/-- The allocator has handed out the frames, each of them once. -/
def Owned (A : FrameAllocator σ) (owned : List ℕ) (alloc : σ) : Prop :=
  Accounted A [] owned ⟨fun _ => 0, 0, [], alloc⟩

namespace Owned

variable {A : FrameAllocator σ} {owned : List ℕ} {alloc : σ} {f : ℕ} {B : FrameAllocator σ}

theorem perm {owned' : List ℕ} (h : Owned A owned alloc) (hp : owned.Perm owned') :
    Owned A owned' alloc :=
  Accounted.perm h (List.Perm.refl _) hp

theorem allocate {fr fr' : Frames σ} (h : Owned A owned fr.alloc)
    (ha : fr.allocateFrame A = some (f, fr')) : Owned A (f :: owned) fr'.alloc := by
  obtain ⟨⟨g, t⟩, hg, heq⟩ := Option.map_eq_some_iff.mp ha
  cases heq
  refine Accounted.allocateFrame h ?_
  rw [Frames.allocateFrame, hg]
  rfl

theorem deallocate (h : Owned A (f :: owned) alloc) : Owned A owned (A.deallocate f alloc) :=
  Accounted.deallocateFrame h

theorem not_freed {alloc : σ × List FrameEvent}
    (h : Owned (logged B) owned alloc) (hf : f ∈ owned) : freed alloc.2 f = false :=
  (h.held f (.inr (.inl hf))).2

theorem freedOnce {alloc : σ × List FrameEvent}
    (h : Owned (logged B) owned alloc) : FreedOnce alloc.2 :=
  h.valid.2.1

theorem count_le_one (h : Owned A owned alloc) (f : ℕ) : owned.count f ≤ 1 := by
  have := h.once f
  omega

end Owned

variable {f : ℕ} {marks : BitVec 32 → Prop} {att : List (BitVec 32)} {segments : List ShmSegment}
  {A : FrameAllocator σ}

theorem freed_free_iff {log : List FrameEvent} {g : ℕ} :
    freed (.free g :: log) f = true ↔ f = g ∨ freed log f = true := by
  by_cases h : g = f
  · subst h
    simp [freed_cons_self_free]
  · rw [freed_cons_of_ne (e := .free g) h]
    simp [Ne.symm h]

section Frames

variable {pages : List ℕ} {fr : Frames (σ × List FrameEvent)} (B : FrameAllocator σ) {rest : List ℕ}

/-- Frames that are given back one after the other. -/
theorem owned_deallocateAll (h : Owned (logged A) (pages ++ rest) fr.alloc) :
    Owned (logged A) rest (pages.foldl (Frames.deallocateFrame (logged A)) fr).alloc := by
  induction pages generalizing fr with
  | nil => exact h
  | cons f pages ih => exact ih (Owned.deallocate h)

theorem freed_deallocateAll :
    freed (pages.foldl (Frames.deallocateFrame (logged A)) fr).alloc.2 f = true ↔
      f ∈ pages ∨ freed fr.alloc.2 f = true := by
  induction pages generalizing fr with
  | nil => simp
  | cons g pages ih =>
    rw [foldl_cons, ih, mem_cons]
    change f ∈ pages ∨ freed (.free g :: fr.alloc.2) f = true ↔ _
    rw [freed_free_iff]
    tauto

theorem deferred_deallocateAll (pages : List ℕ) (fr : Frames σ) :
    (pages.foldl (Frames.deallocateFrame B) fr).deferred = fr.deferred :=
  foldlRecOn (motive := (Frames.deferred · = _)) pages _ rfl fun _ h _ _ => h

/-- The counts do not matter to what `free_segment_pages` does to the allocator. -/
theorem freeSegmentPages_alloc (fr : Frames σ) (pages : List ℕ) :
    (freeSegmentPages B fr pages).alloc = (pages.foldl (Frames.deallocateFrame B) fr).alloc := by
  refine foldl_rel (r := (Frames.alloc · = Frames.alloc ·)) rfl fun f _ fr fr' h => ?_
  rw [Frames.decrement_alloc]
  exact congrArg (B.deallocate f) h

/-- Only frames that are given up come into the queue. -/
theorem mem_deferred_foldl {step : Frames σ → ℕ → Frames σ} {fr : Frames σ}
    (h : f ∈ (pages.foldl step fr).deferred)
    (hstep : ∀ {fr g}, f ∈ (step fr g).deferred → f ∈ fr.deferred ∨ f = g) : f ∈ fr.deferred ∨ f ∈ pages := by
  induction pages generalizing fr with
  | nil => exact .inl h
  | cons g pages ih =>
    rw [mem_cons, ← or_assoc]
    exact (ih h).imp_left hstep

theorem mem_deferred_freeSegmentPages {B : FrameAllocator σ} {fr : Frames σ}
    (h : f ∈ (freeSegmentPages B fr pages).deferred) : f ∈ fr.deferred ∨ f ∈ pages :=
  mem_deferred_foldl h Frames.mem_deferred_decrement

/-- The allocator has a number of frames to give. -/
def hasFrames (A : FrameAllocator σ) : ℕ → Frames σ → Bool
  | 0, _ => true
  | n + 1, fr =>
    match fr.allocateFrame A with
    | some (_, fr) => hasFrames A n fr
    | none => false

theorem isOk_allocSegmentPages (B : FrameAllocator σ) (n : ℕ) (pages : List ℕ) (fr : Frames σ) :
    (allocSegmentPages B n pages fr).1.isOk = hasFrames B n fr := by
  induction n generalizing pages fr with
  | zero => rfl
  | succ n ih =>
    rw [allocSegmentPages, hasFrames]
    cases fr.allocateFrame B with
    | none => rfl
    | some r => exact ih ..

/-- What the frames of a new segment are taken from, and what becomes of those that were
taken if there are not enough. -/
theorem allocSegmentPages_spec {n : ℕ}
    {fr fr' : Frames (σ × List FrameEvent)} {r : Except Errno (List ℕ)}
    (h : Owned (logged A) (pages ++ rest) fr.alloc)
    (hr : allocSegmentPages (logged A) n pages fr = (r, fr')) :
    fr'.deferred = fr.deferred ∧
    (∀ pages', r = .ok pages' → Owned (logged A) (pages' ++ rest) fr'.alloc ∧
      pages'.length = pages.length + n ∧
      ∀ f, f ∈ pages ∨ freed fr.alloc.2 f = true → f ∈ pages' ∨ freed fr'.alloc.2 f = true) ∧
    (∀ e, r = .error e → Owned (logged A) rest fr'.alloc ∧
      ∀ f, f ∈ pages ∨ freed fr.alloc.2 f = true → freed fr'.alloc.2 f = true) := by
  induction n generalizing pages fr with
  | zero =>
    cases hr
    refine ⟨rfl, fun pages' hp => ?_, fun e he => (by cases he)⟩
    cases hp
    exact ⟨h, rfl, fun f hf => hf⟩
  | succ n ih =>
    rw [allocSegmentPages] at hr
    split at hr
    · next f fr₁ ha =>
      have howned : Owned (logged A) ((pages ++ [f]) ++ rest) fr₁.alloc := by
        refine (h.allocate ha).perm ?_
        rw [append_assoc]
        exact perm_middle.symm
      obtain ⟨⟨g, t⟩, hg, heq⟩ := Option.map_eq_some_iff.mp ha
      cases heq
      obtain ⟨⟨g', t'⟩, hg', heq'⟩ := Option.map_eq_some_iff.mp hg
      cases heq'
      -- the new frame is not freed any more, and now one of the pages
      have hknown : ∀ x, x ∈ pages ∨ freed fr.alloc.2 x = true →
          x ∈ pages ++ [g'] ∨ freed (.alloc g' :: fr.alloc.2) x = true := by
        intro x hx
        by_cases hne : g' = x
        · exact .inl (by simp [hne])
        · rw [freed_cons_of_ne (e := .alloc g') hne]
          exact hx.imp_left (mem_append_left _)
      obtain ⟨hdeferred, hok, herr⟩ := ih howned hr
      refine ⟨hdeferred, fun pages' hp => ?_, fun e he => ?_⟩
      · obtain ⟨ho, hlen, hmem⟩ := hok pages' hp
        refine ⟨ho, ?_, fun x hx => hmem x (hknown x hx)⟩
        rw [hlen, length_append, length_singleton]
        omega
      · obtain ⟨ho, hmem⟩ := herr e he
        exact ⟨ho, fun x hx => hmem x (hknown x hx)⟩
    · cases hr
      refine ⟨deferred_deallocateAll _ _ _, fun pages' hp => ?_, fun e _ => ?_⟩
      · cases hp
      · exact ⟨owned_deallocateAll h, fun f hf => freed_deallocateAll.mpr hf⟩

end Frames

open Frames

/-! ### The registered segments -/

variable {s : ShmState σ} {id : BitVec 32} {seg : ShmSegment} {s₁ s₂ : List ShmSegment}
  {l₁ l₂ : List FrameEvent} {ids : List (BitVec 32)} {fr : Frames σ} {v : Vma}
  (g : ShmSegment → ShmSegment) (m : PageList × Frames σ) (frames : List ℕ)
  {att' : List (BitVec 32)}

theorem segment_eq_some (h : s.segment id = some seg) : seg ∈ s.segments ∧ seg.id = id :=
  ⟨mem_of_find?_eq_some h, by simpa using find?_some h⟩

/-- The segments, each registered under a number of its own, own their frames; the attach counts
are the numbers of areas in `att`, which name registered segments; and a segment that is
marked for removal is attached. -/
structure Ledger (A : FrameAllocator σ) (segments : List ShmSegment)
    (alloc : σ × List FrameEvent) (att : List (BitVec 32)) : Prop where
  owned : Owned (logged A) (segmentFrames segments) alloc
  nonempty : ∀ seg ∈ segments, seg.pages ≠ []
  nodup : (segments.map (·.id)).Nodup
  counted : ∀ seg ∈ segments, seg.nattch.toNat = att.count seg.id
  attached : ∀ id ∈ att, ∃ seg ∈ segments, seg.id = id
  removed : ∀ seg ∈ segments, seg.deleted → att.count seg.id ≠ 0

/-- What becomes of the frames and segments in a step: a frame that was freed or belongs to a
segment still does one of both, and a segment is kept, or it is destroyed as it should be. -/
structure Evolves (marks : BitVec 32 → Prop) (segments : List ShmSegment) (log : List FrameEvent)
    (segments' : List ShmSegment) (log' : List FrameEvent) (att' : List (BitVec 32)) : Prop where
  known : ∀ f, f ∈ segmentFrames segments ∨ freed log f = true →
    f ∈ segmentFrames segments' ∨ freed log' f = true
  fate : ∀ seg ∈ segments,
    (∃ seg' ∈ segments', seg'.id = seg.id ∧ seg'.pages = seg.pages ∧
      (seg'.deleted → seg.deleted ∨ marks seg.id)) ∨
    ((seg.deleted ∨ marks seg.id) ∧ att'.count seg.id = 0 ∧ ∀ f ∈ seg.pages, freed log' f = true)

theorem Evolves.refl (marks : BitVec 32 → Prop) (segments : List ShmSegment)
    (log : List FrameEvent) (att : List (BitVec 32)) :
    Evolves marks segments log segments log att where
  known _ hf := hf
  fate seg hseg := .inl ⟨seg, hseg, rfl, rfl, .inl⟩

theorem Evolves.trans {s₃ : List ShmSegment} {l₃ : List FrameEvent}
    (h : Evolves marks s₁ l₁ s₂ l₂ (ids ++ att)) (h' : Evolves marks s₂ l₂ s₃ l₃ att)
    (hlog : ∀ f, freed l₂ f = true → freed l₃ f = true) : Evolves marks s₁ l₁ s₃ l₃ att where
  known f hf := h'.known f (h.known f hf)
  fate seg hseg := by
    rcases h.fate seg hseg with ⟨seg', hseg', hid, hpages, hmark⟩ | ⟨hmark, hzero, hfreed⟩
    · rw [← hid, ← hpages]
      rcases h'.fate seg' hseg' with ⟨seg'', hseg'', hid', hpages', hmark'⟩ | ⟨hdel, hrest⟩
      · refine .inl ⟨seg'', hseg'', hid', hpages', fun hd => ?_⟩
        exact (hmark' hd).elim (fun hd => hid ▸ hmark hd) .inr
      · exact .inr ⟨hdel.elim (fun hd => hid ▸ hmark hd) .inr, hrest⟩
    · rw [count_append] at hzero
      exact .inr ⟨hmark, by omega, fun f hf => hlog f (hfreed f hf)⟩

theorem Evolves.congr (h : Evolves marks s₁ l₁ s₂ l₂ att)
    (hcount : ∀ id, att'.count id = att.count id) : Evolves marks s₁ l₁ s₂ l₂ att' where
  known := h.known
  fate seg hseg := by
    rw [hcount]
    exact h.fate seg hseg

theorem mem_segmentFrames : f ∈ segmentFrames segments ↔ ∃ seg ∈ segments, f ∈ seg.pages :=
  mem_flatMap

/-- A segment with another count or mark. -/
theorem segmentFrames_map (segments : List ShmSegment) {g : ShmSegment → ShmSegment}
    (hg : ∀ seg, (g seg).pages = seg.pages) :
    segmentFrames (segments.map g) = segmentFrames segments := by
  rw [segmentFrames, segmentFrames, flatMap_map]
  simp only [hg]

/-- A segment is registered once. -/
theorem perm_cons_filter (h : (segments.map (·.id)).Nodup) (hseg : seg ∈ segments) :
    segments.Perm (seg :: segments.filter (·.id ≠ seg.id)) := by
  obtain ⟨l₁, l₂, rfl⟩ := append_of_mem hseg
  rw [map_append, map_cons, nodup_middle, ← map_append, nodup_cons] at h
  have hrest : (l₁ ++ l₂).filter (·.id ≠ seg.id) = l₁ ++ l₂ := by
    refine filter_eq_self.mpr fun x hx => decide_eq_true fun heq => h.1 ?_
    exact heq ▸ mem_map_of_mem hx
  rw [filter_append, filter_cons_of_neg (by simp), ← filter_append, hrest]
  exact perm_middle

/-- Detaching frees frames and takes none. -/
theorem freed_detach {s : ShmState (σ × List FrameEvent)} (h : freed s.frames.alloc.2 f = true) :
    freed (detach (logged A) s id).frames.alloc.2 f = true := by
  rw [detach]
  split
  · exact h
  split
  · rw [destroySegment, freeSegmentPages_alloc, freed_deallocateAll]
    exact .inr h
  · exact h

theorem freed_detachAll {s : ShmState (σ × List FrameEvent)} (h : freed s.frames.alloc.2 f = true) :
    freed (ids.foldl (detach (logged A)) s).frames.alloc.2 f = true :=
  foldlRecOn (motive := fun s : ShmState (σ × _) => freed s.frames.alloc.2 f = true) ids _ h
    fun _ h _ _ => freed_detach h

theorem mem_of_count_eq (h : att'.count id = att.count id) (hid : id ∈ att') : id ∈ att := by
  rw [← count_pos_iff, ← h]
  exact count_pos_iff.mpr hid

/-- A step from `s` to `t`, where the areas are then `att`. -/
abbrev Passes (A : FrameAllocator σ) (marks : BitVec 32 → Prop)
    (s t : ShmState (σ × List FrameEvent)) (att : List (BitVec 32)) : Prop :=
  Ledger A t.segments t.frames.alloc att ∧
    Evolves marks s.segments s.frames.alloc.2 t.segments t.frames.alloc.2 att

namespace Ledger

variable {A : FrameAllocator σ} {segments : List ShmSegment} {alloc : σ × List FrameEvent}
  {att att' : List (BitVec 32)} (marks : BitVec 32 → Prop) {s : ShmState (σ × List FrameEvent)}

theorem eq_of_id (h : Ledger A segments alloc att) {seg seg' : ShmSegment} (hseg : seg ∈ segments)
    (hseg' : seg' ∈ segments) (hid : seg.id = seg'.id) : seg = seg' :=
  inj_on_of_nodup_map h.nodup hseg hseg' hid

theorem segment_eq (h : Ledger A s.segments alloc att) {seg : ShmSegment}
    (hseg : seg ∈ s.segments) : s.segment seg.id = some seg := by
  obtain ⟨x, hx⟩ : ∃ x, s.segment seg.id = some x :=
    Option.isSome_iff_exists.mp (find?_isSome.mpr ⟨seg, hseg, by simp⟩)
  obtain ⟨hmem, hid⟩ := segment_eq_some hx
  rw [hx, h.eq_of_id hmem hseg hid]

/-- A new segment under a number that is not in use. -/
theorem append (h : Ledger A segments alloc att) {alloc' : σ × List FrameEvent} {seg : ShmSegment}
    (howned : Owned (logged A) (segmentFrames (segments ++ [seg])) alloc') (hpages : seg.pages ≠ [])
    (hfresh : ∀ seg' ∈ segments, seg'.id ≠ seg.id) (hnattch : seg.nattch = 0)
    (hdel : seg.deleted = false) : Ledger A (segments ++ [seg]) alloc' att where
  owned := howned
  nonempty := forall_mem_append.mpr ⟨h.nonempty, forall_mem_singleton.mpr hpages⟩
  nodup := by
    rw [map_append, nodup_append]
    refine ⟨h.nodup, nodup_singleton _, fun id hid id' hmem => ?_⟩
    obtain ⟨seg', hseg', rfl⟩ := mem_map.mp hid
    obtain rfl : id' = seg.id := by simpa using hmem
    exact hfresh seg' hseg'
  counted := by
    refine forall_mem_append.mpr ⟨h.counted, forall_mem_singleton.mpr ?_⟩
    rw [hnattch]
    refine (count_eq_zero.mpr fun hmem => ?_).symm
    obtain ⟨seg', hseg', hid⟩ := h.attached seg.id hmem
    exact hfresh seg' hseg' hid
  attached id hid := by
    obtain ⟨seg', hseg', hid⟩ := h.attached id hid
    exact ⟨seg', mem_append_left _ hseg', hid⟩
  removed := by
    refine forall_mem_append.mpr ⟨h.removed, forall_mem_singleton.mpr fun hd => ?_⟩
    simp [hdel] at hd

theorem congr (h : Ledger A segments alloc att) (hcount : ∀ id, att'.count id = att.count id) :
    Ledger A segments alloc att' where
  owned := h.owned
  nonempty := h.nonempty
  nodup := h.nodup
  counted seg hseg := by rw [hcount]; exact h.counted seg hseg
  attached id hid := h.attached id (mem_of_count_eq (hcount id) hid)
  removed seg hseg hdel := by rw [hcount]; exact h.removed seg hseg hdel

/-- The count or the mark of one segment changes, with the number of its areas. -/
theorem modify (h : Ledger A s.segments s.frames.alloc att) {g : ShmSegment → ShmSegment}
    (hid : ∀ seg, (g seg).id = seg.id) (hpages : ∀ seg, (g seg).pages = seg.pages)
    (hdel : ∀ seg, seg.id = id → (g seg).deleted → seg.deleted ∨ marks id)
    (hother : ∀ id' ≠ id, att'.count id' = att.count id')
    (hmem : ∃ seg ∈ s.segments, seg.id = id)
    (hself : ∀ seg ∈ s.segments, seg.id = id → (g seg).nattch.toNat = att'.count id ∧
      ((g seg).deleted → att'.count id ≠ 0)) : Passes A marks s (s.modifySegment id g) att' := by
  have hpages' (seg : ShmSegment) : (if seg.id = id then g seg else seg).pages = seg.pages := by
    rw [apply_ite ShmSegment.pages, hpages, ite_self]
  have hid' (seg : ShmSegment) : (if seg.id = id then g seg else seg).id = seg.id := by
    rw [apply_ite ShmSegment.id, hid, ite_self]
  have hcounted : ∀ seg ∈ s.segments,
      (if seg.id = id then g seg else seg).nattch.toNat = att'.count seg.id ∧
        ((if seg.id = id then g seg else seg).deleted → att'.count seg.id ≠ 0) := by
    intro seg hseg
    split
    · next heq => exact heq ▸ hself seg hseg heq
    · next hne =>
      rw [hother _ hne]
      exact ⟨h.counted seg hseg, h.removed seg hseg⟩
  have hframes := segmentFrames_map s.segments hpages'
  dsimp only [Passes, ShmState.modifySegment]
  refine ⟨⟨?_, ?_, ?_, ?_, ?_, ?_⟩, ?_, ?_⟩
  · rw [hframes]
    exact h.owned
  · simpa only [forall_mem_map, hpages'] using h.nonempty
  · simpa only [map_map, Function.comp_def, hid'] using h.nodup
  · simpa only [forall_mem_map, hid'] using fun seg hseg => (hcounted seg hseg).1
  · intro id' hid''
    have hreg : ∃ seg ∈ s.segments, seg.id = id' := by
      by_cases heq : id' = id
      · exact heq ▸ hmem
      · exact h.attached id' (mem_of_count_eq (hother id' heq) hid'')
    obtain ⟨seg, hseg, rfl⟩ := hreg
    exact ⟨_, mem_map_of_mem hseg, hid' seg⟩
  · simpa only [forall_mem_map, hid'] using fun seg hseg => (hcounted seg hseg).2
  · rw [hframes]
    exact fun f hf => hf
  · intro seg hseg
    refine .inl ⟨_, mem_map_of_mem hseg, hid' seg, hpages' seg, ?_⟩
    split
    · next heq => exact fun hd => heq ▸ hdel seg heq hd
    · exact .inl

/-- A segment that has no areas any more is destroyed. -/
theorem destroy (h : Ledger A s.segments s.frames.alloc att)
    (hseg : seg ∈ s.segments) (hmark : seg.deleted ∨ marks seg.id) (hzero : att'.count seg.id = 0)
    (hother : ∀ id' ≠ seg.id, att'.count id' = att.count id') :
    Passes A marks s (destroySegment (logged A) s seg) att' := by
  have hperm := perm_cons_filter h.nodup hseg
  have hframes : (segmentFrames s.segments).Perm
      (seg.pages ++ segmentFrames (s.segments.filter (·.id ≠ seg.id))) := hperm.flatMap_right _
  have hsub : ∀ seg' ∈ s.segments.filter (·.id ≠ seg.id), seg' ∈ s.segments ∧ seg'.id ≠ seg.id :=
    fun seg' hseg' => by simpa using mem_filter.mp hseg'
  dsimp only [Passes, destroySegment]
  rw [freeSegmentPages_alloc]
  refine ⟨⟨?_, ?_, ?_, ?_, ?_, ?_⟩, ?_, ?_⟩
  · exact owned_deallocateAll (h.owned.perm hframes)
  · exact fun seg' hseg' => h.nonempty seg' (hsub seg' hseg').1
  · exact h.nodup.sublist (filter_sublist.map _)
  · intro seg' hseg'
    rw [hother _ (hsub seg' hseg').2]
    exact h.counted seg' (hsub seg' hseg').1
  · intro id hid
    have hne : id ≠ seg.id := fun heq => count_eq_zero.mp hzero (heq ▸ hid)
    obtain ⟨seg', hseg', rfl⟩ := h.attached id (mem_of_count_eq (hother id hne) hid)
    exact ⟨seg', mem_filter.mpr ⟨hseg', by simpa using hne⟩, rfl⟩
  · intro seg' hseg'
    rw [hother _ (hsub seg' hseg').2]
    exact h.removed seg' (hsub seg' hseg').1
  · intro f hf
    rw [freed_deallocateAll]
    rw [hframes.mem_iff, mem_append] at hf
    tauto
  · intro seg' hseg'
    by_cases hid : seg'.id = seg.id
    · obtain rfl := h.eq_of_id hseg' hseg hid
      exact .inr ⟨hmark, hzero, fun f hf => freed_deallocateAll.mpr (.inl hf)⟩
    · exact .inl ⟨seg', mem_filter.mpr ⟨hseg', by simpa using hid⟩, rfl, rfl, .inl⟩

/-- A segment that loses one of its areas. -/
theorem detach (h : Ledger A s.segments s.frames.alloc (id :: att)) :
    Passes A marks s (detach (logged A) s id) att := by
  have hother : ∀ id' ≠ id, att.count id' = (id :: att).count id' :=
    fun id' hne => (count_cons_of_ne (Ne.symm hne)).symm
  have hmem := h.attached id mem_cons_self
  rw [Shm.detach]
  split
  · next hnone =>
    obtain ⟨seg, hseg, hid⟩ := hmem
    exact absurd hid (by simpa using find?_eq_none.mp hnone seg hseg)
  next seg hsome =>
  obtain ⟨hseg, rfl⟩ := segment_eq_some hsome
  have hcount := h.counted seg hseg
  rw [count_cons_self] at hcount
  have hnattch : seg.detached.nattch.toNat = att.count seg.id := by
    have hne : seg.nattch ≠ 0 := fun hz => by simp [hz] at hcount
    have hle : (1 : BitVec 32) ≤ seg.nattch := by bv_omega
    rw [ShmSegment.detached, if_neg hne, BitVec.toNat_sub_of_le hle, hcount]
    rfl
  split
  · next hdel =>
    refine h.destroy marks hseg (.inl hdel.2) ?_ hother
    rw [← hnattch, hdel.1]
    rfl
  · next hdel =>
    refine h.modify marks (fun _ => rfl) (fun _ => rfl) (fun _ _ => .inl) hother hmem ?_
    intro seg' hseg' hid
    obtain rfl := h.eq_of_id hseg' hseg hid
    refine ⟨hnattch, fun hd hzero => hdel ⟨?_, hd⟩⟩
    rw [hzero] at hnattch
    exact BitVec.eq_of_toNat_eq hnattch

/-- All areas of a process are detached, one after the other. -/
theorem detachAll (h : Ledger A s.segments s.frames.alloc (ids ++ att)) :
    Passes A marks s (ids.foldl (Shm.detach (logged A)) s) att := by
  induction ids generalizing s with
  | nil => exact ⟨h, Evolves.refl ..⟩
  | cons id ids ih =>
    obtain ⟨hfirst, hevolves⟩ := h.detach marks
    obtain ⟨hrest, hevolves'⟩ := ih hfirst
    exact ⟨hrest, hevolves.trans hevolves' fun f => freed_detachAll⟩

end Ledger

/-! ### `shm_detach_all` -/

/-- The rounds of the loop detach like `sys_shmdt`, if the segments that are to be freed are
left out and their frames freed. -/
structure RoundsAgree (A : FrameAllocator σ) (fr : Frames σ)
    (r : List ShmSegment × List ShmSegment) (s : ShmState σ) : Prop where
  segments : s.segments = r.1.filter fun seg => seg.id ∉ r.2.map (·.id)
  frames : s.frames = r.2.foldl (fun fr seg => freeSegmentPages A fr seg.pages) fr
  taken : ∀ seg ∈ r.1, seg.id ∈ r.2.map (·.id) → seg.pages = []

theorem filter_map_comm (hg : ∀ seg, (g seg).id = seg.id) :
    (segments.map fun seg => if seg.id = id then g seg else seg).filter (fun seg => seg.id ∉ ids) =
      (segments.filter fun seg => seg.id ∉ ids).map
        fun seg => if seg.id = id then g seg else seg := by
  rw [filter_map]
  congr 1
  refine filter_congr fun seg _ => ?_
  rw [Function.comp_apply, apply_ite ShmSegment.id, hg, ite_self]

/-- Segments that are left out may change. -/
theorem filter_map_of_left_out (hg : ∀ seg, (g seg).id = seg.id) (hid : id ∈ ids) :
    (segments.map fun seg => if seg.id = id then g seg else seg).filter (fun seg => seg.id ∉ ids) =
      segments.filter fun seg => seg.id ∉ ids := by
  rw [filter_map_comm g hg]
  refine (map_congr_left fun seg hseg => if_neg fun heq => ?_).trans (map_id' _)
  simp [heq, hid] at hseg

/-- One segment changes: the pages of those that are to be freed are still taken. -/
theorem taken_map {ids' : List (BitVec 32)} (hg : ∀ seg, (g seg).id = seg.id)
    (h : ∀ seg ∈ segments, seg.id ∈ ids → seg.pages = []) (hids : ∀ x ≠ id, x ∈ ids' → x ∈ ids)
    (hself : ∀ seg ∈ segments, seg.id = id → id ∈ ids' → (g seg).pages = []) :
    ∀ seg ∈ segments.map fun seg => if seg.id = id then g seg else seg,
      seg.id ∈ ids' → seg.pages = [] := by
  refine forall_mem_map.mpr fun seg hseg => ?_
  split
  · next heq => exact fun hmem => hself seg hseg heq (heq ▸ hg seg ▸ hmem)
  · next hne => exact fun hmem => h seg hseg (hids _ hne hmem)

theorem RoundsAgree.detach {r : List ShmSegment × List ShmSegment} (h : RoundsAgree A fr r s)
    (id : BitVec 32) : RoundsAgree A fr (detachRound r id) (detach A s id) := by
  obtain ⟨segments, toFree⟩ := r
  have hsegment : s.segment id =
      if id ∈ toFree.map (·.id) then none else segments.find? (·.id = id) := by
    rw [ShmState.segment, h.segments, find?_filter]
    split
    · next hmem =>
      refine find?_eq_none.mpr fun seg _ hseg => ?_
      simp only [decide_not, Bool.not_eq_true', decide_eq_false_iff_not, decide_eq_true_eq] at hseg
      exact hseg.1 (hseg.2 ▸ hmem)
    · next hmem =>
      congr 1
      funext seg
      by_cases heq : seg.id = id
      · simpa [heq] using hmem
      · simp [heq]
  rw [detachRound]
  split
  · next hnone =>
    have hs : s.segment id = none := by
      rw [hsegment, hnone, ite_self]
    rw [Shm.detach, hs]
    exact h
  · next seg hsome =>
    have hseg := mem_of_find?_eq_some hsome
    have hid : seg.id = id := by simpa using find?_some hsome
    -- a segment that was taken before is not registered any more, and has no pages left
    have hleft (hmem : id ∈ toFree.map (·.id)) :
        Shm.detach A s id = s ∧ seg.pages = [] ∧ ∀ x ∈ s.segments, x.id ≠ id := by
      rw [if_pos hmem] at hsegment
      exact ⟨by rw [Shm.detach, hsegment], h.taken seg hseg (hid.symm ▸ hmem),
        fun x hx => by simpa using find?_eq_none.mp hsegment x hx⟩
    have hdetach (hmem : id ∉ toFree.map (·.id)) : Shm.detach A s id =
        if seg.detached.nattch = 0 ∧ seg.deleted then destroySegment A s seg
        else s.modifySegment id ShmSegment.detached := by
      rw [Shm.detach, hsegment, if_neg hmem, hsome]
    split
    · next hlast =>
      have hstate : (Shm.detach A s id).segments = s.segments.filter (·.id ≠ id) ∧
          (Shm.detach A s id).frames = freeSegmentPages A s.frames seg.pages := by
        by_cases hmem : id ∈ toFree.map (·.id)
        · obtain ⟨hsame, hpages, hnone⟩ := hleft hmem
          rw [hsame, hpages, filter_eq_self.mpr (by simpa using hnone)]
          exact ⟨rfl, rfl⟩
        · rw [hdetach hmem, if_pos hlast, ← hid]
          exact ⟨rfl, rfl⟩
      refine ⟨?_, ?_, ?_⟩
      · rw [filter_map_of_left_out ShmSegment.taken (fun _ => rfl)
          (by simp [ShmSegment.detached, hid]), hstate.1, h.segments, filter_filter]
        refine filter_congr fun x _ => ?_
        simp [ShmSegment.detached, hid, not_or, and_comm]
      · rw [hstate.2, foldl_append, ← h.frames]
        rfl
      · refine taken_map _ (fun _ => rfl) h.taken (fun x hne hx => ?_) fun _ _ _ _ => rfl
        rw [map_append, mem_append] at hx
        exact hx.resolve_right fun hx => hne (by simpa [ShmSegment.detached, hid] using hx)
    · next hlast =>
      have hstate : (Shm.detach A s id).segments =
            s.segments.map (fun seg => if seg.id = id then seg.detached else seg) ∧
          (Shm.detach A s id).frames = s.frames := by
        by_cases hmem : id ∈ toFree.map (·.id)
        · obtain ⟨hsame, -, hnone⟩ := hleft hmem
          rw [hsame, map_congr_left fun x hx => if_neg (hnone x hx), map_id']
          exact ⟨rfl, rfl⟩
        · rw [hdetach hmem, if_neg hlast]
          exact ⟨rfl, rfl⟩
      refine ⟨?_, hstate.2.trans h.frames, ?_⟩
      · rw [filter_map_comm ShmSegment.detached fun _ => rfl, hstate.1, h.segments]
      · exact taken_map _ (fun _ => rfl) h.taken (fun _ _ hx => hx)
          fun x hx heq hmem => h.taken x hx (heq ▸ hmem)

/-- `shm_detach_all` detaches the segments one after the other. -/
theorem shmDetachAll_eq (A : FrameAllocator σ) (s : ShmState σ) (ids : List (BitVec 32)) :
    (shmDetachAll A s ids).segments = (ids.foldl (detach A) s).segments ∧
      (shmDetachAll A s ids).frames = (ids.foldl (detach A) s).frames := by
  have hstart : RoundsAgree A s.frames (s.segments, []) s :=
    ⟨by simp, rfl, fun seg _ hmem => by cases hmem⟩
  obtain ⟨hsegments, hframes, -⟩ : RoundsAgree A s.frames (ids.foldl detachRound _) _ :=
    foldl_rel hstart fun id _ r t h => h.detach id
  exact ⟨hsegments.symm, hframes.symm⟩

/-! ### Page tables -/

/-- The frames that the queue or one page table names. -/
def namedFrames : List ℕ := m.2.deferred ++ m.1.map (·.2)

theorem dropPage_spec (page : ℕ) :
    (dropPage m page).2.alloc = m.2.alloc ∧ namedFrames (dropPage m page) ⊆ namedFrames m := by
  rw [dropPage]
  split
  · next g hg =>
    refine ⟨decrement_alloc .., append_subset.mpr ⟨fun f hf => ?_, ?_⟩⟩
    · rcases mem_deferred_decrement hf with hf | rfl
      · exact mem_append_left _ hf
      · obtain ⟨l₁, l₂, hsplit, -⟩ := lookup_eq_some_iff.mp hg
        exact mem_append_right _ (by simp [hsplit])
    · exact Subset.trans (map_subset _ (filter_subset_self _)) (subset_append_right _ _)
  · exact ⟨rfl, Subset.refl _⟩

theorem dropPages_spec (pages : List ℕ) : (pages.foldl dropPage m).2.alloc = m.2.alloc ∧
    namedFrames (pages.foldl dropPage m) ⊆ namedFrames m := by
  induction pages generalizing m with
  | nil => exact ⟨rfl, Subset.refl _⟩
  | cons page pages ih =>
    obtain ⟨halloc, hnamed⟩ := dropPage_spec m page
    obtain ⟨halloc', hnamed'⟩ := ih (dropPage m page)
    exact ⟨halloc'.trans halloc, Subset.trans hnamed' hnamed⟩

theorem rollback_spec {addr : BitVec 64} {js : List ℕ} {m m' : PageList × Frames σ}
    (h : rollback addr js m = .ok m') :
    m'.2.alloc = m.2.alloc ∧ namedFrames m' ⊆ namedFrames m := by
  induction js generalizing m with
  | nil =>
    cases h
    exact ⟨rfl, Subset.refl _⟩
  | cons j js ih =>
    obtain ⟨a, -, h⟩ := Outcome.bind_eq_ok.mp h
    obtain ⟨halloc, hnamed⟩ := dropPage_spec m (a.toNat / 4096)
    obtain ⟨halloc', hnamed'⟩ := ih h
    exact ⟨halloc'.trans halloc, Subset.trans hnamed' hnamed⟩

/-- Whether or not all pages of a segment could be mapped, page tables and queue name frames
that they named before, or those of the segment. -/
theorem attachPages_spec {addr : BitVec 64} {room : ℕ} {m m' : PageList × Frames σ}
    {entries : List (ℕ × ℕ)} {done : Bool} (h : attachPages addr room m entries = .ok (done, m')) :
    m'.2.alloc = m.2.alloc ∧ namedFrames m' ⊆ namedFrames m ++ entries.map (·.1) := by
  induction entries generalizing m with
  | nil =>
    cases h
    exact ⟨rfl, subset_append_left _ _⟩
  | cons entry entries ih =>
    obtain ⟨g, i⟩ := entry
    obtain ⟨a, -, h⟩ := Outcome.bind_eq_ok.mp h
    dsimp only at h
    split at h
    · obtain ⟨halloc, hnamed⟩ := ih h
      refine ⟨halloc.trans (increment_alloc ..), fun f hf => ?_⟩
      have hf := hnamed hf
      simp only [namedFrames, increment_deferred, map_cons, mem_append, mem_cons] at hf ⊢
      tauto
    · obtain ⟨m₁, hrollback, heq⟩ := Outcome.bind_eq_ok.mp h
      cases heq
      obtain ⟨halloc, hnamed⟩ := rollback_spec hrollback
      exact ⟨halloc, Subset.trans hnamed (subset_append_left _ _)⟩

/-- The page at which the loop of `sys_shmat` maps the frame with an index. -/
def pageOf (addr : BitVec 64) (i : ℕ) : ℕ := (extended (pageAddr addr i)).toNat / 4096

/-- The pages from index `k` up to `n` can be mapped: the addresses are canonical, there is room
for the tables, and the pages are free and different. -/
def Maps (addr : BitVec 64) (room k n : ℕ) (pages : PageList) : Prop :=
  ∀ i < n, k ≤ i → Extendable (pageAddr addr i) ∧ i < room ∧
    (pages.lookup (pageOf addr i)).isNone ∧ ∀ j < i, k ≤ j → pageOf addr j ≠ pageOf addr i

theorem maps_cons_iff {addr : BitVec 64} {room k n f : ℕ} {pages : PageList}
    (hext : Extendable (pageAddr addr k)) (hroom : k < room)
    (hnone : (pages.lookup (pageOf addr k)).isNone) :
    Maps addr room (k + 1) n ((pageOf addr k, f) :: pages) ↔ Maps addr room k n pages := by
  have hlookup : ∀ i, (((pageOf addr k, f) :: pages).lookup (pageOf addr i)).isNone ↔
      pageOf addr k ≠ pageOf addr i ∧ (pages.lookup (pageOf addr i)).isNone := by
    intro i
    by_cases heq : pageOf addr i = pageOf addr k
    · simp [heq]
    · rw [lookup_cons, beq_false_of_ne heq]
      exact (and_iff_right (Ne.symm heq)).symm
  constructor
  · intro h i hi hk
    rcases Nat.eq_or_lt_of_le hk with rfl | hk
    · exact ⟨hext, hroom, hnone, fun j hj hkj => absurd hkj (by omega)⟩
    obtain ⟨hext', hroom', hfree, hne⟩ := h i hi hk
    obtain ⟨hfirst, hfree⟩ := (hlookup i).mp hfree
    refine ⟨hext', hroom', hfree, fun j hj hkj => ?_⟩
    rcases Nat.eq_or_lt_of_le hkj with rfl | hkj
    · exact hfirst
    · exact hne j hj hkj
  · intro h i hi hk
    obtain ⟨hext', hroom', hfree, hne⟩ := h i hi (by omega)
    refine ⟨hext', hroom', (hlookup i).mpr ⟨hne k hk le_rfl, hfree⟩, fun j hj hkj => ?_⟩
    exact hne j hj (by omega)

/-- The loop comes to its end exactly if all pages can be mapped. -/
theorem exists_attachPages_iff {addr : BitVec 64} {room k : ℕ} {m : PageList × Frames σ}
    {frames : List ℕ} :
    (∃ m', attachPages addr room m (frames.zipIdx k) = .ok (true, m')) ↔
      Maps addr room k (k + frames.length) m.1 := by
  induction frames generalizing k m with
  | nil => exact iff_of_true ⟨m, rfl⟩ fun i hi hk => absurd hk (by simpa using hi)
  | cons f frames ih =>
    have hlast : k < k + (f :: frames).length := by simp
    rw [zipIdx_cons, attachPages]
    rcases virtAddrNew_eq (pageAddr addr k) with ⟨hext, heq⟩ | ⟨hext, heq⟩
    · have hpage : (extended (pageAddr addr k)).toNat / 4096 = pageOf addr k := rfl
      simp only [heq, Outcome.ok_bind, hpage]
      by_cases hfree : k < room ∧ (m.1.lookup (pageOf addr k)).isNone
      · rw [if_pos hfree, ih, length_cons, Nat.add_comm frames.length, ← Nat.add_assoc]
        exact maps_cons_iff hext hfree.1 hfree.2
      · rw [if_neg hfree]
        refine iff_of_false ?_ fun h => hfree ?_
        · rintro ⟨m', h⟩
          obtain ⟨m₁, -, h⟩ := Outcome.bind_eq_ok.mp h
          cases h
        · obtain ⟨-, hroom, hnone, -⟩ := h k hlast le_rfl
          exact ⟨hroom, hnone⟩
    · rw [heq]
      refine iff_of_false ?_ fun h => hext (h k hlast le_rfl).1
      rintro ⟨m', h⟩
      cases h

theorem mem_deferred_foldl_decrement {frames : List ℕ}
    (h : f ∈ (frames.foldl decrement fr).deferred) : f ∈ fr.deferred ∨ f ∈ frames :=
  mem_deferred_foldl h mem_deferred_decrement

theorem foldl_decrement_alloc (fr : Frames σ) :
    (frames.foldl decrement fr).alloc = fr.alloc :=
  foldlRecOn (motive := (alloc · = _)) frames _ rfl
    fun _ h _ _ => (decrement_alloc ..).trans h

theorem foldl_increment_alloc (fr : Frames σ) :
    (frames.foldl increment fr).alloc = fr.alloc ∧
      (frames.foldl increment fr).deferred = fr.deferred := by
  induction frames generalizing fr with
  | nil => exact ⟨rfl, rfl⟩
  | cons g frames ih =>
    obtain ⟨halloc, hdeferred⟩ := ih (fr.increment g)
    exact ⟨halloc.trans (increment_alloc ..), hdeferred.trans (increment_deferred ..)⟩

/-! ### Areas -/

/-- Areas that are merged name the same segment. -/
theorem mem_shmIds_mergeFrom {ws : List Vma}
    (h : id ∈ (v :: ws).filterMap (·.shmId)) : id ∈ (mergeFrom v ws).filterMap (·.shmId) := by
  induction ws generalizing v with
  | nil => exact h
  | cons w ws ih =>
    rw [mergeFrom]
    split
    · next hmerge =>
      refine ih ?_
      have hsame : v.shmId = w.shmId := (Vma.compatible_iff.mp hmerge.1).2.2.2
      simpa [mem_filterMap, Vma.extend, hsame] using h
    · rw [← singleton_append, filterMap_append, mem_append] at h ⊢
      exact h.imp_right ih

theorem mem_shmIds_insertVmaLocked (vmas : List Vma)
    (h : v.shmId = some id) : id ∈ (insertVmaLocked vmas v).filterMap (·.shmId) := by
  have hmem : v ∈ (vmas ++ [v]).insertionSort fun v w => v.start ≤ w.start :=
    (mem_insertionSort _).mpr (by simp)
  rw [insertVmaLocked]
  cases hsorted : (vmas ++ [v]).insertionSort fun v w => v.start ≤ w.start with
  | nil => simp [hsorted] at hmem
  | cons first rest =>
    rw [hsorted] at hmem
    exact mem_shmIds_mergeFrom (mem_filterMap.mpr ⟨v, hmem, h⟩)

/-- Two areas that follow each other are not merged, if they name a segment. -/
def Unmerged (v w : Vma) : Prop := v.shmId.isSome → v.compatible w → v.stop < w.start

instance (v w : Vma) : Decidable (Unmerged v w) := inferInstanceAs (Decidable (_ → _ → _))

/-- Merging loses an entry for each area with a segment that another area takes in. -/
theorem shmIds_mergeFrom (v : Vma) (ws : List Vma) :
    ∃ lost, ((mergeFrom v ws).filterMap (·.shmId) ++ lost).Perm ((v :: ws).filterMap (·.shmId)) ∧
      (lost = [] ↔ (v :: ws).IsChain Unmerged) := by
  induction ws generalizing v with
  | nil => exact ⟨[], by simp [mergeFrom], by simp⟩
  | cons w ws ih =>
    rw [mergeFrom]
    split
    · next hmerge =>
      obtain ⟨lost, hperm, hlost⟩ := ih (v.extend w)
      have hsame : v.shmId = w.shmId := (Vma.compatible_iff.mp hmerge.1).2.2.2
      have hextend : (v.extend w).shmId = v.shmId := rfl
      cases hid : v.shmId with
      | none =>
        refine ⟨lost, ?_, hlost.trans ?_⟩
        · simpa [filterMap_cons, hextend, ← hsame, hid] using hperm
        · have hpass : ∀ {u u' : Vma}, u.shmId = none → Unmerged u u' :=
            fun hu hsome => by simp [hu] at hsome
          cases ws with
          | nil => simp [hpass hid]
          | cons x ws => simp [hpass hid, hpass (hsame ▸ hid), hpass (hextend.trans hid)]
      | some id =>
        refine ⟨id :: lost, ?_, iff_of_false (cons_ne_nil _ _) fun hchain => ?_⟩
        · refine perm_middle.trans ?_
          simpa [filterMap_cons, hextend, ← hsame, hid] using hperm
        · have hlt := (isChain_cons_cons.mp hchain).1 (by simp [hid]) hmerge.1
          exact absurd hmerge.2 (by bv_omega)
    · next hmerge =>
      obtain ⟨lost, hperm, hlost⟩ := ih w
      refine ⟨lost, ?_, ?_⟩
      · rw [filterMap_cons, filterMap_cons (a := v)]
        cases v.shmId with
        | none => exact hperm
        | some id => exact hperm.cons id
      · rw [hlost, isChain_cons_cons]
        refine (and_iff_right fun _ hcompatible => ?_).symm
        by_contra hle
        exact hmerge ⟨hcompatible, by bv_omega⟩

/-- An area becomes one of its own exactly if no area with a segment is merged. -/
theorem shmIds_insertVmaLocked_perm_iff (vmas : List Vma) (h : v.shmId = some id) :
    ((insertVmaLocked vmas v).filterMap (·.shmId)).Perm (id :: vmas.filterMap (·.shmId)) ↔
      ((vmas ++ [v]).insertionSort fun v w => v.start ≤ w.start).IsChain Unmerged := by
  have hsort : (((vmas ++ [v]).insertionSort fun v w => v.start ≤ w.start).filterMap
      (·.shmId)).Perm (id :: vmas.filterMap (·.shmId)) := by
    refine ((perm_insertionSort _ _).filterMap _).trans ?_
    simp [filterMap_append, h]
  rw [insertVmaLocked]
  cases hsorted : (vmas ++ [v]).insertionSort fun v w => v.start ≤ w.start with
  | nil => simp [hsorted] at hsort
  | cons first rest =>
    rw [hsorted] at hsort
    obtain ⟨lost, hperm, hlost⟩ := shmIds_mergeFrom first rest
    rw [mergeVmasInner, ← hlost]
    have hall := hperm.trans hsort
    refine ⟨fun hkept => ?_, fun hnil => ?_⟩
    · have hlength := hall.length_eq
      rw [length_append, hkept.length_eq] at hlength
      exact length_eq_zero_iff.mp (by omega)
    · simpa [hnil] using hall

/-- `remove_vma_range` takes the area away. -/
def covered (start stop : BitVec 64) (v : Vma) : Bool :=
  start < v.stop ∧ v.start < stop ∧ start ≤ v.start ∧ v.stop ≤ stop

/-- `remove_vma_range` cuts the area in two, and returns. -/
def splits (start stop : BitVec 64) (v : Vma) : Bool :=
  v.start < start ∧ start < v.stop ∧ v.start < stop ∧ stop < v.stop

/-- The segments whose areas `remove_vma_range` takes away. -/
def takenIds (start stop : BitVec 64) (vmas : List Vma) : List (BitVec 32) :=
  ((vmas.takeWhile (!splits start stop ·)).filter (covered start stop)).filterMap (·.shmId)

/-- The segment whose area it cuts in two. -/
def splitId (start stop : BitVec 64) (vmas : List Vma) : Option (BitVec 32) :=
  (vmas.find? (splits start stop)).bind (·.shmId)

theorem shmIds_removeVmaRange (start stop : BitVec 64) (vmas : List Vma) :
    ((removeVmaRange start stop vmas).filterMap (·.shmId) ++ takenIds start stop vmas).Perm
      ((splitId start stop vmas).toList ++ vmas.filterMap (·.shmId)) := by
  induction vmas with
  | nil => exact .refl _
  | cons v vmas ih =>
    have hkeep : ∀ u : Vma, u.shmId = v.shmId →
        ((u :: removeVmaRange start stop vmas).filterMap (·.shmId) ++
          takenIds start stop vmas).Perm
            ((splitId start stop vmas).toList ++ (v :: vmas).filterMap (·.shmId)) := by
      intro u hu
      rw [filterMap_cons, filterMap_cons, hu]
      cases v.shmId with
      | none => exact ih
      | some id => exact (ih.cons id).trans perm_middle.symm
    rw [removeVmaRange]
    by_cases hsplits : splits start stop v
    · rw [takenIds, splitId, takeWhile_cons_of_neg (by simpa using hsplits),
        find?_cons_of_pos hsplits]
      simp only [splits, decide_eq_true_eq] at hsplits
      rw [if_neg (by bv_omega), if_pos ⟨hsplits.1, hsplits.2.2.2⟩]
      cases hid : v.shmId <;> simp [hid]
    · have htaken : takenIds start stop (v :: vmas) =
          (if covered start stop v then v.shmId.toList else []) ++ takenIds start stop vmas := by
        rw [takenIds, takeWhile_cons_of_pos (by simpa using hsplits), filter_cons]
        split
        · cases hid : v.shmId <;> simp [hid, takenIds]
        · rfl
      rw [htaken, splitId, find?_cons_of_neg hsplits, ← splitId]
      simp only [splits, decide_eq_true_eq] at hsplits
      simp only [covered, decide_eq_true_eq]
      by_cases hmiss : v.stop ≤ start ∨ stop ≤ v.start
      · rw [if_pos hmiss, if_neg (fun h => by bv_omega), nil_append]
        exact hkeep v rfl
      rw [if_neg hmiss, if_neg (show ¬ (v.start < start ∧ stop < v.stop) by bv_omega)]
      by_cases hcovered : start ≤ v.start ∧ v.stop ≤ stop
      · rw [if_pos hcovered, if_pos (by bv_omega), filterMap_cons]
        cases v.shmId with
        | none => exact ih
        | some id => exact perm_middle.trans ((ih.cons id).trans perm_middle.symm)
      · have hkept : ¬ (start < v.stop ∧ v.start < stop ∧ start ≤ v.start ∧ v.stop ≤ stop) :=
          fun h => hcovered h.2.2
        rw [if_neg hcovered, if_neg hkept, nil_append]
        split
        · exact hkeep _ rfl
        · exact hkeep _ rfl

/-- One entry of a segment goes exactly if its area is taken away, and beside it none but one
for an area that is cut in two. -/
theorem shmIds_removeVmaRange_perm_iff (start stop : BitVec 64) (vmas : List Vma)
    (id : BitVec 32) :
    (id :: (removeVmaRange start stop vmas).filterMap (·.shmId)).Perm
        (vmas.filterMap (·.shmId)) ↔
      (takenIds start stop vmas).Perm (id :: (splitId start stop vmas).toList) := by
  have hbalance := shmIds_removeVmaRange start stop vmas
  simp only [perm_iff_count, count_append, count_cons] at hbalance ⊢
  refine forall_congr' fun x => ?_
  have hbalance := hbalance x
  omega

end Vahi.Syscalls.Shm
