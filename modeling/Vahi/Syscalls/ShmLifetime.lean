import Vahi.Syscalls.ShmLedger

/-!
# The lifetime of shared memory segments

The frames of a segment should stay with it until it is destroyed, its attach count be the number of
areas that name it. But the last `sys_shmdt` queues the frames of a segment that stays registered,
`sys_fork` copies areas without counting them, and areas of one segment that touch are merged.
-/

namespace Vahi.Syscalls.Shm

open Vahi.Lib Vahi.Types Vahi.Memory Vahi.Task List

variable {σ : Type}

namespace ShmState

/-- One entry for each memory area that names a segment. -/
def attached (s : ShmState σ) : List (BitVec 32) := collect ShmProcess.shmIds s.procs

/-- The frames that page tables or the queue still name. -/
def loose (s : ShmState σ) : List ℕ :=
  s.frames.deferred ++ collect (fun p => p.pages.map (·.2)) s.procs

end ShmState

open ShmState

def ShmOp.Marks (id : BitVec 32) : ShmOp → Prop
  | .rmid _ shmid => shmid = id
  | _ => False

def Gone (segments : List ShmSegment) (seg : ShmSegment) : Prop :=
  ∀ seg' ∈ segments, seg'.id = seg.id → seg'.pages ≠ seg.pages

/-- What a step with the operation `op` from `s` to `s'` has to keep to. -/
structure Lifetime (op : ShmOp) (s s' : ShmState (σ × List FrameEvent)) : Prop where
  /-- No frame of a registered segment was freed. -/
  kept : ∀ seg ∈ s'.segments, ∀ f ∈ seg.pages, freed s'.frames.alloc.2 f = false
  /-- What is attached is registered. -/
  attached : ∀ id ∈ s'.attached, ∃ seg ∈ s'.segments, seg.id = id
  once : FreedOnce s'.frames.alloc.2
  /-- All frames of a segment that is destroyed are freed. -/
  released : ∀ seg ∈ s.segments, Gone s'.segments seg →
    ∀ f ∈ seg.pages, freed s'.frames.alloc.2 f = true
  counted : ∀ seg ∈ s'.segments, seg.nattch.toNat = s'.attached.count seg.id
  /-- A segment that is marked for removal and still there is attached. -/
  removed : ∀ seg ∈ s'.segments, seg.deleted → s'.attached.count seg.id ≠ 0
  /-- One that is destroyed was marked and is not attached. -/
  destroyed : ∀ seg ∈ s.segments, Gone s'.segments seg →
    (seg.deleted ∨ op.Marks seg.id) ∧ s'.attached.count seg.id = 0

/-- The segment exists and the caller may attach it, and its pages can be mapped. -/
def Attaches (s : ShmState σ) (caller : Caller) (p : ShmProcess) (shmid : BitVec 32)
    (shmaddr : BitVec 64) (shmflg : BitVec 32) (room : ℕ) (seg : ShmSegment) : Prop :=
  shmatSegment s caller shmid shmflg = .ok seg ∧
    Maps ((shmatArgs s shmid shmaddr shmflg seg).addr seg.size) room 0 seg.pages.length p.pages

/-- The area of a segment starts at the address, and both ends of it are canonical. -/
def Detaches (p : ShmProcess) (addr : BitVec 64) (v : Vma) : Prop :=
  ¬ (addr = 0 ∨ addr &&& 0xFFF ≠ 0) ∧ p.vmas.find? (·.start = addr) = some v ∧
    v.shmId.isSome ∧ Extendable addr ∧ Extendable (v.stop - 1)

/-- The number of a new segment is not in use; an attachment becomes an area of its own and
the count does not wrap; a detachment removes one area; processes that fork have nothing
attached; and nothing is queued when the queue is drained. -/
def Permitted (A : FrameAllocator σ) (s : ShmState σ) : ShmOp → Prop
  | .shmget _ key size shmflg =>
    shmgetLookup s key size shmflg = .ok none →
      hasFrames A ((sizeAligned size).toNat / 4096) s.frames →
        ∀ seg ∈ s.segments, seg.id ≠ s.nextId
  | .shmat caller pid shmid shmaddr shmflg room =>
    ∀ p ∈ s.proc pid, ∀ seg ∈ s.segments, Attaches s caller p shmid shmaddr shmflg room seg →
      seg.nattch.toNat + 1 < 2 ^ 32 ∧
      ((p.vmas ++ [(shmatArgs s shmid shmaddr shmflg seg).vma seg.size]).insertionSort
        fun v w => v.start ≤ w.start).IsChain Unmerged
  | .shmdt pid addr =>
    ∀ p ∈ s.proc pid, ∀ v ∈ p.vmas, Detaches p addr v →
      (takenIds addr v.stop p.vmas).Perm (v.shmId.toList ++ (splitId addr v.stop p.vmas).toList)
  | .rmid .. => True
  | .fork pid failsAfter => failsAfter = none → ∀ p ∈ s.proc pid, p.shmIds = []
  | .exit _ => True
  | .drain => s.frames.deferred = []

instance (addr : BitVec 64) : Decidable (Extendable addr) := inferInstanceAs (Decidable (_ ∨ _))

instance (addr : BitVec 64) (room k n : ℕ) (pages : PageList) :
    Decidable (Maps addr room k n pages) :=
  inferInstanceAs (Decidable (∀ i < n, _))

instance (s : ShmState σ) (caller : Caller) (p : ShmProcess) (shmid : BitVec 32)
    (shmaddr : BitVec 64) (shmflg : BitVec 32) (room : ℕ) (seg : ShmSegment) :
    Decidable (Attaches s caller p shmid shmaddr shmflg room seg) :=
  inferInstanceAs (Decidable (_ ∧ _))

instance (p : ShmProcess) (addr : BitVec 64) (v : Vma) : Decidable (Detaches p addr v) :=
  inferInstanceAs (Decidable (_ ∧ _))

instance (A : FrameAllocator σ) (s : ShmState σ) (op : ShmOp) : Decidable (Permitted A s op) :=
  match op with
  | .shmget .. => inferInstanceAs (Decidable (_ → _ → _))
  | .shmat _ pid .. =>
    inferInstanceAs (Decidable (∀ p ∈ s.proc pid, ∀ seg ∈ s.segments, _ → _))
  | .shmdt pid _ =>
    inferInstanceAs (Decidable (∀ p ∈ s.proc pid, ∀ v ∈ p.vmas, _ → _))
  | .rmid .. => inferInstanceAs (Decidable True)
  | .fork .. => inferInstanceAs (Decidable (_ = none → _))
  | .exit _ => inferInstanceAs (Decidable True)
  | .drain => inferInstanceAs (Decidable (s.frames.deferred = []))

/-! ### Steps -/

/-- The segments are in order, and what page tables or the queue name is a frame of a segment
or was freed. -/
structure Inv (A : FrameAllocator σ) (s : ShmState (σ × List FrameEvent)) : Prop where
  ledger : Ledger A s.segments s.frames.alloc s.attached
  known : ∀ f ∈ s.loose, f ∈ segmentFrames s.segments ∨ freed s.frames.alloc.2 f = true

structure Sound (A : FrameAllocator σ) (marks : BitVec 32 → Prop)
    (s s' : ShmState (σ × List FrameEvent)) : Prop where
  ledger : Ledger A s'.segments s'.frames.alloc s'.attached
  evolves : Evolves marks s.segments s.frames.alloc.2 s'.segments s'.frames.alloc.2 s'.attached
  loose : ∀ f ∈ s'.loose, f ∈ s.loose ∨ f ∈ segmentFrames s.segments

abbrev Sources (s s' : ShmState σ) : Prop :=
  ∀ f ∈ s'.loose, f ∈ s.loose ∨ f ∈ segmentFrames s.segments

section Step

variable {A : FrameAllocator σ} {s s' : ShmState (σ × List FrameEvent)} {marks : BitVec 32 → Prop}

theorem Sound.inv (h : Inv A s) (hs : Sound A marks s s') : Inv A s' where
  ledger := hs.ledger
  known f hf := by
    refine hs.evolves.known f ?_
    rcases hs.loose f hf with hf | hf
    · exact h.known f hf
    · exact .inl hf

variable {op : ShmOp} {caller : Caller} {key shmflg shmid id : BitVec 32}
  {size shmaddr addr : BitVec 64} {room : ℕ} {failsAfter : Option ℕ}

theorem Sound.lifetime (hs : Sound A op.Marks s s') : Lifetime op s s' := by
  have hfate : ∀ seg ∈ s.segments, Gone s'.segments seg →
      (seg.deleted ∨ op.Marks seg.id) ∧ s'.attached.count seg.id = 0 ∧
        ∀ f ∈ seg.pages, freed s'.frames.alloc.2 f = true := by
    intro seg hseg hgone
    rcases hs.evolves.fate seg hseg with ⟨seg', hseg', hid, hpages, -⟩ | hdestroyed
    · exact absurd hpages (hgone seg' hseg' hid)
    · exact hdestroyed
  refine ⟨?_, hs.ledger.attached, hs.ledger.owned.freedOnce, ?_, hs.ledger.counted,
    hs.ledger.removed, ?_⟩
  · exact fun seg hseg f hf => hs.ledger.owned.not_freed (mem_segmentFrames.mpr ⟨seg, hseg, hf⟩)
  · exact fun seg hseg hgone => (hfate seg hseg hgone).2.2
  · exact fun seg hseg hgone => ⟨(hfate seg hseg hgone).1, (hfate seg hseg hgone).2.1⟩

/-- A step that changes only page tables, counts, and the next number or address. -/
theorem Sound.of_eq (h : Inv A s) (hsegments : s'.segments = s.segments)
    (halloc : s'.frames.alloc = s.frames.alloc) (hattached : s'.attached = s.attached)
    (hloose : Sources s s') : Sound A marks s s' := by
  refine ⟨?_, ?_, hloose⟩
  · rw [hsegments, halloc, hattached]
    exact h.ledger
  · rw [hsegments, halloc]
    exact Evolves.refl ..

theorem Sound.refl (h : Inv A s) : Sound A marks s s :=
  Sound.of_eq h rfl rfl rfl fun _ hf => .inl hf

variable {pid f : ℕ} {p : ShmProcess} (B : FrameAllocator σ)

/-- Page tables and queue after the pages of one process have changed. -/
theorem mem_loose_set
    (hprocs : s'.procs = s.procs.set pid (some p)) (h : f ∈ s'.loose) :
    f ∈ namedFrames (p.pages, s'.frames) ∨ f ∈ s.loose := by
  rw [loose, hprocs] at h
  rcases mem_append.mp h with h | h
  · exact .inl (mem_append_left _ h)
  obtain ⟨q, hq, hf⟩ := mem_collect_iff.mp h
  rcases mem_or_eq_of_mem_set hq with hq | hq
  · exact .inr (mem_append_right _ (mem_collect_iff.mpr ⟨q, hq, hf⟩))
  · cases hq
    exact .inl (mem_append_right _ hf)

theorem mem_loose_of_proc (hp : s.proc pid = some p) (hf : f ∈ namedFrames (p.pages, s.frames)) :
    f ∈ s.loose :=
  mem_append.mpr ((mem_append.mp hf).imp_right (mem_collect hp))

/-- What `sys_shmget` can do: nothing, fail for lack of frames, or register a new segment. -/
theorem sysShmget_cases (s : ShmState σ) (caller : Caller)
    (key : BitVec 32) (size : BitVec 64) (shmflg : BitVec 32) :
    (shmgetLookup s key size shmflg ≠ .ok none ∧
      (sysShmget B s caller key size shmflg).1 = s) ∨
    (∃ e fr, allocSegmentPages B ((sizeAligned size).toNat / 4096) [] s.frames = (.error e, fr) ∧
      (sysShmget B s caller key size shmflg).1 = { s with frames := fr }) ∨
    (shmgetLookup s key size shmflg = .ok none ∧ 0 < (sizeAligned size).toNat / 4096 ∧
      ∃ fr seg keyMap,
      allocSegmentPages B ((sizeAligned size).toNat / 4096) [] s.frames = (.ok seg.pages, fr) ∧
      seg.id = s.nextId ∧ seg.nattch = 0 ∧ seg.deleted = false ∧
      (sysShmget B s caller key size shmflg).1 =
        { s with
          segments := s.segments.filter (·.id ≠ s.nextId) ++ [seg]
          keyMap := keyMap
          nextId := s.nextId + 1
          frames := fr }) := by
  rw [sysShmget]
  split
  · next hlookup => exact .inl ⟨by simp [hlookup], rfl⟩
  · next hlookup => exact .inl ⟨by simp [hlookup], rfl⟩
  next hlookup =>
  right
  have hpos : 0 < (sizeAligned size).toNat / 4096 := by
    have hne : sizeAligned size ≠ 0 := by
      intro hzero
      simp only [shmgetLookup, hzero, if_true] at hlookup
      split at hlookup <;> cases hlookup
    have hmul := toNat_and_not_4095 (size + 4095)
    rw [sizeAligned] at hne ⊢
    bv_omega
  split
  · next e fr halloc => exact .inl ⟨e, fr, halloc, rfl⟩
  · next pages fr halloc => exact .inr ⟨hlookup, hpos, fr, _, _, halloc, rfl, rfl, rfl, rfl⟩

theorem sound_shmget (h : Inv A s) (hok : Permitted (logged A) s (.shmget caller key size shmflg)) :
    Sound A marks s (sysShmget (logged A) s caller key size shmflg).1 := by
  have howned : Owned (logged A) ([] ++ segmentFrames s.segments) s.frames.alloc := h.ledger.owned
  rw [Permitted] at hok
  rcases sysShmget_cases (logged A) s caller key size shmflg with ⟨-, heq⟩ | ⟨e, fr, halloc, heq⟩ |
    ⟨hlookup, hn, fr, seg, keyMap, halloc, hid, hnattch, hdel, heq⟩
  · rw [heq]
    exact Sound.refl h
  · rw [heq]
    obtain ⟨hdeferred, -, herr⟩ := allocSegmentPages_spec howned halloc
    obtain ⟨hrest, hfreed⟩ := herr e rfl
    refine ⟨{ h.ledger with owned := hrest }, ⟨?_, ?_⟩, ?_⟩
    · exact fun f hf => hf.imp_right fun hf => hfreed f (.inr hf)
    · exact fun seg hseg => .inl ⟨seg, hseg, rfl, rfl, .inl⟩
    · intro f hf
      rw [loose, hdeferred] at hf
      exact .inl hf
  · rw [heq]
    obtain ⟨hdeferred, hnew, -⟩ := allocSegmentPages_spec howned halloc
    obtain ⟨hrest, hlen, hfreed⟩ := hnew seg.pages rfl
    have hfresh : ∀ seg' ∈ s.segments, seg'.id ≠ s.nextId := by
      refine hok hlookup ?_
      rw [← isOk_allocSegmentPages, halloc]
      rfl
    have hfilter : s.segments.filter (·.id ≠ s.nextId) = s.segments :=
      filter_eq_self.mpr fun seg' hseg' => by simpa using hfresh seg' hseg'
    have hframes : segmentFrames (s.segments ++ [seg]) = segmentFrames s.segments ++ seg.pages := by
      simp [segmentFrames]
    simp only [hfilter]
    refine ⟨h.ledger.append ?_ ?_ (hid ▸ hfresh) hnattch hdel, ⟨?_, ?_⟩, ?_⟩
    · rw [hframes]
      exact hrest.perm perm_append_comm
    · exact ne_nil_of_length_pos (by omega)
    · intro f hf
      rw [hframes, mem_append]
      rcases hf with hf | hf
      · exact .inl (.inl hf)
      · exact (hfreed f (.inr hf)).imp_left .inr
    · exact fun seg' hseg' => .inl ⟨seg', mem_append_left _ hseg', rfl, rfl, .inl⟩
    · intro f hf
      rw [loose, hdeferred] at hf
      exact .inl hf

/-- A segment whose number is taken over is lost with its frames. -/
theorem permitted_of_lifetime_shmget (h : Inv A s)
    (hlife : Lifetime op s (sysShmget (logged A) s caller key size shmflg).1) :
    Permitted (logged A) s (.shmget caller key size shmflg) := by
  have howned : Owned (logged A) ([] ++ segmentFrames s.segments) s.frames.alloc := h.ledger.owned
  intro hlookup hframes seg' hseg' hid'
  rcases sysShmget_cases (logged A) s caller key size shmflg with ⟨hne, -⟩ | ⟨e, fr, halloc, -⟩ |
    ⟨-, hn, fr, seg, keyMap, halloc, hid, hnattch, hdel, heq⟩
  · exact hne hlookup
  · rw [← isOk_allocSegmentPages, halloc] at hframes
    cases hframes
  rw [heq] at hlife
  obtain ⟨-, hnew, -⟩ := allocSegmentPages_spec howned halloc
  obtain ⟨hrest, -, -⟩ := hnew seg.pages rfl
  obtain ⟨f, hf⟩ := exists_mem_of_ne_nil _ (h.ledger.nonempty seg' hseg')
  have hmem : f ∈ segmentFrames s.segments := mem_segmentFrames.mpr ⟨seg', hseg', hf⟩
  have hgone : Gone (s.segments.filter (·.id ≠ s.nextId) ++ [seg]) seg' := by
    intro x hx hxid hpages
    rcases mem_append.mp hx with hx | hx
    · have hne := (mem_filter.mp hx).2
      simp [hxid, hid'] at hne
    obtain rfl := mem_singleton.mp hx
    have htwice := hrest.count_le_one f
    have hone := count_pos_iff.mpr (hpages ▸ hf)
    have hother := count_pos_iff.mpr hmem
    rw [count_append] at htwice
    omega
  have hfreed := hlife.released seg' hseg' hgone f hf
  have hheld := hrest.not_freed (mem_append_right _ hmem)
  rw [hfreed] at hheld
  cases hheld

/-- What one process has attached, against what all have. -/
theorem attached_perm_iff {q : ShmProcess} (hp : s.proc pid = some p)
    (hprocs : s'.procs = s.procs.set pid (some q)) (more more' : List (BitVec 32)) :
    (more ++ s'.attached).Perm (more' ++ s.attached) ↔
      (more ++ q.shmIds).Perm (more' ++ p.shmIds) := by
  obtain ⟨l₁, l₂, hl, hset⟩ := collect_set ShmProcess.shmIds hp
  have hnew : collect ShmProcess.shmIds [some q] = q.shmIds := append_nil _
  simp only [attached, hprocs, hl, hset, hnew, perm_iff_count, count_append]
  exact forall_congr' fun id => by omega

theorem segment_of_shmatSegment (h : shmatSegment s caller shmid shmflg = .ok seg) :
    s.segment shmid = some seg ∧ seg.deleted = false := by
  rw [shmatSegment] at h
  split at h
  · cases h
  next seg' hsegment =>
  split at h
  · cases h
  next hdel =>
  split at h
  · cases h
    exact ⟨hsegment, by simpa using hdel⟩
  · cases h

theorem attaches_iff : Attaches s caller p shmid shmaddr shmflg room seg ↔
    shmatSegment s caller shmid shmflg = .ok seg ∧
      ∃ m, attachPages ((shmatArgs s shmid shmaddr shmflg seg).addr seg.size) room
        (p.pages, s.frames) seg.pages.zipIdx = .ok (true, m) := by
  rw [Attaches, exists_attachPages_iff, Nat.zero_add]

/-- What `sys_shmat` can do: nothing but a change of page tables, or attach the segment. -/
theorem sysShmat_cases (caller : Caller) (pid : ℕ) (shmid : BitVec 32)
    (shmaddr : BitVec 64) (shmflg : BitVec 32) (room : ℕ)
    (hs' : s' = after s (sysShmat s caller pid shmid shmaddr shmflg room)) :
    Sources s s' ∧ s'.frames.alloc = s.frames.alloc ∧
    (((∀ p seg, s.proc pid = some p → ¬ Attaches s caller p shmid shmaddr shmflg room seg) ∧
        s'.segments = s.segments ∧ s'.attached = s.attached) ∨
      ∃ p seg, s.proc pid = some p ∧ Attaches s caller p shmid shmaddr shmflg room seg ∧
        s'.segments = s.segments.map (fun seg =>
          if seg.id = shmid then { seg with nattch := seg.nattch + 1 } else seg) ∧
        s.segment shmid = some seg ∧ seg.deleted = false ∧ shmid ∈ s'.attached ∧
        (s'.attached.Perm (shmid :: s.attached) ↔
          ((p.vmas ++ [(shmatArgs s shmid shmaddr shmflg seg).vma seg.size]).insertionSort
            fun v w => v.start ≤ w.start).IsChain Unmerged)) := by
  rw [sysShmat] at hs'
  split at hs'
  · next e hseg =>
    subst hs'
    refine ⟨fun f hf => .inl hf, rfl, .inl ⟨fun p seg _ hattaches => ?_, rfl, rfl⟩⟩
    cases hattaches.1.symm.trans hseg
  · next hp =>
    subst hs'
    refine ⟨fun f hf => .inl hf, rfl, .inl ⟨fun p seg hp' _ => ?_, rfl, rfl⟩⟩
    cases hp'.symm.trans hp
  next seg p hseg hp =>
  have honly : ∀ {p' seg'}, s.proc pid = some p' →
      Attaches s caller p' shmid shmaddr shmflg room seg' →
      ∃ m, attachPages ((shmatArgs s shmid shmaddr shmflg seg).addr seg.size) room
        (p.pages, s.frames) seg.pages.zipIdx = .ok (true, m) := by
    intro p' seg' hp' hattaches
    obtain rfl : p = p' := Option.some.inj (hp.symm.trans hp')
    obtain rfl : seg = seg' := Except.ok.inj (hseg.symm.trans hattaches.1)
    exact (attaches_iff.mp hattaches).2
  obtain ⟨hsegment, hdel⟩ := segment_of_shmatSegment hseg
  have hzip : ∀ f, f ∈ seg.pages.zipIdx.map (·.1) → f ∈ segmentFrames s.segments := by
    intro f hf
    rw [zipIdx_map_fst] at hf
    exact mem_segmentFrames.mpr ⟨seg, (segment_eq_some hsegment).1, hf⟩
  dsimp only at hs'
  cases hattach : attachPages ((shmatArgs s shmid shmaddr shmflg seg).addr seg.size) room
      (p.pages, s.frames) seg.pages.zipIdx with
  | panic | hang =>
    rw [hattach] at hs' honly
    subst hs'
    refine ⟨fun f hf => .inl hf, rfl, .inl ⟨fun p' seg' hp' hattaches => ?_, rfl, rfl⟩⟩
    obtain ⟨m', heq⟩ := honly hp' hattaches
    cases heq
  | ok r =>
    obtain ⟨done, pages, frames⟩ := r
    obtain ⟨halloc, hloose⟩ := attachPages_spec hattach
    have hsource : ∀ {t : ShmState (σ × List FrameEvent)} {q : ShmProcess},
        t.procs = s.procs.set pid (some q) → q.pages = pages → t.frames = frames →
        Sources s t := by
      intro t q hprocs hq hfr f hf
      rcases mem_loose_set hprocs hf with hf | hf
      · rw [hq, hfr] at hf
        exact (mem_append.mp (hloose hf)).imp (mem_loose_of_proc hp) (hzip f)
      · exact .inl hf
    rw [hattach] at hs'
    cases done with
    | false =>
      subst hs'
      refine ⟨hsource rfl rfl rfl, halloc, .inl ⟨fun p' seg' hp' hattaches => ?_, rfl, ?_⟩⟩
      · obtain ⟨m', heq⟩ := honly hp' hattaches
        rw [hattach] at heq
        cases heq
      · exact collect_set_eq (f := ShmProcess.shmIds) hp rfl
    | true =>
      subst hs'
      refine ⟨hsource rfl rfl rfl, halloc,
        .inr ⟨p, seg, hp, attaches_iff.mpr ⟨hseg, _, hattach⟩, rfl, hsegment, hdel, ?_, ?_⟩⟩
      · refine mem_collect_iff.mpr ⟨_, mem_set (lt_length_of_join hp) _, ?_⟩
        exact mem_shmIds_insertVmaLocked p.vmas rfl
      · refine (attached_perm_iff hp rfl [] [shmid]).trans ?_
        exact shmIds_insertVmaLocked_perm_iff p.vmas rfl

theorem sound_shmat (h : Inv A s)
    (hok : Permitted (logged A) s (.shmat caller pid shmid shmaddr shmflg room)) :
    Sound A marks s (after s (sysShmat s caller pid shmid shmaddr shmflg room)) := by
  obtain ⟨hloose, halloc, ⟨-, hsegments, hattached⟩ |
    ⟨p, seg, hp, hattaches, hsegments, hsegment, hdel, -, hunmerged⟩⟩ :=
    sysShmat_cases caller pid shmid shmaddr shmflg room rfl
  · exact Sound.of_eq h hsegments halloc hattached hloose
  obtain ⟨hseg, rfl⟩ := segment_eq_some hsegment
  obtain ⟨hwrap, hchain⟩ := hok p hp seg hseg hattaches
  have hperm := hunmerged.mpr hchain
  have hcount := h.ledger.counted seg hseg
  have hself : ∀ x ∈ s.segments, x.id = seg.id →
      (x.nattch + 1).toNat = (seg.id :: s.attached).count seg.id ∧
        (x.deleted → (seg.id :: s.attached).count seg.id ≠ 0) := by
    intro x hx hid
    obtain rfl := h.ledger.eq_of_id hx hseg hid
    rw [count_cons_self, ← hcount]
    exact ⟨by bv_omega, fun _ => by omega⟩
  obtain ⟨hledger, hevolves⟩ := h.ledger.modify marks
    (g := fun x => { x with nattch := x.nattch + 1 }) (fun _ => rfl) (fun _ => rfl)
    (fun _ _ => .inl) (fun id' hne => count_cons_of_ne (Ne.symm hne)) ⟨seg, hseg, rfl⟩ hself
  refine ⟨?_, ?_, hloose⟩
  · rw [hsegments, halloc]
    exact hledger.congr hperm.count_eq
  · rw [hsegments, halloc]
    exact hevolves.congr hperm.count_eq

/-- Segments that a step does not touch keep the number of their areas. -/
theorem count_attached_eq (h : Inv A s) (hlife : Lifetime op s s')
    (hkeep : ∀ seg ∈ s.segments, seg.id ≠ id → seg ∈ s'.segments)
    (hold : ∀ seg' ∈ s'.segments, ∃ seg ∈ s.segments, seg.id = seg'.id) {id' : BitVec 32}
    (hne : id' ≠ id) : s'.attached.count id' = s.attached.count id' := by
  by_cases hreg : ∃ seg ∈ s.segments, seg.id = id'
  · obtain ⟨seg, hseg, rfl⟩ := hreg
    rw [← hlife.counted seg (hkeep seg hseg hne), h.ledger.counted seg hseg]
  have hbefore : s.attached.count id' = 0 :=
    count_eq_zero.mpr fun hmem => hreg (h.ledger.attached id' hmem)
  have hafter : s'.attached.count id' = 0 := by
    refine count_eq_zero.mpr fun hmem => hreg ?_
    obtain ⟨seg', hseg', hid'⟩ := hlife.attached id' hmem
    obtain ⟨seg, hseg, hid⟩ := hold seg' hseg'
    exact ⟨seg, hseg, hid.trans hid'⟩
  rw [hbefore, hafter]

theorem permitted_of_lifetime_shmat (h : Inv A s)
    (hlife : Lifetime op s (after s (sysShmat s caller pid shmid shmaddr shmflg room))) :
    Permitted (logged A) s (.shmat caller pid shmid shmaddr shmflg room) := by
  intro p' hp' seg' hseg' hattaches'
  obtain ⟨-, -, ⟨hnone, -, -⟩ |
    ⟨p, seg, hp, hattaches, hsegments, hsegment, -, hmem, hunmerged⟩⟩ :=
    sysShmat_cases caller pid shmid shmaddr shmflg room rfl
  · exact absurd hattaches' (hnone p' seg' hp')
  obtain rfl : p = p' := Option.some.inj (hp.symm.trans hp')
  obtain rfl : seg = seg' := Except.ok.inj (hattaches.1.symm.trans hattaches'.1)
  obtain ⟨hseg, rfl⟩ := segment_eq_some hsegment
  have hbefore := h.ledger.counted seg hseg
  have hafter := hlife.counted { seg with nattch := seg.nattch + 1 } <| by
    rw [hsegments]
    exact mem_map.mpr ⟨seg, hseg, if_pos rfl⟩
  -- the area of the attachment is there, so the count has not wrapped to zero
  have hpos := count_pos_iff.mpr hmem
  refine ⟨by bv_omega, hunmerged.mp (perm_iff_count.mpr fun id => ?_)⟩
  · by_cases hid : id = seg.id
    · subst hid
      rw [count_cons_self]
      bv_omega
    · rw [count_cons_of_ne (Ne.symm hid)]
      refine count_attached_eq h hlife ?_ ?_ hid
      · intro x hx hne
        rw [hsegments]
        exact mem_map.mpr ⟨x, hx, if_neg hne⟩
      · intro x hx
        rw [hsegments] at hx
        obtain ⟨y, hy, rfl⟩ := mem_map.mp hx
        refine ⟨y, hy, ?_⟩
        split <;> rfl

/-- Detaching changes no process. -/
theorem detach_procs (s : ShmState σ) (id : BitVec 32) : (detach B s id).procs = s.procs := by
  rw [detach]
  split
  · rfl
  · split <;> rfl

/-- Detaching queues frames of segments only, and leaves no others in segments. -/
theorem detach_sources {B : FrameAllocator σ} {s : ShmState σ} :
    (f ∈ (detach B s id).frames.deferred → f ∈ s.frames.deferred ∨ f ∈ segmentFrames s.segments) ∧
      (f ∈ segmentFrames (detach B s id).segments → f ∈ segmentFrames s.segments) := by
  rw [detach]
  split
  · exact ⟨.inl, fun hf => hf⟩
  next seg hsegment =>
  split
  · refine ⟨fun hf => ?_, fun hf => ?_⟩
    · refine (mem_deferred_freeSegmentPages hf).imp_right fun hf => ?_
      exact mem_segmentFrames.mpr ⟨seg, (segment_eq_some hsegment).1, hf⟩
    · obtain ⟨x, hx, hf⟩ := mem_segmentFrames.mp hf
      exact mem_segmentFrames.mpr ⟨x, mem_of_mem_filter hx, hf⟩
  · refine ⟨.inl, fun hf => ?_⟩
    rw [modifySegment, segmentFrames_map] at hf
    · exact hf
    · intro x
      split <;> rfl

theorem detachAll_sources {B : FrameAllocator σ} {s : ShmState σ} {ids : List (BitVec 32)}
    (h : f ∈ (ids.foldl (detach B) s).frames.deferred) :
    f ∈ s.frames.deferred ∨ f ∈ segmentFrames s.segments := by
  induction ids generalizing s with
  | nil => exact .inl h
  | cons id ids ih =>
    rcases ih h with hf | hf
    · exact detach_sources.1 hf
    · exact .inr (detach_sources.2 hf)

/-- What `sys_shmdt` can do: nothing, or unmap pages, change the areas of the process and
detach the segment of the area it was called for. -/
theorem sysShmdt_cases (pid : ℕ) (addr : BitVec 64)
    (hs' : s' = after s (sysShmdt (logged A) s pid addr)) :
    ((∀ p v, s.proc pid = some p → ¬ Detaches p addr v) ∧ s' = s) ∨
    ∃ p v id t, s.proc pid = some p ∧ Detaches p addr v ∧ v.shmId = some id ∧
      s' = detach (logged A) t id ∧ t.segments = s.segments ∧
      t.frames.alloc = s.frames.alloc ∧ (∀ f ∈ t.loose, f ∈ s.loose) ∧ id ∈ s.attached ∧
      ((id :: t.attached).Perm s.attached ↔
        (takenIds addr v.stop p.vmas).Perm (id :: (splitId addr v.stop p.vmas).toList)) := by
  rw [sysShmdt] at hs'
  split at hs'
  · next hargs => exact .inl ⟨fun p v _ h => h.1 hargs, hs'⟩
  next hargs =>
  split at hs'
  · next hp => exact .inl ⟨fun p v hp' _ => by simp [hp] at hp', hs'⟩
  next p hp =>
  have hsame : ∀ {p'}, s.proc pid = some p' → p = p' :=
    fun hp' => Option.some.inj (hp.symm.trans hp')
  split at hs'
  · next hv =>
    refine .inl ⟨fun p' v hp' h => ?_, hs'⟩
    obtain rfl := hsame hp'
    cases hv.symm.trans h.2.1
  next v hv =>
  split at hs'
  · next hid =>
    refine .inl ⟨fun p' v' hp' h => ?_, hs'⟩
    obtain rfl := hsame hp'
    cases Option.some.inj (hv.symm.trans h.2.1)
    have hsome := h.2.2.1
    rw [hid] at hsome
    cases hsome
  next id hid =>
  obtain rfl : v.start = addr := by simpa using find?_some hv
  have hstop : v.start + (v.stop - v.start) = v.stop := by bv_omega
  dsimp only at hs'
  rw [hstop] at hs'
  have hends : ¬ (Extendable v.start ∧ Extendable (v.stop - 1)) →
      ∀ p' v', s.proc pid = some p' → ¬ Detaches p' v.start v' := by
    intro hends p' v' hp' h
    obtain rfl := hsame hp'
    cases Option.some.inj (hv.symm.trans h.2.1)
    exact hends h.2.2.2
  rcases virtAddrNew_eq v.start with ⟨hfirst, heq⟩ | ⟨hfirst, heq⟩
  · rcases virtAddrNew_eq (v.stop - 1) with ⟨hlast, heq'⟩ | ⟨hlast, heq'⟩
    · simp only [heq, heq', Outcome.ok_bind] at hs'
      obtain ⟨halloc, hloose⟩ := dropPages_spec (p.pages, s.frames)
        (pageRange (extended v.start) (extended (v.stop - 1)))
      have hsome : v.shmId.isSome := by simp [hid]
      refine .inr ⟨p, v, id, _, hp, ⟨hargs, hv, hsome, hfirst, hlast⟩, hid, hs', rfl, halloc,
        ?_, ?_, ?_⟩
      · intro f hf
        rcases mem_loose_set (s := s) rfl hf with hf | hf
        · exact mem_loose_of_proc hp (hloose hf)
        · exact hf
      · refine mem_collect hp (mem_filterMap.mpr ⟨v, ?_, hid⟩)
        exact mem_of_find?_eq_some hv
      · refine (attached_perm_iff hp rfl [id] []).trans ?_
        exact shmIds_removeVmaRange_perm_iff v.start v.stop p.vmas id
    · rw [heq, heq'] at hs'
      exact .inl ⟨hends fun h => hlast h.2, hs'⟩
  · rw [heq] at hs'
    exact .inl ⟨hends fun h => hfirst h.1, hs'⟩

variable (h : Inv A s)

include h

theorem sound_shmdt (hok : Permitted (logged A) s (.shmdt pid addr)) :
    Sound A marks s (after s (sysShmdt (logged A) s pid addr)) := by
  rcases sysShmdt_cases pid addr rfl with
    ⟨-, heq⟩ | ⟨p, v, id, t, hp, hdetaches, hid, heq, hsegments, halloc, hloose, -, htaken⟩
  · rw [heq]
    exact Sound.refl h
  have htakes := hok p hp v (mem_of_find?_eq_some hdetaches.2.1) hdetaches
  rw [hid] at htakes
  have hperm := htaken.mpr htakes
  rw [heq]
  have hbefore : Ledger A t.segments t.frames.alloc
      (id :: (detach (logged A) t id).attached) := by
    rw [hsegments, halloc, attached, detach_procs]
    exact h.ledger.congr hperm.count_eq
  obtain ⟨hledger, hevolves⟩ := hbefore.detach marks
  rw [hsegments, halloc] at hevolves
  refine ⟨hledger, hevolves, fun f hf => ?_⟩
  rw [loose, detach_procs] at hf
  rcases mem_append.mp hf with hf | hf
  · rcases detach_sources.1 hf with hf | hf
    · exact .inl (hloose f (mem_append_left _ hf))
    · exact .inr (hsegments ▸ hf)
  · exact .inl (hloose f (mem_append_right _ hf))

theorem permitted_of_lifetime_shmdt
    (hlife : Lifetime op s (after s (sysShmdt (logged A) s pid addr))) :
    Permitted (logged A) s (.shmdt pid addr) := by
  intro p' hp' v' _ hdetaches'
  rcases sysShmdt_cases pid addr rfl with
    ⟨hnone, -⟩ | ⟨p, v, id, t, hp, hdetaches, hid, heq, hsegments, -, -, hmem, htaken⟩
  · exact absurd hdetaches' (hnone p' v' hp')
  obtain rfl : p = p' := Option.some.inj (hp.symm.trans hp')
  obtain rfl : v = v' := Option.some.inj (hdetaches.2.1.symm.trans hdetaches'.2.1)
  have hprocs : t.attached = (detach (logged A) t id).attached := by
    rw [attached, attached, detach_procs]
  rw [hid, Option.toList_some, singleton_append, ← htaken, hprocs, ← heq]
  generalize after s (sysShmdt (logged A) s pid addr) = s' at hlife heq
  obtain ⟨seg, hseg, rfl⟩ := h.ledger.attached id hmem
  have hsegment : t.segment seg.id = some seg := by
    rw [ShmState.segment, hsegments]
    exact h.ledger.segment_eq hseg
  have hcount := h.ledger.counted seg hseg
  have hpos := count_pos_iff.mpr hmem
  have hnattch : seg.detached.nattch.toNat + 1 = s.attached.count seg.id := by
    have hne : seg.nattch ≠ 0 := fun hz => by simp [hz] at hcount; omega
    rw [ShmSegment.detached, if_neg hne, ← hcount]
    bv_omega
  rw [detach, hsegment] at heq
  dsimp only at heq
  have hself : s.attached.count seg.id = s'.attached.count seg.id + 1 := by
    split at heq
    · next hlast =>
      have hgone : Gone s'.segments seg := by
        intro x hx hxid
        rw [heq] at hx
        simp [destroySegment, hxid] at hx
      have hzero := (hlife.destroyed seg hseg hgone).2
      rw [← hnattch, hlast.1, hzero]
      rfl
    · have hkept : seg.detached ∈ s'.segments := by
        rw [heq]
        exact mem_map.mpr ⟨seg, hsegments ▸ hseg, if_pos rfl⟩
      have hafter := hlife.counted _ hkept
      rw [← hnattch, hafter]
      rfl
  refine perm_iff_count.mpr fun x => ?_
  by_cases hx : x = seg.id
  · subst hx
    rw [count_cons_self]
    exact hself.symm
  rw [count_cons_of_ne (Ne.symm hx)]
  refine count_attached_eq h hlife ?_ ?_ hx
  · intro y hy hne
    rw [heq]
    split
    · exact mem_filter.mpr ⟨hsegments ▸ hy, by simpa using hne⟩
    · exact mem_map.mpr ⟨y, hsegments ▸ hy, if_neg hne⟩
  · intro y hy
    rw [heq] at hy
    split at hy
    · exact ⟨y, hsegments ▸ mem_of_mem_filter hy, rfl⟩
    · obtain ⟨z, hz, rfl⟩ := mem_map.mp hy
      refine ⟨z, hsegments ▸ hz, ?_⟩
      split <;> rfl

theorem sound_rmid (caller : Caller) (shmid : BitVec 32) :
    Sound A (ShmOp.Marks · (.rmid caller shmid)) s (ipcRmid (logged A) s caller shmid).1 := by
  rw [ipcRmid]
  split
  · exact Sound.refl h
  next seg hsegment =>
  obtain ⟨hseg, rfl⟩ := segment_eq_some hsegment
  have hcount := h.ledger.counted seg hseg
  split
  · exact Sound.refl h
  split
  · exact Sound.refl h
  split
  · next hzero =>
    rw [hzero] at hcount
    obtain ⟨hledger, hevolves⟩ := h.ledger.destroy (ShmOp.Marks · (.rmid caller seg.id)) hseg
      (.inr rfl) hcount.symm fun _ _ => rfl
    refine ⟨hledger, hevolves, fun f hf => ?_⟩
    rcases mem_append.mp hf with hf | hf
    · rcases mem_deferred_freeSegmentPages hf with hf | hf
      · exact .inl (mem_append_left _ hf)
      · exact .inr (mem_segmentFrames.mpr ⟨seg, hseg, hf⟩)
    · exact .inl (mem_append_right _ hf)
  · next hne =>
    have hself : ∀ x ∈ s.segments, x.id = seg.id →
        x.nattch.toNat = s.attached.count seg.id ∧
          (true → s.attached.count seg.id ≠ 0) := by
      intro x hx hid
      obtain rfl := h.ledger.eq_of_id hx hseg hid
      exact ⟨hcount, fun _ hzero => hne (BitVec.eq_of_toNat_eq (hcount.trans hzero))⟩
    obtain ⟨hledger, hevolves⟩ := h.ledger.modify (ShmOp.Marks · (.rmid caller seg.id))
      (g := fun x => { x with deleted := true }) (fun _ => rfl) (fun _ => rfl)
      (fun _ _ _ => .inr rfl) (fun _ _ => rfl) ⟨seg, hseg, rfl⟩ hself
    exact ⟨hledger, hevolves, fun f hf => .inl hf⟩

/-- The areas and pages of a child are those of its parent. -/
theorem sound_fork (hok : Permitted (logged A) s (.fork pid failsAfter)) :
    Sound A marks s (fork s pid failsAfter) := by
  unfold fork
  split
  · exact Sound.refl h
  · next p n hp =>
    obtain ⟨halloc, hdeferred⟩ := foldl_increment_alloc (p.userFrames.take n) s.frames
    refine Sound.of_eq h rfl halloc rfl fun f hf => ?_
    rw [loose, hdeferred] at hf
    exact .inl hf
  · next p hp =>
    obtain ⟨halloc, hdeferred⟩ := foldl_increment_alloc p.userFrames s.frames
    refine Sound.of_eq h rfl halloc ?_ fun f hf => ?_
    · rw [attached, collect_append]
      simp [collect, hok rfl p hp, attached]
    · rw [loose, hdeferred, collect_append] at hf
      rcases mem_append.mp hf with hf | hf
      · exact .inl (mem_append_left _ hf)
      rcases mem_append.mp hf with hf | hf
      · exact .inl (mem_append_right _ hf)
      · refine .inl (mem_loose_of_proc hp (mem_append_right _ ?_))
        simpa [collect] using hf

theorem permitted_of_lifetime_fork (hlife : Lifetime op s (fork s pid failsAfter)) :
    Permitted (logged A) s (.fork pid failsAfter) := by
  rintro rfl p hp
  have hp : s.proc pid = some p := hp
  have hcounted := hlife.counted
  simp only [fork, hp] at hcounted
  refine eq_nil_iff_forall_not_mem.mpr fun id hid => ?_
  obtain ⟨seg, hseg, rfl⟩ := h.ledger.attached id (mem_collect hp hid)
  have hafter := hcounted seg hseg
  have hbefore := h.ledger.counted seg hseg
  have hpos := count_pos_iff.mpr hid
  simp only [attached, collect_append, count_append, collect, append_nil]
    at hafter hbefore
  omega

theorem sound_exit (pid : ℕ) : Sound A marks s (exit (logged A) s pid) := by
  rw [exit]
  split
  · exact Sound.refl h
  next p hp =>
  obtain ⟨hsegments, hframes⟩ := shmDetachAll_eq (logged A) s p.shmIds
  have hperm := collect_perm ShmProcess.shmIds hp
  have hbefore := h.ledger.congr fun id => (hperm.count_eq id).symm
  obtain ⟨hledger, hevolves⟩ := hbefore.detachAll marks
  rw [← hsegments, ← hframes] at hledger hevolves
  refine ⟨?_, ?_, fun f hf => ?_⟩
  · rw [foldl_decrement_alloc]
    exact hledger
  · rw [foldl_decrement_alloc]
    exact hevolves
  · rcases mem_append.mp hf with hf | hf
    · rcases mem_deferred_foldl_decrement hf with hf | hf
      · rw [hframes] at hf
        exact (detachAll_sources hf).imp_left (mem_append_left _)
      · refine .inl (mem_loose_of_proc hp (mem_append_right _ ?_))
        exact map_subset _ (filter_subset_self _) hf
    · obtain ⟨q, hq, hf⟩ := mem_collect_iff.mp hf
      refine .inl (mem_append_right _ (mem_collect_iff.mpr ⟨q, ?_, hf⟩))
      exact (mem_or_eq_of_mem_set hq).resolve_right nofun

theorem sound_drain (hok : Permitted (logged A) s .drain) :
    Sound A marks s { s with frames := s.frames.drainDeferred (logged A) } := by
  have hsame : s.frames.drainDeferred (logged A) = s.frames := by
    rw [Frames.drainDeferred, hok, foldl_nil, ← hok]
  rw [hsame]
  exact Sound.refl h

omit h in
/-- A frame that was freed is not freed again if all are freed once. -/
theorem not_freed_of_freedOnce {frames : List ℕ} {fr : Frames (σ × List FrameEvent)}
    (hf : f ∈ frames)
    (h : FreedOnce (frames.foldl (Frames.deallocateFrame (logged A)) fr).alloc.2) :
    freed fr.alloc.2 f = false := by
  have hsuffix : ∀ (frames : List ℕ) (fr : Frames (σ × List FrameEvent)),
      FreedOnce (frames.foldl (Frames.deallocateFrame (logged A)) fr).alloc.2 →
      FreedOnce fr.alloc.2 := by
    intro frames
    induction frames with
    | nil => exact fun fr h => h
    | cons g frames ih => exact fun fr h => (ih _ h).2
  obtain ⟨before, later, rfl⟩ := append_of_mem hf
  rw [foldl_append, foldl_cons] at h
  have hnot := (hsuffix later _ h).1
  by_contra hfreed
  rw [freed_deallocateAll.mpr (.inr (by simpa using hfreed))] at hnot
  cases hnot

/-- What is queued belongs to a registered segment or was freed already. -/
theorem permitted_of_lifetime_drain
    (hlife : Lifetime op s { s with frames := s.frames.drainDeferred (logged A) }) :
    Permitted (logged A) s .drain := by
  refine eq_nil_iff_forall_not_mem.mpr fun f hf => ?_
  rcases h.known f (mem_append_left _ hf) with hmem | hfreed
  · obtain ⟨seg, hseg, hf'⟩ := mem_segmentFrames.mp hmem
    have hkept := hlife.kept seg hseg f hf'
    have hdrained : freed (s.frames.drainDeferred (logged A)).alloc.2 f = true :=
      freed_deallocateAll.mpr (.inl hf)
    rw [hdrained] at hkept
    cases hkept
  · have hnot := not_freed_of_freedOnce hf hlife.once
    rw [hfreed] at hnot
    cases hnot

/-- The permitted steps keep to everything. -/
theorem sound_step (hok : Permitted (logged A) s op) :
    Sound A op.Marks s (step (logged A) s op) := by
  cases op with
  | shmget caller key size shmflg => exact sound_shmget h hok
  | shmat caller pid shmid shmaddr shmflg room => exact sound_shmat h hok
  | shmdt pid addr => exact sound_shmdt h hok
  | rmid caller shmid => exact sound_rmid h caller shmid
  | fork pid failsAfter => exact sound_fork h hok
  | exit pid => exact sound_exit h pid
  | drain => exact sound_drain h hok

theorem lifetime_step_iff (op : ShmOp) :
    Lifetime op s (step (logged A) s op) ↔ Permitted (logged A) s op := by
  refine ⟨fun hlife => ?_, fun hok => (sound_step h hok).lifetime⟩
  cases op with
  | shmget caller key size shmflg => exact permitted_of_lifetime_shmget h hlife
  | shmat caller pid shmid shmaddr shmflg room => exact permitted_of_lifetime_shmat h hlife
  | shmdt pid addr => exact permitted_of_lifetime_shmdt h hlife
  | rmid caller shmid => exact trivial
  | fork pid failsAfter => exact permitted_of_lifetime_fork h hlife
  | exit pid => exact trivial
  | drain => exact permitted_of_lifetime_drain h hlife

end Step

/-! ### Runs -/

def boot (managed : ℕ) (areas : List (List Vma)) (alloc : σ) :
    ShmState (σ × List FrameEvent) where
  segments := []
  keyMap := fun _ => none
  nextId := 1
  nextAddr := 0x400000000000
  procs := areas.map fun vmas => some ⟨vmas, []⟩
  frames := ⟨fun _ => 0, managed, [], (alloc, [])⟩

theorem inv_boot {A : FrameAllocator σ} (managed : ℕ) {areas : List (List Vma)} {alloc : σ}
    (hvalid : A.Valid alloc) (honce : ∀ f, A.free alloc f ≤ 1)
    (hareas : ∀ vmas ∈ areas, ∀ v ∈ vmas, v.shmId = none) : Inv A (boot managed areas alloc) := by
  have hattached : (boot managed areas alloc).attached = [] := by
    refine eq_nil_iff_forall_not_mem.mpr fun id hid => ?_
    obtain ⟨p, hp, hid⟩ := mem_collect_iff.mp hid
    obtain ⟨vmas, hvmas, heq⟩ := mem_map.mp hp
    cases heq
    obtain ⟨v, hv, hid⟩ := mem_filterMap.mp hid
    rw [hareas vmas hvmas v hv] at hid
    cases hid
  refine ⟨⟨⟨⟨hvalid, trivial, fun f hf => (by cases hf)⟩, fun f hf => ?_, fun f => ?_, fun f => ?_⟩,
    forall_mem_nil _, nodup_nil, forall_mem_nil _, ?_, forall_mem_nil _⟩,
    fun f hf => ?_⟩
  · rcases hf with hf | hf | ⟨hf, -⟩ <;> cases hf
  · have hone := honce f
    have hfree : (logged A).free (alloc, []) f = A.free alloc f := rfl
    simp only [boot, segmentFrames, flatMap_nil, count_nil, hfree]
    omega
  · exact .inl (Nat.zero_le _)
  · rw [hattached]
    exact forall_mem_nil _
  · rcases mem_append.mp hf with hf | hf
    · cases hf
    · obtain ⟨p, hp, hf⟩ := mem_collect_iff.mp hf
      obtain ⟨vmas, hvmas, heq⟩ := mem_map.mp hp
      cases heq
      cases hf

/-- Every run keeps to the lifetime of segments exactly if all its steps are permitted. -/
theorem lifetime_iff_permitted (A : FrameAllocator σ) (managed : ℕ) {areas : List (List Vma)}
    {alloc : σ} (hvalid : A.Valid alloc) (honce : ∀ f, A.free alloc f ≤ 1)
    (hareas : ∀ vmas ∈ areas, ∀ v ∈ vmas, v.shmId = none) (ops : List ShmOp) :
    Along (step (logged A)) (fun s op => Lifetime op s (step (logged A) s op))
        (boot managed areas alloc) ops ↔
      Along (step (logged A)) (Permitted (logged A)) (boot managed areas alloc) ops :=
  along_iff_of_inv (I := Inv A) (fun _ op h => lifetime_step_iff h op)
    (fun _ _ h hok => (sound_step h hok).inv h) (inv_boot managed hvalid honce hareas)

section Runs

def root : Caller := ⟨0, 0, 0, true⟩

/-- One process makes a segment, both attach it, it is marked for removal, and it is destroyed when
the last of them exits. -/
def sharedRun : List ShmOp :=
  [.shmget root 5 4096 0o1666, .shmat root 0 1 0 0 1, .shmat root 1 1 0x10000 0 1, .drain,
    .rmid root 1, .shmdt 0 0x400000000000, .exit 1]

theorem lifetime_sharedRun :
    Along (step (logged buddyFrameAllocator))
      (fun s op => Lifetime op s (step (logged buddyFrameAllocator) s op))
      (boot 32 [[], []] bootArena) sharedRun :=
  (lifetime_iff_permitted buddyFrameAllocator 32 bootArena_inv (freeCount_le_one bootArena_inv)
    (by simp) sharedRun).mpr (by decide +kernel)

/-- A segment is attached and detached again, then the queue is drained. -/
def detachedRun : List ShmOp :=
  [.shmget root 5 4096 0o1666, .shmat root 0 1 0 0 1, .shmdt 0 0x400000000000, .drain]

theorem detachedRun_loses_frames :
    ¬ Along (step (logged buddyFrameAllocator))
      (fun s op => Lifetime op s (step (logged buddyFrameAllocator) s op))
      (boot 32 [[]] bootArena) detachedRun := by
  intro halong
  -- the segment is registered, and its frame was freed
  have hlost : ¬ ∀ seg ∈ (detachedRun.foldl (step (logged buddyFrameAllocator))
        (boot 32 [[]] bootArena)).segments, ∀ f ∈ seg.pages,
      freed (detachedRun.foldl (step (logged buddyFrameAllocator))
        (boot 32 [[]] bootArena)).frames.alloc.2 f = false := by decide +kernel
  exact hlost halong.2.2.2.1.kept

end Runs

end Vahi.Syscalls.Shm
