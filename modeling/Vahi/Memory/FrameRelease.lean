import Vahi.Memory.CowIsolation

/-!
# Release of frames

Frames go back by the deferred queue, the destruction of address spaces, `Isolate::munmap`
(`crates/memory/src/isolate.rs`) and `kill_victim` (`kernel/src/task/oom.rs`). The last two do so at
once, also when the frame is in the queue.
-/

namespace Vahi.Memory

open Vahi.Lib CowState List Frames

open Radix (leaves tags)

variable {σ α : Type}

inductive FrameEvent where
  | alloc (f : ℕ)
  | free (f : ℕ)
  deriving DecidableEq

def FrameEvent.frame : FrameEvent → ℕ
  | .alloc f | .free f => f

/-- The last event of a frame, in a log with the last event first, is that it was freed. -/
def freed (log : List FrameEvent) (f : ℕ) : Bool :=
  log.find? (·.frame = f) = some (.free f)

def FreedOnce : List FrameEvent → Prop
  | [] => True
  | .alloc _ :: log => FreedOnce log
  | .free f :: log => freed log f = false ∧ FreedOnce log

instance FreedOnce.decidable : DecidablePred FreedOnce
  | [] => inferInstanceAs (Decidable True)
  | .alloc _ :: log => FreedOnce.decidable log
  | .free f :: log =>
    have := FreedOnce.decidable log
    inferInstanceAs (Decidable (freed log f = false ∧ FreedOnce log))

theorem freed_cons_self_alloc (log : List FrameEvent) (f : ℕ) :
    freed (.alloc f :: log) f = false := by
  simp [freed, FrameEvent.frame]

theorem freed_cons_self_free (log : List FrameEvent) (f : ℕ) : freed (.free f :: log) f = true := by
  simp [freed, FrameEvent.frame]

theorem freed_cons_of_ne {log : List FrameEvent} {e : FrameEvent} {f : ℕ} (h : e.frame ≠ f) :
    freed (e :: log) f = freed log f := by
  simp [freed, h]

variable (A : FrameAllocator σ) (s : CowState σ α)

/-- The allocator with a log of its calls. A frame that was freed is not held any more. -/
def logged : FrameAllocator (σ × List FrameEvent) where
  allocate s := (A.allocate s.1).map fun r => (r.1, (r.2, .alloc r.1 :: s.2))
  deallocate f s := (A.deallocate f s.1, .free f :: s.2)
  free s := A.free s.1
  Held s f := A.Held s.1 f ∧ freed s.2 f = false
  Valid s := A.Valid s.1 ∧ FreedOnce s.2 ∧ ∀ f, freed s.2 f = true → 1 ≤ A.free s.1 f
  valid_allocate := by
    rintro ⟨s, log⟩ f s' ⟨hvalid, honce, hfree⟩ h
    obtain ⟨⟨g, t⟩, hg, heq⟩ := Option.map_eq_some_iff.mp h
    cases heq
    refine ⟨A.valid_allocate hvalid hg, honce, fun x hx => ?_⟩
    by_cases hne : g = x
    · subst hne
      rw [freed_cons_self_alloc] at hx
      cases hx
    · have hle := hfree x (by rwa [freed_cons_of_ne (e := .alloc g) hne] at hx)
      rw [A.free_allocate hvalid hg, count_singleton, if_neg (by simpa using hne)] at hle
      exact hle
  free_allocate := by
    rintro ⟨s, log⟩ f s' ⟨hvalid, -, -⟩ h x
    obtain ⟨⟨g, t⟩, hg, heq⟩ := Option.map_eq_some_iff.mp h
    cases heq
    exact A.free_allocate hvalid hg x
  held_allocate := by
    rintro ⟨s, log⟩ f s' ⟨hvalid, -, -⟩ h x hx
    obtain ⟨⟨g, t⟩, hg, heq⟩ := Option.map_eq_some_iff.mp h
    cases heq
    refine ⟨A.held_allocate hvalid hg x (hx.imp_right And.left), ?_⟩
    by_cases hne : g = x
    · subst hne
      exact freed_cons_self_alloc _ _
    · rw [freed_cons_of_ne (e := .alloc g) hne]
      exact (hx.resolve_left (Ne.symm hne)).2
  valid_deallocate := by
    rintro ⟨s, log⟩ f ⟨hvalid, honce, hfree⟩ ⟨hheld, hnot⟩
    refine ⟨A.valid_deallocate hvalid hheld, ⟨hnot, honce⟩, fun x hx => ?_⟩
    have hcount := A.free_deallocate hvalid hheld x
    by_cases hne : f = x
    · subst hne
      rw [count_singleton_self] at hcount
      exact hcount ▸ Nat.le_add_left _ _
    · have hle := hfree x (by rwa [freed_cons_of_ne (e := .free f) hne] at hx)
      exact hcount ▸ hle.trans (Nat.le_add_right _ _)
  free_deallocate := by
    rintro ⟨s, log⟩ f ⟨hvalid, -, -⟩ ⟨hheld, -⟩ x
    exact A.free_deallocate hvalid hheld x
  held_deallocate := by
    rintro ⟨s, log⟩ f ⟨hvalid, -, -⟩ ⟨hheld, -⟩ x hne ⟨hx, hnot⟩
    exact ⟨A.held_deallocate hvalid hheld x hne hx, by
      rwa [freed_cons_of_ne (e := .free f) (Ne.symm hne)]⟩

/-- `mapper.unmap`: the entry of a page that is mapped is cleared. -/
def unmapPage (i : ℕ) (path : List ℕ) : Option (ℕ × CowState σ α) := do
  let t ← s.space i
  let e ← Radix.get 4 t path
  guard e.isFrame
  return (e.frame, { s with spaces := s.spaces.set i (Radix.erase 4 t path) })

/-- One page of `Isolate::munmap`: the count drops, and the frame goes back in any case. -/
def munmapPage (i : ℕ) (s : CowState σ α) (path : List ℕ) : CowState σ α :=
  match unmapPage s i path with
  | some (f, s) => { s with frames := (s.frames.decrement f).deallocateFrame A f }
  | none => s

/-- A frame goes back only if the allocator does not have it already. -/
def freeFrame (fr : Frames σ) (f : ℕ) : Frames σ :=
  if A.free fr.alloc f = 0 then fr.deallocateFrame A f else fr

/-- One page of the areas of a victim of the OOM killer. -/
def oomPage (i : ℕ) (s : CowState σ α) (path : List ℕ) : CowState σ α :=
  match (s.entry i path).filter (·.isFrame) with
  | none => s
  | some e =>
    if s.frames.count e.frame = 1 then
      match unmapPage s i path with
      | some (f, s) => { s with frames := freeFrame A (s.frames.decrement f) f }
      | none => s
    else s

/-- `map_to` of a new frame. The page fault handler counts the reference, whether or not the page
could be mapped; `Isolate::mmap_at` does not. -/
def mapPage (i : ℕ) (path : List ℕ) (flags : BitVec 64) (counted : Bool) : CowState σ α :=
  match s.space i, s.frames.allocateFrame A with
  | some t, some (f, fr) =>
    let r := Radix.insert (Frames.allocateFrame A) 512 ⟨f, flags ||| 1⟩ 4 (some t) path fr
    { s with
      spaces := s.spaces.set i r.tree
      frames := if counted then r.source.increment f else r.source }
  | _, _ => s

/-- `AddressSpace::new`: an empty table, the user half of which is kept here. -/
def newSpace : CowState σ α :=
  match s.frames.allocateFrame A with
  | some (f, fr) =>
    { s with spaces := s.spaces ++ [some ⟨f, List.replicate 256 none⟩], frames := fr }
  | none => s

inductive ReleaseOp (α : Type) where
  /-- A fork, a copy-on-write fault, the end of an address space, or a drain of the queue. -/
  | cow (op : CowOp α)
  | newSpace
  | mapPage (i : ℕ) (path : List ℕ) (flags : BitVec 64) (counted : Bool)
  | munmap (i : ℕ) (paths : List (List ℕ))
  | oomKill (i : ℕ) (paths : List (List ℕ))

def releaseStep : ReleaseOp α → CowState σ α
  | .cow op => step A s op
  | .newSpace => newSpace A s
  | .mapPage i path flags counted => mapPage A s i path flags counted
  | .munmap i paths => paths.foldl (munmapPage A i) s
  | .oomKill i paths => paths.foldl (oomPage A i) s

structure NoDoubleFree (s : CowState (σ × List FrameEvent) α) : Prop where
  once : FreedOnce s.frames.alloc.2
  unmapped : ∀ f ∈ s.mapped, freed s.frames.alloc.2 f = false

/-- The page is not mapped, or its frame has no other mapping and a count other than one. -/
def ReleaseOk (i : ℕ) (s : CowState σ α) (path : List ℕ) : Prop :=
  ∀ r ∈ unmapPage s i path,
    r.1 < s.frames.managed ∧ s.frames.counts r.1 ≠ 1 ∧ r.1 ∉ r.2.mapped

instance (i : ℕ) (s : CowState σ α) (path : List ℕ) : Decidable (ReleaseOk i s path) :=
  inferInstanceAs (Decidable (∀ r ∈ unmapPage s i path, _))

/-- Counts are right before a fork; `Isolate::munmap` releases pages that have no count and are
mapped once; the OOM killer finds no page with count one. -/
def ReleasePermitted : ReleaseOp α → Prop
  | .cow op => ForkSafe s op
  | .newSpace => True
  | .mapPage .. => True
  | .munmap i paths => Along (munmapPage A i) (ReleaseOk i) s paths
  | .oomKill i paths => ∀ path ∈ paths, ∀ e ∈ s.entry i path, e.isFrame → s.frames.count e.frame ≠ 1

instance (A : FrameAllocator σ) (s : CowState σ α) (op : ReleaseOp α) :
    Decidable (ReleasePermitted A s op) :=
  match op with
  | .cow op => inferInstanceAs (Decidable (ForkSafe s op))
  | .newSpace | .mapPage .. => inferInstanceAs (Decidable True)
  | .munmap i paths => inferInstanceAs (Decidable (Along (munmapPage A i) (ReleaseOk i) s paths))
  | .oomKill i paths => inferInstanceAs (Decidable (∀ path ∈ paths, ∀ e ∈ s.entry i path, _))

namespace Accounted

variable {A : FrameAllocator σ} {mapped tables : List ℕ} {fr : Frames σ} {f : ℕ}

/-- A frame that is mapped once and whose count is not one loses its mapping: it is in no queue,
and may be given back like a table. -/
theorem unmap (h : Accounted A (f :: mapped) tables fr) (hmanaged : f < fr.managed)
    (hcount : fr.counts f ≠ 1) (hf : f ∉ mapped) :
    Accounted A mapped (f :: tables) (fr.decrement f) := by
  have hdeferred : (fr.decrement f).deferred = fr.deferred := by
    rw [deferred_decrement hmanaged, if_neg hcount]
  have hzero : mapped.count f = 0 := count_eq_zero.mpr hf
  refine ⟨by rw [decrement_alloc]; exact h.valid, fun x hx => ?_, fun x => ?_, fun x => ?_⟩
  · rw [decrement_alloc]
    rw [hdeferred, decrement_managed] at hx
    rcases hx with hx | hx | ⟨hx, hm⟩
    · exact h.held x (.inl hx)
    · rcases mem_cons.mp hx with rfl | hx
      · exact h.held x (.inr (.inr ⟨mem_cons_self, hmanaged⟩))
      · exact h.held x (.inr (.inl hx))
    · exact h.held x (.inr (.inr ⟨mem_cons_of_mem f hx, hm⟩))
  · have honce := h.once x
    rw [decrement_alloc, hdeferred]
    by_cases hx : f = x
    · subst hx
      rw [count_cons_self] at honce ⊢
      omega
    · rw [count_cons_of_ne hx] at honce ⊢
      exact honce
  · rw [decrement_managed]
    by_cases hx : x = f
    · subst hx
      exact .inl (by omega)
    · rw [counts_decrement_of_ne fr hx]
      have hcounted := h.counted x
      rwa [count_cons_of_ne (Ne.symm hx)] at hcounted

/-- Counting a frame that is mapped at most once. -/
theorem increment_once (h : Accounted A mapped tables fr) (hf : mapped.count f ≤ 1) :
    Accounted A mapped tables (fr.increment f) := by
  rw [increment_eq]
  refine ⟨h.valid, h.held, h.once, fun x => ?_⟩
  by_cases hx : x = f
  · exact .inl (hx ▸ hf)
  · rw [counts_increment_of_ne fr hx]
    exact h.counted x

end Accounted

section Step

variable {A : FrameAllocator σ} {s : CowState σ α} {i : ℕ} {path : List ℕ} {t : AddressSpace}

/-- The frames that an address space maps, if there is one. -/
theorem collect_mappedFrames (slot : Option AddressSpace) :
    collect spaceFrames [slot] = mappedFrames (collect (leaves 4) [slot]) := by
  cases slot with
  | none => rfl
  | some t => simp [collect]

/-- What a page that is unmapped leaves behind. -/
theorem unmapPage_spec {f : ℕ} {s' : CowState σ α} (h : unmapPage s i path = some (f, s')) :
    s.mapped.Perm (f :: s'.mapped) ∧ s'.tables = s.tables ∧ s'.frames = s.frames := by
  obtain ⟨t, ht, h⟩ := Option.bind_eq_some_iff.mp h
  obtain ⟨e, he, h⟩ := Option.bind_eq_some_iff.mp h
  obtain ⟨_, hframe, h⟩ := Option.bind_eq_some_iff.mp h
  cases h
  have hpresent : e.present = true :=
    (Bool.and_eq_true_iff.mp ((Option.guard_eq_some' _).mp hframe)).1
  obtain ⟨m₁, m₂, hm, -, hm'⟩ := Radix.leaves_split he
  refine ⟨?_, ?_, rfl⟩
  · obtain ⟨l₁, l₂, hl, hl'⟩ := collect_set spaceFrames ht
    have hsplit : spaceFrames t = mappedFrames m₁ ++ e.frame :: mappedFrames m₂ := by
      rw [spaceFrames, hm, mappedFrames_append, ← singleton_append, mappedFrames_append,
        mappedFrames_singleton, if_pos hpresent, singleton_append]
    rw [mapped, mapped, hl, hl', collect_mappedFrames, hm', hsplit, mappedFrames_append]
    simpa using @perm_middle _ e.frame (l₁ ++ mappedFrames m₁) (mappedFrames m₂ ++ l₂)
  · obtain ⟨l₁, l₂, hl, hl'⟩ := collect_set (tags 4) ht
    rw [tables, tables, hl, hl', Radix.tags_erase]

namespace Accounted

theorem munmapPage (h : s.Accounts A) (hok : ReleaseOk i s path) :
    (munmapPage A i s path).Accounts A := by
  rw [Memory.munmapPage]
  split
  · next f s' hunmap =>
    obtain ⟨hmapped, htables, hframes⟩ := unmapPage_spec hunmap
    obtain ⟨hmanaged, hcount, hsole⟩ := hok (f, s') hunmap
    have hbefore : Accounted A (f :: s'.mapped) s'.tables s'.frames := by
      rw [htables, hframes]
      exact h.perm hmapped (List.Perm.refl _)
    rw [← hframes] at hmanaged hcount
    exact (hbefore.unmap hmanaged hcount hsole).deallocateFrame
  · exact h

variable {paths : List (List ℕ)}

theorem munmap (h : s.Accounts A) (hok : Along (Memory.munmapPage A i) (ReleaseOk i) s paths) :
    (paths.foldl (Memory.munmapPage A i) s).Accounts A := by
  induction paths generalizing s with
  | nil => exact h
  | cons path paths ih => exact ih (h.munmapPage hok.1) hok.2

theorem newSpace (h : s.Accounts A) : (newSpace A s).Accounts A := by
  rw [Memory.newSpace]
  split
  · next f fr ha =>
    refine (h.allocateFrame ha).perm ?_ ?_
    · rw [mapped, mapped, collect_append]
      simp [collect, leaves, mappedFrames]
    · rw [tables, tables, collect_append]
      exact (perm_append_singleton f _).symm
  · exact h

/-- An insertion of an entry for a frame that is held, into one of the address spaces. -/
theorem insert {f : ℕ} {fr : Frames σ} (h : Accounted A s.mapped (f :: s.tables) fr)
    (ht : s.space i = some t) (path : List ℕ) {e : PageEntry} (hf : e.frame = f)
    (he : e.present = true) {r : Radix.Inserted (Frames σ) AddressSpace}
    (hr : r = Radix.insert (Frames.allocateFrame A) 512 e 4 (some t) path fr) :
    Accounted A (collect spaceFrames (s.spaces.set i r.tree))
        (collect (tags 4) (s.spaces.set i r.tree)) r.source ∧
      (collect spaceFrames (s.spaces.set i r.tree)).count f ≤ 1 := by
  obtain ⟨htags, hleaves⟩ := Radix.insert_spec (J := fun l fr => Accounted A s.mapped l fr)
    (fun l l' fr hperm hl => hl.perm (List.Perm.refl _) hperm)
    (fun l fr f fr' ha hl => hl.allocateFrame ha) 512 e 4 (some t) path fr
  rw [← hr] at htags hleaves
  obtain ⟨l₁, l₂, hl, hl'⟩ := collect_set (tags 4) ht
  obtain ⟨m₁, m₂, hm, hm'⟩ := collect_set spaceFrames ht
  have hbefore : Accounted A s.mapped (collect (tags 4) [some t] ++ f :: (l₁ ++ l₂)) fr := by
    refine h.perm (List.Perm.refl _) ?_
    refine perm_iff_count.mpr fun x => ?_
    rw [tables, hl]
    simp only [collect, count_append, count_cons, count_nil]
    omega
  have hafter : Accounted A s.mapped (f :: collect (tags 4) (s.spaces.set i r.tree))
      r.source := by
    refine (htags _ hbefore).perm (List.Perm.refl _) ?_
    refine perm_iff_count.mpr fun x => ?_
    rw [hl']
    simp only [count_append, count_cons]
    omega
  have hunmapped : s.mapped.count f = 0 := by
    have honce := hafter.once f
    rw [count_cons_self] at honce
    omega
  have hnew (x : ℕ) : (collect spaceFrames (s.spaces.set i r.tree)).count x =
      (if r.done then [f] else []).count x + s.mapped.count x := by
    have hleaf : (mappedFrames (collect (leaves 4) [r.tree])).Perm
        ((if r.done then [f] else []) ++ spaceFrames t) := by
      have hmap := (hleaves.filter (·.present)).map (·.frame)
      cases hdone : r.done with
      | true => simpa [mappedFrames, collect, hdone, he, hf] using hmap
      | false => simpa [mappedFrames, collect, hdone] using hmap
    rw [mapped, hm, hm', collect_mappedFrames]
    simp only [count_append, hleaf.count_eq]
    omega
  cases hdone : r.done with
  | true =>
    simp only [hdone, if_true] at hnew
    refine ⟨hafter.retype.perm (perm_iff_count.mpr fun x => ?_) (List.Perm.refl _), ?_⟩
    · rw [hnew, count_cons, count_singleton]
      omega
    · rw [hnew, count_singleton_self]
      omega
  | false =>
    simp only [hdone, Bool.false_eq_true, if_false, count_nil, Nat.zero_add] at hnew
    refine ⟨hafter.mono (fun x => (hnew x).le) fun x => count_le_count_cons, ?_⟩
    rw [hnew]
    omega

/-- A new frame is mapped, and perhaps new tables on the way to its entry. -/
theorem mapPage (h : s.Accounts A) (i : ℕ) (path : List ℕ) (flags : BitVec 64) (counted : Bool) :
    (mapPage A s i path flags counted).Accounts A := by
  unfold Memory.mapPage
  split
  · next t f fr ht ha =>
    have hpresent : PageEntry.present ⟨f, flags ||| 1⟩ = true := by simp [PageEntry.present]
    obtain ⟨hmapped, honce⟩ := (h.allocateFrame ha).insert ht path rfl hpresent rfl
    cases counted with
    | true => exact hmapped.increment_once honce
    | false => exact hmapped
  · exact h

/-- The OOM killer does nothing to pages whose count is not one. -/
theorem oomKill (s : CowState σ α)
    (hok : ∀ path ∈ paths, ∀ e ∈ s.entry i path, e.isFrame → s.frames.count e.frame ≠ 1) :
    paths.foldl (oomPage A i) s = s := by
  induction paths with
  | nil => rfl
  | cons path paths ih =>
    obtain ⟨hpath, hpaths⟩ := forall_mem_cons.mp hok
    have hsame : oomPage A i s path = s := by
      rw [oomPage]
      split
      · rfl
      · next e he =>
        obtain ⟨hentry, hframe⟩ := Option.filter_eq_some_iff.mp he
        exact if_neg (hpath e hentry hframe)
    rw [foldl_cons, hsame]
    exact ih hpaths

/-- Every permitted step keeps the frames accounted for. -/
theorem releaseStep (h : s.Accounts A) {op : ReleaseOp α} (hop : ReleasePermitted A s op) :
    (releaseStep A s op).Accounts A := by
  cases op with
  | cow op => exact h.step hop
  | newSpace => exact h.newSpace
  | mapPage i path flags counted => exact h.mapPage i path flags counted
  | munmap i paths => exact h.munmap hop
  | oomKill i paths =>
    rw [Memory.releaseStep, oomKill s hop]
    exact h

end Accounted

end Step

/-- Frames that are accounted for with a log were freed once, and none of them is mapped. -/
theorem Accounted.noDoubleFree {A : FrameAllocator σ} {s : CowState (σ × List FrameEvent) α}
    (h : s.Accounts (logged A)) : NoDoubleFree s := by
  obtain ⟨-, honce, hfree⟩ := h.valid
  refine ⟨honce, fun f hf => ?_⟩
  by_contra hfreed
  have hlisted := hfree f (by simpa using hfreed)
  have huse := h.once f
  have hmapped := count_pos_iff.mpr hf
  have hsame : (logged A).free s.frames.alloc f = A.free s.frames.alloc.1 f := rfl
  omega

def bootFrames (managed : ℕ) (memory : ℕ → α) (alloc : σ) : CowState (σ × List FrameEvent) α where
  spaces := []
  frames := ⟨fun _ => 0, managed, [], (alloc, [])⟩
  memory := memory

/-- In every run in which `Isolate::munmap` and the OOM killer meet no page with count one and
the counts are right before each fork, no frame is freed twice or while it is mapped. -/
theorem noDoubleFree_of_permitted (A : FrameAllocator σ) (managed : ℕ) (memory : ℕ → α) {alloc : σ}
    (hvalid : A.Valid alloc) (honce : ∀ f, A.free alloc f ≤ 1) {ops : List (ReleaseOp α)}
    (hops : Along (releaseStep (logged A)) (ReleasePermitted (logged A))
      (bootFrames managed memory alloc) ops) :
    Along (releaseStep (logged A)) (fun s op => NoDoubleFree (releaseStep (logged A) s op))
      (bootFrames managed memory alloc) ops := by
  refine along_of_inv (I := Accounts (logged A)) ?_ ?_ hops
  · intro s op h hop
    exact ⟨(h.releaseStep hop).noDoubleFree, h.releaseStep hop⟩
  · refine ⟨⟨hvalid, trivial, fun f hf => by cases hf⟩, fun f hf => ?_, fun f => ?_, fun f => ?_⟩
    · rcases hf with hf | hf | ⟨hf, -⟩ <;> cases hf
    · have hfree : (logged A).free (alloc, []) f = A.free alloc f := rfl
      have hone := honce f
      simp only [bootFrames, tables, mapped, collect, count_nil, hfree]
      omega
    · exact .inl (Nat.zero_le _)

section Boot

/-- A page is counted and shared with a fork, another is mapped without a count and unmapped. -/
def mixedRun : List (ReleaseOp Unit) :=
  [.newSpace, .mapPage 0 [0, 0, 0, 0] 6 true, .cow (.fork 0), .cow (.exit 0),
    .mapPage 1 [1, 0, 0, 0] 6 false, .munmap 1 [[1, 0, 0, 0]], .cow (.exit 1), .cow .drain]

theorem noDoubleFree_mixedRun :
    Along (releaseStep (logged buddyFrameAllocator))
      (fun s op => NoDoubleFree (releaseStep (logged buddyFrameAllocator) s op))
      (bootFrames 32 (fun _ => ()) bootArena) mixedRun :=
  noDoubleFree_of_permitted buddyFrameAllocator 32 (fun _ => ()) bootArena_inv
    (freeCount_le_one bootArena_inv) (by decide +kernel)

/-- A page that was counted is unmapped by `Isolate::munmap`, then the queue is drained. -/
def countedMunmap : List (ReleaseOp Unit) :=
  [.newSpace, .mapPage 0 [0, 0, 0, 0] 6 true, .munmap 0 [[0, 0, 0, 0]], .cow .drain]

theorem countedMunmap_freedTwice :
    ¬ Along (releaseStep (logged buddyFrameAllocator))
      (fun s op => NoDoubleFree (releaseStep (logged buddyFrameAllocator) s op))
      (bootFrames 32 (fun _ => ()) bootArena) countedMunmap := by
  intro halong
  have hlast := Along.foldl (Q := NoDoubleFree) halong
    (by rw [countedMunmap]; exact cons_ne_nil _ _)
  have htwice : ¬ FreedOnce (countedMunmap.foldl (releaseStep (logged buddyFrameAllocator))
    (bootFrames 32 (fun _ => ()) bootArena)).frames.alloc.2 := by decide +kernel
  generalize countedMunmap.foldl (releaseStep (logged buddyFrameAllocator))
    (bootFrames 32 (fun _ => ()) bootArena) = s at hlast htwice
  exact htwice hlast.once

end Boot

end Vahi.Memory
