import Vahi.Memory.FrameRelease
import Vahi.Syscalls.MmapZero

/-!
# Page faults and shared mappings

The page fault handler (`kernel/src/interrupts/page_fault.rs`): `handle_cow`, then demand paging.
Neither `clone_cow` nor the handler looks at `is_shared` or `shm_id`, so a page of a shared mapping
becomes copy-on-write, or gets a frame of its own in each process.
-/

namespace Vahi.Interrupts

open Vahi.Lib Vahi.Memory Vahi.Task Vahi.Syscalls Function CowState
open Option (bind_eq_some_iff)

variable {σ α : Type}

/-- The address spaces, by number, and the areas and break of the process of each. -/
structure Processes (σ α : Type) where
  pages : CowState σ α
  areas : ℕ → ProcessMemory

def pagePath (addr : BitVec 64) : List ℕ :=
  [addr.toNat / 2 ^ 39 % 512, addr.toNat / 2 ^ 30 % 512, addr.toNat / 2 ^ 21 % 512,
    addr.toNat / 2 ^ 12 % 512]

/-- The flags of a page that is mapped on demand, for an address in an area or in the heap. -/
def demandFlags (m : ProcessMemory) (addr : BitVec 64) : Option (BitVec 64) :=
  match findVma m.vmas addr with
  | some v => some (v.flags ||| (if addr < 0x800000000000 then 4 else 0))
  | none => if 0x600000000000 ≤ addr ∧ addr < m.brk then some 7 else none

/-- A new frame is filled with zeros and mapped; nothing looks at what `map_to` returns. -/
def demandPage (A : FrameAllocator σ) (zero : α) (s : CowState σ α) (i : ℕ) (path : List ℕ)
    (flags : BitVec 64) : CowState σ α :=
  match s.frames.allocateFrame A with
  | some (f, _) =>
    { mapPage A s i path flags true with memory := update s.memory f zero }
  | none => s

def attachPage (A : FrameAllocator σ) (s : CowState σ α) (i : ℕ) (path : List ℕ) (e : PageEntry) :
    CowState σ α :=
  match s.space i with
  | some t =>
    let r := Radix.insert (Frames.allocateFrame A) 512 e 4 (some t) path s.frames
    { s with
      spaces := s.spaces.set i r.tree
      frames := if r.done then r.source.increment e.frame else r.source }
  | none => s

namespace Processes

def entry (s : Processes σ α) (i : ℕ) (addr : BitVec 64) : Option PageEntry :=
  s.pages.entry i (pagePath addr)

def present (s : Processes σ α) (i : ℕ) (addr : BitVec 64) : Bool := (s.entry i addr).any (·.present)

def writable (s : Processes σ α) (i : ℕ) (addr : BitVec 64) : Bool :=
  (s.entry i addr).any fun e => e.present && e.writable

def view (s : Processes σ α) (i : ℕ) (addr : BitVec 64) : Option α := s.pages.view i (pagePath addr)

/-- `page_fault_handler` for a fault of process `i`; `allowed` says that overcommit and the control
group permit a page. The state stays as it is when the fault is not resolved. -/
def pageFault (A : FrameAllocator σ) (zero : α) (s : Processes σ α) (i : ℕ) (addr : BitVec 64)
    (allowed : Bool) : Processes σ α :=
  match (s.pages.space i).bind (handleCow A · (pagePath addr) s.pages.frames s.pages.memory) with
  | some r => { s with pages := ⟨s.pages.spaces.set i (some r.space), r.frames, r.memory⟩ }
  | none =>
    -- a fault on a page that is present is a protection violation
    if s.present i addr then s
    else
      match demandFlags (s.areas i) addr with
      | some flags =>
        if allowed then { s with pages := demandPage A zero s.pages i (pagePath addr) flags } else s
      | none => s

def beforeWrite (A : FrameAllocator σ) (zero : α) (s : Processes σ α) (i : ℕ) (addr : BitVec 64)
    (allowed : Bool) : Processes σ α :=
  if s.writable i addr then s else s.pageFault A zero i addr allowed

end Processes

inductive PageOp (α : Type) where
  | fork (i : ℕ)
  | load (i : ℕ) (addr : BitVec 64) (allowed : Bool)
  | write (i : ℕ) (addr : BitVec 64) (f : α → α) (allowed : Bool)
  | attach (i : ℕ) (addr : BitVec 64) (e : PageEntry)
  /-- A system call that changes areas or the break. -/
  | remap (i : ℕ) (m : ProcessMemory)
  | exit (i : ℕ)
  | drain

/-- One operation. A child has the areas of its parent. -/
def step (A : FrameAllocator σ) (zero : α) (s : Processes σ α) : PageOp α → Processes σ α
  | .fork i =>
    { pages := s.pages.step A (.fork i)
      areas := update s.areas s.pages.spaces.length (s.areas i) }
  | .load i addr allowed => if s.present i addr then s else s.pageFault A zero i addr allowed
  | .write i addr f allowed =>
    let s := s.beforeWrite A zero i addr allowed
    { s with pages := s.pages.step A (.store i (pagePath addr) f) }
  | .attach i addr e => { s with pages := attachPage A s.pages i (pagePath addr) e }
  | .remap i m => { s with areas := update s.areas i m }
  | .exit i => { s with pages := s.pages.step A (.exit i) }
  | .drain => { s with pages := s.pages.step A .drain }

def Maps (s : Processes σ α) (f i : ℕ) (addr : BitVec 64) : Prop :=
  ∃ e, s.entry i addr = some e ∧ e.present ∧ e.frame = f

/-- A write to a read-only page of frame `f` finds that at most one reference to it is counted. -/
def InPlace (f : ℕ) (s : Processes σ α) : PageOp α → Prop
  | .write i addr _ _ =>
    Maps s f i addr → s.writable i addr = false → ¬ 1 < s.pages.frames.count f
  | _ => True

/-! ### What keeps a page in its frame -/

section Keep

variable {A : FrameAllocator σ} {zero : α} {s : Processes σ α} {f i j : ℕ} {addr addr' : BitVec 64}

variable {t child : AddressSpace}

theorem space_set {s : CowState σ α} (ht : s.space i = some t)
    (slot : Option AddressSpace) (fr : Frames σ) (memory : ℕ → α) (j : ℕ) :
    (mk (s.spaces.set i slot) fr memory).space j = if i = j then slot else s.space j :=
  join_set ht slot j

theorem step_fork {s : CowState σ α} (ht : s.space i = some t) : s.step A (.fork i) =
      { s with
        spaces := s.spaces.set i (some (cloneCow A t s.frames).parent) ++
          (cloneCow A t s.frames).child.toList.map some
        frames := (cloneCow A t s.frames).frames } := by
  simp only [CowState.step, ht]

theorem space_fork_of_lt {s : CowState σ α} (ht : s.space i = some t) (hj : j < s.spaces.length) :
    (s.step A (.fork i)).space j =
      if i = j then some (cloneCow A t s.frames).parent else s.space j := by
  rw [step_fork ht, space, List.getElem?_append_left (by rwa [List.length_set]),
    join_set ht, space]

theorem space_fork_child {s : CowState σ α} (ht : s.space i = some t)
    (hchild : (cloneCow A t s.frames).child = some child) :
    (s.step A (.fork i)).space s.spaces.length = some child := by
  rw [step_fork ht, space, hchild, List.getElem?_append_right (by rw [List.length_set]),
    List.length_set, Nat.sub_self]
  rfl

theorem lt_length_of_space {s : CowState σ α} (ht : s.space j = some t) : j < s.spaces.length :=
  lt_length_of_join ht

/-- A fork leaves every page in its frame, also when it fails. -/
theorem Maps.fork (h : Maps s f j addr) (i : ℕ) : Maps (step A zero s (.fork i)) f j addr := by
  obtain ⟨e, he, hpresent, hframe⟩ := h
  obtain ⟨u, hu, hget⟩ := bind_eq_some_iff.mp he
  cases ht : s.pages.space i with
  | none =>
    refine ⟨e, ?_, hpresent, hframe⟩
    simp only [step, Processes.entry, CowState.step, ht]
    exact he
  | some t =>
    have hspace := space_fork_of_lt (A := A) ht (lt_length_of_space hu)
    by_cases hij : i = j
    · subst hij
      cases ht.symm.trans hu
      obtain ⟨⟨e', he', hshared⟩, -⟩ := get_cloneRecursive A 4 u s.pages.frames hget
      rw [if_pos rfl] at hspace
      refine ⟨e', bind_eq_some_iff.mpr ⟨_, hspace, he'⟩, ?_⟩
      obtain rfl | rfl := hshared
      · exact ⟨hpresent, hframe⟩
      · rw [PageEntry.shared_present, PageEntry.shared_frame]
        exact ⟨hpresent, hframe⟩
    · rw [if_neg hij, hu] at hspace
      exact ⟨e, bind_eq_some_iff.mpr ⟨u, hspace, hget⟩, hpresent, hframe⟩

/-- The pages of the child are in the frames of the parent's. -/
theorem Maps.fork_child (h : Maps s f i addr) (ht : s.pages.space i = some t)
    (hchild : (cloneCow A t s.pages.frames).child = some child) :
    Maps (step A zero s (.fork i)) f s.pages.spaces.length addr := by
  obtain ⟨e, he, hpresent, hframe⟩ := h
  obtain ⟨t', ht', hget⟩ := bind_eq_some_iff.mp he
  cases ht.symm.trans ht'
  obtain ⟨-, hget'⟩ := get_cloneRecursive A 4 t s.pages.frames hget
  refine ⟨e.shared, bind_eq_some_iff.mpr
    ⟨child, space_fork_child ht hchild, hget' child hchild⟩, ?_⟩
  rw [PageEntry.shared_present, PageEntry.shared_frame]
  exact ⟨hpresent, hframe⟩

/-- A new leaf in one address space. -/
theorem entry_insert {s : CowState σ α} (ht : s.space i = some t)
    (fresh : Frames σ → Option (ℕ × Frames σ)) (width : ℕ) (a e : PageEntry) (path : List ℕ)
    (fr fr' : Frames σ) (memory : ℕ → α) {path' : List ℕ} (he : s.entry j path' = some e) :
    (mk (s.spaces.set i (Radix.insert fresh width a 4 (some t) path fr).tree) fr'
      memory).entry j path' = some e := by
  rw [entry, space_set ht]
  split
  · next hij =>
    subst hij
    refine Radix.get_insert fresh width path fr ?_
    rw [entry, ht] at he
    exact he
  · exact he

variable (h : Maps s f j addr)

include h

theorem Maps.attach (i : ℕ) (addr' : BitVec 64) (e : PageEntry) :
    Maps (step A zero s (.attach i addr' e)) f j addr := by
  obtain ⟨e', he', hmapped⟩ := h
  simp only [step, attachPage]
  split
  · next t ht => exact ⟨e', entry_insert ht _ _ _ _ _ _ _ _ he', hmapped⟩
  · exact ⟨e', he', hmapped⟩

theorem Maps.demandPage (i : ℕ) (path : List ℕ) (flags : BitVec 64) :
    Maps { s with pages := demandPage A zero s.pages i path flags } f j addr := by
  obtain ⟨e, he, hmapped⟩ := h
  simp only [Interrupts.demandPage]
  split
  · next g fr hg =>
    refine ⟨e, ?_, hmapped⟩
    simp only [Processes.entry, mapPage, hg]
    split
    · next t g' fr' ht _ => exact entry_insert ht _ _ _ _ _ _ _ _ he
    · exact he
  · exact ⟨e, he, hmapped⟩

/-- A fault leaves a page in its frame, unless it copies that very page. -/
theorem Maps.pageFault
    (hplace : i = j → pagePath addr' = pagePath addr → ¬ 1 < s.pages.frames.count f)
    (allowed : Bool) : Maps (s.pageFault A zero i addr' allowed) f j addr := by
  rw [Processes.pageFault]
  split
  · next r hr =>
    obtain ⟨t, ht, hcow⟩ := bind_eq_some_iff.mp hr
    obtain ⟨e₀, hget, -, hisFrame, hcase⟩ := handleCow_eq_some hcow
    obtain ⟨e, he, hpresent, hframe⟩ := h
    by_cases hij : i = j
    · subst hij
      have hspace : ∀ t', (mk (s.pages.spaces.set i (some t')) r.frames r.memory).space i =
          some t' := fun t' => by rw [space_set ht, if_pos rfl]
      have he' : Radix.get 4 t (pagePath addr) = some e := by
        obtain ⟨t', ht', hget'⟩ := bind_eq_some_iff.mp he
        cases ht.symm.trans ht'
        exact hget'
      by_cases hpath : pagePath addr' = pagePath addr
      · rw [hpath] at hget hcase
        cases hget.symm.trans he'
        obtain ⟨g, fr, hcount, -, rfl⟩ | ⟨-, rfl⟩ := hcase
        · exact absurd (hframe ▸ hcount) (hplace rfl hpath)
        · refine ⟨⟨e₀.frame, e₀.writableFlags⟩, bind_eq_some_iff.mpr ⟨_, hspace _, ?_⟩, ?_⟩
          · exact Radix.get_set_self _ he'
          · exact ⟨(PageEntry.writableFlags_present e₀ _).trans hpresent, hframe⟩
      · have hrspace : Radix.get 4 r.space (pagePath addr) = some e := by
          obtain ⟨g, fr, -, -, rfl⟩ | ⟨-, rfl⟩ := hcase
          all_goals rw [Radix.get_set_of_ne t _ (Ne.symm hpath), he']
        exact ⟨e, bind_eq_some_iff.mpr ⟨_, hspace _, hrspace⟩, hpresent, hframe⟩
    · refine ⟨e, ?_, hpresent, hframe⟩
      rw [Processes.entry, entry, space_set ht, if_neg hij]
      exact he
  · split
    · exact h
    · split
      · split
        · exact h.demandPage i _ _
        · exact h
      · exact h

omit h in
theorem Maps.writable_eq {e : PageEntry} (he : s.entry j addr = some e) (hpresent : e.present) :
    s.writable j addr = e.writable := by
  rw [Processes.writable, he, Option.any_some, hpresent, Bool.true_and]

omit h in
theorem entry_store (s : CowState σ α) (i : ℕ) (path : List ℕ) (g : α → α) (j : ℕ)
    (path' : List ℕ) : (s.step A (.store i path g)).entry j path' = s.entry j path' := by
  simp only [CowState.step]
  split <;> rfl

theorem Maps.beforeWrite (A : FrameAllocator σ) (zero : α) (i : ℕ)
    (addr' : BitVec 64) (g : α → α) (allowed : Bool)
    (hplace : i = j → pagePath addr' = pagePath addr →
      InPlace f s (.write i addr' g allowed)) :
    Maps (s.beforeWrite A zero i addr' allowed) f j addr := by
  rw [Processes.beforeWrite]
  split
  · exact h
  next hwritable =>
  refine h.pageFault (fun hij hpath => ?_) allowed
  subst hij
  refine hplace rfl hpath ?_ (Bool.eq_false_iff.mpr hwritable)
  obtain ⟨e, he, hmapped⟩ := h
  exact ⟨e, by rw [Processes.entry, hpath]; exact he, hmapped⟩

/-- Every operation leaves a page in its frame, unless its process ends or the operation writes to
the page while more than one reference to the frame is counted. -/
theorem Maps.step {op : PageOp α} (hop : InPlace f s op)
    (hexit : op ≠ .exit j) : Maps (step A zero s op) f j addr := by
  cases op with
  | fork i => exact h.fork i
  | load i addr' allowed =>
    simp only [Interrupts.step]
    split
    · exact h
    next habsent =>
    -- a fault on a page that is not present is not one on this page
    refine h.pageFault (fun hij hpath => ?_) allowed
    subst hij
    obtain ⟨e, he, hpresent, -⟩ := h
    rw [Processes.present, Processes.entry, hpath] at habsent
    rw [Processes.entry] at he
    rw [he, Option.any_some, hpresent] at habsent
    exact absurd rfl habsent
  | write i addr' g allowed =>
    obtain ⟨e, he, hmapped⟩ := h.beforeWrite A zero i addr' g allowed fun _ _ => hop
    exact ⟨e, (entry_store (A := A) _ i _ g j _).trans he, hmapped⟩
  | attach i addr' e => exact h.attach i addr' e
  | remap i m => exact h
  | exit i =>
    obtain ⟨e, he, hmapped⟩ := h
    refine ⟨e, ?_, hmapped⟩
    simp only [Interrupts.step, CowState.step]
    split
    · exact he
    · next t ht =>
      rw [Processes.entry, CowState.entry, space_set ht, if_neg (by rintro rfl; exact hexit rfl)]
      exact he
  | drain => exact h

end Keep

/-! ### Writes after a fork -/

section Shared

variable {A : FrameAllocator σ} {zero : α} {s : Processes σ α} {f i j : ℕ} {addr addr' : BitVec 64}

/-- A store shows in the pages of the frame, and in no others. -/
theorem view_store {s : CowState σ α} {path path' : List ℕ} {e e' : PageEntry}
    (he : s.entry i path = some e) (hpresent : e.present) (hwritable : e.writable)
    (he' : s.entry j path' = some e') (hpresent' : e'.present) (g : α → α) :
    (s.step A (.store i path g)).view j path' =
      some (if e'.frame = e.frame then g (s.memory e.frame) else s.memory e'.frame) := by
  have hstep : s.step A (.store i path g) =
      { s with memory := update s.memory e.frame (g (s.memory e.frame)) } := by
    simp only [CowState.step, he, Option.filter_some, hpresent, hwritable, Bool.and_self, if_true]
  have hentry : (s.step A (.store i path g)).entry j path' = some e' :=
    (entry_store s i path g j path').trans he'
  rw [CowState.view, hentry, Option.filter_some, if_pos hpresent', Option.map_some, hstep]
  exact congrArg some (update_apply ..)

theorem memory_pageFault (h : Maps s f i addr) (hcount : ¬ 1 < s.pages.frames.count f)
    (allowed : Bool) : (s.pageFault A zero i addr allowed).pages.memory = s.pages.memory := by
  obtain ⟨e, he, hpresent, hframe⟩ := h
  rw [Processes.pageFault]
  split
  · next r hr =>
    obtain ⟨t, ht, hcow⟩ := bind_eq_some_iff.mp hr
    obtain ⟨e₀, hget, -, -, hcase⟩ := handleCow_eq_some hcow
    have he₀ : s.entry i addr = some e₀ := bind_eq_some_iff.mpr ⟨t, ht, hget⟩
    cases he₀.symm.trans he
    obtain ⟨g, fr, hlt, -, rfl⟩ | ⟨-, rfl⟩ := hcase
    · exact absurd (hframe ▸ hlt) hcount
    · rfl
  · rw [if_pos (by rw [Processes.present, he, Option.any_some, hpresent])]

/-- A write that goes through in place shows in all pages of the frame. -/
theorem view_write (h : Maps s f i addr) {g : α → α} {allowed : Bool}
    (hplace : InPlace f s (.write i addr g allowed))
    (hdone : (s.beforeWrite A zero i addr allowed).writable i addr) (hj : Maps s f j addr') :
    (step A zero s (.write i addr g allowed)).view j addr' = some (g (s.pages.memory f)) := by
  have hmemory : (s.beforeWrite A zero i addr allowed).pages.memory = s.pages.memory := by
    rw [Processes.beforeWrite]
    split
    · rfl
    · next hwritable => exact memory_pageFault h (hplace h (Bool.eq_false_iff.mpr hwritable)) allowed
  obtain ⟨e, he, hpresent, hframe⟩ := h.beforeWrite A zero i addr g allowed fun _ _ => hplace
  obtain ⟨e', he', hpresent', hframe'⟩ := hj.beforeWrite A zero i addr g allowed
    fun _ _ => hplace
  have hwritable : e.writable := by rwa [Maps.writable_eq he hpresent] at hdone
  have hview := view_store (A := A) he hpresent hwritable he' hpresent' g
  rw [if_pos (hframe'.trans hframe.symm), hmemory, hframe] at hview
  exact hview

/-- The pages of frame `f` in the state `s₀` are still in `f`, those of processes that end in the
run apart, and a write to one of the pages of `f` that goes through shows in all of them. -/
def StaysShared (A : FrameAllocator σ) (zero : α) (f : ℕ) (s₀ : Processes σ α)
    (ops : List (PageOp α)) (s : Processes σ α) (op : PageOp α) : Prop :=
  (∀ j addr, Maps s₀ f j addr → .exit j ∉ ops → Maps s f j addr) ∧
    ∀ i addr g allowed, op = .write i addr g allowed → Maps s f i addr →
      (s.beforeWrite A zero i addr allowed).writable i addr →
      ∀ j addr', Maps s f j addr' → (step A zero s op).view j addr' = some (g (s.pages.memory f))

theorem staysShared_of_inPlace {ops : List (PageOp α)} (hplace : Along (step A zero) (InPlace f) s ops) :
    Along (step A zero) (StaysShared A zero f s ops) s ops := by
  have hmem : Along (step A zero) (fun _ op => op ∈ ops) s ops := along_of_mem (fun _ h => h) s
  refine along_of_inv (I := fun s' => ∀ j addr, Maps s f j addr → .exit j ∉ ops → Maps s' f j addr)
    ?_ (fun j addr hj _ => hj) (hplace.and hmem)
  rintro s' op hkept ⟨hop, hmem⟩
  refine ⟨⟨hkept, ?_⟩, fun j addr hj hexit => ?_⟩
  · rintro i addr g allowed rfl hi hdone j addr' hj
    exact view_write hi hop hdone hj
  · exact (hkept j addr hj hexit).step hop fun heq => hexit (heq ▸ hmem)

end Shared

/-- After a successful fork, parent and child have the page in the same frame, and so has every
process that had it before. In every run from there in which a write to a read-only page of the
frame finds at most one counted reference, all of them keep the page in that frame until they end,
and every write that goes through in one of them is seen by all processes that have the frame. -/
theorem shared_after_fork (A : FrameAllocator σ) (zero : α) {s : Processes σ α} {f i : ℕ}
    {addr : BitVec 64} {t child : AddressSpace} (ht : s.pages.space i = some t)
    (hchild : (cloneCow A t s.pages.frames).child = some child) (h : Maps s f i addr)
    {ops : List (PageOp α)}
    (hplace : Along (step A zero) (InPlace f) (step A zero s (.fork i)) ops) :
    Maps (step A zero s (.fork i)) f i addr ∧
    Maps (step A zero s (.fork i)) f s.pages.spaces.length addr ∧
    (∀ j addr', Maps s f j addr' → Maps (step A zero s (.fork i)) f j addr') ∧
    Along (step A zero) (StaysShared A zero f (step A zero s (.fork i)) ops)
      (step A zero s (.fork i)) ops :=
  ⟨h.fork i, h.fork_child ht hchild, fun _ _ hj => hj.fork i, staysShared_of_inPlace hplace⟩

section OneSegment

def oneEntry {n : ℕ} (frame size i : ℕ) (t : Table n) : Table (n + 1) :=
  ⟨frame, (List.replicate size none).set i (some t)⟩

def sharedArea (start : BitVec 64) (shmId : Option (BitVec 32)) : Vma where
  start
  stop := start + 4096
  flags := 7
  fileHandle := none
  fileOffset := 0
  isShared := true
  shmId

def oneSpace (frame : ℕ) : AddressSpace :=
  oneEntry 1 256 128 (oneEntry 2 512 0 (oneEntry 3 512 0 (oneEntry 4 512 0 (n := 0) ⟨frame, 7⟩)))

/-- One process with a page of a segment in the given frame, and behind it a page of a shared
`mmap` that it has not touched yet. -/
def oneSegment (frame : ℕ) : Processes Arena ℕ where
  pages :=
    { spaces := [some (oneSpace frame)]
      frames := ⟨fun f => if f = frame then 1 else 0, 32, [], bootArena⟩
      memory := fun _ => 0 }
  areas := fun _ => ⟨0x600000000000,
    [sharedArea 0x400000000000 (some 1), sharedArea 0x400000001000 none]⟩

def bothWrite : List (PageOp ℕ) :=
  [.write 1 0x400000000000 (fun _ => 9) true, .write 0 0x400000000000 (· + 1) true]

/-- The segment is in memory that is not counted. -/
theorem shared_after_fork_uncounted :
    Maps (oneSegment 100) 100 0 0x400000000000 ∧
      Along (step buddyFrameAllocator 0)
        (StaysShared buddyFrameAllocator 0 100 (step buddyFrameAllocator 0 (oneSegment 100) (.fork 0))
          bothWrite)
        (step buddyFrameAllocator 0 (oneSegment 100) (.fork 0)) bothWrite := by
  have hmaps : Maps (oneSegment 100) 100 0 0x400000000000 := ⟨⟨100, 7⟩, rfl, rfl, rfl⟩
  have hsome : ((cloneCow buddyFrameAllocator (oneSpace 100)
      (oneSegment 100).pages.frames).child).isSome := by
    decide +kernel
  obtain ⟨child, hchild⟩ := Option.isSome_iff_exists.mp hsome
  have hplace : Along (step buddyFrameAllocator 0) (InPlace 100)
      (step buddyFrameAllocator 0 (oneSegment 100) (.fork 0)) bothWrite :=
    ⟨fun _ _ => by decide +kernel, fun _ _ => by decide +kernel, trivial⟩
  obtain ⟨-, -, -, hrun⟩ := shared_after_fork buddyFrameAllocator 0 rfl hchild hmaps hplace
  exact ⟨hmaps, hrun⟩

/-- The child writes 9 to the page of the segment and to the page that was not there at the fork.
The parent has 0 in both. -/
theorem shared_write_lost :
    ∃ s : Processes Arena ℕ,
      s = [PageOp.fork 0, .write 1 0x400000000000 (fun _ => 9) true,
        .write 1 0x400000001000 (fun _ => 9) true, .load 0 0x400000001000 true].foldl
          (step buddyFrameAllocator 0) (oneSegment 5) ∧
      s.view 1 0x400000000000 = some 9 ∧ s.view 0 0x400000000000 = some 0 ∧
      s.view 1 0x400000001000 = some 9 ∧ s.view 0 0x400000001000 = some 0 := by
  refine ⟨_, rfl, ?_, ?_, ?_, ?_⟩
  all_goals decide +kernel

end OneSegment

end Vahi.Interrupts
