import Vahi.Memory.FrameRelease
import Vahi.Syscalls.Mmap

/-!
# System V shared memory

`kernel/src/syscalls/shm.rs`, with what `sys_fork` and the end of a process do to the attachments,
and with `drain_deferred`. Of the pages of a process only those of segments are modelled.
-/

namespace Vahi.Syscalls.Shm

open Vahi.Lib Vahi.Types Vahi.Memory Vahi.Task

variable {σ : Type}

structure ShmSegment where
  id : BitVec 32
  key : BitVec 32
  size : BitVec 64
  pages : List ℕ
  perms : BitVec 16
  uid : BitVec 32
  gid : BitVec 32
  nattch : BitVec 32
  deleted : Bool
  deriving DecidableEq

/-- The pages of segments in the page tables of a process: page numbers with their frames. -/
abbrev PageList := List (ℕ × ℕ)

structure ShmProcess where
  vmas : List Vma
  pages : PageList
  deriving DecidableEq

/-- `SHM_SEGMENTS`, `SHM_KEY_MAP`, `NEXT_SHM_ID` and `SHM_NEXT`, with the processes and frames. -/
structure ShmState (σ : Type) where
  segments : List ShmSegment
  keyMap : BitVec 32 → Option (BitVec 32)
  nextId : BitVec 32
  nextAddr : BitVec 64
  procs : List (Option ShmProcess)
  frames : Frames σ

structure Caller where
  euid : BitVec 32
  gid : BitVec 32
  egid : BitVec 32
  sysAdmin : Bool

namespace ShmState

variable (s : ShmState σ)

def segment (id : BitVec 32) : Option ShmSegment :=
  s.segments.find? (·.id = id)

def proc (pid : ℕ) : Option ShmProcess := s.procs[pid]?.join

def setProc (pid : ℕ) (p : ShmProcess) : ShmState σ :=
  { s with procs := s.procs.set pid (some p) }

def modifySegment (id : BitVec 32) (f : ShmSegment → ShmSegment) : ShmState σ :=
  { s with segments := s.segments.map fun seg => if seg.id = id then f seg else seg }

end ShmState

/-! ### Frames of a segment -/

/-- The frames taken so far go back if there are not enough. -/
def allocSegmentPages (A : FrameAllocator σ) :
    ℕ → List ℕ → Frames σ → Except Errno (List ℕ) × Frames σ
  | 0, pages, fr => (.ok pages, fr)
  | n + 1, pages, fr =>
    match fr.allocateFrame A with
    | some (f, fr) => allocSegmentPages A n (pages ++ [f]) fr
    | none => (.error .enomem, pages.foldl (Frames.deallocateFrame A) fr)

variable (A : FrameAllocator σ) (s : ShmState σ) (seg : ShmSegment) (caller : Caller)

/-- Each frame goes to the allocator before its count falls. -/
def freeSegmentPages (fr : Frames σ) (pages : List ℕ) : Frames σ :=
  pages.foldl (fun fr f => (fr.deallocateFrame A f).decrement f) fr

def destroySegment : ShmState σ :=
  { s with
    segments := s.segments.filter (·.id ≠ seg.id)
    keyMap := Function.update s.keyMap seg.key none
    frames := freeSegmentPages A s.frames seg.pages }

/-! ### `sys_shmget` -/

def sizeAligned (size : BitVec 64) : BitVec 64 := (size + 4095) &&& ~~~ 4095

/-- The segment that has the key, or none if a new one is to be made. -/
def shmgetLookup (key : BitVec 32) (size : BitVec 64) (shmflg : BitVec 32) :
    Except Errno (Option (BitVec 32)) :=
  -- `SHMMAX`
  if 32 * 1024 * 1024 < size then .error .einval
  else if sizeAligned size = 0 then .error .einval
  else
    let found := if key = 0 then none else (s.keyMap key).filter fun id => (s.segment id).isSome
    match found with
    | some id =>
      -- `IPC_EXCL` and `IPC_CREAT`
      if shmflg.getLsbD 10 ∧ shmflg.getLsbD 9 then .error .eexist else .ok (some id)
    | none =>
      if shmflg.getLsbD 9 then
        -- `SHMMNI`
        if 4096 ≤ s.segments.length then .error .enospc else .ok none
      else .error .enoent

/-- A segment that has the next number is replaced. -/
def sysShmget (key : BitVec 32)
    (size : BitVec 64) (shmflg : BitVec 32) : ShmState σ × Except Errno (BitVec 32) :=
  match shmgetLookup s key size shmflg with
  | .error e => (s, .error e)
  | .ok (some id) => (s, .ok id)
  | .ok none =>
    match allocSegmentPages A ((sizeAligned size).toNat / 4096) [] s.frames with
    | (.error e, fr) => ({ s with frames := fr }, .error e)
    | (.ok pages, fr) =>
      let seg : ShmSegment :=
        { id := s.nextId, key, size := sizeAligned size, pages
          perms := shmflg.setWidth 16 &&& 0x1FF
          uid := caller.euid, gid := caller.gid, nattch := 0, deleted := false }
      ({ s with
          segments := s.segments.filter (·.id ≠ s.nextId) ++ [seg]
          keyMap := if key = 0 then s.keyMap else Function.update s.keyMap key (some s.nextId)
          nextId := s.nextId + 1
          frames := fr },
        .ok s.nextId)

/-! ### `sys_shmat` -/

def mayAttach (readOnly : Bool) : Bool :=
  let bits :=
    if caller.euid = seg.uid then (seg.perms >>> 6) &&& 7
    else if caller.egid = seg.gid then (seg.perms >>> 3) &&& 7
    else seg.perms &&& 7
  bits.getLsbD 2 &&
    (readOnly || bits.getLsbD 1 || (caller.euid = seg.uid && seg.perms.getLsbD 7))

def shmatSegment (shmid shmflg : BitVec 32) : Except Errno ShmSegment :=
  match s.segment shmid with
  | none => .error .einval
  | some seg =>
    if seg.deleted then .error .eidrm
    -- `SHM_RDONLY`
    else if mayAttach seg caller (shmflg.getLsbD 12) then .ok seg
    else .error .eacces

def dropPage (m : PageList × Frames σ) (page : ℕ) : PageList × Frames σ :=
  match m.1.lookup page with
  | some f => (m.1.filter (·.1 ≠ page), m.2.decrement f)
  | none => m

def pageAddr (addr : BitVec 64) (i : ℕ) : BitVec 64 := addr + BitVec.ofNat 64 (i * 4096)

/-- The pages that were mapped before one that cannot be mapped are unmapped again. -/
def rollback (addr : BitVec 64) : List ℕ → PageList × Frames σ → Outcome (PageList × Frames σ)
  | [], m => .ok m
  | j :: js, m => do
    let a ← virtAddrNew (pageAddr addr j)
    rollback addr js (dropPage m (a.toNat / 4096))

/-- The loop of `sys_shmat` over the frames and their indices. `map_to` fails if the page is
mapped already, or when there is no room for tables after the first `room` pages; then the pages
before are unmapped. -/
def attachPages (addr : BitVec 64) (room : ℕ) (m : PageList × Frames σ) :
    List (ℕ × ℕ) → Outcome (Bool × PageList × Frames σ)
  | [] => .ok (true, m)
  | (f, i) :: rest => do
    let a ← virtAddrNew (pageAddr addr i)
    let page := a.toNat / 4096
    if i < room ∧ (m.1.lookup page).isNone then
      attachPages addr room ((page, f) :: m.1, m.2.increment f) rest
    else
      let m ← rollback addr (List.range i) m
      return (false, m)

def nextAddrAfter (next : BitVec 64) (args : ShmatArgs) (size : BitVec 64) : BitVec 64 :=
  if args.shmaddr = 0 then
    if 0x7F0000000000 < (next &&& ~~~ 4095) + size then 0x400000000000 else next + size
  else next

def shmatArgs (shmid : BitVec 32) (shmaddr : BitVec 64) (shmflg : BitVec 32)
    (seg : ShmSegment) : ShmatArgs where
  shmid
  shmaddr
  flags := shmflg
  size := .ok seg.size
  next := s.nextAddr

/-- The pages are mapped first; the area and the count follow if all could be. -/
def sysShmat (pid : ℕ) (shmid : BitVec 32) (shmaddr : BitVec 64) (shmflg : BitVec 32) (room : ℕ) :
    Outcome (ShmState σ × Except Errno (BitVec 64)) :=
  match shmatSegment s caller shmid shmflg, s.proc pid with
  | .error e, _ => .ok (s, .error e)
  | .ok _, none => .ok (s, .error .esrch)
  | .ok seg, some p => do
    let args := shmatArgs s shmid shmaddr shmflg seg
    let addr := args.addr seg.size
    let (mapped, pages, frames) ← attachPages addr room (p.pages, s.frames) seg.pages.zipIdx
    let s := { s with nextAddr := nextAddrAfter s.nextAddr args seg.size, frames }
    if mapped then
      let p := ⟨insertVmaLocked p.vmas (args.vma seg.size), pages⟩
      let s := (s.setProc pid p).modifySegment shmid fun seg => { seg with nattch := seg.nattch + 1 }
      return (s, .ok addr)
    else return (s.setProc pid { p with pages }, .error .enomem)

/-- The areas and the answer are those of `sys_shmat` as the calls of `Mmap` model it. -/
theorem sysShmat_eq_mmap {s' : ShmState σ} {seg : ShmSegment} {p : ShmProcess} {pid room : ℕ}
    {shmid shmflg : BitVec 32} {shmaddr : BitVec 64} {r : Except Errno (BitVec 64)}
    (hseg : shmatSegment s caller shmid shmflg = .ok seg) (hp : s.proc pid = some p)
    (h : sysShmat s caller pid shmid shmaddr shmflg room = .ok (s', r))
    {m : ProcessMemory} (hm : m.vmas = p.vmas) :
    ∃ mapped, Syscalls.sysShmat m { shmatArgs s shmid shmaddr shmflg seg with pages := mapped } =
      ({ m with vmas := ((s'.proc pid).map (·.vmas)).getD [] }, r) := by
  have hset : ∀ (t : ShmState σ) (q : ShmProcess), t.procs = s.procs.set pid (some q) →
      t.proc pid = some q := by
    intro t q hprocs
    rw [ShmState.proc, hprocs, join_getElem?_set, if_pos ⟨rfl, lt_length_of_join hp⟩]
  simp only [sysShmat, hseg, hp] at h
  obtain ⟨⟨mapped, pages, frames⟩, -, h⟩ := Outcome.bind_eq_ok.mp h
  refine ⟨mapped, ?_⟩
  cases mapped with
  | true =>
    cases h
    rw [Syscalls.sysShmat, hset _ _ rfl, hm]
    rfl
  | false =>
    cases h
    rw [Syscalls.sysShmat, hset _ _ rfl]
    simp [shmatArgs, ← hm]

/-! ### Detaching -/

def ShmSegment.detached : ShmSegment :=
  { seg with nattch := if seg.nattch = 0 then 0 else seg.nattch - 1 }

def detach (id : BitVec 32) : ShmState σ :=
  match s.segment id with
  | none => s
  | some seg =>
    if seg.detached.nattch = 0 ∧ seg.deleted then destroySegment A s seg
    else s.modifySegment id ShmSegment.detached

def pageRange (first last : BitVec 64) : List ℕ :=
  List.range' (first.toNat / 4096) (last.toNat / 4096 + 1 - first.toNat / 4096)

/-- The range of the area is unmapped, which a merge can have made longer than the segment. -/
def sysShmdt (pid : ℕ) (addr : BitVec 64) : Outcome (ShmState σ × Except Errno Unit) :=
  if addr = 0 ∨ addr &&& 0xFFF ≠ 0 then .ok (s, .error .einval)
  else
    match s.proc pid with
    | none => .ok (s, .error .esrch)
    | some p =>
      match p.vmas.find? (·.start = addr) with
      | none => .ok (s, .error .einval)
      | some v =>
        match v.shmId with
        | none => .ok (s, .error .einval)
        | some id => do
          let len := v.stop - v.start
          let first ← virtAddrNew addr
          let last ← virtAddrNew (addr + len - 1)
          let (pages, frames) := (pageRange first last).foldl dropPage (p.pages, s.frames)
          let p := ⟨removeVmaRange addr (addr + len) p.vmas, pages⟩
          return (detach A ({ s with frames }.setProc pid p) id, .ok ())

def ShmSegment.taken : ShmSegment := { seg.detached with pages := [] }

/-- One round of the loop of `shm_detach_all`: the segments, and those to be freed. -/
def detachRound (r : List ShmSegment × List ShmSegment) (id : BitVec 32) :
    List ShmSegment × List ShmSegment :=
  match r.1.find? (·.id = id) with
  | none => r
  | some seg =>
    if seg.detached.nattch = 0 ∧ seg.deleted then
      (r.1.map fun seg => if seg.id = id then seg.taken else seg, r.2 ++ [seg.detached])
    else (r.1.map fun seg => if seg.id = id then seg.detached else seg, r.2)

def shmDetachAll (ids : List (BitVec 32)) : ShmState σ :=
  let r := ids.foldl detachRound (s.segments, [])
  { s with
    segments := r.1.filter fun seg => seg.id ∉ r.2.map (·.id)
    keyMap := r.2.foldl (fun keyMap seg => Function.update keyMap seg.key none) s.keyMap
    frames := r.2.foldl (fun fr seg => freeSegmentPages A fr seg.pages) s.frames }

/-! ### `IPC_RMID` -/

/-- A segment that is attached is only marked. -/
def ipcRmid (shmid : BitVec 32) : ShmState σ × Except Errno Unit :=
  match s.segment shmid with
  | none => (s, .error .einval)
  | some seg =>
    if seg.deleted then (s, .error .eidrm)
    else if caller.euid ≠ 0 ∧ caller.euid ≠ seg.uid ∧ ¬ caller.sysAdmin then (s, .error .eperm)
    else if seg.nattch = 0 then (destroySegment A s { seg with deleted := true }, .ok ())
    else (s.modifySegment shmid fun seg => { seg with deleted := true }, .ok ())

/-! ### Processes -/

def ShmProcess.shmIds (p : ShmProcess) : List (BitVec 32) := p.vmas.filterMap (·.shmId)

def ShmProcess.userFrames (p : ShmProcess) : List ℕ :=
  (p.pages.filter fun e => e.1 < userEnd / 4096).map (·.2)

/-- `sys_fork`. The clone of the address space counts every page of the user half; it may run
out of frames for its tables after the first pages. -/
def fork (pid : ℕ) (failsAfter : Option ℕ) : ShmState σ :=
  match s.proc pid, failsAfter with
  | none, _ => s
  | some p, some n => { s with frames := (p.userFrames.take n).foldl Frames.increment s.frames }
  | some p, none =>
    { s with
      procs := s.procs ++ [some p]
      frames := p.userFrames.foldl Frames.increment s.frames }

/-- The end of a process: `shm_detach_all`, then the destruction of the address space. -/
def exit (pid : ℕ) : ShmState σ :=
  match s.proc pid with
  | none => s
  | some p =>
    let s := shmDetachAll A s p.shmIds
    { s with
      procs := s.procs.set pid none
      frames := p.userFrames.foldl Frames.decrement s.frames }

/-! ### Runs -/

inductive ShmOp where
  | shmget (caller : Caller) (key : BitVec 32) (size : BitVec 64) (shmflg : BitVec 32)
  | shmat (caller : Caller) (pid : ℕ) (shmid : BitVec 32) (shmaddr : BitVec 64)
      (shmflg : BitVec 32) (room : ℕ)
  | shmdt (pid : ℕ) (addr : BitVec 64)
  | rmid (caller : Caller) (shmid : BitVec 32)
  | fork (pid : ℕ) (failsAfter : Option ℕ)
  | exit (pid : ℕ)
  | drain

def after {α : Type} : Outcome (ShmState σ × α) → ShmState σ
  | .ok r => r.1
  | .panic | .hang => s

def step : ShmOp → ShmState σ
  | .shmget caller key size shmflg => (sysShmget A s caller key size shmflg).1
  | .shmat caller pid shmid shmaddr shmflg room =>
    after s (sysShmat s caller pid shmid shmaddr shmflg room)
  | .shmdt pid addr => after s (sysShmdt A s pid addr)
  | .rmid caller shmid => (ipcRmid A s caller shmid).1
  | .fork pid failsAfter => fork s pid failsAfter
  | .exit pid => exit A s pid
  | .drain => { s with frames := s.frames.drainDeferred A }

end Vahi.Syscalls.Shm
