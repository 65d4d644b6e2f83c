import Vahi.Lib.Run
import Vahi.Syscalls.Files

/-!
# The offset of an open file

The descriptors that come from one `open` should share its offset. In the code each has its own, so
a run follows the shared offset exactly as long as no call moves it.
-/

namespace Vahi.Syscalls

open Vahi.Lib Vahi.Types Vahi.Task Vahi.Vfs List FileProcess

variable {σ : Type}

/-! ## The shared offset -/

/-- A regular file with this content: `read` returns it from the start, up to the length
asked for at least, and `stat` its size. -/
structure RegularFile (F : FileSystem σ) (fs : σ) (node : ℕ) (content : List (BitVec 8)) :
    Prop where
  read : ∀ count, ∃ data, F.read fs node count = some data ∧
    data.take count.toNat = content.take count.toNat
  stat : ∃ st, F.stat fs node = some st ∧ st.size = BitVec.ofNat 64 content.length

variable {i : ℕ} (p : FileProcess)

theorem ramfs_regularFile {nodes : List TmpNode} {node : TmpNode}
    (hnode : nodes[i]? = some node) (hdir : node.isDir = false) (hlink : node.isSymlink = false) :
    RegularFile ramfs nodes i node.content := by
  constructor
  · intro count
    refine ⟨node.content, ?_, rfl⟩
    simp [ramfs, hnode, TmpNode.read, hdir, hlink]
  · refine ⟨node.stat, ?_, ?_⟩
    · simp [ramfs, hnode]
    · simp [TmpNode.stat, hdir, hlink]

variable (content : List (BitVec 8))

/-- The bytes at an offset, at most `count` and fewer only at the end. -/
def bytesAt (offset count : BitVec 64) : List (BitVec 8) :=
  (content.drop offset.toNat).take count.toNat

def sharedRead (offset count : BitVec 64) (copyToUser : Bool) :
    Except Errno (List (BitVec 8)) × BitVec 64 :=
  let data := bytesAt content offset count
  if data.length = 0 then (.ok [], offset)
  else if !copyToUser then (.error .efault, offset)
  else (.ok data, offset + BitVec.ofNat 64 data.length)

def sharedLseek (cur offset : BitVec 64) (whence : BitVec 32) :
    Except Errno (BitVec 64) × BitVec 64 :=
  match seekTarget (BitVec.ofNat 64 content.length) cur offset whence with
  | none => (.error .einval, cur)
  | some newPos => (.ok newPos, newPos)

inductive OffsetCall where
  | read (fd : ℕ) (count : BitVec 64) (copyToUser : Bool)
  | lseek (fd : ℕ) (offset : BitVec 64) (whence : BitVec 32)
  | dup (fd : ℕ)
  | dup2 (oldFd newFd : ℕ)
  | close (fd : ℕ)
  | fork
  deriving DecidableEq

def OffsetCall.toFileCall : OffsetCall → FileCall
  | read fd count copyToUser => .read fd count copyToUser
  | lseek fd offset whence => .lseek fd offset whence
  | dup fd => .dup fd
  | dup2 oldFd newFd => .dup2 oldFd newFd
  | close fd => .close fd
  | fork => .fork

namespace FileState

def isOpen (s : FileState σ) (i fd : ℕ) : Bool :=
  s.procs[i]?.any fun p => (p.descriptor fd).isSome

/-- What a call of process `i` should give, if it reads or moves the shared offset, and the
offset after it. -/
def shared (content : List (BitVec 8)) (s : FileState σ) (cur : BitVec 64) (i : ℕ) :
    OffsetCall → Option (Except Errno FileResult) × BitVec 64
  | .read fd count copyToUser =>
    if s.isOpen i fd then
      let (r, offset) := sharedRead content cur count copyToUser
      (some (r.map .bytes), offset)
    else (none, cur)
  | .lseek fd offset whence =>
    if s.isOpen i fd then
      let (r, offset) := sharedLseek content cur offset whence
      (some (r.map fun n => .value n.toNat), offset)
    else (none, cur)
  | .dup _ | .dup2 _ _ | .close _ | .fork => (none, cur)

def EveryDescriptor (s : FileState σ) (P : FileDescriptor → Prop) : Prop :=
  ∀ p ∈ s.procs, ∀ d, some d ∈ p.fdTable → P d

end FileState

open FileState

/-- The system with the shared offset beside it, after a call of process `c.1`. -/
def offsetStep (F : FileSystem σ) (content : List (BitVec 8)) (so : FileState σ × BitVec 64)
    (c : ℕ × OffsetCall) : FileState σ × BitVec 64 :=
  ((so.1.exec F c.1 c.2.toFileCall).2, (so.1.shared content so.2 c.1 c.2).2)

structure FollowsSharedOffset (F : FileSystem σ) (content : List (BitVec 8))
    (so : FileState σ × BitVec 64) (c : ℕ × OffsetCall) : Prop where
  result : ∀ r, (so.1.shared content so.2 c.1 c.2).1 = some r →
    (so.1.exec F c.1 c.2.toFileCall).1 = r
  offset : (so.1.exec F c.1 c.2.toFileCall).2.EveryDescriptor fun d =>
    d.offset = (so.1.shared content so.2 c.1 c.2).2

def Stays (so : FileState σ × BitVec 64) (c : ℕ × OffsetCall) : Prop :=
  (so.1.shared content so.2 c.1 c.2).2 = so.2

instance (content : List (BitVec 8)) (so : FileState σ × BitVec 64) (c : ℕ × OffsetCall) :
    Decidable (Stays content so c) :=
  inferInstanceAs (Decidable (_ = _))

/-! ## What the calls do to the descriptors -/

theorem mem_setPadded {α : Type*} {v : List α} {a pad x : α}
    (hx : x ∈ setPadded v i a pad) : x ∈ v ∨ x = a ∨ x = pad := by
  rcases mem_or_eq_of_mem_set hx with hx | rfl
  · rcases mem_append.mp hx with hx | hx
    · exact Or.inl hx
    · exact Or.inr (Or.inr (eq_of_mem_replicate hx))
  · exact Or.inr (Or.inl rfl)

/-- A call that gives a new table puts nothing in it that was not there. -/
def CopiesWithin (p : FileProcess) (r : Except Errno (ℕ × FileProcess)) : Prop :=
  ∀ fd p', r = .ok (fd, p') → ∀ d, some d ∈ p'.fdTable → some d ∈ p.fdTable

theorem sysDup_copiesWithin (fd : ℕ) : CopiesWithin p (sysDup p fd) := by
  intro n p' h d hd
  rw [sysDup] at h
  cases hdesc : p.descriptor fd with
  | none => simp [hdesc] at h
  | some desc =>
    have hmem := mem_of_descriptor hdesc
    cases hfree : p.fdTable.findIdx? Option.isNone with
    | none =>
      simp only [hdesc, hfree, Except.ok.injEq, Prod.mk.injEq] at h
      obtain ⟨-, rfl⟩ := h
      rcases mem_append.mp hd with hd | hd
      · exact hd
      · rw [mem_singleton] at hd
        exact hd ▸ hmem
    | some i =>
      simp only [hdesc, hfree, Except.ok.injEq, Prod.mk.injEq] at h
      obtain ⟨-, rfl⟩ := h
      rcases mem_or_eq_of_mem_set hd with hd | hd
      · exact hd
      · exact hd ▸ hmem

theorem sysDup2_copiesWithin (oldFd newFd : ℕ) : CopiesWithin p (sysDup2 p oldFd newFd) := by
  intro n p' h d hd
  rw [sysDup2] at h
  cases hdesc : p.descriptor oldFd with
  | none => simp [hdesc] at h
  | some desc =>
    simp only [hdesc, Except.ok.injEq, Prod.mk.injEq] at h
    obtain ⟨-, rfl⟩ := h
    rcases mem_setPadded hd with hd | hd | hd
    · exact hd
    · exact hd ▸ mem_of_descriptor hdesc
    · cases hd

theorem sysClose_copiesWithin (fd : ℕ) : CopiesWithin p ((sysClose p fd).map fun p => (0, p)) := by
  intro n p' h d hd
  rw [sysClose] at h
  cases hdesc : p.descriptor fd with
  | none => simp [hdesc, Except.map] at h
  | some desc =>
    simp only [hdesc, Except.map, Except.ok.injEq, Prod.mk.injEq] at h
    obtain ⟨-, rfl⟩ := h
    rcases mem_or_eq_of_mem_set hd with hd | hd
    · exact hd
    · cases hd

namespace FileState

variable {F : FileSystem σ} {s : FileState σ} {P : FileDescriptor → Prop}

theorem installed_fs (s : FileState σ) (i : ℕ) (r : Except Errno (ℕ × FileProcess)) :
    (s.installed i r).2.fs = s.fs := by
  cases r with
  | error e => rfl
  | ok r => rfl

theorem EveryDescriptor.installed (hs : s.EveryDescriptor P) {p : FileProcess}
    (hp : p ∈ s.procs) {r : Except Errno (ℕ × FileProcess)} (hr : CopiesWithin p r) :
    (s.installed i r).2.EveryDescriptor P := by
  cases r with
  | error e => exact hs
  | ok r =>
    intro q hq d hd
    rcases mem_or_eq_of_mem_set hq with hq | rfl
    · exact hs q hq d hd
    · exact hs p hp d (hr _ _ rfl d hd)

theorem exec_read_state (s : FileState σ) (i fd : ℕ) (count : BitVec 64) (copyToUser : Bool) :
    (s.exec F i (.read fd count copyToUser)).2 = s := by
  rw [exec]
  cases s.procs[i]? with
  | none => rfl
  | some p => rfl

theorem exec_lseek_state (s : FileState σ) (i fd : ℕ) (offset : BitVec 64) (whence : BitVec 32) :
    (s.exec F i (.lseek fd offset whence)).2 = s := by
  rw [exec]
  cases s.procs[i]? with
  | none => rfl
  | some p => rfl

/-- No call brings in a descriptor that is not there already, or changes the files. -/
theorem exec_toFileCall (hs : s.EveryDescriptor P) (i : ℕ) (call : OffsetCall) :
    (s.exec F i call.toFileCall).2.EveryDescriptor P ∧
      (s.exec F i call.toFileCall).2.fs = s.fs := by
  rw [exec]
  cases hproc : s.procs[i]? with
  | none => exact ⟨hs, rfl⟩
  | some p =>
    have hp := mem_of_getElem? hproc
    cases call with
    | read fd count copyToUser => exact ⟨hs, rfl⟩
    | lseek fd offset whence => exact ⟨hs, rfl⟩
    | dup fd => exact ⟨hs.installed hp (sysDup_copiesWithin p fd), installed_fs ..⟩
    | dup2 oldFd newFd =>
      exact ⟨hs.installed hp (sysDup2_copiesWithin p oldFd newFd), installed_fs ..⟩
    | close fd => exact ⟨hs.installed hp (sysClose_copiesWithin p fd), installed_fs ..⟩
    | fork =>
      refine ⟨?_, rfl⟩
      intro q hq d hd
      rcases mem_append.mp hq with hq | hq
      · exact hs q hq d hd
      obtain rfl := mem_singleton.mp hq
      change some d ∈ p.cloneFdTable at hd
      rw [cloneFdTable_eq] at hd
      exact hs p hp d hd

theorem isOpen_iff {i fd : ℕ} :
    s.isOpen i fd = true ↔ ∃ p d, s.procs[i]? = some p ∧ p.descriptor fd = some d := by
  rw [isOpen, Option.any_eq_true]
  constructor
  · rintro ⟨p, hp, hd⟩
    obtain ⟨d, hd⟩ := Option.isSome_iff_exists.mp hd
    exact ⟨p, d, hp, hd⟩
  · rintro ⟨p, d, hp, hd⟩
    exact ⟨p, hp, Option.isSome_iff_exists.mpr ⟨d, hd⟩⟩

end FileState

/-! ## Calls on descriptors at the start of the file -/

/-- Every descriptor is at the start of one regular file, and so is the shared offset. -/
structure AtStart (F : FileSystem σ) (content : List (BitVec 8)) (node : ℕ)
    (so : FileState σ × BitVec 64) : Prop where
  regular : RegularFile F so.1.fs node content
  descriptors : so.1.EveryDescriptor fun d => d.node = node ∧ d.offset = 0
  offset : so.2 = 0

section AtStart

variable {F : FileSystem σ} {content : List (BitVec 8)} {node : ℕ} {fs : σ}

variable {p : FileProcess} {fd : ℕ} {d : FileDescriptor}

theorem sysRead_atStart (hfile : RegularFile F fs node content) (hd : p.descriptor fd = some d) (hnode : d.node = node)
    (count : BitVec 64) (copyToUser : Bool) :
    sysRead F fs p fd count copyToUser = (sharedRead content 0 count copyToUser).1 := by
  obtain ⟨data, hread, hdata⟩ := hfile.read count
  have hbytes : bytesAt content 0 count = data.take count.toNat := by
    rw [bytesAt, hdata]
    rfl
  simp only [sysRead, cloneFdTable_eq, descriptor_eq_some.mp hd,
    FileDescriptor.read, hnode, hread, sharedRead, hbytes]
  by_cases hempty : (data.take count.toNat).length = 0
  · rw [if_pos hempty, if_pos hempty]
  rw [if_neg hempty, if_neg hempty]
  cases copyToUser with
  | false => rfl
  | true => rfl

theorem sysLseek_atStart (hfile : RegularFile F fs node content) (hd : p.descriptor fd = some d) (hnode : d.node = node)
    (hzero : d.offset = 0) (offset : BitVec 64) (whence : BitVec 32) :
    sysLseek F fs p fd offset whence = (sharedLseek content 0 offset whence).1 := by
  obtain ⟨st, hstat, hsize⟩ := hfile.stat
  simp only [sysLseek, cloneFdTable_eq, descriptor_eq_some.mp hd,
    FileDescriptor.lseek, hnode, hstat, hsize, hzero, sharedLseek]
  cases seekTarget (BitVec.ofNat 64 content.length) 0 offset whence with
  | none => rfl
  | some newPos => rfl

/-- As long as everything is at the start, each call gives what it should. -/
theorem AtStart.result {so : FileState σ × BitVec 64} (h : AtStart F content node so)
    (c : ℕ × OffsetCall) (r : Except Errno FileResult)
    (hr : (so.1.shared content so.2 c.1 c.2).1 = some r) :
    (so.1.exec F c.1 c.2.toFileCall).1 = r := by
  obtain ⟨s, cur⟩ := so
  obtain ⟨i, call⟩ := c
  obtain rfl : cur = 0 := h.offset
  -- only the calls on an open descriptor have a prescribed result
  have hopen : ∀ fd, s.isOpen i fd = true → ∃ p d, s.procs[i]? = some p ∧
      p.descriptor fd = some d ∧ d.node = node ∧ d.offset = 0 := by
    intro fd hfd
    obtain ⟨p, d, hp, hd⟩ := isOpen_iff.mp hfd
    exact ⟨p, d, hp, hd, h.descriptors p (mem_of_getElem? hp) d
      (mem_of_descriptor hd)⟩
  cases call with
  | read fd count copyToUser =>
    by_cases hfd : s.isOpen i fd = true
    · obtain ⟨p, d, hp, hd, hnode, -⟩ := hopen fd hfd
      simp only [shared, if_pos hfd, Option.some.injEq] at hr
      simp only [exec, OffsetCall.toFileCall, hp, sysRead_atStart h.regular hd hnode, hr]
    · simp [shared, hfd] at hr
  | lseek fd offset whence =>
    by_cases hfd : s.isOpen i fd = true
    · obtain ⟨p, d, hp, hd, hnode, hzero⟩ := hopen fd hfd
      simp only [shared, if_pos hfd, Option.some.injEq] at hr
      simp only [exec, OffsetCall.toFileCall, hp,
        sysLseek_atStart h.regular hd hnode hzero, hr]
    · simp [shared, hfd] at hr
  | dup | dup2 | close | fork => cases hr

variable {so : FileState σ × BitVec 64}

variable (h : AtStart F content node so)

include h

variable (c : ℕ × OffsetCall)

/-- The descriptor a call works on keeps its offset, so the shared one must not move. -/
theorem stays_of_everyDescriptor
    (hafter : (so.1.exec F c.1 c.2.toFileCall).2.EveryDescriptor fun d =>
      d.offset = (so.1.shared content so.2 c.1 c.2).2) : Stays content so c := by
  obtain ⟨s, cur⟩ := so
  obtain ⟨i, call⟩ := c
  obtain rfl : cur = 0 := h.offset
  have hopen : ∀ fd, s.isOpen i fd = true → ∀ o : BitVec 64,
      (s.EveryDescriptor fun d => d.offset = o) → o = 0 := by
    intro fd hfd o ho
    obtain ⟨p, d, hp, hd⟩ := isOpen_iff.mp hfd
    have hmem := mem_of_descriptor hd
    have hp := mem_of_getElem? hp
    rw [← ho p hp d hmem, (h.descriptors p hp d hmem).2]
  change (s.shared content 0 i call).2 = 0
  cases call with
  | read fd count copyToUser =>
    by_cases hfd : s.isOpen i fd = true
    · rw [OffsetCall.toFileCall, exec_read_state] at hafter
      exact hopen fd hfd _ hafter
    · simp only [shared, if_neg hfd]
  | lseek fd offset whence =>
    by_cases hfd : s.isOpen i fd = true
    · rw [OffsetCall.toFileCall, exec_lseek_state] at hafter
      exact hopen fd hfd _ hafter
    · simp only [shared, if_neg hfd]
  | dup | dup2 | close | fork => rfl

theorem AtStart.follows_iff : FollowsSharedOffset F content so c ↔ Stays content so c := by
  constructor
  · intro hfollows
    exact stays_of_everyDescriptor h c hfollows.offset
  · intro hstays
    refine ⟨h.result c, ?_⟩
    rw [hstays, h.offset]
    intro p hp d hd
    exact ((exec_toFileCall h.descriptors c.1 c.2).1 p hp d hd).2

theorem AtStart.step (hstays : Stays content so c) :
    AtStart F content node (offsetStep F content so c) := by
  obtain ⟨hdescriptors, hfs⟩ := exec_toFileCall (F := F) h.descriptors c.1 c.2
  refine ⟨?_, hdescriptors, ?_⟩
  · change RegularFile F (so.1.exec F c.1 c.2.toFileCall).2.fs node content
    rw [hfs]
    exact h.regular
  · exact Eq.trans hstays h.offset

end AtStart

/-- A run on the descriptors of one open regular file, all still at its start, follows the
shared offset throughout exactly when no call moves that offset. -/
theorem offsets_follow_iff (F : FileSystem σ) (content : List (BitVec 8)) (node : ℕ)
    (s : FileState σ) (hfile : RegularFile F s.fs node content)
    (hopen : s.EveryDescriptor fun d => d.node = node ∧ d.offset = 0)
    (calls : List (ℕ × OffsetCall)) :
    Along (offsetStep F content) (FollowsSharedOffset F content) (s, 0) calls ↔
      Along (offsetStep F content) (Stays content) (s, 0) calls :=
  along_iff_of_inv (I := AtStart F content node) (fun _ c h => h.follows_iff c)
    (fun _ c h => h.step c) ⟨hfile, hopen, rfl⟩

/-! ## A file of two bytes -/

/-- Two reads of one byte from a file with the bytes `a` and `b` both return `a`. -/
theorem twoReads_sameByte :
    let content := [0x61, 0x62]
    let calls : List (ℕ × OffsetCall) := [(0, .read 0 1 true), (0, .read 0 1 true)]
    ((sampleOpen content).exec ramfs 0 (.read 0 1 true)).1 = .ok (.bytes [0x61]) ∧
      (((sampleOpen content).exec ramfs 0 (.read 0 1 true)).2.exec ramfs 0 (.read 0 1 true)).1 =
        .ok (.bytes [0x61]) ∧
      ¬ Along (offsetStep ramfs content) (FollowsSharedOffset ramfs content)
        (sampleOpen content, 0) calls := by
  intro content calls
  refine ⟨by decide +kernel, by decide +kernel, ?_⟩
  rintro ⟨-, h, -⟩
  have hsecond := h.result (.ok (.bytes [0x62])) (by decide +kernel)
  revert hsecond
  decide +kernel

/-- Calls that leave the offset at the start: a duplicate, a read of nothing and a seek by 0. -/
theorem offsets_follow_emptyReads :
    Along (offsetStep ramfs [0x61, 0x62]) (FollowsSharedOffset ramfs [0x61, 0x62])
      (sampleOpen [0x61, 0x62], 0) [(0, .dup 0), (0, .read 1 0 true), (0, .lseek 0 0 1)] := by
  have hnode : (sampleOpen [0x61, 0x62]).fs[1]? =
      some { TmpNode.file [0x66] with content := [0x61, 0x62] } := by decide +kernel
  have hfile := ramfs_regularFile hnode rfl rfl
  have hopen : (sampleOpen [0x61, 0x62]).EveryDescriptor fun d => d.node = 1 ∧ d.offset = 0 := by
    intro p hp d hd
    obtain rfl := mem_singleton.mp hp
    have hd : some d = some ⟨1, 0, 0⟩ := mem_singleton.mp hd
    cases hd
    exact ⟨rfl, rfl⟩
  exact (offsets_follow_iff ramfs [0x61, 0x62] 1 (sampleOpen [0x61, 0x62]) hfile hopen _).mpr
    (by decide +kernel)

end Vahi.Syscalls
