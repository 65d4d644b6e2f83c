import Vahi.Vfs.Node

/-!
# Open files

The calls on regular files (`kernel/src/syscalls/fs_open.rs`, `fs_io.rs`, `helpers.rs`) and the
access check of kernel objects (`crates/objects/src/security.rs`). The mandatory policy is taken to
allow everything.
-/

namespace Vahi.Syscalls

open Vahi.Types Vahi.Task Vahi.Vfs

/-! ## Access to kernel objects -/

structure Ace where
  sid : BitVec 32
  accessMask : BitVec 32
  deny : Bool
  deriving DecidableEq

structure SecurityDescriptor where
  owner : BitVec 32
  group : BitVec 32
  dacl : List Ace
  deriving DecidableEq

/-- `SecurityDescriptor::default`, which `VfsObject::new` gives to every file. -/
def SecurityDescriptor.default : SecurityDescriptor := ⟨0, 0, []⟩

def Ace.appliesTo (ace : Ace) (cred : Credentials) : Bool :=
  cred.euid = ace.sid || cred.egid = ace.sid

/-- Owner and root pass; then refusals are looked at before grants. -/
def accessCheck (cred : Credentials) (sec : SecurityDescriptor) (desired : BitVec 32) : Bool :=
  if cred.euid = sec.owner ∨ cred.uid = sec.owner then true
  else if cred.euid = 0 then true
  else if sec.dacl.isEmpty then true
  else if sec.dacl.any fun ace => ace.deny && ace.appliesTo cred && desired &&& ace.accessMask ≠ 0
    then false
  else sec.dacl.any fun ace =>
    !ace.deny && ace.appliesTo cred && desired &&& ace.accessMask = desired

def ACCESS_READ : BitVec 32 := 4

def ACCESS_WRITE : BitVec 32 := 2

/-! ## Descriptors and processes -/

/-- `FileDescriptor::File`. The offset is in a mutex that belongs to this descriptor. The
source has no field `openFlags`: it records the flags of the `open` that the descriptor comes
from, and no call reads it. -/
structure FileDescriptor where
  node : ℕ
  offset : BitVec 64
  openFlags : BitVec 32
  deriving DecidableEq

/-- The clone has a mutex of its own, with the offset of the moment. -/
def FileDescriptor.clone (desc : FileDescriptor) : FileDescriptor :=
  { desc with offset := desc.offset }

structure HandleEntry where
  node : ℕ
  accessMask : BitVec 32
  flags : BitVec 64
  deriving DecidableEq

structure FileProcess where
  creds : Credentials
  umask : BitVec 32
  landlock : LandlockState
  files : ProcessFiles FileDescriptor
  handleTable : List (Option HandleEntry)

/-- `v.resize(i + 1, pad)` if the vector is shorter, then `v[i] = a`. -/
def setPadded {α : Type*} (v : List α) (i : ℕ) (a pad : α) : List α :=
  (v ++ List.replicate (i + 1 - v.length) pad).set i a

namespace FileProcess

def fdTable (p : FileProcess) : List (Option FileDescriptor) := p.files.fdTable

def withFdTable (p : FileProcess) (fdTable : List (Option FileDescriptor))
    (fdFlags : List (BitVec 64)) : FileProcess :=
  { p with files := { p.files with fdTable := fdTable, fdFlags := fdFlags } }

def descriptor (p : FileProcess) (fd : ℕ) : Option FileDescriptor := p.fdTable[fd]?.join

def cloneFdTable (p : FileProcess) : List (Option FileDescriptor) :=
  p.fdTable.map (Option.map FileDescriptor.clone)

theorem cloneFdTable_eq (p : FileProcess) : p.cloneFdTable = p.fdTable := by
  have hclone : Option.map FileDescriptor.clone = id := by
    funext d
    cases d with
    | none => rfl
    | some d => rfl
  rw [cloneFdTable, hclone, List.map_id]

variable {p : FileProcess} {fd : ℕ} {d : FileDescriptor}

theorem descriptor_eq_some : p.descriptor fd = some d ↔ p.fdTable[fd]? = some (some d) := by
  rw [descriptor, Option.join_eq_some_iff]

theorem mem_of_descriptor (h : p.descriptor fd = some d) : some d ∈ p.fdTable :=
  List.mem_of_getElem? (descriptor_eq_some.mp h)

end FileProcess

/-! ## Opening -/

def O_DIRECTORY : BitVec 32 := 0x10000

def O_CREAT : BitVec 32 := 0x40

def LANDLOCK_ACCESS_FS_WRITE_FILE : BitVec 64 := 1 <<< 1

def LANDLOCK_ACCESS_FS_READ_FILE : BitVec 64 := 1 <<< 2

/-- The rights for an access mode: 1 is write, 2 is both and everything else is read. -/
def accessOf {α : Type*} (flags : BitVec 32) (read write both : α) : α :=
  if flags &&& 3 = 1 then write else if flags &&& 3 = 2 then both else read

def objectAccess (flags : BitVec 32) : BitVec 32 :=
  accessOf flags ACCESS_READ ACCESS_WRITE (ACCESS_READ ||| ACCESS_WRITE)

def landlockAccess (flags : BitVec 32) : BitVec 64 :=
  accessOf flags LANDLOCK_ACCESS_FS_READ_FILE LANDLOCK_ACCESS_FS_WRITE_FILE
    (LANDLOCK_ACCESS_FS_READ_FILE ||| LANDLOCK_ACCESS_FS_WRITE_FILE)

/-- The first slot free in the handle table and in the descriptor table. -/
def FileProcess.freeSlot (p : FileProcess) : ℕ :=
  let limit := max p.handleTable.length p.fdTable.length
  ((List.range limit).find? fun i =>
    p.handleTable[i]?.join.isNone && p.fdTable[i]?.join.isNone).getD limit

/-- The first free descriptor, at offset zero. -/
def addFd (p : FileProcess) (node : ℕ) (openFlags : BitVec 32) : Except Errno (ℕ × FileProcess) :=
  if !accessCheck p.creds .default (objectAccess openFlags) then .error .eacces
  else
    let idx := p.freeSlot
    let p := p.withFdTable (setPadded p.fdTable idx (some ⟨node, 0, openFlags⟩) none)
      (setPadded p.files.fdFlags idx (openFlags.signExtend 64) 0)
    .ok (idx, { p with
      handleTable := setPadded p.handleTable idx
        (some ⟨node, objectAccess openFlags, openFlags.signExtend 64⟩) none })

def FileProcess.storeDirPath (p : FileProcess) (fd : ℕ) (path : Path) : FileProcess :=
  let absolute :=
    if path.head? = some slash then path
    else if p.files.cwd = [slash] then slash :: path else p.files.cwd ++ slash :: path
  let absolute :=
    if 1 < absolute.length ∧ absolute.getLast? = some slash then absolute.dropLast else absolute
  { p with files := { p.files with
    dirFds := (fd, absolute) :: p.files.dirFds.filter (·.1 ≠ fd) } }

/-- The parent of a path and the name in it, cut at the last slash. -/
def splitAtLastSlash (path : Path) : Path × Path :=
  match (path.reverse.findIdx? (· = slash)).map (path.length - 1 - ·) with
  | none | some 0 => ([slash], path.drop 1)
  | some i => (path.take i, path.drop (i + 1))

section Calls

variable {σ : Type} (F : FileSystem σ)

variable (p : FileProcess)

def FileProcess.mayAccess (fs : σ) (node : ℕ) (need : BitVec 32) : Bool :=
  match F.stat fs node with
  | some st => checkFilePermission p.creds st.toStat need
  | none => true

/-- The mode of the node is not looked at. -/
def openExisting (fs : σ) (p : FileProcess) (path : Path) (flags : BitVec 32) (node : ℕ) :
    Except Errno (ℕ × FileProcess) :=
  if !p.landlock.checkAccess path (landlockAccess flags) then .error .eacces
  else if flags &&& O_DIRECTORY ≠ 0 ∧ !F.isDir fs node then .error .enotdir
  else
    match addFd p node flags with
    | .error e => .error e
    | .ok (fd, p) => .ok (fd, if F.isDir fs node then p.storeDirPath fd path else p)

/-- The parent must be writable and searchable; Landlock is not asked. -/
def openCreating (mounts : List MountPoint) (fs : σ) (p : FileProcess) (path : Path)
    (flags mode : BitVec 32) : Except Errno (ℕ × FileProcess) × σ :=
  let (parentPath, name) := splitAtLastSlash path
  match resolvePath F fs mounts parentPath with
  | none => (.error .enoent, fs)
  | some parent =>
    if !p.mayAccess F fs parent 3 then (.error .eacces, fs)
    else
      match F.create fs parent name with
      | (none, fs) => (.error .eio, fs)
      | (some node, fs) =>
        let rawMode := if mode = 0 then 0o666 else mode
        let fs := F.chmod fs node (rawMode &&& ~~~p.umask)
        let fs := F.chown fs node p.creds.euid p.creds.egid
        (addFd p node flags, fs)

/-- A path that leads nowhere is made if `O_CREAT` is given. -/
def openFile (mounts : List MountPoint) (fs : σ) (p : FileProcess) (path : Path)
    (flags mode : BitVec 32) : Except Errno (ℕ × FileProcess) × σ :=
  match resolvePath F fs mounts path with
  | some node => (openExisting F fs p path flags node, fs)
  | none =>
    if flags &&& O_CREAT ≠ 0 then openCreating F mounts fs p path flags mode
    else (.error .enoent, fs)

/-! ## Reading, writing and seeking -/

/-- The `File` branch of `sys_read`: the bytes copied to the user, and the descriptor with
its offset. `copyToUser` is whether the buffer could be written. -/
def FileDescriptor.read (fs : σ) (desc : FileDescriptor) (count : BitVec 64) (copyToUser : Bool) :
    Except Errno (List (BitVec 8)) × FileDescriptor :=
  match F.read fs desc.node count with
  | none => (.error .eio, desc)
  | some data =>
    let data := data.take count.toNat
    if data.length = 0 then (.ok [], desc)
    else if !copyToUser then (.error .efault, desc)
    else (.ok data, { desc with offset := desc.offset + BitVec.ofNat 64 data.length })

def seekTarget (size cur offset : BitVec 64) (whence : BitVec 32) : Option (BitVec 64) :=
  if whence = 0 then some offset
  else if whence = 1 then some (cur + offset)
  else if whence = 2 then some (size + offset)
  else none

def FileDescriptor.lseek (fs : σ) (desc : FileDescriptor) (offset : BitVec 64)
    (whence : BitVec 32) : Except Errno (BitVec 64) × FileDescriptor :=
  match F.stat fs desc.node with
  | none => (.error .eio, desc)
  | some st =>
    match seekTarget st.size desc.offset offset whence with
    | none => (.error .einval, desc)
    | some newPos => (.ok newPos, { desc with offset := newPos })

-- In these three calls the descriptor is one of a clone of the table, which is dropped when
-- the call returns: what they do to its offset does not reach the process.

/-- The table is cloned: the offset moves in a copy. -/
def sysRead (fs : σ) (p : FileProcess) (fd : ℕ) (count : BitVec 64) (copyToUser : Bool) :
    Except Errno (List (BitVec 8)) :=
  match p.cloneFdTable[fd]? with
  | none | some none => .error .ebadf
  | some (some desc) => (desc.read F fs count copyToUser).1

def sysLseek (fs : σ) (p : FileProcess) (fd : ℕ) (offset : BitVec 64) (whence : BitVec 32) :
    Except Errno (BitVec 64) :=
  match p.cloneFdTable[fd]? with
  | none => .error .ebadf
  | some none => .error .espipe
  | some (some desc) => (desc.lseek F fs offset whence).1

/-- `data` is what could be copied from the user. -/
def sysWrite (fs : σ) (p : FileProcess) (fd : ℕ) (data : Option (List (BitVec 8))) :
    Except Errno ℕ × σ :=
  match data with
  | none => (.error .efault, fs)
  | some data =>
    match p.cloneFdTable[fd]? with
    | none | some none => (.error .ebadf, fs)
    | some (some desc) =>
      match F.write fs desc.node data with
      | (true, fs) => (.ok data.length, fs)
      | (false, fs) => (.error .eio, fs)

/-! ## Copying and closing descriptors -/

def sysDup (oldFd : ℕ) : Except Errno (ℕ × FileProcess) :=
  match p.descriptor oldFd with
  | none => .error .ebadf
  | some desc =>
    match p.fdTable.findIdx? Option.isNone with
    | some i => .ok (i, p.withFdTable (p.fdTable.set i (some desc.clone))
        (setPadded p.files.fdFlags i 0 0))
    | none => .ok (p.fdTable.length, p.withFdTable (p.fdTable ++ [some desc.clone])
        (p.files.fdFlags ++ [0]))

def O_CLOEXEC : BitVec 64 := 0x80000

/-- The copy has its own offset and is kept over `execve`. -/
def sysDup2 (oldFd newFd : ℕ) : Except Errno (ℕ × FileProcess) :=
  match p.descriptor oldFd with
  | none => .error .ebadf
  | some desc =>
    let table := setPadded p.fdTable newFd (some desc.clone) none
    let flags := p.files.fdFlags ++ List.replicate (table.length - p.files.fdFlags.length) 0
    .ok (newFd, p.withFdTable table
      (flags.set newFd (p.files.fdFlags.getD oldFd 0 &&& ~~~O_CLOEXEC)))

def sysClose (fd : ℕ) : Except Errno FileProcess :=
  match p.descriptor fd with
  | none => .error .ebadf
  | some _ =>
    let p := p.withFdTable (p.fdTable.set fd none) (p.files.fdFlags.set fd 0)
    .ok { p with handleTable := p.handleTable.set fd none }

/-- The files and credentials of a forked child; its handle table is empty and its
sandbox that of a new process. -/
def forkFiles (parent : FileProcess) : FileProcess where
  creds := { parent.creds with umask := Credentials.default.umask }
  umask := parent.umask
  landlock := .default
  files :=
    { parent.files with
      fdTable := parent.cloneFdTable
      cwd := [slash] }
  handleTable := []

end Calls

/-! ## The system -/

structure FileState (σ : Type) where
  fs : σ
  mounts : List MountPoint
  procs : List FileProcess

inductive FileCall where
  | open (path : Path) (flags mode : BitVec 32)
  | read (fd : ℕ) (count : BitVec 64) (copyToUser : Bool)
  | write (fd : ℕ) (data : Option (List (BitVec 8)))
  | lseek (fd : ℕ) (offset : BitVec 64) (whence : BitVec 32)
  | dup (fd : ℕ)
  | dup2 (oldFd newFd : ℕ)
  | close (fd : ℕ)
  | fork
  deriving DecidableEq

inductive FileResult where
  | value (n : ℕ)
  | bytes (data : List (BitVec 8))
  deriving DecidableEq

namespace FileState

variable {σ : Type} (F : FileSystem σ)

def setProc (s : FileState σ) (i : ℕ) (p : FileProcess) : FileState σ :=
  { s with procs := s.procs.set i p }

def installed (s : FileState σ) (i : ℕ) (r : Except Errno (ℕ × FileProcess)) :
    Except Errno FileResult × FileState σ :=
  match r with
  | .error e => (.error e, s)
  | .ok (fd, p) => (.ok (.value fd), s.setProc i p)

/-- A call by process `i`; without such a process nothing happens. -/
def exec (s : FileState σ) (i : ℕ) (call : FileCall) : Except Errno FileResult × FileState σ :=
  match s.procs[i]? with
  | none => (.error .esrch, s)
  | some p =>
    match call with
    | .open path flags mode =>
      let (r, fs) := openFile F s.mounts s.fs p path flags mode
      { s with fs := fs }.installed i r
    | .read fd count copyToUser => ((sysRead F s.fs p fd count copyToUser).map .bytes, s)
    | .write fd data =>
      let (r, fs) := sysWrite F s.fs p fd data
      (r.map .value, { s with fs := fs })
    | .lseek fd offset whence =>
      ((sysLseek F s.fs p fd offset whence).map fun n => .value n.toNat, s)
    | .dup fd => s.installed i (sysDup p fd)
    | .dup2 oldFd newFd => s.installed i (sysDup2 p oldFd newFd)
    | .close fd => s.installed i ((sysClose p fd).map fun p => (0, p))
    | .fork => (.ok (.value s.procs.length), { s with procs := s.procs ++ [forkFiles p] })

end FileState

/-! ## A sample system -/

def samplePath : Path := [slash, 0x66]

variable (content : List (BitVec 8))

/-- A root directory with the file `f`, and the bytes of the file. -/
def sampleNodes : List TmpNode :=
  [{ TmpNode.file [] with isDir := true, children := [1] },
    { TmpNode.file [0x66] with content := content }]

def sampleProcess : FileProcess where
  creds := { Credentials.default with uid := 1000, gid := 1000, euid := 1000, egid := 1000 }
  umask := 0o022
  landlock := .default
  files := ⟨[], [], [slash], []⟩
  handleTable := []

def sampleState : FileState (List TmpNode) where
  fs := sampleNodes content
  mounts := [⟨[slash], some 0⟩]
  procs := [sampleProcess]

def sampleOpen : FileState (List TmpNode) :=
  ((sampleState content).exec ramfs 0 (.open samplePath 0 0)).2

end Vahi.Syscalls
