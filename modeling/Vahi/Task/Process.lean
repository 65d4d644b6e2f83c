import Vahi.Syscalls.Landlock
import Vahi.Syscalls.Seccomp

/-!
# Processes and their credentials

The process object of `kernel/src/task/process.rs` and the permission checks of
`kernel/src/syscalls/helpers.rs`. Address space and file descriptors are parameters.
-/

namespace Vahi.Task

open Vahi.Syscalls

structure Credentials where
  uid : BitVec 32
  gid : BitVec 32
  euid : BitVec 32
  egid : BitVec 32
  suid : BitVec 32
  sgid : BitVec 32
  fsuid : BitVec 32
  fsgid : BitVec 32
  capEffective : BitVec 64
  capPermitted : BitVec 64
  capInheritable : BitVec 64
  umask : BitVec 32
  deriving DecidableEq

def Credentials.default : Credentials where
  uid := 0
  gid := 0
  euid := 0
  egid := 0
  suid := 0
  sgid := 0
  fsuid := 0
  fsgid := 0
  capEffective := 0
  capPermitted := 0
  capInheritable := 0
  umask := 0o022

structure ProcessIdentity where
  pgid : BitVec 64
  session : BitVec 64
  isGroupLeader : Bool
  deriving DecidableEq

structure ResourceLimits where
  rlimCur : Fin 16 → Int
  rlimMax : Fin 16 → Int

/-- The limits of a new process: unlimited but for `RLIMIT_MSGQUEUE`. -/
def ResourceLimits.default : ResourceLimits where
  rlimCur := fun i => if i = 12 then 819200 else 2 ^ 63 - 1
  rlimMax := fun i => if i = 12 then 819200 else 2 ^ 63 - 1

structure Vma where
  start : BitVec 64
  stop : BitVec 64
  flags : BitVec 64
  fileHandle : Option (BitVec 64)
  fileOffset : BitVec 64
  isShared : Bool
  shmId : Option (BitVec 32)
  deriving DecidableEq

inductive EmulationMode where
  | native
  | linux
  | windows
  deriving DecidableEq

structure ProcessMemory where
  brk : BitVec 64
  vmas : List Vma

structure ProcessFiles (FD : Type) where
  fdTable : List (Option FD)
  fdFlags : List (BitVec 64)
  cwd : Path
  dirFds : List (ℕ × Path)

structure ProcessSecurity where
  seccomp : SeccompState
  landlock : LandlockState

structure Process (AS FD : Type) where
  id : BitVec 64
  parentId : Option (BitVec 64)
  tgid : BitVec 64
  addressSpace : AS
  entryPoint : BitVec 64
  children : List (BitVec 64)
  signalHandlers : Fin 32 → BitVec 64
  creds : Credentials
  clearChildTid : BitVec 64
  emulation : EmulationMode
  umask : BitVec 32
  identity : ProcessIdentity
  limits : ResourceLimits
  groups : List (BitVec 32)
  noNewPrivs : Bool
  cgroupPath : Path
  memory : ProcessMemory
  files : ProcessFiles FD
  security : ProcessSecurity

namespace Process

variable {AS FD : Type}

def new (id : BitVec 64) (parentId : Option (BitVec 64)) (addressSpace : AS) : Process AS FD where
  id := id
  parentId := parentId
  tgid := id
  addressSpace := addressSpace
  entryPoint := 0
  children := []
  signalHandlers := fun _ => 0
  creds := .default
  clearChildTid := 0
  emulation := .native
  umask := 0o022
  identity := ⟨id, id, true⟩
  limits := .default
  groups := []
  noNewPrivs := false
  cgroupPath := [slash]
  memory := ⟨0, []⟩
  files := ⟨[], [], [slash], []⟩
  security := ⟨.default, .default⟩

/-- `set_credentials`: four of the fields are taken over. -/
def setCredentials (p : Process AS FD) (cred : Credentials) : Process AS FD :=
  { p with creds := { p.creds with
      euid := cred.euid
      egid := cred.egid
      suid := cred.suid
      capEffective := cred.capEffective } }

/-- `clone_credentials_from`: everything but the mask kept inside the credentials. -/
def cloneCredentialsFrom (p parent : Process AS FD) : Process AS FD :=
  { p with
    creds := { parent.creds with umask := p.creds.umask }
    umask := parent.umask
    groups := parent.groups }

end Process

def hasCapability (c : Credentials) (capBit : BitVec 64) : Bool :=
  c.euid = 0 || c.capEffective &&& capBit ≠ 0

def capDacOverride : BitVec 64 := 1 <<< 1

def capDacReadSearch : BitVec 64 := 1 <<< 2

structure Stat where
  mode : BitVec 32
  uid : BitVec 32
  gid : BitVec 32
  deriving DecidableEq

/-- `check_file_permission`; `need` is 4 for read, 2 for write, 1 for execute. -/
def checkFilePermission (c : Credentials) (st : Stat) (need : BitVec 32) : Bool :=
  if hasCapability c capDacOverride then true
  else if hasCapability c capDacReadSearch && need &&& 2 = 0 then true
  else
    let bits :=
      if c.euid = st.uid then (st.mode >>> 6) &&& 7
      else if c.egid = st.gid then (st.mode >>> 3) &&& 7
      else st.mode &&& 7
    bits &&& need = need

/-- The restrictions on a process: what it may call, open and use, and where its
resources are accounted. -/
structure Sandbox where
  seccomp : SeccompState
  landlock : LandlockState
  noNewPrivs : Bool
  limits : ResourceLimits
  cgroupPath : Path

def Process.sandbox {AS FD : Type} (p : Process AS FD) : Sandbox where
  seccomp := p.security.seccomp
  landlock := p.security.landlock
  noNewPrivs := p.noNewPrivs
  limits := p.limits
  cgroupPath := p.cgroupPath

/-- The names on a cgroup path, outermost first. -/
def cgroupComponents (path : Path) : List Path :=
  (path.splitOn slash).filter (· ≠ [])

namespace Sandbox

def default : Sandbox where
  seccomp := .default
  landlock := .default
  noNewPrivs := false
  limits := .default
  cgroupPath := [slash]

/-- `d` refuses whatever `a` refuses: system calls, paths, privileges and
resources; its cgroup is that of `a` or lies below it. -/
structure AtLeastAsRestricted (d a : Sandbox) : Prop where
  seccomp : ∀ nr args, d.seccomp.Allows nr args → a.seccomp.Allows nr args
  landlock : ∀ path access, d.landlock.checkAccess path access → a.landlock.checkAccess path access
  noNewPrivs : a.noNewPrivs → d.noNewPrivs
  rlimCur : ∀ i, d.limits.rlimCur i ≤ a.limits.rlimCur i
  rlimMax : ∀ i, d.limits.rlimMax i ≤ a.limits.rlimMax i
  cgroup : cgroupComponents a.cgroupPath <+: cgroupComponents d.cgroupPath

/-- Nothing is refused: no system call is filtered, no path is closed, no limit is
below the initial one, and the cgroup is the root. -/
structure Unrestricted (s : Sandbox) : Prop where
  seccomp : ∀ nr args, s.seccomp.Allows nr args
  landlock : ∀ path access, s.landlock.checkAccess path access
  noNewPrivs : s.noNewPrivs = false
  rlimCur : ∀ i, ResourceLimits.default.rlimCur i ≤ s.limits.rlimCur i
  rlimMax : ∀ i, ResourceLimits.default.rlimMax i ≤ s.limits.rlimMax i
  cgroup : cgroupComponents s.cgroupPath = []

/-- A fresh sandbox is no weaker than `s` only where `s` has nothing to enforce. -/
theorem default_restricted_iff (s : Sandbox) :
    default.AtLeastAsRestricted s ↔ s.Unrestricted := by
  constructor
  · intro h
    refine ⟨fun nr args => h.seccomp nr args (default_allows nr args),
      fun path access => h.landlock path access (LandlockState.default_checkAccess path access),
      ?_, h.rlimCur, h.rlimMax, ?_⟩
    · cases hs : s.noNewPrivs with
      | false => rfl
      | true => exact absurd (h.noNewPrivs hs) Bool.false_ne_true
    · have hroot := h.cgroup
      exact List.prefix_nil.mp hroot
  · intro h
    refine ⟨fun nr args _ => h.seccomp nr args, fun path access _ => h.landlock path access,
      fun hs => ?_, h.rlimCur, h.rlimMax, ?_⟩
    · rw [h.noNewPrivs] at hs
      exact absurd hs Bool.false_ne_true
    · rw [h.cgroup]
      exact List.nil_prefix

end Sandbox

end Vahi.Task
