import Vahi.Memory.CowIsolation
import Vahi.Task.Process

/-!
# Process creation and replacement

`sys_fork`, `sys_clone` and `sys_execve` (`kernel/src/syscalls/process_lifecycle.rs`) with
`Process::load_elf`. Process objects live in an append-only list; what the address-space code, the
file system, the security hooks and the loader answer is part of the call.
-/

namespace Vahi.Syscalls

open Vahi.Lib Vahi.Types Vahi.Task

structure Thread where
  process : Option ℕ
  fsBase : BitVec 64

structure Kernel (AS FD : Type) where
  procs : List (Process AS FD)
  processTable : BitVec 64 → Option ℕ
  threads : List Thread
  currentProcess : Option ℕ
  activeSpace : AS
  nextId : BitVec 64

namespace Kernel

variable {AS FD : Type}

def threadProcess (k : Kernel AS FD) (t : ℕ) : Option (ℕ × Process AS FD) := do
  let thread ← k.threads[t]?
  let i ← thread.process
  let p ← k.procs[i]?
  some (i, p)

def getCurrentProcess (k : Kernel AS FD) (t : ℕ) : Option (ℕ × Process AS FD) :=
  match k.threadProcess t with
  | some ip => some ip
  | none => do
    let i ← k.currentProcess
    let p ← k.procs[i]?
    some (i, p)

def takeId (k : Kernel AS FD) : BitVec 64 × Kernel AS FD :=
  (k.nextId, { k with nextId := k.nextId + 1 })

def modifyProcess (k : Kernel AS FD) (i : ℕ) (f : Process AS FD → Process AS FD) :
    Kernel AS FD :=
  { k with procs := k.procs.modify i f }

/-- The tail of `sys_fork` and `sys_clone`: the parent's list of children, the
process table and the scheduler learn about the child. -/
def publish (k : Kernel AS FD) (i : ℕ) (child : Process AS FD) (thread : Thread) :
    Kernel AS FD :=
  let j := k.procs.length
  { k with
    procs := (k.procs.modify i fun p => { p with children := p.children ++ [child.id] }) ++ [child]
    processTable := Function.update k.processTable child.id (some j)
    threads := k.threads ++ [{ thread with process := some j }] }

def sandboxes (k : Kernel AS FD) : List Sandbox := k.procs.map Process.sandbox

/-- A change that leaves every sandbox alone leaves the list of sandboxes alone. -/
theorem map_sandbox_modify (procs : List (Process AS FD)) (i : ℕ)
    (f : Process AS FD → Process AS FD) (hf : ∀ p, (f p).sandbox = p.sandbox) :
    (procs.modify i f).map Process.sandbox = procs.map Process.sandbox := by
  induction procs generalizing i with
  | nil => simp
  | cons p procs ih =>
    cases i with
    | zero => simp [hf]
    | succ i => simp [ih]

@[simp] theorem publish_sandboxes (k : Kernel AS FD) (i : ℕ) (child : Process AS FD)
    (thread : Thread) :
    (k.publish i child thread).sandboxes = k.sandboxes ++ [child.sandbox] := by
  unfold sandboxes publish
  rw [List.map_append, map_sandbox_modify]
  · rfl
  · exact fun _ => rfl

end Kernel

structure Cgroup where
  pidsCurrent : ℕ
  pidsMax : Option ℕ

def Cgroup.canFork (cg : Cgroup) : Bool :=
  match cg.pidsMax with
  | some max => cg.pidsCurrent < max
  | none => true

section Calls

variable {AS FD : Type}

/-- The fields that `sys_fork` and `sys_clone` both copy into the child. -/
def copyParent (parent child : Process AS FD) : Process AS FD :=
  let child := child.cloneCredentialsFrom parent
  { child with
    memory := { child.memory with vmas := parent.memory.vmas }
    entryPoint := parent.entryPoint
    files := { child.files with
      fdTable := parent.files.fdTable
      fdFlags := parent.files.fdFlags
      dirFds := parent.files.dirFds }
    identity := ⟨parent.identity.pgid, parent.identity.session, false⟩ }

structure ForkEnv (AS : Type) where
  findCgroup : Path → Option Cgroup
  cloneCow : AS → Option AS
  cloneFork : Bool

/-- The child is published last; a failure leaves the number taken. -/
def sysFork (env : ForkEnv AS) (k : Kernel AS FD) (t : ℕ) :
    Kernel AS FD × Except Errno (BitVec 64) :=
  match k.threadProcess t, k.threads[t]? with
  | some (i, parent), some thread =>
    if (env.findCgroup parent.cgroupPath).any (!·.canFork) then (k, .error .eagain)
    else
      match env.cloneCow parent.addressSpace with
      | none => (k, .error .enomem)
      | some childAs =>
        let (childPid, k) := k.takeId
        let child := copyParent parent (.new childPid (some parent.id) childAs)
        let child := { child with memory := { child.memory with brk := parent.memory.brk } }
        if env.cloneFork then (k.publish i child thread, .ok childPid)
        else (k, .error .enomem)
  | _, _ => (k, .error .eperm)

def cloneSettls : BitVec 64 := 0x80000
def cloneParentSettid : BitVec 64 := 0x00100000
def cloneChildSettid : BitVec 64 := 0x02000000
def cloneChildCleartid : BitVec 64 := 0x00200000

/-- The arguments of `sys_clone`, and what the rest of the kernel answers. -/
structure CloneEnv (AS : Type) where
  flags : BitVec 64
  parentTid : BitVec 64
  childTidptr : BitVec 64
  childTls : BitVec 64
  cloneCow : AS → Option AS
  writeChild : Bool
  copyToUser : Bool
  cloneThread : Bool

/-- The child is a process of its own; the control group is not asked. -/
def sysClone (env : CloneEnv AS) (k : Kernel AS FD) (t : ℕ) :
    Kernel AS FD × Except Errno (BitVec 64) :=
  match k.threadProcess t, k.threads[t]? with
  | some (i, parent), some thread =>
    let (childPid, k) := k.takeId
    match env.cloneCow parent.addressSpace with
    | none => (k, .error .enomem)
    | some childAs =>
      let child := copyParent parent (.new childPid (some parent.id) childAs)
      let child := { child with signalHandlers := parent.signalHandlers }
      let child :=
        if env.flags &&& cloneChildCleartid ≠ 0 ∧ env.childTidptr ≠ 0 then
          { child with clearChildTid := env.childTidptr }
        else child
      if (env.flags &&& cloneChildSettid ≠ 0 ∧ env.childTidptr ≠ 0) ∧ env.writeChild = false then
        (k, .error .efault)
      else if (env.flags &&& cloneParentSettid ≠ 0 ∧ env.parentTid ≠ 0) ∧ env.copyToUser = false then
        (k, .error .efault)
      else if env.cloneThread then
        let thread :=
          if env.flags &&& cloneSettls ≠ 0 then { thread with fsBase := env.childTls } else thread
        (k.publish i child thread, .ok childPid)
      else (k, .error .enomem)
  | _, _ => (k, .error .eperm)

structure Image (AS : Type) where
  addressSpace : AS
  entry : BitVec 64
  vmas : List Vma
  brk : BitVec 64

/-- A file found by path; `none` is an I/O error. -/
structure Node where
  stat : Option Stat
  read : Option (List (BitVec 8))

/-- The arguments of `sys_execve` as read from user space, and what the rest of the
kernel answers. -/
structure ExecEnv (AS : Type) where
  path : Option Path
  hookFilePerm : Path → Bool
  resolvePath : Path → Option Node
  hookSetuidExec : Path → Bool
  newAddressSpace : Option AS
  loadElf : List (BitVec 8) → AS → Option (Image AS)
  detectEmulation : List (BitVec 8) → EmulationMode
  setupUserStack : Image AS → Bool

def isSetuid (st : Stat) : Bool := st.mode &&& 0o4000 ≠ 0

def isSetgid (st : Stat) : Bool := st.mode &&& 0o2000 ≠ 0

/-- `check_node_permission` for the current process, or for the kernel itself
(effective ids 0, no capabilities) when there is none. -/
def checkNodePermission (p : Option (Process AS FD)) (node : Node) (need : BitVec 32) : Bool :=
  match node.stat with
  | none => true
  | some st =>
    match p with
    | some p => checkFilePermission p.creds st need
    | none =>
      let bits :=
        if 0 = st.uid then (st.mode >>> 6) &&& 7
        else if 0 = st.gid then (st.mode >>> 3) &&& 7
        else st.mode &&& 7
      bits &&& need = need

def setIdCredentials (c : Credentials) (st : Stat) : Credentials :=
  let c := if isSetuid st then { c with euid := st.uid, suid := st.uid } else c
  if isSetgid st then { c with egid := st.gid, sgid := st.gid } else c

/-- The descriptor table after `execve`: slots flagged close-on-exec are emptied. -/
def closeOnExec (fdTable : List (Option FD)) (fdFlags : List (BitVec 64)) : List (Option FD) :=
  fdTable.mapIdx fun i slot => if fdFlags.getD i 0 &&& 0x80000 ≠ 0 then none else slot

/-- The set-id block of `sys_execve`: the caller's own object is changed. -/
def applySetId (env : ExecEnv AS) (k : Kernel AS FD) (t : ℕ) (path : Path) (node : Node) :
    Except Errno (Kernel AS FD) :=
  match node.stat with
  | none => .ok k
  | some st =>
    if isSetuid st || isSetgid st then
      if env.hookSetuidExec path then
        match k.getCurrentProcess t with
        | some (i, p) =>
          .ok (k.modifyProcess i fun p' => p'.setCredentials (setIdCredentials p.creds st))
        | none => .ok k
      else .error .eacces
    else .ok k

/-- `Process::load_elf`: a fresh object without a parent takes the image. -/
def loadedProcess (pid : BitVec 64) (image : Image AS) : Process AS FD :=
  let p : Process AS FD := .new pid none image.addressSpace
  { p with entryPoint := image.entry, memory := ⟨image.brk, image.vmas⟩ }

/-- The tail of `sys_execve`, from the loaded file on. -/
def replaceImage (env : ExecEnv AS) (k : Kernel AS FD) (t : ℕ) (data : List (BitVec 8))
    (image : Image AS) : Kernel AS FD × Except Errno Unit :=
  let (pid, k) := k.takeId
  let (fdTable, fdFlags) : List (Option FD) × List (BitVec 64) :=
    match k.getCurrentProcess t with
    | some (_, p) => (p.files.fdTable, p.files.fdFlags)
    | none => ([], [])
  let p : Process AS FD := loadedProcess pid image
  let p := { p with
    emulation := env.detectEmulation data
    files := { p.files with fdTable := closeOnExec fdTable fdFlags, fdFlags := fdFlags } }
  let k := { k with activeSpace := image.addressSpace }
  if env.setupUserStack image then
    ({ k with
        procs := k.procs ++ [p]
        currentProcess := some k.procs.length
        threads := k.threads.modify t fun th => { th with process := some k.procs.length } },
      .ok ())
  else (k, .error .enomem)

/-- `sys_execve`. A successful call does not return to its caller: the thread runs
the new image. -/
def sysExecve (env : ExecEnv AS) (k : Kernel AS FD) (t : ℕ) :
    Outcome (Kernel AS FD × Except Errno Unit) :=
  match env.path with
  | none => .ok (k, .error .efault)
  | some path =>
    if env.hookFilePerm path = false then .ok (k, .error .eacces)
    else
      match env.resolvePath path with
      | none => .ok (k, .error .enoent)
      | some node =>
        if checkNodePermission ((k.getCurrentProcess t).map (·.2)) node 1 = false then
          .ok (k, .error .eacces)
        else
          match applySetId env k t path node with
          | .error e => .ok (k, .error e)
          | .ok k =>
            match node.read with
            | none => .ok (k, .error .eio)
            | some data =>
              match env.newAddressSpace with
              | none => .panic
              | some newAs =>
                match env.loadElf data newAs with
                | none => .ok (k, .error .enoexec)
                | some image => .ok (replaceImage env k t data image)

/-- `sys_execve` up to the contents of the file. -/
def readExec (env : ExecEnv AS) (k : Kernel AS FD) (t : ℕ) :
    Kernel AS FD × Except Errno (List (BitVec 8)) :=
  match env.path with
  | none => (k, .error .efault)
  | some path =>
    if env.hookFilePerm path = false then (k, .error .eacces)
    else
      match env.resolvePath path with
      | none => (k, .error .enoent)
      | some node =>
        if checkNodePermission ((k.getCurrentProcess t).map (·.2)) node 1 = false then
          (k, .error .eacces)
        else
          match applySetId env k t path node with
          | .error e => (k, .error e)
          | .ok k => (k, node.read.elim (.error .eio) .ok)

/-- What `execve` is meant to leave alone: pid, parent, ids and capability sets, but
for the effective and saved ids that a set-id file replaces by its owner's. -/
structure KeepsIdentity (file : Option Stat) (caller p : Process AS FD) : Prop where
  id : p.id = caller.id
  parentId : p.parentId = caller.parentId
  uid : p.creds.uid = caller.creds.uid
  gid : p.creds.gid = caller.creds.gid
  euid : p.creds.euid = (file.elim caller.creds (setIdCredentials caller.creds)).euid
  egid : p.creds.egid = (file.elim caller.creds (setIdCredentials caller.creds)).egid
  suid : p.creds.suid = (file.elim caller.creds (setIdCredentials caller.creds)).suid
  sgid : p.creds.sgid = (file.elim caller.creds (setIdCredentials caller.creds)).sgid
  capEffective : p.creds.capEffective = caller.creds.capEffective
  capPermitted : p.creds.capPermitted = caller.creds.capPermitted
  capInheritable : p.creds.capInheritable = caller.creds.capInheritable

/-- The caller is indistinguishable from a new process of user 0: it holds the pid
that is handed out next, has no parent, no capabilities, and every id that a
set-id bit does not replace is 0. -/
structure LooksFresh (nextId : BitVec 64) (file : Option Stat) (caller : Process AS FD) :
    Prop where
  id : caller.id = nextId
  parentId : caller.parentId = none
  uid : caller.creds.uid = 0
  gid : caller.creds.gid = 0
  user : (file.any isSetuid = false → caller.creds.euid = 0 ∧ caller.creds.suid = 0) ∧
    ∀ st, file = some st → isSetuid st → st.uid = 0
  group : (file.any isSetgid = false → caller.creds.egid = 0 ∧ caller.creds.sgid = 0) ∧
    ∀ st, file = some st → isSetgid st → st.gid = 0
  capEffective : caller.creds.capEffective = 0
  capPermitted : caller.creds.capPermitted = 0
  capInheritable : caller.creds.capInheritable = 0

variable {α : Type} {env : ExecEnv AS} {k k' : Kernel AS FD} {t : ℕ} {caller p : Process AS FD}
  (c : Credentials) {r : Except Errno Unit}

theorem setIdCredentials_user (st : Stat) :
    ((setIdCredentials c st).euid = 0 ∧ (setIdCredentials c st).suid = 0) ↔
      (isSetuid st = false → c.euid = 0 ∧ c.suid = 0) ∧ (isSetuid st → st.uid = 0) := by
  cases hu : isSetuid st <;> cases hg : isSetgid st <;> simp [setIdCredentials, hu, hg]

theorem setIdCredentials_group (st : Stat) :
    ((setIdCredentials c st).egid = 0 ∧ (setIdCredentials c st).sgid = 0) ↔
      (isSetgid st = false → c.egid = 0 ∧ c.sgid = 0) ∧ (isSetgid st → st.gid = 0) := by
  cases hu : isSetuid st <;> cases hg : isSetgid st <;> simp [setIdCredentials, hu, hg]

/-- The sandboxes a call adds: one without restrictions if it succeeds. -/
def added {α : Type} : Except Errno α → List Sandbox
  | .ok _ => [.default]
  | .error _ => []

@[simp] theorem added_ok (a : α) : added (.ok a) = [.default] := rfl

@[simp] theorem added_error (e : Errno) : added (.error e : Except Errno α) = [] := rfl

theorem sysFork_sandboxes (env : ForkEnv AS) (k : Kernel AS FD) (t : ℕ) :
    (sysFork env k t).1.sandboxes = k.sandboxes ++ added (sysFork env k t).2 := by
  simp only [sysFork, Kernel.takeId]
  repeat' split
  all_goals first
    | exact (List.append_nil _).symm
    | exact Kernel.publish_sandboxes _ _ _ _

theorem sysClone_sandboxes (env : CloneEnv AS) (k : Kernel AS FD) (t : ℕ) :
    (sysClone env k t).1.sandboxes = k.sandboxes ++ added (sysClone env k t).2 := by
  simp only [sysClone, Kernel.takeId]
  repeat' split
  all_goals first
    | exact (List.append_nil _).symm
    | exact Kernel.publish_sandboxes _ _ _ _

/-- The set-id block changes nothing but credentials. -/
structure SetIdOnly (k k' : Kernel AS FD) : Prop where
  threads : k'.threads = k.threads
  nextId : k'.nextId = k.nextId
  sandboxes : k'.sandboxes = k.sandboxes
  activeSpace : k'.activeSpace = k.activeSpace

theorem setIdOnly_applySetId {path : Path} {node : Node}
    (h : applySetId env k t path node = .ok k') : SetIdOnly k k' := by
  unfold applySetId at h
  repeat' split at h
  all_goals cases h
  all_goals refine ⟨rfl, rfl, ?_, rfl⟩
  all_goals first
    | rfl
    | exact Kernel.map_sandbox_modify _ _ _ fun _ => rfl

theorem setIdOnly_readExec (env : ExecEnv AS) (k : Kernel AS FD) (t : ℕ) :
    SetIdOnly k (readExec env k t).1 := by
  unfold readExec
  repeat' split
  all_goals first
    | exact ⟨rfl, rfl, rfl, rfl⟩
    | exact setIdOnly_applySetId ‹_›

/-- The call reads the file, makes the address space and replaces the image. -/
theorem sysExecve_eq (env : ExecEnv AS) (k : Kernel AS FD) (t : ℕ) : sysExecve env k t =
    match readExec env k t with
    | (k, .error e) => .ok (k, .error e)
    | (k, .ok data) =>
      match env.newAddressSpace with
      | none => .panic
      | some newAs =>
        match env.loadElf data newAs with
        | none => .ok (k, .error .enoexec)
        | some image => .ok (replaceImage env k t data image) := by
  unfold sysExecve readExec
  repeat' split
  all_goals simp_all

/-- The object that takes over after a successful load is a new process of user 0. -/
theorem replaceImage_ok {data : List (BitVec 8)} {image : Image AS}
    (h : replaceImage env k t data image = (k', .ok ())) :
    ∃ p : Process AS FD, p.id = k.nextId ∧ p.parentId = none ∧ p.creds = .default ∧
      p.sandbox = .default ∧ k'.procs = k.procs ++ [p] ∧
      k'.threads = k.threads.modify t fun th => { th with process := some k.procs.length } := by
  simp only [replaceImage, Kernel.takeId] at h
  split at h
  · cases h
    exact ⟨_, rfl, rfl, rfl, rfl, rfl, rfl⟩
  · cases h

/-- A call that returns stops in the set-id block's state or replaces the image from there. -/
theorem sysExecve_cases (h : sysExecve env k t = .ok (k', r)) :
    (k' = (readExec env k t).1 ∧ ∃ e, r = .error e) ∨
      ∃ data image, replaceImage env (readExec env k t).1 t data image = (k', r) := by
  rw [sysExecve_eq] at h
  generalize readExec env k t = out at h ⊢
  obtain ⟨k₁, e | data⟩ := out
  · cases h
    exact .inl ⟨rfl, e, rfl⟩
  dsimp only at h
  repeat' split at h
  · cases h
  · cases h
    exact .inl ⟨rfl, _, rfl⟩
  · exact .inr ⟨data, _, Outcome.ok.inj h⟩

theorem sysExecve_sandboxes (h : sysExecve env k t = .ok (k', r)) :
    k'.sandboxes = k.sandboxes ++ added r := by
  rw [← (setIdOnly_readExec env k t).sandboxes]
  obtain ⟨rfl, e, rfl⟩ | ⟨data, image, hreplace⟩ := sysExecve_cases h
  · simp
  simp only [replaceImage, Kernel.takeId] at hreplace
  split at hreplace
  · cases hreplace
    exact List.map_append
  · cases hreplace
    exact (List.append_nil _).symm

def execFile (env : ExecEnv AS) : Option Stat := do
  let path ← env.path
  let node ← env.resolvePath path
  node.stat

theorem keepsIdentity_iff_of_fresh {nextId : BitVec 64} {file : Option Stat} (hid : p.id = nextId)
    (hparent : p.parentId = none)
    (hcreds : p.creds = .default) :
    KeepsIdentity file caller p ↔ LooksFresh nextId file caller := by
  have huser : ((file.elim caller.creds (setIdCredentials caller.creds)).euid = 0 ∧
      (file.elim caller.creds (setIdCredentials caller.creds)).suid = 0) ↔
      (file.any isSetuid = false → caller.creds.euid = 0 ∧ caller.creds.suid = 0) ∧
        ∀ st, file = some st → isSetuid st → st.uid = 0 := by
    cases file with
    | none => simp
    | some st => simpa using setIdCredentials_user caller.creds st
  have hgroup : ((file.elim caller.creds (setIdCredentials caller.creds)).egid = 0 ∧
      (file.elim caller.creds (setIdCredentials caller.creds)).sgid = 0) ↔
      (file.any isSetgid = false → caller.creds.egid = 0 ∧ caller.creds.sgid = 0) ∧
        ∀ st, file = some st → isSetgid st → st.gid = 0 := by
    cases file with
    | none => simp
    | some st => simpa using setIdCredentials_group caller.creds st
  constructor
  · rintro ⟨h1, h2, h3, h4, h5, h6, h7, h8, h9, h10, h11⟩
    rw [hcreds] at h3 h4 h5 h6 h7 h8 h9 h10 h11
    exact ⟨h1.symm.trans hid, h2.symm.trans hparent, h3.symm, h4.symm,
      huser.mp ⟨h5.symm, h7.symm⟩, hgroup.mp ⟨h6.symm, h8.symm⟩, h9.symm, h10.symm, h11.symm⟩
  · intro h
    obtain ⟨he, hs⟩ := huser.mpr h.user
    obtain ⟨hge, hgs⟩ := hgroup.mpr h.group
    refine ⟨hid.trans h.id.symm, hparent.trans h.parentId.symm, ?_, ?_, ?_, ?_, ?_, ?_, ?_, ?_, ?_⟩
    all_goals rw [hcreds]
    exacts [h.uid.symm, h.gid.symm, he.symm, hge.symm, hs.symm, hgs.symm, h.capEffective.symm,
      h.capPermitted.symm, h.capInheritable.symm]

/-- After a successful `execve` the thread runs the appended object. -/
theorem threadProcess_modify {i : ℕ} {n : ℕ} (hcaller : k.threadProcess t = some (i, caller))
    (hthreads : k'.threads = k.threads.modify t fun th => { th with process := some n })
    (hp : k'.procs[n]? = some p) : k'.threadProcess t = some (n, p) := by
  simp only [Kernel.threadProcess, Option.bind_eq_bind, Option.bind_eq_some_iff] at hcaller
  obtain ⟨thread, hthread, -⟩ := hcaller
  simp [Kernel.threadProcess, hthreads, hthread, hp]

/-- A process that replaces its image keeps its identity only if nothing about it
told it apart from a new process of user 0. -/
theorem execve_keepsIdentity_iff {env : ExecEnv AS} {k k' : Kernel AS FD} {t i : ℕ}
    {caller : Process AS FD} (hcaller : k.threadProcess t = some (i, caller))
    (h : sysExecve env k t = .ok (k', .ok ())) :
    (∃ j p, k'.threadProcess t = some (j, p) ∧ KeepsIdentity (execFile env) caller p) ↔
      LooksFresh k.nextId (execFile env) caller := by
  obtain ⟨-, e, he⟩ | ⟨data, image, hreplace⟩ := sysExecve_cases h
  · cases he
  obtain ⟨hthreads, hnext, -, -⟩ := setIdOnly_readExec env k t
  obtain ⟨p, hid, hparent, hcreds, -, hprocs, hthreads'⟩ := replaceImage_ok hreplace
  have hp : k'.threadProcess t = some ((readExec env k t).1.procs.length, p) := by
    apply threadProcess_modify hcaller
    · rw [hthreads', hthreads]
    · simp [hprocs]
  rw [← keepsIdentity_iff_of_fresh (hid.trans hnext) hparent hcreds]
  constructor
  · rintro ⟨j, q, hq, hkeeps⟩
    rw [hp] at hq
    cases hq
    exact hkeeps
  · intro hkeeps
    exact ⟨_, p, hp, hkeeps⟩

end Calls

def singleProcess (id : BitVec 64) (c : Credentials) : Kernel Unit Unit where
  procs := [{ (Process.new id none () : Process Unit Unit) with creds := c }]
  processTable := Function.update (fun _ => none) id (some 0)
  threads := [⟨some 0, 0⟩]
  currentProcess := some 0
  activeSpace := ()
  nextId := 100

def rootFile (mode : BitVec 32) : ExecEnv Unit where
  path := some [slash]
  hookFilePerm := fun _ => true
  resolvePath := fun _ => some ⟨some ⟨mode, 0, 0⟩, some []⟩
  hookSetuidExec := fun _ => true
  newAddressSpace := some ()
  loadElf := fun _ _ => some ⟨(), 0x1000, [], 0⟩
  detectEmulation := fun _ => .native
  setupUserStack := fun _ => true

def userCredentials : Credentials :=
  { Credentials.default with
    uid := 1000, gid := 1000, euid := 1000, egid := 1000, suid := 1000, sgid := 1000 }

theorem execve_keepsIdentity_iff_user :
    ∃ k' caller, (singleProcess 7 userCredentials).threadProcess 0 = some (0, caller) ∧
      sysExecve (rootFile 0o755) (singleProcess 7 userCredentials) 0 = .ok (k', .ok ()) ∧
      ((∃ j p, k'.threadProcess 0 = some (j, p) ∧
          KeepsIdentity (execFile (rootFile 0o755)) caller p) ↔
        LooksFresh 100 (execFile (rootFile 0o755)) caller) :=
  ⟨_, _, rfl, rfl, execve_keepsIdentity_iff (k := singleProcess 7 userCredentials) rfl rfl⟩

/-- An ordinary user becomes user 0 by executing a file without set-id bits. -/
theorem plain_execve_becomes_root :
    ∃ k' caller j p, (singleProcess 7 userCredentials).threadProcess 0 = some (0, caller) ∧
      sysExecve (rootFile 0o755) (singleProcess 7 userCredentials) 0 = .ok (k', .ok ()) ∧
      k'.threadProcess 0 = some (j, p) ∧ caller.creds.uid = 1000 ∧
      p.creds.uid = 0 ∧ p.creds.euid = 0 ∧ p.id ≠ caller.id ∧
      ¬ KeepsIdentity (execFile (rootFile 0o755)) caller p := by
  refine ⟨_, _, _, _, rfl, rfl, rfl, rfl, rfl, rfl, by decide, fun h => ?_⟩
  exact absurd h.uid (by decide)

/-! ### A failed call -/

section Failure

open Vahi.Memory (FrameAllocator Frames TakesFrames free_allocateFrame)

variable {AS FD σ : Type} {A : FrameAllocator σ}

/-- The calls through which `load_elf`, its dynamic part and `setup_user_stack` reach the frames:
`allocate` for pages and, inside `map_to`, for tables, and the two counts of `frame_info`. -/
inductive FrameCall where
  | allocate
  | increment (f : ℕ)
  | decrement (f : ℕ)

/-- One call; an allocator that has no frame left stays as it is. -/
def FrameCall.run (A : FrameAllocator σ) (fr : Frames σ) : FrameCall → Frames σ
  | .allocate => ((fr.allocateFrame A).map Prod.snd).getD fr
  | .increment f => fr.increment f
  | .decrement f => fr.decrement f

/-- None of the calls gives a frame back: `decrement` only notes a frame as deferred. -/
theorem FrameCall.takesFrames_run (fr : Frames σ) (call : FrameCall) :
    TakesFrames A fr (call.run A fr) := by
  intro hv
  cases call with
  | allocate =>
    cases ha : fr.allocateFrame A with
    | none => simpa only [FrameCall.run, ha] using ⟨hv, fun _ => Nat.le_refl _⟩
    | some a =>
      obtain ⟨hv', hfree⟩ := free_allocateFrame hv ha
      simp only [FrameCall.run, ha, Option.map_some, Option.getD_some]
      exact ⟨hv', fun f => hfree f ▸ Nat.le_add_right _ _⟩
  | increment f => simpa only [FrameCall.run, Frames.increment_alloc] using ⟨hv, fun _ => le_rfl⟩
  | decrement f => simpa only [FrameCall.run, Frames.decrement_alloc] using ⟨hv, fun _ => le_rfl⟩

theorem FrameCall.takesFrames_foldl (calls : List FrameCall) (fr : Frames σ) :
    TakesFrames A fr (calls.foldl (FrameCall.run A) fr) := by
  induction calls generalizing fr with
  | nil => exact fun hv => ⟨hv, fun _ => Nat.le_refl _⟩
  | cons call calls ih => exact (call.takesFrames_run fr).trans (ih _)

/-- What the call does with frames: `AddressSpace::new` takes one for the PML4, the loader and
the stack setup make the calls listed here; there is no `Drop` that gives a frame back. -/
structure ExecFrames (AS σ : Type) where
  space : ℕ → AS
  load : List (BitVec 8) → Frames σ → List FrameCall
  stack : Image AS → Frames σ → List FrameCall

variable (F : ExecFrames AS σ) (A) (env : ExecEnv AS) (k : Kernel AS FD) (t : ℕ) (fr : Frames σ)

def ExecFrames.answers : ExecEnv AS :=
  { env with newAddressSpace := (fr.allocateFrame A).map fun r => F.space r.1 }

def ExecFrames.loaded (data : List (BitVec 8)) : Frames σ :=
  (F.load data fr).foldl (FrameCall.run A) fr

def ExecFrames.after : Frames σ :=
  match (readExec env k t).2, fr.allocateFrame A with
  | .ok data, some (f, fr) =>
    let loaded := F.loaded A fr data
    match env.loadElf data (F.space f) with
    | none => loaded
    | some image => (F.stack image loaded).foldl (FrameCall.run A) loaded
  | _, _ => fr

/-- The set-id bits of the file give the caller, if there is one, nothing that it has not. -/
def GivesNothing (st : Stat) (caller : Option (Process AS FD)) : Prop :=
  ∀ p ∈ caller, (isSetuid st → p.creds.euid = st.uid ∧ p.creds.suid = st.uid) ∧
    (isSetgid st → p.creds.egid = st.gid)

/-- The path names a file that the caller may execute. -/
structure FoundFile (path : Path) (node : Node) : Prop where
  path_eq : env.path = some path
  hook : env.hookFilePerm path
  node_eq : env.resolvePath path = some node
  permission : checkNodePermission ((k.getCurrentProcess t).map (·.2)) node 1

/-- A file that is found is refused by the set-id hook, or it cannot be read and its set-id bits
give nothing. -/
def FailsEarly : Prop :=
  ∀ path node, FoundFile env k t path node →
    (∃ st, node.stat = some st ∧ (isSetuid st || isSetgid st) ∧ ¬ env.hookSetuidExec path) ∨
      node.read = none ∧
        ∀ st, node.stat = some st → GivesNothing st ((k.getCurrentProcess t).map (·.2))

/-- What a failed call should leave: the caller's process object, the active address space and
the free frames. -/
structure NoEffect (A : FrameAllocator σ) (t : ℕ) (k k' : Kernel AS FD) (fr fr' : Frames σ) :
    Prop where
  caller : k'.getCurrentProcess t = k.getCurrentProcess t
  space : k'.activeSpace = k.activeSpace
  frames : ∀ f, A.free fr'.alloc f = A.free fr.alloc f

/-- Once the file is read, the frame of the new PML4 is gone when the call returns. -/
theorem ExecFrames.after_lt {data : List (BitVec 8)} {f : ℕ} {fr' : Frames σ}
    (hv : A.Valid fr.alloc) (hread : (readExec env k t).2 = .ok data)
    (ha : fr.allocateFrame A = some (f, fr')) :
    A.free (F.after A env k t fr).alloc f < A.free fr.alloc f := by
  obtain ⟨hv', hfree⟩ := free_allocateFrame hv ha
  have hone := hfree f
  rw [List.count_singleton_self] at hone
  have hload := FrameCall.takesFrames_foldl (A := A) (F.load data fr') fr'
  have htakes : TakesFrames A fr' (F.after A env k t fr) := by
    simp only [ExecFrames.after, hread, ha]
    split
    · exact hload
    · exact hload.trans (FrameCall.takesFrames_foldl _ _)
  exact Nat.lt_of_le_of_lt ((htakes hv').2 f) (hone ▸ Nat.lt_succ_self _)

variable {F A env k t fr}

/-- What the set-id block stores is what the process has. -/
theorem setCredentials_setIdCredentials_eq_iff (p : Process AS FD) (st : Stat) :
    p.setCredentials (setIdCredentials p.creds st) = p ↔ GivesNothing st (some p) := by
  have hset (c : Credentials) : p.setCredentials c = p ↔
      c.euid = p.creds.euid ∧ c.egid = p.creds.egid ∧ c.suid = p.creds.suid ∧
        c.capEffective = p.creds.capEffective := by
    constructor
    · intro h
      have hcreds : (p.setCredentials c).creds = p.creds := congrArg Process.creds h
      rw [← hcreds]
      exact ⟨rfl, rfl, rfl, rfl⟩
    · rintro ⟨he, hg, hs, hc⟩
      rw [Process.setCredentials, he, hg, hs, hc]
  rw [hset]
  cases hu : isSetuid st <;> cases hg : isSetgid st <;>
    simp [GivesNothing, setIdCredentials, hu, hg] <;> grind

/-- The object of the current process after a change of it. -/
theorem getCurrentProcess_modifyProcess {i : ℕ} {p : Process AS FD}
    (f : Process AS FD → Process AS FD) (hp : k.getCurrentProcess t = some (i, p)) :
    (k.modifyProcess i f).getCurrentProcess t = some (i, f p) := by
  let change (jp : ℕ × Process AS FD) := (jp.1, if i = jp.1 then f jp.2 else jp.2)
  have hobject (j : ℕ) : ((k.procs.modify i f)[j]?.bind fun p => some (j, p)) =
      (k.procs[j]?.bind fun p => some (j, p)).map change := by
    cases hj : k.procs[j]? <;> by_cases hij : i = j <;>
      simp [change, hj, hij]
  have hthread : (k.modifyProcess i f).threadProcess t = (k.threadProcess t).map change := by
    simp only [Kernel.threadProcess, Kernel.modifyProcess, Option.bind_eq_bind, hobject,
      Option.map_bind, Function.comp_def]
  unfold Kernel.getCurrentProcess at hp ⊢
  rw [hthread]
  cases hcase : k.threadProcess t with
  | some jp =>
    rw [hcase] at hp
    cases hp
    simp [change]
  | none =>
    rw [hcase] at hp
    have hcurrent := congrArg (Option.map change) hp
    simpa [Kernel.modifyProcess, hobject, Option.map_bind, Function.comp_def, change]
      using hcurrent

/-- The set-id block fails only if the hook refuses the file. -/
theorem exists_applySetId_error_iff {path : Path} {node : Node} :
    (∃ e, applySetId env k t path node = .error e) ↔
      ∃ st, node.stat = some st ∧ (isSetuid st || isSetgid st) ∧ ¬ env.hookSetuidExec path := by
  unfold applySetId
  repeat' split
  all_goals simp_all

/-- The set-id block leaves the caller's object as it was if the file's bits give nothing. -/
theorem applySetId_unchanged_iff {k' : Kernel AS FD} {path : Path} {node : Node}
    (h : applySetId env k t path node = .ok k') :
    k'.getCurrentProcess t = k.getCurrentProcess t ↔
      ∀ st, node.stat = some st → GivesNothing st ((k.getCurrentProcess t).map (·.2)) := by
  unfold applySetId at h
  cases hstat : node.stat with
  | none =>
    rw [hstat] at h
    cases h
    simp
  | some st =>
    simp only [hstat] at h
    simp only [Option.some.injEq, forall_eq']
    split_ifs at h with hbits hhook
    · cases hp : k.getCurrentProcess t with
      | none =>
        rw [hp] at h
        cases h
        simp [GivesNothing, hp]
      | some ip =>
        obtain ⟨i, p⟩ := ip
        rw [hp] at h
        cases h
        rw [Option.map_some, ← setCredentials_setIdCredentials_eq_iff,
          getCurrentProcess_modifyProcess _ hp]
        simp
    · cases h
      simp only [Bool.or_eq_true, not_or] at hbits
      exact iff_of_true rfl fun p _ => ⟨fun hu => absurd hu hbits.1, fun hg => absurd hg hbits.2⟩

/-- Where no file is found the call fails at once. -/
theorem readExec_of_not_found (h : ∀ path node, ¬ FoundFile env k t path node) :
    ∃ e, readExec env k t = (k, .error e) := by
  unfold readExec
  cases hpath : env.path with
  | none => exact ⟨_, rfl⟩
  | some path =>
  dsimp only
  split_ifs with hhook
  · exact ⟨_, rfl⟩
  cases hnode : env.resolvePath path with
  | none => exact ⟨_, rfl⟩
  | some node =>
  dsimp only
  split_ifs with hperm
  · exact ⟨_, rfl⟩
  · exact absurd ⟨hpath, by simpa using hhook, hnode, by simpa using hperm⟩ (h path node)

theorem readExec_of_found {path : Path} {node : Node} (h : FoundFile env k t path node) :
    readExec env k t =
      match applySetId env k t path node with
      | .error e => (k, .error e)
      | .ok k => (k, node.read.elim (.error .eio) .ok) := by
  have hhook : ¬ env.hookFilePerm path = false := by simp [h.hook]
  have hperm : ¬ checkNodePermission ((k.getCurrentProcess t).map (·.2)) node 1 = false := by
    rw [h.permission]
    decide
  simp only [readExec, h.path_eq, if_neg hhook, h.node_eq, if_neg hperm]

theorem FoundFile.unique {path path' : Path} {node node' : Node}
    (h : FoundFile env k t path node) (h' : FoundFile env k t path' node') :
    path = path' ∧ node = node' := by
  obtain rfl : path = path' := Option.some.inj (h.path_eq.symm.trans h'.path_eq)
  exact ⟨rfl, Option.some.inj (h.node_eq.symm.trans h'.node_eq)⟩

/-- The call fails before the new address space, with the caller's object as it was. -/
theorem readExec_unchanged_iff :
    ((∃ e, (readExec env k t).2 = .error e) ∧
      (readExec env k t).1.getCurrentProcess t = k.getCurrentProcess t) ↔ FailsEarly env k t := by
  by_cases hfound : ∃ path node, FoundFile env k t path node
  case neg =>
    push Not at hfound
    obtain ⟨e, he⟩ := readExec_of_not_found hfound
    rw [he]
    exact ⟨fun _ path node h => absurd h (hfound path node), fun _ => ⟨⟨e, rfl⟩, rfl⟩⟩
  obtain ⟨path, node, h⟩ := hfound
  have hearly : FailsEarly env k t ↔
      (∃ st, node.stat = some st ∧ (isSetuid st || isSetgid st) ∧ ¬ env.hookSetuidExec path) ∨
        node.read = none ∧
          ∀ st, node.stat = some st → GivesNothing st ((k.getCurrentProcess t).map (·.2)) := by
    constructor
    · exact fun he => he path node h
    · rintro he path' node' h'
      obtain ⟨rfl, rfl⟩ := h.unique h'
      exact he
  rw [hearly, readExec_of_found h]
  rw [← exists_applySetId_error_iff]
  cases happly : applySetId env k t path node with
  | error e => simp
  | ok k₁ =>
    rw [← applySetId_unchanged_iff happly]
    cases node.read <;> simp

/-- A failed `execve` has no effect exactly if it fails before the new address space is made
and the file's set-id bits give the caller nothing. -/
theorem execve_noEffect_iff {k' : Kernel AS FD} {e : Errno} (hv : A.Valid fr.alloc)
    (h : sysExecve (F.answers A env fr) k t = .ok (k', .error e)) :
    NoEffect A t k k' fr (F.after A env k t fr) ↔ FailsEarly env k t := by
  rw [← readExec_unchanged_iff]
  have hsame : readExec (F.answers A env fr) k t = readExec env k t := rfl
  have hspace := (setIdOnly_readExec env k t).activeSpace
  rw [sysExecve_eq, hsame] at h
  rcases hread : readExec env k t with ⟨k₁, e₁ | data⟩
  · rw [hread] at h hspace
    cases h
    have hafter : F.after A env k t fr = fr := by simp only [ExecFrames.after, hread]
    rw [hafter]
    exact ⟨fun hn => ⟨⟨_, rfl⟩, hn.caller⟩, fun hn => ⟨hn.2, hspace, fun _ => rfl⟩⟩
  · cases ha : fr.allocateFrame A with
    | none => simp [hread, ExecFrames.answers, ha] at h
    | some a =>
      have hlt := F.after_lt A env k t fr hv (congrArg Prod.snd hread) ha
      exact ⟨fun hn => absurd (hn.frames a.1) hlt.ne, fun hn => nomatch hn.1.choose_spec⟩

end Failure

/-- A file that cannot be read, or is not an executable. -/
def badFile (mode owner : BitVec 32) (read : Option (List (BitVec 8))) : ExecEnv Unit :=
  { rootFile mode with
    resolvePath := fun _ => some ⟨some ⟨mode, owner, 0⟩, read⟩
    loadElf := fun _ _ => none }

/-- A loader that maps the first page of the file, for which it takes the page and a table. -/
def onePageLoader (σ : Type) : ExecFrames Unit σ where
  space := fun _ => ()
  load := fun _ _ => [.allocate, .allocate]
  stack := fun _ _ => [.allocate]

def bootedFrames : Memory.Frames Memory.Arena := ⟨fun _ => 0, 32, [], Memory.bootArena⟩

/-- A set-uid file of the caller's own user that cannot be read. -/
theorem execve_noEffect_iff_ownFile :
    ∃ k', sysExecve ((onePageLoader _).answers Memory.buddyFrameAllocator
        (badFile 0o4755 1000 none) bootedFrames) (singleProcess 7 userCredentials) 0 =
          .ok (k', .error .eio) ∧
      NoEffect Memory.buddyFrameAllocator 0 (singleProcess 7 userCredentials) k' bootedFrames
        ((onePageLoader _).after Memory.buddyFrameAllocator (badFile 0o4755 1000 none)
          (singleProcess 7 userCredentials) 0 bootedFrames) := by
  refine ⟨_, rfl, (execve_noEffect_iff Memory.bootArena_inv rfl).mpr ?_⟩
  rintro path node ⟨-, -, hnode, -⟩
  cases hnode
  refine .inr ⟨rfl, fun st hst p hp => ?_⟩
  cases hst
  cases hp
  decide

/-- A user who executes a set-uid file that cannot be read gets an error and the rights of its
owner; one that is no executable costs the frames of the loader and one for the PML4. -/
theorem failed_execve_becomes_root :
    (∃ k' p, sysExecve ((onePageLoader _).answers Memory.buddyFrameAllocator
        (badFile 0o4755 0 none) bootedFrames) (singleProcess 7 userCredentials) 0 =
          .ok (k', .error .eio) ∧
      k'.getCurrentProcess 0 = some (0, p) ∧ p.creds.euid = 0 ∧ userCredentials.euid = 1000) ∧
    (∃ k', sysExecve ((onePageLoader _).answers Memory.buddyFrameAllocator
        (badFile 0o755 0 (some [])) bootedFrames) (singleProcess 7 userCredentials) 0 =
          .ok (k', .error .enoexec)) ∧
    Memory.bootArena.freeCount 6 = 1 ∧
    ((onePageLoader _).after Memory.buddyFrameAllocator (badFile 0o755 0 (some []))
      (singleProcess 7 userCredentials) 0 bootedFrames).alloc.freeCount 6 = 0 := by
  refine ⟨⟨_, _, rfl, rfl, rfl, rfl⟩, ⟨singleProcess 7 userCredentials, ?_⟩, ?_⟩
  · rfl
  · decide +kernel

end Vahi.Syscalls
