import Vahi.Lib.Run
import Vahi.Syscalls.Files

/-!
# Discretionary access to open files

A file should be opened only by callers whose permission class grants it. `open_file` asks Landlock
and the security descriptor of a fresh `VfsObject`, but does not look at the mode.
-/

namespace Vahi.Syscalls

open Vahi.Lib Vahi.Types Vahi.Task Vahi.Vfs

/-- The three bits of the owner, group or other class, whichever applies. -/
def permissionBits (c : Credentials) (st : Stat) : BitVec 32 :=
  if c.euid = st.uid then (st.mode >>> 6) &&& 7
  else if c.egid = st.gid then (st.mode >>> 3) &&& 7
  else st.mode &&& 7

/-- The class that applies grants all of `need`: 4 for read, 2 for write. -/
def Grants (c : Credentials) (st : Stat) (need : BitVec 32) : Prop :=
  permissionBits c st &&& need = need

instance (c : Credentials) (st : Stat) (need : BitVec 32) : Decidable (Grants c st need) :=
  inferInstanceAs (Decidable (_ = _))

def neededAccess (flags : BitVec 32) : BitVec 32 := accessOf flags 4 2 6

def OpensForWriting (flags : BitVec 32) : Prop := neededAccess flags &&& 2 = 2

instance (flags : BitVec 32) : Decidable (OpensForWriting flags) :=
  inferInstanceAs (Decidable (_ = _))

def Succeeds {α : Type} (r : Except Errno α) : Prop := ∃ a, r = .ok a

section Run

variable {σ : Type} (F : FileSystem σ)

/-- The access that a call of process `p` needs, given that it succeeds. -/
def RespectsDac (s : FileState σ) (c : ℕ × FileCall) : Prop :=
  ∀ p, s.procs[c.1]? = some p → p.creds.euid ≠ 0 →
    match c.2 with
    | .open path flags _ => ∀ node st, resolvePath F s.fs s.mounts path = some node →
        F.stat s.fs node = some st → Succeeds (s.exec F c.1 c.2).1 →
          Grants p.creds st.toStat (neededAccess flags)
    | .write fd _ => ∀ desc, p.descriptor fd = some desc → Succeeds (s.exec F c.1 c.2).1 →
        OpensForWriting desc.openFlags
    | _ => True

/-- Something in the state before the call refuses it, or the access is there. -/
def RefusedOrGranted (s : FileState σ) (c : ℕ × FileCall) : Prop :=
  ∀ p, s.procs[c.1]? = some p → p.creds.euid ≠ 0 →
    match c.2 with
    | .open path flags _ => ∀ node st, resolvePath F s.fs s.mounts path = some node →
        F.stat s.fs node = some st →
          p.landlock.checkAccess path (landlockAccess flags) = false ∨
          (flags &&& O_DIRECTORY ≠ 0 ∧ F.isDir s.fs node = false) ∨
          Grants p.creds st.toStat (neededAccess flags)
    | .write fd data => ∀ desc, p.descriptor fd = some desc →
        (∀ bytes, data = some bytes → (F.write s.fs desc.node bytes).1 = false) ∨
          OpensForWriting desc.openFlags
    | _ => True

end Run

/-! ## When the calls succeed -/

theorem succeeds_map_iff {α β : Type} {r : Except Errno α} {f : α → β} :
    Succeeds (r.map f) ↔ Succeeds r := by
  cases r with
  | error e =>
    constructor
    all_goals
      rintro ⟨a, ha⟩
      cases ha
  | ok a => exact ⟨fun _ => ⟨a, rfl⟩, fun _ => ⟨f a, rfl⟩⟩

/-- A security descriptor with an empty list lets everyone in. -/
theorem accessCheck_default (cred : Credentials) (desired : BitVec 32) :
    accessCheck cred .default desired = true := by
  rw [accessCheck]
  split
  · rfl
  · split
    · rfl
    · rfl

theorem addFd_succeeds (p : FileProcess) (node : ℕ) (flags : BitVec 32) :
    Succeeds (addFd p node flags) := by
  rw [addFd, accessCheck_default]
  exact ⟨_, rfl⟩

section Succeed

variable {σ : Type} {F : FileSystem σ}

variable {p : FileProcess} {path : Path} {flags : BitVec 32} {node i : ℕ} {s : FileState σ}

theorem openExisting_succeeds_iff {fs : σ} : Succeeds (openExisting F fs p path flags node) ↔
      p.landlock.checkAccess path (landlockAccess flags) = true ∧
        ¬ (flags &&& O_DIRECTORY ≠ 0 ∧ F.isDir fs node = false) := by
  obtain ⟨r, hr⟩ := addFd_succeeds p node flags
  rw [openExisting, hr]
  by_cases hland : p.landlock.checkAccess path (landlockAccess flags) = true
  · by_cases hdir : flags &&& O_DIRECTORY ≠ 0 ∧ (!F.isDir fs node) = true
    · rw [if_neg (by simp [hland]), if_pos hdir]
      refine iff_of_false ?_ fun h => h.2 (by simpa using hdir)
      rintro ⟨r, hr⟩
      cases hr
    · rw [if_neg (by simp [hland]), if_neg hdir]
      exact iff_of_true ⟨_, rfl⟩ ⟨hland, by simpa using hdir⟩
  · rw [if_pos (by simpa using hland)]
    refine iff_of_false ?_ fun h => hland h.1
    rintro ⟨r, hr⟩
    cases hr

theorem succeeds_installed_iff {r : Except Errno (ℕ × FileProcess)} :
    Succeeds (s.installed i r).1 ↔ Succeeds r := by
  cases r with
  | error | ok => simp [FileState.installed, Succeeds]

/-- An `open` of a path that leads to a node succeeds unless Landlock refuses or a directory
was asked for. -/
theorem exec_open_succeeds_iff {mode : BitVec 32} (hp : s.procs[i]? = some p)
    (hnode : resolvePath F s.fs s.mounts path = some node) :
    Succeeds (s.exec F i (.open path flags mode)).1 ↔
      p.landlock.checkAccess path (landlockAccess flags) = true ∧
        ¬ (flags &&& O_DIRECTORY ≠ 0 ∧ F.isDir s.fs node = false) := by
  simp only [FileState.exec, hp, openFile, hnode]
  rw [succeeds_installed_iff, openExisting_succeeds_iff]

/-- A write to an open descriptor succeeds when the data can be read and the node takes it. -/
theorem exec_write_succeeds_iff {fd : ℕ} {desc : FileDescriptor}
    {data : Option (List (BitVec 8))} (hp : s.procs[i]? = some p)
    (hdesc : p.descriptor fd = some desc) :
    Succeeds (s.exec F i (.write fd data)).1 ↔
      ∃ bytes, data = some bytes ∧ (F.write s.fs desc.node bytes).1 = true := by
  have htable := FileProcess.descriptor_eq_some.mp hdesc
  simp only [FileState.exec, hp, succeeds_map_iff]
  cases data with
  | none => simp [sysWrite, Succeeds]
  | some bytes =>
    simp only [sysWrite, FileProcess.cloneFdTable_eq, htable, Option.some.injEq, exists_eq_left']
    rcases F.write s.fs desc.node bytes with ⟨ok, fs⟩
    cases ok with
    | false => simp [Succeeds]
    | true => simp [Succeeds]

theorem respectsDac_iff (s : FileState σ) (c : ℕ × FileCall) :
    RespectsDac F s c ↔ RefusedOrGranted F s c := by
  obtain ⟨i, call⟩ := c
  refine forall_congr' fun p => forall_congr' fun hp => forall_congr' fun _ => ?_
  cases call with
  | «open» path flags mode =>
    refine forall_congr' fun node => forall_congr' fun st => forall_congr' fun hnode =>
      forall_congr' fun _ => ?_
    rw [exec_open_succeeds_iff hp hnode, ← or_assoc]
    cases p.landlock.checkAccess path (landlockAccess flags) with
    | false => simp
    | true =>
      simp only [true_and, Bool.true_eq_false, false_or]
      exact or_iff_not_imp_left.symm
  | write fd data =>
    refine forall_congr' fun desc => forall_congr' fun hdesc => ?_
    rw [exec_write_succeeds_iff hp hdesc]
    cases data with
    | none => simp
    | some bytes =>
      simp only [Option.some.injEq, exists_eq_left', forall_eq']
      cases (F.write s.fs desc.node bytes).1 with
      | false => simp
      | true => simp
  | _ => exact Iff.rfl

end Succeed

/-- In every run of calls by any processes, discretionary access is respected by every call
exactly when each one is refused for another reason or has the access it needs. -/
theorem dac_respected_iff {σ : Type} (F : FileSystem σ) (s : FileState σ)
    (calls : List (ℕ × FileCall)) :
    Along (fun s c => (s.exec F c.1 c.2).2) (RespectsDac F) s calls ↔
      Along (fun s c => (s.exec F c.1 c.2).2) (RefusedOrGranted F) s calls :=
  along_iff_of_inv (I := fun _ => True) (fun s c _ => respectsDac_iff s c)
    (fun _ _ _ _ => trivial) trivial

/-- User 1000 opens a file of user 0 with mode 644 for writing, and writes through a descriptor
opened for reading. -/
theorem openForWriting_notGranted :
    let forWriting : FileCall := .open samplePath 1 0
    let write : FileCall := .write 0 (some [0x62])
    ((sampleState [0x61]).exec ramfs 0 forWriting).1 = .ok (.value 0) ∧
      ¬ RespectsDac ramfs (sampleState [0x61]) (0, forWriting) ∧
      ((sampleOpen [0x61]).exec ramfs 0 write).1 = .ok (.value 1) ∧
      ¬ RespectsDac ramfs (sampleOpen [0x61]) (0, write) := by
  intro forWriting write
  refine ⟨by decide +kernel, ?_, by decide +kernel, ?_⟩
  · intro h
    have hgrants := h sampleProcess rfl (by decide) 1 ⟨⟨0o100644, 0, 0⟩, 1⟩ (by decide +kernel)
      (by decide +kernel) ⟨.value 0, by decide +kernel⟩
    exact absurd hgrants (by decide)
  · intro h
    have hwriting := h _ rfl (by decide +kernel) ⟨1, 0, 0⟩ (by decide +kernel)
      ⟨.value 1, by decide +kernel⟩
    exact absurd hwriting (by decide)

end Vahi.Syscalls
