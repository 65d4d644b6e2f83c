import Vahi.Task.Process

/-!
# Credentials of a process

The calls of `kernel/src/syscalls/process_creds.rs` that change ids and capability sets. `setreuid`
has no handler, and `setresuid` asks for a capability while it holds the lock that this takes.
-/

namespace Vahi.Syscalls

open Vahi.Lib Vahi.Task Vahi.Types

def CAP_SETUID : BitVec 64 := 1 <<< 6

def CAP_SETGID : BitVec 64 := 1 <<< 7

def CAP_SETPCAP : BitVec 64 := 1 <<< 8

abbrev CredResult := Outcome (Except Errno Unit × Credentials)

/-! ### The calls -/

variable (c : Credentials)

/-- A caller without privilege can only take its effective user. -/
def sysSetuid (uid : BitVec 64) : CredResult :=
  if c.euid = 0 ∨ hasCapability c CAP_SETUID then
    return (.ok (), { c with uid := uid.setWidth 32, euid := uid.setWidth 32 })
  else if c.euid = uid.setWidth 32 then return (.ok (), { c with uid := uid.setWidth 32 })
  else return (.error .eperm, c)

def sysSetgid (gid : BitVec 64) : CredResult :=
  if c.egid = 0 ∨ hasCapability c CAP_SETGID then
    return (.ok (), { c with gid := gid.setWidth 32, egid := gid.setWidth 32 })
  else if c.egid = gid.setWidth 32 then return (.ok (), { c with gid := gid.setWidth 32 })
  else return (.error .eperm, c)

/-- The pointers of `capset`, and what is copied from them: the version in the header, and the
effective, permitted and inheritable sets. -/
structure CapsetArgs where
  hdrNull : Bool
  dataNull : Bool
  version : Option (BitVec 32)
  data : Option (BitVec 32 × BitVec 32 × BitVec 32)
  deriving DecidableEq

def CAPABILITY_VERSION : BitVec 32 := 0x19980330

/-- The new sets are not compared with the old ones. -/
def sysCapset (args : CapsetArgs) : CredResult :=
  if args.hdrNull ∨ args.dataNull then return (.error .efault, c)
  else
    match args.version with
    | none => return (.error .efault, c)
    | some version =>
      if version ≠ CAPABILITY_VERSION then return (.error .einval, c)
      else
        match args.data with
        | none => return (.error .efault, c)
        | some (eff, perm, inh) =>
          if c.euid ≠ 0 ∧ ¬ hasCapability c CAP_SETPCAP then return (.error .eperm, c)
          else return (.ok (), { c with
            capEffective := eff.setWidth 64
            capPermitted := perm.setWidth 64
            capInheritable := inh.setWidth 64 })

/-- `has_capability` takes the lock of the credentials. -/
def hasCapabilityLocking (held : Bool) (c : Credentials) (capBit : BitVec 64) : Outcome Bool :=
  if held then .panic else .ok (hasCapability c capBit)

def mayKeep (id : BitVec 32) : Bool :=
  id = -1 || id = c.uid || id = c.euid || id = c.suid

/-- `has_capability` locks the credentials that the call has locked itself. -/
def sysSetresuid (ruid euid suid : BitVec 32) : CredResult := do
  -- the guard of the credentials lives to the end of the call
  let privileged ← hasCapabilityLocking true c CAP_SETUID
  if !privileged && !(mayKeep c ruid && mayKeep c euid && mayKeep c suid) then
    return (.error .eperm, c)
  else
    let c := if ruid ≠ -1 then { c with uid := ruid } else c
    let c := if euid ≠ -1 then { c with euid } else c
    let c := if suid ≠ -1 then { c with suid } else c
    return (.ok (), { c with fsuid := c.euid })

inductive CredCall where
  | setuid (uid : BitVec 64)
  | setreuid (ruid euid : BitVec 64)
  | setresuid (ruid euid suid : BitVec 32)
  | setgid (gid : BitVec 64)
  | capset (args : CapsetArgs)
  deriving DecidableEq

def performCred : CredCall → CredResult
  | .setuid uid => sysSetuid c uid
  | .setreuid _ _ => .ok (.error .enosys, c)
  | .setresuid ruid euid suid => sysSetresuid c ruid euid suid
  | .setgid gid => sysSetgid c gid
  | .capset args => sysCapset c args

def run (c : Credentials) : List CredCall → Credentials
  | [] => c
  | call :: calls =>
    match performCred c call with
    | .ok (_, c') => run c' calls
    | .panic => c
    | .hang => c

/-! ### Dropping privileges -/

/-- No id of the later credentials has become 0, and no capability came back. -/
structure KeptDown (dropped later : Credentials) : Prop where
  uid : later.uid ≠ 0
  euid : later.euid ≠ 0
  suid : later.suid = 0 → dropped.suid = 0
  permitted : later.capPermitted &&& ~~~dropped.capPermitted = 0
  effective : later.capEffective &&& ~~~dropped.capEffective = 0

/-- The user ids and capability sets agree, and the user is not privileged. -/
structure SameUser (dropped c : Credentials) : Prop where
  uid : c.uid = dropped.euid
  euid : c.euid = dropped.euid
  suid : c.suid = dropped.suid
  permitted : c.capPermitted = dropped.capPermitted
  effective : c.capEffective = dropped.capEffective

/-- No capability that lets the process change its user or its capabilities. -/
def Unprivileged : Prop :=
  c.euid ≠ 0 ∧ c.capEffective &&& CAP_SETUID = 0 ∧ c.capEffective &&& CAP_SETPCAP = 0

section Drop

variable {dropped c : Credentials}

theorem SameUser.keptDown (h : SameUser dropped c) (hne : dropped.euid ≠ 0) : KeptDown dropped c where
  uid := h.uid ▸ hne
  euid := h.euid ▸ hne
  suid := fun hzero => h.suid.symm.trans hzero
  permitted := by rw [h.permitted, BitVec.and_not_self]
  effective := by rw [h.effective, BitVec.and_not_self]

theorem SameUser.hasCapability (h : SameUser dropped c) (hne : dropped.euid ≠ 0) {cap : BitVec 64}
    (hcap : dropped.capEffective &&& cap = 0) : ¬ hasCapability c cap := by
  rw [Task.hasCapability, h.euid, h.effective, hcap, decide_eq_false hne]
  decide

variable {ret : Except Errno Unit} {c' : Credentials}

/-- Without the capability nothing changes. -/
theorem sysCapset_of_denied (h : c.euid ≠ 0 ∧ ¬ Task.hasCapability c CAP_SETPCAP) {args : CapsetArgs} (hcall : sysCapset c args = .ok (ret, c')) :
    c' = c := by
  rw [sysCapset] at hcall
  split at hcall
  · cases hcall
    rfl
  split at hcall
  · cases hcall
    rfl
  split at hcall
  · cases hcall
    rfl
  split at hcall
  all_goals
    cases hcall
    rfl

/-- With the capability the sets are whatever the caller asks for. -/
theorem sysCapset_of_allowed (h : ¬ (c.euid ≠ 0 ∧ ¬ Task.hasCapability c CAP_SETPCAP))
    (eff perm inh : BitVec 32) :
    sysCapset c ⟨false, false, some CAPABILITY_VERSION, some (eff, perm, inh)⟩ =
      .ok (.ok (), { c with
        capEffective := eff.setWidth 64
        capPermitted := perm.setWidth 64
        capInheritable := inh.setWidth 64 }) := by
  rw [sysCapset, if_neg (by rintro (h | h) <;> cases h)]
  dsimp only
  rw [if_neg (fun hne => hne rfl), if_neg h]
  rfl

/-- A call of an unprivileged user keeps the user. -/
theorem SameUser.perform (h : SameUser dropped c) (hun : Unprivileged dropped) {call : CredCall} (hcall : performCred c call = .ok (ret, c')) :
    SameUser dropped c' := by
  obtain ⟨hne, hsetuid, hsetpcap⟩ := hun
  have hroot : c.euid ≠ 0 := h.euid ▸ hne
  cases call with
  | setuid uid =>
    have hdenied : ¬ (c.euid = 0 ∨ Task.hasCapability c CAP_SETUID = true) := by
      rintro (hzero | hcap)
      · exact hroot hzero
      · exact h.hasCapability hne hsetuid hcap
    rw [performCred, sysSetuid, if_neg hdenied] at hcall
    split at hcall
    · next heq =>
      cases hcall
      exact ⟨heq.symm.trans h.euid, h.euid, h.suid, h.permitted, h.effective⟩
    · cases hcall
      exact h
  | setreuid ruid euid =>
    cases hcall
    exact h
  | setresuid ruid euid suid => cases hcall
  | setgid gid =>
    rw [performCred, sysSetgid] at hcall
    split at hcall
    · cases hcall
      exact ⟨h.uid, h.euid, h.suid, h.permitted, h.effective⟩
    split at hcall
    · cases hcall
      exact ⟨h.uid, h.euid, h.suid, h.permitted, h.effective⟩
    · cases hcall
      exact h
  | capset args =>
    have hdenied : c.euid ≠ 0 ∧ ¬ Task.hasCapability c CAP_SETPCAP :=
      ⟨hroot, h.hasCapability hne hsetpcap⟩
    rw [sysCapset_of_denied hdenied hcall]
    exact h

theorem SameUser.run (h : SameUser dropped c) (hun : Unprivileged dropped) (calls : List CredCall) :
    SameUser dropped (run c calls) := by
  induction calls generalizing c with
  | nil => exact h
  | cons call calls ih =>
    rw [Syscalls.run]
    split
    · next hcall => exact ih (h.perform hun hcall)
    · exact h
    · exact h

end Drop

/-- A drop is permanent exactly if the user it sets is not 0, and no capability is left
that lets the process change its user or its capabilities. -/
theorem keptDown_iff (c : Credentials) (hroot : c.euid = 0) (uid : BitVec 64) :
    ∃ dropped, sysSetuid c uid = .ok (.ok (), dropped) ∧
      ((∀ calls, KeptDown dropped (run dropped calls)) ↔
        uid.setWidth 32 ≠ 0 ∧ c.capEffective &&& CAP_SETUID = 0 ∧
          c.capEffective &&& CAP_SETPCAP = 0) := by
  refine ⟨{ c with uid := uid.setWidth 32, euid := uid.setWidth 32 }, if_pos (.inl hroot), ?_⟩
  constructor
  · intro hkept
    have hne : uid.setWidth 32 ≠ 0 := (hkept []).uid
    have hsetuid : c.capEffective &&& CAP_SETUID = 0 := by
      by_contra hcap
      -- the capability lets the process become user 0 again
      have hrun := (hkept [.setuid 0]).uid
      rw [run, performCred, sysSetuid, if_pos (.inr (by simpa [hasCapability] using .inr hcap))] at hrun
      exact hrun rfl
    refine ⟨hne, hsetuid, ?_⟩
    by_contra hcap
    -- the capability lets the process give itself the other one
    have hrun :=
      (hkept [.capset ⟨false, false, some CAPABILITY_VERSION, some (0x40, 0, 0)⟩]).effective
    have hallowed : ¬ (uid.setWidth 32 ≠ 0 ∧ ¬ Task.hasCapability
        { c with uid := uid.setWidth 32, euid := uid.setWidth 32 } CAP_SETPCAP) := by
      rintro ⟨-, hdenied⟩
      exact hdenied (by simpa [Task.hasCapability] using .inr hcap)
    rw [run, performCred, sysCapset_of_allowed hallowed] at hrun
    change CAP_SETUID &&& ~~~c.capEffective = 0 at hrun
    have hout : c.capEffective.getLsbD 6 = false := by
      simpa [CAP_SETUID] using congrArg (·.getLsbD 6) hsetuid
    have hin : c.capEffective.getLsbD 6 = true := by
      simpa [CAP_SETUID] using congrArg (·.getLsbD 6) hrun
    exact absurd (hout.symm.trans hin) (by decide)
  · rintro ⟨hne, hcaps⟩ calls
    have hsame : SameUser { c with uid := uid.setWidth 32, euid := uid.setWidth 32 }
      { c with uid := uid.setWidth 32, euid := uid.setWidth 32 } := ⟨rfl, rfl, rfl, rfl, rfl⟩
    exact (hsame.run ⟨hne, hcaps⟩ calls).keptDown hne

/-- A process of user 0 without capabilities drops its privileges for good. -/
theorem keptDown_default : ∃ dropped,
    sysSetuid Credentials.default 1000 = .ok (.ok (), dropped) ∧
      ∀ calls, KeptDown dropped (run dropped calls) := by
  obtain ⟨dropped, hcall, hiff⟩ := keptDown_iff Credentials.default rfl 1000
  exact ⟨dropped, hcall, hiff.mpr (by decide)⟩

/-- User 0 takes the capability to set its user, becomes user 1000, and then user 0 again. -/
theorem setuid_regained : ∃ root dropped,
    sysCapset Credentials.default ⟨false, false, some CAPABILITY_VERSION, some (0x40, 0x40, 0)⟩ =
      .ok (.ok (), root) ∧ root.euid = 0 ∧
    sysSetuid root 1000 = .ok (.ok (), dropped) ∧ dropped.uid = 1000 ∧ dropped.euid = 1000 ∧
    (run dropped [.setuid 0]).uid = 0 ∧ (run dropped [.setuid 0]).euid = 0 :=
  ⟨_, _, rfl, rfl, rfl, rfl, rfl, rfl, rfl⟩

end Vahi.Syscalls
