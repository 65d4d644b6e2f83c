import Mathlib.Tactic.Common

/-!
# The interrupt-safe spin mutex

`IrqSafeMutex::lock`, `try_lock` and the drop of a guard (`crates/hal/src/sync/mod.rs`) on x86_64,
one atomic step at a time, by any number of CPUs. A CPU with its interrupt flag set can be
interrupted between any two steps; the handler may use the mutex as well.
-/

namespace Vahi.Hal

open Function

def noHolder : BitVec 16 := BitVec.allOnes 16

inductive Op where
  | lock | tryLock
  deriving DecidableEq

/-- The next atomic step of a call; `rflags` is the saved interrupt flag. -/
inductive Phase where
  -- `lock` and `try_lock`
  | save (op : Op)
  | disable (op : Op) (rflags : Bool)
  | checkLocked (op : Op) (rflags : Bool)
  | checkHolder (op : Op) (rflags : Bool)
  | acquire (op : Op) (rflags : Bool)
  | storeHolder (rflags : Bool)
  -- the drop of a guard
  | clearHolder (rflags : Bool)
  | release (rflags : Bool)
  -- the last step of a drop and of a `try_lock` without success
  | restore (rflags : Bool)
  deriving DecidableEq

/-- A thread or an interrupt handler: the call it is in and the saved flags of its guards. -/
structure Context where
  running : Option Phase
  guards : List Bool
  deriving DecidableEq

def Context.idle : Context := ⟨none, []⟩

structure CpuState where
  ifFlag : Bool
  panicked : Bool
  top : Context
  /-- Contexts that were interrupted, the last one first. -/
  suspended : List Context
  deriving DecidableEq

def CpuState.goto (cpu : CpuState) (p : Phase) : CpuState :=
  { cpu with top := { cpu.top with running := some p } }

/-- The fields of the mutex; the data it protects is left out. -/
structure IrqSafeMutex where
  locked : Bool
  holderCpu : BitVec 16
  deriving DecidableEq

/-- One atomic step of a call on the CPU with the given id. The exchange in `spin::Mutex::lock` may
fail without cause. -/
def Phase.exec (cpuId : BitVec 16) (spurious : Bool) (m : IrqSafeMutex) (cpu : CpuState) :
    Phase → IrqSafeMutex × CpuState
  | .save op => (m, cpu.goto (.disable op cpu.ifFlag))
  | .disable op r => (m, { cpu with ifFlag := false }.goto (.checkLocked op r))
  | .checkLocked op r => (m, cpu.goto (if m.locked then .checkHolder op r else .acquire op r))
  | .checkHolder op r =>
    if m.holderCpu = cpuId then
      match op with
      | .lock => (m, { cpu with panicked := true })
      | .tryLock => (m, cpu.goto (.restore r))
    else (m, cpu.goto (.acquire op r))
  | .acquire .lock r =>
    if m.locked || spurious then (m, cpu)
    else ({ m with locked := true }, cpu.goto (.storeHolder r))
  | .acquire .tryLock r =>
    if m.locked then (m, cpu.goto (.restore r))
    else ({ m with locked := true }, cpu.goto (.storeHolder r))
  | .storeHolder r =>
    ({ m with holderCpu := cpuId }, { cpu with top := ⟨none, r :: cpu.top.guards⟩ })
  | .clearHolder r => ({ m with holderCpu := noHolder }, cpu.goto (.release r))
  | .release r => ({ m with locked := false }, cpu.goto (.restore r))
  | .restore r =>
    (m, { cpu with ifFlag := r || cpu.ifFlag, top := { cpu.top with running := none } })

variable {Cpu : Type*}

structure State (Cpu : Type*) where
  mutex : IrqSafeMutex
  cpus : Cpu → CpuState

inductive Action (Cpu : Type*) where
  | call (c : Cpu) (op : Op)
  | drop (c : Cpu) (i : ℕ)
  | run (c : Cpu) (spurious : Bool)
  | interrupt (c : Cpu)
  | iret (c : Cpu)

def Action.cpu : Action Cpu → Cpu
  | .call c _ | .drop c _ | .run c _ | .interrupt c | .iret c => c

/-- What the action does to its CPU and to the mutex; none where it is not possible. A CPU that has
panicked does nothing any more. -/
def Action.exec (cpuId : BitVec 16) (m : IrqSafeMutex) (cpu : CpuState) :
    Action Cpu → Option (IrqSafeMutex × CpuState)
  | .call _ op => if cpu.top.running = none then some (m, cpu.goto (.save op)) else none
  | .drop _ i =>
    if cpu.top.running = none then
      cpu.top.guards[i]?.map fun r =>
        (m, { cpu with top := ⟨some (.clearHolder r), cpu.top.guards.eraseIdx i⟩ })
    else none
  | .run _ spurious => cpu.top.running.map fun p => p.exec cpuId spurious m cpu
  | .interrupt _ =>
    if cpu.ifFlag then
      some (m, { cpu with
        ifFlag := false, top := .idle, suspended := cpu.top :: cpu.suspended })
    else none
  | .iret _ =>
    match cpu.suspended with
    | [] => none
    | k :: ks =>
      if cpu.top = .idle then some (m, { cpu with ifFlag := true, top := k, suspended := ks })
      else none

variable [DecidableEq Cpu]

/-- A CPU that has panicked does nothing more. -/
def step (id : Cpu → BitVec 16) (s : State Cpu) (a : Action Cpu) : State Cpu :=
  if (s.cpus a.cpu).panicked then s
  else
    match a.exec (id a.cpu) s.mutex (s.cpus a.cpu) with
    | none => s
    | some (m, cpu) => ⟨m, update s.cpus a.cpu cpu⟩

def State.init (flags : Cpu → Bool) : State Cpu :=
  ⟨⟨false, noHolder⟩, fun c => ⟨flags c, false, .idle, []⟩⟩

def CpuState.guards (cpu : CpuState) : List Bool :=
  cpu.top.guards ++ cpu.suspended.flatMap Context.guards

/-! ### What one CPU is doing -/

def Phase.beforeCli : Phase → Bool
  | .save _ | .disable _ _ => true
  | _ => false

/-- The spin lock is taken for a guard that is not there yet, or not there any more. -/
def Phase.owns : Phase → Bool
  | .storeHolder _ | .clearHolder _ | .release _ => true
  | _ => false

def Phase.isClear : Phase → Bool
  | .clearHolder _ => true
  | _ => false

def Phase.rflags : Phase → Bool
  | .save _ => false
  | .disable _ r | .checkLocked _ r | .checkHolder _ r | .acquire _ r | .storeHolder r
  | .clearHolder r | .release r | .restore r => r

namespace Context

/-- No guard, and no step behind the one that clears the flag. -/
def Calm (k : Context) : Prop := k.guards = [] ∧ ∀ p, k.running = some p → p.beforeCli = true

def owned (k : Context) : ℕ := k.guards.length + (k.running.any Phase.owns).toNat

def published (k : Context) : Bool := !k.guards.isEmpty || k.running.any Phase.isClear

theorem Calm.owned {k : Context} (h : k.Calm) : k.owned = 0 := by
  obtain ⟨hguards, hrun⟩ := h
  rw [Context.owned, hguards]
  cases hp : k.running with
  | none => rfl
  | some p =>
    have hbefore := hrun p hp
    cases p with
    | save op => rfl
    | disable op r => rfl
    | _ => cases hbefore

theorem published_of_owned {k : Context} (h : k.owned = 0) : k.published = false := by
  obtain ⟨running, guards⟩ := k
  rw [Context.owned] at h
  have hguards : guards = [] := List.length_eq_zero_iff.1 (by simp only at h; omega)
  subst hguards
  cases running with
  | none => rfl
  | some p =>
    cases p with
    | clearHolder r => cases h
    | _ => rfl

end Context

open Context

structure CpuInv (cpu : CpuState) : Prop where
  suspended : ∀ k ∈ cpu.suspended, k.Calm
  enabled : cpu.ifFlag = true → cpu.top.Calm
  /-- What is called with a guard in hand does not set the flag. -/
  saved : cpu.top.guards ≠ [] → ∀ p, cpu.top.running = some p → p.rflags = false
  panicked : cpu.panicked = true → cpu.top.guards ≠ []

structure Inv (id : Cpu → BitVec 16) (s : State Cpu) (owner : Option Cpu) : Prop where
  cpu : ∀ c, CpuInv (s.cpus c)
  locked : s.mutex.locked = owner.isSome
  owned : ∀ c, (s.cpus c).top.owned = if owner = some c then 1 else 0
  free : owner = none → s.mutex.holderCpu = noHolder
  holder : ∀ c, owner = some c →
    s.mutex.holderCpu = if (s.cpus c).top.published then id c else noHolder

/-! ### One step -/

section OneCpu

variable {cpu cpu' : CpuState} {m m' : IrqSafeMutex} {cpuId : BitVec 16} {p : Phase} {q : Phase}

structure Fits (cpuId : BitVec 16) (m : IrqSafeMutex) (k : Context) : Prop where
  once : k.owned ≤ 1
  free : m.locked = false → k.owned = 0
  named : m.holderCpu = cpuId → k.published = true

/-- What a step can do to the mutex, with what it does to the context that takes it. -/
inductive Effect (cpuId : BitVec 16) (m : IrqSafeMutex) (k k' : Context) : IrqSafeMutex → Prop
  | keep (howned : k'.owned = k.owned) (hpub : k'.published = k.published) : Effect cpuId m k k' m
  | take (hfree : m.locked = false) (howned : k'.owned = 1) (hpub : k'.published = false) :
      Effect cpuId m k k' { m with locked := true }
  | publish (hone : k.owned = 1) (howned : k'.owned = 1) (hpub : k'.published = true) :
      Effect cpuId m k k' { m with holderCpu := cpuId }
  | clear (hone : k.owned = 1) (howned : k'.owned = 1) (hpub : k'.published = false) :
      Effect cpuId m k k' { m with holderCpu := noHolder }
  | give (hone : k.owned = 1) (hclear : k.published = false) (howned : k'.owned = 0) :
      Effect cpuId m k k' { m with locked := false }

/-- Behind the step that clears it, the flag is clear. -/
theorem CpuInv.off (h : CpuInv cpu) (hrun : cpu.top.running = some p)
    (hp : p.beforeCli = false) : cpu.ifFlag = false := by
  cases hflag : cpu.ifFlag with
  | false => rfl
  | true =>
    have hbefore := (h.enabled hflag).2 p hrun
    rw [hp] at hbefore
    cases hbefore

theorem CpuInv.goto (h : CpuInv cpu) (hcalm : cpu.ifFlag = true → p.beforeCli = true)
    (hsaved : cpu.top.guards ≠ [] → p.rflags = false) : CpuInv (cpu.goto p) where
  suspended := h.suspended
  enabled hflag := by
    refine ⟨(h.enabled hflag).1, fun q hq => ?_⟩
    cases hq
    exact hcalm hflag
  saved hguards q hq := by
    cases hq
    exact hsaved hguards
  panicked := h.panicked

/-- The call goes on with the flag off and with the flags it has saved. -/
theorem CpuInv.goto_off (h : CpuInv cpu) (hrun : cpu.top.running = some p)
    (hp : p.beforeCli = false) (hq : q.rflags = p.rflags) : CpuInv (cpu.goto q) := by
  refine h.goto (fun hflag => ?_) fun hguards => hq.trans (h.saved hguards p hrun)
  rw [h.off hrun hp] at hflag
  cases hflag

/-- A context in a step that owns the spin lock has no guard. -/
theorem Fits.guards_nil {k : Context} (h : Fits cpuId m k) (hrun : k.running = some p)
    (hp : p.owns = true) : k.guards = [] := by
  have honce := h.once
  rw [owned, hrun, Option.any_some, hp] at honce
  exact List.length_eq_zero_iff.1 (by simp only [Bool.toNat_true] at honce; omega)

theorem goto_effect (hrun : cpu.top.running = some p) (howns : q.owns = p.owns)
    (hclear : q.isClear = p.isClear) : Effect cpuId m cpu.top (cpu.goto q).top m := by
  refine .keep ?_ ?_
  · rw [owned, owned, hrun]
    simp only [CpuState.goto, Option.any_some, howns]
  · rw [published, published, hrun]
    simp only [CpuState.goto, Option.any_some, hclear]

theorem exec_phase (hinv : CpuInv cpu) (hfits : Fits cpuId m cpu.top)
    (hrun : cpu.top.running = some p) (spurious : Bool) :
    CpuInv (p.exec cpuId spurious m cpu).2 ∧
      Effect cpuId m cpu.top (p.exec cpuId spurious m cpu).2.top
        (p.exec cpuId spurious m cpu).1 := by
  have htaken {r : Bool} (hrunA : ∃ op, p = .acquire op r) (hfree : m.locked = false) :
      CpuInv (cpu.goto (.storeHolder r)) ∧
        Effect cpuId m cpu.top (cpu.goto (.storeHolder r)).top { m with locked := true } := by
    obtain ⟨op, rfl⟩ := hrunA
    refine ⟨hinv.goto_off hrun rfl rfl, .take hfree ?_ ?_⟩
    · have hzero := hfits.free hfree
      rw [owned, hrun] at hzero
      simpa [owned, CpuState.goto, Phase.owns] using hzero
    · have hpub := published_of_owned (hfits.free hfree)
      rw [published, hrun] at hpub
      simpa [published, CpuState.goto, Phase.isClear] using hpub
  have hgoto {q : Phase} (hp : p.beforeCli = false) (hq : q.rflags = p.rflags)
      (howns : q.owns = p.owns) (hclear : q.isClear = p.isClear) :
      CpuInv (cpu.goto q) ∧ Effect cpuId m cpu.top (cpu.goto q).top m :=
    ⟨hinv.goto_off hrun hp hq, goto_effect hrun howns hclear⟩
  cases p with
  | save op =>
    refine ⟨hinv.goto (fun _ => rfl) fun hguards => ?_, goto_effect hrun rfl rfl⟩
    -- with a guard in hand the flag that is saved is off
    cases hflag : cpu.ifFlag with
    | false => rfl
    | true => exact absurd (hinv.enabled hflag).1 hguards
  | disable op r =>
    have hoff : CpuInv { cpu with ifFlag := false } :=
      ⟨hinv.suspended, fun h => Bool.noConfusion h, hinv.saved, hinv.panicked⟩
    exact ⟨hoff.goto (fun h => Bool.noConfusion h) fun hguards =>
        hinv.saved hguards (.disable op r) hrun,
      goto_effect hrun rfl rfl⟩
  | checkLocked op r =>
    simp only [Phase.exec]
    split
    all_goals exact hgoto rfl rfl rfl rfl
  | checkHolder op r =>
    simp only [Phase.exec]
    split
    · rename_i hself
      cases op with
      | tryLock => exact hgoto rfl rfl rfl rfl
      | lock =>
        refine ⟨⟨hinv.suspended, hinv.enabled, hinv.saved, fun _ hguards => ?_⟩, .keep rfl rfl⟩
        have hpub := hfits.named hself
        rw [published, hguards, hrun] at hpub
        cases hpub
    · exact hgoto rfl rfl rfl rfl
  | acquire op r =>
    cases op with
    | lock =>
      simp only [Phase.exec]
      split
      · exact ⟨hinv, .keep rfl rfl⟩
      · rename_i hfree
        simp only [Bool.or_eq_true, not_or, Bool.not_eq_true] at hfree
        exact htaken ⟨_, rfl⟩ hfree.1
    | tryLock =>
      simp only [Phase.exec]
      split
      · exact hgoto rfl rfl rfl rfl
      · rename_i hfree
        exact htaken ⟨_, rfl⟩ (Bool.not_eq_true _ ▸ hfree)
  | storeHolder r =>
    obtain ⟨flag, _, ⟨_, guards⟩, _⟩ := cpu
    cases hrun
    obtain rfl : guards = [] := hfits.guards_nil rfl rfl
    refine ⟨⟨hinv.suspended, fun hflag => ?_, fun _ q hq => (by cases hq), fun _ => ?_⟩,
      .publish rfl rfl rfl⟩
    · cases (hinv.off rfl rfl).symm.trans hflag
    · exact List.cons_ne_nil _ _
  | clearHolder r =>
    obtain ⟨_, _, ⟨_, guards⟩, _⟩ := cpu
    cases hrun
    obtain rfl : guards = [] := hfits.guards_nil rfl rfl
    exact ⟨hinv.goto_off rfl rfl rfl, .clear rfl rfl rfl⟩
  | release r =>
    obtain ⟨_, _, ⟨_, guards⟩, _⟩ := cpu
    cases hrun
    obtain rfl : guards = [] := hfits.guards_nil rfl rfl
    exact ⟨hinv.goto_off rfl rfl rfl, .give rfl rfl rfl⟩
  | restore r =>
    refine ⟨⟨hinv.suspended, fun hflag => ⟨?_, fun q hq => by cases hq⟩,
      fun _ q hq => (by cases hq), hinv.panicked⟩, .keep ?_ ?_⟩
    · -- the flag is set only if it was saved as set, which it is not with a guard in hand
      by_contra hguards
      have hr : r = false := hinv.saved hguards _ hrun
      have hoff := hinv.off hrun rfl
      simp [Phase.exec, hr, hoff] at hflag
    · simp [Phase.exec, owned, hrun, Phase.owns]
    · simp [Phase.exec, published, hrun, Phase.isClear]

omit [DecidableEq Cpu] in
/-- An interrupt comes between two calls or before the flag is cleared. -/
theorem exec_action {a : Action Cpu} (hinv : CpuInv cpu) (hruns : cpu.panicked = false)
    (hfits : Fits cpuId m cpu.top) (h : a.exec cpuId m cpu = some (m', cpu')) :
    CpuInv cpu' ∧ Effect cpuId m cpu.top cpu'.top m' := by
  cases a with
  | call c op =>
    simp only [Action.exec] at h
    split at h
    · rename_i hidle
      cases h
      refine ⟨hinv.goto (fun _ => rfl) fun _ => rfl, .keep ?_ ?_⟩
      · rw [owned, owned, hidle]
        rfl
      · rw [published, published, hidle]
        rfl
    · cases h
  | drop c i =>
    simp only [Action.exec] at h
    split at h
    · rename_i hidle
      obtain ⟨r, hr, hout⟩ := Option.map_eq_some_iff.1 h
      cases hout
      -- the guard is the only one
      have honce := hfits.once
      obtain ⟨hi, rfl⟩ := List.getElem?_eq_some_iff.1 hr
      have hone : cpu.top.guards.length = 1 := by
        rw [owned] at honce
        omega
      obtain rfl : i = 0 := by omega
      obtain ⟨g, hg⟩ := List.length_eq_one_iff.1 hone
      refine ⟨⟨hinv.suspended, fun hflag => ?_, fun hguards => ?_, fun hp => ?_⟩, .keep ?_ ?_⟩
      · have hnil := (hinv.enabled hflag).1
        rw [hg] at hnil
        cases hnil
      · simp [hg] at hguards
      · rw [show cpu.panicked = true from hp] at hruns
        cases hruns
      · simp [owned, hidle, hg, Phase.owns]
      · simp [published, hidle, hg, Phase.isClear]
    · cases h
  | run c spurious =>
    obtain ⟨p, hp, hout⟩ := Option.map_eq_some_iff.1 h
    have hphase := exec_phase hinv hfits hp spurious
    rw [hout] at hphase
    exact hphase
  | interrupt c =>
    simp only [Action.exec] at h
    split at h
    · rename_i hflag
      have hcalm := hinv.enabled hflag
      cases h
      refine ⟨⟨fun k hk => ?_, fun hf => Bool.noConfusion hf, fun hg => absurd rfl hg, fun hp => ?_⟩,
        .keep hcalm.owned.symm (published_of_owned hcalm.owned).symm⟩
      · rcases List.mem_cons.1 hk with rfl | hk
        · exact hcalm
        · exact hinv.suspended k hk
      · exact absurd hcalm.1 (hinv.panicked hp)
    · cases h
  | iret c =>
    simp only [Action.exec] at h
    split at h
    · cases h
    rename_i k ks hsus
    split at h
    · rename_i hidle
      cases h
      have hcalm : k.Calm := hinv.suspended k (hsus ▸ List.mem_cons_self)
      have hidleCalm : cpu.top.Calm := hidle ▸ ⟨rfl, fun p hp => by cases hp⟩
      refine ⟨⟨fun k' hk' => hinv.suspended k' (hsus ▸ List.mem_cons_of_mem k hk'),
        fun _ => hcalm, fun hg => absurd hcalm.1 hg, fun hp => ?_⟩,
        .keep (hcalm.owned.trans hidleCalm.owned.symm) ?_⟩
      · exact absurd hidleCalm.1 (hinv.panicked hp)
      · rw [published_of_owned hcalm.owned, published_of_owned hidleCalm.owned]
    · cases h

end OneCpu

/-! ### The whole system -/

section System

variable {id : Cpu → BitVec 16} {s : State Cpu} {owner : Option Cpu} {c : Cpu}

theorem init_inv (id : Cpu → BitVec 16) (flags : Cpu → Bool) :
    Inv id (State.init flags) none where
  cpu _ := ⟨fun _ hk => absurd hk List.not_mem_nil, fun _ => ⟨rfl, fun _ hp => by cases hp⟩,
    fun hg => absurd rfl hg, fun hp => by cases hp⟩
  locked := rfl
  owned _ := rfl
  free _ := rfl
  holder _ h := by cases h

theorem Inv.fits (h : Inv id s owner) (hid : Function.Injective id) (hno : ∀ c, id c ≠ noHolder)
    (c : Cpu) : Fits (id c) s.mutex (s.cpus c).top where
  once := by
    rw [h.owned c]
    split <;> omega
  free hfree := by
    rw [h.locked, Option.isSome_eq_false_iff, Option.isNone_iff_eq_none] at hfree
    rw [h.owned c, hfree]
    rfl
  named hname := by
    cases owner with
    | none => exact absurd (hname.symm.trans (h.free rfl)) (hno c)
    | some d =>
      have hholder := h.holder d rfl
      split at hholder
      · rename_i hpub
        obtain rfl : c = d := hid (hname.symm.trans hholder)
        exact hpub
      · exact absurd (hname.symm.trans hholder) (hno c)

/-- The invariant after a step of `c`, from what the step did to `c` and to the mutex. -/
theorem Inv.update (h : Inv id s owner) {owner' : Option Cpu} {m : IrqSafeMutex}
    {cpu : CpuState} (hcpu : CpuInv cpu) (hlocked : m.locked = owner'.isSome)
    (hown : cpu.top.owned = if owner' = some c then 1 else 0)
    (hothers : ∀ d, d ≠ c → (owner' = some d ↔ owner = some d))
    (hfree : owner' = none → m.holderCpu = noHolder)
    (hself : owner' = some c → m.holderCpu = if cpu.top.published then id c else noHolder)
    (hother : ∀ d, d ≠ c → owner = some d → m.holderCpu = s.mutex.holderCpu) :
    Inv id ⟨m, update s.cpus c cpu⟩ owner' where
  cpu d := by
    by_cases hd : d = c
    · subst hd
      simpa only [update_self] using hcpu
    · simpa only [update_of_ne hd] using h.cpu d
  locked := hlocked
  owned d := by
    by_cases hd : d = c
    · subst hd
      simpa only [update_self] using hown
    · simp only [update_of_ne hd, h.owned d, hothers d hd]
  free := hfree
  holder d howner := by
    by_cases hd : d = c
    · subst hd
      simpa only [update_self] using hself howner
    · have hd' := (hothers d hd).1 howner
      simpa only [update_of_ne hd, hother d hd hd'] using h.holder d hd'

theorem Inv.owner_of_owned (h : Inv id s owner) (hone : (s.cpus c).top.owned = 1) :
    owner = some c := by
  by_contra hne
  rw [h.owned c, if_neg hne] at hone
  cases hone

theorem step_inv (hid : Function.Injective id) (hno : ∀ c, id c ≠ noHolder)
    (h : Inv id s owner) (a : Action Cpu) : ∃ owner', Inv id (step id s a) owner' := by
  rw [step]
  split
  · exact ⟨owner, h⟩
  rename_i hruns
  split
  · exact ⟨owner, h⟩
  rename_i m cpu hexec
  generalize a.cpu = c at hruns hexec ⊢
  obtain ⟨hcpu, heffect⟩ := exec_action (h.cpu c) (Bool.not_eq_true _ ▸ hruns)
    (h.fits hid hno c) hexec
  cases heffect with
  | keep howned hpub =>
    refine ⟨owner, h.update hcpu h.locked (howned.trans (h.owned c)) (fun _ _ => Iff.rfl) h.free
      (fun hc => ?_) fun _ _ _ => rfl⟩
    rw [hpub]
    exact h.holder c hc
  | take hfree howned hpub =>
    rw [h.locked, Option.isSome_eq_false_iff, Option.isNone_iff_eq_none] at hfree
    subst hfree
    refine ⟨some c, h.update hcpu rfl (by rw [howned, if_pos rfl]) (fun d hd => ?_)
      (fun hc => by cases hc) (fun _ => ?_) fun _ _ hc => by cases hc⟩
    · simp [hd.symm]
    · rw [hpub]
      exact h.free rfl
  | publish hone howned hpub
  | clear hone howned hpub =>
    have hc := h.owner_of_owned hone
    subst hc
    refine ⟨some c, h.update hcpu h.locked (by rw [howned, if_pos rfl]) (fun _ _ => Iff.rfl)
      (fun hc => by cases hc) (fun _ => by rw [hpub]; rfl) fun d hd hc => ?_⟩
    exact absurd (Option.some.inj hc).symm hd
  | give hone hclear howned =>
    have hc := h.owner_of_owned hone
    subst hc
    refine ⟨none, h.update hcpu rfl (by rw [howned]; rfl) (fun d hd => ?_) (fun _ => ?_)
      (fun hc => by cases hc) fun _ _ _ => rfl⟩
    · simp [hd.symm]
    · have hholder := h.holder c rfl
      rw [hclear] at hholder
      exact hholder

theorem foldl_inv (hid : Function.Injective id) (hno : ∀ c, id c ≠ noHolder)
    (h : Inv id s owner) (acts : List (Action Cpu)) :
    ∃ owner', Inv id (acts.foldl (step id) s) owner' := by
  induction acts generalizing s owner with
  | nil => exact ⟨owner, h⟩
  | cons a acts ih =>
    obtain ⟨owner', h'⟩ := step_inv hid hno h a
    exact ih h'

end System

end Vahi.Hal
