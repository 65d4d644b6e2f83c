import Vahi.Hal.IrqSafeMutex

/-!
# Re-entrant locking is detected exactly

`IrqSafeMutex::lock` panics when the spin lock is taken and `holder_cpu` is the calling CPU. Other
CPUs go on between the two loads, but both stay as they are while a CPU has a guard.
-/

namespace Vahi.Hal

variable {Cpu : Type*} [DecidableEq Cpu]

section Reentrancy

variable {id : Cpu → BitVec 16} {s : State Cpu} {owner : Option Cpu} {c : Cpu}

def State.HoldsGuard (s : State Cpu) (c : Cpu) : Prop := (s.cpus c).guards ≠ []

def Action.isRun (c : Cpu) : Action Cpu → Bool
  | .run d _ => decide (d = c)
  | _ => false

def ownSteps (c : Cpu) (acts : List (Action Cpu)) : ℕ := acts.countP (Action.isRun c)

def Phase.tillPanic : Phase → Option ℕ
  | .save .lock => some 4
  | .disable .lock _ => some 3
  | .checkLocked .lock _ => some 2
  | .checkHolder .lock _ => some 1
  | _ => none

/-- The CPU has panicked, or it has a guard and its call of `lock` is at most `n` steps before the
panic. -/
def Doomed (s : State Cpu) (c : Cpu) (n : ℕ) : Prop :=
  (s.cpus c).panicked = true ∨
    (s.cpus c).top.guards ≠ [] ∧
      ∃ p j, (s.cpus c).top.running = some p ∧ p.tillPanic = some j ∧ j ≤ n

omit [DecidableEq Cpu] in
theorem CpuInv.guards_eq {cpu : CpuState} (h : CpuInv cpu) : cpu.guards = cpu.top.guards := by
  have hnone : cpu.suspended.flatMap Context.guards = [] :=
    List.flatMap_eq_nil_iff.2 fun k hk => (h.suspended k hk).1
  rw [CpuState.guards, hnone, List.append_nil]

section

variable (h : Inv id s owner)

include h

section

variable (hguards : (s.cpus c).top.guards ≠ [])

include hguards

theorem Inv.owner_of_guards :
    owner = some c := by
  by_contra hne
  have hzero := h.owned c
  rw [if_neg hne, Context.owned] at hzero
  exact hguards (List.length_eq_zero_iff.1 (by omega))

/-- With a guard in hand, `lock` finds the mutex taken and its own name in it. -/
theorem Inv.seen :
    s.mutex.locked = true ∧ s.mutex.holderCpu = id c := by
  have howner := h.owner_of_guards hguards
  constructor
  · rw [h.locked, howner, Option.isSome_some]
  · have hpub : (s.cpus c).top.published = true := by
      rw [Context.published, Bool.or_eq_true, Bool.not_eq_true', List.isEmpty_eq_false_iff]
      exact .inl hguards
    rw [h.holder c howner, if_pos hpub]

/-- A step of the call itself. -/
theorem doomed_exec {p : Phase} {j : ℕ}
    (hrun : (s.cpus c).top.running = some p) (hj : p.tillPanic = some j) (spurious : Bool) :
    ((p.exec (id c) spurious s.mutex (s.cpus c)).2.panicked = true ∨
      (p.exec (id c) spurious s.mutex (s.cpus c)).2.top.guards ≠ [] ∧
        ∃ q i, (p.exec (id c) spurious s.mutex (s.cpus c)).2.top.running = some q ∧
          q.tillPanic = some i ∧ i ≤ j - 1) := by
  obtain ⟨hlocked, hname⟩ := h.seen hguards
  cases p with
  | save op =>
    cases op with
    | tryLock => cases hj
    | lock =>
      cases hj
      exact .inr ⟨hguards, _, _, rfl, rfl, Nat.le_refl 3⟩
  | disable op r =>
    cases op with
    | tryLock => cases hj
    | lock =>
      cases hj
      exact .inr ⟨hguards, _, _, rfl, rfl, Nat.le_refl 2⟩
  | checkLocked op r =>
    cases op with
    | tryLock => cases hj
    | lock =>
      cases hj
      simp only [Phase.exec, hlocked, if_true]
      exact .inr ⟨hguards, _, _, rfl, rfl, Nat.le_refl 1⟩
  | checkHolder op r =>
    cases op with
    | tryLock => cases hj
    | lock =>
      left
      simp only [Phase.exec, hname, if_true]
  | _ => cases hj

end

omit h in
theorem step_cpus (id : Cpu → BitVec 16) (s : State Cpu) (c : Cpu) (a : Action Cpu) :
    (step id s a).cpus c = s.cpus c ∨
      a.cpu = c ∧ (s.cpus c).panicked = false ∧
        ∃ m, a.exec (id c) s.mutex (s.cpus c) = some (m, (step id s a).cpus c) := by
  rw [step]
  split
  · exact .inl rfl
  rename_i hruns
  split
  · exact .inl rfl
  rename_i m cpu hexec
  by_cases hc : c = a.cpu
  · subst hc
    exact .inr ⟨rfl, Bool.not_eq_true _ ▸ hruns, m, by rw [hexec]; simp only [Function.update_self]⟩
  · exact .inl (Function.update_of_ne hc _ _)

/-- Between two steps of its call, nothing happens to a CPU that has a guard. -/
theorem step_cpus_of_guards (hguards : (s.cpus c).top.guards ≠ [])
    (hrun : (s.cpus c).top.running ≠ none) {a : Action Cpu} (ha : a.isRun c = false) :
    (step id s a).cpus c = s.cpus c := by
  obtain hsame | ⟨hc, -, m, hexec⟩ := step_cpus id s c a
  · exact hsame
  cases a with
  | call | drop => simp [Action.exec, hrun] at hexec
  | run d spurious => simp [Action.isRun, show d = c from hc] at ha
  | interrupt d =>
    cases hflag : (s.cpus c).ifFlag with
    | true => exact absurd ((h.cpu c).enabled hflag).1 hguards
    | false => simp [Action.exec, hflag] at hexec
  | iret d =>
    have hbusy : (s.cpus c).top ≠ .idle := fun hidle => hrun (by rw [hidle]; rfl)
    simp only [Action.exec, hbusy, if_false] at hexec
    split at hexec <;> cases hexec

/-- Nothing that happens elsewhere, and no interrupt, keeps the call from its panic. -/
theorem doomed_step {n : ℕ} (hd : Doomed s c n) (a : Action Cpu) :
    Doomed (step id s a) c (n - (a.isRun c).toNat) := by
  rw [Doomed] at hd ⊢
  cases hp : (s.cpus c).panicked with
  | true =>
    left
    obtain hsame | ⟨-, hruns, -⟩ := step_cpus id s c a
    · rw [hsame, hp]
    · rw [hp] at hruns
      cases hruns
  | false =>
    obtain hp' | ⟨hguards, p, j, hrun, hj, hjn⟩ := hd
    · rw [hp] at hp'
      cases hp'
    cases ha : a.isRun c with
    | false =>
      rw [step_cpus_of_guards h hguards (by rw [hrun]; exact Option.some_ne_none p) ha]
      exact .inr ⟨hguards, p, j, hrun, hj, hjn⟩
    | true =>
      cases a with
      | run d spurious =>
        obtain rfl : d = c := by simpa [Action.isRun] using ha
        have hstep : (step id s (.run d spurious)).cpus d =
            (p.exec (id d) spurious s.mutex (s.cpus d)).2 := by
          rw [step]
          simp only [Action.cpu, hp, Action.exec, hrun, Option.map_some, Function.update_self,
            Bool.false_eq_true, if_false]
        rw [hstep]
        obtain hpanic | ⟨hg, q, i, hq, hi, hij⟩ := doomed_exec h hguards hrun hj spurious
        · exact .inl hpanic
        · exact .inr ⟨hg, q, i, hq, hi, Nat.le_trans hij (Nat.sub_le_sub_right hjn 1)⟩
      | _ => cases ha

end

theorem doomed_foldl (hid : Function.Injective id) (hno : ∀ c, id c ≠ noHolder)
    (h : Inv id s owner) {n : ℕ} (hd : Doomed s c n) (acts : List (Action Cpu)) :
    Doomed (acts.foldl (step id) s) c (n - ownSteps c acts) := by
  induction acts generalizing s owner n with
  | nil => exact hd
  | cons a acts ih =>
    obtain ⟨owner', h'⟩ := step_inv hid hno h a
    have hrest := ih h' (doomed_step h hd a)
    have hcount : n - ownSteps c (a :: acts) =
        n - (a.isRun c).toNat - ownSteps c acts := by
      rw [ownSteps, List.countP_cons, ownSteps]
      cases a.isRun c with
      | true => simp only [Bool.toNat_true, if_true]; omega
      | false => simp
    rw [hcount]
    exact hrest

/-- After any interleaving of the steps of any number of CPUs: a CPU that has panicked in `lock`
has a guard of the mutex, whatever others are doing; a CPU that calls `lock` with a guard panics
in the fourth step of the call, whatever others do meanwhile; and there is at most one guard. -/
theorem reentrancy_exact (hid : Function.Injective id) (hno : ∀ c, id c ≠ noHolder)
    (flags : Cpu → Bool) (acts : List (Action Cpu)) :
    (∀ c, ((acts.foldl (step id) (.init flags)).cpus c).panicked = true →
      (acts.foldl (step id) (.init flags)).HoldsGuard c) ∧
    (∀ c, (acts.foldl (step id) (.init flags)).HoldsGuard c →
      ((acts.foldl (step id) (.init flags)).cpus c).top.running = some (.save .lock) →
      ∀ more, 4 ≤ ownSteps c more →
        (((acts ++ more).foldl (step id) (.init flags)).cpus c).panicked = true) ∧
    (∀ c, ((acts.foldl (step id) (.init flags)).cpus c).guards.length ≤ 1) ∧
    ∀ c d, (acts.foldl (step id) (.init flags)).HoldsGuard c →
      (acts.foldl (step id) (.init flags)).HoldsGuard d → c = d := by
  obtain ⟨owner, h⟩ := foldl_inv hid hno (init_inv id flags) acts
  generalize hs : acts.foldl (step id) (.init flags) = s at h
  have hholds (c : Cpu) : s.HoldsGuard c ↔ (s.cpus c).top.guards ≠ [] := by
    rw [State.HoldsGuard, (h.cpu c).guards_eq]
  refine ⟨fun c hp => (hholds c).2 ((h.cpu c).panicked hp), fun c hc hrun more hmore => ?_,
    fun c => ?_, fun c d hc hd => ?_⟩
  · have hdoomed : Doomed s c 4 := .inr ⟨(hholds c).1 hc, _, 4, hrun, rfl, Nat.le_refl 4⟩
    have hlast := doomed_foldl hid hno h hdoomed more
    rw [Nat.sub_eq_zero_of_le hmore] at hlast
    rw [List.foldl_append, hs]
    obtain hp | ⟨-, p, j, -, hj, hzero⟩ := hlast
    · exact hp
    obtain rfl : j = 0 := Nat.le_zero.1 hzero
    cases p with
    | save op | disable op _ | checkLocked op _ | checkHolder op _ => cases op <;> cases hj
    | _ => cases hj
  · rw [(h.cpu c).guards_eq]
    have honce := (h.fits hid hno c).once
    rw [Context.owned] at honce
    omega
  · have hown := h.owner_of_guards ((hholds c).1 hc)
    rw [h.owner_of_guards ((hholds d).1 hd)] at hown
    exact (Option.some.inj hown).symm

/-- The first of two CPUs takes the mutex and calls `lock` again. -/
def lockTwice : List (Action Bool) :=
  [.call false .lock] ++ List.replicate 6 (.run false false) ++ [.call false .lock]

/-- The second one tries to take it in between. -/
def spinMeanwhile : List (Action Bool) :=
  [.call true .lock, .run false false, .run true false, .run false false, .run true false,
    .run false false, .run true false, .run false false]

theorem reentrancy_exact_twoCpus :
    (((lockTwice ++ spinMeanwhile).foldl (step fun b => if b then 1 else 0)
      (.init fun _ => true)).cpus false).panicked = true :=
  have hid : Function.Injective fun b : Bool => if b then (1 : BitVec 16) else 0 := fun a b => by
    cases a <;> cases b <;> decide
  (reentrancy_exact hid (by decide) (fun _ => true) lockTwice).2.1 false
    (by rw [State.HoldsGuard]; decide +kernel) (by decide +kernel) spinMeanwhile (by decide)

end Reentrancy

end Vahi.Hal
