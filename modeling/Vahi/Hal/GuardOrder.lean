import Vahi.Hal.IrqSafeMutex
import Vahi.Lib.Run
import Mathlib.Data.List.Basic

/-!
# The interrupt flag of a CPU with several guards

One CPU uses any number of mutexes, one call after the other. A guard that is dropped sets the
interrupt flag as it was before its own acquisition, whatever other guards there are.
-/

namespace Vahi.Hal

open Vahi.Lib List

/-- At most `n` steps of the call that the CPU is in, with nobody else at the mutex. -/
def runCall (cpuId : BitVec 16) : ℕ → IrqSafeMutex → CpuState → CpuState
  | 0, _, cpu => cpu
  | n + 1, m, cpu =>
    if cpu.panicked then cpu
    else
      match cpu.top.running with
      | none => cpu
      | some p => runCall cpuId n (p.exec cpuId false m cpu).1 (p.exec cpuId false m cpu).2

variable {Mutex : Type*} [DecidableEq Mutex]

/-- The guards alive on the CPU with the flags they have saved, the last one first. -/
structure Locks (Mutex : Type*) where
  ifFlag : Bool
  panicked : Bool
  guards : List (Mutex × Bool)
  deriving DecidableEq

inductive LockOp (Mutex : Type*) where
  | lock (m : Mutex)
  /-- `busy` says whether another CPU has the mutex. -/
  | tryLock (m : Mutex) (busy : Bool)
  | drop (i : ℕ)

namespace Locks

def cpuAt (s : Locks Mutex) (p : Phase) : CpuState := ⟨s.ifFlag, s.panicked, ⟨some p, []⟩, []⟩

def mutexAt (cpuId : BitVec 16) (s : Locks Mutex) (m : Mutex) (busy : Bool) : IrqSafeMutex :=
  if m ∈ s.guards.map Prod.fst then ⟨true, cpuId⟩
  -- the number of some other CPU
  else if busy then ⟨true, ~~~cpuId⟩
  else ⟨false, noHolder⟩

def after (s : Locks Mutex) (m : Mutex) (cpu : CpuState) : Locks Mutex :=
  ⟨cpu.ifFlag, cpu.panicked, cpu.top.guards.map (fun r => (m, r)) ++ s.guards⟩

/-- A `lock` of a mutex that another CPU has goes on when that CPU has released it. -/
def step (cpuId : BitVec 16) (s : Locks Mutex) : LockOp Mutex → Locks Mutex
  | .lock m => s.after m (runCall cpuId 6 (s.mutexAt cpuId m false) (s.cpuAt (.save .lock)))
  | .tryLock m busy =>
    s.after m (runCall cpuId 6 (s.mutexAt cpuId m busy) (s.cpuAt (.save .tryLock)))
  | .drop i =>
    match s.guards[i]? with
    | none => s
    | some (m, r) =>
      if s.panicked then s
      else
        after { s with guards := s.guards.eraseIdx i } m
          (runCall cpuId 3 ⟨true, cpuId⟩ (s.cpuAt (.clearHolder r)))

/-! ### The calls -/

section Calls

variable {s : Locks Mutex} {m : Mutex} {r : Bool} {i : ℕ}

theorem step_of_panicked (hp : s.panicked = true) (op : LockOp Mutex) : s.step cpuId op = s := by
  obtain ⟨ifFlag, panicked, guards⟩ := s
  cases hp
  cases op with
  | lock m => rfl
  | tryLock m busy => rfl
  | drop i =>
    simp only [step]
    split
    · rfl
    · rfl

variable (hp : s.panicked = false)

include hp

theorem step_lock_held (hm : m ∈ s.guards.map Prod.fst) :
    s.step cpuId (.lock m) = { s with ifFlag := false, panicked := true } := by
  simp [step, mutexAt, hm, runCall, hp, cpuAt, Phase.exec, CpuState.goto, after]

theorem step_lock_free (hm : m ∉ s.guards.map Prod.fst) :
    s.step cpuId (.lock m) = ⟨false, false, (m, s.ifFlag) :: s.guards⟩ := by
  simp [step, mutexAt, hm, runCall, hp, cpuAt, Phase.exec, CpuState.goto, after]

theorem step_tryLock_fails {busy : Bool}
    (hm : m ∈ s.guards.map Prod.fst ∨ busy = true) : s.step cpuId (.tryLock m busy) = s := by
  obtain ⟨ifFlag, panicked, guards⟩ := s
  cases hp
  by_cases hheld : m ∈ guards.map Prod.fst
  · simp [step, mutexAt, hheld, runCall, cpuAt, Phase.exec, CpuState.goto, after]
  · obtain rfl : busy = true := hm.resolve_left hheld
    simp [step, mutexAt, hheld, runCall, cpuAt, Phase.exec, CpuState.goto, after]

theorem step_tryLock_free (hm : m ∉ s.guards.map Prod.fst) :
    s.step cpuId (.tryLock m false) = ⟨false, false, (m, s.ifFlag) :: s.guards⟩ := by
  simp [step, mutexAt, hm, runCall, hp, cpuAt, Phase.exec, CpuState.goto, after]

theorem step_drop (hi : s.guards[i]? = some (m, r)) :
    s.step cpuId (.drop i) = ⟨r || s.ifFlag, false, s.guards.eraseIdx i⟩ := by
  simp [step, hi, hp, runCall, cpuAt, Phase.exec, CpuState.goto, after]

end Calls

/-! ### Whole runs -/

section Runs

variable {cpuId : BitVec 16} {s : Locks Mutex} {flag : Bool} {op : LockOp Mutex} {m : Mutex} {i : ℕ}

/-- Off while there is a guard, and as before the first acquisition when there is none. -/
def InterruptsOff (flag : Bool) (s : Locks Mutex) : Prop :=
  (s.guards ≠ [] → s.ifFlag = false) ∧ (s.guards = [] → s.ifFlag = flag)

instance (flag : Bool) (s : Locks Mutex) : Decidable (s.InterruptsOff flag) :=
  inferInstanceAs (Decidable ((_ → _) ∧ (_ → _)))

/-- A guard that has saved a set flag is not dropped before the others. -/
def DropsLast (s : Locks Mutex) : LockOp Mutex → Prop
  | .drop i => ∀ m, s.guards[i]? = some (m, true) → s.panicked = false → s.guards.length = 1
  | _ => True

/-- Some guard alive has saved the flag that there was before the first acquisition. -/
structure Inv (flag : Bool) (s : Locks Mutex) : Prop where
  off : s.InterruptsOff flag
  saved : s.guards ≠ [] → (flag = true ↔ ∃ g ∈ s.guards, g.2 = true)

omit [DecidableEq Mutex] in
/-- An acquisition. -/
theorem Inv.acquire (h : Inv flag s) (m : Mutex) :
    Inv flag ⟨false, false, (m, s.ifFlag) :: s.guards⟩ := by
  refine ⟨⟨fun _ => rfl, fun hnil => by cases hnil⟩, fun _ => ?_⟩
  by_cases hnil : s.guards = []
  · rw [hnil, h.off.2 hnil]
    simp
  · rw [h.saved hnil, h.off.1 hnil]
    simp

omit [DecidableEq Mutex] in
theorem exists_mem_eraseIdx {guards : List (Mutex × Bool)} (hi : guards[i]? = some (m, false)) :
    (∃ g ∈ guards.eraseIdx i, g.2 = true) ↔ ∃ g ∈ guards, g.2 = true := by
  constructor
  · rintro ⟨g, hg, htrue⟩
    exact ⟨g, mem_of_mem_eraseIdx hg, htrue⟩
  · rintro ⟨g, hg, htrue⟩
    obtain ⟨j, hj⟩ := mem_iff_getElem?.1 hg
    have hne : j ≠ i := by
      rintro rfl
      rw [hi] at hj
      cases hj
      cases htrue
    exact ⟨g, mem_eraseIdx_iff_getElem?.2 ⟨j, hne, hj⟩, htrue⟩

omit [DecidableEq Mutex] in
/-- A drop, if the flag that was saved is clear or the guard is the only one. -/
theorem Inv.drop (h : Inv flag s) {r : Bool}
    (hi : s.guards[i]? = some (m, r)) (hlast : r = true → s.guards.length = 1) :
    Inv flag ⟨r || s.ifFlag, false, s.guards.eraseIdx i⟩ := by
  obtain ⟨hlt, hget⟩ := List.getElem?_eq_some_iff.1 hi
  have hne : s.guards ≠ [] := ne_nil_of_length_pos (by omega)
  have hsaved := h.saved hne
  have hoff := h.off.1 hne
  cases r with
  | true =>
    obtain ⟨g, hg⟩ := length_eq_one_iff.1 (hlast rfl)
    obtain rfl : i = 0 := by
      rw [hg, length_singleton] at hlt
      omega
    have hflag : flag = true := hsaved.2 ⟨_, mem_of_getElem? hi, rfl⟩
    rw [hg, eraseIdx_zero, tail_cons, hflag]
    exact ⟨⟨fun hnil => absurd rfl hnil, fun _ => rfl⟩, fun hnil => absurd rfl hnil⟩
  | false =>
    rw [← exists_mem_eraseIdx hi] at hsaved
    rw [hoff]
    refine ⟨⟨fun _ => rfl, fun hnil => ?_⟩, fun _ => hsaved⟩
    -- without a guard that has saved a set flag, the flag was clear from the beginning
    cases hflag : flag with
    | false => rfl
    | true =>
      obtain ⟨g, hg, -⟩ := hsaved.1 hflag
      rw [show s.guards.eraseIdx i = [] from hnil] at hg
      cases hg

theorem step_inv (cpuId : BitVec 16) (h : Inv flag s)
    (hlast : s.DropsLast op) : Inv flag (s.step cpuId op) := by
  cases hp : s.panicked with
  | true =>
    rw [step_of_panicked hp]
    exact h
  | false =>
    cases op with
    | lock m =>
      by_cases hm : m ∈ s.guards.map Prod.fst
      · have hne : s.guards ≠ [] := fun hnil => by simp [hnil] at hm
        rw [step_lock_held hp hm]
        exact ⟨⟨fun _ => rfl, fun hnil => absurd hnil hne⟩, h.saved⟩
      · rw [step_lock_free hp hm]
        exact h.acquire m
    | tryLock m busy =>
      by_cases hm : m ∈ s.guards.map Prod.fst ∨ busy = true
      · rw [step_tryLock_fails hp hm]
        exact h
      obtain ⟨hheld, hbusy⟩ := not_or.1 hm
      obtain rfl : busy = false := Bool.not_eq_true _ ▸ hbusy
      rw [step_tryLock_free hp hheld]
      exact h.acquire m
    | drop i =>
      cases hi : s.guards[i]? with
      | none =>
        rw [step, hi]
        exact h
      | some g =>
        obtain ⟨m, r⟩ := g
        rw [step_drop hp hi]
        refine h.drop hi ?_
        rintro rfl
        exact hlast m hi hp

/-- Dropping the guard with the set flag before the others sets the flag under them. -/
theorem dropsLast_of_off (cpuId : BitVec 16)
    (h : (s.step cpuId op).InterruptsOff flag) : s.DropsLast op := by
  cases op with
  | lock m => trivial
  | tryLock m busy => trivial
  | drop i =>
    intro m hi hp
    rw [step_drop hp hi] at h
    obtain ⟨hlt, -⟩ := List.getElem?_eq_some_iff.1 hi
    by_contra hlen
    have hne : s.guards.eraseIdx i ≠ [] := by
      refine ne_nil_of_length_pos ?_
      rw [length_eraseIdx_of_lt hlt]
      omega
    cases h.1 hne

/-- For every sequence of calls on a CPU without guards: the flag is clear after each call that
leaves a guard and as at the beginning after each call that leaves none, exactly if a guard that
has saved a set flag is never dropped before the others. -/
theorem interruptsOff_iff_dropsLast (cpuId : BitVec 16) (flag : Bool) (ops : List (LockOp Mutex)) :
    Along (step cpuId) (fun s op => (s.step cpuId op).InterruptsOff flag) ⟨flag, false, []⟩ ops ↔
      Along (step cpuId) DropsLast ⟨flag, false, []⟩ ops := by
  refine along_iff_of_inv (I := Inv flag) (fun s op h => ?_) (fun s op h => step_inv cpuId h) ?_
  · exact ⟨dropsLast_of_off cpuId, fun hlast => (step_inv cpuId h hlast).off⟩
  · exact ⟨⟨fun hnil => absurd rfl hnil, fun _ => rfl⟩, fun hnil => absurd rfl hnil⟩

/-- Two guards are dropped in the order of their acquisition: after the first drop interrupts are
on with the second mutex still locked. -/
theorem interrupts_on_under_guard :
    ¬ Along (step 0) (fun s op => (s.step 0 op).InterruptsOff true) ⟨true, false, []⟩
      [LockOp.lock false, .lock true, .drop 1] := by
  decide +kernel

end Runs

end Locks

end Vahi.Hal
