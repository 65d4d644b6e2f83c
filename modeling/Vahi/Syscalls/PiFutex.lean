import Vahi.Lib.Run
import Mathlib.Data.List.Nodup

/-!
# Priority-inheritance futexes

`futex_lock_pi` and `futex_unlock_pi` (`kernel/src/syscalls/futex.rs`) and the atomic operations of
user space, by any number of threads on one word. The word names the process of its owner. Waiters
leave the futex queue by the unlock's `wake_futex`, and by every other call of `drain_wake`.
-/

namespace Vahi.Syscalls

open Vahi.Lib List Function

def futexWaiters : BitVec 32 := 0x80000000

def pidMask : BitVec 32 := 0x7FFFFFFF

/-- The threads: the number of the process, 0 without one, and where the word is mapped. -/
structure PiThreads where
  pid : ℕ → BitVec 32
  addr : ℕ → BitVec 64

inductive PiPc where
  | user
  /-- In the loop of `futex_lock_pi`, with `current` in hand. -/
  | lockLoop (current : BitVec 32)
  /-- Past the loop. -/
  | contended
  /-- No signal was pending. -/
  | unsignalled
  /-- Marked as blocked, not yet in the futex queue. -/
  | blocked
  | queued
  /-- Moved to a ready queue by `wake_futex`. -/
  | woken
  /-- In the loop of `futex_unlock_pi`, with `prev` in hand. -/
  | unlockLoop (prev : BitVec 32)
  /-- Has cleared a word with `FUTEX_WAITERS`. -/
  | releasing
  deriving DecidableEq

/-- The word, the threads and the futex queue of the word. For the statements only: `owner` is
the thread whose compare-and-swap took the lock, `holds` are the threads that returned from
locking with success and have not unlocked. -/
structure PiLock where
  word : BitVec 32 := 0
  pc : ℕ → PiPc := fun _ => .user
  queue : List ℕ := []
  owner : Option ℕ := none
  holds : ℕ → Bool := fun _ => false

inductive PiEvent where
  /-- `futex_lock_pi` up to its first compare-and-swap. -/
  | lock (t : ℕ)
  | lockLoop (t : ℕ)
  | checkSignal (t : ℕ) (pending : Bool)
  | mark (t : ℕ)
  /-- The switch away from the thread is over, which is in the queue now. -/
  | route (t : ℕ)
  /-- `schedule` returns in the woken thread. -/
  | resume (t : ℕ)
  /-- `futex_unlock_pi` up to its read of the word. -/
  | unlock (t : ℕ)
  | unlockLoop (t : ℕ)
  | wake (t : ℕ)
  /-- Another `drain_wake` of the futex queue: that of `wake_process_futex` when a signal is sent
  (`sys_kill`, an interval timer, `mq_notify`), `FUTEX_WAKE`, `FUTEX_REQUEUE`, or the unlock of
  another word at the same address. -/
  | otherWake (matching : ℕ → Bool) (max : ℕ)
  /-- Compare-and-swap of 0 for the own number, in user space. -/
  | fastLock (t : ℕ)
  /-- Compare-and-swap of the own number for 0, in user space. -/
  | fastUnlock (t : ℕ)
  /-- The access to the word fails with `EFAULT`. -/
  | fault (t : ℕ)

/-- `drain_wake`: the threads it wakes, at most `max`, and those it puts back. -/
def drained (matching : ℕ → Bool) : ℕ → List ℕ → List ℕ × List ℕ
  | _, [] => ([], [])
  | max, u :: queue =>
    if 0 < max ∧ matching u then
      let (woken, kept) := drained matching (max - 1) queue
      (u :: woken, kept)
    else
      let (woken, kept) := drained matching max queue
      (woken, u :: kept)

/-- The threads that match, as many as `max` allows. -/
theorem drained_fst (matching : ℕ → Bool) (max : ℕ) (queue : List ℕ) :
    (drained matching max queue).1 = (queue.filter matching).take max := by
  induction queue generalizing max with
  | nil => simp [drained]
  | cons u queue ih =>
    cases max with
    | zero => simpa [drained] using ih 0
    | succ max => cases hu : matching u <;> simp [drained, hu, ih]

theorem drained_perm (matching : ℕ → Bool) (max : ℕ) (queue : List ℕ) :
    (drained matching max queue).1 ++ (drained matching max queue).2 ~ queue := by
  induction queue generalizing max with
  | nil => exact Perm.refl _
  | cons u queue ih =>
    rw [drained]
    split
    · exact (ih (max - 1)).cons u
    · exact perm_middle.trans ((ih max).cons u)

namespace PiLock

variable (T : PiThreads) (s : PiLock) (t : ℕ)

def setPc (pc : PiPc) : PiLock := { s with pc := update s.pc t pc }

theorem setPc_self (s : PiLock) (t : ℕ) (pc : PiPc) : (s.setPc t pc).pc t = pc := by
  simp only [setPc, update_self]

theorem setPc_of_ne (s : PiLock) {t u : ℕ} (h : u ≠ t) (pc : PiPc) :
    (s.setPc t pc).pc u = s.pc u := by
  simp only [setPc, update_of_ne h]

/-- The compare-and-swap has taken the lock, and the thread is back in user space. -/
def acquire : PiLock :=
  { s.setPc t .user with
    word := T.pid t, owner := some t, holds := update s.holds t true }

def release (pc : PiPc) : PiLock :=
  { s.setPc t pc with word := 0, owner := none, holds := update s.holds t false }

/-- One turn of the loop of `futex_lock_pi`, with the word it read last. -/
def lockRound (current : BitVec 32) : PiLock :=
  if current &&& pidMask = 0 then
    if s.word = 0 then s.acquire T t
    -- nobody owns a word with a stale `FUTEX_WAITERS`: the thread waits nonetheless
    else if s.word &&& pidMask = 0 then s.setPc t .contended
    else s.setPc t (.lockLoop s.word)
  else if current &&& futexWaiters ≠ 0 then s.setPc t .contended
  else if s.word = current then { s.setPc t .contended with word := current ||| futexWaiters }
  else s.setPc t (.lockLoop s.word)

/-- One turn of the loop of `futex_unlock_pi`; only the owner gets past the first test. -/
def unlockRound (prev : BitVec 32) : PiLock :=
  if prev &&& pidMask ≠ T.pid t then s.setPc t .user
  else if s.word = prev then
    s.release t (if prev &&& futexWaiters ≠ 0 then .releasing else .user)
  else s.setPc t (.unlockLoop s.word)

def drainWake (matching : ℕ → Bool) (max : ℕ) : PiLock :=
  { s with
    pc := fun u => if u ∈ (drained matching max s.queue).1 then .woken else s.pc u
    queue := (drained matching max s.queue).2 }

/-- The threads that wait at the address of the word of `t`. -/
def sameAddr (u : ℕ) : Bool := T.addr u = T.addr t

/-- One step. A thread without a process gets `ESRCH`. -/
def step : PiEvent → PiLock
  | .lock t =>
    if s.pc t = .user ∧ T.pid t ≠ 0 then
      if s.word = 0 then s.acquire T t else s.setPc t (.lockLoop s.word)
    else s
  | .lockLoop t =>
    match s.pc t with
    | .lockLoop current => s.lockRound T t current
    | _ => s
  | .checkSignal t pending =>
    if s.pc t = .contended then s.setPc t (if pending then .user else .unsignalled) else s
  | .mark t => if s.pc t = .unsignalled then s.setPc t .blocked else s
  | .route t =>
    if s.pc t = .blocked then { s.setPc t .queued with queue := s.queue ++ [t] } else s
  | .resume t =>
    -- `futex_lock_pi` returns 0 here
    if s.pc t = .woken then { s.setPc t .user with holds := update s.holds t true }
    else s
  | .unlock t =>
    if s.pc t = .user ∧ T.pid t ≠ 0 then s.setPc t (.unlockLoop s.word) else s
  | .unlockLoop t =>
    match s.pc t with
    | .unlockLoop prev => s.unlockRound T t prev
    | _ => s
  | .wake t => if s.pc t = .releasing then (s.setPc t .user).drainWake (sameAddr T t) 1 else s
  | .otherWake matching max => s.drainWake matching max
  | .fastLock t =>
    if s.pc t = .user ∧ T.pid t ≠ 0 ∧ s.word = 0 then s.acquire T t else s
  | .fastUnlock t =>
    if s.pc t = .user ∧ T.pid t ≠ 0 ∧ s.word = T.pid t then s.release t .user else s
  | .fault t =>
    match s.pc t with
    | .lockLoop _ | .unlockLoop _ => s.setPc t .user
    | _ => s

end PiLock

open PiLock

structure PiSafe (T : PiThreads) (s : PiLock) (e : PiEvent) : Prop where
  exclusive : ∀ t u, (s.step T e).holds t → (s.step T e).holds u → t = u
  released : ∀ t, s.owner = some t → (s.step T e).owner = none →
    e = .unlockLoop t ∨ e = .fastUnlock t
  woken : ∀ t u, e = .wake t → s.pc u = .queued → (s.step T e).pc u = .woken →
    (s.step T e).owner = some u

def Releases (T : PiThreads) (s : PiLock) (t : ℕ) : Prop :=
  s.pc t = .unlockLoop s.word ∧ s.word &&& pidMask = T.pid t

/-- A thread whose unlock succeeds owns the lock, it is not another thread of the owner's
process; and the wake after an unlock finds no waiter, unless one that owns the lock already. -/
def PiPermitted (T : PiThreads) (s : PiLock) : PiEvent → Prop
  | .unlockLoop t => Releases T s t → s.owner = some t
  | .fastUnlock t => s.pc t = .user ∧ T.pid t ≠ 0 ∧ s.word = T.pid t → s.owner = some t
  | .wake t => s.pc t = .releasing → ∀ u ∈ s.queue.find? (sameAddr T t), s.owner = some u
  | _ => True

/-- No other wake takes a thread from the queue of the word, unless one that owns the lock. -/
def Undisturbed (s : PiLock) : PiEvent → Prop
  | .otherWake matching max => ∀ u ∈ (s.queue.filter matching).take max, s.owner = some u
  | _ => True

structure PiInv (T : PiThreads) (s : PiLock) : Prop where
  holds : ∀ t, s.holds t = true ↔ s.owner = some t
  free : s.owner = none ↔ s.word = 0
  woken : ∀ t, s.pc t = .woken → s.owner = some t
  queued : ∀ t ∈ s.queue, s.pc t = .queued
  nodup : s.queue.Nodup
  named : ∀ t, s.pc t ≠ .user → T.pid t ≠ 0

/-- The step neither releases the lock nor wakes a waiter. -/
structure Quiet (T : PiThreads) (s s' : PiLock) : Prop where
  inv : PiInv T s'
  owned : s'.owner = none → s.owner = none
  asleep : ∀ t, s.pc t = .queued → s'.pc t = .queued

variable {T : PiThreads} {s : PiLock} {t : ℕ}

theorem PiInv.exclusive (h : PiInv T s) (t u : ℕ) (ht : s.holds t) (hu : s.holds u) : t = u := by
  have howner := (h.holds t).mp ht
  rw [(h.holds u).mp hu] at howner
  exact (Option.some.inj howner).symm

/-- A thread inside a system call that is not in the queue. -/
theorem PiInv.active (h : PiInv T s) {pc : PiPc} (ht : s.pc t = pc) (hqueued : pc ≠ .queued)
    (huser : pc ≠ .user) : s.pc t ≠ .queued ∧ T.pid t ≠ 0 :=
  ⟨ht ▸ hqueued, h.named t (ht ▸ huser)⟩

namespace Quiet

variable (h : PiInv T s)

include h

theorem refl : Quiet T s s := ⟨h, id, fun _ => id⟩

omit h in
theorem safe {e : PiEvent} (h : Quiet T s (s.step T e)) : PiSafe T s e where
  exclusive := h.inv.exclusive
  released t ht hnone := by
    rw [h.owned hnone] at ht
    cases ht
  woken _ u _ hqueued hwoken := by
    rw [h.asleep u hqueued] at hwoken
    cases hwoken

/-- A thread that is not in the queue goes on. -/
theorem setPc {pc : PiPc} (ht : s.pc t ≠ .queued) (hpid : T.pid t ≠ 0)
    (hpc : pc ≠ .woken) : Quiet T s (s.setPc t pc) := by
  refine ⟨⟨h.holds, h.free, fun u hu => ?_, fun u hu => ?_, h.nodup, fun u hu => ?_⟩, id,
    fun u hu => ?_⟩
  · by_cases heq : u = t
    · subst heq
      rw [setPc_self] at hu
      exact absurd hu hpc
    · rw [setPc_of_ne s heq] at hu
      exact h.woken u hu
  · have hne : u ≠ t := fun heq => ht (heq ▸ h.queued u hu)
    rw [setPc_of_ne s hne]
    exact h.queued u hu
  · by_cases heq : u = t
    · exact heq ▸ hpid
    · rw [setPc_of_ne s heq] at hu
      exact h.named u hu
  · have hne : u ≠ t := fun heq => ht (heq ▸ hu)
    rw [setPc_of_ne s hne]
    exact hu

/-- The compare-and-swap takes a free lock. -/
theorem acquire (ht : s.pc t ≠ .queued) (hpid : T.pid t ≠ 0) (hword : s.word = 0) :
    Quiet T s (s.acquire T t) := by
  have hnone := h.free.mpr hword
  obtain ⟨hinv, -, hasleep⟩ := setPc h ht hpid (show PiPc.user ≠ .woken from nofun)
  refine ⟨⟨fun u => ?_, ?_, fun u hu => ?_, hinv.queued, hinv.nodup, hinv.named⟩, nofun, hasleep⟩
  · by_cases heq : u = t
    · subst heq
      simp [acquire]
    · have hu : s.holds u ≠ true := fun hu => by
        rw [(h.holds u).mp hu] at hnone
        cases hnone
      simp [PiLock.acquire, update_of_ne heq, hu, Ne.symm heq]
  · exact ⟨nofun, fun hzero => absurd hzero hpid⟩
  · have howner : s.owner = some u := hinv.woken u hu
    rw [hnone] at howner
    cases howner

/-- The compare-and-swap marks the lock as contended. -/
theorem contend (ht : s.pc t ≠ .queued) (hpid : T.pid t ≠ 0) (hword : s.word ≠ 0) :
    Quiet T s { s.setPc t .contended with word := s.word ||| futexWaiters } := by
  obtain ⟨hinv, howned, hasleep⟩ := setPc h ht hpid (show PiPc.contended ≠ .woken from nofun)
  refine ⟨⟨hinv.holds, ?_, hinv.woken, hinv.queued, hinv.nodup, hinv.named⟩, howned, hasleep⟩
  have hword' : s.word ||| futexWaiters ≠ 0 := fun hzero =>
    hword (BitVec.or_eq_zero_iff.mp hzero).1
  exact ⟨fun hnone => absurd (h.free.mp hnone) hword, fun hzero => absurd hzero hword'⟩

theorem lockRound {current : BitVec 32} (ht : s.pc t = .lockLoop current) :
    Quiet T s (s.lockRound T t current) := by
  obtain ⟨hnot, hpid⟩ := h.active ht nofun nofun
  rw [PiLock.lockRound]
  split
  · split
    · next hword => exact acquire h hnot hpid hword
    split
    all_goals exact setPc h hnot hpid nofun
  · next hmasked =>
    split
    · exact setPc h hnot hpid nofun
    split
    · next heq =>
      subst heq
      refine contend h hnot hpid fun hzero => hmasked ?_
      rw [hzero]
      exact BitVec.zero_and
    · exact setPc h hnot hpid nofun

end Quiet

section

variable (h : PiInv T s) {e : PiEvent} {pc : PiPc}

include h

/-- The owner's compare-and-swap clears the word. -/
theorem PiInv.release (ht : s.pc t ≠ .queued) (howner : s.owner = some t)
    (hpid : T.pid t ≠ 0) (hpc : pc ≠ .woken) : PiInv T (s.release t pc) := by
  obtain ⟨hinv, -, -⟩ := Quiet.setPc h ht hpid hpc
  refine ⟨fun u => ?_, by simp [PiLock.release], fun u hu => ?_, hinv.queued, hinv.nodup, hinv.named⟩
  · by_cases heq : u = t
    · subst heq
      simp [release]
    · have hu : s.holds u ≠ true := fun hu => by
        rw [(h.holds u).mp hu] at howner
        exact heq (Option.some.inj howner)
      simp [PiLock.release, update_of_ne heq, hu]
  · -- the owner itself is not a woken waiter
    have hu' : (s.setPc t pc).pc u = .woken := hu
    have hut : u = t := Option.some.inj ((hinv.woken u hu').symm.trans howner)
    subst hut
    rw [setPc_self] at hu'
    exact absurd hu' hpc

/-- A release is safe exactly if the owner makes it. -/
theorem safe_release_iff (ht : s.pc t ≠ .queued)
    (hpid : T.pid t ≠ 0) (hpc : pc ≠ .woken) (hword : s.word ≠ 0) (he : s.step T e = s.release t pc)
    (hthread : ∀ u, e = .unlockLoop u ∨ e = .fastUnlock u ↔ u = t) :
    PiSafe T s e ↔ s.owner = some t := by
  obtain ⟨o, ho⟩ := Option.ne_none_iff_exists'.mp (mt h.free.mp hword)
  constructor
  · intro hsafe
    have hreleased := hsafe.released o ho (by rw [he]; rfl)
    rw [ho, (hthread o).mp hreleased]
  · intro howner
    have hinv := h.release ht howner hpid hpc
    obtain ⟨-, -, hasleep⟩ := Quiet.setPc h ht hpid hpc
    rw [← he] at hinv
    refine ⟨hinv.exclusive, fun u hu _ => (hthread u).mpr ?_, fun _ u _ hqueued hwoken => ?_⟩
    · exact Option.some.inj (hu.symm.trans howner)
    · rw [he, show (s.release t pc).pc u = _ from hasleep u hqueued] at hwoken
      cases hwoken

/-- A wake keeps the invariant if every thread it wakes owns the lock already. -/
theorem PiInv.drainWake (matching : ℕ → Bool) (max : ℕ)
    (howner : ∀ u ∈ (s.queue.filter matching).take max, s.owner = some u) :
    PiInv T (s.drainWake matching max) := by
  rw [← drained_fst] at howner
  have hperm := drained_perm matching max s.queue
  have hnodup := nodup_append.mp (hperm.nodup_iff.mpr h.nodup)
  refine ⟨h.holds, h.free, fun u hu => ?_, fun u hu => ?_, hnodup.2.1, fun u hu => ?_⟩
  · simp only [PiLock.drainWake] at hu
    split_ifs at hu with hwoken
    · exact howner u hwoken
    · exact h.woken u hu
  · have hkept : u ∉ (drained matching max s.queue).1 := fun hwoken =>
      hnodup.2.2 u hwoken u hu rfl
    exact (if_neg hkept).trans (h.queued u (hperm.subset (mem_append_right _ hu)))
  · refine h.named u fun huser => hu ?_
    have hkept : u ∉ (drained matching max s.queue).1 := fun hwoken => by
      have hqueued := h.queued u (hperm.subset (mem_append_left _ hwoken))
      rw [huser] at hqueued
      cases hqueued
    exact (if_neg hkept).trans huser

/-- The wake after an unlock is safe exactly if the waiter it finds owns the lock already. -/
theorem wake_spec (ht : s.pc t = .releasing) :
    (PiSafe T s (.wake t) ↔ PiPermitted T s (.wake t)) ∧
      (PiPermitted T s (.wake t) → PiInv T (s.step T (.wake t))) := by
  have hstep : s.step T (.wake t) = (s.setPc t .user).drainWake (sameAddr T t) 1 := if_pos ht
  have hfirst : (s.queue.filter (sameAddr T t)).take 1 = (s.queue.find? (sameAddr T t)).toList := by
    rw [← head?_filter]
    cases s.queue.filter (sameAddr T t) <;> rfl
  have hkeep : PiPermitted T s (.wake t) → PiInv T (s.step T (.wake t)) := by
    intro hpermitted
    obtain ⟨hnot, hpid⟩ := h.active ht nofun nofun
    obtain ⟨hinv, -, -⟩ := Quiet.setPc h hnot hpid (show PiPc.user ≠ .woken from nofun)
    rw [hstep]
    refine hinv.drainWake _ _ fun u hu => hpermitted ht u ?_
    exact Option.mem_toList.mp (hfirst ▸ hu)
  refine ⟨⟨fun hsafe _ u hu => ?_, fun hpermitted => ?_⟩, hkeep⟩
  · have hmem : u ∈ s.queue := mem_of_find?_eq_some hu
    have hwoken : (s.step T (.wake t)).pc u = .woken := by
      rw [hstep, PiLock.drainWake]
      refine if_pos ?_
      rw [drained_fst]
      exact hfirst.symm ▸ Option.mem_toList.mpr hu
    have howns := hsafe.woken t u rfl (h.queued u hmem) hwoken
    rwa [hstep] at howns
  · have hinv := hkeep hpermitted
    refine ⟨hinv.exclusive, fun u hu hnone => ?_, fun _ u _ _ hu => hinv.woken u hu⟩
    rw [hstep] at hnone
    exact absurd (hu.symm.trans hnone) nofun

/-- A waiter that reaches the queue. -/
theorem Quiet.route (ht : s.pc t = .blocked) :
    Quiet T s { s.setPc t .queued with queue := s.queue ++ [t] } := by
  obtain ⟨hnot, hpid⟩ := h.active ht nofun nofun
  obtain ⟨hinv, howned, hasleep⟩ := Quiet.setPc h hnot hpid (show PiPc.queued ≠ .woken from nofun)
  refine ⟨⟨hinv.holds, hinv.free, hinv.woken, fun u hu => ?_, ?_, hinv.named⟩, howned, hasleep⟩
  · obtain hu | hu := mem_append.mp hu
    · exact hinv.queued u hu
    · rw [mem_singleton.mp hu]
      exact setPc_self s t .queued
  · refine nodup_append.mpr ⟨h.nodup, nodup_singleton t, fun u hu v hv heq => hnot ?_⟩
    rw [← mem_singleton.mp hv, ← heq]
    exact h.queued u hu

/-- A woken waiter returns; it owns the lock. -/
theorem Quiet.resume (ht : s.pc t = .woken) :
    Quiet T s { s.setPc t .user with holds := update s.holds t true } := by
  obtain ⟨hnot, hpid⟩ := h.active ht nofun nofun
  have howner := h.woken t ht
  obtain ⟨hinv, howned, hasleep⟩ := Quiet.setPc h hnot hpid (show PiPc.user ≠ .woken from nofun)
  have hsame : update s.holds t true = s.holds := by
    rw [update_eq_self_iff]
    exact ((h.holds t).mpr howner).symm
  rw [hsame]
  exact ⟨hinv, howned, hasleep⟩

/-- The unlock loop: safe exactly if the owner's compare-and-swap succeeds. -/
theorem unlockRound_spec {prev : BitVec 32} (ht : s.pc t = .unlockLoop prev) :
    (PiSafe T s (.unlockLoop t) ↔ PiPermitted T s (.unlockLoop t)) ∧
      (PiPermitted T s (.unlockLoop t) → PiInv T (s.step T (.unlockLoop t))) := by
  obtain ⟨hnot, hpid⟩ := h.active ht nofun nofun
  have hstep : s.step T (.unlockLoop t) = s.unlockRound T t prev := by
    simp only [step, ht]
  by_cases hrel : Releases T s t
  · obtain ⟨hpc, hmask⟩ := hrel
    obtain rfl : prev = s.word := by
      rw [ht] at hpc
      exact PiPc.unlockLoop.inj hpc
    have hword : s.word ≠ 0 := fun hzero => hpid (by
      rw [← hmask, hzero]
      exact BitVec.zero_and)
    have hpcs : (if s.word &&& futexWaiters ≠ 0 then PiPc.releasing else .user) ≠ .woken := by
      split
      · exact nofun
      · exact nofun
    rw [unlockRound, if_neg (not_not.mpr hmask), if_pos rfl] at hstep
    have hiff : PiPermitted T s (.unlockLoop t) ↔ s.owner = some t :=
      ⟨fun hp => hp ⟨hpc, hmask⟩, fun ho _ => ho⟩
    refine ⟨?_, fun hp => ?_⟩
    · rw [hiff]
      exact safe_release_iff h hnot hpid hpcs hword hstep (fun u => by simp [eq_comm])
    · rw [hstep]
      exact h.release hnot (hiff.mp hp) hpid hpcs
  · have hpermitted : PiPermitted T s (.unlockLoop t) := fun hrel' => absurd hrel' hrel
    have hquiet : Quiet T s (s.step T (.unlockLoop t)) := by
      rw [hstep, unlockRound]
      split
      · exact Quiet.setPc h hnot hpid nofun
      next hmask =>
      split
      · next heq =>
        rw [ne_eq, not_not] at hmask
        exact absurd ⟨heq ▸ ht, heq ▸ hmask⟩ hrel
      · exact Quiet.setPc h hnot hpid nofun
    exact ⟨iff_of_true hquiet.safe hpermitted, fun _ => hquiet.inv⟩

/-- Steps that are neither the end of an unlock nor a wake. -/
theorem Quiet.step (hunlock : ∀ t, e ≠ .unlockLoop t)
    (hfast : ∀ t, e ≠ .fastUnlock t) (hwake : ∀ t, e ≠ .wake t)
    (hother : ∀ matching max, e ≠ .otherWake matching max) : Quiet T s (s.step T e) := by
  cases e with
  | unlockLoop t => exact absurd rfl (hunlock t)
  | fastUnlock t => exact absurd rfl (hfast t)
  | wake t => exact absurd rfl (hwake t)
  | otherWake matching max => exact absurd rfl (hother matching max)
  | lock t =>
    rw [PiLock.step]
    split
    · next huser =>
      have hnot : s.pc t ≠ .queued := by rw [huser.1]; exact nofun
      split
      · next hword => exact acquire h hnot huser.2 hword
      · exact setPc h hnot huser.2 nofun
    · exact refl h
  | lockLoop t =>
    rw [PiLock.step]
    split
    · next current ht => exact lockRound h ht
    · exact refl h
  | checkSignal t pending =>
    rw [PiLock.step]
    split
    · next ht =>
      refine setPc h (by rw [ht]; exact nofun) (h.named t (by rw [ht]; exact nofun)) ?_
      split
      · exact nofun
      · exact nofun
    · exact refl h
  | mark t =>
    rw [PiLock.step]
    split
    · next ht =>
      exact setPc h (by rw [ht]; exact nofun) (h.named t (by rw [ht]; exact nofun)) nofun
    · exact refl h
  | route t =>
    rw [PiLock.step]
    split
    · next ht => exact route h ht
    · exact refl h
  | resume t =>
    rw [PiLock.step]
    split
    · next ht => exact resume h ht
    · exact refl h
  | unlock t =>
    rw [PiLock.step]
    split
    · next huser => exact setPc h (by rw [huser.1]; exact nofun) huser.2 nofun
    · exact refl h
  | fastLock t =>
    rw [PiLock.step]
    split
    · next huser => exact acquire h (by rw [huser.1]; exact nofun) huser.2.1 huser.2.2
    · exact refl h
  | fault t =>
    rw [PiLock.step]
    split
    · next ht =>
      exact setPc h (by rw [ht]; exact nofun) (h.named t (by rw [ht]; exact nofun)) nofun
    · next ht =>
      exact setPc h (by rw [ht]; exact nofun) (h.named t (by rw [ht]; exact nofun)) nofun
    · exact refl h

/-- What one step can do: it is safe exactly if it is permitted, and then keeps the
invariant. -/
theorem PiInv.step_spec (hundisturbed : Undisturbed s e) :
    (PiSafe T s e ↔ PiPermitted T s e) ∧
      (PiPermitted T s e → PiInv T (s.step T e)) := by
  have hquiet : Quiet T s (s.step T e) → PiPermitted T s e →
      (PiSafe T s e ↔ PiPermitted T s e) ∧ (PiPermitted T s e → PiInv T (s.step T e)) :=
    fun hq hp => ⟨iff_of_true hq.safe hp, fun _ => hq.inv⟩
  cases e with
  | unlockLoop t =>
    by_cases ht : ∃ prev, s.pc t = .unlockLoop prev
    · obtain ⟨prev, ht⟩ := ht
      exact unlockRound_spec h ht
    refine hquiet ?_ fun hrel => absurd ⟨_, hrel.1⟩ ht
    rw [step]
    split
    · next prev hpc => exact absurd ⟨prev, hpc⟩ ht
    · exact Quiet.refl h
  | fastUnlock t =>
    by_cases ht : s.pc t = .user ∧ T.pid t ≠ 0 ∧ s.word = T.pid t
    · obtain ⟨huser, hpid, hword⟩ := ht
      have hnot : s.pc t ≠ .queued := by rw [huser]; exact nofun
      have hstep : s.step T (.fastUnlock t) = s.release t .user := if_pos ⟨huser, hpid, hword⟩
      have hiff : PiPermitted T s (.fastUnlock t) ↔ s.owner = some t :=
        ⟨fun hp => hp ⟨huser, hpid, hword⟩, fun ho _ => ho⟩
      rw [hiff]
      refine ⟨safe_release_iff h hnot hpid (show PiPc.user ≠ .woken from nofun)
        (hword ▸ hpid) hstep (fun u => by simp [eq_comm]), fun ho => ?_⟩
      rw [hstep]
      exact h.release hnot ho hpid nofun
    · refine hquiet ?_ fun ht' => absurd ht' ht
      rw [step, if_neg ht]
      exact Quiet.refl h
  | wake t =>
    by_cases ht : s.pc t = .releasing
    · exact wake_spec h ht
    · refine hquiet ?_ fun ht' => absurd ht' ht
      rw [step, if_neg ht]
      exact Quiet.refl h
  | otherWake matching max =>
    have hinv : PiInv T (s.step T (.otherWake matching max)) :=
      h.drainWake matching max hundisturbed
    refine ⟨iff_of_true ⟨hinv.exclusive, fun u hu hnone => ?_, nofun⟩ trivial, fun _ => hinv⟩
    exact absurd (hu.symm.trans hnone) nofun
  | _ => exact hquiet (Quiet.step h nofun nofun nofun nofun) trivial

end

theorem piInv_start (T : PiThreads) : PiInv T {} :=
  ⟨fun _ => by simp, by simp, fun _ h => (by cases h), fun _ h => (by cases h), nodup_nil,
    fun _ h => absurd rfl h⟩

/-- In an interleaving where no other wake disturbs the waiters, mutual exclusion, release by the
owner only and ownership of the woken waiter hold exactly if no thread unlocks for another one of
its process and no unlock finds a waiter in the queue. -/
theorem safe_iff_permitted (T : PiThreads) (events : List PiEvent)
    (hundisturbed : Along (step T) Undisturbed {} events) :
    Along (step T) (PiSafe T) {} events ↔ Along (step T) (PiPermitted T) {} events :=
  along_iff_of_inv_along (I := PiInv T) (fun _ _ h hd => (h.step_spec hd).1)
    (fun _ _ h hd => (h.step_spec hd).2) (piInv_start T) hundisturbed

/-- Threads of different processes that have the word at the same address. -/
def apart : PiThreads := ⟨fun t => BitVec.ofNat 32 t, fun _ => 0x1000⟩

/-- Thread 2 finds the lock taken by thread 1 and a signal pending; it locks after the unlock.
Meanwhile thread 3, which does not wait, is sent a signal. -/
theorem safe_iff_permitted_interrupted :
    Along (step apart) (PiSafe apart) {} [.lock 1, .lock 2, .lockLoop 2, .checkSignal 2 true,
      .otherWake (· = 3) 5, .unlock 1, .unlockLoop 1, .wake 1, .lock 2] := by
  refine (safe_iff_permitted apart _ ?_).mpr ?_
  · refine ⟨trivial, trivial, trivial, trivial, fun u hu => ?_, trivial, trivial, trivial, trivial,
      trivial⟩
    cases hu
  · refine ⟨trivial, trivial, trivial, trivial, trivial, trivial, fun _ => rfl, fun _ u hu => ?_,
      trivial, trivial⟩
    cases hu

/-- Three threads, of processes 1, 2 and 3: thread 2 waits for thread 1 and is woken when it
unlocks; thread 3 takes the free lock, and thread 2 returns with success as well. -/
def wokenWithoutLock : List PiEvent :=
  [.lock 1, .lock 2, .lockLoop 2, .checkSignal 2 false, .mark 2, .route 2, .unlock 1,
    .unlockLoop 1, .wake 1, .fastLock 3, .resume 2]

theorem wokenWithoutLock_unsafe :
    ¬ Along (step apart) (PiSafe apart) {} wokenWithoutLock := by
  rintro ⟨-, -, -, -, -, -, -, -, -, -, hlast, -⟩
  have hsame := hlast.exclusive 2 3 (by decide +kernel) (by decide +kernel)
  cases hsame

end Vahi.Syscalls
