import Vahi.Lib.Run
import Vahi.Task.Scheduler
import Vahi.Types.Errno

/-!
# Futex wait and wake

`futex_wait` and `FUTEX_WAKE` (`kernel/src/syscalls/futex.rs`), cut into atomic sections and
executed by two threads on one word while the scheduler runs on all CPUs.
-/

namespace Vahi.Syscalls

open Vahi.Lib Vahi.Types Vahi.Task.Sched

inductive WaitPc where
  | start
  /-- The word had the expected value. -/
  | checked
  /-- No signal was pending. -/
  | unsignalled
  /-- Marked as blocked and in `schedule`. -/
  | asleep
  /-- Returned without sleeping. -/
  | returned (e : Errno)
  deriving DecidableEq

inductive WakePc where
  | start
  | stored
  | woken
  deriving DecidableEq

/-- The scheduler with the futex word, and the two threads `waiter` and `waker`. `moved` records
whether the wake moved the waiter to a ready queue. -/
structure FutexSystem (n : ℕ) where
  sched : Scheduler n
  word : BitVec 32
  waiter : WaitPc := .start
  waker : WakePc := .start
  moved : Bool := false

open FutexSystem

/-- The call `FUTEX_WAIT(uaddr, expected)` of thread `waiter`, and the thread that wakes it. -/
structure FutexCall where
  uaddr : BitVec 64
  expected : BitVec 32
  waiter : ℕ
  waker : ℕ

inductive FutexEvent (n : ℕ) where
  /-- The waiter reads the word; the access may fault. -/
  | read (cpu : Fin n) (fault : Bool)
  | checkSignal (cpu : Fin n) (pending : Bool)
  | mark (cpu : Fin n)
  /-- The waker stores a value other than the expected one. -/
  | store (cpu : Fin n) (value : BitVec 32)
  /-- `FUTEX_WAKE` with at least as many wakeups as there are waiters. -/
  | wake (cpu : Fin n) (max : ℕ)
  /-- A section of the scheduler, for any thread. -/
  | sched (op : Op n)

variable {n : ℕ}

def Runs (s : Scheduler n) (cpu : Fin n) (id : ℕ) : Prop :=
  (s.cpus cpu).currentThread.map (·.id) = some id

instance (s : Scheduler n) (cpu : Fin n) (id : ℕ) : Decidable (Runs s cpu id) :=
  inferInstanceAs (Decidable (_ = _))

variable (call : FutexCall) (s : FutexSystem n) {max : ℕ}

def Queued (s : Scheduler n) : Prop :=
  ∃ t ∈ s.futexQueue, t.id = call.waiter ∧ t.futexWakeAddr = some call.uaddr

instance (call : FutexCall) (s : Scheduler n) : Decidable (Queued call s) :=
  inferInstanceAs (Decidable (∃ t ∈ s.futexQueue, _))

def Ready (s : Scheduler n) (cpu : Fin n) (id : ℕ) : Prop :=
  ∃ level, ∃ t ∈ (s.cpus cpu).readyQueues level, t.id = id

instance (s : Scheduler n) (cpu : Fin n) (id : ℕ) : Decidable (Ready s cpu id) :=
  inferInstanceAs (Decidable (∃ level, ∃ t ∈ (s.cpus cpu).readyQueues level, _))

def waiters (s : Scheduler n) : ℕ :=
  s.futexQueue.countP fun t => t.futexWakeAddr = some call.uaddr

/-- The section is not part of the two system calls: it wakes no thread from the futex queue,
and the waiter is in `futex_wait` and does nothing else. -/
def Elsewhere (s : Scheduler n) : Op n → Prop
  | .wakeFutex .. | .wakeProcessFutex .. => False
  | .blockOnPipe cpu _ | .blockOnFutex cpu _ | .sleepUntil cpu _ | .exit cpu =>
    ¬ Runs s cpu call.waiter
  | _ => True

instance (call : FutexCall) (s : Scheduler n) : DecidablePred (Elsewhere call s)
  | .wakeFutex .. | .wakeProcessFutex .. => inferInstanceAs (Decidable False)
  | .blockOnPipe cpu _ | .blockOnFutex cpu _ | .sleepUntil cpu _ | .exit cpu =>
    inferInstanceAs (Decidable (¬ Runs s cpu call.waiter))
  | .spawn _ | .schedule .. | .trySchedule .. | .routeSwitchingOld _ | .resume .. | .yieldNow ..
  | .wakePipe .. | .wakeProcessBlocked .. | .tick .. | .loadBalance .. =>
    inferInstanceAs (Decidable True)

/-- The waker has stored, runs, and asks for at least as many wakeups as there are waiters. -/
def CanWake (cpu : Fin n) (max : ℕ) : Prop :=
  s.waker = .stored ∧ Runs s.sched cpu call.waker ∧ waiters call s.sched ≤ max

instance (call : FutexCall) (s : FutexSystem n) (cpu : Fin n) (max : ℕ) :
    Decidable (CanWake call s cpu max) :=
  inferInstanceAs (Decidable (_ ∧ _ ∧ _))

/-- One event. It happens only where the thread that causes it runs and has come that far. -/
def FutexSystem.step : FutexEvent n → FutexSystem n
  | .read cpu fault =>
    if s.waiter = .start ∧ Runs s.sched cpu call.waiter then
      if fault then { s with waiter := .returned .efault }
      else if s.word ≠ call.expected then { s with waiter := .returned .eagain }
      else { s with waiter := .checked }
    else s
  | .checkSignal cpu pending =>
    if s.waiter = .checked ∧ Runs s.sched cpu call.waiter then
      { s with waiter := if pending then .returned .eintr else .unsignalled }
    else s
  | .mark cpu =>
    if s.waiter = .unsignalled ∧ Runs s.sched cpu call.waiter then
      { s with sched := s.sched.exec (.blockOnFutex cpu call.uaddr), waiter := .asleep }
    else s
  | .store cpu value =>
    if s.waker = .start ∧ Runs s.sched cpu call.waker ∧ value ≠ call.expected then
      { s with word := value, waker := .stored }
    else s
  | .wake cpu max =>
    if CanWake call s cpu max then
      let sched := s.sched.exec (.wakeFutex cpu call.uaddr max)
      { s with
        sched, waker := .woken
        moved := decide (Queued call s.sched ∧ Ready sched cpu call.waiter) }
    else s
  | .sched op => if Elsewhere call s.sched op then { s with sched := s.sched.exec op } else s

/-- Both system calls are over, or the waiter sleeps. -/
def FutexSystem.Complete : Prop :=
  s.waker = .woken ∧ (s.waiter = .asleep ∨ ∃ e, s.waiter = .returned e)

/-- The waiting thread returned without sleeping or was moved to a ready queue by the wake. -/
def FutexSystem.Woken : Prop :=
  (∃ e, s.waiter = .returned e) ∨ s.moved = true

/-- A wake comes before the waiter has read the word, after it has returned, or when it is in
the futex queue. -/
def OnTime : FutexEvent n → Prop
  | .wake cpu max =>
    CanWake call s cpu max →
      s.waiter = .start ∨ (∃ e, s.waiter = .returned e) ∨ Queued call s.sched
  | _ => True

def FutexSystem.run (events : List (FutexEvent n)) : FutexSystem n :=
  events.foldl (step call) s

/-- With at least as many wakeups as matching threads every one of them is woken. -/
theorem mem_drainWake {matching : Thread → Bool} {clear : Thread → Thread} {t : Thread}
    {queue : List Thread} (ht : t ∈ queue) (hmatch : matching t = true)
    (hmax : queue.countP matching ≤ max) (c : PerCpu) :
    ∃ level, { clear t with status := .ready } ∈
      (Scheduler.drainWake matching clear max queue c).1.readyQueues level := by
  obtain ⟨before, after, -, htake, heq⟩ := Scheduler.exists_drainWake_eq matching clear max queue c
  rw [List.countP_eq_length_filter] at hmax
  rw [heq, htake, List.take_of_length_le hmax]
  have hmem := List.mem_map_of_mem (f := Scheduler.woken clear) (List.mem_filter.mpr ⟨ht, hmatch⟩)
  exact ⟨_, List.mem_append_right _ (List.mem_filter.mpr ⟨hmem, decide_eq_true rfl⟩)⟩

/-- The wake moves the waiter to a ready queue if it finds it in the futex queue. -/
theorem ready_wakeFutex {call : FutexCall} {s : Scheduler n} (cpu : Fin n)
    (h : Queued call s) (hmax : waiters call s ≤ max) :
    Ready (s.exec (.wakeFutex cpu call.uaddr max)) cpu call.waiter := by
  obtain ⟨t, ht, hid, haddr⟩ := h
  obtain ⟨level, hmem⟩ := mem_drainWake ht (decide_eq_true haddr) hmax (s.cpus cpu)
  refine ⟨level, { t with futexWakeAddr := none, status := .ready }, ?_, hid⟩
  simpa [Scheduler.exec, Scheduler.wakeFutex, Scheduler.drainFutex, Scheduler.setCpu] using hmem

/-- Before the wake: the word differs from the expected value once the waker has stored. -/
structure Pending (call : FutexCall) (s : FutexSystem n) : Prop where
  waker : s.waker ≠ .woken
  moved : s.moved = false
  word : s.waker = .stored → s.word ≠ call.expected

/-- The waiter has not come past the check of the value, or has returned. -/
def Early : Prop := s.waiter = .start ∨ ∃ e, s.waiter = .returned e

variable {call : FutexCall} {s : FutexSystem n}

theorem Pending.step (h : Pending call s) (e : FutexEvent n) :
    (OnTime call s e ∧ Pending call (s.step call e)) ∨
      ∃ cpu max, e = .wake cpu max ∧ CanWake call s cpu max := by
  cases e with
  | wake cpu max =>
    by_cases hcan : CanWake call s cpu max
    · exact .inr ⟨cpu, max, rfl, hcan⟩
    · exact .inl ⟨fun hcan' => absurd hcan' hcan, by rwa [FutexSystem.step, if_neg hcan]⟩
  | store cpu value =>
    refine .inl ⟨trivial, ?_⟩
    rw [FutexSystem.step]
    split
    · next hstore => exact ⟨nofun, h.moved, fun _ => hstore.2.2⟩
    · exact h
  | read cpu fault =>
    refine .inl ⟨trivial, ?_⟩
    rw [FutexSystem.step]
    split
    · split
      · exact ⟨h.waker, h.moved, h.word⟩
      split
      all_goals exact ⟨h.waker, h.moved, h.word⟩
    · exact h
  | _ =>
    refine .inl ⟨trivial, ?_⟩
    rw [FutexSystem.step]
    split
    · exact ⟨h.waker, h.moved, h.word⟩
    · exact h

/-- After the wake: nothing changes the word or `moved` any more. -/
structure Over (call : FutexCall) (moved : Bool) (s : FutexSystem n) : Prop where
  waker : s.waker = .woken
  moved : s.moved = moved
  word : s.word ≠ call.expected

variable {moved : Bool}

theorem Over.step (h : Over call moved s) (e : FutexEvent n) :
    OnTime call s e ∧ Over call moved (s.step call e) ∧ (Early s → Early (s.step call e)) := by
  obtain ⟨hwaker, hmoved, hword⟩ := h
  cases e with
  | wake cpu max =>
    have hcannot : ¬ CanWake call s cpu max := fun hcan => by
      have := hcan.1
      rw [hwaker] at this
      cases this
    exact ⟨fun hcan => absurd hcan hcannot, by
      rw [FutexSystem.step, if_neg hcannot]
      exact ⟨⟨hwaker, hmoved, hword⟩, id⟩⟩
  | store cpu value =>
    refine ⟨trivial, ?_⟩
    rw [FutexSystem.step, if_neg (by rw [hwaker]; exact fun h => nomatch h.1)]
    exact ⟨⟨hwaker, hmoved, hword⟩, id⟩
  | read cpu fault =>
    refine ⟨trivial, ?_⟩
    rw [FutexSystem.step]
    split
    · split
      all_goals exact ⟨⟨hwaker, hmoved, hword⟩, fun _ => .inr ⟨_, rfl⟩⟩
    · exact ⟨⟨hwaker, hmoved, hword⟩, id⟩
  | checkSignal cpu pending =>
    refine ⟨trivial, ?_⟩
    rw [FutexSystem.step]
    split
    · next hchecked => exact ⟨⟨hwaker, hmoved, hword⟩, fun hearly => by simp [Early, hchecked.1] at hearly⟩
    · exact ⟨⟨hwaker, hmoved, hword⟩, id⟩
  | mark cpu =>
    refine ⟨trivial, ?_⟩
    rw [FutexSystem.step]
    split
    · next hmark => exact ⟨⟨hwaker, hmoved, hword⟩, fun hearly => by simp [Early, hmark.1] at hearly⟩
    · exact ⟨⟨hwaker, hmoved, hword⟩, id⟩
  | sched op =>
    refine ⟨trivial, ?_⟩
    rw [FutexSystem.step]
    split
    all_goals exact ⟨⟨hwaker, hmoved, hword⟩, id⟩

theorem Over.run (h : Over call moved s) (events : List (FutexEvent n)) :
    Along (FutexSystem.step call) (OnTime call) s events ∧ Over call moved (s.run call events) ∧
      (Early s → Early (s.run call events)) := by
  induction events generalizing s with
  | nil => exact ⟨trivial, h, id⟩
  | cons e events ih =>
    obtain ⟨hon, hover, hearly⟩ := h.step e
    obtain ⟨halong, hend, hlate⟩ := ih hover
    exact ⟨⟨hon, halong⟩, hend, hlate ∘ hearly⟩

/-- The wake itself. -/
theorem over_wake {cpu : Fin n} (h : Pending call s) (hcan : CanWake call s cpu max) :
    Over call (decide (Queued call s.sched)) (s.step call (.wake cpu max)) ∧
      (s.step call (.wake cpu max)).waiter = s.waiter := by
  rw [step, if_pos hcan]
  refine ⟨⟨rfl, ?_, h.word hcan.1⟩, rfl⟩
  exact decide_eq_decide.mpr
    ⟨fun hmoved => hmoved.1, fun hq => ⟨hq, ready_wakeFutex cpu hq hcan.2.2⟩⟩

theorem woken_iff_of_pending (h : Pending call s) (events : List (FutexEvent n))
    (hcomplete : (s.run call events).Complete) :
    (s.run call events).Woken ↔ ((s.run call events).waiter = .asleep →
      Along (step call) (OnTime call) s events) := by
  induction events generalizing s with
  | nil => exact absurd hcomplete.1 h.waker
  | cons e events ih =>
    obtain ⟨hon, hpending⟩ | ⟨cpu, max, rfl, hcan⟩ := h.step e
    · rw [Along, and_iff_right hon]
      exact ih hpending hcomplete
    obtain ⟨hover, hwaiter⟩ := over_wake h hcan
    obtain ⟨halong, hend, hearly⟩ := hover.run events
    rw [Along, and_iff_left halong]
    have hmoved := hend.moved
    change (Woken (run call _ events)) ↔
      ((run call _ events).waiter = .asleep → _)
    rw [Woken, hmoved, decide_eq_true_iff]
    obtain hasleep | ⟨r, hr⟩ := hcomplete.2
    · change (run call _ events).waiter = _ at hasleep
      rw [hasleep]
      simp only [reduceCtorEq, exists_false, false_or, true_implies]
      refine ⟨fun hq _ => .inr (.inr hq), fun hon => ?_⟩
      obtain hstart | hreturned | hq := hon hcan
      · have hlate := hearly (.inl (hwaiter.trans hstart))
        simp [Early, hasleep] at hlate
      · have hlate := hearly (.inr (hwaiter ▸ hreturned))
        simp [Early, hasleep] at hlate
      · exact hq
    · change (run call _ events).waiter = _ at hr
      simp [hr]

/-- Whatever the interleaving, the waiter sleeps on past the wake exactly if the wake came
after the check of the value and before the waiter was in the futex queue. -/
theorem woken_iff_onTime (call : FutexCall) (sched : Scheduler n) (word : BitVec 32)
    (events : List (FutexEvent n))
    (hcomplete : (run call { sched, word } events).Complete) :
    (run call { sched, word } events).Woken ↔
      ((run call { sched, word } events).waiter = .asleep →
        Along (step call) (OnTime call) { sched, word } events) := by
  have hstart : Pending call { sched, word } :=
    { waker := fun h => by cases h
      moved := rfl
      word := fun h => by cases h }
  exact woken_iff_of_pending hstart events hcomplete

/-- Thread 1 waits on CPU 0 for the word to change from 0, thread 2 changes it on CPU 1. -/
def exampleCall : FutexCall := { uaddr := 0x1000, expected := 0, waiter := 1, waker := 2 }

def exampleSched : Scheduler 2 where
  cpus
    | 0 =>
      { currentThread := some { id := 1, status := .running }
        idle := some { id := 0 }, idleId := some 0 }
    | 1 => { currentThread := some { id := 2, status := .running } }

/-- The waiter is in the queue when the wake comes. -/
theorem woken_from_queue :
    let events : List (FutexEvent 2) :=
      [.read 0 false, .checkSignal 0 false, .mark 0, .sched (.schedule 0 {}),
        .sched (.routeSwitchingOld 0), .store 1 1, .wake 1 1]
    (run exampleCall { sched := exampleSched, word := 0 } events).Woken :=
  (woken_iff_onTime exampleCall exampleSched 0 _ ⟨by decide +kernel, .inl (by decide +kernel)⟩).mpr
    fun _ => ⟨trivial, trivial, trivial, trivial, trivial, trivial,
      fun _ => .inr (.inr (by decide +kernel)), trivial⟩

/-- The wake comes after the check of the value and finds the queue empty; then the waiter goes
to sleep. -/
theorem wake_lost_before_queue :
    let s := run exampleCall { sched := exampleSched, word := 0 }
      [.read 0 false, .checkSignal 0 false, .store 1 1, .wake 1 1, .mark 0,
        .sched (.schedule 0 {}), .sched (.routeSwitchingOld 0)]
    s.Complete ∧ Queued exampleCall s.sched ∧ ¬ s.Woken := by
  intro s
  have hwaiter : s.waiter = .asleep := by decide +kernel
  have hmoved : s.moved = false := by decide +kernel
  refine ⟨⟨by decide +kernel, .inl hwaiter⟩, by decide +kernel, ?_⟩
  rw [Woken, hwaiter, hmoved]
  simp

end Vahi.Syscalls
