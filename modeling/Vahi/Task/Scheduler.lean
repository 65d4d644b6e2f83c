import Mathlib.Algebra.BigOperators.Fin
import Mathlib.Algebra.Order.BigOperators.Group.Multiset

/-!
# The scheduler

`kernel/src/task/scheduler`. A step is one section that holds the locks it needs; which `try_lock`
succeeds, which thread of least pass a heap yields, pending signals and the clock are inputs. A
thread whose `Box` goes out of scope is kept in `gone`.
-/

namespace Vahi.Task.Sched

inductive ThreadStatus where
  | ready
  | running
  | blocked
  | exited
  deriving DecidableEq

/-- What the scheduler reads of a thread. `process` is the number of its process. -/
structure Thread where
  id : ℕ
  status : ThreadStatus := .ready
  process : Option ℕ := none
  priority : ℕ := 3
  sleepUntil : Option ℕ := none
  futexWakeAddr : Option (BitVec 64) := none
  pipeBlockKey : Option (BitVec 64) := none
  firstSwitchPending : Bool := false
  pass : BitVec 64 := 0
  stride : BitVec 64 := 52428
  /-- 0 is `SCHED_OTHER`, 1 `SCHED_FIFO`, 2 `SCHED_RR`. -/
  policy : ℕ := 0
  rtPriority : ℕ := 0
  rrTimeSlice : ℕ := 0
  schedClass : ℕ := 0
  affinityMask : BitVec 64 := BitVec.allOnes 64
  deriving DecidableEq

def Thread.allows (t : Thread) (cpu : ℕ) : Bool := t.affinityMask.getLsbD cpu

/-- The ready queue of a thread: `min(priority, 7)`. -/
def Thread.level (t : Thread) : Fin 8 := ⟨min t.priority 7, by omega⟩

def isRealtime (schedClass : ℕ) : Bool := schedClass == 1 || schedClass == 2

/-- The candidate's class preempts the current one. -/
def shouldPreempt (current candidate : ℕ) : Bool := isRealtime candidate && !isRealtime current

/-- `PerCpuScheduler`. The heap is listed in the order of its insertions. -/
structure PerCpu where
  strideHeap : List Thread := []
  readyQueues : Fin 8 → List Thread := fun _ => []
  readyQueuesDirty : Bool := false
  currentThread : Option Thread := none
  switchingOld : Option Thread := none
  idle : Option Thread := none
  idleId : Option ℕ := none

namespace PerCpu

def pushReady (c : PerCpu) (t : Thread) : PerCpu :=
  { c with
    readyQueues := Function.update c.readyQueues t.level (c.readyQueues t.level ++ [t])
    readyQueuesDirty := true }

def flushReadyQueues (c : PerCpu) : PerCpu :=
  if c.readyQueuesDirty then
    { c with
      strideHeap := c.strideHeap ++ (List.finRange 8).flatMap c.readyQueues
      readyQueues := fun _ => []
      readyQueuesDirty := false }
  else c

/-- `stride_heap.pop()`: some thread of least pass; `tie` says which if there are several. -/
def popHeap (c : PerCpu) (tie : ℕ) : Option (Thread × PerCpu) :=
  let least := c.strideHeap.filter fun t => c.strideHeap.all fun u => t.pass ≤ u.pass
  least[tie % least.length]?.map fun t => (t, { c with strideHeap := c.strideHeap.erase t })

/-- The real-time threads in the ready queues that may run on a CPU, with their places, from
the highest level down. -/
def rtThreads (c : PerCpu) (cpu : ℕ) : List (Fin 8 × ℕ × Thread) :=
  ((List.finRange 8).reverse.flatMap fun level =>
    (c.readyQueues level).zipIdx.map fun (t, idx) => (level, idx, t)).filter
      fun (_, _, t) => t.policy != 0 && t.allows cpu

/-- The search for the best real-time thread and its removal; `dominates best t` is the test
that replaces the best so far. -/
def takeRt (dominates : Thread → Thread → Bool) (c : PerCpu) (cpu : ℕ) :
    Option (Thread × PerCpu) := do
  let (level, idx, _) ← (c.rtThreads cpu).foldl (fun best cand =>
    match best with
    | none => some cand
    | some b => if dominates b.2.2 cand.2.2 then some cand else best) none
  let t ← (c.readyQueues level)[idx]?
  return (t, { c with
    readyQueues := Function.update c.readyQueues level ((c.readyQueues level).eraseIdx idx) })

/-- In `pick_next` a FIFO thread comes before an RR one, then the higher priority. -/
def pickDominates (best t : Thread) : Bool :=
  if t.policy = 1 ∧ best.policy ≠ 1 then true
  else if t.policy = best.policy then best.rtPriority < t.rtPriority
  else false

/-- Work stealing compares the priorities only. -/
def stealDominates (best t : Thread) : Bool := best.rtPriority < t.rtPriority

end PerCpu

structure Scheduler (n : ℕ) where
  cpus : Fin n → PerCpu
  pendingQueue : List Thread := []
  sleepQueue : List Thread := []
  blockQueue : List Thread := []
  futexQueue : List Thread := []
  /-- Threads whose box was dropped. -/
  gone : List Thread := []

/-- What `pick_next` and its callers cannot know: whether the locks they try are free, and
how the heaps break ties. -/
structure PickEnv (n : ℕ) where
  pendingFree : Bool := true
  cpuFree : Fin n → Bool := fun _ => true
  processFree : Bool := true
  tie : Fin n → ℕ := fun _ => 0

variable {n : ℕ}

namespace Scheduler

variable (s : Scheduler n) (cpu : Fin n)

def setCpu (i : Fin n) (c : PerCpu) : Scheduler n :=
  { s with cpus := Function.update s.cpus i c }

/-- The first three sources of `pick_next`: the pending queue, the real-time threads and the
heap of the CPU itself. -/
def pickLocal (own cpu : Fin n) (env : PickEnv n) : Option Thread × Scheduler n :=
  let s := s.setCpu own (s.cpus own).flushReadyQueues
  match env.pendingFree, s.pendingQueue with
  | true, t :: rest => (some t, { s with pendingQueue := rest })
  | _, _ =>
    match (s.cpus own).takeRt PerCpu.pickDominates cpu with
    | some (t, c) => (some t, s.setCpu own c)
    | none =>
      match (s.cpus own).popHeap (env.tie own) with
      | some (t, c) =>
        -- the thread goes back, at the end, when it may not run here
        if t.allows cpu then (some t, s.setCpu own c)
        else (none, s.setCpu own { c with strideHeap := c.strideHeap ++ [t] })
      | none => (none, s)

structure Stolen (n : ℕ) where
  sched : Scheduler n
  stolen : Option Thread := none
  dropped : Option Thread := none

def stealFrom (own cpu : Fin n) (env : PickEnv n) (i : Fin n) : Stolen n :=
  -- the lock of the scheduler that picks is held already
  if i = cpu ∨ i = own ∨ env.cpuFree i = false then ⟨s, none, none⟩
  else
    let other := (s.cpus i).flushReadyQueues
    match other.takeRt PerCpu.stealDominates cpu with
    | some (t, other) => ⟨s.setCpu i other, some t, none⟩
    | none =>
      match other.popHeap (env.tie i) with
      | some (t, other) =>
        if t.allows cpu then ⟨s.setCpu i other, some t, none⟩
        else ⟨{ s.setCpu i other with gone := s.gone ++ [t] }, none, some t⟩
      | none => ⟨s.setCpu i other, none, none⟩

def steal (own cpu : Fin n) (env : PickEnv n) :
    List (Fin n) → Scheduler n → Option Thread × Scheduler n
  | [], s => (none, s)
  | i :: is, s =>
    let r := s.stealFrom own cpu env i
    match r.stolen with
    | some t => (some t, r.sched)
    | none => steal own cpu env is r.sched

/-- Other processors are only asked if this one has nothing to run. -/
def pickNext (own cpu : Fin n) (env : PickEnv n) : Option Thread × Scheduler n :=
  match s.pickLocal own cpu env with
  | (some t, s) => (some t, s)
  | (none, s) => steal own cpu env (List.finRange n) s

/-- What a thread waits for decides the queue; an exited one leaves the scheduler. -/
def routeOutgoing (t : Thread) : Scheduler n :=
  if t.sleepUntil.isSome then { s with sleepQueue := s.sleepQueue ++ [t] }
  else if t.futexWakeAddr.isSome then { s with futexQueue := s.futexQueue ++ [t] }
  else if t.pipeBlockKey.isSome then { s with blockQueue := s.blockQueue ++ [t] }
  else if t.status ≠ .exited then
    s.setCpu cpu ((s.cpus cpu).pushReady { t with status := .ready })
  else { s with gone := s.gone ++ [t] }

def routeSwitchingOld : Scheduler n :=
  match (s.cpus cpu).switchingOld with
  | some t => (s.setCpu cpu { s.cpus cpu with switchingOld := none }).routeOutgoing cpu t
  | none => s

def wantIdle (c : PerCpu) : Bool :=
  match c.currentThread with
  | none => true
  | some t =>
    match t.status with
    | .exited => true
    | .blocked => t.futexWakeAddr.isSome || t.pipeBlockKey.isSome
    | _ => false

/-- The end of `prepare_switch`: `next` becomes the current thread, unless the current one
outranks it or the current process cannot be set. -/
def install (env : PickEnv n) (next : Thread) : Scheduler n :=
  let c := s.cpus cpu
  let childFirst := next.firstSwitchPending
  let outranked := !childFirst && c.currentThread.any fun cur =>
    cur.status = .running && shouldPreempt next.schedClass cur.schedClass
  if outranked || (next.process.isSome && !env.processFree) then
    s.setCpu cpu (c.pushReady next)
  else
    let next := { next with status := .running, firstSwitchPending := false }
    match c.currentThread with
    | none => s.setCpu cpu { c with currentThread := some next, switchingOld := none }
    | some old =>
      if old.status = .exited then
        s.setCpu cpu { c with currentThread := some next, switchingOld := some old }
      else
        let old := { old with pass := old.pass + old.stride }
        if c.idleId = some old.id then
          s.setCpu cpu { c with currentThread := some next, idle := some old }
        else if childFirst then
          -- a child that runs for the first time does not come back to route its parent
          let s := (s.setCpu cpu { c with currentThread := none }).routeOutgoing cpu old
          s.setCpu cpu { s.cpus cpu with currentThread := some next }
        else s.setCpu cpu { c with currentThread := some next, switchingOld := some old }

/-- The idle thread is taken if there is no other and the running one cannot go on. -/
def prepareSwitch (env : PickEnv n) : Scheduler n :=
  match (s.routeSwitchingOld cpu).pickNext cpu cpu env with
  | (some next, s) => s.install cpu env next
  | (none, s) =>
    match wantIdle (s.cpus cpu), (s.cpus cpu).idle with
    | true, some idle => (s.setCpu cpu { s.cpus cpu with idle := none }).install cpu env idle
    | _, _ => s

/-- `schedule` when there was no switch: a current thread whose sleep is over runs on. -/
def resume (now : ℕ) (signal : Bool) : Scheduler n :=
  match (s.cpus cpu).currentThread with
  | some t =>
    if t.status = .blocked ∧ ((∃ w, t.sleepUntil = some w ∧ w ≤ now) ∨
        (t.sleepUntil.isSome ∧ signal)) then
      s.setCpu cpu
        { s.cpus cpu with currentThread := some { t with status := .running, sleepUntil := none } }
    else s
  | none => s

def updateCurrent (f : Thread → Thread) : Scheduler n :=
  s.setCpu cpu { s.cpus cpu with currentThread := (s.cpus cpu).currentThread.map f }

/-- `drain_wake` over the threads of a queue, with `max` wakeups left: the CPU, what stays in
the queue, and the number woken. -/
def drainWake (matching : Thread → Bool) (clear : Thread → Thread) :
    ℕ → List Thread → PerCpu → PerCpu × List Thread × ℕ
  | _, [], c => (c, [], 0)
  | max, t :: queue, c =>
    if 0 < max ∧ matching t then
      let r := drainWake matching clear (max - 1) queue
        (c.pushReady { clear t with status := .ready })
      (r.1, r.2.1, r.2.2 + 1)
    else
      let r := drainWake matching clear max queue c
      (r.1, t :: r.2.1, r.2.2)

def drainFutex (matching : Thread → Bool) (max : ℕ) : Scheduler n × ℕ :=
  let r := drainWake matching (fun t => { t with futexWakeAddr := none }) max s.futexQueue
    (s.cpus cpu)
  ({ s.setCpu cpu r.1 with futexQueue := r.2.1 }, r.2.2)

def drainBlocked (matching : Thread → Bool) (max : ℕ) : Scheduler n × ℕ :=
  let r := drainWake matching (fun t => { t with pipeBlockKey := none }) max s.blockQueue
    (s.cpus cpu)
  ({ s.setCpu cpu r.1 with blockQueue := r.2.1 }, r.2.2)

def wakeFutex (uaddr : BitVec 64) (max : ℕ) : Scheduler n × ℕ :=
  s.drainFutex cpu (fun t => t.futexWakeAddr = some uaddr) max

def wakePipe (key : BitVec 64) : Scheduler n × ℕ :=
  s.drainBlocked cpu (fun t => t.pipeBlockKey = some key) (2 ^ 32 - 1)

def wakeProcessFutex (pid : ℕ) : Scheduler n × ℕ :=
  s.drainFutex cpu (fun t => t.process = some pid) (2 ^ 32 - 1)

def wakeProcessBlocked (pid : ℕ) : Scheduler n × ℕ :=
  s.drainBlocked cpu (fun t => t.process = some pid) (2 ^ 32 - 1)

/-- What the timer tick reads besides the queues. -/
structure TickEnv where
  now : ℕ
  sleepFree : Bool := true
  pendingFree : Bool := true
  /-- The process of the thread has an unmasked signal pending. -/
  signalled : Thread → Bool := fun _ => false

/-- The running thread uses up one tick of its round-robin slice; `true` when it is over. -/
def chargeSlice (t : Thread) : Thread × Bool :=
  if t.policy = 2 ∧ 0 < t.rrTimeSlice then
    if t.rrTimeSlice - 1 = 0 then ({ t with rrTimeSlice := 4 }, true)
    else ({ t with rrTimeSlice := t.rrTimeSlice - 1 }, false)
  else (t, false)

/-- The sleep is over, or a signal interrupts it. -/
def TickEnv.wakes (env : TickEnv) (t : Thread) : Bool :=
  t.sleepUntil.any (· ≤ env.now) || env.signalled t

/-- `run_tick_inner`; the CPU time of processes is left out. Every due sleeper is woken, which
is `drain_wake` without a limit. -/
def runTickInner (env : TickEnv) : Scheduler n :=
  if env.sleepFree then
    let r := drainWake env.wakes (fun t => { t with sleepUntil := none }) s.sleepQueue.length
      s.sleepQueue (s.cpus cpu)
    { s.setCpu cpu r.1 with sleepQueue := r.2.1 }
  else s

/-- The part of `tick` that holds the scheduler's lock, and whether it asks for a
reschedule. The later parts are the steps `trySchedule` and `loadBalance`. -/
def tick (env : TickEnv) : Scheduler n × Bool :=
  let c := s.cpus cpu
  let charged := c.currentThread.map chargeSlice
  let needResched := charged.any (·.2) || (env.pendingFree && !s.pendingQueue.isEmpty) ||
    !c.strideHeap.isEmpty ||
      (c.readyQueuesDirty && (List.finRange 8).any fun l => !(c.readyQueues l).isEmpty)
  ((s.setCpu cpu { c with currentThread := charged.map (·.1) }).runTickInner cpu env, needResched)

/-- `load_balance` with the queue lengths it has counted. They are read under one lock after
the other, so that they may be out of date here. -/
def loadBalance (env : PickEnv n) (counts : Fin n → ℕ) : Scheduler n :=
  let total := ∑ i, counts i
  let avg := total / n
  if total < 2 ∨ env.cpuFree cpu = false ∨ (s.cpus cpu).strideHeap.length ≤ avg + 2 then s
  else
    match (List.finRange n).find? fun i => i ≠ cpu ∧ counts i < avg ∧ env.cpuFree i with
    | none => s
    | some target =>
      match (s.cpus cpu).popHeap (env.tie cpu) with
      | none => s
      | some (t, c) =>
        if isRealtime t.schedClass || !t.allows target then
          s.setCpu cpu { c with strideHeap := c.strideHeap ++ [t] }
        else
          let s := s.setCpu cpu c
          s.setCpu target { s.cpus target with
            strideHeap := (s.cpus target).strideHeap ++ [t], readyQueuesDirty := true }

/-- `yield_now`, which takes the scheduler `own` (CPU 0) whatever CPU it is called on. -/
def yieldNow (own cpu : Fin n) (env : PickEnv n) : Scheduler n :=
  if (s.cpus own).currentThread.isSome then
    let s := s.updateCurrent own fun t => { t with status := .ready }
    match s.pickNext own cpu env with
    | (some t, s) => s.setCpu own ((s.cpus own).pushReady { t with status := .ready })
    | (none, s) => s
  else s

end Scheduler

/-- The scheduler with `NEXT_ID` of `ThreadId::new` and, for the statements only, the threads
that have exited. -/
structure System (n : ℕ) where
  sched : Scheduler n
  nextId : ℕ
  exited : List ℕ := []

inductive Op (n : ℕ) where
  /-- A new thread, of any priority, class and affinity, with the next number. -/
  | spawn (t : Thread)
  /-- `prepare_switch`, from `schedule`. -/
  | schedule (cpu : Fin n) (env : PickEnv n)
  | trySchedule (cpu : Fin n) (env : PickEnv n)
  /-- After the switch, or by the idle thread. -/
  | routeSwitchingOld (cpu : Fin n)
  | resume (cpu : Fin n) (now : ℕ) (signal : Bool)
  | yieldNow (own cpu : Fin n) (env : PickEnv n)
  | blockOnPipe (cpu : Fin n) (key : BitVec 64)
  | blockOnFutex (cpu : Fin n) (uaddr : BitVec 64)
  | sleepUntil (cpu : Fin n) (target : ℕ)
  | exit (cpu : Fin n)
  | wakeFutex (cpu : Fin n) (uaddr : BitVec 64) (max : ℕ)
  | wakePipe (cpu : Fin n) (key : BitVec 64)
  | wakeProcessFutex (cpu : Fin n) (pid : ℕ)
  | wakeProcessBlocked (cpu : Fin n) (pid : ℕ)
  | tick (cpu : Fin n) (env : Scheduler.TickEnv)
  | loadBalance (cpu : Fin n) (env : PickEnv n) (counts : Fin n → ℕ)

def Scheduler.exec (s : Scheduler n) : Op n → Scheduler n
  | .spawn t => { s with pendingQueue := s.pendingQueue ++ [t] }
  | .schedule cpu env => s.prepareSwitch cpu env
  | .trySchedule cpu env =>
    if (s.cpus cpu).currentThread.isNone then s else s.prepareSwitch cpu env
  | .routeSwitchingOld cpu => s.routeSwitchingOld cpu
  | .resume cpu now signal => s.resume cpu now signal
  | .yieldNow own cpu env => s.yieldNow own cpu env
  | .blockOnPipe cpu key =>
    s.updateCurrent cpu fun t => { t with status := .blocked, pipeBlockKey := some key }
  | .blockOnFutex cpu uaddr =>
    s.updateCurrent cpu fun t => { t with status := .blocked, futexWakeAddr := some uaddr }
  | .sleepUntil cpu target =>
    s.updateCurrent cpu fun t => { t with status := .blocked, sleepUntil := some target }
  | .exit cpu => s.updateCurrent cpu fun t => { t with status := .exited }
  | .wakeFutex cpu uaddr max => (s.wakeFutex cpu uaddr max).1
  | .wakePipe cpu key => (s.wakePipe cpu key).1
  | .wakeProcessFutex cpu pid => (s.wakeProcessFutex cpu pid).1
  | .wakeProcessBlocked cpu pid => (s.wakeProcessBlocked cpu pid).1
  | .tick cpu env => (s.tick cpu env).1
  | .loadBalance cpu env counts => s.loadBalance cpu env counts

def System.step (s : System n) (op : Op n) : System n :=
  match op with
  | .spawn t =>
    { s with
      sched := s.sched.exec (.spawn { t with id := s.nextId, status := .ready })
      nextId := s.nextId + 1 }
  | .exit cpu =>
    { s with
      sched := s.sched.exec (.exit cpu)
      exited := ((s.sched.cpus cpu).currentThread.map (·.id)).toList ++ s.exited }
  | op => { s with sched := s.sched.exec op }

/-! ### Draining a queue -/

section Drain

open List Function

/-- The threads are appended to the ready queues of their priorities. -/
def PerCpu.pushAll (c : PerCpu) (ts : List Thread) : PerCpu :=
  { c with
    readyQueues := fun level => c.readyQueues level ++ ts.filter (·.level = level)
    readyQueuesDirty := c.readyQueuesDirty || !ts.isEmpty }

theorem PerCpu.pushAll_cons (c : PerCpu) (t : Thread) (ts : List Thread) :
    c.pushAll (t :: ts) = (c.pushReady t).pushAll ts := by
  simp only [pushAll, pushReady, isEmpty_cons, Bool.not_false, Bool.or_true, Bool.true_or]
  congr 1
  funext level
  by_cases h : t.level = level
  · subst h
    simp
  · simp [h, update_of_ne (Ne.symm h)]

namespace Scheduler

variable (matching : Thread → Bool) (clear : Thread → Thread) (max : ℕ) (queue : List Thread)

abbrev woken (t : Thread) : Thread := { clear t with status := .ready }

/-- A round of the loop of `drain_wake`, on the CPU, the queue and the number woken. -/
def drainRound : PerCpu × List Thread × ℕ → PerCpu × List Thread × ℕ
  | (c, [], count) => (c, [], count)
  | (c, t :: queue, count) =>
    if count < max ∧ matching t then
      let t := woken clear t
      ({ c with readyQueues := update c.readyQueues t.level (c.readyQueues t.level ++ [t]) },
        queue, count + 1)
    else (c, queue ++ [t], count)

/-- `drain_wake` with the queue rotated in place. -/
def drainWakeRounds (c : PerCpu) : PerCpu × List Thread × ℕ :=
  let r := (drainRound matching clear max)^[queue.length] (c, queue, 0)
  (if 0 < r.2.2 then { r.1 with readyQueuesDirty := true } else r.1, r.2)

theorem drainWake_zero (c : PerCpu) : drainWake matching clear 0 queue c = (c, queue, 0) := by
  induction queue with
  | nil => rfl
  | cons t queue ih => rw [drainWake, if_neg (by omega), ih]

/-- Up to some point of the queue the threads that match are taken. -/
theorem exists_drainWake_eq (c : PerCpu) : ∃ before after, before ++ after = queue ∧
    before.filter matching = (queue.filter matching).take max ∧
    drainWake matching clear max queue c = (c.pushAll ((before.filter matching).map (woken clear)),
      before.filter (!matching ·) ++ after, (before.filter matching).length) := by
  induction queue generalizing max c with
  | nil => exact ⟨[], [], rfl, by simp, by simp [drainWake, PerCpu.pushAll]⟩
  | cons t queue ih =>
    cases ht : matching t with
    | false =>
      obtain ⟨before, after, rfl, htake, heq⟩ := ih max c
      exact ⟨t :: before, after, rfl, by simpa [ht] using htake, by simp [drainWake, ht, heq]⟩
    | true =>
      cases max with
      | zero => exact ⟨[], t :: queue, rfl, by simp, by simp [drainWake_zero, PerCpu.pushAll]⟩
      | succ max =>
        obtain ⟨before, after, rfl, htake, heq⟩ := ih max (c.pushReady (woken clear t))
        refine ⟨t :: before, after, rfl, by simpa [ht] using htake, ?_⟩
        rw [filter_cons_of_pos ht, map_cons, PerCpu.pushAll_cons]
        simp [drainWake, ht, heq]

/-- The rounds over the front of a queue put what stays behind its end. -/
theorem iterate_drainRound (kept : List Thread) {c : PerCpu} (c' : PerCpu) (count : ℕ)
    (hc : { c' with readyQueuesDirty := c.readyQueuesDirty } = c) :
    (drainRound matching clear max)^[queue.length] (c, queue ++ kept, count) =
      let r := drainWake matching clear (max - count) queue c'
      ({ r.1 with readyQueuesDirty := c.readyQueuesDirty }, kept ++ r.2.1, count + r.2.2) := by
  induction queue generalizing kept c c' count with
  | nil => simp [drainWake, hc]
  | cons t queue ih =>
    rw [length_cons, iterate_succ_apply, cons_append, drainRound, drainWake]
    simp only [Nat.sub_pos_iff_lt]
    split
    · rw [ih kept (c'.pushReady (woken clear t)) _ (by rw [← hc]; rfl), Nat.sub_sub]
      simp only [Nat.add_assoc, Nat.add_comm 1]
    · rw [append_assoc, ih _ _ _ hc]
      simp

theorem drainWakeRounds_eq (c : PerCpu) :
    drainWakeRounds matching clear max queue c = drainWake matching clear max queue c := by
  have hrounds := iterate_drainRound matching clear max queue [] (c := c) c 0 rfl
  obtain ⟨before, after, -, -, heq⟩ := exists_drainWake_eq matching clear max queue c
  rw [append_nil, Nat.sub_zero, heq] at hrounds
  rw [drainWakeRounds, hrounds, heq]
  cases before.filter matching with
  | nil => simp [PerCpu.pushAll]
  | cons t moved => simp [PerCpu.pushAll]

/-- The first threads that match, as many as the limit allows, are appended to the ready queues
of their priorities; the queue keeps the others as they were, and all behind some point. -/
theorem drainWakeRounds_moves (c : PerCpu) : ∃ before after, before ++ after = queue ∧
    before.filter matching = (queue.filter matching).take max ∧
    (before.filter matching).length = min max (queue.countP matching) ∧
    drainWakeRounds matching clear max queue c =
      (c.pushAll ((before.filter matching).map (woken clear)),
        before.filter (!matching ·) ++ after, (before.filter matching).length) := by
  obtain ⟨before, after, happend, htake, heq⟩ := exists_drainWake_eq matching clear max queue c
  refine ⟨before, after, happend, htake, ?_, ?_⟩
  · rw [htake, length_take, countP_eq_length_filter]
  · rw [drainWakeRounds_eq, heq]

end Scheduler

end Drain

end Vahi.Task.Sched
