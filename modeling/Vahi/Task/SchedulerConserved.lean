import Mathlib.Algebra.Order.BigOperators.Group.Finset
import Mathlib.Tactic.Abel
import Vahi.Lib.Custody
import Vahi.Lib.Run
import Vahi.Task.Scheduler

/-!
# What the scheduler does with its threads

All threads, at the CPUs, in the queues and dropped, are one multiset. The scheduler hands them on
inside it, may change what a thread waits for and its status, and lets no thread exit.
-/

namespace Vahi.Task.Sched

open Vahi.Lib List Multiset Option

variable {n : ℕ}

def PerCpu.queued (c : PerCpu) : Multiset Thread :=
  ↑c.strideHeap + ∑ l, (↑(c.readyQueues l) : Multiset Thread)

def PerCpu.threads (c : PerCpu) : Multiset Thread :=
  ↑c.currentThread.toList + ↑c.switchingOld.toList + ↑c.idle.toList + c.queued

def Scheduler.threads (s : Scheduler n) : Multiset Thread :=
  ∑ i, (s.cpus i).threads + ↑s.pendingQueue + ↑s.sleepQueue + ↑s.blockQueue + ↑s.futexQueue

/-- With those that were dropped. -/
def Scheduler.all (s : Scheduler n) : Multiset Thread := s.threads + ↑s.gone

/-- What can become of a thread that is moved: it keeps its number, and it does not exit. -/
def Moved (t t' : Thread) : Prop := t'.id = t.id ∧ (t'.status = .exited → t.status = .exited)

instance : Std.Refl Moved := ⟨fun _ => ⟨rfl, id⟩⟩

instance : IsTrans Thread Moved :=
  ⟨fun _ _ _ h h' => ⟨h'.1.trans h.1, fun he => h.2 (h'.2 he)⟩⟩

abbrev Moves := Transfers Moved

namespace PerCpu

variable {c c' : PerCpu} {t : Thread}

def SameSlots (c c' : PerCpu) : Prop :=
  c'.currentThread = c.currentThread ∧ c'.switchingOld = c.switchingOld ∧ c'.idle = c.idle ∧
    c'.idleId = c.idleId

theorem SameSlots.refl (c : PerCpu) : SameSlots c c := ⟨rfl, rfl, rfl, rfl⟩

theorem SameSlots.trans {c'' : PerCpu} (h : SameSlots c c') (h' : SameSlots c' c'') :
    SameSlots c c'' :=
  ⟨h'.1.trans h.1, h'.2.1.trans h.2.1, h'.2.2.1.trans h.2.2.1, h'.2.2.2.trans h.2.2.2⟩

theorem threads_pushReady (c : PerCpu) (t : Thread) :
    (c.pushReady t).threads = c.threads + {t} := by
  obtain ⟨rest, hqueues, hset⟩ := exists_sum_rest (Multiset.ofList (α := Thread)) c.readyQueues t.level
  simp only [threads, queued, pushReady, hqueues, hset, ← coe_add, coe_singleton]
  abel

theorem threads_flushReadyQueues (c : PerCpu) : c.flushReadyQueues.threads = c.threads := by
  rw [flushReadyQueues]
  split
  · have hflat : (↑((List.finRange 8).flatMap c.readyQueues) : Multiset Thread) =
        ∑ l, (↑(c.readyQueues l) : Multiset Thread) := by
      simp [Fin.sum_univ_succ, finRange_succ]
    simp only [threads, queued, ← coe_add, hflat, coe_nil, Finset.sum_const_zero]
    abel
  · rfl

variable {tie : ℕ} {dominates : Thread → Thread → Bool}

theorem popHeap_spec (h : c.popHeap tie = some (t, c')) :
    c.threads = c'.threads + {t} ∧ SameSlots c c' := by
  obtain ⟨u, hu, heq⟩ := map_eq_some_iff.mp h
  cases heq
  refine ⟨?_, rfl, rfl, rfl, rfl⟩
  have hmem : t ∈ c.strideHeap := mem_of_mem_filter (mem_of_getElem? hu)
  have hheap : (↑c.strideHeap : Multiset Thread) = ↑(c.strideHeap.erase t) + {t} := by
    rw [add_comm, singleton_add, cons_coe]
    exact coe_eq_coe.mpr (perm_cons_erase hmem)
  simp only [threads, queued, hheap]
  abel

theorem takeRt_spec {cpu : ℕ} (h : c.takeRt dominates cpu = some (t, c')) :
    c.threads = c'.threads + {t} ∧ SameSlots c c' := by
  obtain ⟨⟨level, idx, _⟩, -, h⟩ := bind_eq_some_iff.mp h
  obtain ⟨u, hu, heq⟩ := bind_eq_some_iff.mp h
  cases heq
  refine ⟨?_, rfl, rfl, rfl, rfl⟩
  obtain ⟨hidx, hget⟩ := List.getElem?_eq_some_iff.mp hu
  have hqueue : (↑(c.readyQueues level) : Multiset Thread) =
      ↑((c.readyQueues level).eraseIdx idx) + {t} := by
    rw [add_comm, singleton_add, cons_coe, ← hget]
    exact coe_eq_coe.mpr (getElem_cons_eraseIdx_perm hidx).symm
  obtain ⟨rest, hqueues, hset⟩ := exists_sum_rest (Multiset.ofList (α := Thread)) c.readyQueues level
  simp only [threads, queued, hqueues, hset, hqueue]
  abel

theorem sameSlots_flushReadyQueues (c : PerCpu) : SameSlots c c.flushReadyQueues := by
  rw [flushReadyQueues]
  split
  · exact ⟨rfl, rfl, rfl, rfl⟩
  · exact SameSlots.refl c

end PerCpu

namespace Scheduler

variable {s : Scheduler n} {i : Fin n} {c : PerCpu}

@[simp]
theorem setCpu_cpus_self (s : Scheduler n) (i : Fin n) (c : PerCpu) : (s.setCpu i c).cpus i = c := by
  simp only [setCpu, Function.update_self]

theorem setCpu_cpus_of_ne (s : Scheduler n) {i j : Fin n} (hj : j ≠ i) (c : PerCpu) :
    (s.setCpu i c).cpus j = s.cpus j := by
  simp only [setCpu, Function.update_of_ne hj]

/-- What the CPU has is part of all; the rest is the same for any content of the CPU. -/
theorem exists_rest (s : Scheduler n) (i : Fin n) :
    ∃ rest, s.all = (s.cpus i).threads + rest ∧
      ∀ c, (s.setCpu i c).all = c.threads + rest := by
  obtain ⟨others, hothers, hset⟩ := exists_sum_rest PerCpu.threads s.cpus i
  refine ⟨others + ↑s.pendingQueue + ↑s.sleepQueue + ↑s.blockQueue + ↑s.futexQueue + ↑s.gone, ?_,
    fun c => ?_⟩
  · rw [all, threads, hothers]
    abel
  · simp only [all, threads, setCpu, hset]
    abel

/-- The same for the slots of the CPU. -/
theorem exists_rest_slots (s : Scheduler n) (cpu : Fin n) :
    ∃ rest, s.all = ↑(s.cpus cpu).currentThread.toList + ↑(s.cpus cpu).switchingOld.toList +
        ↑(s.cpus cpu).idle.toList + rest ∧
      ∀ cur old idle, (s.setCpu cpu { s.cpus cpu with
          currentThread := cur, switchingOld := old, idle := idle }).all =
        ↑cur.toList + ↑old.toList + ↑idle.toList + rest := by
  obtain ⟨rest, hall, hset⟩ := s.exists_rest cpu
  refine ⟨(s.cpus cpu).queued + rest, ?_, fun cur old idle => ?_⟩
  · rw [hall, PerCpu.threads, add_assoc]
  · rw [hset, PerCpu.threads, add_assoc]
    rfl

variable {s' : Scheduler n} {f : Thread → Thread}

def SameSlots (s s' : Scheduler n) : Prop := ∀ i, (s.cpus i).SameSlots (s'.cpus i)

theorem SameSlots.refl (s : Scheduler n) : SameSlots s s := fun i => .refl (s.cpus i)

theorem SameSlots.trans {s s'' : Scheduler n} (h : SameSlots s s') (h' : SameSlots s' s'') :
    SameSlots s s'' :=
  fun i => (h i).trans (h' i)

theorem sameSlots_setCpu (h : (s.cpus i).SameSlots c) : SameSlots s (s.setCpu i c) := by
  intro j
  by_cases hj : j = i
  · subst hj
    rwa [setCpu_cpus_self]
  · rw [setCpu_cpus_of_ne s hj]
    exact .refl _

/-- A pick takes one thread out of the queues, or none, and drops what it drops. -/
def Picks (s : Scheduler n) (r : Option Thread × Scheduler n) : Prop :=
  s.all = r.2.all + ↑r.1.toList ∧ SameSlots s r.2

theorem Picks.trans {r : Option Thread × Scheduler n}
    (h : s.all = s'.all ∧ SameSlots s s') (h' : Picks s' r) : Picks s r :=
  ⟨h.1.trans h'.1, h.2.trans h'.2⟩

/-- Nothing is taken from a CPU. -/
theorem keeps_setCpu (hthreads : (s.cpus i).threads = c.threads) (hslots : (s.cpus i).SameSlots c) :
    s.all = (s.setCpu i c).all ∧ SameSlots s (s.setCpu i c) := by
  obtain ⟨rest, hall, hset⟩ := s.exists_rest i
  exact ⟨by rw [hall, hset, hthreads], sameSlots_setCpu hslots⟩

variable {t : Thread} (own cpu : Fin n)

/-- One thread is taken from a CPU. -/
theorem picks_setCpu (h : (s.cpus i).threads = c.threads + {t} ∧ (s.cpus i).SameSlots c) :
    Picks s (some t, s.setCpu i c) := by
  obtain ⟨rest, hall, hset⟩ := s.exists_rest i
  refine ⟨?_, sameSlots_setCpu h.2⟩
  rw [hall, hset, h.1, add_right_comm]
  rfl

section Picks

variable (s) (env : PickEnv n)

theorem pickLocal_picks : Picks s (s.pickLocal own cpu env) := by
  rw [pickLocal]
  refine Picks.trans (keeps_setCpu (s.cpus own).threads_flushReadyQueues.symm
    (s.cpus own).sameSlots_flushReadyQueues) ?_
  generalize s.setCpu own (s.cpus own).flushReadyQueues = s
  split
  · next t rest _ hqueue =>
    refine ⟨?_, SameSlots.refl s⟩
    simp only [all, threads, hqueue, ← cons_coe, ← singleton_add,
      toList_some]
    abel
  · split
    · next t c hrt => exact picks_setCpu (PerCpu.takeRt_spec hrt)
    · split
      · next t c hpop =>
        obtain ⟨hthreads, hslots⟩ := PerCpu.popHeap_spec hpop
        split
        · exact picks_setCpu ⟨hthreads, hslots⟩
        obtain ⟨hall, hsame⟩ := keeps_setCpu (s := s) (i := own)
          (c := { c with strideHeap := c.strideHeap ++ [t] }) (by
            rw [hthreads]
            simp only [PerCpu.threads, PerCpu.queued, ← coe_add, coe_singleton]
            abel) hslots
        exact ⟨hall.trans (add_zero _).symm, hsame⟩
      · exact ⟨(add_zero _).symm, SameSlots.refl s⟩

/-- A round of work stealing takes a thread, drops one, or does neither. -/
theorem stealFrom_picks (i : Fin n) :
    Picks s ((s.stealFrom own cpu env i).stolen, (s.stealFrom own cpu env i).sched) ∧
      (s.stealFrom own cpu env i).sched.gone =
        s.gone ++ (s.stealFrom own cpu env i).dropped.toList := by
  have hnone : Picks s (none, s) := ⟨(add_zero _).symm, SameSlots.refl s⟩
  rw [stealFrom]
  split
  · exact ⟨hnone, (append_nil _).symm⟩
  have hflush := (s.cpus i).threads_flushReadyQueues
  have hslots := (s.cpus i).sameSlots_flushReadyQueues
  dsimp only
  generalize (s.cpus i).flushReadyQueues = other at hflush hslots ⊢
  split
  · next t c hrt =>
    obtain ⟨hthreads, hsame⟩ := PerCpu.takeRt_spec hrt
    exact ⟨picks_setCpu ⟨hflush.symm.trans hthreads, hslots.trans hsame⟩, (append_nil _).symm⟩
  split
  · next t c hpop =>
    obtain ⟨hthreads, hsame⟩ := PerCpu.popHeap_spec hpop
    have hpicks : Picks s (some t, s.setCpu i c) :=
      picks_setCpu ⟨hflush.symm.trans hthreads, hslots.trans hsame⟩
    split
    · exact ⟨hpicks, (append_nil _).symm⟩
    refine ⟨⟨?_, hpicks.2⟩, rfl⟩
    rw [hpicks.1]
    simp only [all, threads, setCpu, ← coe_add, toList_some,
      toList_none, coe_singleton, coe_nil]
    abel
  · obtain ⟨hall, hsame⟩ := keeps_setCpu (s := s) (i := i) hflush.symm hslots
    exact ⟨⟨hall.trans (add_zero _).symm, hsame⟩, (append_nil _).symm⟩

theorem steal_picks (is : List (Fin n)) (s : Scheduler n) :
    Picks s (steal own cpu env is s) := by
  induction is generalizing s with
  | nil => exact ⟨(add_zero _).symm, SameSlots.refl s⟩
  | cons i is ih =>
    obtain ⟨hround, -⟩ := s.stealFrom_picks own cpu env i
    rw [steal]
    split
    · next t ht => rwa [ht] at hround
    · next hnone =>
      rw [hnone] at hround
      exact Picks.trans ⟨hround.1.trans (add_zero _), hround.2⟩ (ih _)

theorem pickNext_picks : Picks s (s.pickNext own cpu env) := by
  have hlocal := s.pickLocal_picks own cpu env
  rw [pickNext]
  split
  · next t s' heq => rwa [heq] at hlocal
  · next s' heq =>
    rw [heq] at hlocal
    exact Picks.trans ⟨hlocal.1.trans (add_zero _), hlocal.2⟩ (steal_picks own cpu env _ s')

theorem sameSlots_pushReady (c : PerCpu) (t : Thread) : c.SameSlots (c.pushReady t) :=
  ⟨rfl, rfl, rfl, rfl⟩

/-- A thread in hand goes to a ready queue. -/
theorem pushReady_moves {t' : Thread} (h : Moved t t') :
    Moves (s.all + {t}) (s.setCpu cpu ((s.cpus cpu).pushReady t')).all := by
  obtain ⟨rest, hall, hset⟩ := s.exists_rest cpu
  rw [hall, hset, PerCpu.threads_pushReady, add_right_comm _ _ rest]
  exact Transfers.add_singleton h _

theorem routeOutgoing_spec (t : Thread) :
    Moves (s.all + {t}) (s.routeOutgoing cpu t).all ∧ SameSlots s (s.routeOutgoing cpu t) := by
  rw [routeOutgoing]
  split_ifs
  on_goal 4 => exact ⟨pushReady_moves s cpu ⟨rfl, nofun⟩, sameSlots_setCpu (sameSlots_pushReady _ _)⟩
  -- every other branch appends the thread to one of the lists
  all_goals
    refine ⟨Transfers.of_eq ?_, SameSlots.refl s⟩
    simp only [all, threads, ← coe_add, coe_singleton]
    abel

/-- Afterwards no thread is parked at the CPU; the other slots are as they were. -/
theorem routeSwitchingOld_spec : Moves s.all (s.routeSwitchingOld cpu).all ∧
      SameSlots (s.setCpu cpu { s.cpus cpu with switchingOld := none }) (s.routeSwitchingOld cpu) := by
  rw [routeSwitchingOld]
  split
  · next t ht =>
    obtain ⟨hmoves, hslots⟩ :=
      routeOutgoing_spec (s.setCpu cpu { s.cpus cpu with switchingOld := none }) cpu t
    obtain ⟨rest, hall, hset⟩ := s.exists_rest_slots cpu
    refine ⟨?_, hslots⟩
    convert hmoves using 1
    rw [hset, hall, ht]
    simp only [toList_some, toList_none, coe_singleton, coe_nil]
    abel
  · next hnone =>
    refine ⟨Transfers.refl _, fun j => ?_⟩
    by_cases hj : j = cpu
    · subst hj
      rw [setCpu_cpus_self]
      exact ⟨rfl, hnone, rfl, rfl⟩
    · rw [setCpu_cpus_of_ne s hj]
      exact .refl _

end Picks

section Install

variable {cpu : Fin n} {env : PickEnv n} {next : Thread} {old old' next' : Thread}

/-- No thread is parked at the CPU, and the slot of its idle thread is empty while that
thread runs, so that a switch overwrites nothing. -/
structure Vacant (c : PerCpu) : Prop where
  switching : c.switchingOld = none
  idle : ∀ t, c.currentThread = some t → c.idleId = some t.id → c.idle = none

/-- The switch to a child that runs for the first time routes the parent at once. -/
theorem installChild_moves (hcur : (s.cpus cpu).currentThread = some old)
    (hold : Moved old old') (hnext : Moved next next') :
    let s' := (s.setCpu cpu { s.cpus cpu with currentThread := none }).routeOutgoing cpu old'
    Moves (s.all + {next}) (s'.setCpu cpu { s'.cpus cpu with currentThread := some next' }).all := by
  intro s'
  obtain ⟨hroute, hslots⟩ :=
    routeOutgoing_spec (s.setCpu cpu { s.cpus cpu with currentThread := none }) cpu old'
  have hempty : (s'.cpus cpu).currentThread = none := by
    have hslot := (hslots cpu).1
    rwa [setCpu_cpus_self] at hslot
  obtain ⟨rest, hall, hset⟩ := s.exists_rest_slots cpu
  obtain ⟨rest', hall', hset'⟩ := s'.exists_rest_slots cpu
  convert ((Transfers.add_singleton hold _).trans hroute).add (Transfers.singleton hnext) using 1
  · rw [hset, hall, hcur]
    simp only [toList_some, toList_none, coe_singleton, coe_nil]
    abel
  · rw [hset']
    rw [hall', hempty]
    simp only [toList_some, toList_none, coe_singleton, coe_nil]
    abel

theorem exchange_moves (hold : Moved old old') (hnext : Moved next next')
    (m : Multiset Thread) : Moves ({old} + m + {next}) ({next'} + {old'} + m) := by
  convert (Transfers.add_singleton hold m).add (Transfers.singleton hnext) using 1
  · rw [add_comm m]
  · abel

theorem install_moves (h : Vacant (s.cpus cpu)) :
    Moves (s.all + {next}) (s.install cpu env next).all := by
  have hrun : Moved next { next with status := .running, firstSwitchPending := false } :=
    ⟨rfl, nofun⟩
  obtain ⟨rest, hall, hset⟩ := s.exists_rest_slots cpu
  rw [install]
  dsimp only
  split
  · exact pushReady_moves s cpu ⟨rfl, id⟩
  split
  · next hcur =>
    rw [hall, hset, hcur, h.switching]
    convert Transfers.add_singleton hrun (↑(s.cpus cpu).idle.toList + rest) using 1
    · show 0 + 0 + _ + _ + _ = _
      abel
    · show {_} + 0 + _ + _ = _
      abel
  · next old hcur =>
    have hold : Moved old { old with pass := old.pass + old.stride } := ⟨rfl, id⟩
    simp only [hcur, h.switching, toList_some, toList_none, coe_singleton, coe_nil,
      add_zero, add_assoc] at hall
    split
    · -- a thread that has exited is parked as it is
      rw [hall, hset, add_assoc _ _ rest]
      exact exchange_moves ⟨rfl, id⟩ hrun _
    split
    · next hidle =>
      rw [hall, hset, h.switching, h.idle old hcur hidle]
      convert exchange_moves hold hrun rest using 1 <;> simp
    split
    · exact installChild_moves hcur hold hrun
    · rw [hall, hset, add_assoc _ _ rest]
      exact exchange_moves hold hrun _

end Install

def ids (s : Scheduler n) : Multiset ℕ := s.all.map (·.id)

theorem ids_eq_of_moves (h : Moves s.all s'.all) : s'.ids = s.ids :=
  Transfers.map_eq (fun _ _ hmoved => hmoved.1) h

/-- The slot for the idle thread holds no other. -/
def IdleOk (s : Scheduler n) : Prop :=
  ∀ i t, (s.cpus i).idle = some t → (s.cpus i).idleId = some t.id

section

variable (h : IdleOk s)

include h

theorem IdleOk.of_sameSlots (hsame : SameSlots s s') :
    IdleOk s' := by
  intro i t ht
  rw [(hsame i).2.2.1] at ht
  rw [(hsame i).2.2.2]
  exact h i t ht

theorem IdleOk.setCpu (hc : ∀ t, c.idle = some t → c.idleId = some t.id) :
    IdleOk (s.setCpu i c) := by
  intro j t ht
  by_cases hj : j = i
  · subst hj
    rw [setCpu_cpus_self] at ht ⊢
    exact hc t ht
  · rw [setCpu_cpus_of_ne s hj] at ht ⊢
    exact h j t ht

theorem IdleOk.setCurrent (cpu : Fin n) (cur : Option Thread) :
    IdleOk (s.setCpu cpu { s.cpus cpu with currentThread := cur }) :=
  IdleOk.setCpu h (h cpu)

theorem IdleOk.routeSwitchingOld (cpu : Fin n) : IdleOk (s.routeSwitchingOld cpu) := by
  have hset : IdleOk (s.setCpu cpu { s.cpus cpu with switchingOld := none }) :=
    IdleOk.setCpu h (h cpu)
  exact hset.of_sameSlots (s.routeSwitchingOld_spec cpu).2

theorem IdleOk.install (cpu : Fin n) (env : PickEnv n) (next : Thread) :
    IdleOk (s.install cpu env next) := by
  rw [Scheduler.install]
  dsimp only
  split
  · exact h.of_sameSlots (sameSlots_setCpu (sameSlots_pushReady _ _))
  split
  · exact h.setCpu (h cpu)
  split
  · exact h.setCpu (h cpu)
  split
  · next old _ _ hidle =>
    refine h.setCpu fun t ht => ?_
    cases ht
    exact hidle
  split
  · have hroute : ∀ t, IdleOk
        ((s.setCpu cpu { s.cpus cpu with currentThread := none }).routeOutgoing cpu t) :=
      fun t => (h.setCurrent cpu none).of_sameSlots (routeOutgoing_spec _ cpu t).2
    exact (hroute _).setCurrent cpu _
  · exact h.setCpu (h cpu)

end

/-- A thread in two slots of a CPU is there twice. -/
theorem idle_eq_none_of_current (hidle : IdleOk s) (honce : ∀ x, s.ids.count x ≤ 1)
    (hcur : (s.cpus i).currentThread = some t) (hid : (s.cpus i).idleId = some t.id) :
    (s.cpus i).idle = none := by
  cases hslot : (s.cpus i).idle with
  | none => rfl
  | some u =>
    exfalso
    have hu : u.id = t.id := some.inj ((hidle i u hslot).symm.trans hid)
    obtain ⟨rest, hall, -⟩ := s.exists_rest_slots i
    have hcount := honce t.id
    rw [ids, hall, hcur, hslot] at hcount
    simp only [toList_some, coe_singleton, map_add, Multiset.map_singleton, count_add, hu,
      Multiset.count_singleton_self] at hcount
    omega

theorem prepareSwitch_spec (env : PickEnv n) (hidle : IdleOk s) (honce : ∀ x, s.ids.count x ≤ 1) :
    Moves s.all (s.prepareSwitch cpu env).all ∧ IdleOk (s.prepareSwitch cpu env) := by
  obtain ⟨hroute, hslots⟩ := s.routeSwitchingOld_spec cpu
  have hidle₁ : IdleOk (s.routeSwitchingOld cpu) := hidle.routeSwitchingOld cpu
  have hparked : ((s.routeSwitchingOld cpu).cpus cpu).switchingOld = none := by
    rw [(hslots cpu).2.1, setCpu_cpus_self]
  have honce₁ : ∀ x, (s.routeSwitchingOld cpu).ids.count x ≤ 1 := by
    rwa [ids_eq_of_moves hroute]
  rw [prepareSwitch]
  obtain ⟨hpick, hsame⟩ := (s.routeSwitchingOld cpu).pickNext_picks cpu cpu env
  generalize (s.routeSwitchingOld cpu).pickNext cpu cpu env = r at hpick hsame ⊢
  obtain ⟨picked, s'⟩ := r
  have hidle₂ : IdleOk s' := hidle₁.of_sameSlots hsame
  have hparked₂ : (s'.cpus cpu).switchingOld = none := (hsame cpu).2.1.trans hparked
  have honce₂ : ∀ x, s'.ids.count x ≤ 1 := by
    intro x
    have hle : s'.ids ≤ (s.routeSwitchingOld cpu).ids := by
      rw [ids, ids, hpick]
      exact map_le_map (le_add_right _ _)
    exact (count_le_of_le x hle).trans (honce₁ x)
  rw [hpick] at hroute
  cases picked with
  | some next =>
    refine ⟨Transfers.trans hroute (install_moves ⟨hparked₂, fun t hcur hid => ?_⟩),
      hidle₂.install cpu env next⟩
    exact idle_eq_none_of_current hidle₂ honce₂ hcur hid
  | none =>
    have hroute' : Moves s.all s'.all := by
      rwa [show (↑(none : Option Thread).toList : Multiset Thread) = 0 from rfl, add_zero] at hroute
    dsimp only
    split
    · next idle _ hslot =>
      have htake : s'.all = (s'.setCpu cpu { s'.cpus cpu with idle := none }).all + {idle} := by
        obtain ⟨rest, hall, hset⟩ := s'.exists_rest_slots cpu
        rw [hall, hset, hslot, add_right_comm _ _ rest, toList_none, coe_nil, add_zero]
        rfl
      rw [htake] at hroute'
      refine ⟨Transfers.trans hroute' (install_moves ⟨?_, fun t _ _ => ?_⟩),
        (hidle₂.setCpu fun _ h => by cases h).install cpu env idle⟩
      · rw [setCpu_cpus_self]
        exact hparked₂
      · rw [setCpu_cpus_self]
    · exact ⟨hroute', hidle₂⟩

theorem drainWake_spec (matching : Thread → Bool) {clear : Thread → Thread}
    (hclear : ∀ t, (clear t).id = t.id) (max : ℕ) (queue : List Thread) (c : PerCpu) :
    Moves (c.threads + ↑queue) ((drainWake matching clear max queue c).1.threads +
        ↑(drainWake matching clear max queue c).2.1) ∧
      c.SameSlots (drainWake matching clear max queue c).1 := by
  induction queue generalizing max c with
  | nil => exact ⟨Transfers.refl _, .refl c⟩
  | cons t queue ih =>
    rw [drainWake, ← cons_coe, ← singleton_add, ← add_assoc]
    split
    · obtain ⟨hmoves, hslots⟩ := ih (max - 1) (c.pushReady { clear t with status := .ready })
      refine ⟨Transfers.trans ?_ hmoves, (sameSlots_pushReady c _).trans hslots⟩
      rw [PerCpu.threads_pushReady]
      exact (Transfers.add_singleton ⟨hclear t, (by cases ·)⟩ _).add (Transfers.refl _)
    · obtain ⟨hmoves, hslots⟩ := ih max c
      refine ⟨?_, hslots⟩
      rw [← cons_coe, ← singleton_add, add_right_comm, add_comm {t} (Multiset.ofList _),
        ← add_assoc]
      exact hmoves.add (Transfers.refl {t})

/-- A drain of one of the queues at a CPU. `s₀` is the state without the queue. -/
theorem moves_of_drain (s₀ : Scheduler n) {cpu : Fin n} {queue queue' : List Thread}
    (h : Moves ((s₀.cpus cpu).threads + ↑queue) (c.threads + ↑queue'))
    (hs : s.all = s₀.all + ↑queue) (hs' : s'.all = (s₀.setCpu cpu c).all + ↑queue') :
    Moves s.all s'.all := by
  obtain ⟨rest, hall, hset⟩ := s₀.exists_rest cpu
  rw [hs, hs', hall, hset, add_right_comm, add_right_comm c.threads]
  exact h.add (Transfers.refl rest)

section Drains

variable (s)

theorem drainFutex_spec (matching : Thread → Bool) (max : ℕ) :
    Moves s.all (s.drainFutex cpu matching max).1.all ∧
      SameSlots s (s.drainFutex cpu matching max).1 := by
  obtain ⟨hmoves, hslots⟩ := drainWake_spec matching
    (fun t => (rfl : ({ t with futexWakeAddr := none } : Thread).id = t.id)) max s.futexQueue
    (s.cpus cpu)
  refine ⟨moves_of_drain { s with futexQueue := [] } hmoves ?_ ?_, sameSlots_setCpu hslots⟩
  · simp only [all, threads, coe_nil]
    abel
  · simp only [all, threads, drainFutex, setCpu, coe_nil]
    abel

theorem drainBlocked_spec (matching : Thread → Bool) (max : ℕ) :
    Moves s.all (s.drainBlocked cpu matching max).1.all ∧
      SameSlots s (s.drainBlocked cpu matching max).1 := by
  obtain ⟨hmoves, hslots⟩ := drainWake_spec matching
    (fun t => (rfl : ({ t with pipeBlockKey := none } : Thread).id = t.id)) max s.blockQueue
    (s.cpus cpu)
  refine ⟨moves_of_drain { s with blockQueue := [] } hmoves ?_ ?_, sameSlots_setCpu hslots⟩
  · simp only [all, threads, coe_nil]
    abel
  · simp only [all, threads, drainBlocked, setCpu, coe_nil]
    abel

theorem runTickInner_spec (env : TickEnv) :
    Moves s.all (s.runTickInner cpu env).all ∧ SameSlots s (s.runTickInner cpu env) := by
  rw [runTickInner]
  split
  · obtain ⟨hmoves, hslots⟩ := drainWake_spec env.wakes
      (fun t => (rfl : ({ t with sleepUntil := none } : Thread).id = t.id)) s.sleepQueue.length
      s.sleepQueue (s.cpus cpu)
    refine ⟨moves_of_drain { s with sleepQueue := [] } hmoves ?_ ?_, sameSlots_setCpu hslots⟩
    · simp only [all, threads, coe_nil]
      abel
    · simp only [all, threads, setCpu, coe_nil]
      abel
  · exact ⟨Transfers.refl _, SameSlots.refl s⟩

theorem setCurrent_moves {cur : Option Thread}
    (h : Moves ↑(s.cpus cpu).currentThread.toList ↑cur.toList) :
    Moves s.all (s.setCpu cpu { s.cpus cpu with currentThread := cur }).all := by
  obtain ⟨rest, hall, hset⟩ := s.exists_rest_slots cpu
  rw [hall, hset]
  exact ((h.add (Transfers.refl _)).add (Transfers.refl _)).add (Transfers.refl rest)

theorem map_moves (hf : ∀ t, Moved t (f t)) (cur : Option Thread) :
    Moves ↑cur.toList ↑(cur.map f).toList := by
  cases cur with
  | none => exact Transfers.refl _
  | some t => exact Transfers.singleton (hf t)

theorem updateCurrent_moves (hf : ∀ t, Moved t (f t)) : Moves s.all (s.updateCurrent cpu f).all :=
  s.setCurrent_moves cpu (map_moves hf _)

end Drains

theorem chargeSlice_moved (t : Thread) : Moved t (chargeSlice t).1 := by
  rw [chargeSlice]
  split
  · split
    all_goals exact ⟨rfl, id⟩
  · exact ⟨rfl, id⟩

theorem tick_spec (env : TickEnv) (h : IdleOk s) :
    Moves s.all (s.tick cpu env).1.all ∧ IdleOk (s.tick cpu env).1 := by
  have hcharged : Moves ↑(s.cpus cpu).currentThread.toList
      ↑(((s.cpus cpu).currentThread.map chargeSlice).map (·.1)).toList := by
    rw [Option.map_map]
    exact map_moves chargeSlice_moved _
  have hcharge := s.setCurrent_moves cpu hcharged
  obtain ⟨hmoves, hslots⟩ := runTickInner_spec
    (s.setCpu cpu { s.cpus cpu with
      currentThread := ((s.cpus cpu).currentThread.map chargeSlice).map (·.1) }) cpu env
  exact ⟨Transfers.trans hcharge hmoves, (h.setCurrent cpu _).of_sameSlots hslots⟩

theorem resume_spec (now : ℕ) (signal : Bool) (h : IdleOk s) :
    Moves s.all (s.resume cpu now signal).all ∧ IdleOk (s.resume cpu now signal) := by
  rw [resume]
  split
  · next t hcur =>
    split
    · refine ⟨s.setCurrent_moves cpu ?_, h.setCurrent cpu _⟩
      rw [hcur]
      exact Transfers.singleton ⟨rfl, nofun⟩
    · exact ⟨Transfers.refl _, h⟩
  · exact ⟨Transfers.refl _, h⟩

theorem yieldNow_spec (env : PickEnv n) (h : IdleOk s) :
    Moves s.all (s.yieldNow own cpu env).all ∧ IdleOk (s.yieldNow own cpu env) := by
  rw [yieldNow]
  split
  · have hready := s.updateCurrent_moves own (f := fun t => { t with status := .ready })
      fun t => ⟨rfl, nofun⟩
    have hidle : IdleOk (s.updateCurrent own fun t => { t with status := .ready }) :=
      h.setCurrent own _
    dsimp only
    generalize s.updateCurrent own (fun t => { t with status := .ready }) = s₁ at hready hidle ⊢
    obtain ⟨hpick, hsame⟩ := s₁.pickNext_picks own cpu env
    generalize s₁.pickNext own cpu env = r at hpick hsame ⊢
    obtain ⟨picked, s'⟩ := r
    rw [hpick] at hready
    cases picked with
    | some t =>
      exact ⟨Transfers.trans hready (pushReady_moves s' own ⟨rfl, nofun⟩),
        (hidle.of_sameSlots hsame).of_sameSlots (sameSlots_setCpu (sameSlots_pushReady _ _))⟩
    | none => exact ⟨by rwa [toList_none, coe_nil, add_zero] at hready,
        hidle.of_sameSlots hsame⟩
  · exact ⟨Transfers.refl _, h⟩

theorem loadBalance_spec (s : Scheduler n) (cpu : Fin n) (env : PickEnv n) (counts : Fin n → ℕ) :
    s.all = (s.loadBalance cpu env counts).all ∧ SameSlots s (s.loadBalance cpu env counts) := by
  have hsame : s.all = s.all ∧ SameSlots s s := ⟨rfl, SameSlots.refl s⟩
  -- the heap of a CPU with one more thread
  have hpush : ∀ (c : PerCpu) (t : Thread) (dirty : Bool),
      ({ c with strideHeap := c.strideHeap ++ [t], readyQueuesDirty := dirty } : PerCpu).threads =
        c.threads + {t} := by
    intro c t dirty
    simp only [PerCpu.threads, PerCpu.queued, ← coe_add, coe_singleton]
    abel
  rw [loadBalance]
  split
  · exact hsame
  split
  · exact hsame
  next target htarget =>
  split
  · exact hsame
  next t c hpop =>
  obtain ⟨hthreads, hslots⟩ := PerCpu.popHeap_spec hpop
  split
  · exact keeps_setCpu (hthreads.trans (hpush c t _).symm) hslots
  obtain ⟨hall, hslots₁⟩ := picks_setCpu (s := s) ⟨hthreads, hslots⟩
  obtain ⟨rest, hrest, hset⟩ := (s.setCpu cpu c).exists_rest target
  refine ⟨?_, hslots₁.trans (sameSlots_setCpu ⟨rfl, rfl, rfl, rfl⟩)⟩
  rw [hall, hset, hpush, hrest, add_right_comm]
  rfl

/-- Every section but the start and the exit of a thread moves the threads around. -/
theorem exec_spec (op : Op n) (hspawn : ∀ t, op ≠ .spawn t) (hexit : ∀ cpu, op ≠ .exit cpu)
    (hidle : IdleOk s) (honce : ∀ x, s.ids.count x ≤ 1) :
    Moves s.all (s.exec op).all ∧ IdleOk (s.exec op) := by
  cases op with
  | spawn t => exact absurd rfl (hspawn t)
  | exit cpu => exact absurd rfl (hexit cpu)
  | schedule cpu env => exact prepareSwitch_spec cpu env hidle honce
  | trySchedule cpu env =>
    rw [exec]
    split
    · exact ⟨Transfers.refl _, hidle⟩
    · exact prepareSwitch_spec cpu env hidle honce
  | routeSwitchingOld cpu =>
    exact ⟨(s.routeSwitchingOld_spec cpu).1, hidle.routeSwitchingOld cpu⟩
  | resume cpu now signal => exact resume_spec cpu now signal hidle
  | yieldNow own cpu env => exact yieldNow_spec own cpu env hidle
  | blockOnPipe cpu _
  | blockOnFutex cpu _
  | sleepUntil cpu _ =>
    exact ⟨s.updateCurrent_moves cpu fun t => ⟨rfl, nofun⟩, hidle.setCurrent cpu _⟩
  | wakeFutex cpu uaddr max =>
    exact (s.drainFutex_spec cpu _ max).imp_right hidle.of_sameSlots
  | wakeProcessFutex cpu pid =>
    exact (s.drainFutex_spec cpu _ _).imp_right hidle.of_sameSlots
  | wakePipe cpu _
  | wakeProcessBlocked cpu _ =>
    exact (s.drainBlocked_spec cpu _ _).imp_right hidle.of_sameSlots
  | tick cpu env => exact tick_spec cpu env hidle
  | loadBalance cpu env counts =>
    obtain ⟨hall, hslots⟩ := s.loadBalance_spec cpu env counts
    exact ⟨Transfers.of_eq hall, hidle.of_sameSlots hslots⟩

end Scheduler

end Vahi.Task.Sched
