import Vahi.Task.SchedulerConserved

/-!
# Threads along runs of the scheduler

A thread that has not exited is to be in exactly one place. Work stealing drops a thread whose
affinity mask excludes the CPU that steals; no other section loses or duplicates one.
-/

namespace Vahi.Task.Sched

open Vahi.Lib Multiset

variable {n : ℕ}

namespace PerCpu

variable (c : PerCpu) {cpu tie : ℕ}

/-- The threads that a pick finds in the heap: with those of ready queues that have changed. -/
def heap : List Thread :=
  if c.readyQueuesDirty then c.strideHeap ++ (List.finRange 8).flatMap c.readyQueues
  else c.strideHeap

/-- The top of the heap: a thread of least pass. -/
def top (tie : ℕ) : Option Thread :=
  let least := c.heap.filter fun t => c.heap.all fun u => t.pass ≤ u.pass
  least[tie % least.length]?

/-- A real-time thread that may run on `cpu` stands in a ready queue that has not changed. -/
def HasRt (cpu : ℕ) : Prop :=
  c.readyQueuesDirty = false ∧ ∃ level, ∃ t ∈ c.readyQueues level, t.policy ≠ 0 ∧ t.allows cpu

/-- A pick for `cpu` takes a thread here. -/
def Offers (cpu tie : ℕ) : Prop := c.HasRt cpu ∨ ∃ t ∈ c.top tie, t.allows cpu

/-- The queues with the thread the CPU has switched away from, if that one is ready to run on. -/
def routed : PerCpu :=
  match c.switchingOld with
  | some t =>
    if t.sleepUntil.isSome ∨ t.futexWakeAddr.isSome ∨ t.pipeBlockKey.isSome ∨
        t.status = .exited then c
    else c.pushReady { t with status := .ready }
  | none => c

/-- A search that replaces the best so far only by another candidate ends with a candidate. -/
theorem foldl_best {α : Type} {f : Option α → α → Option α}
    (hf : ∀ best a, f best a = some a ∨ best.isSome ∧ f best a = best) (as : List α)
    (best : Option α) :
    (as.foldl f best = none → best = none ∧ as = []) ∧
      ∀ b ∈ as.foldl f best, b ∈ best ∨ b ∈ as := by
  induction as generalizing best with
  | nil => exact ⟨fun h => ⟨h, rfl⟩, fun b hb => .inl hb⟩
  | cons a as ih =>
    obtain ⟨hnone, hmem⟩ := ih (f best a)
    obtain hfa | ⟨hsome, hfa⟩ := hf best a
    · rw [hfa] at hnone hmem
      refine ⟨fun h => absurd (hnone (hfa ▸ h)).1 nofun, fun b hb => .inr ?_⟩
      obtain hb | hb := hmem b (hfa ▸ hb)
      · cases hb
        exact List.mem_cons_self
      · exact List.mem_cons_of_mem a hb
    · rw [hfa] at hnone hmem
      refine ⟨fun h => ?_, fun b hb => (hmem b (hfa ▸ hb)).imp_right (List.mem_cons_of_mem a)⟩
      rw [(hnone (hfa ▸ h)).1] at hsome
      cases hsome

theorem rtThreads_eq_nil_iff : c.rtThreads cpu = [] ↔
    ∀ level, ∀ t ∈ c.readyQueues level, ¬ (t.policy ≠ 0 ∧ t.allows cpu) := by
  simp only [rtThreads, List.filter_eq_nil_iff, List.mem_flatMap, List.mem_reverse,
    List.mem_finRange, true_and, List.mem_map, forall_exists_index, and_imp]
  constructor
  · intro h level t ht hrt
    obtain ⟨idx, hidx⟩ := List.mem_iff_getElem?.mp ht
    refine h (level, idx, t) level (t, idx) (List.mem_zipIdx_iff_getElem?.mpr hidx) rfl ?_
    simpa using hrt
  · rintro h _ level ⟨t, idx⟩ hmem rfl hrt
    refine h level t (List.mem_iff_getElem?.mpr ⟨idx, List.mem_zipIdx_iff_getElem?.mp hmem⟩) ?_
    simpa using hrt

theorem getElem?_of_mem_rtThreads {level : Fin 8} {idx : ℕ} {t : Thread}
    (h : (level, idx, t) ∈ c.rtThreads cpu) : (c.readyQueues level)[idx]? = some t := by
  simp only [rtThreads, List.mem_filter, List.mem_flatMap, List.mem_map] at h
  obtain ⟨⟨level', -, ⟨t', idx'⟩, hmem, heq⟩, -⟩ := h
  cases heq
  exact List.mem_zipIdx_iff_getElem?.mp hmem

theorem takeRt_eq_none_iff (dominates : Thread → Thread → Bool) :
    c.takeRt dominates cpu = none ↔
      ∀ level, ∀ t ∈ c.readyQueues level, ¬ (t.policy ≠ 0 ∧ t.allows cpu) := by
  rw [← rtThreads_eq_nil_iff]
  constructor
  · intro h
    rw [takeRt] at h
    generalize hf : (fun (best : Option (Fin 8 × ℕ × Thread)) cand => _) = f at h
    obtain ⟨hnone, hmem⟩ := foldl_best (f := f) (fun best a => by
      subst hf
      cases best with
      | none => exact .inl rfl
      | some b =>
        dsimp only
        split
        · exact .inl rfl
        · exact .inr ⟨rfl, rfl⟩) (c.rtThreads cpu) none
    cases hbest : (c.rtThreads cpu).foldl f none with
    | none => exact (hnone hbest).2
    | some cand =>
      obtain ⟨level, idx, t⟩ := cand
      have hget := c.getElem?_of_mem_rtThreads ((hmem _ hbest).resolve_left nofun)
      simp [hbest, hget] at h
  · intro h
    rw [takeRt, h]
    rfl

theorem takeRt_flush_eq_none_iff (cpu : ℕ) (dominates : Thread → Thread → Bool) :
    c.flushReadyQueues.takeRt dominates cpu = none ↔ ¬ c.HasRt cpu := by
  rw [takeRt_eq_none_iff, flushReadyQueues, HasRt]
  cases c.readyQueuesDirty <;> simp

theorem popHeap_flush (tie : ℕ) : (c.flushReadyQueues.popHeap tie).map Prod.fst = c.top tie := by
  rw [flushReadyQueues, popHeap, top, heap]
  cases c.readyQueuesDirty <;> simp [Option.map_map, Function.comp_def]

end PerCpu

namespace Scheduler

def GoneExited (exited : List ℕ) (s : Scheduler n) : Prop := ∀ t ∈ s.gone, t.id ∈ exited

/-- Work stealing looks at another CPU if its lock is free. -/
def Asks (own cpu : Fin n) (env : PickEnv n) (i : Fin n) : Prop :=
  i ≠ cpu ∧ i ≠ own ∧ env.cpuFree i = true

/-- As long as work stealing finds nothing, the top of each heap that it looks at may run on
`cpu`, or has exited. -/
def StealKeeps (exited : List ℕ) (cpus : Fin n → PerCpu) (own cpu : Fin n) (env : PickEnv n)
    (is : List (Fin n)) : Prop :=
  ∀ i ∈ is, Asks own cpu env i →
    (∀ j ∈ is, j < i → Asks own cpu env j → ¬ (cpus j).Offers cpu (env.tie j)) →
    ¬ (cpus i).HasRt cpu → ∀ t ∈ (cpus i).top (env.tie i), t.allows cpu ∨ t.id ∈ exited

/-- The same for a pick on a CPU with the queues `c`: it steals only if it finds nothing in the
pending queue and there. -/
def PickKeeps (exited : List ℕ) (s : Scheduler n) (c : PerCpu) (own cpu : Fin n)
    (env : PickEnv n) : Prop :=
  (env.pendingFree → s.pendingQueue = []) → ¬ c.Offers cpu (env.tie own) →
    StealKeeps exited s.cpus own cpu env (List.finRange n)

variable {s : Scheduler n} {exited : List ℕ}

theorem pickLocal_gone (s : Scheduler n) (own cpu : Fin n) (env : PickEnv n) :
    (s.pickLocal own cpu env).2.gone = s.gone := by
  rw [pickLocal]
  repeat' split
  all_goals rfl

variable {cpu : Fin n} {t : Thread} (own : Fin n)

/-- What one round of work stealing drops and whether it takes a thread. -/
theorem stealFrom_spec (s : Scheduler n) (cpu : Fin n) (env : PickEnv n) (i : Fin n) :
    (∀ t, (s.stealFrom own cpu env i).dropped = some t ↔ Asks own cpu env i ∧
      ¬ (s.cpus i).HasRt cpu ∧ t ∈ (s.cpus i).top (env.tie i) ∧ ¬ t.allows cpu) ∧
    ((s.stealFrom own cpu env i).stolen = none ↔
      (Asks own cpu env i → ¬ (s.cpus i).Offers cpu (env.tie i))) ∧
    ∀ j ≠ i, (s.stealFrom own cpu env i).sched.cpus j = s.cpus j := by
  have hasks : Asks own cpu env i ↔ ¬ (i = cpu ∨ i = own ∨ env.cpuFree i = false) := by
    simp [Asks]
  have hrt := (s.cpus i).takeRt_flush_eq_none_iff cpu PerCpu.stealDominates
  have htop := (s.cpus i).popHeap_flush (env.tie i)
  have hset (c : PerCpu) : ∀ j ≠ i, (s.setCpu i c).cpus j = s.cpus j :=
    fun j hj => Function.update_of_ne hj _ _
  rw [stealFrom, hasks, PerCpu.Offers, ← htop]
  split
  · next hskip => simp [hskip]
  next hask =>
  dsimp only
  generalize (s.cpus i).flushReadyQueues = other at hrt ⊢
  cases htake : other.takeRt PerCpu.stealDominates cpu with
  | some r =>
    have hhas : (s.cpus i).HasRt cpu := by
      by_contra hno
      rw [hrt.mpr hno] at htake
      cases htake
    exact ⟨by simp [hhas], by simp [hask, hhas], hset _⟩
  | none =>
    have hno := hrt.mp htake
    cases hpop : other.popHeap (env.tie i) with
    | none => exact ⟨by simp, by simp [hno], hset _⟩
    | some r =>
      obtain ⟨t, c⟩ := r
      dsimp only
      split
      · next hallows => exact ⟨by simp; grind, by simp [hask, hallows], hset _⟩
      · next hallows => exact ⟨by simp; grind, by simp [hno]; grind, hset _⟩

theorem stealKeeps_cons {cpus : Fin n → PerCpu} {env : PickEnv n} {i : Fin n} {is : List (Fin n)}
    (hfirst : ∀ k ∈ is, i < k) :
    StealKeeps exited cpus own cpu env (i :: is) ↔
      (Asks own cpu env i → ¬ (cpus i).HasRt cpu →
        ∀ t ∈ (cpus i).top (env.tie i), t.allows cpu ∨ t.id ∈ exited) ∧
      ((Asks own cpu env i → ¬ (cpus i).Offers cpu (env.tie i)) →
        StealKeeps exited cpus own cpu env is) := by
  constructor
  · intro h
    refine ⟨fun hasks => h i List.mem_cons_self hasks fun j hj hlt => ?_,
      fun hno k hk hasks hbefore =>
        h k (List.mem_cons_of_mem i hk) hasks (List.forall_mem_cons.mpr ⟨fun _ => hno, hbefore⟩)⟩
    obtain rfl | hj := List.mem_cons.mp hj
    · exact absurd hlt (lt_irrefl j)
    · exact absurd hlt (hfirst j hj).asymm
  · rintro ⟨hhead, htail⟩ k hk hasks hbefore
    obtain rfl | hk := List.mem_cons.mp hk
    · exact hhead hasks
    · exact htail (hbefore i List.mem_cons_self (hfirst k hk)) k hk hasks
        fun j hj => hbefore j (List.mem_cons_of_mem i hj)

/-- Work stealing does not look at the CPU it is for. -/
theorem StealKeeps.congr {cpus cpus' : Fin n → PerCpu} {env : PickEnv n} {is : List (Fin n)}
    (hsame : ∀ i ≠ own, cpus i = cpus' i) (h : StealKeeps exited cpus own cpu env is) :
    StealKeeps exited cpus' own cpu env is := by
  intro i hi hasks hbefore
  rw [← hsame i hasks.2.1]
  refine h i hi hasks fun j hj hlt hasks' => ?_
  rw [hsame j hasks'.2.1]
  exact hbefore j hj hlt hasks'

theorem pickKeeps_congr {s s' : Scheduler n} {c c' : PerCpu} {env : PickEnv n}
    (hpending : s'.pendingQueue = s.pendingQueue) (hqueues : c'.Offers = c.Offers)
    (hother : ∀ i ≠ own, s'.cpus i = s.cpus i) :
    PickKeeps exited s' c' own cpu env ↔ PickKeeps exited s c own cpu env := by
  rw [PickKeeps, PickKeeps, hpending, hqueues]
  exact imp_congr_right fun _ => imp_congr_right fun _ =>
    ⟨.congr own hother, .congr own fun i hi => (hother i hi).symm⟩

theorem goneExited_steal_iff {cpus : Fin n → PerCpu} (cpu : Fin n) (env : PickEnv n)
    (is : List (Fin n)) (hsorted : is.Pairwise (· < ·)) (s : Scheduler n)
    (hcpus : ∀ i ∈ is, s.cpus i = cpus i) :
    GoneExited exited (steal own cpu env is s).2 ↔
      GoneExited exited s ∧ StealKeeps exited cpus own cpu env is := by
  induction is generalizing s with
  | nil => exact ⟨fun h => ⟨h, nofun⟩, fun h => h.1⟩
  | cons i is ih =>
    obtain ⟨-, hgone⟩ := s.stealFrom_picks own cpu env i
    obtain ⟨hdropped, hstolen, hother⟩ := s.stealFrom_spec own cpu env i
    rw [hcpus i List.mem_cons_self] at hdropped hstolen
    obtain ⟨hfirst, hsorted⟩ := List.pairwise_cons.mp hsorted
    have hround : GoneExited exited (s.stealFrom own cpu env i).sched ↔ GoneExited exited s ∧
        (Asks own cpu env i → ¬ (cpus i).HasRt cpu →
          ∀ t ∈ (cpus i).top (env.tie i), t.allows cpu ∨ t.id ∈ exited) := by
      simp only [GoneExited, hgone, List.forall_mem_append, Option.mem_toList, hdropped]
      grind
    rw [steal, stealKeeps_cons own hfirst, ← and_assoc, ← hround, ← hstolen]
    cases hcase : (s.stealFrom own cpu env i).stolen with
    | some t => simp
    | none =>
      rw [ih hsorted _ fun j hj => ?_]
      · simp
      · rw [hother j (hfirst j hj).ne', hcpus j (List.mem_cons_of_mem i hj)]

/-- A pick goes on to work stealing if the pending queue and the CPU itself offer nothing. -/
theorem pickLocal_spec (s : Scheduler n) (cpu : Fin n) (env : PickEnv n) :
    ((s.pickLocal own cpu env).1 = none ↔
      (env.pendingFree → s.pendingQueue = []) ∧ ¬ (s.cpus own).Offers cpu (env.tie own)) ∧
    ∀ j ≠ own, (s.pickLocal own cpu env).2.cpus j = s.cpus j := by
  have hrt := (s.cpus own).takeRt_flush_eq_none_iff cpu PerCpu.pickDominates
  have htop := (s.cpus own).popHeap_flush (env.tie own)
  have hset (c : PerCpu) : ∀ j ≠ own, (s.setCpu own c).cpus j = s.cpus j :=
    fun j hj => Function.update_of_ne hj _ _
  have hset' (c c' : PerCpu) : ∀ j ≠ own, ((s.setCpu own c).setCpu own c').cpus j = s.cpus j :=
    fun j hj => (Function.update_of_ne hj _ _).trans (hset c j hj)
  rw [pickLocal, PerCpu.Offers, ← htop]
  split
  · next t rest hfree hqueue =>
    have hqueue' : s.pendingQueue = t :: rest := hqueue
    exact ⟨by simp [hfree, hqueue'], hset _⟩
  next hpending =>
  have hempty : env.pendingFree = true → s.pendingQueue = [] := fun hfree => by
    cases hqueue : s.pendingQueue with
    | nil => rfl
    | cons t rest => exact absurd hqueue (hpending t rest hfree)
  rw [setCpu_cpus_self]
  generalize (s.cpus own).flushReadyQueues = c at hrt ⊢
  cases htake : c.takeRt PerCpu.pickDominates cpu with
  | some r =>
    have hhas : (s.cpus own).HasRt cpu := by
      by_contra hno
      rw [hrt.mpr hno] at htake
      cases htake
    exact ⟨by simp [hhas], hset' _ _⟩
  | none =>
    have hno := hrt.mp htake
    cases hpop : c.popHeap (env.tie own) with
    | none => exact ⟨iff_of_true rfl ⟨hempty, by simp [hno]⟩, hset _⟩
    | some r =>
      obtain ⟨t, c'⟩ := r
      dsimp only
      split
      · next hallows => exact ⟨by simp [hallows], hset' _ _⟩
      · next hallows => exact ⟨iff_of_true rfl ⟨hempty, by simp [hno, hallows]⟩, hset' _ _⟩

theorem goneExited_pickNext_iff (exited : List ℕ) (s : Scheduler n) (own cpu : Fin n)
    (env : PickEnv n) :
    GoneExited exited (s.pickNext own cpu env).2 ↔
      GoneExited exited s ∧ PickKeeps exited s (s.cpus own) own cpu env := by
  have hgone := s.pickLocal_gone own cpu env
  obtain ⟨hnone, hother⟩ := s.pickLocal_spec own cpu env
  have hsame : GoneExited exited (s.pickLocal own cpu env).2 ↔ GoneExited exited s := by
    rw [GoneExited, hgone, GoneExited]
  have hkeeps : PickKeeps exited s (s.cpus own) own cpu env ↔
      ((s.pickLocal own cpu env).1 = none →
        StealKeeps exited (s.pickLocal own cpu env).2.cpus own cpu env (List.finRange n)) := by
    rw [hnone, PickKeeps, and_imp]
    exact imp_congr_right fun _ => imp_congr_right fun _ =>
      ⟨.congr own fun i hi => (hother i hi).symm, .congr own hother⟩
  rw [pickNext, hkeeps, ← hsame]
  generalize s.pickLocal own cpu env = r
  obtain ⟨picked, s'⟩ := r
  cases picked with
  | some t => simp
  | none =>
    rw [goneExited_steal_iff own cpu env _ (List.pairwise_lt_finRange n) s' fun _ _ => rfl]
    simp

/-- A thread that has exited and waits for nothing is freed now. -/
theorem routeOutgoing_gone (s : Scheduler n) (cpu : Fin n) (t : Thread) :
    (s.routeOutgoing cpu t).gone = s.gone ∨
      t.status = .exited ∧ (s.routeOutgoing cpu t).gone = s.gone ++ [t] := by
  rw [routeOutgoing]
  split_ifs with _ _ _ hexited
  on_goal 5 => exact .inr ⟨not_not.mp hexited, rfl⟩
  all_goals exact .inl rfl

theorem goneExited_routeOutgoing_iff (ht : t.status = .exited → t.id ∈ exited) :
    GoneExited exited (s.routeOutgoing cpu t) ↔ GoneExited exited s := by
  obtain hgone | ⟨hexited, hgone⟩ := s.routeOutgoing_gone cpu t
  · rw [GoneExited, hgone, GoneExited]
  · simp only [GoneExited, hgone, List.forall_mem_append, List.forall_mem_singleton,
      and_iff_left (ht hexited)]

theorem goneExited_routeSwitchingOld_iff (h : ∀ t ∈ s.all, t.status = .exited → t.id ∈ exited) :
    GoneExited exited (s.routeSwitchingOld cpu) ↔ GoneExited exited s := by
  rw [routeSwitchingOld]
  split
  · next t ht =>
    refine goneExited_routeOutgoing_iff (h t ?_)
    obtain ⟨rest, hall, -⟩ := s.exists_rest cpu
    rw [hall, PerCpu.threads, ht]
    simp
  · exact Iff.rfl

theorem install_gone (s : Scheduler n) (cpu : Fin n) (env : PickEnv n) (next : Thread) :
    (s.install cpu env next).gone = s.gone := by
  rw [install]
  dsimp only
  split
  · rfl
  split
  · rfl
  split
  · rfl
  next hexited =>
  split
  · rfl
  split
  · exact (routeOutgoing_gone _ _ _).resolve_right fun h => hexited h.1
  · rfl

/-- Routing the thread that was switched away from changes the CPU's own queues only. -/
theorem pickKeeps_routeSwitchingOld {env : PickEnv n} :
    PickKeeps exited (s.routeSwitchingOld cpu) ((s.routeSwitchingOld cpu).cpus cpu) cpu cpu env ↔
      PickKeeps exited s (s.cpus cpu).routed cpu cpu env := by
  rw [routeSwitchingOld, PerCpu.routed]
  cases hold : (s.cpus cpu).switchingOld with
  | none => exact Iff.rfl
  | some t =>
    dsimp only
    have hset (c : PerCpu) : ∀ i ≠ cpu, (s.setCpu cpu c).cpus i = s.cpus i :=
      fun i hi => Function.update_of_ne hi _ _
    have hset' (c c' : PerCpu) : ∀ i ≠ cpu, ((s.setCpu cpu c).setCpu cpu c').cpus i = s.cpus i :=
      fun i hi => (Function.update_of_ne hi _ _).trans (hset c i hi)
    -- where the thread goes to another queue, the CPU's own ones stay as they are
    have hstays : PickKeeps exited (s.setCpu cpu { s.cpus cpu with switchingOld := none })
        ((s.setCpu cpu { s.cpus cpu with switchingOld := none }).cpus cpu) cpu cpu env ↔
        PickKeeps exited s (s.cpus cpu) cpu cpu env := by
      refine pickKeeps_congr cpu rfl ?_ (hset _)
      rw [setCpu_cpus_self]
      rfl
    rw [routeOutgoing]
    by_cases hsleep : t.sleepUntil.isSome = true
    · rw [if_pos hsleep, if_pos (.inl hsleep)]
      exact hstays
    by_cases hfutex : t.futexWakeAddr.isSome = true
    · rw [if_neg hsleep, if_pos hfutex, if_pos (.inr (.inl hfutex))]
      exact hstays
    by_cases hpipe : t.pipeBlockKey.isSome = true
    · rw [if_neg hsleep, if_neg hfutex, if_pos hpipe, if_pos (.inr (.inr (.inl hpipe)))]
      exact hstays
    rw [if_neg hsleep, if_neg hfutex, if_neg hpipe]
    by_cases hexited : t.status = .exited
    · rw [if_neg (not_not.mpr hexited), if_pos (.inr (.inr (.inr hexited)))]
      exact hstays
    rw [if_pos hexited, if_neg (by simp [hsleep, hfutex, hpipe, hexited])]
    refine pickKeeps_congr cpu rfl ?_ (hset' _ _)
    rw [setCpu_cpus_self, setCpu_cpus_self]
    rfl

theorem goneExited_prepareSwitch_iff {env : PickEnv n}
    (h : ∀ t ∈ s.all, t.status = .exited → t.id ∈ exited) :
    GoneExited exited (s.prepareSwitch cpu env) ↔ GoneExited exited s ∧
      PickKeeps exited s (s.cpus cpu).routed cpu cpu env := by
  have hpick := (s.routeSwitchingOld cpu).goneExited_pickNext_iff exited cpu cpu env
  rw [goneExited_routeSwitchingOld_iff h, pickKeeps_routeSwitchingOld] at hpick
  rw [← hpick, prepareSwitch]
  generalize (s.routeSwitchingOld cpu).pickNext cpu cpu env = r
  obtain ⟨picked, s'⟩ := r
  have hinstall : ∀ s' next, GoneExited exited (install s' cpu env next) ↔ GoneExited exited s' :=
    fun s' next => by rw [GoneExited, install_gone, GoneExited]
  cases picked with
  | some next => exact hinstall s' next
  | none =>
    dsimp only
    split
    · exact hinstall _ _
    · exact Iff.rfl

theorem goneExited_yieldNow_iff (cpu : Fin n) (env : PickEnv n) :
    GoneExited exited (s.yieldNow own cpu env) ↔ GoneExited exited s ∧
      ((s.cpus own).currentThread.isSome → PickKeeps exited s (s.cpus own) own cpu env) := by
  rw [yieldNow]
  split
  · next hcur =>
    let ready := s.updateCurrent own fun t => { t with status := .ready }
    have hpick := goneExited_pickNext_iff exited ready own cpu env
    have hsame : GoneExited exited ready ↔ GoneExited exited s := Iff.rfl
    have hother (i : Fin n) (hi : i ≠ own) : ready.cpus i = s.cpus i :=
      Function.update_of_ne hi _ _
    have hqueues : (ready.cpus own).Offers = (s.cpus own).Offers := by
      simp only [ready, updateCurrent, setCpu_cpus_self]
      rfl
    have hkeeps : PickKeeps exited ready (ready.cpus own) own cpu env ↔
        PickKeeps exited s (s.cpus own) own cpu env := pickKeeps_congr own rfl hqueues hother
    simp only [hcur, true_implies]
    rw [← hsame, ← hkeeps, ← hpick]
    generalize ready.pickNext own cpu env = r
    obtain ⟨picked, s'⟩ := r
    cases picked with
    | some t => exact Iff.rfl
    | none => exact Iff.rfl
  · next hcur => simp [hcur]

end Scheduler

open Scheduler

def System.places (s : System n) : Multiset ℕ := s.sched.threads.map (·.id)

/-- No thread is in two places, and every thread that has been started and has not exited is
in one. -/
structure Conserved (s : System n) : Prop where
  once : ∀ id, s.places.count id ≤ 1
  present : ∀ id < s.nextId, id ∉ s.exited → id ∈ s.places

/-- The section does not steal, or finds at the top of the heaps of the other CPUs only threads
that may run on its own CPU, up to the one it takes. -/
def StealsPermitted (s : System n) : Op n → Prop
  | .schedule cpu env => PickKeeps s.exited s.sched (s.sched.cpus cpu).routed cpu cpu env
  | .trySchedule cpu env => (s.sched.cpus cpu).currentThread.isSome →
    PickKeeps s.exited s.sched (s.sched.cpus cpu).routed cpu cpu env
  | .yieldNow own cpu env => (s.sched.cpus own).currentThread.isSome →
    PickKeeps s.exited s.sched (s.sched.cpus own) own cpu env
  | _ => True

def boot (n : ℕ) : System n where
  sched := { cpus := fun i => { idle := some { id := i }, idleId := some i } }
  nextId := n

/-- What every section keeps, whatever it steals: a thread has one place or was dropped, and
those marked as exited have exited. -/
structure Tracked (s : System n) : Prop where
  once : ∀ id, s.sched.ids.count id = if id < s.nextId then 1 else 0
  exited : ∀ t ∈ s.sched.all, t.status = .exited → t.id ∈ s.exited
  idle : s.sched.IdleOk

variable {s : System n}

section

variable (h : Tracked s)

include h

theorem Tracked.count_le_one (id : ℕ) : s.sched.ids.count id ≤ 1 := by
  rw [h.once]
  split <;> omega

theorem Tracked.conserved_iff : Conserved s ↔ GoneExited s.exited s.sched := by
  have hids : ∀ id, s.sched.ids.count id =
      s.places.count id + ((↑s.sched.gone : Multiset Thread).map (·.id)).count id := by
    intro id
    rw [ids, all, map_add, count_add]
    rfl
  constructor
  · intro hcons t ht
    by_contra hlive
    -- the thread would be in a place and dropped
    have hdropped : 0 < ((↑s.sched.gone : Multiset Thread).map (·.id)).count t.id :=
      count_pos.mpr (mem_map_of_mem _ (mem_coe.mpr ht))
    have hone := h.once t.id
    rw [hids] at hone
    split at hone
    · next hstarted =>
      have hplace := count_pos.mpr (hcons.present t.id hstarted hlive)
      omega
    · omega
  · intro hgone
    refine ⟨fun id => ?_, fun id hstarted hlive => ?_⟩
    · have hle := h.count_le_one id
      rw [hids] at hle
      omega
    · have hone := h.once id
      rw [hids, if_pos hstarted] at hone
      have hdropped : ((↑s.sched.gone : Multiset Thread).map (·.id)).count id = 0 := by
        refine count_eq_zero_of_notMem fun hmem => ?_
        obtain ⟨t, ht, rfl⟩ := mem_map.mp hmem
        exact hlive (hgone t (mem_coe.mp ht))
      exact count_pos.mp (by omega)

/-- A section that only moves threads. -/
theorem Tracked.of_moves {sched : Scheduler n}
    (hmoves : Moves s.sched.all sched.all) (hidle : sched.IdleOk) :
    Tracked { s with sched } where
  once id := by
    rw [ids_eq_of_moves hmoves]
    exact h.once id
  exited t ht hexited := by
    obtain ⟨u, hu, hid, hstatus⟩ := hmoves.exists_of_mem ht
    rw [hid]
    exact h.exited u hu (hstatus hexited)
  idle := hidle

theorem Tracked.spawn (t : Thread) : Tracked (s.step (.spawn t)) := by
  have hall : (s.step (.spawn t)).sched.all =
      s.sched.all + {{ t with id := s.nextId, status := .ready }} := by
    simp only [System.step, exec, all, threads, ← coe_add, coe_singleton]
    abel
  refine ⟨fun id => ?_, fun u hu hexited => ?_, h.idle⟩
  · rw [ids, hall, map_add, count_add, map_singleton,
      count_singleton]
    have hold : (s.sched.all.map (·.id)).count id = _ := h.once id
    rw [hold]
    show _ = if id < s.nextId + 1 then 1 else 0
    dsimp only
    split <;> split <;> split <;> omega
  · rw [hall] at hu
    cases mem_add.mp hu with
    | inl hu => exact h.exited u hu hexited
    | inr hu =>
      rw [mem_singleton.mp hu] at hexited
      cases hexited

theorem Tracked.exit (cpu : Fin n) : Tracked (s.step (.exit cpu)) := by
  obtain ⟨rest, hall, hset⟩ := s.sched.exists_rest_slots cpu
  have hall' : (s.step (.exit cpu)).sched.all = _ := hset _ _ _
  rw [add_assoc, add_assoc] at hall hall'
  refine ⟨fun id => ?_, fun u hu hexited => ?_, h.idle.setCurrent cpu _⟩
  · rw [ids, hall', map_add]
    have hold := h.once id
    rw [ids, hall, map_add] at hold
    refine Eq.trans ?_ hold
    cases (s.sched.cpus cpu).currentThread with
    | none => rfl
    | some t => rfl
  · rw [hall'] at hu
    show u.id ∈ ((s.sched.cpus cpu).currentThread.map (·.id)).toList ++ s.exited
    cases mem_add.mp hu with
    | inl hu =>
      obtain ⟨t, ht, rfl⟩ := Option.map_eq_some_iff.mp (Option.mem_toList.mp (mem_coe.mp hu))
      simp [ht]
    | inr hu =>
      exact List.mem_append_right _
        (h.exited u (hall ▸ mem_add.mpr (.inr hu)) hexited)

theorem Tracked.step (op : Op n) : Tracked (s.step op) := by
  have hmoves := fun hspawn hexit => exec_spec (s := s.sched) op hspawn hexit h.idle h.count_le_one
  cases op with
  | spawn t => exact h.spawn t
  | exit cpu => exact h.exit cpu
  | _ =>
    obtain ⟨hmoves, hidle⟩ := hmoves (fun _ heq => by cases heq) (fun _ heq => by cases heq)
    exact h.of_moves hmoves hidle

/-- Under the invariant the section drops a thread that has not exited exactly if its work
stealing is not permitted. -/
theorem Tracked.goneExited_step_iff (hgone : GoneExited s.exited s.sched) (op : Op n) :
    GoneExited (s.step op).exited (s.step op).sched ↔ StealsPermitted s op := by
  have hsame : GoneExited s.exited s.sched ↔ True := iff_true_intro hgone
  cases op with
  | schedule cpu env =>
    show GoneExited s.exited (s.sched.prepareSwitch cpu env) ↔ _
    rw [goneExited_prepareSwitch_iff h.exited, hsame, true_and]
    rfl
  | trySchedule cpu env =>
    show GoneExited s.exited (if _ then _ else _) ↔ (_ → _)
    split
    · next hnone => simp [hsame, Option.isNone_iff_eq_none.mp hnone]
    next hsome =>
    rw [goneExited_prepareSwitch_iff h.exited, hsame, true_and]
    refine ⟨fun hkeeps _ => hkeeps, fun hkeeps => hkeeps ?_⟩
    exact Option.isSome_iff_ne_none.mpr fun hnone => hsome (Option.isNone_iff_eq_none.mpr hnone)
  | routeSwitchingOld cpu => exact (goneExited_routeSwitchingOld_iff h.exited).trans hsame
  | yieldNow own cpu env =>
    show GoneExited s.exited (s.sched.yieldNow own cpu env) ↔ _
    rw [goneExited_yieldNow_iff, hsame, true_and]
    rfl
  | exit cpu =>
    exact iff_true_intro fun t ht => List.mem_append_right _ (hgone t ht)
  | resume cpu now signal =>
    refine Iff.trans ?_ hsame
    show GoneExited s.exited (s.sched.resume cpu now signal) ↔ _
    rw [Scheduler.resume]
    repeat' split
    all_goals exact Iff.rfl
  | tick cpu env =>
    refine Iff.trans ?_ hsame
    show GoneExited s.exited (Scheduler.runTickInner _ cpu env) ↔ _
    rw [Scheduler.runTickInner]
    split <;> exact Iff.rfl
  | loadBalance cpu env counts =>
    refine Iff.trans ?_ hsame
    show GoneExited s.exited (s.sched.loadBalance cpu env counts) ↔ _
    rw [Scheduler.loadBalance]
    repeat' split
    all_goals exact Iff.rfl
  | _ => exact hsame

end

theorem boot_all (n : ℕ) : (boot n).sched.all = ∑ i : Fin n, {({ id := i } : Thread)} := by
  simp [boot, all, threads, PerCpu.threads, PerCpu.queued]

theorem boot_tracked (n : ℕ) : Tracked (boot n) where
  once id := by
    have hids : (boot n).sched.ids = ∑ i : Fin n, {(i : ℕ)} := by
      rw [ids, boot_all]
      exact map_sum (Multiset.mapAddMonoidHom fun t : Thread => t.id) _ _
    rw [hids, count_sum']
    simp only [count_singleton]
    rw [Fin.sum_univ_eq_sum_range (fun i => if id = i then 1 else 0) n, Finset.sum_ite_eq]
    by_cases hid : id < n <;> simp [boot, hid]
  exited t ht hexited := by
    rw [boot_all] at ht
    obtain ⟨i, -, hi⟩ := mem_sum.mp ht
    rw [mem_singleton.mp hi] at hexited
    cases hexited
  idle i t ht := by
    cases ht
    rfl

/-- In every run from boot, of any length and on any number of CPUs: every section leaves each
thread that has not exited in exactly one place, if and only if the work stealing of every
section is permitted. -/
theorem conserved_iff_stealsPermitted (n : ℕ) (ops : List (Op n)) :
    Along System.step (fun s op => Conserved (s.step op)) (boot n) ops ↔
      Along System.step StealsPermitted (boot n) ops := by
  refine along_iff_of_inv (I := fun s => Tracked s ∧ GoneExited s.exited s.sched) ?_ ?_
    ⟨boot_tracked n, fun t ht => by cases ht⟩
  · rintro s op ⟨h, hgone⟩
    rw [(h.step op).conserved_iff, h.goneExited_step_iff hgone]
  · rintro s op ⟨h, hgone⟩ hpermitted
    exact ⟨h.step op, (h.goneExited_step_iff hgone op).mpr hpermitted⟩

/-- A thread that may only run on CPU 1 is preempted there; an idle CPU 0 then looks for work. -/
def pinnedThread : List (Op 8) :=
  [.spawn { id := 0, affinityMask := 2 }, .schedule 1 {}, .spawn { id := 0 }, .schedule 1 {},
    .routeSwitchingOld 1, .schedule 0 {}]

theorem pinnedThread_lost : ¬ Along System.step (fun s op => Conserved (s.step op)) (boot 8)
    pinnedThread := by
  rintro ⟨-, -, -, -, -, hlast, -⟩
  have hpresent := hlast.present 8 (by decide) (by decide)
  revert hpresent
  decide +kernel

end Vahi.Task.Sched
