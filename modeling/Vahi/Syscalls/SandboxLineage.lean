import Vahi.Syscalls.Lifecycle

/-!
# Sandboxes along a line of descent

Runs of `fork`, `clone` and `execve` by any threads. Every new object starts without restrictions,
so a line of descent stays as restricted only where there was nothing to inherit.
-/

namespace Vahi.Syscalls

open Vahi.Lib Vahi.Types Vahi.Task List

variable {AS FD : Type}

inductive Call (AS : Type) where
  | fork (t : ℕ) (env : ForkEnv AS)
  | clone (t : ℕ) (env : CloneEnv AS)
  | execve (t : ℕ) (env : ExecEnv AS)

variable (k : Kernel AS FD) {c : Call AS}

def Call.caller : Call AS → Option ℕ
  | .fork t _ | .clone t _ => (k.threadProcess t).map (·.1)
  | .execve t _ => (k.getCurrentProcess t).map (·.1)

/-- The creation edge of a successful call: its caller and the object it appended. -/
def madeBy {α : Type} (k : Kernel AS FD) (c : Call AS) : Except Errno α → Option (ℕ × ℕ)
  | .ok _ => (c.caller k).map fun i => (i, k.procs.length)
  | .error _ => none

def perform (c : Call AS) : Outcome (Kernel AS FD × Option (ℕ × ℕ)) :=
  match c with
  | .fork t env => .ok ((sysFork env k t).1, madeBy k c (sysFork env k t).2)
  | .clone t env => .ok ((sysClone env k t).1, madeBy k c (sysClone env k t).2)
  | .execve t env => do
    let (k', r) ← sysExecve env k t
    .ok (k', madeBy k c r)

def runCalls (k : Kernel AS FD) : List (Call AS) → Outcome (Kernel AS FD × List (ℕ × ℕ))
  | [] => .ok (k, [])
  | c :: cs => do
    let (k₁, edge) ← perform k c
    let (k₂, edges) ← runCalls k₁ cs
    .ok (k₂, edge.toList ++ edges)

/-- Every call that makes a process is made by one without restrictions. -/
def CreatorsUnrestricted (k : Kernel AS FD) : List (Call AS) → Prop
  | [] => True
  | c :: cs => ∀ k₁ edge, perform k c = .ok (k₁, edge) →
      (∀ i j, edge = some (i, j) → ∀ s, k.sandboxes[i]? = some s → s.Unrestricted) ∧
      CreatorsUnrestricted k₁ cs

/-- Each process refuses at least what every process it descends from refuses. -/
def SandboxMonotone (edges : List (ℕ × ℕ)) : Prop :=
  ∀ a d, Relation.TransGen (fun i j => (i, j) ∈ edges) a d →
    ∀ sa sd, k.sandboxes[a]? = some sa → k.sandboxes[d]? = some sd → sd.AtLeastAsRestricted sa

theorem Call.caller_lt {k : Kernel AS FD} {i : ℕ} (h : c.caller k = some i) :
    i < k.sandboxes.length := by
  have hthread : ∀ {t i}, (k.threadProcess t).map (·.1) = some i → i < k.procs.length := by
    intro t i h
    simp only [Kernel.threadProcess, Option.bind_eq_bind, Option.map_eq_some_iff,
      Option.bind_eq_some_iff, Option.some.injEq] at h
    obtain ⟨_, ⟨_, _, i', _, p, hp, rfl⟩, rfl⟩ := h
    exact (List.getElem?_eq_some_iff.mp hp).1
  simp only [Kernel.sandboxes, length_map]
  cases c with
  | fork t env => exact hthread h
  | clone t env => exact hthread h
  | execve t env =>
    simp only [caller, Kernel.getCurrentProcess] at h
    split at h
    · next ip hip => exact hthread (by rw [hip]; exact h)
    simp only [Option.bind_eq_bind, Option.map_eq_some_iff, Option.bind_eq_some_iff,
      Option.some.injEq] at h
    obtain ⟨_, ⟨i', _, p, hp, rfl⟩, rfl⟩ := h
    exact (List.getElem?_eq_some_iff.mp hp).1

/-- One step: existing sandboxes stay, and an edge leads from an existing object to an
appended one without restrictions. -/
theorem perform_sandboxes {k k' : Kernel AS FD} {edge : Option (ℕ × ℕ)}
    (h : perform k c = .ok (k', edge)) :
    ∃ new, k'.sandboxes = k.sandboxes ++ new ∧ ∀ i j, edge = some (i, j) →
      i < k.sandboxes.length ∧ k'.sandboxes[j]? = some .default := by
  have hmade : ∀ {α : Type} {r : Except Errno α}, k'.sandboxes = k.sandboxes ++ added r →
      edge = madeBy k c r → ∃ new, k'.sandboxes = k.sandboxes ++ new ∧
        ∀ i j, edge = some (i, j) → i < k.sandboxes.length ∧
          k'.sandboxes[j]? = some .default := by
    intro α r hsand hedge
    refine ⟨added r, hsand, fun i j hij => ?_⟩
    rw [hedge] at hij
    cases r with
    | error e => simp [madeBy] at hij
    | ok a =>
      simp only [madeBy, Option.map_eq_some_iff, Prod.mk.injEq] at hij
      obtain ⟨i', hi, rfl, rfl⟩ := hij
      refine ⟨Call.caller_lt hi, ?_⟩
      rw [hsand]
      simp [Kernel.sandboxes]
  cases c with
  | fork t env =>
    cases h
    exact hmade (sysFork_sandboxes env k t) rfl
  | clone t env =>
    cases h
    exact hmade (sysClone_sandboxes env k t) rfl
  | execve t env =>
    obtain ⟨⟨k₁, r⟩, hexec, hk⟩ := Outcome.bind_eq_ok.mp h
    cases hk
    exact hmade (sysExecve_sandboxes hexec) rfl

/-- Whole runs: what the edges of a run connect. -/
theorem runCalls_sandboxes {k k' : Kernel AS FD} {calls : List (Call AS)}
    {edges : List (ℕ × ℕ)} (h : runCalls k calls = .ok (k', edges)) :
    (∃ new, k'.sandboxes = k.sandboxes ++ new) ∧
      (∀ e ∈ edges, e.1 < k'.sandboxes.length ∧ k'.sandboxes[e.2]? = some .default) ∧
      (CreatorsUnrestricted k calls ↔
        ∀ e ∈ edges, ∃ s, k'.sandboxes[e.1]? = some s ∧ s.Unrestricted) := by
  induction calls generalizing k edges with
  | nil =>
    cases h
    simp [CreatorsUnrestricted]
  | cons c cs ih =>
    obtain ⟨⟨k₁, edge⟩, hstep, h⟩ := Outcome.bind_eq_ok.mp h
    obtain ⟨⟨k₂, edges₂⟩, hrun, h⟩ := Outcome.bind_eq_ok.mp h
    cases h
    obtain ⟨new₁, hnew₁, hedge⟩ := perform_sandboxes hstep
    obtain ⟨⟨new₂, hnew₂⟩, htargets, hcreators⟩ := ih hrun
    refine ⟨⟨new₁ ++ new₂, by rw [hnew₂, hnew₁, append_assoc]⟩, ?_, ?_⟩
    · intro e he
      cases mem_append.mp he with
      | inl he =>
        obtain ⟨hi, hj⟩ := hedge e.1 e.2 (Option.mem_toList.mp he)
        constructor
        · simp only [hnew₂, hnew₁, length_append]
          omega
        · rw [hnew₂, getElem?_append_left (List.getElem?_eq_some_iff.mp hj).1]
          exact hj
      | inr he => exact htargets e he
    · -- the creator of the first edge has at the end the sandbox it had before the step
      have hsame : ∀ i, i < k.sandboxes.length → k'.sandboxes[i]? = k.sandboxes[i]? := by
        intro i hi
        rw [hnew₂, hnew₁, append_assoc, getElem?_append_left hi]
      constructor
      · intro hall e he
        obtain ⟨hfirst, hrest⟩ := hall k₁ edge hstep
        cases mem_append.mp he with
        | inl he =>
          have hij := Option.mem_toList.mp he
          obtain ⟨hi, -⟩ := hedge e.1 e.2 hij
          rw [hsame _ hi]
          have hs := getElem?_eq_getElem hi
          exact ⟨_, hs, hfirst e.1 e.2 hij _ hs⟩
        | inr he => exact hcreators.mp hrest e he
      · intro hall k₁' edge' hstep'
        rw [hstep] at hstep'
        cases hstep'
        refine ⟨fun i j hij s hs => ?_, hcreators.mpr fun e he =>
          hall e (mem_append_right _ he)⟩
        obtain ⟨hi, -⟩ := hedge i j hij
        obtain ⟨s', hs', hun⟩ := hall (i, j) (mem_append_left _ (by simp [hij]))
        rw [hsame i hi, hs] at hs'
        cases hs'
        exact hun

/-- Restrictions are handed down along a run exactly when no process that makes
another one has any. -/
theorem sandboxMonotone_iff {k k' : Kernel AS FD} {calls : List (Call AS)}
    {edges : List (ℕ × ℕ)} (h : runCalls k calls = .ok (k', edges)) :
    SandboxMonotone k' edges ↔ CreatorsUnrestricted k calls := by
  obtain ⟨-, hedges, hcreators⟩ := runCalls_sandboxes h
  rw [hcreators]
  constructor
  · intro hmono e he
    obtain ⟨hi, hj⟩ := hedges e he
    have hs := getElem?_eq_getElem hi
    exact ⟨_, hs, (Sandbox.default_restricted_iff _).mp (hmono e.1 e.2 (.single he) _ _ hs hj)⟩
  · -- a descendant was made by someone, so its sandbox is the default one
    intro hall a d hdesc sa sd hsa hsd
    obtain ⟨b, hab, -⟩ := Relation.TransGen.head'_iff.mp hdesc
    obtain ⟨c, -, hcd⟩ := Relation.TransGen.tail'_iff.mp hdesc
    obtain ⟨s, hs, hun⟩ := hall (a, b) hab
    cases hs.symm.trans hsa
    cases (hedges (c, d) hcd).2.symm.trans hsd
    exact (Sandbox.default_restricted_iff sa).mpr hun

def plainFork : ForkEnv Unit where
  findCgroup := fun _ => none
  cloneCow := some
  cloneFork := true

/-- A filter that refuses `execve` (59) with an error and allows every other call. -/
def noExecFilter : SeccompState where
  mode := .filter
  filter := [⟨0x20, 0, 0, 0⟩, ⟨0x15, 0, 1, 59⟩, ⟨0x06, 0, 0, 0x00030001⟩, ⟨0x06, 0, 0, 0x7FFF0000⟩]
  defaultAction := seccompRetKillProcess

/-- One process that has put itself under the filter, on thread 0. -/
def filteredProcess : Kernel Unit Unit :=
  let k := singleProcess 7 userCredentials
  k.modifyProcess 0 fun p => { p with security := ⟨noExecFilter, .default⟩ }

theorem sandboxMonotone_iff_filtered :
    ∃ k', runCalls filteredProcess [.fork 0 plainFork] = .ok (k', [(0, 1)]) ∧
      (SandboxMonotone k' [(0, 1)] ↔ CreatorsUnrestricted filteredProcess [.fork 0 plainFork]) :=
  ⟨_, rfl, sandboxMonotone_iff (k := filteredProcess) rfl⟩

/-- A process that may call `fork` (57) but not `execve` (59) has a child that may. -/
theorem fork_leaves_filter :
    ∃ k' sa sd, runCalls filteredProcess [.fork 0 plainFork] = .ok (k', [(0, 1)]) ∧
      k'.sandboxes[0]? = some sa ∧ k'.sandboxes[1]? = some sd ∧
      sa.seccomp.Allows 57 (fun _ => 0) ∧ ¬ sa.seccomp.Allows 59 (fun _ => 0) ∧
      sd.seccomp.Allows 59 (fun _ => 0) ∧ ¬ SandboxMonotone k' [(0, 1)] := by
  refine ⟨_, _, _, rfl, rfl, rfl, by decide, by decide, rfl, fun hmono => ?_⟩
  have hrestricted := hmono 0 1 (.single (by simp)) _ _ rfl rfl
  exact absurd (hrestricted.seccomp 59 (fun _ => 0) rfl) (by decide)

end Vahi.Syscalls
