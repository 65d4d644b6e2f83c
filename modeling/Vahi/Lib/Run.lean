import Mathlib.Data.Option.Basic
import Mathlib.Tactic.Common

/-!
# Runs of a step function

`trace` is the state after a number of steps in a changing environment. `Along` is about runs given
by the list of their operations; `along_of_inv` derives what holds at every step.
-/

namespace Vahi.Lib

variable {σ ε : Type*}

def trace (next : ε → σ → Option σ) (env : ℕ → ε) (s : σ) : ℕ → Option σ
  | 0 => some s
  | n + 1 => (trace next env s n).bind (next (env n))

variable {next : ε → σ → Option σ} {env : ℕ → ε} {s : σ} {step : σ → ε → σ} {I : σ → Prop}
  {C P : σ → ε → Prop} {ops : List ε}

/-- A property of the first state that every step of the run keeps holds in
every state the run reaches. The step may use everything known about the run. -/
theorem trace_inv {P : σ → Prop} (h₀ : P s)
    (hstep : ∀ n t t', trace next env s n = some t → P t → next (env n) t = some t' → P t') :
    ∀ n t, trace next env s n = some t → P t := by
  intro n
  induction n with
  | zero =>
    intro t ht
    obtain rfl : s = t := by simpa [trace] using ht
    exact h₀
  | succ n ih =>
    intro t ht
    rw [trace, Option.bind_eq_some_iff] at ht
    obtain ⟨u, hu, hut⟩ := ht
    exact hstep n u t hu (ih u hu) hut

/-- A measure that grows with every step and is below a bound whenever a step is taken: the run
stops, after at most as many steps as the bound and as the measure at its end say. -/
theorem trace_stops {m : σ → ℕ} {bound : ℕ}
    (hgrows : ∀ n t t', trace next env s n = some t → next (env n) t = some t' →
      m t < bound ∧ m t < m t') :
    ∃ n t, trace next env s n = some t ∧ next (env n) t = none ∧ n ≤ bound ∧ n ≤ m t := by
  -- as long as the run has not stopped, it has taken `k` steps and the measure says so
  have hrun : ∀ k, (∃ n t, trace next env s n = some t ∧ next (env n) t = none ∧ n ≤ bound ∧
      n ≤ m t) ∨ ∃ t, trace next env s k = some t ∧ k ≤ bound ∧ k ≤ m t := by
    intro k
    induction k with
    | zero => exact .inr ⟨s, rfl, Nat.zero_le _, Nat.zero_le _⟩
    | succ k ih =>
      obtain hstopped | ⟨t, ht, hbound, hm⟩ := ih
      · exact .inl hstopped
      cases hnext : next (env k) t with
      | none => exact .inl ⟨k, t, ht, hnext, hbound, hm⟩
      | some t' =>
        obtain ⟨hlt, hgrow⟩ := hgrows k t t' ht hnext
        refine .inr ⟨t', ?_, by omega, by omega⟩
        rw [trace, ht, Option.bind_some, hnext]
  obtain hstopped | ⟨t, -, hbound, -⟩ := hrun (bound + 1)
  · exact hstopped
  · omega

/-- At every step of the run, `P` holds of the state before it and the operation. -/
def Along (step : σ → ε → σ) (P : σ → ε → Prop) : σ → List ε → Prop
  | _, [] => True
  | s, op :: ops => P s op ∧ Along step P (step s op) ops

instance Along.decidable (step : σ → ε → σ) (P : σ → ε → Prop) [∀ s op, Decidable (P s op)] :
    (s : σ) → (ops : List ε) → Decidable (Along step P s ops)
  | _, [] => inferInstanceAs (Decidable True)
  | s, op :: ops =>
    have := Along.decidable step P (step s op) ops
    inferInstanceAs (Decidable (P s op ∧ Along step P (step s op) ops))

theorem along_of_inv (hstep : ∀ s op, I s → C s op → P s op ∧ I (step s op)) (h₀ : I s)
    (hC : Along step C s ops) : Along step P s ops := by
  induction ops generalizing s with
  | nil => trivial
  | cons op ops ih =>
    obtain ⟨hP, hI⟩ := hstep s op h₀ hC.1
    exact ⟨hP, ih hI hC.2⟩

theorem Along.and {Q : σ → ε → Prop} (hP : Along step P s ops) (hQ : Along step Q s ops) :
    Along step (fun s op => P s op ∧ Q s op) s ops := by
  induction ops generalizing s with
  | nil => trivial
  | cons op ops ih => exact ⟨⟨hP.1, hQ.1⟩, ih hP.2 hQ.2⟩

theorem along_of_forall (h : ∀ s op, P s op) (s : σ) (ops : List ε) : Along step P s ops := by
  induction ops generalizing s with
  | nil => trivial
  | cons op ops ih => exact ⟨h s op, ih (step s op)⟩

theorem along_of_mem {P : ε → Prop} (h : ∀ op ∈ ops, P op)
    (s : σ) : Along step (fun _ op => P op) s ops := by
  induction ops generalizing s with
  | nil => trivial
  | cons op ops ih =>
    exact ⟨h op List.mem_cons_self, ih (fun op' hop => h op' (List.mem_cons_of_mem op hop)) _⟩

/-- What holds after every step of a run holds at its end. -/
theorem Along.foldl {Q : σ → Prop}
    (h : Along step (fun s op => Q (step s op)) s ops) (hne : ops ≠ []) : Q (ops.foldl step s) := by
  induction ops generalizing s with
  | nil => exact absurd rfl hne
  | cons op ops ih =>
    cases ops with
    | nil => exact h.1
    | cons op' ops => exact ih h.2 (List.cons_ne_nil op' ops)

/-- If under the invariant `P` and `C` say the same of a step, and the steps that meet `C`
keep the invariant, then they say the same of a run. Only steps that meet `D` are considered. -/
theorem along_iff_of_inv_along {D : σ → ε → Prop} (hiff : ∀ s op, I s → D s op → (P s op ↔ C s op))
    (hkeep : ∀ s op, I s → D s op → C s op → I (step s op)) (h₀ : I s) (hD : Along step D s ops) :
    Along step P s ops ↔ Along step C s ops := by
  induction ops generalizing s with
  | nil => exact Iff.rfl
  | cons op ops ih =>
    obtain ⟨hD, hDs⟩ := hD
    constructor
    · rintro ⟨hP, hrest⟩
      have hC := (hiff s op h₀ hD).mp hP
      exact ⟨hC, (ih (hkeep s op h₀ hD hC) hDs).mp hrest⟩
    · rintro ⟨hC, hrest⟩
      exact ⟨(hiff s op h₀ hD).mpr hC, (ih (hkeep s op h₀ hD hC) hDs).mpr hrest⟩

theorem along_iff_of_inv
    (hiff : ∀ s op, I s → (P s op ↔ C s op)) (hkeep : ∀ s op, I s → C s op → I (step s op))
    (h₀ : I s) : Along step P s ops ↔ Along step C s ops :=
  along_iff_of_inv_along (fun s op h _ => hiff s op h) (fun s op h _ => hkeep s op h) h₀
    (along_of_forall (fun _ _ => trivial) s ops)

/-- The same for an invariant that says how many more steps may be taken. -/
theorem along_iff_of_countdown {I : ℕ → σ → Prop} (hiff : ∀ n s op, I (n + 1) s → (P s op ↔ C s op))
    (hkeep : ∀ n s op, I (n + 1) s → I n (step s op)) (h₀ : I ops.length s) :
    Along step P s ops ↔ Along step C s ops := by
  induction ops generalizing s with
  | nil => exact Iff.rfl
  | cons op ops ih => exact and_congr (hiff _ s op h₀) (ih (hkeep _ s op h₀))

end Vahi.Lib
