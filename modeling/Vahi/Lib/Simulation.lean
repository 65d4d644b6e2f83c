import Mathlib.Tactic.Common

/-!
# Simulation of deterministic machines

If every step of one machine is at least one step of another, between related states, and related
states end with the same result, then both return the same results.
-/

namespace Vahi.Lib

inductive Progress (σ ρ : Type*) where
  | run (s : σ)
  | done (r : ρ)
  | stuck

variable {σ τ ρ : Type*}

inductive Returns (step : σ → Progress σ ρ) : ℕ → σ → ρ → Prop
  | done {s r} (h : step s = .done r) : Returns step 0 s r
  | run {n s s' r} (h : step s = .run s') (hr : Returns step n s' r) : Returns step (n + 1) s r

inductive Reaches (step : σ → Progress σ ρ) : ℕ → σ → σ → Prop
  | refl {s} : Reaches step 0 s s
  | head {n s s' t} (h : step s = .run s') (hr : Reaches step n s' t) : Reaches step (n + 1) s t

section

variable {step : σ → Progress σ ρ} {m n : ℕ} {s t : σ} {r r' : ρ}

theorem Reaches.one (h : step s = .run t) : Reaches step 1 s t := .head h .refl

theorem Reaches.snoc {t' : σ} (h : Reaches step m s t) (ht : step t = .run t') :
    Reaches step (m + 1) s t' := by
  induction h with
  | refl => exact .one ht
  | head hrun _ ih => exact .head hrun (ih ht)

theorem Reaches.returns (h : Reaches step m s t) (hr : Returns step n t r) :
    Returns step (m + n) s r := by
  induction h with
  | refl =>
    rw [Nat.zero_add]
    exact hr
  | head hstep _ ih =>
    rw [Nat.add_right_comm]
    exact .run hstep (ih hr)

/-- What a run passes through is on the way to its result. -/
theorem Returns.of_reaches (h : Returns step n s r) (hreach : Reaches step m s t) :
    ∃ k, n = m + k ∧ Returns step k t r := by
  induction hreach generalizing n with
  | refl => exact ⟨n, (Nat.zero_add n).symm, h⟩
  | head hstep _ ih =>
    cases h with
    | done hdone =>
      rw [hstep] at hdone
      cases hdone
    | run hrun hr =>
      rw [hstep] at hrun
      cases hrun
      obtain ⟨k, rfl, hk⟩ := ih hr
      exact ⟨k, Nat.add_right_comm _ _ _, hk⟩

theorem Returns.unique (h : Returns step n s r) (h' : Returns step m s r') : r = r' := by
  induction h generalizing m with
  | done hdone =>
    cases h' with
    | done hdone' =>
      rw [hdone] at hdone'
      cases hdone'
      rfl
    | run hrun _ =>
      rw [hdone] at hrun
      cases hrun
  | run hrun _ ih =>
    cases h' with
    | done hdone =>
      rw [hrun] at hdone
      cases hdone
    | run hrun' hr' =>
      rw [hrun] at hrun'
      cases hrun'
      exact ih hr'

theorem Reaches.returns_iff (h : Reaches step m s t) :
    (∃ n, Returns step n s r) ↔ ∃ n, Returns step n t r := by
  constructor
  · rintro ⟨n, hr⟩
    obtain ⟨k, -, hk⟩ := hr.of_reaches h
    exact ⟨k, hk⟩
  · rintro ⟨n, hr⟩
    exact ⟨m + n, h.returns hr⟩

end

/-- What one step of the first machine is for the second one. -/
def Simulates (step₁ : σ → Progress σ ρ) (step₂ : τ → Progress τ ρ) (R : σ → τ → Prop) (s : σ)
    (t : τ) : Prop :=
  (∃ s' t' n, step₁ s = .run s' ∧ Reaches step₂ (n + 1) t t' ∧ R s' t') ∨
    ∃ r n, step₁ s = .done r ∧ Returns step₂ n t r

/-- Related states return the same results. -/
theorem returns_iff_of_simulation {step₁ : σ → Progress σ ρ} {step₂ : τ → Progress τ ρ}
    {R : σ → τ → Prop} (hsim : ∀ s t, R s t → Simulates step₁ step₂ R s t) {s : σ} {t : τ}
    (h : R s t) (r : ρ) : (∃ n, Returns step₁ n s r) ↔ ∃ n, Returns step₂ n t r := by
  constructor
  · rintro ⟨n, hr⟩
    induction hr generalizing t with
    | done hdone =>
      obtain ⟨s', t', n, hrun, -⟩ | ⟨r', n, hdone', hr'⟩ := hsim _ _ h
      · rw [hdone] at hrun
        cases hrun
      · rw [hdone] at hdone'
        cases hdone'
        exact ⟨n, hr'⟩
    | run hrun _ ih =>
      obtain ⟨s', t', n, hrun', hreach, hR⟩ | ⟨r', n, hdone, -⟩ := hsim _ _ h
      · rw [hrun] at hrun'
        cases hrun'
        obtain ⟨m, hm⟩ := ih hR
        exact ⟨n + 1 + m, hreach.returns hm⟩
      · rw [hrun] at hdone
        cases hdone
  · rintro ⟨n, hr⟩
    -- the second machine has fewer steps left after every step of the first one
    induction n using Nat.strongRecOn generalizing s t with
    | ind n ih =>
      obtain ⟨s', t', k, hrun, hreach, hR⟩ | ⟨r', k, hdone, hr'⟩ := hsim _ _ h
      · obtain ⟨m, rfl, hm⟩ := hr.of_reaches hreach
        obtain ⟨n', hn'⟩ := ih m (by omega) hR hm
        exact ⟨n' + 1, .run hrun hn'⟩
      · cases hr.unique hr'
        exact ⟨0, .done hdone⟩

/-- The same if only the states that the first machine reaches are followed. -/
theorem returns_iff_of_simulation_along {step₁ : σ → Progress σ ρ} {step₂ : τ → Progress τ ρ}
    {R : σ → τ → Prop} {s : σ} {t : τ}
    (hsim : ∀ p q, (∃ n, Reaches step₁ n s p) → R p q → Simulates step₁ step₂ R p q)
    (h : R s t) (r : ρ) : (∃ n, Returns step₁ n s r) ↔ ∃ n, Returns step₂ n t r := by
  refine returns_iff_of_simulation (R := fun p q => (∃ n, Reaches step₁ n s p) ∧ R p q)
    (fun p q hpq => ?_) ⟨⟨0, .refl⟩, h⟩ r
  obtain ⟨n, hreach⟩ := hpq.1
  obtain ⟨p', q', k, hrun, hreach', hR⟩ | hdone := hsim p q ⟨n, hreach⟩ hpq.2
  · exact .inl ⟨p', q', k, hrun, hreach', ⟨n + 1, hreach.snoc hrun⟩, hR⟩
  · exact .inr hdone

end Vahi.Lib
