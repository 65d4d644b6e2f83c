import Vahi.Lib.Outcome

/-!
# Fallible loops over a state

A computation may end early with an error and keep what it did. For a property that cannot be
regained once lost, the rules reduce "it returns in a state with `P`" to a condition on the state
before each step.
-/

namespace Vahi.Lib

variable {α ε σ : Type}

/-- A computation on a state that may stop with an error. -/
abbrev Fallible (ε σ : Type) := σ → Outcome (σ × Option ε)

def Fallible.seq (f g : Fallible ε σ) : Fallible ε σ := fun s => do
  match ← f s with
  | (s', some e) => .ok (s', some e)
  | (s', none) => g s'

def forEach (step : α → Fallible ε σ) : List α → Fallible ε σ
  | [] => fun s => .ok (s, none)
  | a :: l => (step a).seq (forEach step l)

def Ends (P : σ → Prop) (r : Outcome (σ × Option ε)) : Prop :=
  ∃ s' e, r = .ok (s', e) ∧ P s'

/-- `C` holds before every step of the loop that is reached. -/
def AllSteps (step : α → Fallible ε σ) (C : α → σ → Prop) : List α → σ → Prop
  | [], _ => True
  | a :: l, s => C a s ∧ ∀ s', step a s = .ok (s', none) → AllSteps step C l s'

@[simp] theorem ends_ok (P : σ → Prop) (s : σ) (e : Option ε) : Ends P (.ok (s, e)) ↔ P s := by
  simp [Ends]

@[simp] theorem not_ends_panic (P : σ → Prop) : ¬ Ends P (.panic : Outcome (σ × Option ε)) := by
  simp [Ends]

variable {f g : Fallible ε σ} {s s' : σ} {e : Option ε} {step : α → Fallible ε σ} {l : List α}
  {P : σ → Prop} {C : α → σ → Prop}

/-- How a sequence returns: with the first error, or with what the second part does. -/
theorem seq_eq_ok : f.seq g s = .ok (s', e) ↔
      (∃ e', e = some e' ∧ f s = .ok (s', some e')) ∨
        ∃ s₁, f s = .ok (s₁, none) ∧ g s₁ = .ok (s', e) := by
  unfold Fallible.seq
  cases hf : f s with
  | ok r =>
    obtain ⟨s₁, e₁⟩ := r
    cases e₁ with
    | none => simp
    | some e₁ =>
      simp only [Outcome.ok_bind, Outcome.ok.injEq, Prod.mk.injEq, Option.some.injEq, reduceCtorEq,
        and_false, false_and, exists_false, or_false]
      constructor
      · rintro ⟨rfl, rfl⟩
        exact ⟨e₁, rfl, rfl, rfl⟩
      · rintro ⟨e', rfl, rfl, rfl⟩
        exact ⟨rfl, rfl⟩
  | panic => simp
  | hang => simp

/-- A reflexive and transitive relation that each step keeps between the state before
and after is kept by the loop. -/
theorem forEach_rel {R : σ → σ → Prop} (hrefl : ∀ s, R s s)
    (htrans : ∀ s₁ s₂ s₃, R s₁ s₂ → R s₂ s₃ → R s₁ s₃)
    (hstep : ∀ a s s' e, step a s = .ok (s', e) → R s s')
    (h : forEach step l s = .ok (s', e)) : R s s' := by
  induction l generalizing s with
  | nil =>
    cases h
    exact hrefl _
  | cons a l ih =>
    obtain ⟨e', -, ha⟩ | ⟨s₁, ha, hl⟩ := seq_eq_ok.mp h
    · exact hstep a s s' _ ha
    · exact htrans s s₁ s' (hstep a s s₁ _ ha) (ih hl)

/-- Sequencing rule, for a property that the second part cannot regain. -/
theorem seq_ends_iff {C D : σ → Prop} (hback : ∀ s s' e, g s = .ok (s', e) → P s' → P s)
    (hf : Ends P (f s) ↔ C s) (hg : ∀ s', f s = .ok (s', none) → P s' → (Ends P (g s') ↔ D s')) :
    Ends P (f.seq g s) ↔ C s ∧ ∀ s', f s = .ok (s', none) → D s' := by
  constructor
  · rintro ⟨s', e, h, hP⟩
    obtain ⟨e', -, hfs⟩ | ⟨s₁, hfs, hgs⟩ := seq_eq_ok.mp h
    · refine ⟨hf.mp ⟨s', _, hfs, hP⟩, fun s₂ hs₂ => ?_⟩
      rw [hfs] at hs₂
      cases hs₂
    have hP₁ := hback s₁ s' e hgs hP
    refine ⟨hf.mp ⟨s₁, _, hfs, hP₁⟩, fun s₂ hs₂ => ?_⟩
    rw [hfs] at hs₂
    cases hs₂
    exact (hg s₁ hfs hP₁).mp ⟨s', e, hgs, hP⟩
  · rintro ⟨hC, hD⟩
    obtain ⟨s₁, e₁, hfs, hP₁⟩ := hf.mpr hC
    cases e₁ with
    | some e₁ => exact ⟨s₁, some e₁, seq_eq_ok.mpr (.inl ⟨e₁, rfl, hfs⟩), hP₁⟩
    | none =>
      obtain ⟨s', e, hgs, hP⟩ := (hg s₁ hfs hP₁).mpr (hD s₁ hfs)
      exact ⟨s', e, seq_eq_ok.mpr (.inr ⟨s₁, hfs, hgs⟩), hP⟩

/-- Loop rule: the loop returns in a state with `P` exactly if the condition of each
step holds before it. -/
theorem forEach_ends_iff (hback : ∀ a s s' e, step a s = .ok (s', e) → P s' → P s)
    (hstep : ∀ a s, P s → (Ends P (step a s) ↔ C a s)) (l : List α) (hs : P s) :
    Ends P (forEach step l s) ↔ AllSteps step C l s := by
  induction l generalizing s with
  | nil => simpa [forEach, AllSteps] using hs
  | cons a l ih =>
    refine seq_ends_iff (C := C a) ?_ (hstep a s hs) fun s' _ hs' => ih hs'
    intro s₁ s₂ e h
    exact forEach_rel (fun _ h => h) (fun _ _ _ h₁ h₂ h => h₁ (h₂ h)) hback h

end Vahi.Lib
