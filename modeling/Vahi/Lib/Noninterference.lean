import Vahi.Lib.Run

/-!
# Steps that an observer does not see

If hidden steps lead to states that look the same, and the other steps keep it so, then an observer
sees the same in a run and in the run without its hidden steps.
-/

namespace Vahi.Lib

variable {σ ε β : Type*} (step : σ → ε → σ) (hidden : ε → Bool) (view : σ → β)

def observed : σ → List ε → List β
  | _, [] => []
  | s, e :: es =>
    if hidden e then observed (step s e) es else view (step s e) :: observed (step s e) es

variable {step hidden view}

/-- The rule of unwinding: `R` relates the states of the two runs. Hidden steps need only keep it
where they meet `C`. -/
theorem observed_filter {R : σ → σ → Prop} {C : σ → ε → Prop}
    (hview : ∀ s t, R s t → view s = view t)
    (hshown : ∀ s t e, hidden e = false → R s t → R (step s e) (step t e))
    (hhidden : ∀ s t e, hidden e = true → C s e → R s t → R (step s e) t)
    {s t : σ} {es : List ε} (h : R s t) (hC : Along step C s es) :
    observed step hidden view s es = observed step hidden view t (es.filter fun e => !hidden e) := by
  induction es generalizing s t with
  | nil => rfl
  | cons e es ih =>
    cases he : hidden e with
    | true =>
      rw [observed, if_pos he, List.filter_cons_of_neg (by simp [he])]
      exact ih (hhidden s t e he hC.1 h) hC.2
    | false =>
      have hnext := hshown s t e he h
      rw [List.filter_cons_of_pos (by simp [he]), observed, observed, he, hview _ _ hnext,
        ih hnext hC.2]

end Vahi.Lib
