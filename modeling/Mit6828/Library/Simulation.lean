import Mathlib.Tactic.TypeStar

namespace Mit6828.Library.Simulation

variable {σ τ ε : Type*}

inductive Run (step : σ → Option ε → σ → Prop) (s : σ) : List ε → σ → Prop
  | refl : Run step s [] s
  | step {tr : List ε} {s' s'' : σ} {ev : Option ε} (hrun : Run step s tr s')
      (hstep : step s' ev s'') : Run step s (tr ++ ev.toList) s''

variable {step : σ → Option ε → σ → Prop} {step' : τ → Option ε → τ → Prop} {s s' s'' : σ}
  {tr tr' : List ε} {ev : Option ε}

namespace Run

theorem single (hstep : step s ev s') : Run step s ev.toList s' := .step .refl hstep

theorem trans (hrun : Run step s tr s') (hrun' : Run step s' tr' s'') :
    Run step s (tr ++ tr') s'' := by
  induction hrun' with
  | refl => rwa [List.append_nil]
  | step _ hstep ih =>
    rw [← List.append_assoc]
    exact ih.step hstep

theorem silent (hrun : Run step s tr s') (hstep : step s' none s'') : Run step s tr s'' := by
  have := hrun.step hstep
  rwa [Option.toList_none, List.append_nil] at this

/-- If every step is matched by a run with the same events, so is every run. -/
theorem simulate {R : σ → τ → Prop}
    (hR : ∀ s a ev s', R s a → step s ev s' → ∃ a', Run step' a ev.toList a' ∧ R s' a')
    (hrun : Run step s tr s') {a : τ} (ha : R s a) : ∃ a', Run step' a tr a' ∧ R s' a' := by
  induction hrun with
  | refl => exact ⟨a, .refl, ha⟩
  | step _ hstep ih =>
    obtain ⟨a1, hrun1, hrel1⟩ := ih
    obtain ⟨a2, hrun2, hrel2⟩ := hR _ _ _ _ hrel1 hstep
    exact ⟨a2, hrun1.trans hrun2, hrel2⟩

end Run

end Mit6828.Library.Simulation
