import ResourceServer.Core.Transition

/-!
# Runs that follow runs

A run of one system is followed by a run of another when every step, from related
states, is followed by some steps of the other into related states. The relation
speaks of both histories, so that it can say what has been done, not only where it
has led.
-/

namespace Transition

variable {σ α τ β : Type*} {step : σ → α → Option σ}

/-- Steps that meet the side condition and are followed one by one are followed all along. -/
theorem exists_run_of_follows (step' : τ → β → Option τ) {C : σ → α → Prop}
    {R : List α → σ → List β → τ → Prop} {init s : σ} {init' : τ} (h0 : R [] init [] init')
    (hstep : ∀ as s bs u a t, R as s bs u → C s a → step s a = some t →
      ∃ cs v, run step' u cs = some v ∧ R (as ++ [a]) t (bs ++ cs) v)
    {as : List α} (hC : Along step C init as) (h : run step init as = some s) :
    ∃ bs u, run step' init' bs = some u ∧ R as s bs u := by
  refine run_history_along (P := fun as s => ∃ bs u, run step' init' bs = some u ∧ R as s bs u)
    ⟨[], init', rfl, h0⟩ ?_ hC h
  rintro as s a t ⟨bs, u, hu, hR⟩ ha hat
  obtain ⟨cs, v, hv, hR'⟩ := hstep as s bs u a t hR ha hat
  exact ⟨bs ++ cs, v, run_append_eq_some.mpr ⟨u, hu, hv⟩, hR'⟩

end Transition
