import Mathlib.Algebra.Order.BigOperators.Group.Finset
import Mathlib.Data.Fintype.BigOperators
import ResourceServer.Core.Transition

/-!
# Runs that end

A state from which the steps of a kind always come to an end, whatever order they
are taken in: by a rank in a well-founded order that each of them lowers. Such a
state has a run of these steps to one that has none left.
-/

namespace Transition

variable {σ α ρ : Type*} (step : σ → α → Option σ) (D : α → Prop)

/-- From `s` on, steps in `D` can be taken without end. -/
def Endless (s : σ) : Prop :=
  ∃ (u : Nat → σ) (as : Nat → α), u 0 = s ∧ ∀ n, D (as n) ∧ step (u n) (as n) = some (u (n + 1))

/-- From `s` on, steps in `D` come to an end. -/
def Terminates (s : σ) : Prop := Acc (fun t s => ∃ a, D a ∧ step s a = some t) s

variable {step D}

/-- Steps that keep `P` and lower a well-founded rank come to an end. -/
theorem terminates_of_rank {P : σ → Prop} {r : ρ → ρ → Prop} (hr : WellFounded r) (rank : σ → ρ)
    (hstep : ∀ s a t, P s → D a → step s a = some t → P t ∧ r (rank t) (rank s)) {s : σ}
    (hs : P s) : Terminates step D s := by
  induction hn : rank s using hr.induction generalizing s with
  | _ n ih =>
    refine Acc.intro s ?_
    rintro t ⟨a, ha, hat⟩
    obtain ⟨ht, hlt⟩ := hstep s a t hs ha hat
    exact ih (rank t) (hn ▸ hlt) ht rfl

/-- Fewer kinds of steps come to an end as well. -/
theorem Terminates.mono {E : α → Prop} (hE : ∀ a, E a → D a) {s : σ} (h : Terminates step D s) :
    Terminates step E s := by
  refine Subrelation.accessible ?_ h
  rintro t s ⟨a, ha, hat⟩
  exact ⟨a, hE a ha, hat⟩

/-- Steps that come to an end are not taken without end. -/
theorem Terminates.not_endless {s : σ} (h : Terminates step D s) : ¬ Endless step D s := by
  induction h with
  | intro s _ ih =>
    rintro ⟨u, as, rfl, hu⟩
    exact ih (u 1) ⟨as 0, hu 0⟩ ⟨fun n => u (n + 1), fun n => as (n + 1), rfl, fun n => hu (n + 1)⟩

/-- Where steps come to an end, some of them lead to a state without any. -/
theorem Terminates.exists_run {s : σ} (h : Terminates step D s) :
    ∃ as t, (∀ a ∈ as, D a) ∧ run step s as = some t ∧ ∀ a, D a → step t a = none := by
  induction h with
  | intro s _ ih =>
    by_cases hstuck : ∀ a, D a → step s a = none
    · exact ⟨[], s, fun a ha => absurd ha List.not_mem_nil, rfl, hstuck⟩
    · simp only [not_forall] at hstuck
      obtain ⟨a, ha, hne⟩ := hstuck
      obtain ⟨t, ht⟩ := Option.ne_none_iff_exists'.mp hne
      obtain ⟨as, u, has, hu, hend⟩ := ih t ⟨a, ha, ht⟩
      refine ⟨a :: as, u, ?_, run_cons_eq_some.mpr ⟨t, ht, hu⟩, hend⟩
      rintro b hb
      rcases List.mem_cons.mp hb with rfl | hb
      · exact ha
      · exact has b hb

/-- The total of a measure over all components, when one of them is lowered and the others stay. -/
theorem sum_lt_of_component {ι : Type*} [Fintype ι] {f g : ι → Nat} (i : ι) (hi : g i < f i)
    (hother : ∀ j, j ≠ i → g j = f j) : ∑ j, g j < ∑ j, f j := by
  refine Finset.sum_lt_sum (fun j _ => ?_) ⟨i, Finset.mem_univ i, hi⟩
  by_cases hj : j = i
  · exact hj ▸ Nat.le_of_lt hi
  · exact Nat.le_of_eq (hother j hj)

end Transition
