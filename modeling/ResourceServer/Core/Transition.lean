import Mathlib.Data.List.Induction
import Mathlib.Tactic.Common

/-!
# Runs of partial labelled steps

A system is a partial function `step : σ → α → Option σ`: `step s a = none` says
that action `a` is not enabled in `s`. Interleavings are lists of actions, so a
property of every schedule is a property of every list. Invariants are proved
once per action and lifted here to whole runs, with or without a side condition
on the steps taken, and with or without a reference to the actions seen so far.
-/

namespace Transition

variable {σ α : Type*} (step : σ → α → Option σ)

/-- Take the listed actions one after another; `none` once one of them is not enabled. -/
def run : σ → List α → Option σ
  | s, [] => some s
  | s, a :: as => (step s a).bind fun t => run t as

/-- Every action of the list satisfies `C` in the state in which it is taken. -/
def Along (C : σ → α → Prop) : σ → List α → Prop
  | _, [] => True
  | s, a :: as => C s a ∧ ∀ t, step s a = some t → Along C t as

/-- What `out` makes of the steps taken, in their order. -/
def outputs {β : Type*} (out : σ → α → σ → List β) : σ → List α → List β
  | _, [] => []
  | s, a :: as => (step s a).elim [] fun t => out s a t ++ outputs out t as

variable {step}

@[simp] theorem run_nil (s : σ) : run step s [] = some s := rfl

/-- A run begins with its first step. -/
theorem run_cons (s : σ) (a : α) (as : List α) :
    run step s (a :: as) = (step s a).bind fun t => run step t as := rfl

/-- A nonempty run is a first step and a run from its target. -/
theorem run_cons_eq_some {s u : σ} {a : α} {as : List α} :
    run step s (a :: as) = some u ↔ ∃ t, step s a = some t ∧ run step t as = some u := by
  rw [run_cons, Option.bind_eq_some_iff]

/-- Running two schedules in a row is running their concatenation. -/
theorem run_append (s : σ) (as bs : List α) :
    run step s (as ++ bs) = (run step s as).bind fun t => run step t bs := by
  induction as generalizing s with
  | nil => rfl
  | cons a as ih =>
    rw [List.cons_append, run_cons, run_cons]
    cases step s a with
    | none => rfl
    | some t => exact ih t

/-- A run of two schedules in turn is a run of either. -/
theorem run_append_eq_some {s u : σ} {as bs : List α} :
    run step s (as ++ bs) = some u ↔
      ∃ t, run step s as = some t ∧ run step t bs = some u := by
  rw [run_append, Option.bind_eq_some_iff]

/-- The last step of a run is a step out of a state the shorter run reaches. -/
theorem run_snoc_eq_some {s u : σ} {as : List α} {a : α} :
    run step s (as ++ [a]) = some u ↔ ∃ t, run step s as = some t ∧ step t a = some u := by
  rw [run_append_eq_some]
  simp only [run_cons_eq_some, run_nil, Option.some.injEq, exists_eq_right]

/-- A decidable side condition can be checked along a concrete schedule. -/
instance decidableAlong (C : σ → α → Prop) [∀ s a, Decidable (C s a)] :
    (s : σ) → (as : List α) → Decidable (Along step C s as)
  | _, [] => isTrue trivial
  | s, a :: as =>
    match h : step s a with
    | none => decidable_of_iff (C s a) (by simp [Along, h])
    | some t =>
      have := decidableAlong C t as
      decidable_of_iff (C s a ∧ Along step C t as) (by simp [Along, h])

/-- The side condition of a run is that of its first step and of the rest. -/
theorem along_cons {C : σ → α → Prop} {s t : σ} {a : α} {as : List α} (h : step s a = some t) :
    Along step C s (a :: as) ↔ C s a ∧ Along step C t as := by
  simp only [Along, h, Option.some.injEq, forall_eq']

/-- The side condition of two runs in a row is that of each of them. -/
theorem along_append {C : σ → α → Prop} {s t : σ} {as bs : List α} (h : run step s as = some t) :
    Along step C s (as ++ bs) ↔ Along step C s as ∧ Along step C t bs := by
  induction as generalizing s with
  | nil =>
    rw [run_nil, Option.some.injEq] at h
    subst h
    simp [Along]
  | cons b as ih =>
    obtain ⟨u, hb, hu⟩ := run_cons_eq_some.mp h
    simp only [List.cons_append, Along, hb, Option.some.injEq, forall_eq', ih hu, and_assoc]

/-- The side condition of a longer run is that of the shorter run and of the last step. -/
theorem along_snoc {C : σ → α → Prop} {s t : σ} {as : List α} {a : α}
    (h : run step s as = some t) :
    Along step C s (as ++ [a]) ↔ Along step C s as ∧ C t a := by
  rw [along_append h]
  exact and_congr_right fun _ => ⟨fun hb => hb.1, fun hb => ⟨hb, fun _ _ => trivial⟩⟩

/-- A relation between the actions taken and the state reached, kept by the steps
that meet the side condition, holds of every run whose steps all meet it. -/
theorem run_history_along {C : σ → α → Prop} {P : List α → σ → Prop} {init s : σ}
    (h0 : P [] init)
    (hstep : ∀ as s a t, P as s → C s a → step s a = some t → P (as ++ [a]) t) {as : List α}
    (hC : Along step C init as) (h : run step init as = some s) : P as s := by
  induction as using List.reverseRecOn generalizing s with
  | nil =>
    rw [run_nil, Option.some.injEq] at h
    exact h ▸ h0
  | append_singleton as a ih =>
    obtain ⟨t, ht, ha⟩ := run_snoc_eq_some.mp h
    obtain ⟨hCs, hCa⟩ := (along_snoc ht).mp hC
    exact hstep as t a s (ih hCs ht) hCa ha

/-- A weaker condition holds along every run that a stronger one holds along. -/
theorem Along.mono {C D : σ → α → Prop} (h : ∀ s a, C s a → D s a) {s : σ} {as : List α}
    (hC : Along step C s as) : Along step D s as := by
  induction as generalizing s with
  | nil => trivial
  | cons a as ih => exact ⟨h s a hC.1, fun t ht => ih (hC.2 t ht)⟩

/-- A condition that holds of the listed actions in every state holds along the run. -/
theorem along_of_mem {C : σ → α → Prop} {as : List α} (h : ∀ a ∈ as, ∀ s, C s a) (s : σ) :
    Along step C s as := by
  induction as generalizing s with
  | nil => trivial
  | cons a as ih =>
    exact ⟨h a List.mem_cons_self s, fun t _ => ih (fun b hb => h b (List.mem_cons_of_mem a hb)) t⟩

/-- A relation between the actions taken and the state reached, kept by every
single step, holds of every run. -/
theorem run_history {P : List α → σ → Prop} {init s : σ} (h0 : P [] init)
    (hstep : ∀ as s a t, P as s → step s a = some t → P (as ++ [a]) t) {as : List α}
    (h : run step init as = some s) : P as s :=
  run_history_along (C := fun _ _ => True) h0 (fun as s a t hP _ => hstep as s a t hP)
    (along_of_mem (fun _ _ _ => trivial) init) h

/-- A predicate kept by every single step holds of every run. -/
theorem run_invariant {P : σ → Prop} {init s : σ} (h0 : P init)
    (hstep : ∀ s a t, P s → step s a = some t → P t) {as : List α}
    (h : run step init as = some s) : P s :=
  run_history (P := fun _ => P) h0 (fun _ s a t => hstep s a t) h

/-- A predicate kept by the steps that meet the side condition holds of every
run whose steps all meet it. -/
theorem run_invariant_along {C : σ → α → Prop} {P : σ → Prop} {init s : σ} (h0 : P init)
    (hstep : ∀ s a t, P s → C s a → step s a = some t → P t) {as : List α}
    (hC : Along step C init as) (h : run step init as = some s) : P s :=
  run_history_along (P := fun _ => P) h0 (fun _ s a t => hstep s a t) hC h

/-- The outputs of a first step come before those of the rest. -/
theorem outputs_cons {β : Type*} (out : σ → α → σ → List β) {s t : σ} {a : α} {as : List α}
    (h : step s a = some t) :
    outputs step out s (a :: as) = out s a t ++ outputs step out t as := by
  rw [outputs, h, Option.elim_some]

/-- A log that every step inside an invariant extends by its output is, behind a run, the
outputs of its steps. -/
theorem run_outputs {β : Type*} {out : σ → α → σ → List β} {P : σ → Prop} (log : σ → List β)
    (hstep : ∀ s a t, P s → step s a = some t → P t ∧ log t = log s ++ out s a t) {s u : σ}
    {as : List α} (hs : P s) (h : run step s as = some u) :
    log u = log s ++ outputs step out s as := by
  induction as generalizing s with
  | nil =>
    rw [run_nil, Option.some.injEq] at h
    rw [← h, outputs, List.append_nil]
  | cons a as ih =>
    obtain ⟨t, ha, ht⟩ := run_cons_eq_some.mp h
    obtain ⟨hP, hlog⟩ := hstep s a t hs ha
    rw [ih hP ht, hlog, outputs_cons out ha, List.append_assoc]

/-- When the side condition keeps a run inside `Q`, when the actions in `D` meet it
always, and when every step that breaks it can be followed by actions in `D` that
leave `Q`, then a run meets it exactly if none of its moments can be followed so. -/
theorem along_iff_never {C : σ → α → Prop} {Q : σ → Prop} {D : α → Prop} {init s : σ}
    {as : List α} (hD : ∀ a, D a → ∀ t, C t a)
    (hsafe : ∀ bs t, Along step C init bs → run step init bs = some t → Q t)
    (hbreak : ∀ bs t a u, run step init bs = some t → step t a = some u → ¬ C t a →
      ∃ cs v, (∀ c ∈ cs, D c) ∧ run step u cs = some v ∧ ¬ Q v)
    (h : run step init as = some s) :
    Along step C init as ↔ ∀ bs cs t, bs <+: as → (∀ a ∈ cs, D a) →
      run step init (bs ++ cs) = some t → Q t := by
  constructor
  · rintro hC bs cs t ⟨ds, rfl⟩ hcs ht
    obtain ⟨u, hu, _⟩ := run_append_eq_some.mp ht
    have hbs := ((along_append hu).mp hC).1
    exact hsafe _ t ((along_append hu).mpr ⟨hbs, along_of_mem (fun a ha => hD a (hcs a ha)) u⟩) ht
  · intro hQ
    induction as using List.reverseRecOn generalizing s with
    | nil => trivial
    | append_singleton as a ih =>
      obtain ⟨u, hu, ha⟩ := run_snoc_eq_some.mp h
      refine (along_snoc hu).mpr ⟨ih hu fun bs cs t hbs => ?_, ?_⟩
      · exact hQ bs cs t (hbs.trans (List.prefix_append _ _))
      · by_contra hCa
        obtain ⟨cs, v, hcs, hv, hbad⟩ := hbreak as u a s hu ha hCa
        exact hbad (hQ _ cs v List.prefix_rfl hcs (run_append_eq_some.mpr ⟨s, h, hv⟩))

/-- When the side condition keeps a run inside `Q` and a step that breaks it leaves `Q` at
once, a run meets it exactly if all its moments are in `Q`. -/
theorem along_iff_prefixes {C : σ → α → Prop} {Q : σ → Prop} {init s : σ} {as : List α}
    (hsafe : ∀ bs t, Along step C init bs → run step init bs = some t → Q t)
    (hbreak : ∀ t a u, step t a = some u → ¬ C t a → ¬ Q u) (h : run step init as = some s) :
    Along step C init as ↔ ∀ bs t, bs <+: as → run step init bs = some t → Q t := by
  rw [along_iff_never (D := fun _ => False) (fun _ ha => ha.elim) hsafe _ h]
  · constructor
    · intro hQ bs t hbs ht
      refine hQ bs [] t hbs (fun _ ha => absurd ha List.not_mem_nil) ?_
      rwa [List.append_nil]
    · intro hQ bs cs t hbs hcs ht
      rw [List.eq_nil_iff_forall_not_mem.mpr hcs, List.append_nil] at ht
      exact hQ bs t hbs ht
  · exact fun bs t a u _ hu hCa => ⟨[], u, fun _ ha => absurd ha List.not_mem_nil, rfl,
      hbreak t a u hu hCa⟩

/-- When steps are taken inside `Q` only, and stay there exactly if they meet the side
condition, a run has stayed in `Q` exactly if it meets the condition all along. -/
theorem iff_along_of_step {C : σ → α → Prop} {P Q : σ → Prop} {init s : σ} {as : List α}
    (hP : ∀ bs t, run step init bs = some t → P t) (h0 : Q init)
    (hstep : ∀ t a u, P t → step t a = some u → Q t ∧ (Q u ↔ C t a))
    (h : run step init as = some s) : Q s ↔ Along step C init as := by
  induction as using List.reverseRecOn generalizing s with
  | nil =>
    rw [run_nil, Option.some.injEq] at h
    subst h
    exact iff_of_true h0 trivial
  | append_singleton as a ih =>
    obtain ⟨t, ht, ha⟩ := run_snoc_eq_some.mp h
    obtain ⟨hQ, hiff⟩ := hstep t a s (hP as t ht) ha
    rw [along_snoc ht, hiff]
    exact (and_iff_right ((ih ht).mp hQ)).symm

/-- Where a state that is not there yet has a step in `D` that keeps `P` and is measured
lower, steps in `D` lead there. -/
theorem exists_run_of_decreasing {P goal : σ → Prop} {D : α → Prop} (measure : σ → Nat)
    (hstep : ∀ s, P s → ¬ goal s →
      ∃ a t, D a ∧ step s a = some t ∧ P t ∧ measure t < measure s) {s : σ} (hs : P s) :
    ∃ as t, (∀ a ∈ as, D a) ∧ run step s as = some t ∧ P t ∧ goal t := by
  induction hn : measure s using Nat.strongRecOn generalizing s with
  | ind n ih =>
    by_cases hgoal : goal s
    · exact ⟨[], s, fun a ha => absurd ha List.not_mem_nil, rfl, hs, hgoal⟩
    · obtain ⟨a, t, ha, hat, ht, hlt⟩ := hstep s hs hgoal
      obtain ⟨as, u, has, hu, hPu, hgu⟩ := ih (measure t) (hn ▸ hlt) ht rfl
      refine ⟨a :: as, u, ?_, run_cons_eq_some.mpr ⟨t, hat, hu⟩, hPu, hgu⟩
      rintro b hb
      rcases List.mem_cons.mp hb with rfl | hb
      · exact ha
      · exact has b hb

end Transition
