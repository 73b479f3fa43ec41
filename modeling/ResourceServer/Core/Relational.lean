import Mathlib.Tactic.Common

/-!
# Two runs of a program

Programs with a state and exceptions, from two states that a relation connects: they
are related when they end with one result, in related states. What a program does not
look at cannot separate its runs, so a program is related to itself by every relation
that its primitive steps respect.
-/

namespace Relational

variable {ε σ τ α β : Type}

/-- Related initial states lead to the same result in related states. -/
def Related (R : σ → τ → Prop) (x : ExceptT ε (StateM σ) α) (y : ExceptT ε (StateM τ) α) : Prop :=
  ∀ s t, R s t → (x.run s).1 = (y.run t).1 ∧ R (x.run s).2 (y.run t).2

variable {R : σ → τ → Prop}

/-- The same value is returned in related states. -/
theorem related_pure (a : α) :
    Related R (pure a : ExceptT ε (StateM σ) α) (pure a : ExceptT ε (StateM τ) α) :=
  fun _ _ h => ⟨rfl, h⟩

/-- The same error is thrown in related states. -/
theorem related_throw (e : ε) :
    Related R (throw e : ExceptT ε (StateM σ) α) (throw e : ExceptT ε (StateM τ) α) :=
  fun _ _ h => ⟨rfl, h⟩

/-- A computation without a state is related to itself. -/
theorem related_lift (x : Except ε α) :
    Related R (liftM x : ExceptT ε (StateM σ) α) (liftM x : ExceptT ε (StateM τ) α) :=
  fun _ _ h => by cases x <;> exact ⟨rfl, h⟩

/-- Updates of the states that keep them related. -/
theorem related_modify {f : σ → σ} {g : τ → τ} (h : ∀ s t, R s t → R (f s) (g t)) :
    Related R (modify f : ExceptT ε (StateM σ) PUnit) (modify g : ExceptT ε (StateM τ) PUnit) :=
  fun s t hst => ⟨rfl, h s t hst⟩

/-- The first results agree, so the continuations are those of one value. -/
theorem Related.bind {x : ExceptT ε (StateM σ) α} {y : ExceptT ε (StateM τ) α}
    {f : α → ExceptT ε (StateM σ) β} {g : α → ExceptT ε (StateM τ) β} (hx : Related R x y)
    (hf : ∀ a, Related R (f a) (g a)) : Related R (x >>= f) (y >>= g) := by
  intro s t hst
  obtain ⟨hresult, hstates⟩ := hx s t hst
  change ((ExceptT.bindCont f (x.run s).1).run (x.run s).2).1 =
      ((ExceptT.bindCont g (y.run t).1).run (y.run t).2).1 ∧
    R ((ExceptT.bindCont f (x.run s).1).run (x.run s).2).2
      ((ExceptT.bindCont g (y.run t).1).run (y.run t).2).2
  rw [← hresult]
  cases (x.run s).1 with
  | ok a => exact hf a _ _ hstates
  | error e => exact ⟨rfl, hstates⟩

/-- Continuations that are given the states themselves. -/
theorem Related.get_bind {f : σ → ExceptT ε (StateM σ) β} {g : τ → ExceptT ε (StateM τ) β}
    (h : ∀ s t, R s t → Related R (f s) (g t)) :
    Related R (get >>= f : ExceptT ε (StateM σ) β) (get >>= g : ExceptT ε (StateM τ) β) :=
  fun s t hst => h s t hst s t hst

/-- Two functions of one value, which may be missing. -/
theorem rel_map {P : α → β → Prop} {f : τ → α} {g : τ → β} (o : Option τ)
    (h : ∀ x ∈ o, P (f x) (g x)) : Option.Rel P (o.map f) (o.map g) := by
  cases o with
  | none => exact .none
  | some x => exact .some (h x rfl)

/-- Where one of two related values is there, the other is. -/
theorem exists_of_rel {P : α → β → Prop} {o : Option α} {o' : Option β} (h : Option.Rel P o o') :
    (∀ a ∈ o, ∃ b ∈ o', P a b) ∧ ∀ b ∈ o', ∃ a ∈ o, P a b := by
  cases h with
  | none => exact ⟨fun _ ha => absurd ha (Option.not_mem_none _),
      fun _ hb => absurd hb (Option.not_mem_none _)⟩
  | some hab =>
    constructor
    · rintro _ ⟨⟩
      exact ⟨_, rfl, hab⟩
    · rintro _ ⟨⟩
      exact ⟨_, rfl, hab⟩

end Relational
