import Mathlib.Data.Fintype.Basic
import ResourceServer.Native.Process
import ResourceServer.Serving.Lifetime

/-!
# Sessions and the life of their server

The server lives exactly as long as the main context. A session that has an
operation in flight when that context is destroyed, or is sent something behind it,
fails sooner or later and calls `clear_session` on a server that is gone; where
there is no such session no call comes too late.
-/

namespace ResourceServer

open Transition

variable {ι : Type*}

/-- An operation is in flight, or its handler is about to call `clear_session`. -/
def Connection.Busy (c : Connection) (op : SessionOp) : Prop :=
  c.handler op = .pending ∨ c.handler op = .closed

instance (c : Connection) (op : SessionOp) : Decidable (c.Busy op) :=
  inferInstanceAs (Decidable (_ ∨ _))

/-- The side condition on steps: the main context is destroyed with no session's handler
to come, and nothing is sent behind that. -/
def QuietStop (s : Process ι) : ProcessAction ι → Prop
  | .destroy => ∀ i, ¬ (s.registry.conns i).Busy .read ∧ ¬ (s.registry.conns i).Busy .write
  | .serve (.write _) => s.main ≠ .destroyed
  | _ => True

instance [Fintype ι] (s : Process ι) (a : ProcessAction ι) : Decidable (QuietStop s a) :=
  match a with
  | .destroy => inferInstanceAs (Decidable
      (∀ i, ¬ (s.registry.conns i).Busy .read ∧ ¬ (s.registry.conns i).Busy .write))
  | .serve (.write _) => inferInstanceAs (Decidable (s.main ≠ .destroyed))
  | .serve .acceptError | .serve (.start _) | .serve .insert | .serve (.written _)
  | .serve (.close _ _) | .serve (.clear _ _) | .stop => isTrue trivial

/-- The steps of a session that fails. -/
def ProcessAction.Failing : ProcessAction ι → Prop
  | .serve (.close _ _) | .serve (.clear _ _) => True
  | _ => False

namespace Process

/-- Every call of `clear_session` found its server. -/
def CallsAlive (s : Process ι) : Prop := ∀ alive ∈ s.calls, alive = true

/-- The owner of the server: the handler that is pending or running, until the main
context is destroyed. -/
structure Owned (s : Process ι) : Prop where
  destroyed : s.main = .destroyed → s.owners = []
  idle : s.main ≠ .destroyed → s.registry.accepting = none → s.owners = [.pendingAccept]
  accepting : s.registry.accepting ≠ none → s.main = .running ∧ s.owners = [.runningAccept]

/-- Nothing is owned before the server is made. -/
theorem owned_init : Owned (init : Process ι) where
  destroyed h := by simp [init] at h
  idle _ _ := rfl
  accepting h := absurd rfl h

/-- The server lives as long as the main context. -/
theorem Owned.alive_iff {s : Process ι} (h : Owned s) : s.Alive ↔ s.main ≠ .destroyed := by
  constructor
  · exact fun halive hdestroyed => halive (h.destroyed hdestroyed)
  · intro hmain
    by_cases hnone : s.registry.accepting = none
    · simp [Alive, h.idle hmain hnone]
    · simp [Alive, (h.accepting hnone).2]

/-- What holds while the main context is destroyed behind the sessions. -/
structure Quiet (s : Process ι) : Prop where
  idle : s.main = .destroyed → ∀ i op, ¬ (s.registry.conns i).Busy op
  calls : s.CallsAlive

/-- Nothing is in flight at first. -/
theorem quiet_init : Quiet (init : Process ι) where
  idle h := by simp [init] at h
  calls := by simp [CallsAlive, init]

variable [DecidableEq ι]

/-- Sessions do not touch the accept handler. -/
theorem accepting_of_step {s t : Registry ι} {a : RegistryAction ι} (ha : ¬ a.OnMain)
    (hs : s.step a = some t) : t.accepting = s.accepting := by
  cases a with
  | acceptError | start i | insert => exact absurd trivial ha
  | write i | written i | close i op | clear i op =>
    obtain ⟨_, ⟨⟩⟩ := Option.ite_none_right_eq_some.mp hs
    rfl

/-- An operation is in flight behind a step that begins it, and otherwise only where it
was in flight before. -/
theorem busy_of_step {s t : Registry ι} {a : RegistryAction ι} (hs : s.step a = some t) {i : ι}
    {op : SessionOp} (hbusy : (t.conns i).Busy op) :
    (s.conns i).Busy op ∨ a.OnMain ∨ a = .write i := by
  cases a with
  | acceptError | start j | insert => exact Or.inr (Or.inl trivial)
  | write j =>
    obtain ⟨_, ⟨⟩⟩ := Option.ite_none_right_eq_some.mp hs
    rw [Connection.Busy, Registry.handler_setHandler] at hbusy
    split at hbusy
    · rename_i heq
      exact Or.inr (Or.inr (by rw [heq.1]))
    · exact Or.inl hbusy
  | written j =>
    obtain ⟨_, ⟨⟩⟩ := Option.ite_none_right_eq_some.mp hs
    rw [Connection.Busy, Registry.handler_setHandler] at hbusy
    split at hbusy
    · simp at hbusy
    · exact Or.inl hbusy
  | close j op' =>
    obtain ⟨hpending, ⟨⟩⟩ := Option.ite_none_right_eq_some.mp hs
    rw [Connection.Busy, Registry.handler_close, Registry.handler_setHandler] at hbusy
    split at hbusy
    · rename_i heq
      rw [heq.1, heq.2]
      exact Or.inl (Or.inl hpending)
    · exact Or.inl hbusy
  | clear j op' =>
    obtain ⟨_, ⟨⟩⟩ := Option.ite_none_right_eq_some.mp hs
    rw [Connection.Busy, Registry.handler_setHandler] at hbusy
    split at hbusy
    · simp at hbusy
    · exact Or.inl hbusy

/-- Every step hands the server on to its next owner. -/
theorem Owned.step {s t : Process ι} {a : ProcessAction ι} (h : Owned s)
    (hs : s.step a = some t) : Owned t := by
  cases a with
  | stop =>
    obtain ⟨⟨hrunning, hnone⟩, ⟨⟩⟩ := Option.ite_none_right_eq_some.mp hs
    have hidle := h.idle (by simp [hrunning]) hnone
    exact ⟨by simp, fun _ _ => hidle, fun hne => absurd hnone hne⟩
  | destroy =>
    obtain ⟨hstopped, ⟨⟩⟩ := Option.ite_none_right_eq_some.mp hs
    have hnone : s.registry.accepting = none := by
      by_contra hne
      have hrunning := (h.accepting hne).1
      simp [hstopped] at hrunning
    have hidle := h.idle (by simp [hstopped]) hnone
    refine ⟨fun _ => by simp [Process.destroy, hidle], by simp [Process.destroy], fun hne => ?_⟩
    refine absurd ?_ hne
    simp only [Process.destroy]
    split <;> exact hnone
  | serve a =>
    obtain ⟨hguard, hs⟩ := Option.ite_none_left_eq_some.mp hs
    obtain ⟨r, hr, rfl⟩ := Option.map_eq_some_iff.mp hs
    by_cases hmain : a.OnMain
    · have hrunning : s.main = .running := by simpa [hmain] using hguard
      refine ⟨by simp [hrunning], ?_, ?_⟩
      · cases a with
        | write i | written i | close i op | clear i op => exact hmain.elim
        | acceptError =>
          obtain ⟨hnone, ⟨⟩⟩ := Option.ite_none_right_eq_some.mp hr
          intro _ _
          simp [RegistryAction.owners, h.idle (by simp [hrunning]) hnone, beginAccept,
            startAccept, endAccept]
        | start i =>
          obtain ⟨_, ⟨⟩⟩ := Option.ite_none_right_eq_some.mp hr
          simp
        | insert =>
          obtain ⟨i, hi, rfl⟩ := Option.map_eq_some_iff.mp hr
          intro _ _
          simp [RegistryAction.owners, (h.accepting (by simp [hi])).2, startAccept, endAccept]
      · intro hne
        refine ⟨hrunning, ?_⟩
        cases a with
        | write i | written i | close i op | clear i op => exact hmain.elim
        | acceptError =>
          obtain ⟨hnone, ⟨⟩⟩ := Option.ite_none_right_eq_some.mp hr
          exact absurd hnone hne
        | start i =>
          obtain ⟨hidle, ⟨⟩⟩ := Option.ite_none_right_eq_some.mp hr
          simp [RegistryAction.owners, h.idle (by simp [hrunning]) hidle.1, beginAccept]
        | insert =>
          obtain ⟨i, hi, rfl⟩ := Option.map_eq_some_iff.mp hr
          simp at hne
    · have howners : a.owners s.owners = s.owners := by
        cases a with
        | acceptError | start i | insert => exact absurd trivial hmain
        | write i | written i | close i op | clear i op => rfl
      have haccepting := accepting_of_step hmain hr
      refine ⟨?_, ?_, ?_⟩
      · rw [howners]
        exact h.destroyed
      · rw [howners, haccepting]
        exact h.idle
      · rw [howners, haccepting]
        exact h.accepting

/-- The owner of the server in every run. -/
theorem owned_of_run {as : List (ProcessAction ι)} {s : Process ι}
    (h : run step init as = some s) : Owned s :=
  run_invariant owned_init (fun _ _ _ hs ht => hs.step ht) h

/-- Every step that meets the condition keeps the calls in time. -/
theorem Quiet.step {s t : Process ι} {a : ProcessAction ι} (h : Quiet s) (ho : Owned s)
    (hok : QuietStop s a) (hs : s.step a = some t) : Quiet t := by
  cases a with
  | stop =>
    obtain ⟨_, ⟨⟩⟩ := Option.ite_none_right_eq_some.mp hs
    exact ⟨by simp, h.calls⟩
  | destroy =>
    obtain ⟨_, ⟨⟩⟩ := Option.ite_none_right_eq_some.mp hs
    refine ⟨fun _ i op => ?_, h.calls⟩
    have hconns : s.destroy.registry.conns = s.registry.conns := by
      simp only [Process.destroy]
      split <;> rfl
    rw [hconns]
    cases op with
    | read => exact (hok i).1
    | write => exact (hok i).2
  | serve a =>
    obtain ⟨hguard, hs⟩ := Option.ite_none_left_eq_some.mp hs
    obtain ⟨r, hr, rfl⟩ := Option.map_eq_some_iff.mp hs
    constructor
    · intro hdestroyed i op hbusy
      rcases busy_of_step hr hbusy with hbefore | hmain | rfl
      · exact h.idle hdestroyed i op hbefore
      · exact hguard ⟨hmain, by simp [show s.main = .destroyed from hdestroyed]⟩
      · exact hok hdestroyed
    · intro alive halive
      cases a with
      | acceptError | start i | insert | write i | written i | close i op =>
        exact h.calls alive halive
      | clear i op =>
        rcases List.mem_append.mp halive with hbefore | hnow
        · exact h.calls alive hbefore
        · obtain ⟨hclosed, _⟩ := Option.ite_none_right_eq_some.mp hr
          have hmain : s.main ≠ .destroyed := fun hdestroyed =>
            h.idle hdestroyed i op (Or.inr hclosed)
          rw [List.mem_singleton.mp hnow]
          exact decide_eq_true (ho.alive_iff.mpr hmain)

/-- A run whose main context goes behind the sessions makes its calls in time. -/
theorem quiet_of_run {as : List (ProcessAction ι)} {s : Process ι}
    (hok : Along step QuietStop init as) (h : run step init as = some s) : Quiet s := by
  have hboth : Owned s ∧ Quiet s := by
    refine run_invariant_along (P := fun s => Owned s ∧ Quiet s) ⟨owned_init, quiet_init⟩ ?_ hok h
    intro s a t hs ha ht
    exact ⟨hs.1.step ht, hs.2.step hs.1 ha ht⟩
  exact hboth.2

/-- A handler in flight behind the main context calls a server that is gone. -/
theorem exists_call_of_busy {s : Process ι} (h : Owned s) (hmain : s.main = .destroyed) {i : ι}
    {op : SessionOp} (hbusy : (s.registry.conns i).Busy op) :
    ∃ cs t, (∀ c ∈ cs, c.Failing) ∧ run step s cs = some t ∧ ¬ t.CallsAlive := by
  have hclear : ∀ u : Process ι, u.owners = [] → u.main = .destroyed →
      (u.registry.conns i).handler op = .closed →
      ∃ t, u.step (.serve (.clear i op)) = some t ∧ ¬ t.CallsAlive := by
    intro u howners hmain hclosed
    refine ⟨{ u with
      registry := (u.registry.clearSession i).setHandler i op .cleared
      calls := u.calls ++ [false] }, ?_, ?_⟩
    · simp [step, RegistryAction.OnMain, Registry.step, hclosed, RegistryAction.owners, callsAfter,
        Alive, howners]
    · intro hcalls
      simpa using hcalls false (by simp)
  have howners := h.destroyed hmain
  rcases hbusy with hpending | hclosed
  · let u : Process ι := { s with
      registry := (s.registry.setHandler i op .closed).close i }
    have hu : s.step (.serve (.close i op)) = some u := by
      simp [step, RegistryAction.OnMain, Registry.step, hpending, RegistryAction.owners, callsAfter,
        u]
    have hclosed : (u.registry.conns i).handler op = .closed := by
      simp [u, Registry.handler_setHandler]
    obtain ⟨t, ht, hcalls⟩ := hclear u howners hmain hclosed
    refine ⟨[.serve (.close i op), .serve (.clear i op)], t, ?_, ?_, hcalls⟩
    · simp [ProcessAction.Failing]
    · simp [run_cons, hu, ht]
  · obtain ⟨t, ht, hcalls⟩ := hclear s howners hmain hclosed
    refine ⟨[.serve (.clear i op)], t, ?_, ?_, hcalls⟩
    · simp [ProcessAction.Failing]
    · simp [run_cons, ht]

/-- A step that does not meet the condition leaves a handler in flight. -/
theorem exists_call_of_not_quiet {s t : Process ι} {a : ProcessAction ι} (h : Owned t)
    (hs : s.step a = some t) (hok : ¬ QuietStop s a) :
    ∃ cs u, (∀ c ∈ cs, c.Failing) ∧ run step t cs = some u ∧ ¬ u.CallsAlive := by
  have hbusy : t.main = .destroyed ∧ ∃ i op, (t.registry.conns i).Busy op := by
    cases a with
    | stop => exact absurd trivial hok
    | destroy =>
      obtain ⟨_, ⟨⟩⟩ := Option.ite_none_right_eq_some.mp hs
      have hconns : s.destroy.registry.conns = s.registry.conns := by
        simp only [Process.destroy]
        split <;> rfl
      refine ⟨rfl, ?_⟩
      rw [hconns]
      simp only [QuietStop, not_forall, not_and_or, not_not] at hok
      obtain ⟨i, hread | hwrite⟩ := hok
      · exact ⟨i, .read, hread⟩
      · exact ⟨i, .write, hwrite⟩
    | serve a =>
      obtain ⟨_, hs⟩ := Option.ite_none_left_eq_some.mp hs
      obtain ⟨r, hr, rfl⟩ := Option.map_eq_some_iff.mp hs
      cases a with
      | acceptError | start i | insert | written i | close i op | clear i op =>
        exact absurd trivial hok
      | write i =>
        obtain ⟨_, ⟨⟩⟩ := Option.ite_none_right_eq_some.mp hr
        refine ⟨by simpa [QuietStop] using hok, i, .write, Or.inl ?_⟩
        simp [Registry.handler_setHandler]
  obtain ⟨hmain, i, op, hbusy⟩ := hbusy
  exact exists_call_of_busy h hmain hbusy

/-- A client that is connected when the server is stopped, and disconnects behind that. -/
private def lateDisconnect : List (ProcessAction Nat) :=
  [.serve (.start 6), .serve .insert, .stop, .destroy, .serve (.close 6 .read),
    .serve (.clear 6 .read)]

/-- The session of that client calls a server that is destroyed. -/
theorem not_callsAlive :
    ∃ s, run step init lateDisconnect = some s ∧ s.calls = [false] ∧ ¬ s.CallsAlive := by
  have hrun : (run step init lateDisconnect).any fun s => s.calls = [false] := by decide +kernel
  obtain ⟨s, hs, hcalls⟩ := (Option.any_eq_true _ _).mp hrun
  have hcalls := of_decide_eq_true hcalls
  refine ⟨s, hs, hcalls, fun halive => ?_⟩
  simpa using halive false (by simp [hcalls])

/-- Sessions find their server exactly when the main context is destroyed with none of
their handlers to come and nothing is sent behind that: no call of such a run is too
late, nor one that a failing session goes on to; a run with a step that does not meet
this has a moment from which a failing session calls a server that is gone. -/
theorem callsAlive_iff_quietStop (as : List (ProcessAction ι)) (s : Process ι)
    (h : run step init as = some s) :
    Along step QuietStop init as ↔ ∀ bs cs t, bs <+: as → (∀ a ∈ cs, a.Failing) →
      run step init (bs ++ cs) = some t → t.CallsAlive := by
  refine along_iff_never (fun a ha t => ?_) (fun bs t hok ht => (quiet_of_run hok ht).calls)
    (fun bs t a u ht hu hok => ?_) h
  · cases a with
    | stop | destroy => exact ha.elim
    | serve a =>
      cases a with
      | close i op | clear i op => trivial
      | acceptError | start i | insert | write i | written i => exact ha.elim
  · have hnext := run_snoc_eq_some.mpr ⟨t, ht, hu⟩
    exact exists_call_of_not_quiet (owned_of_run hnext) hu hok

/-- Two clients that have gone when the server is stopped. -/
private def timelyDisconnect : List (ProcessAction (Fin 2)) :=
  [.serve (.start 1), .serve .insert, .serve .acceptError, .serve (.start 0),
    .serve (.close 1 .read), .serve .insert, .serve (.write 0), .serve (.clear 1 .read),
    .serve (.close 0 .write), .serve (.clear 0 .write), .serve (.close 0 .read),
    .serve (.clear 0 .read), .stop, .destroy]

/-- A session that has gone before the server is destroyed does no harm. -/
theorem callsAlive_iff_quietStop_timely :
    ∃ s, run step init timelyDisconnect = some s ∧ s.main = .destroyed ∧ s.CallsAlive := by
  have hrun : (run step init timelyDisconnect).any fun s => s.main = .destroyed := by
    decide +kernel
  have hok : Along step QuietStop init timelyDisconnect := by decide +kernel
  obtain ⟨s, hs, hmain⟩ := (Option.any_eq_true _ _).mp hrun
  refine ⟨s, hs, of_decide_eq_true hmain, ?_⟩
  refine (callsAlive_iff_quietStop timelyDisconnect s hs).mp hok timelyDisconnect [] s
    List.prefix_rfl (by simp) ?_
  rw [List.append_nil, hs]

end Process

end ResourceServer
