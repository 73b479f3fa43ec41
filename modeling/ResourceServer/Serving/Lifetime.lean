import Mathlib.Data.Finset.Basic
import ResourceServer.Native.Registry

/-!
# Sessions that outlive their registration

The registry loses every dead session exactly when each `clear_session` comes
behind the insertion of its session. A session that fails between
`session->start()` and the insertion is erased before it is there, and is then
inserted for good.
-/

namespace ResourceServer

open Transition

variable {ι : Type*}

/-- The side condition on steps: a session is cleared only once it is inserted. -/
def InsertedFirst (s : Registry ι) : RegistryAction ι → Prop
  | .clear i _ => (s.conns i).accepted = true
  | _ => True

instance (s : Registry ι) (a : RegistryAction ι) : Decidable (InsertedFirst s a) :=
  match a with
  | .clear i _ => inferInstanceAs (Decidable ((s.conns i).accepted = true))
  | .acceptError | .start _ | .insert | .write _ | .written _ | .close _ _ => isTrue trivial

namespace Registry

/-- A session is between `start` and the insertion exactly while the main context
holds it, and only a started session has anything in flight. -/
structure Ordered (s : Registry ι) : Prop where
  accepting_iff : ∀ i, s.accepting = some i ↔
    (s.conns i).handler .read ≠ .idle ∧ (s.conns i).accepted = false
  started : ∀ i, (s.conns i).accepted = true ∨ (s.conns i).handler .write ≠ .idle →
    (s.conns i).handler .read ≠ .idle

/-- No session of a new server is started. -/
theorem ordered_init : Ordered (init : Registry ι) where
  accepting_iff i := iff_of_false (Option.some_ne_none i).symm fun h => h.1 rfl
  started _ h := by
    rcases h with h | h
    · contradiction
    · exact absurd rfl h

/-- An operation in flight belongs to a started session. -/
theorem Ordered.read_ne_idle {s : Registry ι} (h : Ordered s) {i : ι} {op : SessionOp}
    (hop : (s.conns i).handler op ≠ .idle) : (s.conns i).handler .read ≠ .idle := by
  cases op with
  | read => exact hop
  | write => exact h.started i (Or.inr hop)

/-- What holds while every session is cleared behind its insertion. -/
structure Kept (s : Registry ι) : Prop where
  live : ∀ i ∈ s.sessions, ¬ (s.conns i).Cleared
  late : ∀ i, (s.conns i).Cleared → (s.conns i).accepted = true
  stopped : ∀ i, (s.conns i).isStop = true → (s.conns i).Clearing ∨ (s.conns i).Cleared

/-- A new server has no dead session. -/
theorem kept_init : Kept (init : Registry ι) where
  live i hi := absurd hi (Finset.notMem_empty i)
  late i h := by
    obtain ⟨op, hop⟩ := h
    contradiction
  stopped i h := Bool.noConfusion h

/-- A registry that keeps this loses every dead session. -/
theorem Kept.toLive {s : Registry ι} (h : Kept s) : Live s where
  erased i _ hcleared hi := h.live i hi hcleared
  owed i hi := by
    cases hstop : (s.conns i).isStop with
    | false => exact Or.inl rfl
    | true => exact Or.inr ((h.stopped i hstop).resolve_right (h.live i hi))

variable [DecidableEq ι]

/-- Setting a connection changes that connection only. -/
theorem conns_setConn (s : Registry ι) (i j : ι) (c : Connection) :
    (s.setConn i c).conns j = if j = i then c else s.conns j := by
  unfold setConn
  by_cases hj : j = i
  · subst hj
    rw [if_pos rfl]
    exact Function.update_self ..
  · rw [if_neg hj]
    exact Function.update_of_ne hj ..

/-- What a change of a session's connection leaves alone is left alone for all. -/
theorem conns_setConn_of_eq {α : Type*} (field : Connection → α) {s : Registry ι} {i : ι}
    {c : Connection} (h : field c = field (s.conns i)) (j : ι) :
    field ((s.setConn i c).conns j) = field (s.conns j) := by
  rw [conns_setConn]
  split
  · rename_i hj
    rw [h, hj]
  · rfl

/-- Setting a handler changes that handler only. -/
theorem handler_setHandler (s : Registry ι) (i j : ι) (op op' : SessionOp) (pc : HandlerPc) :
    ((s.setHandler i op pc).conns j).handler op' =
      if j = i ∧ op' = op then pc else (s.conns j).handler op' := by
  rw [setHandler, conns_setConn]
  by_cases hj : j = i
  · subst hj
    by_cases hop : op' = op
    · subst hop
      rw [if_pos rfl, if_pos ⟨rfl, rfl⟩]
      exact Function.update_self ..
    · rw [if_pos rfl, if_neg fun h => hop h.2]
      exact Function.update_of_ne hop ..
  · rw [if_neg hj, if_neg fun h => hj h.1]

@[simp] theorem accepted_setHandler (s : Registry ι) (i j : ι) (op : SessionOp) (pc : HandlerPc) :
    ((s.setHandler i op pc).conns j).accepted = (s.conns j).accepted :=
  conns_setConn_of_eq Connection.accepted (by rfl) j

@[simp] theorem isStop_setHandler (s : Registry ι) (i j : ι) (op : SessionOp) (pc : HandlerPc) :
    ((s.setHandler i op pc).conns j).isStop = (s.conns j).isStop :=
  conns_setConn_of_eq Connection.isStop (by rfl) j

@[simp] theorem handler_close (s : Registry ι) (i j : ι) :
    ((s.close i).conns j).handler = (s.conns j).handler :=
  conns_setConn_of_eq Connection.handler (by rfl) j

@[simp] theorem accepted_close (s : Registry ι) (i j : ι) :
    ((s.close i).conns j).accepted = (s.conns j).accepted :=
  conns_setConn_of_eq Connection.accepted (by rfl) j

/-- The handlers of a started session may move on. -/
theorem Ordered.setHandler {s : Registry ι} (h : Ordered s) {i : ι} {op : SessionOp}
    {pc : HandlerPc} (hi : (s.conns i).handler .read ≠ .idle) (hpc : op = .read → pc ≠ .idle) :
    Ordered (s.setHandler i op pc) := by
  have hread : ∀ j, ((s.setHandler i op pc).conns j).handler .read ≠ .idle ↔
      (s.conns j).handler .read ≠ .idle := by
    intro j
    rw [handler_setHandler]
    split
    · rename_i heq
      obtain ⟨rfl, rfl⟩ := heq
      exact iff_of_true (hpc rfl) hi
    · rfl
  constructor
  · intro j
    rw [hread, accepted_setHandler]
    exact h.accepting_iff j
  · intro j hj
    rw [hread]
    rw [accepted_setHandler, handler_setHandler] at hj
    by_cases hji : j = i
    · exact hji ▸ hi
    · rw [if_neg fun heq => hji heq.1] at hj
      exact h.started j hj

/-- Closing a session moves none of its handlers. -/
theorem Ordered.close {s : Registry ι} (h : Ordered s) (i : ι) : Ordered (s.close i) := by
  constructor
  · intro j
    rw [handler_close, accepted_close]
    exact h.accepting_iff j
  · intro j
    rw [handler_close, accepted_close]
    exact h.started j

/-- Every step keeps the order of `start` and insertion. -/
theorem Ordered.step {s t : Registry ι} {a : RegistryAction ι} (h : Ordered s)
    (hs : s.step a = some t) : Ordered t := by
  cases a with
  | acceptError =>
    obtain ⟨_, ⟨⟩⟩ := Option.ite_none_right_eq_some.mp hs
    exact h
  | start i =>
    obtain ⟨hidle, ⟨⟩⟩ := Option.ite_none_right_eq_some.mp hs
    have hnew : (s.conns i).accepted = false := by
      by_contra haccepted
      exact h.started i (Or.inl (by simpa using haccepted)) hidle.2
    constructor
    · intro j
      rw [handler_setHandler, accepted_setHandler]
      by_cases hji : j = i
      · subst hji
        rw [if_pos ⟨rfl, rfl⟩]
        exact iff_of_true rfl ⟨HandlerPc.noConfusion, hnew⟩
      · rw [if_neg fun heq => hji heq.1, ← h.accepting_iff j, hidle.1]
        exact iff_of_false (fun heq => hji (Option.some.inj heq).symm) (Option.some_ne_none j).symm
    · intro j hj
      rw [handler_setHandler] at hj ⊢
      split
      · exact HandlerPc.noConfusion
      · rw [accepted_setHandler, if_neg fun heq => SessionOp.noConfusion heq.2] at hj
        exact h.started j hj
  | insert =>
    obtain ⟨i, hi, rfl⟩ := Option.map_eq_some_iff.mp hs
    have hread := ((h.accepting_iff i).mp hi).1
    constructor
    · intro j
      rw [conns_setConn]
      by_cases hji : j = i
      · rw [if_pos hji]
        exact iff_of_false (Option.some_ne_none j).symm fun heq => Bool.noConfusion heq.2
      · rw [if_neg hji, ← h.accepting_iff j, hi]
        exact iff_of_false (Option.some_ne_none j).symm fun heq => hji (Option.some.inj heq).symm
    · intro j
      rw [conns_setConn]
      by_cases hji : j = i
      · rw [if_pos hji]
        exact fun _ => hread
      · rw [if_neg hji]
        exact h.started j
  | write i =>
    obtain ⟨hwrite, ⟨⟩⟩ := Option.ite_none_right_eq_some.mp hs
    exact h.setHandler hwrite.1 SessionOp.noConfusion
  | written i =>
    obtain ⟨hwrite, ⟨⟩⟩ := Option.ite_none_right_eq_some.mp hs
    have hne : (s.conns i).handler .write ≠ .idle := by
      rw [hwrite]
      exact HandlerPc.noConfusion
    exact h.setHandler (h.read_ne_idle hne) SessionOp.noConfusion
  | close i op =>
    obtain ⟨hpending, ⟨⟩⟩ := Option.ite_none_right_eq_some.mp hs
    have hne : (s.conns i).handler op ≠ .idle := by
      rw [hpending]
      exact HandlerPc.noConfusion
    exact (h.setHandler (h.read_ne_idle hne) fun _ => HandlerPc.noConfusion).close i
  | clear i op =>
    obtain ⟨hclosed, ⟨⟩⟩ := Option.ite_none_right_eq_some.mp hs
    have hne : (s.conns i).handler op ≠ .idle := by
      rw [hclosed]
      exact HandlerPc.noConfusion
    have hcleared : Ordered (s.clearSession i) := ⟨h.accepting_iff, h.started⟩
    exact hcleared.setHandler (h.read_ne_idle hne) fun _ => HandlerPc.noConfusion

/-- The order of `start` and insertion in every run. -/
theorem ordered_of_run {as : List (RegistryAction ι)} {s : Registry ι}
    (h : run step init as = some s) : Ordered s :=
  run_invariant ordered_init (fun _ _ _ hs ht => hs.step ht) h

/-- Before `close` and behind it a handler has not cleared its session. -/
theorem cleared_setHandler {s : Registry ι} {i j : ι} {op : SessionOp} {pc : HandlerPc}
    (hpc : pc ≠ .cleared) (hop : (s.conns i).handler op ≠ .cleared) :
    ((s.setHandler i op pc).conns j).Cleared ↔ (s.conns j).Cleared := by
  constructor
  · rintro ⟨op', hcleared⟩
    rw [handler_setHandler] at hcleared
    split at hcleared
    · exact absurd hcleared hpc
    · exact ⟨op', hcleared⟩
  · rintro ⟨op', hcleared⟩
    refine ⟨op', ?_⟩
    rw [handler_setHandler, if_neg]
    · exact hcleared
    · rintro ⟨rfl, rfl⟩
      exact hop hcleared

/-- A handler that goes on behind its `close` leaves a stopped session stopped. -/
theorem stopped_setHandler {s : Registry ι} {i j : ι} {op : SessionOp} {pc : HandlerPc}
    (hpc : (pc = .closed ∨ pc = .cleared) ∨
      (s.conns i).handler op ≠ .closed ∧ (s.conns i).handler op ≠ .cleared)
    (h : (s.conns j).Clearing ∨ (s.conns j).Cleared) :
    ((s.setHandler i op pc).conns j).Clearing ∨ ((s.setHandler i op pc).conns j).Cleared := by
  have hsome : ∃ op', (s.conns j).handler op' = .closed ∨ (s.conns j).handler op' = .cleared := by
    rcases h with ⟨op', hop'⟩ | ⟨op', hop'⟩
    · exact ⟨op', Or.inl hop'⟩
    · exact ⟨op', Or.inr hop'⟩
  obtain ⟨op', hop'⟩ := hsome
  have hnew : ((s.setHandler i op pc).conns j).handler op' = .closed ∨
      ((s.setHandler i op pc).conns j).handler op' = .cleared := by
    rw [handler_setHandler]
    split
    · rename_i heq
      obtain ⟨rfl, rfl⟩ := heq
      rcases hpc with hpc | hpc
      · exact hpc
      · exact absurd hop' (not_or.mpr hpc)
    · exact hop'
  exact hnew.imp (fun hclosed => ⟨op', hclosed⟩) fun hcleared => ⟨op', hcleared⟩

/-- Handlers that have not failed come and go. -/
theorem Kept.setHandler {s : Registry ι} (h : Kept s) {i : ι} {op : SessionOp} {pc : HandlerPc}
    (hpc : pc ≠ .cleared)
    (hop : (s.conns i).handler op = .idle ∨ (s.conns i).handler op = .pending) :
    Kept (s.setHandler i op pc) := by
  have hclosed : (s.conns i).handler op ≠ .closed := by
    rcases hop with hop | hop <;> rw [hop] <;> exact HandlerPc.noConfusion
  have hcleared : (s.conns i).handler op ≠ .cleared := by
    rcases hop with hop | hop <;> rw [hop] <;> exact HandlerPc.noConfusion
  constructor
  · intro j hj
    rw [cleared_setHandler hpc hcleared]
    exact h.live j hj
  · intro j hj
    rw [accepted_setHandler]
    exact h.late j ((cleared_setHandler hpc hcleared).mp hj)
  · intro j hj
    rw [isStop_setHandler] at hj
    exact stopped_setHandler (Or.inr ⟨hclosed, hcleared⟩) (h.stopped j hj)

/-- A handler calls `close` and is about to clear its session. -/
theorem Kept.close {s : Registry ι} (h : Kept s) {i : ι} (hi : (s.conns i).Clearing) :
    Kept (s.close i) := by
  constructor
  · intro j hj
    rw [Connection.Cleared, handler_close]
    exact h.live j hj
  · intro j hj
    rw [Connection.Cleared, handler_close] at hj
    rw [accepted_close]
    exact h.late j hj
  · intro j hj
    rw [Connection.Clearing, Connection.Cleared, handler_close]
    by_cases hji : j = i
    · rw [hji]
      exact Or.inl hi
    · rw [Registry.close, conns_setConn, if_neg hji] at hj
      exact h.stopped j hj

/-- A session that is inserted is cleared by its handler. -/
theorem Kept.clear {s : Registry ι} (h : Kept s) {i : ι} {op : SessionOp}
    (hi : (s.conns i).accepted = true) : Kept ((s.clearSession i).setHandler i op .cleared) := by
  constructor
  · rintro j hj ⟨op', hcleared⟩
    obtain ⟨hji, hj⟩ := Finset.mem_erase.mp hj
    rw [handler_setHandler, if_neg fun heq => hji heq.1] at hcleared
    exact h.live j hj ⟨op', hcleared⟩
  · rintro j ⟨op', hcleared⟩
    rw [accepted_setHandler]
    by_cases hji : j = i
    · rw [hji]
      exact hi
    · rw [handler_setHandler, if_neg fun heq => hji heq.1] at hcleared
      exact h.late j ⟨op', hcleared⟩
  · intro j hj
    rw [isStop_setHandler] at hj
    exact stopped_setHandler (Or.inl (Or.inr rfl)) (h.stopped j hj)

/-- The accept handler inserts a session that nobody has cleared. -/
theorem Kept.insert {s : Registry ι} (h : Kept s) (hs : Ordered s) {i : ι}
    (hi : s.accepting = some i) : Kept { s.setConn i { s.conns i with accepted := true } with
      sessions := insert i s.sessions
      accepting := none } := by
  have hnew := ((hs.accepting_iff i).mp hi).2
  constructor
  · intro j hj
    rw [conns_setConn]
    split
    · intro hcleared
      have haccepted := h.late i hcleared
      rw [hnew] at haccepted
      contradiction
    · rename_i hji
      exact h.live j ((Finset.mem_insert.mp hj).resolve_left hji)
  · intro j
    rw [conns_setConn]
    split
    · exact fun _ => rfl
    · exact h.late j
  · intro j
    rw [conns_setConn]
    split
    · exact h.stopped i
    · exact h.stopped j

/-- Every step that clears inserted sessions only keeps the registry clean. -/
theorem Kept.step {s t : Registry ι} {a : RegistryAction ι} (h : Kept s) (hord : Ordered s)
    (hok : InsertedFirst s a) (hs : s.step a = some t) : Kept t := by
  cases a with
  | acceptError =>
    obtain ⟨_, ⟨⟩⟩ := Option.ite_none_right_eq_some.mp hs
    exact h
  | start i =>
    obtain ⟨hidle, ⟨⟩⟩ := Option.ite_none_right_eq_some.mp hs
    have hset : Kept (s.setHandler i .read .pending) :=
      h.setHandler HandlerPc.noConfusion (Or.inl hidle.2)
    exact ⟨hset.live, hset.late, hset.stopped⟩
  | insert =>
    obtain ⟨i, hi, rfl⟩ := Option.map_eq_some_iff.mp hs
    exact h.insert hord hi
  | write i =>
    obtain ⟨hwrite, ⟨⟩⟩ := Option.ite_none_right_eq_some.mp hs
    exact h.setHandler HandlerPc.noConfusion (Or.inl hwrite.2)
  | written i =>
    obtain ⟨hwrite, ⟨⟩⟩ := Option.ite_none_right_eq_some.mp hs
    exact h.setHandler HandlerPc.noConfusion (Or.inr hwrite)
  | close i op =>
    obtain ⟨hpending, ⟨⟩⟩ := Option.ite_none_right_eq_some.mp hs
    refine (h.setHandler HandlerPc.noConfusion (Or.inr hpending)).close ⟨op, ?_⟩
    rw [handler_setHandler, if_pos ⟨rfl, rfl⟩]
  | clear i op =>
    obtain ⟨_, ⟨⟩⟩ := Option.ite_none_right_eq_some.mp hs
    exact h.clear hok

/-- A run that clears inserted sessions only keeps the registry clean. -/
theorem kept_of_run {as : List (RegistryAction ι)} {s : Registry ι}
    (hok : Along step InsertedFirst init as) (h : run step init as = some s) : Kept s := by
  have hboth : Ordered s ∧ Kept s := by
    refine run_invariant_along (P := fun s => Ordered s ∧ Kept s) ⟨ordered_init, kept_init⟩ ?_ hok h
    intro s a t hs ha ht
    exact ⟨hs.1.step ht, hs.2.step hs.1 ha ht⟩
  exact hboth.2

/-- A session cleared before its insertion is inserted dead. -/
theorem not_live_of_early_clear {s t : Registry ι} {i : ι} {op : SessionOp} (hord : Ordered s)
    (hs : s.step (.clear i op) = some t) (hearly : (s.conns i).accepted = false) :
    ∃ u, t.step .insert = some u ∧ i ∈ u.sessions ∧ ¬ u.Live := by
  obtain ⟨hclosed, ⟨⟩⟩ := Option.ite_none_right_eq_some.mp hs
  have hne : (s.conns i).handler op ≠ .idle := by
    rw [hclosed]
    exact HandlerPc.noConfusion
  have hi : s.accepting = some i := (hord.accepting_iff i).mpr ⟨hord.read_ne_idle hne, hearly⟩
  let t := (s.clearSession i).setHandler i op .cleared
  refine ⟨{ t.setConn i { t.conns i with accepted := true } with
    sessions := Insert.insert i t.sessions, accepting := none }, ?_, ?_, ?_⟩
  · have ht : t.accepting = some i := hi
    rw [step, ht]
    rfl
  · exact Finset.mem_insert_self i _
  · intro hlive
    refine hlive.erased i ?_ ⟨op, ?_⟩ (Finset.mem_insert_self i _)
    · rw [conns_setConn, if_pos rfl]
    · rw [conns_setConn, if_pos rfl]
      exact (handler_setHandler ..).trans (if_pos ⟨rfl, rfl⟩)

/-- A session that fails between `session->start()` and its insertion. -/
private def earlyError : List (RegistryAction Nat) :=
  [.start 4, .close 4 .read, .clear 4 .read, .insert]

/-- A session that fails before its insertion stays in the map for good. -/
theorem not_live : ∃ s, run step init earlyError = some s ∧ 4 ∈ s.sessions ∧
    (∀ op, (s.conns 4).handler op ≠ .pending) ∧ ¬ s.Live := by
  have hrun : (run step init earlyError).any fun s => 4 ∈ s.sessions ∧
      (s.conns 4).handler .write = .idle ∧ (s.conns 4).handler .read = .cleared ∧
      (s.conns 4).accepted = true := by
    decide +kernel
  obtain ⟨s, hs, hlast⟩ := (Option.any_eq_true _ _).mp hrun
  obtain ⟨hmem, hwrite, hread, haccepted⟩ := of_decide_eq_true hlast
  refine ⟨s, hs, hmem, ?_, fun hlive => hlive.erased 4 haccepted ⟨.read, hread⟩ hmem⟩
  intro op
  cases op with
  | read =>
    rw [hread]
    exact HandlerPc.noConfusion
  | write =>
    rw [hwrite]
    exact HandlerPc.noConfusion

/-- The registry keeps no dead session exactly when sessions are cleared behind
their insertion. In a run whose steps all meet the condition no state reached keeps
one, not even while the main context goes on; a run with a step that does not has
a moment from which the main context goes on to a state that keeps one. -/
theorem live_iff_insertedFirst (as : List (RegistryAction ι)) (s : Registry ι)
    (h : run step init as = some s) :
    Along step InsertedFirst init as ↔ ∀ bs cs t, bs <+: as → (∀ a ∈ cs, a.OnMain) →
      run step init (bs ++ cs) = some t → t.Live := by
  refine along_iff_never (fun a ha t => ?_) (fun _ _ hok ht => (kept_of_run hok ht).toLive) ?_ h
  · cases a with
    | acceptError | start i | insert | write i | written i | close i op => trivial
    | clear i op => exact ha.elim
  · intro bs t a u hbs ht ha
    cases a with
    | acceptError | start i | insert | write i | written i | close i op =>
      exact absurd trivial ha
    | clear i op =>
      obtain ⟨v, hv, _, hdead⟩ :=
        not_live_of_early_clear (ordered_of_run hbs) ht (by simpa [InsertedFirst] using ha)
      refine ⟨[.insert], v, fun c hc => ?_, by simp [run_cons, hv], hdead⟩
      cases List.mem_singleton.mp hc
      trivial

/-- A session that fails behind its insertion, with a write in flight. -/
private def lateError : List (RegistryAction Nat) :=
  [.start 4, .write 4, .insert, .close 4 .write, .close 4 .read, .clear 4 .read, .start 5,
    .clear 4 .write, .insert]

/-- A session that fails behind its insertion is dropped. -/
theorem live_iff_insertedFirst_late : ∃ s, run step init lateError = some s ∧ s.Live := by
  have hrun : (run step init lateError).isSome := by decide +kernel
  have hok : Along step InsertedFirst init lateError := by decide +kernel
  obtain ⟨s, hs⟩ := Option.isSome_iff_exists.mp hrun
  refine ⟨s, hs, ?_⟩
  refine (live_iff_insertedFirst lateError s hs).mp hok lateError [] s List.prefix_rfl ?_ ?_
  · intro a ha
    exact absurd ha List.not_mem_nil
  · rw [List.append_nil, hs]

end Registry

end ResourceServer
