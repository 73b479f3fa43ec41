import ResourceServer.Dispatch.Wakeup

/-!
# The wake-up of the destructor

`~LogicSystem` sets `m_is_stop` and notifies without the lock. A worker that has
evaluated its predicate and not blocked yet misses both, and the join waits for it.
With the notification outside that window the worker never blocks again. A worker
of a stopped system that wakes whenever it is blocked works the queue off and leaves.
-/

namespace ResourceServer

open Transition

variable {ι : Type*}

/-- The side condition on steps: `notify_all` is not called between the worker's test of
its predicate and its blocking. -/
def NotifiesBlocked (s : Dispatch ι) : DispatchAction ι → Prop
  | .destruct => s.destructor = .stopping → s.worker ≠ .dozing
  | _ => True

instance (s : Dispatch ι) (a : DispatchAction ι) : Decidable (NotifiesBlocked s a) :=
  match a with
  | .destruct => inferInstanceAs (Decidable (s.destructor = .stopping → s.worker ≠ .dozing))
  | .post _ | .work | .wake => isTrue trivial

namespace Dispatch

/-- `notify_all` has been called. -/
def Notified (s : Dispatch ι) : Prop := s.destructor = .joining ∨ s.destructor = .joined

instance (s : Dispatch ι) : Decidable s.Notified :=
  inferInstanceAs (Decidable (_ ∨ _))

/-- The destructor has notified, and the worker is blocked with nothing notified since. -/
def Hung (s : Dispatch ι) : Prop := s.Notified ∧ s.worker = .asleep

instance (s : Dispatch ι) : Decidable s.Hung :=
  inferInstanceAs (Decidable (_ ∧ _))

/-- The destructor behind its first step has stopped the system, and behind its
notification the worker neither blocks nor is about to. -/
structure Roused (s : Dispatch ι) : Prop where
  isStop : s.destructor ≠ .notCalled → s.isStop = true
  worker : s.Notified → s.worker ≠ .dozing ∧ s.worker ≠ .asleep

/-- Nobody has stopped a new dispatch. -/
theorem roused_init : Roused (init : Dispatch ι) where
  isStop h := absurd rfl h
  worker h := by
    rcases h with h | h <;> simp [init] at h

/-- A destructor that has notified was called. -/
theorem Notified.ne_notCalled {s : Dispatch ι} (h : s.Notified) : s.destructor ≠ .notCalled := by
  rcases h with h | h <;> simp [h]

/-- A worker that is roused does not hang. -/
theorem Roused.not_hung {s : Dispatch ι} (h : Roused s) : ¬ s.Hung :=
  fun hhung => (h.worker hhung.1).2 hhung.2

/-- A post keeps the worker roused. -/
theorem Roused.post {s t : Dispatch ι} {node : LogicNode ι} (h : Roused s) (hidle : Idle s)
    (hs : s.post node = some t) : Roused t := by
  obtain ⟨_, _, _, _, hstop, hdestructor, _⟩ := post_cases hs
  have hworker := hidle.worker_of_post hs
  refine ⟨?_, fun hnotified => ?_⟩
  · rw [hdestructor, hstop]
    exact h.isStop
  · rw [Notified, hdestructor] at hnotified
    rw [if_neg (h.worker hnotified).2] at hworker
    rw [hworker]
    exact h.worker hnotified

/-- A stopped system answers every test of the predicate with true. -/
theorem Roused.workerStep {s t : Dispatch ι} (h : Roused s) (hs : WorkerStep s t) : Roused t := by
  cases hs with
  | lock hpc | ready hpc hpred | skip hpc hempty | drop front rest hpc hq hunknown
  | call front rest call hpc hq hcall | pop hpc | leave hpc hempty hstop | again hpc hmore =>
    exact ⟨h.isStop, fun _ => ⟨by simp, by simp⟩⟩
  | doze hpc hempty hrun =>
    refine ⟨h.isStop, fun hnotified => ?_⟩
    rw [h.isStop (Notified.ne_notCalled hnotified)] at hrun
    contradiction
  | sleep hpc => exact ⟨h.isStop, fun hnotified => absurd hpc (h.worker hnotified).1⟩

/-- A spurious wake-up keeps the worker roused. -/
theorem Roused.wake {s t : Dispatch ι} (h : Roused s) (hs : s.step .wake = some t) :
    Roused t := by
  obtain ⟨_, rfl⟩ := wake_cases hs
  exact ⟨h.isStop, fun _ => ⟨by simp, by simp⟩⟩

/-- The notification reaches every worker that is not about to block. -/
theorem Roused.destruct {s t : Dispatch ι} (h : Roused s) (hok : NotifiesBlocked s .destruct)
    (hs : s.destruct = some t) : Roused t := by
  rcases destruct_cases hs with ⟨_, rfl⟩ | ⟨hpc, rfl⟩ | ⟨hpc, _, rfl⟩
  · refine ⟨fun _ => rfl, fun hnotified => ?_⟩
    rcases hnotified with hnotified | hnotified <;> simp at hnotified
  · have hisStop : s.notify.isStop = true := by
      rw [notify]
      split <;> exact h.isStop (by simp [hpc])
    refine ⟨fun _ => hisStop, fun _ => ⟨?_, ?_⟩⟩
    · exact fun hdozing => hok hpc ((worker_notify_eq_iff (by simp) (by simp)).mp hdozing)
    · simp only [worker_notify]
      split
      · simp
      · assumption
  · exact ⟨fun _ => h.isStop (by simp [hpc]), fun _ => h.worker (Or.inl hpc)⟩

/-- Every step that meets the condition keeps the worker from blocking for good. -/
theorem Roused.step {s t : Dispatch ι} {a : DispatchAction ι} (h : Roused s) (hidle : Idle s)
    (hok : NotifiesBlocked s a) (hs : s.step a = some t) : Roused t := by
  cases a with
  | post node => exact h.post hidle hs
  | work => exact h.workerStep (workerStep_of_dealMessage hs)
  | wake => exact h.wake hs
  | destruct => exact h.destruct hok hs

/-- The worker of a run that meets the condition does not block behind `notify_all`. -/
theorem roused_of_run {as : List (DispatchAction ι)} {s : Dispatch ι}
    (hok : Along step NotifiesBlocked init as) (h : run step init as = some s) : Roused s := by
  have hboth : Idle s ∧ Roused s := by
    refine run_invariant_along (P := fun s => Idle s ∧ Roused s) ⟨fun _ => rfl, roused_init⟩ ?_
      hok h
    intro s a t hs ha ht
    exact ⟨hs.1.step ht, hs.2.step hs.1 ha ht⟩
  exact hboth.2

/-- A worker that misses the notification blocks in its next step. -/
theorem hung_of_missed {s t : Dispatch ι} (hpc : s.destructor = .stopping)
    (hworker : s.worker = .dozing) (hs : s.destruct = some t) :
    ∃ u, t.step .work = some u ∧ u.Hung := by
  rcases destruct_cases hs with ⟨hother, _⟩ | ⟨_, rfl⟩ | ⟨hother, _, _⟩
  · simp [hpc] at hother
  · have hdozing : s.notify.worker = .dozing := by
      rw [worker_notify_eq_iff (by simp) (by simp), hworker]
    refine ⟨{ s.notify with worker := .asleep, destructor := .joining }, ?_, Or.inl rfl, rfl⟩
    simp only [step, dealMessage, hdozing]
  · simp [hpc] at hother

/-- The steps that bring a worker of a stopped system to its end: those per queued
node, and those to the end of the round it is in. -/
def remaining (s : Dispatch ι) : Nat :=
  8 * s.logicQue.length + match s.worker with
    | .left => 0
    | .testing => bif s.logicQue.isEmpty then 1 else 7
    | .called => 2
    | .awake => 3
    | .checking => 4
    | .locking => 5
    | .asleep => 6
    | .dozing => 7

/-- The worker of a stopped system can always go on towards its end. -/
theorem exists_step_of_isStop {s : Dispatch ι} (hstop : s.isStop = true) (hin : s.worker ≠ .left) :
    ∃ a t, (a = .work ∨ a = .wake) ∧ s.step a = some t ∧ t.isStop = true ∧
      t.destructor = s.destructor ∧ t.remaining < s.remaining := by
  cases hpc : s.worker with
  | left => exact absurd hpc hin
  | asleep =>
    refine ⟨.wake, { s with worker := .locking }, Or.inr rfl, ?_, hstop, rfl, ?_⟩
    · simp only [step, hpc, if_true]
    · simp [remaining, hpc]
  | locking =>
    refine ⟨.work, { s with worker := .checking }, Or.inl rfl, ?_, hstop, rfl, ?_⟩
    · simp only [step, dealMessage, hpc]
    · simp [remaining, hpc]
  | dozing =>
    refine ⟨.work, { s with worker := .asleep }, Or.inl rfl, ?_, hstop, rfl, ?_⟩
    · simp only [step, dealMessage, hpc]
    · simp [remaining, hpc]
  | checking =>
    refine ⟨.work, { s with worker := .awake }, Or.inl rfl, ?_, hstop, rfl, ?_⟩
    · simp only [step, dealMessage, hpc, hstop, or_true, if_true]
    · simp [remaining, hpc]
  | awake =>
    cases hq : s.logicQue with
    | nil =>
      refine ⟨.work, { s with worker := .testing }, Or.inl rfl, ?_, hstop, rfl, ?_⟩
      · simp only [step, dealMessage, hpc, hq]
      · simp [remaining, hpc, hq]
    | cons front rest =>
      cases hcall : front.invocation with
      | none =>
        refine ⟨.work, { s with logicQue := rest, worker := .locking }, Or.inl rfl, ?_, hstop, rfl,
          ?_⟩
        · simp only [step, dealMessage, hpc, hq, hcall]
        · simp only [remaining, hpc, hq, List.length_cons]
          omega
      | some call =>
        refine ⟨.work, { s with invoked := s.invoked ++ [call], worker := .called }, Or.inl rfl, ?_,
          hstop, rfl, ?_⟩
        · simp only [step, dealMessage, hpc, hq, hcall]
        · simp [remaining, hpc, hq]
  | called =>
    refine ⟨.work, { s with logicQue := s.logicQue.tail, worker := .testing }, Or.inl rfl, ?_, hstop,
      rfl, ?_⟩
    · simp only [step, dealMessage, hpc]
    · cases hq : s.logicQue with
      | nil => simp [remaining, hpc, hq]
      | cons front rest =>
        simp only [remaining, hpc, hq, List.tail_cons, List.length_cons]
        cases rest.isEmpty with
        | false =>
          rw [cond_false]
          omega
        | true =>
          rw [cond_true]
          omega
  | testing =>
    cases hq : s.logicQue with
    | nil =>
      refine ⟨.work, { s with worker := .left }, Or.inl rfl, ?_, hstop, rfl, ?_⟩
      · simp only [step, dealMessage, hpc, hq, hstop, List.isEmpty_nil, and_self, if_true]
      · simp [remaining, hpc, hq]
    | cons front rest =>
      refine ⟨.work, { s with worker := .locking }, Or.inl rfl, ?_, hstop, rfl, ?_⟩
      · simp only [step, dealMessage, hpc, hq, List.isEmpty_cons, Bool.false_eq_true, false_and,
          if_false]
      · simp [remaining, hpc, hq]

/-- The destructor runs through between the worker's test and its blocking. -/
private def missedStop : List (DispatchAction Nat) := [.work, .work, .destruct, .destruct, .work]

/-- A join that waits for a worker which nothing will notify. -/
theorem hung : ∃ s, run step init missedStop = some s ∧ s.isStop = true ∧ s.Hung ∧
    s.step .work = none ∧ s.step .destruct = none := by
  have hrun : (run step init missedStop).any fun s => s.isStop = true ∧ s.Hung ∧
      (s.step .work).isNone ∧ (s.step .destruct).isNone := by
    decide +kernel
  obtain ⟨s, hs, hlast⟩ := (Option.any_eq_true _ _).mp hrun
  obtain ⟨hstop, hhung, hwork, hdestruct⟩ := of_decide_eq_true hlast
  exact ⟨s, hs, hstop, hhung, Option.isNone_iff_eq_none.mp hwork,
    Option.isNone_iff_eq_none.mp hdestruct⟩

/-- Shutdown reaches the worker exactly when `notify_all` is not called between its test
and its blocking: no moment of such a run is followed by a worker that blocks behind
the notification, and a run with a step in that window has a moment the worker's next
step brings there. -/
theorem never_hung_iff_notifiesBlocked (as : List (DispatchAction ι)) (s : Dispatch ι)
    (h : run step init as = some s) :
    Along step NotifiesBlocked init as ↔ ∀ bs cs t, bs <+: as → (∀ a ∈ cs, a = .work) →
      run step init (bs ++ cs) = some t → ¬ t.Hung := by
  refine along_iff_never (fun a ha t => ?_) (fun _ _ hok ht => (roused_of_run hok ht).not_hung)
    ?_ h
  · rw [ha]
    trivial
  · intro bs t a u hbs ht ha
    cases a with
    | post node | work | wake => exact absurd trivial ha
    | destruct =>
      simp only [NotifiesBlocked, Classical.not_imp, not_not] at ha
      obtain ⟨v, hv, hhung⟩ := hung_of_missed ha.1 ha.2 ht
      exact ⟨[.work], v, by simp, by simp [run_cons, hv], by simpa using hhung⟩

/-- The destructor runs while the worker is blocked. -/
private def timelyStop : List (DispatchAction Nat) :=
  [.work, .work, .work, .destruct, .destruct, .work, .work, .work, .work, .destruct]

/-- The destructor notifies a worker that has blocked, and joins it. -/
theorem never_hung_iff_notifiesBlocked_timely :
    ∃ s, run step init timelyStop = some s ∧ s.destructor = .joined ∧ ¬ s.Hung := by
  have hrun : (run step init timelyStop).any fun s => s.destructor = .joined := by decide +kernel
  have hok : Along step NotifiesBlocked init timelyStop := by decide +kernel
  obtain ⟨s, hs, hjoined⟩ := (Option.any_eq_true _ _).mp hrun
  refine ⟨s, hs, of_decide_eq_true hjoined, ?_⟩
  refine (never_hung_iff_notifiesBlocked timelyStop s hs).mp hok timelyStop [] s List.prefix_rfl
    (by simp) ?_
  rw [List.append_nil, hs]

end Dispatch

end ResourceServer
