import ResourceServer.Dispatch.Fifo

/-!
# The worker and the wake-ups of the posts

The worker blocks only on an empty queue: a post that finds it blocked finds the
queue empty, and so notifies, while the later posts stay silent until it has the
lock again. Before the destructor begins the worker never leaves its loop either,
and so a worker that cannot move has nothing to do.
-/

namespace ResourceServer

open Transition

variable {ι : Type*}

namespace Dispatch

/-- Nothing is queued while the worker goes to sleep or sleeps unnotified. -/
def Idle (s : Dispatch ι) : Prop := s.worker = .dozing ∨ s.worker = .asleep → s.logicQue = []

/-- Anywhere else there is nothing to show. -/
theorem idle_of_ne {s : Dispatch ι} (hdozing : s.worker ≠ .dozing) (hasleep : s.worker ≠ .asleep) :
    Idle s := fun h => (h.elim hdozing hasleep).elim

/-- A post wakes a worker it finds blocked. -/
theorem Idle.worker_of_post {s t : Dispatch ι} {node : LogicNode ι} (h : Idle s)
    (hs : s.post node = some t) :
    t.worker = if s.worker = .asleep then .locking else s.worker := by
  obtain ⟨_, _, _, _, _, _, hworker⟩ := post_cases hs
  by_cases hasleep : s.worker = .asleep
  · rw [hworker, if_pos ⟨h (Or.inr hasleep), hasleep⟩, if_pos hasleep]
  · rw [hworker, if_neg fun hboth => hasleep hboth.2, if_neg hasleep]

/-- A post leaves no message to a worker that goes to sleep. -/
theorem Idle.post {s t : Dispatch ι} {node : LogicNode ι} (h : Idle s)
    (hs : s.post node = some t) : Idle t := by
  have hfree : s.worker ≠ .dozing := by
    intro hdozing
    have hlocked := (post_cases hs).1
    rw [hdozing] at hlocked
    exact hlocked trivial
  apply idle_of_ne
  · rw [h.worker_of_post hs]
    split
    · simp
    · exact hfree
  · rw [h.worker_of_post hs]
    split
    · simp
    · assumption

/-- The worker dozes off on an empty queue only. -/
theorem Idle.workerStep {s t : Dispatch ι} (h : Idle s) (hs : WorkerStep s t) : Idle t := by
  cases hs with
  | lock hpc | ready hpc hpred | skip hpc hempty | drop front rest hpc hq hunknown
  | call front rest call hpc hq hcall | pop hpc | leave hpc hempty hstop | again hpc hmore =>
    exact idle_of_ne (by simp) (by simp)
  | doze hpc hempty hrun => exact fun _ => hempty
  | sleep hpc => exact fun _ => h (Or.inl hpc)

/-- Neither does a notification. -/
theorem Idle.notify {s : Dispatch ι} (h : Idle s) : Idle s.notify := by
  intro hpc
  rw [logicQue_notify]
  rw [worker_notify] at hpc
  split at hpc
  · simp at hpc
  · exact h hpc

/-- Every step keeps a worker that may block without work. -/
theorem Idle.step {s t : Dispatch ι} {a : DispatchAction ι} (h : Idle s)
    (hs : s.step a = some t) : Idle t := by
  cases a with
  | post node => exact h.post hs
  | work => exact h.workerStep (workerStep_of_dealMessage hs)
  | wake =>
    obtain ⟨_, rfl⟩ := wake_cases hs
    exact idle_of_ne (by simp) (by simp)
  | destruct =>
    rcases destruct_cases hs with ⟨_, rfl⟩ | ⟨_, rfl⟩ | ⟨_, _, rfl⟩
    · exact h
    · exact h.notify
    · exact h

/-- The worker blocks on an empty queue only, in every run. -/
theorem idle_of_run {as : List (DispatchAction ι)} {s : Dispatch ι}
    (h : run step init as = some s) : Idle s :=
  run_invariant (P := Idle) (fun _ => rfl) (fun _ _ _ hs ht => hs.step ht) h

/-- A post waits for nothing but the lock. -/
theorem post_ne_none {s : Dispatch ι} {node : LogicNode ι} (h : ¬ s.worker.Locked) :
    s.post node ≠ none := by
  rw [post, if_neg h]
  exact Option.some_ne_none _

/-- Posting loses no wake-up: whatever the threads do, no worker is blocked on
`m_cond` with a node queued and no notification for it, and a worker that is blocked
is notified by whichever post comes next. -/
theorem no_lost_wakeup (as : List (DispatchAction ι)) (s : Dispatch ι)
    (h : run step init as = some s) :
    ¬ (s.logicQue ≠ [] ∧ s.worker = .asleep) ∧
      (s.worker = .asleep → ∀ node, ∃ t, s.step (.post node) = some t ∧ t.worker = .locking) := by
  have hidle := idle_of_run h
  refine ⟨fun ⟨hne, hasleep⟩ => hne (hidle (Or.inr hasleep)), fun hasleep node => ?_⟩
  have hfree : ¬ s.worker.Locked := by
    rw [hasleep]
    exact id
  have hposted : s.post node ≠ none := post_ne_none hfree
  obtain ⟨t, ht⟩ := Option.ne_none_iff_exists'.mp hposted
  refine ⟨t, ht, ?_⟩
  rw [hidle.worker_of_post ht, if_pos hasleep]

/-- Two posts around a wake-up out of nothing, the second of them silent. -/
private def silentPost : List (DispatchAction Nat) :=
  [.work, .work, .work, .wake, .post ⟨6, ⟨⟨[0], 0, 0⟩, .idTestMsgRsp⟩⟩,
    .post ⟨7, ⟨⟨[0], 0, 0⟩, .idTestMsgRsp⟩⟩, .work, .work, .work, .work, .work, .work, .work,
    .work, .work]

/-- Two posts to a worker that has just woken up are both worked off. -/
theorem no_lost_wakeup_silent : ∃ s, run step init silentPost = some s ∧
    s.worker = .asleep ∧ ¬ (s.logicQue ≠ [] ∧ s.worker = .asleep) := by
  have hrun : (run step init silentPost).any fun s => s.worker = .asleep := by decide +kernel
  obtain ⟨s, hs, hasleep⟩ := (Option.any_eq_true _ _).mp hrun
  exact ⟨s, hs, of_decide_eq_true hasleep, (no_lost_wakeup silentPost s hs).1⟩

/-- A worker without a step is blocked or has left. -/
theorem worker_of_stuck {s : Dispatch ι} (hs : s.dealMessage = none) :
    s.worker = .asleep ∨ s.worker = .left := by
  unfold dealMessage at hs
  cases hpc : s.worker with
  | asleep => exact Or.inl rfl
  | left => exact Or.inr rfl
  | locking | dozing | called => simp only [hpc, reduceCtorEq] at hs
  | checking | testing =>
    simp only [hpc] at hs
    split at hs <;> contradiction
  | awake =>
    simp only [hpc] at hs
    split at hs
    · contradiction
    · split at hs <;> contradiction

/-- The system while its destructor has not begun. -/
structure Running (s : Dispatch ι) : Prop where
  isStop : s.isStop = false
  stays : s.worker ≠ .left
  idle : Idle s

/-- A new system is running. -/
theorem running_init : Running (init : Dispatch ι) :=
  ⟨rfl, WorkerPc.noConfusion, fun _ => rfl⟩

/-- A post leaves the system running. -/
theorem Running.post {s t : Dispatch ι} {node : LogicNode ι} (h : Running s)
    (hs : s.post node = some t) : Running t := by
  have hstop : t.isStop = s.isStop := (post_cases hs).2.2.2.2.1
  refine ⟨hstop.trans h.isStop, ?_, h.idle.post hs⟩
  rw [h.idle.worker_of_post hs]
  split
  · simp
  · exact h.stays

/-- A step of the worker leaves the system running. -/
theorem Running.workerStep {s t : Dispatch ι} (h : Running s) (hs : WorkerStep s t) :
    Running t := by
  refine ⟨?_, ?_, h.idle.workerStep hs⟩
  · cases hs <;> exact h.isStop
  · cases hs with
    | leave hpc hempty hstop =>
      rw [h.isStop] at hstop
      contradiction
    | lock hpc | ready hpc hpred | doze hpc hempty hrun | sleep hpc | skip hpc hempty
    | drop front rest hpc hq hunknown | call front rest call hpc hq hcall | pop hpc
    | again hpc hmore =>
      simp

/-- A spurious wake-up leaves the system running. -/
theorem Running.wake {s t : Dispatch ι} (h : Running s) (hs : s.step .wake = some t) :
    Running t := by
  refine ⟨?_, ?_, h.idle.step hs⟩ <;> obtain ⟨_, rfl⟩ := wake_cases hs
  · exact h.isStop
  · simp

/-- The worker of a running system moves unless it is blocked. -/
theorem Running.asleep_of_stuck {s : Dispatch ι} (h : Running s) (hs : s.dealMessage = none) :
    s.worker = .asleep := (worker_of_stuck hs).resolve_right h.stays

/-- A step of the worker makes the call that was due, and posts nothing. -/
theorem WorkerStep.effect {s t : Dispatch ι} (h : WorkerStep s t) :
    t.posted = s.posted ∧ t.invoked = s.invoked ++ s.nextCall.toList := by
  cases h with
  | lock hpc | ready hpc hpred | doze hpc hempty hrun | sleep hpc | pop hpc
  | leave hpc hempty hstop | again hpc hmore =>
    simp [nextCall, hpc]
  | skip hpc hempty => simp [nextCall, hpc, hempty]
  | drop front rest hpc hq hunknown => simp [nextCall, hpc, hq, hunknown]
  | call front rest call hpc hq hcall => simp [nextCall, hpc, hq, hcall]

/-- The call that is due is that of the front of the queue. -/
theorem nextCall_cases {s : Dispatch ι} {call : Invocation ι} (h : s.nextCall = some call) :
    ∃ front ∈ s.logicQue, front.invocation = some call := by
  unfold nextCall at h
  split at h
  · obtain ⟨front, hfront, hcall⟩ := Option.bind_eq_some_iff.mp h
    exact ⟨front, List.mem_of_mem_head? hfront, hcall⟩
  · contradiction

end Dispatch

end ResourceServer
