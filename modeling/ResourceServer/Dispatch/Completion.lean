import ResourceServer.Core.Progress
import ResourceServer.Dispatch.Exit

/-!
# The destructor returns

Once `~LogicSystem` has begun and nothing more is posted, every schedule of the
worker and the destructor ends. If the notification has not come between the
worker's test and its blocking, it ends with the thread joined and every posted
message handled.
-/

namespace ResourceServer

open Transition

variable {ι : Type*}

/-- The side condition on steps: nothing is posted behind the worker. -/
def PostsToWorker (s : Dispatch ι) : DispatchAction ι → Prop
  | .post _ => s.worker ≠ .left
  | _ => True

instance (s : Dispatch ι) (a : DispatchAction ι) : Decidable (PostsToWorker s a) :=
  match a with
  | .post _ => inferInstanceAs (Decidable (s.worker ≠ .left))
  | .work | .wake | .destruct => isTrue trivial

namespace Dispatch

/-- The steps of the destructor behind its first one. -/
def DestructorPc.remaining : DestructorPc → Nat
  | .notCalled | .stopping => 2
  | .joining => 1
  | .joined => 0

/-- Every step of the worker of a stopped system brings it closer to its end. -/
theorem WorkerStep.remaining_lt {s t : Dispatch ι} (h : WorkerStep s t) (hstop : s.isStop = true) :
    t.remaining < s.remaining := by
  cases h with
  | lock hpc | ready hpc hpred | sleep hpc => simp [remaining, hpc]
  | doze hpc hempty hrun =>
    rw [hstop] at hrun
    contradiction
  | skip hpc hempty | leave hpc hempty _ => simp [remaining, hpc, hempty]
  | drop front rest hpc hq hunknown =>
    simp only [remaining, hpc, hq, List.length_cons]
    omega
  | call front rest call hpc hq hcall => simp [remaining, hpc]
  | pop hpc =>
    cases hq : s.logicQue with
    | nil => simp [remaining, hpc, hq]
    | cons front rest =>
      simp only [remaining, hpc, hq, List.tail_cons, List.length_cons]
      cases rest.isEmpty with
      | false =>
        rw [cond_false]
        omega
      | true =>
        rw [cond_true]
        omega
  | again hpc hmore =>
    obtain ⟨front, rest, hq⟩ := List.exists_cons_of_ne_nil (hmore.resolve_right (by simp [hstop]))
    simp [remaining, hpc, hq]

/-- A notification leaves the worker no more to do. -/
theorem remaining_notify_le (s : Dispatch ι) : s.notify.remaining ≤ s.remaining := by
  unfold notify
  split
  · rename_i hpc
    simp [remaining, hpc]
  · exact Nat.le_refl _

/-- Every step but a post brings a stopped system closer to its end. -/
theorem remaining_lt_of_step {s t : Dispatch ι} {a : DispatchAction ι} (hsound : Sound s)
    (hcalled : s.destructor ≠ .notCalled) (ha : posts [a] = []) (hs : s.step a = some t) :
    t.remaining + DestructorPc.remaining t.destructor <
      s.remaining + DestructorPc.remaining s.destructor := by
  have hstop := hsound.isStop_iff.mpr hcalled
  cases a with
  | post node => simp [posts] at ha
  | work =>
    rw [(destructor_of_step (by simp) hs).1]
    exact Nat.add_lt_add_right ((workerStep_of_dealMessage hs).remaining_lt hstop) _
  | wake =>
    obtain ⟨hasleep, rfl⟩ := wake_cases hs
    simp [remaining, hasleep]
  | destruct =>
    rcases destruct_cases hs with ⟨hpc, _⟩ | ⟨hpc, rfl⟩ | ⟨hpc, _, rfl⟩
    · exact absurd hpc hcalled
    · have hle := s.remaining_notify_le
      change s.notify.remaining + 1 < s.remaining + DestructorPc.remaining s.destructor
      rw [hpc]
      exact Nat.lt_succ_of_le (Nat.add_le_add_right hle 1)
    · change s.remaining + 0 < s.remaining + DestructorPc.remaining s.destructor
      rw [hpc]
      exact Nat.lt_succ_self _

/-- A destructor without a step has not been called, waits for the worker or has joined it. -/
theorem destructor_of_stuck {s : Dispatch ι} (hs : s.destruct = none) :
    s.destructor = .joining ∧ s.worker ≠ .left ∨ s.destructor = .joined := by
  unfold destruct at hs
  cases hpc : s.destructor with
  | notCalled | stopping => simp only [hpc, reduceCtorEq] at hs
  | joining =>
    simp only [hpc] at hs
    split at hs
    · contradiction
    · rename_i hin
      exact Or.inl ⟨rfl, hin⟩
  | joined => exact Or.inr rfl

/-- Whoever posts to the worker only, a worker that has left has left nothing queued. -/
theorem drained_of_run {as : List (DispatchAction ι)} {s : Dispatch ι}
    (hposts : Along step PostsToWorker init as) (h : run step init as = some s) :
    s.worker = .left → s.logicQue = [] := by
  refine run_invariant_along (P := fun s => s.worker = .left → s.logicQue = [])
    (fun hleft => WorkerPc.noConfusion hleft) ?_ hposts h
  intro s a t hs ha ht
  refine logicQue_of_left hs (fun hpost => ?_) ht
  cases a with
  | post node => exact ha
  | work | wake | destruct => exact absurd rfl hpost

/-- The logic system is sound in every run. -/
theorem sound_of_run {as : List (DispatchAction ι)} {s : Dispatch ι}
    (h : run step init as = some s) : Sound s :=
  run_invariant sound_init (fun _ _ _ hs ht => hs.step ht) h

/-- The destructor returns. From the moment `~LogicSystem` has begun, steps other than posts
come to an end in whatever order they are taken. Where neither the worker nor the destructor
has a step left, and `notify_all` has not been called between the worker's test and its
blocking, the worker is joined, nothing is queued, and every message posted before the worker
left has been given to its handler, in the order of the posts. -/
theorem shutdown_completes (as : List (DispatchAction ι)) (s : Dispatch ι)
    (h : run step init as = some s) (hcalled : s.destructor ≠ .notCalled) :
    ¬ Endless step (fun a => posts [a] = []) s ∧
      ∀ bs t, run step s bs = some t → t.step .work = none → t.step .destruct = none →
        Along step NotifiesBlocked init (as ++ bs) → Along step PostsToWorker init (as ++ bs) →
        t.destructor = .joined ∧ t.worker = .left ∧ t.logicQue = [] ∧
          t.invoked = invocations (posts (as ++ bs)) := by
  constructor
  · refine Terminates.not_endless (terminates_of_rank (P := fun s => Sound s ∧
      s.destructor ≠ .notCalled) Nat.lt_wfRel.wf
      (fun s => s.remaining + DestructorPc.remaining s.destructor) ?_ ⟨sound_of_run h, hcalled⟩)
    rintro s a t ⟨hsound, hcalled⟩ ha hat
    refine ⟨⟨hsound.step hat, ?_⟩, remaining_lt_of_step hsound hcalled ha hat⟩
    by_cases hd : a = .destruct
    · subst hd
      exact (destructor_of_destruct hsound.isStop_iff hat).1
    · rw [(destructor_of_step hd hat).1]
      exact hcalled
  · intro bs t hbs hwork hdestruct hok hposts
    have ht : run step init (as ++ bs) = some t := run_append_eq_some.mpr ⟨s, h, hbs⟩
    have hsound := sound_of_run ht
    have hroused := roused_of_run hok ht
    have hjoined : t.destructor = .joined := by
      rcases destructor_of_stuck hdestruct with ⟨hpc, hin⟩ | hpc
      · rcases worker_of_stuck hwork with hasleep | hleft
        · exact absurd hasleep (hroused.worker (Or.inl hpc)).2
        · exact absurd hleft hin
      · exact hpc
    have hleft := hsound.joined hjoined
    have hq := drained_of_run hposts ht hleft
    exact ⟨hjoined, hleft, hq, (fifo_of_run ht).invoked_eq hq⟩

/-- A message posted while the worker is blocked and handled behind the destructor's first step. -/
private def lastPost : List (DispatchAction Nat) :=
  [.work, .work, .work, .post ⟨3, RecvNode.new (fun _ => 0) 0 .idTestMsgReq⟩, .destruct]

theorem shutdown_completes_last :
    ∃ s t, run step init lastPost = some s ∧
      run step s (List.replicate 5 .work ++ [.destruct, .destruct]) = some t ∧
      t.destructor = .joined ∧ t.invoked.length = 1 := by
  have hrun : (run step init lastPost).any fun s => s.destructor ≠ .notCalled ∧
      (run step s (List.replicate 5 .work ++ [.destruct, .destruct])).any fun t =>
        (t.step .work).isNone ∧ (t.step .destruct).isNone ∧ t.invoked.length = 1 := by
    decide +kernel
  have hok : Along step NotifiesBlocked init
      (lastPost ++ (List.replicate 5 .work ++ [.destruct, .destruct])) := by decide +kernel
  have hposts : Along step PostsToWorker init
      (lastPost ++ (List.replicate 5 .work ++ [.destruct, .destruct])) := by decide +kernel
  obtain ⟨s, hs, hlast⟩ := (Option.any_eq_true _ _).mp hrun
  obtain ⟨hcalled, hafter⟩ := of_decide_eq_true hlast
  obtain ⟨t, ht, hstuck⟩ := (Option.any_eq_true _ _).mp hafter
  obtain ⟨hwork, hdestruct, hlength⟩ := of_decide_eq_true hstuck
  exact ⟨s, t, hs, ht, ((shutdown_completes lastPost s hs hcalled).2 _ t ht
    (Option.isNone_iff_eq_none.mp hwork) (Option.isNone_iff_eq_none.mp hdestruct) hok hposts).1,
    hlength⟩

end Dispatch

end ResourceServer
