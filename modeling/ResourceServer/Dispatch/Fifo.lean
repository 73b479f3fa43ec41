import ResourceServer.Native.Dispatch

/-!
# Dispatch in post order

At every moment the posted nodes are those that left the queue followed by those
still in it, and the handler calls are those of the nodes that left it, in their
order, with one more while the front has been handled and not yet popped. The
path that drops an unknown id skips the stop test, yet the loop is left through
that test only, with nothing queued.
-/

namespace ResourceServer

open Transition

variable {ι : Type*}

/-- The nodes a schedule posts. -/
def posts (as : List (DispatchAction ι)) : List (LogicNode ι) :=
  as.filterMap fun
    | .post node => some node
    | _ => none

/-- The calls due for a sequence of nodes: those with an unregistered id have none. -/
def invocations (nodes : List (LogicNode ι)) : List (Invocation ι) :=
  nodes.filterMap LogicNode.invocation

/-- The calls of two lists of nodes in turn. -/
theorem invocations_append (nodes nodes' : List (LogicNode ι)) :
    invocations (nodes ++ nodes') = invocations nodes ++ invocations nodes' :=
  List.filterMap_append

/-- A node with no callback makes no call. -/
theorem invocations_of_none {node : LogicNode ι} (h : node.invocation = none) :
    invocations [node] = [] := List.filterMap_cons_none h

/-- A node with a callback makes one call. -/
theorem invocations_of_some {node : LogicNode ι} {call : Invocation ι}
    (h : node.invocation = some call) : invocations [node] = [call] :=
  List.filterMap_cons_some h

/-- The calls of a node come before those of the nodes behind it. -/
theorem invocations_cons (node : LogicNode ι) (nodes : List (LogicNode ι)) :
    invocations (node :: nodes) = invocations [node] ++ invocations nodes :=
  invocations_append [node] nodes

/-- The posts of two schedules in turn. -/
theorem posts_append (as bs : List (DispatchAction ι)) : posts (as ++ bs) = posts as ++ posts bs :=
  List.filterMap_append

namespace Dispatch

@[simp] theorem logicQue_notify (s : Dispatch ι) : s.notify.logicQue = s.logicQue := by
  unfold notify
  split <;> rfl

/-- A notification moves a blocked worker only. -/
theorem worker_notify (s : Dispatch ι) :
    s.notify.worker = if s.worker = .asleep then .locking else s.worker := by
  unfold notify
  split <;> rfl

/-- A notification changes at most where a worker without the lock stands. -/
theorem worker_notify_eq_iff {s : Dispatch ι} {pc : WorkerPc} (hpc : pc ≠ .locking)
    (hpc' : pc ≠ .asleep) : s.notify.worker = pc ↔ s.worker = pc := by
  rw [worker_notify]
  split
  · rename_i hasleep
    rw [hasleep]
    exact iff_of_false hpc.symm hpc'.symm
  · rfl

/-- A post appends its node, outside the worker's critical sections. -/
theorem post_cases {s t : Dispatch ι} {node : LogicNode ι} (h : s.post node = some t) :
    ¬ s.worker.Locked ∧ t.logicQue = s.logicQue ++ [node] ∧ t.posted = s.posted ++ [node] ∧
      t.invoked = s.invoked ∧ t.isStop = s.isStop ∧ t.destructor = s.destructor ∧
      t.worker = if s.logicQue = [] ∧ s.worker = .asleep then .locking else s.worker := by
  unfold post at h
  split at h
  · contradiction
  · rename_i hfree
    refine ⟨hfree, ?_⟩
    cases hq : s.logicQue with
    | nil =>
      simp only [hq, List.isEmpty_nil, if_true, Option.some.injEq] at h
      subst h
      unfold notify
      split <;> simp_all
    | cons front rest =>
      simp only [hq, List.isEmpty_cons, Bool.false_eq_true, if_false, Option.some.injEq] at h
      subst h
      simp

/-- A wake-up out of nothing sends a blocked worker for the lock. -/
theorem wake_cases {s t : Dispatch ι} (h : s.step .wake = some t) :
    s.worker = .asleep ∧ t = { s with worker := .locking } := by
  obtain ⟨hasleep, ⟨⟩⟩ := Option.ite_none_right_eq_some.mp h
  exact ⟨hasleep, rfl⟩

/-- The destructor sets `m_is_stop`, notifies, and waits for the worker to leave. -/
theorem destruct_cases {s t : Dispatch ι} (h : s.destruct = some t) :
    (s.destructor = .notCalled ∧ t = { s with isStop := true, destructor := .stopping }) ∨
      (s.destructor = .stopping ∧ t = { s.notify with destructor := .joining }) ∨
      s.destructor = .joining ∧ s.worker = .left ∧ t = { s with destructor := .joined } := by
  unfold destruct at h
  cases hpc : s.destructor with
  | notCalled =>
    simp only [hpc, Option.some.injEq] at h
    exact Or.inl ⟨rfl, h.symm⟩
  | stopping =>
    simp only [hpc, Option.some.injEq] at h
    exact Or.inr (Or.inl ⟨rfl, h.symm⟩)
  | joining =>
    simp only [hpc] at h
    obtain ⟨hleft, ⟨⟩⟩ := Option.ite_none_right_eq_some.mp h
    exact Or.inr (Or.inr ⟨rfl, hleft, rfl⟩)
  | joined =>
    simp only [hpc] at h
    contradiction

/-- What one step of the worker can do. -/
inductive WorkerStep (s : Dispatch ι) : Dispatch ι → Prop
  | lock (hpc : s.worker = .locking) : WorkerStep s { s with worker := .checking }
  | ready (hpc : s.worker = .checking) (hpred : s.logicQue ≠ [] ∨ s.isStop = true) :
      WorkerStep s { s with worker := .awake }
  | doze (hpc : s.worker = .checking) (hempty : s.logicQue = []) (hrun : s.isStop = false) :
      WorkerStep s { s with worker := .dozing }
  | sleep (hpc : s.worker = .dozing) : WorkerStep s { s with worker := .asleep }
  | skip (hpc : s.worker = .awake) (hempty : s.logicQue = []) :
      WorkerStep s { s with worker := .testing }
  | drop (front : LogicNode ι) (rest : List (LogicNode ι)) (hpc : s.worker = .awake)
      (hq : s.logicQue = front :: rest) (hunknown : front.invocation = none) :
      WorkerStep s { s with logicQue := rest, worker := .locking }
  | call (front : LogicNode ι) (rest : List (LogicNode ι)) (call : Invocation ι)
      (hpc : s.worker = .awake) (hq : s.logicQue = front :: rest)
      (hcall : front.invocation = some call) :
      WorkerStep s { s with invoked := s.invoked ++ [call], worker := .called }
  | pop (hpc : s.worker = .called) :
      WorkerStep s { s with logicQue := s.logicQue.tail, worker := .testing }
  | leave (hpc : s.worker = .testing) (hempty : s.logicQue = []) (hstop : s.isStop = true) :
      WorkerStep s { s with worker := .left }
  | again (hpc : s.worker = .testing) (hmore : s.logicQue ≠ [] ∨ s.isStop = false) :
      WorkerStep s { s with worker := .locking }

/-- Every step of the worker is one of these. -/
theorem workerStep_of_dealMessage {s t : Dispatch ι} (h : s.dealMessage = some t) :
    WorkerStep s t := by
  cases hpc : s.worker with
  | locking =>
    simp only [dealMessage, hpc, Option.some.injEq] at h
    exact h ▸ .lock hpc
  | checking =>
    simp only [dealMessage, hpc] at h
    split at h
    · rename_i hpred
      cases h
      exact .ready hpc (hpred.imp_left fun hne hnil => hne (List.isEmpty_iff.mpr hnil))
    · rename_i hpred
      cases h
      rw [not_or, not_not, List.isEmpty_iff, Bool.not_eq_true] at hpred
      exact .doze hpc hpred.1 hpred.2
  | dozing =>
    simp only [dealMessage, hpc, Option.some.injEq] at h
    exact h ▸ .sleep hpc
  | asleep =>
    simp only [dealMessage, hpc] at h
    contradiction
  | awake =>
    cases hq : s.logicQue with
    | nil =>
      simp only [dealMessage, hpc, hq, Option.some.injEq] at h
      exact h ▸ hq ▸ .skip hpc hq
    | cons front rest =>
      cases hinv : front.invocation with
      | none =>
        simp only [dealMessage, hpc, hq, hinv, Option.some.injEq] at h
        exact h ▸ .drop front rest hpc hq hinv
      | some call =>
        simp only [dealMessage, hpc, hq, hinv, Option.some.injEq] at h
        exact h ▸ hq ▸ .call front rest call hpc hq hinv
  | called =>
    simp only [dealMessage, hpc, Option.some.injEq] at h
    exact h ▸ .pop hpc
  | testing =>
    simp only [dealMessage, hpc, List.isEmpty_iff] at h
    split at h
    · rename_i hleave
      cases h
      exact .leave hpc hleave.1 hleave.2
    · rename_i hmore
      cases h
      rw [not_and_or, Bool.not_eq_true] at hmore
      exact .again hpc hmore
  | left =>
    simp only [dealMessage, hpc] at h
    contradiction

/-- The queue holds what was posted and has not left it, and the calls made are
those of the nodes that left it. -/
structure Fifo (nodes : List (LogicNode ι)) (s : Dispatch ι) : Prop where
  posted_eq : s.posted = nodes
  split : ∃ gone, nodes = gone ++ s.logicQue ∧
    (s.worker ≠ .called → s.invoked = invocations gone) ∧
    (s.worker = .called → ∃ front rest call, s.logicQue = front :: rest ∧
      front.invocation = some call ∧ s.invoked = invocations gone ++ [call])

/-- Nothing has been posted to a new dispatch. -/
theorem fifo_init : Fifo [] (init : Dispatch ι) :=
  ⟨rfl, [], rfl, fun _ => rfl, fun h => WorkerPc.noConfusion h⟩

/-- The invariant does not see where the worker stands outside its handler. -/
theorem Fifo.move {nodes : List (LogicNode ι)} {s : Dispatch ι} (h : Fifo nodes s) {pc : WorkerPc}
    (hs : s.worker ≠ .called) (hpc : pc ≠ .called) : Fifo nodes { s with worker := pc } := by
  obtain ⟨hposted, gone, hsplit, hidle, _⟩ := h
  exact ⟨hposted, gone, hsplit, fun _ => hidle hs, fun hcalled => absurd hcalled hpc⟩

/-- A notification keeps the order. -/
theorem Fifo.notify {nodes : List (LogicNode ι)} {s : Dispatch ι} (h : Fifo nodes s) :
    Fifo nodes s.notify := by
  unfold Dispatch.notify
  split
  · rename_i hasleep
    exact h.move (by rw [hasleep]; exact WorkerPc.noConfusion) WorkerPc.noConfusion
  · exact h

/-- A post keeps the order. -/
theorem Fifo.post {nodes : List (LogicNode ι)} {s t : Dispatch ι} {node : LogicNode ι}
    (h : Fifo nodes s) (hs : s.post node = some t) : Fifo (nodes ++ [node]) t := by
  obtain ⟨hfree, hque, hposted, hinvoked, _, _, hworker⟩ := post_cases hs
  obtain ⟨rfl, gone, hsplit, hidle, _⟩ := h
  have hs_ne : s.worker ≠ .called := by
    intro hcalled
    rw [hcalled] at hfree
    exact hfree trivial
  have ht_ne : t.worker ≠ .called := by
    rw [hworker]
    split
    · exact WorkerPc.noConfusion
    · exact hs_ne
  refine ⟨hposted, gone, ?_, fun _ => ?_, fun hcalled => absurd hcalled ht_ne⟩
  · rw [hque, ← List.append_assoc, hsplit]
  · rw [hinvoked, hidle hs_ne]

/-- The worker hands over the front, pops it, or leaves queue and calls alone. -/
theorem Fifo.workerStep {nodes : List (LogicNode ι)} {s t : Dispatch ι} (h : Fifo nodes s)
    (hs : WorkerStep s t) : Fifo nodes t := by
  have hother : ∀ {pc}, s.worker = pc → pc ≠ .called → s.worker ≠ .called := by
    rintro pc rfl hne
    exact hne
  cases hs with
  | lock hpc | ready hpc hpred | doze hpc hempty hrun | sleep hpc | skip hpc hempty
  | leave hpc hempty hstop | again hpc hmore =>
    exact h.move (hother hpc WorkerPc.noConfusion) WorkerPc.noConfusion
  | drop front rest hpc hq hunknown =>
    obtain ⟨hposted, gone, hsplit, hidle, _⟩ := h
    refine ⟨hposted, gone ++ [front], ?_, fun _ => ?_, fun hcalled => WorkerPc.noConfusion hcalled⟩
    · rw [hsplit, hq, List.append_assoc]
      rfl
    · rw [invocations_append, invocations_of_none hunknown, List.append_nil]
      exact hidle (hother hpc WorkerPc.noConfusion)
  | call front rest call hpc hq hcall =>
    obtain ⟨hposted, gone, hsplit, hidle, _⟩ := h
    refine ⟨hposted, gone, hsplit, fun hne => absurd rfl hne, fun _ => ?_⟩
    refine ⟨front, rest, call, hq, hcall, ?_⟩
    rw [hidle (hother hpc WorkerPc.noConfusion)]
  | pop hpc =>
    obtain ⟨hposted, gone, hsplit, _, hbusy⟩ := h
    obtain ⟨front, rest, call, hq, hcall, hinvoked⟩ := hbusy hpc
    refine ⟨hposted, gone ++ [front], ?_, fun _ => ?_, fun hcalled => WorkerPc.noConfusion hcalled⟩
    · rw [hsplit, hq, List.append_assoc]
      rfl
    · rw [invocations_append, invocations_of_some hcall]
      exact hinvoked

/-- A step of the destructor keeps the order. -/
theorem Fifo.destruct {nodes : List (LogicNode ι)} {s t : Dispatch ι} (h : Fifo nodes s)
    (hs : s.destruct = some t) : Fifo nodes t := by
  rcases destruct_cases hs with ⟨_, rfl⟩ | ⟨_, rfl⟩ | ⟨_, _, rfl⟩
  · exact ⟨h.posted_eq, h.split⟩
  · exact ⟨h.notify.posted_eq, h.notify.split⟩
  · exact ⟨h.posted_eq, h.split⟩

/-- A spurious wake-up keeps the order. -/
theorem Fifo.wake {nodes : List (LogicNode ι)} {s t : Dispatch ι} (h : Fifo nodes s)
    (hs : s.step .wake = some t) : Fifo nodes t := by
  obtain ⟨hasleep, rfl⟩ := wake_cases hs
  exact h.move (by rw [hasleep]; exact WorkerPc.noConfusion) WorkerPc.noConfusion

/-- One step of any thread keeps the invariant. -/
theorem Fifo.step {nodes : List (LogicNode ι)} {s t : Dispatch ι} {a : DispatchAction ι}
    (h : Fifo nodes s) (hs : s.step a = some t) : Fifo (nodes ++ posts [a]) t := by
  cases a with
  | post node => exact h.post hs
  | work =>
    change Fifo (nodes ++ []) t
    rw [List.append_nil]
    exact h.workerStep (workerStep_of_dealMessage hs)
  | wake =>
    change Fifo (nodes ++ []) t
    rw [List.append_nil]
    exact h.wake hs
  | destruct =>
    change Fifo (nodes ++ []) t
    rw [List.append_nil]
    exact h.destruct hs

/-- The invariant along every schedule. -/
theorem fifo_of_run {as : List (DispatchAction ι)} {s : Dispatch ι}
    (h : run step init as = some s) : Fifo (posts as) s := by
  refine run_history (P := fun as s => Fifo (posts as) s) fifo_init ?_ h
  intro as s a t hs ht
  rw [posts_append]
  exact hs.step ht

/-- The calls made are at every moment an initial part of the calls due. -/
theorem Fifo.invoked_prefix {nodes : List (LogicNode ι)} {s : Dispatch ι} (h : Fifo nodes s) :
    s.invoked <+: invocations nodes := by
  obtain ⟨_, gone, rfl, hidle, hbusy⟩ := h
  rw [invocations_append]
  by_cases hcalled : s.worker = .called
  · obtain ⟨front, rest, call, hq, hcall, hinvoked⟩ := hbusy hcalled
    rw [hinvoked, hq, invocations_cons, invocations_of_some hcall, ← List.append_assoc]
    exact List.prefix_append _ _
  · rw [hidle hcalled]
    exact List.prefix_append _ _

/-- With nothing queued every call due has been made. -/
theorem Fifo.invoked_eq {nodes : List (LogicNode ι)} {s : Dispatch ι} (h : Fifo nodes s)
    (hq : s.logicQue = []) : s.invoked = invocations nodes := by
  obtain ⟨_, gone, rfl, hidle, hbusy⟩ := h
  have hcalled : s.worker ≠ .called := by
    intro hcalled
    obtain ⟨front, rest, _, hfront, _⟩ := hbusy hcalled
    rw [hq] at hfront
    contradiction
  rw [hidle hcalled, hq, List.append_nil]

/-- A step leaves the queue alone but for appending the node it posts, or removes
just the front, which has been given to its handler if it has one. -/
theorem Fifo.logicQue_cases {nodes : List (LogicNode ι)} {s t : Dispatch ι} {a : DispatchAction ι}
    (h : Fifo nodes s) (hs : s.step a = some t) :
    t.logicQue = s.logicQue ++ posts [a] ∨
      ∃ front, s.logicQue = front :: t.logicQue ∧ t.invoked = s.invoked ∧
        ∀ call, front.invocation = some call → s.invoked.getLast? = some call := by
  cases a with
  | post node => exact Or.inl (post_cases hs).2.1
  | work =>
    cases workerStep_of_dealMessage hs with
    | lock hpc | ready hpc hpred | doze hpc hempty hrun | sleep hpc | skip hpc hempty
    | leave hpc hempty hstop | again hpc hmore | call front rest call hpc hq hcall =>
      exact Or.inl (List.append_nil _).symm
    | drop front rest hpc hq hunknown =>
      refine Or.inr ⟨front, hq, rfl, fun call hcall => ?_⟩
      rw [hunknown] at hcall
      contradiction
    | pop hpc =>
      obtain ⟨_, gone, _, _, hbusy⟩ := h
      obtain ⟨front, rest, call, hq, hcall, hinvoked⟩ := hbusy hpc
      refine Or.inr ⟨front, ?_, rfl, fun call' hcall' => ?_⟩
      · rw [hq]
        rfl
      · rw [hinvoked, List.getLast?_concat, ← hcall, hcall']
  | wake =>
    obtain ⟨_, rfl⟩ := wake_cases hs
    exact Or.inl (List.append_nil _).symm
  | destruct =>
    refine Or.inl (Eq.trans ?_ (List.append_nil _).symm)
    rcases destruct_cases hs with ⟨_, rfl⟩ | ⟨_, rfl⟩ | ⟨_, _, rfl⟩
    · rfl
    · exact logicQue_notify s
    · rfl

/-- The worker leaves through the stop test only. -/
theorem leave_cases {s t : Dispatch ι} {a : DispatchAction ι} (hs : s.step a = some t)
    (hin : s.worker ≠ .left) (hout : t.worker = .left) :
    s.isStop = true ∧ s.logicQue = [] ∧ t = { s with worker := .left } := by
  cases a with
  | post node =>
    rw [(post_cases hs).2.2.2.2.2.2] at hout
    split at hout
    · contradiction
    · contradiction
  | work =>
    cases workerStep_of_dealMessage hs with
    | leave hpc hempty hstop => exact ⟨hstop, hempty, rfl⟩
    | lock hpc | ready hpc hpred | doze hpc hempty hrun | sleep hpc | skip hpc hempty
    | drop front rest hpc hq hunknown | call front rest call hpc hq hcall | pop hpc
    | again hpc hmore => contradiction
  | wake =>
    obtain ⟨_, rfl⟩ := wake_cases hs
    contradiction
  | destruct =>
    rcases destruct_cases hs with ⟨_, rfl⟩ | ⟨_, rfl⟩ | ⟨_, hleft, _⟩
    · contradiction
    · exact absurd ((worker_notify_eq_iff WorkerPc.noConfusion WorkerPc.noConfusion).mp hout) hin
    · contradiction

/-- Dispatch follows the posts. At every moment the calls made are an initial part
of those due for the posted nodes, in their order; each step appends the node it
posts or removes just the front, once its call is made or at once if its id is
unknown; and the worker leaves its loop only with `m_is_stop` set, nothing queued
and every call made that is due for the nodes posted before. -/
theorem dispatch_in_order (as : List (DispatchAction ι)) (s : Dispatch ι)
    (h : run step init as = some s) :
    s.invoked <+: invocations (posts as) ∧ s.logicQue <:+ posts as ∧
      (s.logicQue = [] → s.invoked = invocations (posts as)) ∧
      ∀ a t, s.step a = some t →
        (t.logicQue = s.logicQue ++ posts [a] ∨
          ∃ front, s.logicQue = front :: t.logicQue ∧ t.invoked = s.invoked ∧
            ∀ call, front.invocation = some call → s.invoked.getLast? = some call) ∧
        (s.worker ≠ .left → t.worker = .left →
          s.isStop = true ∧ t.logicQue = [] ∧ t.invoked = invocations (posts as)) := by
  have hfifo := fifo_of_run h
  refine ⟨hfifo.invoked_prefix, ?_, hfifo.invoked_eq, fun a t hs => ⟨hfifo.logicQue_cases hs, ?_⟩⟩
  · obtain ⟨_, gone, hsplit, _⟩ := hfifo
    exact ⟨gone, hsplit.symm⟩
  · intro hin hout
    obtain ⟨hstop, hempty, rfl⟩ := leave_cases hs hin hout
    exact ⟨hstop, hempty, hfifo.invoked_eq hempty⟩

/-- A test message, and one of an unknown id that arrives while the system stops. -/
private def lastUnknown : List (DispatchAction Nat) :=
  [.post ⟨4, ⟨⟨[104, 0], 1, 1⟩, .idTestMsgReq⟩⟩, .work, .work, .work, .work, .work, .destruct,
    .post ⟨5, ⟨⟨[0], 0, 0⟩, .idTestMsgRsp⟩⟩, .work, .work, .work, .work, .work, .work]

/-- The worker handles a known message, drops an unknown one behind it, and leaves. -/
theorem dispatch_in_order_last_unknown :
    ∃ s t, run step init lastUnknown = some s ∧ s.step .work = some t ∧ t.worker = .left ∧
      t.invoked = [⟨.testSend, 4, .idTestMsgReq, [104]⟩] := by
  have hrun : (run step init lastUnknown).any fun s =>
      s.worker ≠ .left ∧ (s.step .work).any fun t => t.worker = .left := by
    decide +kernel
  obtain ⟨s, hs, hlast⟩ := (Option.any_eq_true _ _).mp hrun
  obtain ⟨hin, hstep⟩ := of_decide_eq_true hlast
  obtain ⟨t, ht, hout⟩ := (Option.any_eq_true _ _).mp hstep
  obtain ⟨_, _, _, hall⟩ := dispatch_in_order lastUnknown s hs
  have hleft := of_decide_eq_true hout
  refine ⟨s, t, hs, ht, hleft, ?_⟩
  rw [((hall .work t ht).2 hin hleft).2.2]
  decide

end Dispatch

end ResourceServer
