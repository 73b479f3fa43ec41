import ResourceServer.Dispatch.Wakeup

/-!
# Bounded waiting

A queued message is handled within a fixed number of steps of the worker for every
message before it. Posts behind it, wake-ups and the destructor do not put it off,
and until it is handled the worker is never blocked.
-/

namespace ResourceServer

open Transition

variable {ι : Type*}

/-- The steps of the worker in a schedule. -/
def works (as : List (DispatchAction ι)) : Nat :=
  as.countP fun
    | .work => true
    | _ => false

/-- The steps of the worker in two schedules in turn. -/
theorem works_append (as bs : List (DispatchAction ι)) : works (as ++ bs) = works as + works bs :=
  List.countP_append

/-- The steps behind the worker in the current round of its loop. -/
def WorkerPc.inRound : WorkerPc → Nat
  | .locking => 1
  | .checking => 2
  | .awake => 3
  | .called => 4
  | .testing | .dozing | .asleep | .left => 0

/-- The worker is in the rounds of its loop, neither blocked nor about to be. -/
def WorkerPc.Rounds : WorkerPc → Prop
  | .locking | .checking | .awake | .called | .testing => True
  | .dozing | .asleep | .left => False

namespace Dispatch

/-- A step appends what it posts, or removes the front at most. -/
theorem logicQue_of_step {s t : Dispatch ι} {a : DispatchAction ι} (hs : s.step a = some t) :
    t.logicQue = s.logicQue ++ posts [a] ∨ posts [a] = [] ∧ t.logicQue = s.logicQue.tail := by
  cases a with
  | post node => exact Or.inl (post_cases hs).2.1
  | work =>
    cases workerStep_of_dealMessage hs with
    | lock | ready | doze | sleep | skip | call | leave | again =>
      exact Or.inl (List.append_nil _).symm
    | drop front rest hpc hq hunknown => exact Or.inr ⟨rfl, by rw [hq, List.tail_cons]⟩
    | pop hpc => exact Or.inr ⟨rfl, rfl⟩
  | wake =>
    obtain ⟨_, rfl⟩ := wake_cases hs
    exact Or.inl (List.append_nil _).symm
  | destruct =>
    refine Or.inl (Eq.trans ?_ (List.append_nil _).symm)
    rcases destruct_cases hs with ⟨_, rfl⟩ | ⟨_, rfl⟩ | ⟨_, _, rfl⟩
    · rfl
    · exact logicQue_notify s
    · rfl

/-- Of the messages `first`, queued before `behind` when the schedule began, some are still
queued, each of those that are not has cost the worker a round at most, and the worker is in
the middle of a round. -/
structure Waits (first behind : List (LogicNode ι)) (bs : List (DispatchAction ι))
    (t : Dispatch ι) : Prop where
  split : ∃ gone front rest, first = gone ++ front :: rest ∧
    t.logicQue = front :: rest ++ (behind ++ posts bs) ∧
    works bs ≤ 5 * gone.length + t.worker.inRound
  rounds : t.worker.Rounds

section

variable {first behind : List (LogicNode ι)} {bs : List (DispatchAction ι)} {s t : Dispatch ι}

/-- A node that waits is queued. -/
theorem Waits.ne_nil (h : Waits first behind bs t) : t.logicQue ≠ [] := by
  obtain ⟨gone, front, rest, _, hq, _⟩ := h.split
  rw [hq]
  exact List.cons_ne_nil _ _

/-- A worker in its rounds is not the one that has left, nor one a notification moves. -/
theorem Waits.worker_ne (h : Waits first behind bs t) : t.worker ≠ .left ∧ t.worker ≠ .asleep := by
  constructor <;> intro hpc <;> exact absurd h.rounds (by rw [hpc]; exact id)

/-- Steps that move nothing but the worker, or nothing at all. -/
theorem Waits.move (h : Waits first behind bs s) {a : DispatchAction ι} (ha : posts [a] = [])
    (hq : t.logicQue = s.logicQue) (hround : works [a] + s.worker.inRound ≤ t.worker.inRound)
    (hrounds : t.worker.Rounds) : Waits first behind (bs ++ [a]) t := by
  obtain ⟨gone, front, rest, hfirst, hsplit, hle⟩ := h.split
  refine ⟨⟨gone, front, rest, hfirst, ?_, ?_⟩, hrounds⟩
  · rw [hq, hsplit, posts_append, ha, List.append_nil]
  · rw [works_append]
    omega

/-- The front is removed, which ends its round. -/
theorem Waits.remove (h : Waits first behind bs s) {a : DispatchAction ι} (ha : posts [a] = [])
    (hq : t.logicQue = s.logicQue.tail)
    (hround : works [a] + s.worker.inRound ≤ 5 + t.worker.inRound) (hrounds : t.worker.Rounds) :
    Waits first behind (bs ++ [a]) t ∨ t.logicQue <:+ behind ++ posts (bs ++ [a]) := by
  obtain ⟨gone, front, rest, hfirst, hsplit, hle⟩ := h.split
  rw [posts_append, ha, List.append_nil]
  cases rest with
  | nil =>
    refine Or.inr ?_
    rw [hq, hsplit]
    exact List.suffix_rfl
  | cons next rest =>
    refine Or.inl ⟨⟨gone ++ [front], next, rest, ?_, ?_, ?_⟩, hrounds⟩
    · rw [hfirst, List.append_assoc]
      rfl
    · rw [hq, hsplit, posts_append, ha, List.append_nil]
      rfl
    · rw [works_append, List.length_append, List.length_singleton]
      omega

/-- No step puts the messages off, and a step of the worker brings them forward. -/
theorem Waits.step (h : Waits first behind bs s) {a : DispatchAction ι} (hs : s.step a = some t) :
    Waits first behind (bs ++ [a]) t ∨ t.logicQue <:+ behind ++ posts (bs ++ [a]) := by
  have hne := h.ne_nil
  have hrounds := h.rounds
  cases a with
  | post node =>
    obtain ⟨_, hq, _, _, _, _, hworker⟩ := post_cases hs
    rw [if_neg fun hboth => hne hboth.1] at hworker
    obtain ⟨gone, front, rest, hfirst, hsplit, hle⟩ := h.split
    refine Or.inl ⟨⟨gone, front, rest, hfirst, ?_, ?_⟩, hworker ▸ hrounds⟩
    · rw [hq, hsplit, posts_append, List.append_assoc, List.append_assoc]
      rfl
    · rw [works_append, hworker]
      exact hle
  | work =>
    cases workerStep_of_dealMessage hs with
    | lock hpc | again hpc hmore =>
      exact Or.inl (h.move rfl rfl (by rw [hpc]; exact Nat.le_refl _) trivial)
    | ready hpc hpred =>
      exact Or.inl (h.move rfl rfl (by rw [hpc]; exact Nat.le_refl _) trivial)
    | call front rest call hpc hq hcall =>
      exact Or.inl (h.move rfl rfl (by rw [hpc]; exact Nat.le_refl _) trivial)
    | drop front rest hpc hq hunknown =>
      refine h.remove rfl (by rw [hq, List.tail_cons]) ?_ trivial
      rw [hpc]
      exact Nat.le_add_left 4 2
    | pop hpc =>
      refine h.remove rfl rfl ?_ trivial
      rw [hpc]
      exact Nat.le_refl 5
    | doze hpc hempty hrun | skip hpc hempty | leave hpc hempty hstop => exact absurd hempty hne
    | sleep hpc => exact absurd hrounds (by rw [hpc]; exact id)
  | wake =>
    obtain ⟨hasleep, _⟩ := wake_cases hs
    exact absurd hasleep h.worker_ne.2
  | destruct =>
    rcases destruct_cases hs with ⟨_, rfl⟩ | ⟨_, rfl⟩ | ⟨_, hleft, _⟩
    · exact Or.inl (h.move rfl rfl (Nat.le_of_eq (Nat.zero_add _)) hrounds)
    · have hsame : s.notify = s := if_neg h.worker_ne.2
      rw [hsame]
      exact Or.inl (h.move rfl rfl (Nat.le_of_eq (Nat.zero_add _)) hrounds)
    · exact absurd hleft h.worker_ne.1

/-- What was queued at the beginning waits, or the queue holds later messages only. -/
theorem waits_of_run (hidle : Idle s) (hin : s.worker ≠ .left) (hq : s.logicQue = first ++ behind)
    (hrun : run Dispatch.step s bs = some t) :
    Waits first behind bs t ∨ t.logicQue <:+ behind ++ posts bs := by
  refine run_history (P := fun bs t => Waits first behind bs t ∨
    t.logicQue <:+ behind ++ posts bs) ?_ ?_ hrun
  · cases hfirst : first with
    | nil =>
      rw [hfirst] at hq
      exact Or.inr ⟨[], by rw [hq]; exact (List.append_nil _).symm⟩
    | cons front rest =>
      rw [hfirst] at hq
      refine Or.inl ⟨⟨[], front, rest, rfl, ?_, Nat.zero_le _⟩, ?_⟩
      · rw [hq, show posts ([] : List (DispatchAction ι)) = [] from rfl, List.append_nil]
      · have hne : s.logicQue ≠ [] := by
          rw [hq]
          exact List.cons_ne_nil _ _
        cases hpc : s.worker with
        | locking | checking | awake | called | testing => trivial
        | dozing => exact hne (hidle (Or.inl hpc))
        | asleep => exact hne (hidle (Or.inr hpc))
        | left => exact hin hpc
  · rintro bs u a v (hwaits | ⟨x, hx⟩) huv
    · exact hwaits.step huv
    · refine Or.inr ?_
      rw [posts_append, ← List.append_assoc, ← hx]
      rcases logicQue_of_step huv with hv | ⟨hposts, hv⟩
      · rw [hv]
        exact ⟨x, by rw [List.append_assoc]⟩
      · rw [hv, hposts, List.append_nil]
        exact (List.tail_suffix _).trans (List.suffix_append _ _)

end

/-- What was due for the messages that have left the queue has been called. -/
theorem Fifo.invocations_prefix {nodes gone : List (LogicNode ι)} {s : Dispatch ι}
    (h : Fifo nodes s) (hgone : nodes = gone ++ s.logicQue) : invocations gone <+: s.invoked := by
  obtain ⟨_, gone', hsplit, hidle, hbusy⟩ := h
  obtain rfl := List.append_cancel_right (hgone.symm.trans hsplit)
  by_cases hcalled : s.worker = .called
  · obtain ⟨front, rest, call, _, _, hinvoked⟩ := hbusy hcalled
    rw [hinvoked]
    exact List.prefix_append _ _
  · exact hidle hcalled ▸ List.prefix_rfl

/-- Waiting is bounded. Let `first` be queued, with `behind` after it, while the worker is in its
loop. Whatever is posted from then on, and whatever the destructor does: until all of `first` is
gone from the queue the worker has a step to take; and once it has taken five for each message
of `first`, all of them are gone, and what was due for them and for those before them has been
called, in the order of the posts. -/
theorem handled_within (as : List (DispatchAction ι)) (s : Dispatch ι)
    (h : run step init as = some s) (hin : s.worker ≠ .left)
    (first behind : List (LogicNode ι)) (hq : s.logicQue = first ++ behind)
    (bs : List (DispatchAction ι)) (t : Dispatch ι) (hbs : run step s bs = some t) :
    (¬ t.logicQue <:+ behind ++ posts bs → t.step .work ≠ none) ∧
      (5 * first.length ≤ works bs → t.logicQue <:+ behind ++ posts bs ∧
        ∃ early, posts as = early ++ behind ∧ first <:+ early ∧
          invocations early <+: t.invoked) := by
  have hwaits := waits_of_run (idle_of_run h) hin hq hbs
  constructor
  · intro hsome hstuck
    obtain ⟨hleft, hasleep⟩ := (hwaits.resolve_right hsome).worker_ne
    exact (worker_of_stuck hstuck).elim hasleep hleft
  · intro hmany
    have hgone : t.logicQue <:+ behind ++ posts bs := by
      refine hwaits.resolve_left fun hw => ?_
      obtain ⟨gone, front, rest, rfl, _, hle⟩ := hw.split
      have hround : t.worker.inRound ≤ 4 := by cases t.worker <;> decide
      rw [List.length_append, List.length_cons] at hmany
      omega
    obtain ⟨_, before, hsplit, _⟩ := fifo_of_run h
    rw [hq, ← List.append_assoc] at hsplit
    refine ⟨hgone, before ++ first, hsplit, List.suffix_append _ _, ?_⟩
    obtain ⟨x, hx⟩ := hgone
    have hfifo := fifo_of_run (run_append_eq_some.mpr ⟨s, h, hbs⟩)
    refine (List.prefix_append _ (invocations x)).trans ?_
    rw [← invocations_append]
    refine hfifo.invocations_prefix ?_
    rw [posts_append, hsplit, List.append_assoc _ x, hx, List.append_assoc, List.append_assoc]

/-- A message behind one of an unknown id, with the worker about to handle the first of them. -/
private def twoQueued : List (DispatchAction Nat) :=
  [.post ⟨3, RecvNode.new (fun _ => 0) 0 .idTestMsgRsp⟩,
    .post ⟨4, RecvNode.new (fun _ => 0) 0 .idTestMsgReq⟩, .work, .work]

/-- Ten steps of the worker, with posts between them, and the destructor. -/
private def postsBetween : List (DispatchAction Nat) :=
  [.work, .post ⟨5, RecvNode.new (fun _ => 0) 0 .idTestMsgReq⟩] ++ List.replicate 5 .work ++
    [.post ⟨6, RecvNode.new (fun _ => 0) 0 .idTestMsgReq⟩, .destruct, .destruct] ++
    List.replicate 4 .work

/-- Two queued messages are handled while others are posted. -/
theorem handled_within_posts : ∃ s t, run step init twoQueued = some s ∧
    run step s postsBetween = some t ∧ t.logicQue ≠ [] ∧
      ∃ early, early.length = 2 ∧ invocations early <+: t.invoked := by
  have hrun : (run step init twoQueued).any fun s => s.worker ≠ .left ∧
      s.logicQue.length = 2 ∧ (posts twoQueued).length = 2 ∧
        (run step s postsBetween).any fun t => t.logicQue ≠ [] := by
    decide +kernel
  obtain ⟨s, hs, hlast⟩ := (Option.any_eq_true _ _).mp hrun
  obtain ⟨hin, hqueued, hposted, hafter⟩ := of_decide_eq_true hlast
  obtain ⟨t, ht, hne⟩ := (Option.any_eq_true _ _).mp hafter
  have hworks : 5 * s.logicQue.length ≤ works postsBetween := by
    rw [hqueued]
    decide
  obtain ⟨_, early, hearly, _, hcalled⟩ := (handled_within twoQueued s hs hin s.logicQue []
    (List.append_nil _).symm postsBetween t ht).2 hworks
  rw [List.append_nil] at hearly
  exact ⟨s, t, hs, ht, of_decide_eq_true hne, early, hearly ▸ hposted, hcalled⟩

end Dispatch

end ResourceServer
