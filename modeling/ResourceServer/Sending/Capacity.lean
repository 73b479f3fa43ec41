import ResourceServer.Sending.History

/-!
# How long the send queue gets

`send` compares the size of the queue with its bound before the push, and strictly,
so that a queue that holds as many nodes as the bound says takes one more. It is at
this step only that the bound is exceeded, and by one node at most.
-/

namespace ResourceServer

open Transition

namespace Sender

/-- The side condition on steps: no message is sent while the queue holds exactly as
many nodes as the bound says. -/
def NotFull (bound : Nat) (s : Sender) : SendAction → Prop
  | .send _ _ => s.sendQueue.length ≠ bound
  | _ => True

instance (bound : Nat) (s : Sender) : (a : SendAction) → Decidable (s.NotFull bound a)
  | .send _ _ => inferInstanceAs (Decidable (_ ≠ _))
  | .writeSome _ _ | .complete _ | .fail _ => isTrue trivial

@[simp] theorem sendQueue_startFront (s : Sender) : s.startFront.sendQueue = s.sendQueue := by
  unfold startFront
  split <;> rfl

/-- An accepted message is pushed, whether or not its write is started. -/
theorem sendQueue_send {bound : Nat} {m : Message} {s : Sender} (mem : Nat → Byte)
    (hb : s.sendQueue.length ≤ bound) :
    (s.send bound mem m).sendQueue = s.sendQueue ++ [⟨s.accepted.length, m.node mem⟩] := by
  by_cases hq : s.sendQueue = []
  · rw [send_nil hq, hq]
    rfl
  · rw [send_of_ne hb hq]

/-- A write handler takes the front away, unless its write has failed. -/
@[simp] theorem sendQueue_writeHandler (ec : Bool) (s : Sender) :
    (s.writeHandler ec).sendQueue = if ec then s.sendQueue else s.sendQueue.tail := by
  cases ec with
  | true => rfl
  | false =>
    simp only [writeHandler, Bool.false_eq_true, ite_false]
    split
    · rfl
    · rw [sendQueue_startFront]

/-- The queue grows by the node of a message sent within the bound, and by nothing else. -/
theorem length_sendQueue_step {bound : Nat} {s t : Sender} {a : SendAction}
    (h : s.step bound a = some t) : t.sendQueue.length ≤ s.sendQueue.length ∨
      (∃ m mem, a = .send m mem) ∧ s.sendQueue.length ≤ bound ∧
        t.sendQueue.length = s.sendQueue.length + 1 := by
  cases a with
  | send m mem =>
    cases h
    by_cases hb : bound < s.sendQueue.length
    · rw [send_of_lt hb]
      exact Or.inl (Nat.le_refl _)
    · have hle := Nat.le_of_not_lt hb
      refine Or.inr ⟨⟨m, mem, rfl⟩, hle, ?_⟩
      rw [sendQueue_send mem hle, List.length_append, List.length_singleton]
  | writeSome i k =>
    obtain ⟨_, _, _, rfl⟩ := writeSome_cases h
    exact Or.inl (Nat.le_refl _)
  | complete i =>
    obtain ⟨_, _, _, rfl⟩ := handler_of_complete h
    simp
  | fail i =>
    obtain ⟨_, _, rfl⟩ := handler_of_fail h
    simp

/-- In every run the queue exceeds its bound by one node at most. -/
theorem length_sendQueue_le {bound : Nat} {as : List SendAction} {s : Sender}
    (h : run (Sender.step bound) init as = some s) : s.sendQueue.length ≤ bound + 1 := by
  refine run_invariant (P := fun s => s.sendQueue.length ≤ bound + 1) (Nat.zero_le _) ?_ h
  intro s a t hs ht
  rcases length_sendQueue_step ht with hle | ⟨_, hbound, hlen⟩
  · exact hle.trans hs
  · omega

/-- Without a message sent to a full queue the bound is kept. -/
theorem length_sendQueue_le_of_notFull {bound : Nat} {as : List SendAction} {s : Sender}
    (hok : Along (Sender.step bound) (NotFull bound) init as)
    (h : run (Sender.step bound) init as = some s) : s.sendQueue.length ≤ bound := by
  refine run_invariant_along (P := fun s => s.sendQueue.length ≤ bound) (Nat.zero_le _) ?_ hok h
  intro s a t hs hC ht
  rcases length_sendQueue_step ht with hle | ⟨⟨m, mem, rfl⟩, _, hlen⟩
  · exact hle.trans hs
  · have hne : s.sendQueue.length ≠ bound := hC
    omega

/-- A message sent to a full queue is pushed. -/
theorem length_sendQueue_of_full {bound : Nat} {s t : Sender} {a : SendAction}
    (h : s.step bound a = some t) (hfull : ¬ s.NotFull bound a) :
    t.sendQueue.length = bound + 1 := by
  cases a with
  | send m mem =>
    cases h
    have hlen : s.sendQueue.length = bound := not_not.mp hfull
    rw [sendQueue_send mem hlen.le, List.length_append, List.length_singleton, hlen]
  | writeSome i k | complete i | fail i => exact absurd trivial hfull

/-- The queue keeps its bound exactly when no message is sent while it is full: it does in
all moments of a run that meets this and not behind a step that does not. It exceeds the
bound by one node at most, and a message that is rejected changes nothing. -/
theorem bounded_iff_notFull (bound : Nat) (as : List SendAction) (s : Sender)
    (h : run (Sender.step bound) init as = some s) :
    (Along (Sender.step bound) (NotFull bound) init as ↔ ∀ bs t, bs <+: as →
      run (Sender.step bound) init bs = some t → t.sendQueue.length ≤ bound) ∧
    s.sendQueue.length ≤ bound + 1 ∧
    ∀ m mem, bound < s.sendQueue.length → s.send bound mem m = s := by
  refine ⟨?_, length_sendQueue_le h, fun m mem hb => send_of_lt hb⟩
  apply along_iff_prefixes (fun bs t => length_sendQueue_le_of_notFull) _ h
  intro t a u hu hfull
  rw [length_sendQueue_of_full hu hfull]
  exact Nat.not_succ_le_self bound

/-- Messages sent with no write completed, up to one more than the bound, are all queued. -/
theorem exists_run_sends (bound : Nat) (m : Message) (mem : Nat → Byte) (k : Nat)
    (hk : k ≤ bound + 1) : ∃ s, run (Sender.step bound) init (List.replicate k (.send m mem)) =
      some s ∧ s.sendQueue.length = k := by
  induction k with
  | zero => exact ⟨init, rfl, rfl⟩
  | succ k ih =>
    obtain ⟨s, hs, hlen⟩ := ih (Nat.le_of_succ_le hk)
    refine ⟨s.send bound mem m, ?_, ?_⟩
    · rw [List.replicate_succ']
      exact run_snoc_eq_some.mpr ⟨s, hs, rfl⟩
    · rw [sendQueue_send mem (by omega), List.length_append, List.length_singleton, hlen]

/-- A session whose first write never completes queues one message more than `MAX_SENDQUE`. -/
theorem not_bounded : ∃ s, run (Sender.step maxSendQue) init
      (List.replicate (maxSendQue + 1) (.send ⟨.idTestMsgRsp, []⟩ fun _ => 0)) = some s ∧
    ¬ s.sendQueue.length ≤ maxSendQue := by
  obtain ⟨s, hs, hlen⟩ := exists_run_sends maxSendQue ⟨.idTestMsgRsp, []⟩ (fun _ => 0)
    (maxSendQue + 1) (Nat.le_refl _)
  refine ⟨s, hs, ?_⟩
  rw [hlen]
  exact Nat.not_succ_le_self maxSendQue

/-- A queue of two that is emptied once before the third message. -/
private def threeSends : List SendAction :=
  [.send ⟨.idTestMsgRsp, []⟩ fun _ => 0, .send ⟨.idTestMsgRsp, [7]⟩ fun _ => 0, .writeSome 0 6,
    .complete 0, .send ⟨.idUploadFileRsp, []⟩ fun _ => 0, .fail 0]

theorem bounded_iff_notFull_three : ∃ s, run (Sender.step 2) init threeSends = some s ∧
    ∀ bs t, bs <+: threeSends → run (Sender.step 2) init bs = some t → t.sendQueue.length ≤ 2 := by
  have hrun : (run (Sender.step 2) init threeSends).isSome = true := by decide +kernel
  obtain ⟨s, hs⟩ := Option.isSome_iff_exists.mp hrun
  have hok : Along (Sender.step 2) (NotFull 2) init threeSends := by decide +kernel
  exact ⟨s, hs, (bounded_iff_notFull 2 threeSends s hs).1.mp hok⟩

end Sender

end ResourceServer
