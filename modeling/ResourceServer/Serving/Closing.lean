import ResourceServer.Serving.Answers

/-!
# What a closed session still does

`close` ends what moves on the socket, not what is under way: a read whose buffer was
full runs its handler, the worker goes on with the messages that were posted, and what
it sends is queued for a socket that takes no more.
-/

namespace ResourceServer

open FileStream Transition

namespace Sender

/-- `send` puts nothing on the socket itself. -/
theorem wire_foldl_send (bound : Nat) (mem : Nat → Byte) (ms : List Message) (s : Sender) :
    (ms.foldl (fun t m => t.send bound mem m) s).wire = s.wire := by
  induction ms generalizing s with
  | nil => rfl
  | cons m ms ih => rw [List.foldl_cons, ih, (frame_send _ _ _ _).2]

end Sender

/-- A read that has posted its message waits for a head. -/
theorem Receiver.waiting_of_complete {r r' : Receiver} {fresh : Nat → Byte} {node : RecvNode}
    (h : r.complete fresh = some (r', some node)) : r'.Waiting := by
  rcases ReadLoop.complete_cases h with ⟨_, _, _, hnone⟩ | ⟨n, cur, _, _, _, he⟩
  · contradiction
  · rcases onReadMessageFull_cases he with ⟨_, rfl, _⟩ | ⟨_, _, hnone⟩
    · exact ⟨.readHead, rfl, Nat.succ_pos 5⟩
    · contradiction

variable {ι κ : Type}

/-- Session `i`, closed in the state `v`, in a later state `w`: nothing has moved on its socket,
its pending read is that of `v` unless that had all its bytes or has failed, and at most one
message has been posted, by the last of its reads. -/
structure SessionView.Behind (i : ι) (v w : SessionView ι) : Prop where
  isStop : w.isStop = true
  wire_eq : w.sender.wire = v.sender.wire
  socket_eq : w.loop.socket = v.loop.socket
  receiver_eq : w.loop.receiver = v.loop.receiver ∨ v.loop.receiver.Full ∨
    w.loop.receiver.pending = none
  posts : ∃ late : Option RecvNode, w.loop.posted = v.loop.posted ++ late.toList ∧
    w.nodes = v.nodes ++ late.toList.map (LogicNode.mk i) ∧
    (late ≠ none → v.loop.receiver.Full ∧
      (w.loop.receiver.Waiting ∨ w.loop.receiver.pending = none))

namespace SessionView

/-- A session is behind itself when it is closed. -/
theorem behind_self (i : ι) {v : SessionView ι} (h : v.isStop = true) : v.Behind i v :=
  ⟨h, rfl, rfl, Or.inl rfl, none, (List.append_nil _).symm, (List.append_nil _).symm,
    fun hne => absurd rfl hne⟩

/-- A read that completes behind the end of its session had all its bytes then. -/
theorem Behind.full {i : ι} {v w : SessionView ι} (h : v.Behind i w) {fresh : Nat → Byte}
    {r : Receiver} {node : Option RecvNode} (hr : w.loop.receiver.complete fresh = some (r, node)) :
    v.loop.receiver.Full := by
  have hfull := Receiver.full_of_complete hr
  rcases h.receiver_eq with hsame | hv | hnone
  · exact hsame ▸ hfull
  · exact hv
  · obtain ⟨op, hop, _⟩ := hfull
    rw [hnone] at hop
    contradiction

/-- The last of the reads runs its handler, and posts if none has posted before. -/
theorem Behind.readComplete {i : ι} {v w : SessionView ι} (h : v.Behind i w) {fresh : Nat → Byte}
    {r : Receiver} {node : Option RecvNode} (hr : w.loop.receiver.complete fresh = some (r, node)) :
    v.Behind i { w with
      loop := { w.loop with receiver := r, posted := w.loop.posted ++ node.toList }
      nodes := w.nodes ++ node.toList.map (LogicNode.mk i) } := by
  obtain ⟨late, hposted, hnodes, hlate⟩ := h.posts
  have hnone : late = none := by
    by_contra hne
    rw [Receiver.complete_of_idle (hlate hne).2] at hr
    contradiction
  subst hnone
  have hfull := h.full hr
  refine ⟨h.isStop, h.wire_eq, h.socket_eq, Or.inr (Or.inl hfull), node, ?_, ?_,
    fun hne => ⟨hfull, Or.inl ?_⟩⟩
  · rw [hposted, Option.toList_none, List.append_nil]
  · rw [hnodes, Option.toList_none, List.map_nil, List.append_nil]
  · obtain ⟨node, rfl⟩ := Option.ne_none_iff_exists'.mp hne
    exact Receiver.waiting_of_complete hr

/-- Every step of a closed session leaves it behind, and receives nothing. -/
theorem Behind.step {env : UploadEnv κ} {dump : Json → Bytes} {within : Prop} {i : ι}
    {bytes : Bytes} {v w w' : SessionView ι} (h : v.Behind i w) (hs : SessionStep env dump within i w bytes w') :
    v.Behind i w' ∧ bytes = [] := by
  cases hs with
  | arrive _ l hopen hl | readSome k l hopen hl | writeSome j k t hopen ht =>
    rw [h.isStop] at hopen
    contradiction
  | other => exact ⟨h, rfl⟩
  | readComplete fresh r node hr => exact ⟨h.readComplete hr, rfl⟩
  | readFail l hl =>
    obtain rfl := ReadLoop.failed_cases hl
    obtain ⟨late, hposted, hnodes, hlate⟩ := h.posts
    exact ⟨⟨rfl, h.wire_eq, h.socket_eq, Or.inr (Or.inr rfl), late, hposted, hnodes,
      fun hne => ⟨(hlate hne).1, Or.inr rfl⟩⟩, rfl⟩
  | call call ms fresh ha hq =>
    refine ⟨⟨h.isStop, ?_, h.socket_eq, h.receiver_eq, h.posts⟩, rfl⟩
    exact (Sender.wire_foldl_send _ _ _ _).trans h.wire_eq
  | writeComplete j t ht =>
    obtain ⟨_, _, _, rfl⟩ := Sender.handler_of_complete ht
    refine ⟨⟨h.isStop, ?_, h.socket_eq, h.receiver_eq, h.posts⟩, rfl⟩
    exact (Sender.frame_writeHandler _ _).2.1.trans h.wire_eq
  | writeFail j t ht =>
    obtain ⟨_, _, rfl⟩ := Sender.handler_of_fail ht
    refine ⟨⟨rfl, ?_, h.socket_eq, h.receiver_eq, h.posts⟩, rfl⟩
    exact (Sender.frame_writeHandler _ _).2.1.trans h.wire_eq

end SessionView

namespace Service

variable [DecidableEq ι] [DecidableEq κ]

/-- A closed session stays closed. Whatever the server does behind the moment a session was
closed by an error, no byte reaches or leaves it or moves on its socket, and at most one more
message of it is posted, and that only if its pending read had all its bytes when it was closed. -/
theorem closed_for_good (env : UploadEnv κ) (dump : Json → Bytes) (mem : ι → Nat → Byte)
    (disk : Disk κ Byte) (as : List (ServiceAction ι)) (s : Service ι κ)
    (hrun : run (step env dump) (init mem disk) as = some s) (i : ι) (hstop : s.isStop i = true)
    (bs : List (ServiceAction ι)) (t : Service ι κ) (hafter : run (step env dump) s bs = some t) :
    t.isStop i = true ∧ received i bs = [] ∧ (t.loops i).socket = (s.loops i).socket ∧
      (t.senders i).wire = (s.senders i).wire ∧
      ∃ late : Option RecvNode, (t.loops i).posted = (s.loops i).posted ++ late.toList ∧
        nodesOf i t.dispatch.posted =
          nodesOf i s.dispatch.posted ++ late.toList.map (LogicNode.mk i) ∧
        (late ≠ none → (s.loops i).receiver.Full) := by
  obtain ⟨hbehind, hnothing⟩ := view_of_run False (ordered_of_run hrun)
    (P := fun arr v => (s.view i).Behind i v ∧ arr = []) ⟨SessionView.behind_self i hstop, rfl⟩
    (by
      rintro arr v bytes v' ⟨hv, rfl⟩ hs
      exact hv.step hs) False.elim hafter
  obtain ⟨late, hposted, hnodes, hlate⟩ := hbehind.posts
  exact ⟨hbehind.isStop, hnothing, hbehind.socket_eq, hbehind.wire_eq, late, hposted, hnodes,
    fun hne => (hlate hne).1⟩

/-- An answered message, and the head of an empty one that has arrived whole when the write of
the answer fails. -/
private def closedInside : List (ServiceAction Bool) :=
  [.arrive true [3, 233, 0, 0, 0, 1, 104, 3, 233, 0, 0, 0, 0], .readSome true 6,
    .readComplete true fun _ => 9, .readSome true 1, .readComplete true fun _ => 9] ++
  List.replicate 8 (.work ⟨none, false, false⟩ fun _ => 7) ++
  [.readSome true 6, .writeSome true 0 2, .writeFail true 0]

theorem closed_for_good_late :
    ∃ s t, run (step (tableEnv []) fun _ => []) (init (fun _ _ => 7) fun _ => []) closedInside =
        some s ∧ run (step (tableEnv []) fun _ => []) s
          [.readComplete true fun _ => 9, .readComplete true fun _ => 9] = some t ∧
        (s.loops true).posted.length = 1 ∧ (t.loops true).posted.length = 2 ∧
        (s.loops true).receiver.Full ∧ (t.senders true).wire = [3, 234] := by
  have hrun : (run (step (tableEnv []) fun _ => []) (init (fun _ _ => 7) fun _ => [])
      closedInside).any fun s => s.isStop true = true ∧ (s.loops true).posted.length = 1 ∧
        (s.senders true).wire = [3, 234] ∧
        (run (step (tableEnv []) fun _ => []) s [.readComplete true fun _ => 9,
          .readComplete true fun _ => 9]).any fun t => (t.loops true).posted.length = 2 := by
    decide +kernel
  obtain ⟨s, hs, hlast⟩ := (Option.any_eq_true _ _).mp hrun
  obtain ⟨hstop, hbefore, hwire, hafter⟩ := of_decide_eq_true hlast
  obtain ⟨t, ht, hlength⟩ := (Option.any_eq_true _ _).mp hafter
  have hlength := of_decide_eq_true hlength
  obtain ⟨_, _, _, hsame, late, hposted, _, hlate⟩ := closed_for_good (tableEnv []) (fun _ => [])
    (fun _ _ => 7) (fun _ => []) closedInside s hs true hstop _ t ht
  refine ⟨s, t, hs, ht, hbefore, hlength, hlate ?_, hsame.trans hwire⟩
  rintro rfl
  rw [hposted, Option.toList_none, List.append_nil, hbefore] at hlength
  contradiction

end Service

end ResourceServer
