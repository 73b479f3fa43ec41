import ResourceServer.Framing.Reencode
import ResourceServer.Serving.Views

/-!
# Every request is answered in its turn

What one session keeps whatever its peer sends, the other sessions do and the network
lets fail: its handled frames are answered in their order, each by what its handler
sends, and the socket carries the frames of the accepted answers in that order. A
server with no step left has answered the open sessions completely.
-/

namespace ResourceServer

open FileStream Transition

variable {ι κ : Type}

/-- What the handler of a frame sends, if its id has one. -/
def Frame.AnsweredBy (env : UploadEnv κ) (dump : Json → Bytes) (f : Frame) (ms : List Message) :
    Prop :=
  match callbackHandler f.id with
  | none => ms = []
  | some handler => handler.Answers env dump (Memory.cString 0 f.body) ms

/-- The call due for a frame of session `i`, if its id has a handler. -/
def Frame.call (i : ι) (f : Frame) : Option (Invocation ι) :=
  (callbackHandler f.id).map fun handler => ⟨handler, i, f.id, Memory.cString 0 f.body⟩

/-- The calls due for complete nodes are those due for their frames. -/
theorem invocations_of_complete (i : ι) {posted : List RecvNode}
    (h : ∀ node ∈ posted, node.Complete) :
    invocations (posted.map (LogicNode.mk i)) =
      (posted.map RecvNode.frame).filterMap (Frame.call i) := by
  rw [invocations, List.filterMap_map, List.filterMap_map]
  refine List.filterMap_congr fun node hnode => ?_
  rw [Function.comp_apply, Function.comp_apply, LogicNode.invocation, (h node hnode).cString_body]
  rfl

/-- Where the calls due for frames are answered, the frames are. -/
theorem answeredBy_of_calls {env : UploadEnv κ} {dump : Json → Bytes} (i : ι) {fs : List Frame}
    {chunks : List (List Message)}
    (h : List.Forall₂ (fun call ms => call.handler.Answers env dump call.data ms)
      (fs.filterMap (Frame.call i)) chunks) :
    ∃ chunks', List.Forall₂ (Frame.AnsweredBy env dump) fs chunks' ∧
      chunks'.flatten = chunks.flatten := by
  induction fs generalizing chunks with
  | nil =>
    cases h
    exact ⟨[], .nil, rfl⟩
  | cons f fs ih =>
    cases hf : callbackHandler f.id with
    | none =>
      rw [List.filterMap_cons_none (by rw [Frame.call, hf, Option.map_none])] at h
      obtain ⟨chunks', hall, hflat⟩ := ih h
      refine ⟨[] :: chunks', .cons ?_ hall, by rw [List.flatten_cons, List.nil_append, hflat]⟩
      simp only [Frame.AnsweredBy, hf]
    | some handler =>
      rw [List.filterMap_cons_some (by rw [Frame.call, hf, Option.map_some])] at h
      obtain ⟨ms, rest, hms, hrest, rfl⟩ := List.forall₂_cons_left_iff.mp h
      obtain ⟨chunks', hall, hflat⟩ := ih hrest
      refine ⟨ms :: chunks', .cons ?_ hall, by rw [List.flatten_cons, List.flatten_cons, hflat]⟩
      simp only [Frame.AnsweredBy, hf]
      exact hms

/-- A pending read that waits for bytes, or is not there, does not complete. -/
theorem Receiver.complete_of_idle {r : Receiver} (h : r.Waiting ∨ r.pending = none)
    (fresh : Nat → Byte) : r.complete fresh = none := by
  rcases h with ⟨op, hop, hlt⟩ | hp
  · rw [complete, Option.mem_def.mp hop, Option.bind_some, if_neg (Nat.ne_of_lt hlt)]
  · rw [complete, hp, Option.bind_none]

/-- Without bytes or without a pending read, none is taken. -/
theorem ReadLoop.readSome_of_idle {l : ReadLoop} (h : l.Consumed ∨ l.receiver.pending = none)
    (k : Nat) : l.step (.readSome k) = none := by
  rw [step]
  split
  · rcases h with ⟨hsocket, op, hop, _⟩ | hp
    · rw [hsocket, List.take_nil, Receiver.readSome, Option.mem_def.mp hop, Option.bind_some,
        if_neg fun hne => hne.1 rfl]
      rfl
    · rw [Receiver.readSome, hp]
      rfl
  · rfl

namespace SessionView

/-- The invariant of session `i`, which has received the bytes `arr`. -/
structure Inv (env : UploadEnv κ) (dump : Json → Bytes) (within : Prop) (i : ι) (arr : Bytes)
    (v : SessionView ι) : Prop where
  reading : v.Reading i arr
  answers : ∃ chunks, List.Forall₂ (fun call ms => call.handler.Answers env dump call.data ms)
    v.calls chunks ∧ v.sent = chunks.flatten
  accepted : v.sender.accepted.Sublist v.sent
  accepted_eq : within → v.sender.accepted = v.sent
  sends : v.sender.Inv
  /-- The send half of an open session goes on. -/
  running : v.isStop = false → v.sender.isStop = false

variable {env : UploadEnv κ} {dump : Json → Bytes} {within : Prop} {i : ι} {arr : Bytes}
  {v v' : SessionView ι}

/-- An answered call is sent on its own session. -/
theorem Inv.call (h : v.Inv env dump within i arr) {call : Invocation ι} {ms : List Message}
    (fresh : Nat → Byte) (ha : call.handler.Answers env dump call.data ms)
    (hq : within → v.sender.sendQueue.length ≤ maxSendQue) (hshort : ∀ m ∈ ms, m.Short) :
    Inv env dump within i arr { v with
      calls := v.calls ++ [call]
      sender := ms.foldl (fun t m => t.send maxSendQue fresh m) v.sender
      sent := v.sent ++ ms } := by
  have hreading : Reading i arr { v with
      calls := v.calls ++ [call]
      sender := ms.foldl (fun t m => t.send maxSendQue fresh m) v.sender
      sent := v.sent ++ ms } := ⟨h.reading.holds, h.reading.nodes_eq, h.reading.pending⟩
  obtain ⟨chunks, hchunks, hsent⟩ := h.answers
  have hanswers : ∃ chunks, List.Forall₂
      (fun call ms => call.handler.Answers env dump call.data ms) (v.calls ++ [call]) chunks ∧
        v.sent ++ ms = chunks.flatten := by
    refine ⟨chunks ++ [ms], List.rel_append hchunks (.cons ha .nil), ?_⟩
    rw [List.flatten_append, ← hsent, List.flatten_singleton]
  rcases ha.nil_or_singleton with rfl | ⟨m, rfl⟩
  · rw [List.append_nil] at hanswers hreading ⊢
    exact ⟨hreading, hanswers, h.accepted, h.accepted_eq, h.sends, h.running⟩
  · refine ⟨hreading, hanswers, ?_, ?_, ?_, ?_⟩
    · by_cases hb : maxSendQue < v.sender.sendQueue.length
      · rw [List.foldl_cons, List.foldl_nil, Sender.send_of_lt hb]
        exact h.accepted.trans (List.sublist_append_left _ _)
      · rw [List.foldl_cons, List.foldl_nil, Sender.accepted_send (Nat.le_of_not_lt hb)]
        exact h.accepted.append (List.Sublist.refl _)
    · intro hw
      rw [List.foldl_cons, List.foldl_nil, Sender.accepted_send (hq hw), h.accepted_eq hw]
    · exact h.sends.send maxSendQue fresh (hshort m List.mem_cons_self)
    · intro hopen
      rw [List.foldl_cons, List.foldl_nil, (Sender.frame_send _ _ _ _).1]
      exact h.running hopen

/-- Every step of a session keeps its invariant, while the length fields it receives are not
negative and what it sends is short. -/
theorem Inv.step {bytes : Bytes} (h : v.Inv env dump within i arr)
    (hs : SessionStep env dump within i v bytes v')
    (hlen : ∀ len, Announces (arr ++ bytes) len → 0 ≤ len.toInt)
    (hshort : ∀ m ∈ v'.sent, m.Short) : v'.Inv env dump within i (arr ++ bytes) := by
  have hreading := hs.reading h.reading fun len hl => lengthOk_of_nonneg (hlen len hl)
  cases hs with
  | other | arrive | readSome | readComplete =>
    exact ⟨hreading, h.answers, h.accepted, h.accepted_eq, h.sends, h.running⟩
  | readFail =>
    exact ⟨hreading, h.answers, h.accepted, h.accepted_eq, h.sends,
      fun hopen => Bool.noConfusion hopen⟩
  | call call ms fresh ha hq =>
    rw [List.append_nil]
    exact h.call fresh ha hq fun m hm => hshort m (List.mem_append_right _ hm)
  | writeSome j k t hopen ht =>
    have hsends := h.sends.writeSome ht
    obtain ⟨_, _, _, rfl⟩ := Sender.writeSome_cases ht
    exact ⟨hreading, h.answers, h.accepted, h.accepted_eq, hsends, h.running⟩
  | writeComplete j t ht =>
    have hsends := h.sends.complete ht
    obtain ⟨_, _, _, _, _, _, _, rfl⟩ := Sender.complete_cases h.sends ht
    exact ⟨hreading, h.answers, h.accepted, h.accepted_eq, hsends, h.running⟩
  | writeFail j t ht =>
    have hsends := h.sends.fail ht
    obtain ⟨_, _, rfl⟩ := Sender.handler_of_fail ht
    exact ⟨hreading, h.answers, h.accepted, h.accepted_eq, hsends,
      fun hopen => Bool.noConfusion hopen⟩

/-- A step adds what it sends to the accepted messages if the send queue is within its bound. -/
theorem accepted_of_step {bytes : Bytes} (h : SessionStep env dump within i v bytes v') :
    v'.sender.accepted = v.sender.accepted ++
      if v.sender.sendQueue.length ≤ maxSendQue then v'.sent.drop v.sent.length else [] := by
  have hsame : ∀ t : Sender, t.accepted = v.sender.accepted → t.accepted = v.sender.accepted ++
      if v.sender.sendQueue.length ≤ maxSendQue then v.sent.drop v.sent.length else [] := by
    intro t ht
    rw [List.drop_length, ite_self, List.append_nil, ht]
  cases h with
  | other | arrive | readSome | readComplete | readFail => exact hsame _ rfl
  | call call ms fresh ha hq =>
    change (ms.foldl (fun t m => t.send maxSendQue fresh m) v.sender).accepted = _ ++
      if _ then (v.sent ++ ms).drop v.sent.length else []
    rw [List.drop_left]
    rcases ha.nil_or_singleton with rfl | ⟨m, rfl⟩
    · rw [ite_self, List.append_nil, List.foldl_nil]
    · rw [List.foldl_cons, List.foldl_nil]
      by_cases hb : v.sender.sendQueue.length ≤ maxSendQue
      · rw [Sender.accepted_send hb, if_pos hb]
      · rw [Sender.send_of_lt (not_le.mp hb), if_neg hb, List.append_nil]
  | writeSome j k t hopen ht =>
    obtain ⟨_, _, _, rfl⟩ := Sender.writeSome_cases ht
    exact hsame _ rfl
  | writeComplete j t ht =>
    obtain ⟨_, _, _, rfl⟩ := Sender.handler_of_complete ht
    exact hsame _ (Sender.frame_writeHandler _ _).2.2
  | writeFail j t ht =>
    obtain ⟨_, _, rfl⟩ := Sender.handler_of_fail ht
    exact hsame _ rfl

/-- The frames whose calls were made are answered. -/
theorem Inv.answered (h : v.Inv env dump within i arr) {handled : List Frame}
    (hcalls : v.calls = handled.filterMap (Frame.call i)) :
    ∃ chunks, List.Forall₂ (Frame.AnsweredBy env dump) handled chunks ∧
      v.sent = chunks.flatten := by
  obtain ⟨chunks, hchunks, hsent⟩ := h.answers
  obtain ⟨chunks', hall, hflat⟩ := answeredBy_of_calls i (hcalls ▸ hchunks)
  exact ⟨chunks', hall, hsent.trans hflat.symm⟩

end SessionView

namespace Service

variable [DecidableEq ι] [DecidableEq κ] {env : UploadEnv κ} {dump : Json → Bytes}
  {s : Service ι κ} {mem : ι → Nat → Byte} {disk : Disk κ Byte} {as : List (ServiceAction ι)}

/-- The invariant of one session in every run of the server. -/
theorem inv_of_run (within : Prop)
    (hw : within → Along (step env dump) WithinBound (init mem disk) as)
    (h : run (step env dump) (init mem disk) as = some s) {i : ι}
    (hlen : ∀ len, Announces (received i as) len → 0 ≤ len.toInt)
    (hshort : ∀ m ∈ s.sent i, m.Short) :
    (s.view i).Inv env dump within i (received i as) := by
  refine view_of_run within (ordered_init mem disk)
    (P := fun arr v => (∀ len, Announces arr len → 0 ≤ len.toInt) →
    (∀ m ∈ v.sent, m.Short) → v.Inv env dump within i arr) ?_ ?_ hw h hlen hshort
  · intro _ _
    exact ⟨reading_init mem disk i, ⟨[], .nil, rfl⟩, .slnil, fun _ => rfl, Sender.inv_init,
      fun _ => rfl⟩
  · intro arr v bytes v' hinv hs hlen' hshort'
    refine (hinv ?_ ?_).step hs hlen' hshort'
    · exact fun len hl => hlen' len (hl.mono (List.prefix_append _ _))
    · exact fun m hm => hshort' m (hs.sent_prefix.subset hm)

omit [DecidableEq κ] in
/-- The calls made for a session are those due for some of its first frames. -/
theorem prefix_calls {arr : Bytes} {i : ι} (ho : s.Ordered) (h : (s.view i).Reading i arr) :
    (s.view i).calls <+: (s.loops i).frames.filterMap (Frame.call i) ∧
      (s.dispatch.logicQue = [] →
        (s.view i).calls = (s.loops i).frames.filterMap (Frame.call i)) := by
  have hdue : callsOf i (invocations s.dispatch.posted) =
      (s.loops i).frames.filterMap (Frame.call i) := by
    have hnodes : nodesOf i s.dispatch.posted = _ := h.nodes_eq
    rw [callsOf_invocations, hnodes]
    exact invocations_of_complete i h.holds.complete
  rw [← hdue]
  refine ⟨ho.fifo.invoked_prefix.filter _, fun hq => ?_⟩
  rw [← ho.fifo.invoked_eq hq]
  rfl

/-- What a step gets accepted on session `i`: the answers it sends there, if the send queue is
within its bound. -/
def admitted (i : ι) (s : Service ι κ) (_ : ServiceAction ι) (t : Service ι κ) : List Message :=
  if (s.senders i).sendQueue.length ≤ maxSendQue then (t.sent i).drop (s.sent i).length else []

/-- The messages accepted on a session are, in their order, the answers sent while its queue is
within the bound. -/
theorem accepted_of_run (h : run (step env dump) (init mem disk) as = some s) (i : ι) :
    (s.senders i).accepted = outputs (step env dump) (admitted i) (init mem disk) as := by
  refine run_outputs (P := Ordered) (fun s => (s.senders i).accepted) ?_
    (ordered_init mem disk) h
  intro s a t ho ht
  exact ⟨ho.step ht, SessionView.accepted_of_step (step_view ho ht i)⟩

/-- Requests are answered in their order. Whatever a peer sends in frames of no negative
length, whatever the other sessions send, and whatever fails at any time: some of the
first frames of what a session has received are handled, in turn, with the calls made for the
session, each of them answered by what its handler sends; and the bytes written to the session
are at every moment an initial part of the frames of answers, in that order, with those and only
those left out that found the send queue over its bound. -/
theorem answered_in_order (env : UploadEnv κ) (dump : Json → Bytes) (mem : ι → Nat → Byte)
    (disk : Disk κ Byte) (as : List (ServiceAction ι)) (s : Service ι κ)
    (hrun : run (step env dump) (init mem disk) as = some s) (i : ι)
    (hlen : ∀ len, Announces (received i as) len → 0 ≤ len.toInt)
    (hshort : ∀ m ∈ s.sent i, m.Short) :
    ∃ (handled : List Frame) (rest : Bytes) (chunks : List (List Message)),
      received i as = handled.flatMap Frame.encode ++ rest ∧
        callsOf i s.dispatch.invoked = handled.filterMap (Frame.call i) ∧
        List.Forall₂ (Frame.AnsweredBy env dump) handled chunks ∧ s.sent i = chunks.flatten ∧
        (s.senders i).accepted.Sublist chunks.flatten ∧
        (s.senders i).accepted = outputs (step env dump) (admitted i) (init mem disk) as ∧
        (s.senders i).wire <+: (s.senders i).accepted.flatMap Message.frame := by
  have hinv := inv_of_run False False.elim hrun hlen hshort
  have hcalls := (prefix_calls (ordered_of_run hrun) hinv.reading).1
  obtain ⟨handled, hhandled, hcalls⟩ := List.prefix_filterMap_iff.mp hcalls
  obtain ⟨chunks, hall, hsent⟩ := hinv.answered hcalls
  obtain ⟨part, hsplit, _⟩ := hinv.reading.holds.split
  obtain ⟨more, hmore⟩ := hhandled
  refine ⟨handled, more.flatMap Frame.encode ++ part ++ (s.loops i).socket, chunks, ?_, hcalls,
    hall, hsent, hsent ▸ hinv.accepted, accepted_of_run hrun i, hinv.sends.wire_prefix⟩
  rw [hsplit]
  change (s.loops i).frames.flatMap _ ++ _ ++ _ = _
  rw [← hmore, List.flatMap_append]
  simp only [List.append_assoc]
  rfl

/-- A test message of one byte. -/
private def testFrame : Frame :=
  ⟨.idTestMsgReq, [104], Nat.one_lt_two_pow (Nat.succ_ne_zero 31)⟩

/-- Frames that begin a stream of one frame are that frame. -/
private theorem eq_testFrame {fs : List Frame} {rest : Bytes}
    (h : testFrame.encode = fs.flatMap Frame.encode ++ rest) (hne : fs ≠ []) :
    fs = [testFrame] := by
  have hprefix : fs <+: [testFrame] := by
    refine Frame.prefixFree_encode.of_flatMap Frame.encode_ne_nil ?_
    rw [List.flatMap_singleton, h]
    exact List.prefix_append _ _
  refine hprefix.eq_of_length_le ?_
  exact List.length_pos_iff.mpr hne

/-- The head of a test message, and a test message that is answered while another session fails
and a third is in the middle of its head. -/
private def oneFails : List (ServiceAction (Fin 3)) :=
  [.arrive 0 [3, 233, 0, 0, 0, 1, 104], .arrive 1 [3, 233, 0], .readSome 1 3, .readFail 1,
    .arrive 2 [0, 7], .readSome 2 2, .readSome 0 6, .readComplete 0 fun _ => 9, .readSome 0 1,
    .readComplete 0 fun _ => 9] ++
  List.replicate 8 (.work ⟨none, false, false⟩ fun _ => 7) ++ [.writeSome 0 0 3]

/-- The message announces its own length only. -/
private theorem nonneg_of_testFrame {as : List (ServiceAction (Fin 3))}
    (has : received 0 as = testFrame.encode) (len : BitVec 32)
    (hl : Announces (received 0 as) len) : 0 ≤ len.toInt := by
  have hone : received 0 as <+: [testFrame].flatMap Frame.encode := by
    simp only [has, List.flatMap_singleton, List.prefix_rfl]
  obtain ⟨f, hf, rfl⟩ := hl.of_frames hone
  rw [List.mem_singleton.mp hf]
  decide

theorem answered_in_order_one :
    ∃ s, run (step (tableEnv []) fun _ => []) (init (fun _ _ => 7) fun _ => []) oneFails = some s ∧
      callsOf 0 s.dispatch.invoked = [⟨.testSend, 0, .idTestMsgReq, [104]⟩] ∧
      Frame.AnsweredBy (tableEnv []) (fun _ => []) testFrame [⟨.idTestMsgRsp, [104]⟩] ∧
      (s.senders 0).accepted = [⟨.idTestMsgRsp, [104]⟩] ∧ (s.senders 0).wire = [3, 234, 0] := by
  have hrun : (run (step (tableEnv []) fun _ => []) (init (fun _ _ => 7) fun _ => [])
      oneFails).any fun s => (s.senders 0).wire = [3, 234, 0] ∧
        s.sent 0 = [⟨.idTestMsgRsp, [104]⟩] := by
    decide +kernel
  obtain ⟨s, hs, hlast⟩ := (Option.any_eq_true _ _).mp hrun
  obtain ⟨hwire, hsent⟩ := of_decide_eq_true hlast
  have hreceived : received 0 oneFails = testFrame.encode := by decide +kernel
  have hshort : ∀ m ∈ s.sent 0, m.Short := by
    rw [hsent]
    simp [Message.Short]
  obtain ⟨handled, _, chunks, hsplit, hcalls, hall, hflat, _, haccepted, _⟩ :=
    answered_in_order (tableEnv []) (fun _ => []) (fun _ _ => 7) (fun _ => []) oneFails s hs 0
      (nonneg_of_testFrame hreceived) hshort
  have hne : handled ≠ [] := by
    rintro rfl
    cases hall
    rw [hsent] at hflat
    contradiction
  obtain rfl := eq_testFrame (hreceived ▸ hsplit) hne
  obtain ⟨ms, _, hms, hnil, rfl⟩ := List.forall₂_cons_left_iff.mp hall
  cases hnil
  rw [hsent, List.flatten_singleton] at hflat
  refine ⟨s, hs, hcalls, hflat ▸ hms, ?_, hwire⟩
  rw [haccepted]
  decide +kernel

/-- A server with no step left has its worker blocked on an empty queue. -/
theorem Quiescent.asleep (hq : s.Quiescent env dump) (ho : s.Ordered) :
    s.dispatch.worker = .asleep ∧ s.dispatch.logicQue = [] := by
  have hwork := hq (.work ⟨none, false, false⟩ fun _ => 0) trivial
  have hasleep := ho.running.asleep_of_stuck (Option.map_eq_none_iff.mp hwork)
  exact ⟨hasleep, ho.running.idle (Or.inr hasleep)⟩

/-- A server with no step left has consumed what its open sessions have received. -/
theorem Quiescent.consumed (hq : s.Quiescent env dump) (ho : s.Ordered) {i : ι} {arr : Bytes}
    (hopen : s.isStop i = false) (hreading : (s.view i).Reading i arr) :
    (s.loops i).Consumed := by
  by_contra hc
  have hholds : (s.loops i).Holds arr := hreading.holds
  have hp : (s.loops i).receiver.pending ≠ none := hreading.pending hopen
  obtain ⟨a, l, hlocal, hl, _⟩ := hholds.exists_local hp hc
  cases a with
  | arrive piece => exact hlocal
  | fail => exact hlocal
  | readSome k =>
    have hread := hq (.readSome i k) trivial
    rw [step, hopen, if_neg Bool.false_ne_true, hl] at hread
    contradiction
  | complete fresh =>
    have hread := hq (.readComplete i fresh) trivial
    obtain ⟨r, node, hr, _⟩ := ReadLoop.completed_cases hl
    rw [step, readComplete, hr] at hread
    cases node with
    | none => contradiction
    | some node =>
      have hfree : ¬ s.dispatch.worker.Locked := by
        rw [(hq.asleep ho).1]
        exact id
      exact Dispatch.post_ne_none hfree (Option.map_eq_none_iff.mp hread)

/-- A server with no step left has nothing in flight to its open sessions. -/
theorem Quiescent.written (hq : s.Quiescent env dump) {i : ι} (hopen : s.isStop i = false) :
    (s.senders i).writing = [] := by
  by_contra hne
  obtain ⟨op, ops, hw⟩ := List.exists_cons_of_ne_nil hne
  by_cases hrest : op.rest = []
  · have hcomplete := hq (.writeComplete i 0) trivial
    rw [step, Sender.complete, hw, List.getElem?_cons_zero, Option.bind_some, if_pos hrest]
      at hcomplete
    contradiction
  · have hwrite := hq (.writeSome i 0 op.rest.length) trivial
    rw [step, hopen, if_neg Bool.false_ne_true, Sender.writeSome, hw, List.getElem?_cons_zero,
      Option.bind_some, if_pos ⟨List.length_pos_iff.mpr hrest, Nat.le_refl _⟩] at hwrite
    contradiction

/-- A server whose worker is blocked, and whose sessions have consumed what they have received or
are closed, with nothing in flight, has no step left. -/
theorem quiescent_of_idle (hasleep : s.dispatch.worker = .asleep)
    (hidle : ∀ i, ((s.loops i).Consumed ∨ (s.loops i).receiver.pending = none) ∧
      (s.senders i).writing = []) : s.Quiescent env dump := by
  intro a ha
  cases a with
  | arrive | readFail | wake | flush | writeFail => exact ha.elim
  | readSome j k =>
    rw [step]
    split
    · rfl
    · rw [Option.map_eq_none_iff]
      exact ReadLoop.readSome_of_idle (hidle j).1 k
  | readComplete j fresh =>
    rw [step, readComplete, Receiver.complete_of_idle ((hidle j).1.imp_left And.right) fresh,
      Option.bind_none]
  | work os fresh =>
    rw [step, work, Dispatch.dealMessage, hasleep]
    rfl
  | writeSome j l k =>
    rw [step, Sender.writeSome, (hidle j).2, List.getElem?_nil]
    exact ite_self _
  | writeComplete j l =>
    rw [step, Sender.complete, (hidle j).2, List.getElem?_nil]
    rfl

/-- A server with no step left has answered its open sessions. While no handler finds a
send queue over its bound, what an open session has received is whole frames and an end
that stops inside one, its calls are those of all these frames, and the bytes written to it
are the frames of the answers to all of them, whatever the other sessions have sent and
whatever of them has failed. -/
theorem answered_of_quiescent (env : UploadEnv κ) (dump : Json → Bytes) (mem : ι → Nat → Byte)
    (disk : Disk κ Byte) (as : List (ServiceAction ι)) (s : Service ι κ)
    (hrun : run (step env dump) (init mem disk) as = some s)
    (hbound : Along (step env dump) WithinBound (init mem disk) as)
    (hquiescent : s.Quiescent env dump) (i : ι) (hopen : s.isStop i = false)
    (hlen : ∀ len, Announces (received i as) len → 0 ≤ len.toInt)
    (hshort : ∀ m ∈ s.sent i, m.Short) :
    ∃ (fs : List Frame) (rest : Bytes) (chunks : List (List Message)),
      received i as = fs.flatMap Frame.encode ++ rest ∧ Frame.Cut rest ∧
        callsOf i s.dispatch.invoked = fs.filterMap (Frame.call i) ∧
        List.Forall₂ (Frame.AnsweredBy env dump) fs chunks ∧
        (s.senders i).wire = chunks.flatten.flatMap Message.frame := by
  have hinv := inv_of_run True (fun _ => hbound) hrun hlen hshort
  have ho := ordered_of_run hrun
  have hrunning := hinv.running hopen
  have hcalls := (prefix_calls ho hinv.reading).2 (hquiescent.asleep ho).2
  obtain ⟨chunks, hall, hsent⟩ := hinv.answered hcalls
  have hconsumed := hquiescent.consumed ho hopen hinv.reading
  obtain ⟨part, hsplit, hpart⟩ := hinv.reading.holds.split
  refine ⟨(s.loops i).frames, part, chunks, ?_, hconsumed.cut hpart, hcalls, hall, ?_⟩
  · rw [hsplit]
    change _ ++ _ ++ (s.loops i).socket = _
    rw [hconsumed.1, List.append_nil]
    rfl
  · have hdrained : (s.senders i).sendQueue = [] := by
      by_contra hne
      exact (hinv.sends.writing_iff hrunning).mpr hne (hquiescent.written hopen)
    rw [← hsent, ← hinv.accepted_eq trivial]
    exact hinv.sends.wire_of_drained hrunning hdrained

theorem answered_of_quiescent_one :
    ∃ s, run (step (tableEnv []) fun _ => []) (init (fun _ _ => 7) fun _ => [])
        (oneFails ++ [.writeSome 0 0 4, .writeComplete 0 0]) = some s ∧
      s.Quiescent (tableEnv []) (fun _ => []) ∧
      callsOf 0 s.dispatch.invoked = [⟨.testSend, 0, .idTestMsgReq, [104]⟩] ∧
      Frame.AnsweredBy (tableEnv []) (fun _ => []) testFrame [⟨.idTestMsgRsp, [104]⟩] ∧
      (s.senders 0).wire = [3, 234, 0, 0, 0, 1, 104] := by
  have hrun : (run (step (tableEnv []) fun _ => []) (init (fun _ _ => 7) fun _ => [])
      (oneFails ++ [.writeSome 0 0 4, .writeComplete 0 0])).any fun s =>
        s.isStop 0 = false ∧ s.sent 0 = [⟨.idTestMsgRsp, [104]⟩] ∧
          s.dispatch.worker = .asleep ∧ ∀ i, ((s.loops i).Consumed ∨
            (s.loops i).receiver.pending = none) ∧ (s.senders i).writing = [] := by
    decide +kernel
  have hbound : Along (step (tableEnv []) fun _ => []) WithinBound
      (init (fun _ _ => 7) fun _ => []) (oneFails ++ [.writeSome 0 0 4, .writeComplete 0 0]) := by
    decide +kernel
  obtain ⟨s, hs, hlast⟩ := (Option.any_eq_true _ _).mp hrun
  obtain ⟨hopen, hsent, hasleep, hidle⟩ := of_decide_eq_true hlast
  have hreceived : received 0 (oneFails ++ [.writeSome 0 0 4, .writeComplete 0 0]) =
      testFrame.encode := by
    decide +kernel
  have hshort : ∀ m ∈ s.sent 0, m.Short := by
    rw [hsent]
    simp [Message.Short]
  have hquiescent : s.Quiescent (tableEnv []) fun _ => [] := quiescent_of_idle hasleep hidle
  obtain ⟨fs, rest, chunks, hsplit, hcut, hcalls, hall, hwire⟩ := answered_of_quiescent (tableEnv [])
    (fun _ => []) (fun _ _ => 7) (fun _ => []) _ s hs hbound hquiescent 0 hopen
    (nonneg_of_testFrame hreceived) hshort
  have hne : fs ≠ [] := by
    rintro rfl
    rw [hreceived, List.flatMap_nil, List.nil_append] at hsplit
    exact hcut.incomplete testFrame (hsplit ▸ List.prefix_rfl)
  obtain rfl := eq_testFrame (hreceived ▸ hsplit) hne
  obtain ⟨ms, _, hms, hnil, rfl⟩ := List.forall₂_cons_left_iff.mp hall
  cases hnil
  have hanswer : ms = [⟨.idTestMsgRsp, [104]⟩] := hms
  rw [hanswer] at hms hwire
  exact ⟨s, hs, hquiescent, hcalls, hms, hwire.trans (by decide +kernel)⟩

end Service

end ResourceServer
