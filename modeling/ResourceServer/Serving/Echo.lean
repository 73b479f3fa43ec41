import ResourceServer.Dispatch.Wakeup
import ResourceServer.Native.Server
import ResourceServer.Serving.Sessions

/-!
# Every session gets its own echo

The invariant of the running server, session by session, and what follows for the
bytes written: they are the answers to what the session itself has sent, whatever
the other sessions do. A step of one session touches the shared queue at nodes of
that session only, and the worker answers on the session of the node it takes.
-/

namespace ResourceServer

open Transition PrefixCode

variable {ι : Type*}

/-- A call is made for the session of its node. -/
theorem LogicNode.session_of_invocation {node : LogicNode ι} {call : Invocation ι}
    (h : node.invocation = some call) : call.session = node.session := by
  obtain ⟨handler, _, rfl⟩ := Option.map_eq_some_iff.mp h
  rfl

/-- A read handler posts the node it has, if any, for its own session. -/
theorem Server.postNode_cases {j : ι} {node : Option RecvNode} {d d' : Dispatch ι}
    (h : postNode j node d = some d') (hfifo : d.Fifo d.posted) (hrunning : d.Running) :
    d'.posted = d.posted ++ node.toList.map (LogicNode.mk j) ∧ d'.invoked = d.invoked ∧
      d'.Fifo d'.posted ∧ d'.Running := by
  cases node with
  | none =>
    cases h
    exact ⟨(List.append_nil _).symm, rfl, hfifo, hrunning⟩
  | some node =>
    obtain ⟨_, _, hposted, hinvoked, _⟩ := Dispatch.post_cases h
    exact ⟨hposted, hinvoked, hposted ▸ hfifo.post h, hrunning.post h⟩

variable [DecidableEq ι]

/-- The nodes of one session. -/
def nodesOf (i : ι) (nodes : List (LogicNode ι)) : List (LogicNode ι) :=
  nodes.filter fun node => node.session = i

/-- The calls made for one session. -/
def callsOf (i : ι) (calls : List (Invocation ι)) : List (Invocation ι) :=
  calls.filter fun call => call.session = i

/-- The frames peer `i` has sent. -/
def sentBy (i : ι) (as : List (ServerAction ι)) : List Frame :=
  as.flatMap fun
    | .peerSend j f => if j = i then [f] else []
    | _ => []

/-- The bytes session `i` has received. -/
def receivedBy (i : ι) (as : List (ServerAction ι)) : Bytes :=
  as.flatMap fun
    | .arrive j piece => if j = i then piece else []
    | _ => []

/-- The side condition on steps: peers send echoed frames only, and no handler
finds the send queue of its session over the bound. -/
def EchoOnly (s : Server ι) : ServerAction ι → Prop
  | .peerSend _ f => f.Echoed
  | .work _ _ => ∀ call ∈ s.dispatch.nextCall,
      (s.senders call.session).sendQueue.length ≤ maxSendQue
  | _ => True

instance (s : Server ι) (a : ServerAction ι) : Decidable (EchoOnly s a) :=
  match a with
  | .peerSend _ f => inferInstanceAs (Decidable f.Echoed)
  | .work _ _ => inferInstanceAs (Decidable (∀ call ∈ s.dispatch.nextCall, _))
  | .arrive _ _ | .readSome _ _ | .readComplete _ _ | .wake | .writeSome _ _ _
  | .writeComplete _ _ => isTrue trivial

/-- What a peer sends in two schedules in turn. -/
theorem sentBy_append (i : ι) (as bs : List (ServerAction ι)) :
    sentBy i (as ++ bs) = sentBy i as ++ sentBy i bs := List.flatMap_append

/-- What a session receives in two schedules in turn. -/
theorem receivedBy_append (i : ι) (as bs : List (ServerAction ι)) :
    receivedBy i (as ++ bs) = receivedBy i as ++ receivedBy i bs := List.flatMap_append

/-- A session's nodes among two lists of nodes. -/
theorem nodesOf_append (i : ι) (nodes nodes' : List (LogicNode ι)) :
    nodesOf i (nodes ++ nodes') = nodesOf i nodes ++ nodesOf i nodes' := List.filter_append ..

/-- A session's calls among two lists of calls. -/
theorem callsOf_append (i : ι) (calls calls' : List (Invocation ι)) :
    callsOf i (calls ++ calls') = callsOf i calls ++ callsOf i calls' := List.filter_append ..

/-- The calls due for one session are those due for its nodes. -/
theorem callsOf_invocations (i : ι) (nodes : List (LogicNode ι)) :
    callsOf i (invocations nodes) = invocations (nodesOf i nodes) := by
  rw [callsOf, invocations, List.filter_filterMap, invocations, nodesOf, List.filterMap_filter]
  refine List.filterMap_congr fun node _ => ?_
  cases hcall : node.invocation with
  | none => simp
  | some call => simp [Option.filter, LogicNode.session_of_invocation hcall]

/-- Session `i` of the server, whose peer has sent `fs` and whose socket has
received the bytes `arr`. -/
structure Server.Session (s : Server ι) (i : ι) (fs : List Frame) (arr : Bytes) : Prop where
  receiving : Receiving i fs arr (s.net i) (s.loops i) (nodesOf i s.dispatch.posted)
  answering : Answering (callsOf i s.dispatch.invoked) (s.senders i)

/-- The invariant of the server behind a schedule. -/
structure Server.Inv (as : List (ServerAction ι)) (s : Server ι) : Prop where
  fifo : s.dispatch.Fifo s.dispatch.posted
  running : s.dispatch.Running
  session : ∀ i, s.Session i (sentBy i as) (receivedBy i as)

namespace Server

/-- Nothing has been sent to a new server. -/
theorem inv_init (mem : ι → Nat → Byte) : Inv [] (init mem : Server ι) where
  fifo := Dispatch.fifo_init
  running := Dispatch.running_init
  session i :=
    ⟨⟨fun _ hf => absurd hf List.not_mem_nil, rfl, ReadLoop.holds_fresh (mem i),
      Option.some_ne_none _, rfl⟩, ⟨rfl, Sender.inv_init, rfl⟩⟩

/-- A step that is neither a send of a peer nor an arrival leaves the histories alone. -/
theorem inv_of_local {as : List (ServerAction ι)} {a : ServerAction ι} {t : Server ι}
    (hsent : ∀ i, sentBy i [a] = []) (hreceived : ∀ i, receivedBy i [a] = [])
    (hfifo : t.dispatch.Fifo t.dispatch.posted) (hrunning : t.dispatch.Running)
    (hsession : ∀ i, t.Session i (sentBy i as) (receivedBy i as)) : Inv (as ++ [a]) t := by
  refine ⟨hfifo, hrunning, fun i => ?_⟩
  rw [sentBy_append, receivedBy_append, hsent, hreceived, List.append_nil, List.append_nil]
  exact hsession i

/-- A peer that sends an echoed frame keeps the invariant. -/
theorem Inv.peerSend {as : List (ServerAction ι)} {s : Server ι} (h : Inv as s) (j : ι)
    {f : Frame} (hf : f.Echoed) : Inv (as ++ [.peerSend j f])
      { s with net := Function.update s.net j (s.net j ++ f.encode) } := by
  refine ⟨h.fifo, h.running, fun i => ⟨?_, (h.session i).answering⟩⟩
  have hi := (h.session i).receiving
  change Receiving i _ _ (Function.update s.net j (s.net j ++ f.encode) i) _ _
  rw [sentBy_append, receivedBy_append, show receivedBy i [.peerSend j f] = [] from rfl,
    List.append_nil]
  by_cases hji : j = i
  · subst hji
    rw [Function.update_self, show sentBy j [.peerSend j f] = [f] by simp [sentBy]]
    exact hi.peerSend hf
  · rw [Function.update_of_ne (Ne.symm hji),
      show sentBy i [.peerSend j f] = [] by simp [sentBy, hji], List.append_nil]
    exact hi

/-- Bytes that arrive keep the invariant. -/
theorem Inv.arrive {as : List (ServerAction ι)} {s t : Server ι} {j : ι} {piece : Bytes}
    (h : Inv as s) (hs : s.step (.arrive j piece) = some t) : Inv (as ++ [.arrive j piece]) t := by
  obtain ⟨hpiece, hs⟩ := Option.ite_none_right_eq_some.mp hs
  obtain ⟨l, hl, rfl⟩ := Option.map_eq_some_iff.mp hs
  refine ⟨h.fifo, h.running, fun i => ⟨?_, (h.session i).answering⟩⟩
  have hi := (h.session i).receiving
  change Receiving i _ _ (Function.update s.net j ((s.net j).drop piece.length) i)
    (Function.update s.loops j l i) _
  rw [sentBy_append, receivedBy_append, show sentBy i [.arrive j piece] = [] from rfl,
    List.append_nil]
  by_cases hji : j = i
  · subst hji
    rw [Function.update_self, Function.update_self,
      show receivedBy j [.arrive j piece] = piece by simp [receivedBy]]
    exact hi.arrive hpiece.2 hl
  · rw [Function.update_of_ne (Ne.symm hji), Function.update_of_ne (Ne.symm hji),
      show receivedBy i [.arrive j piece] = [] by simp [receivedBy, hji], List.append_nil]
    exact hi

/-- A read of some bytes keeps the invariant. -/
theorem Inv.readSome {as : List (ServerAction ι)} {s t : Server ι} {j : ι} {k : Nat}
    (h : Inv as s) (hs : s.step (.readSome j k) = some t) : Inv (as ++ [.readSome j k]) t := by
  obtain ⟨l, hl, rfl⟩ := Option.map_eq_some_iff.mp hs
  refine inv_of_local (fun _ => rfl) (fun _ => rfl) h.fifo h.running fun i =>
    ⟨?_, (h.session i).answering⟩
  have hi := (h.session i).receiving
  change Receiving i _ _ _ (Function.update s.loops j l i) _
  by_cases hji : j = i
  · subst hji
    rw [Function.update_self]
    exact hi.readSome hl
  · rw [Function.update_of_ne (Ne.symm hji)]
    exact hi

/-- Nodes of one session are none of another. -/
theorem nodesOf_map_mk (i j : ι) (nodes : List RecvNode) :
    nodesOf i (nodes.map (LogicNode.mk j)) = if j = i then nodes.map (LogicNode.mk j) else [] := by
  rw [nodesOf]
  split
  · rename_i hji
    refine List.filter_eq_self.mpr fun node hnode => ?_
    obtain ⟨_, _, rfl⟩ := List.mem_map.mp hnode
    exact decide_eq_true hji
  · rename_i hji
    refine List.filter_eq_nil_iff.mpr fun node hnode => ?_
    obtain ⟨_, _, rfl⟩ := List.mem_map.mp hnode
    simpa using hji

/-- A read that completes keeps the invariant. -/
theorem Inv.readComplete {as : List (ServerAction ι)} {s t : Server ι} {j : ι} {mem : Nat → Byte}
    (h : Inv as s) (hs : s.readComplete j mem = some t) :
    Inv (as ++ [.readComplete j mem]) t := by
  obtain ⟨⟨r, node⟩, hcomp, hs⟩ := Option.bind_eq_some_iff.mp hs
  obtain ⟨d, hd, rfl⟩ := Option.map_eq_some_iff.mp hs
  obtain ⟨hposted, hinvoked, hfifo, hrunning⟩ := postNode_cases hd h.fifo h.running
  refine inv_of_local (fun _ => rfl) (fun _ => rfl) hfifo hrunning fun i => ⟨?_, ?_⟩
  · have hi := (h.session i).receiving
    change Receiving i _ _ _ (Function.update s.loops j _ i) (nodesOf i d.posted)
    rw [hposted, nodesOf_append, nodesOf_map_mk]
    by_cases hji : j = i
    · subst hji
      rw [if_pos rfl, Function.update_self]
      exact hi.readComplete hcomp
    · rw [if_neg hji, Function.update_of_ne (Ne.symm hji), List.append_nil]
      exact hi
  · change Answering (callsOf i d.invoked) _
    rw [hinvoked]
    exact (h.session i).answering

/-- The call due for a queued node is an echo on the session of the node. -/
theorem Inv.due {as : List (ServerAction ι)} {s : Server ι} (h : Inv as s) {call : Invocation ι}
    (hcall : s.dispatch.nextCall = some call) :
    call.handler = .testSend ∧ call.reply.Short := by
  obtain ⟨front, hfront, hcall⟩ := Dispatch.nextCall_cases hcall
  obtain ⟨gone, hsplit, _⟩ := h.fifo.split
  have hi := (h.session front.session).receiving
  have hmem : front ∈ nodesOf front.session s.dispatch.posted := by
    rw [hsplit]
    exact List.mem_filter.mpr ⟨List.mem_append_right _ hfront, decide_eq_true rfl⟩
  rw [hi.posted] at hmem
  obtain ⟨node, hnode, heq⟩ := List.mem_map.mp hmem
  obtain ⟨hc, he⟩ := hi.node hnode
  rw [← heq, RecvNode.invocation_eq _ hc he] at hcall
  split at hcall
  · rename_i htest
    cases hcall
    exact ⟨rfl, Frame.short_of_reply he (by rw [Frame.reply, if_pos htest]; rfl)⟩
  · contradiction

/-- A step of the worker keeps the invariant. -/
theorem Inv.work {as : List (ServerAction ι)} {s t : Server ι} {mem : Nat → Byte}
    {upload : List Message} (h : Inv as s) (hok : EchoOnly s (.work mem upload))
    (hs : s.work mem upload = some t) : Inv (as ++ [.work mem upload]) t := by
  obtain ⟨d, hd, rfl⟩ := Option.map_eq_some_iff.mp hs
  have hstep := Dispatch.workerStep_of_dealMessage hd
  obtain ⟨hposted, hinvoked⟩ := hstep.effect
  have hfifo : d.Fifo d.posted := hposted ▸ h.fifo.workerStep hstep
  have hrunning := h.running.workerStep hstep
  cases hcall : s.dispatch.nextCall with
  | none =>
    refine inv_of_local (fun _ => rfl) (fun _ => rfl) hfifo hrunning fun i => ⟨?_, ?_⟩
    · change Receiving i _ _ _ _ (nodesOf i d.posted)
      rw [hposted]
      exact (h.session i).receiving
    · change Answering (callsOf i d.invoked) _
      rw [hinvoked, hcall, Option.toList_none, List.append_nil]
      exact (h.session i).answering
  | some call =>
    obtain ⟨hhandler, hshort⟩ := h.due hcall
    refine inv_of_local (fun _ => rfl) (fun _ => rfl) hfifo hrunning fun i => ⟨?_, ?_⟩
    · change Receiving i _ _ _ _ (nodesOf i d.posted)
      rw [hposted]
      exact (h.session i).receiving
    · have hi := (h.session i).answering
      change Answering (callsOf i d.invoked) (Function.update s.senders call.session
        ((call.replies upload).foldl (fun t m => t.send maxSendQue mem m)
          (s.senders call.session)) i)
      rw [hinvoked, hcall, Option.toList_some, callsOf_append, Invocation.replies, hhandler]
      by_cases hji : call.session = i
      · subst hji
        rw [Function.update_self, callsOf, callsOf, List.filter_singleton, decide_eq_true rfl]
        exact hi.send mem (hok call hcall) hshort
      · rw [Function.update_of_ne (Ne.symm hji), callsOf, callsOf, List.filter_singleton,
          decide_eq_false hji]
        simpa [callsOf] using hi

/-- A spurious wake-up keeps the invariant. -/
theorem Inv.wake {as : List (ServerAction ι)} {s t : Server ι} (h : Inv as s)
    (hs : s.step .wake = some t) : Inv (as ++ [.wake]) t := by
  obtain ⟨d, hd, rfl⟩ := Option.map_eq_some_iff.mp hs
  have hfifo := h.fifo.wake hd
  have hrunning := h.running.wake hd
  obtain ⟨_, rfl⟩ := Dispatch.wake_cases hd
  exact inv_of_local (fun _ => rfl) (fun _ => rfl) hfifo hrunning fun i =>
    ⟨(h.session i).receiving, (h.session i).answering⟩

/-- A step of one send half leaves the other sessions alone. -/
theorem Inv.sender {as : List (ServerAction ι)} {s : Server ι} (h : Inv as s) {a : ServerAction ι}
    (hsent : ∀ i, sentBy i [a] = []) (hreceived : ∀ i, receivedBy i [a] = []) {j : ι} {t : Sender}
    (ht : ∀ calls : List (Invocation ι), Answering calls (s.senders j) → Answering calls t) :
    Inv (as ++ [a]) { s with senders := Function.update s.senders j t } := by
  refine inv_of_local hsent hreceived h.fifo h.running fun i => ⟨(h.session i).receiving, ?_⟩
  have hi := (h.session i).answering
  change Answering _ (Function.update s.senders j t i)
  by_cases hji : j = i
  · subst hji
    rw [Function.update_self]
    exact ht _ hi
  · rw [Function.update_of_ne (Ne.symm hji)]
    exact hi

/-- One step keeps the invariant. -/
theorem Inv.step {as : List (ServerAction ι)} {s t : Server ι} {a : ServerAction ι} (h : Inv as s)
    (hok : EchoOnly s a) (hs : s.step a = some t) : Inv (as ++ [a]) t := by
  cases a with
  | peerSend j f =>
    cases hs
    exact h.peerSend j hok
  | arrive j piece => exact h.arrive hs
  | readSome j k => exact h.readSome hs
  | readComplete j mem => exact h.readComplete hs
  | work mem upload => exact h.work hok hs
  | wake => exact h.wake hs
  | writeSome j l k =>
    obtain ⟨u, hu, rfl⟩ := Option.map_eq_some_iff.mp hs
    exact h.sender (fun _ => rfl) (fun _ => rfl) fun _ hi => hi.writeSome hu
  | writeComplete j l =>
    obtain ⟨u, hu, rfl⟩ := Option.map_eq_some_iff.mp hs
    exact h.sender (fun _ => rfl) (fun _ => rfl) fun _ hi => hi.writeComplete hu

/-- The invariant along every run of echoed frames. -/
theorem inv_of_run {mem : ι → Nat → Byte} {as : List (ServerAction ι)} {s : Server ι}
    (hok : Along step EchoOnly (init mem) as) (h : run step (init mem) as = some s) : Inv as s :=
  run_history_along (inv_init mem) (fun _ _ _ _ hs hC ht => hs.step hC ht) hok h

/-- What session `i` has accepted are answers to frames it has sent itself. -/
theorem Inv.accepted_eq {as : List (ServerAction ι)} {s : Server ι} (h : Inv as s) (i : ι) :
    (s.senders i).accepted <+: replies (s.loops i).frames ∧
      (s.dispatch.logicQue = [] → (s.senders i).accepted = replies (s.loops i).frames) := by
  obtain ⟨hr, ha⟩ := h.session i
  have hdue : (callsOf i (invocations s.dispatch.posted)).map Invocation.reply =
      replies (s.loops i).frames := by
    rw [callsOf_invocations, hr.posted]
    exact replies_frames i fun node hnode => hr.node hnode
  rw [ha.accepted, ← hdue]
  constructor
  · exact (h.fifo.invoked_prefix.filter _).map _
  · intro hq
    rw [h.fifo.invoked_eq hq]

/-- In a quiescent server everything sent has arrived and is consumed, nothing is
queued, and nothing is being written. -/
theorem Inv.quiescent {as : List (ServerAction ι)} {s : Server ι} (h : Inv as s)
    (hq : s.Quiescent) (i : ι) : s.net i = [] ∧ (s.loops i).Consumed ∧ s.dispatch.logicQue = [] ∧
      (s.senders i).writing = [] := by
  obtain ⟨hr, ha⟩ := h.session i
  have hasleep : s.dispatch.worker = .asleep := by
    have hwork := hq (.work (fun _ => 0) []) trivial
    exact h.running.asleep_of_stuck (Option.map_eq_none_iff.mp hwork)
  refine ⟨?_, ?_, h.running.idle (Or.inr hasleep), ?_⟩
  · by_contra hne
    have harrive := hq (.arrive i (s.net i)) trivial
    rw [Server.step, if_pos ⟨hne, List.prefix_rfl⟩] at harrive
    contradiction
  · by_contra hc
    obtain ⟨a, l, hlocal, hl, _⟩ := hr.reads.exists_local hr.pending hc
    cases a with
    | arrive piece => exact hlocal
    | fail => exact hlocal
    | readSome k =>
      have hread := hq (.readSome i k) trivial
      rw [Server.step, hl] at hread
      contradiction
    | complete mem =>
      have hread := hq (.readComplete i mem) trivial
      obtain ⟨r, node, hcomp, _⟩ := ReadLoop.completed_cases hl
      rw [Server.step, Server.readComplete, hcomp] at hread
      cases node with
      | none => contradiction
      | some node =>
        have hfree : ¬ s.dispatch.worker.Locked := by
          rw [hasleep]
          exact id
        exact Dispatch.post_ne_none hfree (Option.map_eq_none_iff.mp hread)
  · by_contra hne
    obtain ⟨op, ops, hw⟩ := List.exists_cons_of_ne_nil hne
    by_cases hrest : op.rest = []
    · have hcomplete := hq (.writeComplete i 0) trivial
      rw [Server.step, Sender.complete, hw, List.getElem?_cons_zero, Option.bind_some, if_pos hrest]
        at hcomplete
      contradiction
    · have hwrite := hq (.writeSome i 0 op.rest.length) trivial
      rw [Server.step, Sender.writeSome, hw, List.getElem?_cons_zero, Option.bind_some,
        if_pos ⟨List.length_pos_iff.mpr hrest, Nat.le_refl _⟩] at hwrite
      contradiction

/-- A server with nothing under way, queued or being written, and its worker
blocked, has no step left. -/
theorem quiescent_of_idle {s : Server ι} (hasleep : s.dispatch.worker = .asleep)
    (hidle : ∀ i, s.net i = [] ∧ (s.loops i).Consumed ∧ (s.senders i).writing = []) :
    s.Quiescent := by
  intro a ha
  cases a with
  | peerSend j f => exact ha.elim
  | wake => exact ha.elim
  | arrive j piece =>
    rw [Server.step, if_neg]
    rintro ⟨hne, hpiece⟩
    rw [(hidle j).1] at hpiece
    exact hne (List.eq_nil_of_prefix_nil hpiece)
  | readSome j k =>
    have hsocket := (hidle j).2.1.1
    rw [Server.step, ReadLoop.step, hsocket, List.take_nil]
    split
    · obtain ⟨op, hop, _⟩ := (hidle j).2.1.2
      rw [Receiver.readSome, Option.mem_def.mp hop, Option.bind_some, if_neg fun hne => hne.1 rfl]
      rfl
    · rfl
  | readComplete j mem =>
    obtain ⟨op, hop, hlt⟩ := (hidle j).2.1.2
    rw [Server.step, Server.readComplete, Receiver.complete, Option.mem_def.mp hop,
      Option.bind_some, if_neg (Nat.ne_of_lt hlt), Option.bind_none]
  | work mem upload =>
    rw [Server.step, Server.work, Dispatch.dealMessage, hasleep]
    rfl
  | writeSome j l k =>
    rw [Server.step, Sender.writeSome, (hidle j).2.2, List.getElem?_nil]
    rfl
  | writeComplete j l =>
    rw [Server.step, Sender.complete, (hidle j).2.2, List.getElem?_nil]
    rfl

/-- The bytes session `i` has to be sent: a send node for every test message of its own. -/
def echo (mem : Nat → Byte) (fs : List Frame) : Bytes :=
  (replies fs).flatMap fun m => (m.node mem).buffer

/-- The echo of echoed frames is made of the frames of the answers. -/
theorem echo_eq (mem : Nat → Byte) {fs : List Frame} (he : ∀ f ∈ fs, f.Echoed) :
    echo mem fs = (replies fs).flatMap Message.frame :=
  Message.flatMap_buffer mem fun _ hm => short_of_mem_replies he hm

/-- At every moment a session has been sent an initial part of its own echo. -/
theorem Inv.wire_prefix {as : List (ServerAction ι)} {s : Server ι} (h : Inv as s)
    (mem : Nat → Byte) (i : ι) : (s.senders i).wire <+: echo mem (sentBy i as) := by
  obtain ⟨hr, ha⟩ := h.session i
  have hreplies : replies (s.loops i).frames <+: replies (sentBy i as) :=
    hr.frames_prefix.filterMap _
  obtain ⟨rest, hrest⟩ := (h.accepted_eq i).1.trans hreplies
  rw [echo_eq mem hr.echoed, ← hrest, List.flatMap_append]
  exact ha.sends.wire_prefix.trans (List.prefix_append _ _)

/-- A quiescent server has received all its peers have sent and has sent the whole echo. -/
theorem Inv.wire_eq {as : List (ServerAction ι)} {s : Server ι} (h : Inv as s) (hq : s.Quiescent)
    (mem : Nat → Byte) (i : ι) : (sentBy i as).flatMap Frame.encode = receivedBy i as ∧
      (s.senders i).wire = echo mem (sentBy i as) := by
  obtain ⟨hr, ha⟩ := h.session i
  obtain ⟨hnet, hconsumed, hque, hwriting⟩ := h.quiescent hq i
  have hstream := hr.stream
  rw [hnet, List.append_nil] at hstream
  have hframes := ((hstream ▸ hr.reads).frames_eq hconsumed).1
  refine ⟨hstream.symm, ?_⟩
  have hdrained : (s.senders i).sendQueue = [] := by
    by_contra hne
    exact (ha.sends.writing_iff ha.isStop).mpr hne hwriting
  rw [echo_eq mem hr.echoed, ha.sends.wire_of_drained ha.isStop hdrained,
    (h.accepted_eq i).2 hque, hframes]

/-- End-to-end echo and isolation. While peers send test messages and messages of
unknown ids and no send queue is over its bound, the bytes written to a session
are at every moment an initial part of the send nodes that answer the test
messages this session has sent, in order; once no step is left to take they are
all of them; and two quiescent runs in which a session has received the same
bytes have written the same bytes to it, whatever else differs. -/
theorem echo_isolated (mem₀ : ι → Nat → Byte) (mem : Nat → Byte) (as : List (ServerAction ι))
    (s : Server ι) (hok : Along step EchoOnly (init mem₀) as)
    (h : run step (init mem₀) as = some s) :
    (∀ i, (s.senders i).wire <+: echo mem (sentBy i as)) ∧
      (s.Quiescent → ∀ i, (s.senders i).wire = echo mem (sentBy i as)) ∧
      ∀ mem₀' as' s', Along step EchoOnly (init mem₀') as' →
        run step (init mem₀') as' = some s' → s.Quiescent → s'.Quiescent →
        ∀ i, receivedBy i as = receivedBy i as' → (s.senders i).wire = (s'.senders i).wire := by
  have hinv := inv_of_run hok h
  refine ⟨hinv.wire_prefix mem, fun hq i => (hinv.wire_eq hq mem i).2, ?_⟩
  intro mem₀' as' s' hok' h' hq hq' i hreceived
  obtain ⟨hbytes, hwire⟩ := hinv.wire_eq hq mem i
  obtain ⟨hbytes', hwire'⟩ := (inv_of_run hok' h').wire_eq hq' mem i
  have hsent : sentBy i as = sentBy i as' := by
    apply Frame.prefixFree_encode.flatMap_injective Frame.encode_ne_nil
    rw [hbytes, hbytes', hreceived]
  rw [hwire, hwire', hsent]

/-- Two peers, one with a test message and one with a message of an unknown id. -/
private def twoPeers : List (ServerAction Bool) :=
  [.peerSend true ⟨.idTestMsgReq, [104], by decide⟩, .peerSend false ⟨⟨7⟩, [9], by decide⟩,
    .arrive true [3, 233, 0, 0, 0, 1, 104], .readSome true 6, .readComplete true fun _ => 9,
    .arrive false [0, 7, 0, 0, 0, 1, 9], .readSome false 6, .readComplete false fun _ => 9,
    .readSome false 1, .readComplete false fun _ => 9, .readSome true 1,
    .readComplete true fun _ => 9] ++
  List.replicate 11 (.work (fun _ => 7) []) ++ [.writeSome true 0 7, .writeComplete true 0]

/-- Of two peers, the one that has sent a message gets it back and the other nothing. -/
theorem echo_isolated_two :
    ∃ s, run step (init fun _ _ => 7) twoPeers = some s ∧ s.Quiescent ∧
      (s.senders true).wire = [3, 234, 0, 0, 0, 1, 104] ∧ (s.senders false).wire = [] := by
  have hrun : (run step (init fun _ _ => 7) twoPeers).any fun s =>
      s.dispatch.worker = .asleep ∧
        ∀ i, s.net i = [] ∧ (s.loops i).Consumed ∧ (s.senders i).writing = [] := by
    decide +kernel
  have hok : Along step EchoOnly (init fun _ _ => 7) twoPeers := by decide +kernel
  obtain ⟨s, hs, hlast⟩ := (Option.any_eq_true _ _).mp hrun
  obtain ⟨hasleep, hidle⟩ := of_decide_eq_true hlast
  have hq := quiescent_of_idle hasleep hidle
  obtain ⟨_, hall, _⟩ := echo_isolated (fun _ _ => 7) (fun _ => 0) twoPeers s hok hs
  refine ⟨s, hs, hq, ?_, ?_⟩
  · rw [hall hq true]
    decide +kernel
  · rw [hall hq false]
    decide +kernel

end Server

end ResourceServer
