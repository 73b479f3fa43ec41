import ResourceServer.Sending.History
import ResourceServer.Serving.Bodies

/-!
# The two halves of an echoing session

What one session keeps while test messages and messages of unknown ids arrive.
Its receiving half has posted the first frames its peer sent; its sending half has
accepted the answers to the calls made for it, in their order. Between the two
stands the call due for a posted node, which carries the frame back to the session
it came from.
-/

namespace ResourceServer

open Transition PrefixCode

/-- Test messages and messages nobody handles, below the sign bit of the length field. -/
def Frame.Echoed (f : Frame) : Prop :=
  f.body.length < 2 ^ 31 ∧ (f.id = .idTestMsgReq ∨ callbackHandler f.id = none)

instance (f : Frame) : Decidable f.Echoed := inferInstanceAs (Decidable (_ ∧ _))

variable {ι : Type*}

/-- What `test_send` sends. -/
def Invocation.reply (call : Invocation ι) : Message := ⟨.idTestMsgRsp, call.data⟩

/-- The answer to a frame: its body up to the first zero, if it is a test message. -/
def Frame.reply (f : Frame) : Option Message :=
  if f.id = .idTestMsgReq then some ⟨.idTestMsgRsp, Memory.cString 0 f.body⟩ else none

/-- The answers to a sequence of frames. -/
def replies (fs : List Frame) : List Message := fs.filterMap Frame.reply

/-- The call due for a posted node that holds an echoed frame. -/
theorem RecvNode.invocation_eq (i : ι) {node : RecvNode} (hc : node.Complete)
    (he : node.frame.Echoed) : (LogicNode.mk i node).invocation =
      if node.frame.id = .idTestMsgReq then
        some ⟨.testSend, i, node.msgId, Memory.cString 0 node.frame.body⟩
      else none := by
  rcases he.2 with htest | hunknown
  · have hhandler : callbackHandler node.frame.id = some .testSend := by
      rw [htest]
      rfl
    rw [if_pos htest, hc.invocation_eq i hhandler]
    rfl
  · have hne : node.frame.id ≠ .idTestMsgReq := by
      intro htest
      rw [htest] at hunknown
      exact Option.some_ne_none _ hunknown
    rw [if_neg hne, LogicNode.invocation]
    exact congrArg (Option.map _) hunknown

/-- An answer is no longer than the body it answers. -/
theorem Frame.short_of_reply {f : Frame} (he : f.Echoed) {m : Message} (h : f.reply = some m) :
    m.Short := by
  unfold Frame.reply at h
  split at h
  · cases h
    exact (List.takeWhile_prefix _).length_le.trans_lt he.1
  · contradiction

/-- Echoed frames have short answers. -/
theorem short_of_mem_replies {fs : List Frame} (he : ∀ f ∈ fs, f.Echoed) {m : Message}
    (h : m ∈ replies fs) : m.Short := by
  obtain ⟨f, hf, hm⟩ := List.mem_filterMap.mp h
  exact Frame.short_of_reply (he f hf) hm

/-- The answers to the calls due for posted nodes are the answers to their frames. -/
theorem replies_frames (i : ι) {posted : List RecvNode}
    (h : ∀ node ∈ posted, node.Complete ∧ node.frame.Echoed) :
    (invocations (posted.map (LogicNode.mk i))).map Invocation.reply =
      replies (posted.map RecvNode.frame) := by
  rw [invocations, replies, List.filterMap_map, List.filterMap_map, List.map_filterMap]
  refine List.filterMap_congr fun node hnode => ?_
  obtain ⟨hc, he⟩ := h node hnode
  rw [Function.comp_apply, Function.comp_apply, RecvNode.invocation_eq i hc he, Frame.reply]
  split <;> rfl

/-- The receiving half of session `i`: its peer has sent `fs`, its socket has received
`arr`, the rest is under way, and the queue has seen `nodes` of it. -/
structure Receiving (i : ι) (fs : List Frame) (arr net : Bytes) (l : ReadLoop)
    (nodes : List (LogicNode ι)) : Prop where
  echoed : ∀ f ∈ fs, f.Echoed
  stream : arr ++ net = fs.flatMap Frame.encode
  reads : l.Holds arr
  pending : l.receiver.pending ≠ none
  posted : nodes = l.posted.map (LogicNode.mk i)

/-- The sending half of a session for which the calls `calls` were made. -/
structure Answering (calls : List (Invocation ι)) (t : Sender) : Prop where
  accepted : t.accepted = calls.map Invocation.reply
  sends : t.Inv
  isStop : t.isStop = false

namespace Receiving

variable {i : ι} {fs : List Frame} {arr net : Bytes} {l l' : ReadLoop} {nodes : List (LogicNode ι)}

/-- What was received begins the peer's stream. -/
theorem received_prefix (h : Receiving i fs arr net l nodes) : arr <+: fs.flatMap Frame.encode :=
  ⟨_, h.stream⟩

/-- What was posted are the first frames the peer sent. -/
theorem frames_prefix (h : Receiving i fs arr net l nodes) : l.frames <+: fs := by
  obtain ⟨part, hsplit, _⟩ := h.reads.split
  have hpre := h.received_prefix
  rw [hsplit, List.append_assoc] at hpre
  exact Frame.prefixFree_encode.of_flatMap Frame.encode_ne_nil ((List.prefix_append _ _).trans hpre)

/-- The posted nodes are complete and hold echoed frames. -/
theorem node (h : Receiving i fs arr net l nodes) {node : RecvNode} (hn : node ∈ l.posted) :
    node.Complete ∧ node.frame.Echoed :=
  ⟨h.reads.complete node hn, h.echoed _ (h.frames_prefix.subset (List.mem_map_of_mem hn))⟩

/-- The head of a frame the peer sent passes the length condition of the loop. -/
theorem headField (h : Receiving i fs arr net l nodes) (mem : Nat → Byte) :
    HeadField LengthOk l (.complete mem) := by
  intro hp hd
  obtain ⟨f, hf, hlen⟩ := h.reads.lengthField_eq h.received_prefix hp hd
  rw [hlen]
  exact lengthOk_of_lt (h.echoed f hf).1

/-- A frame sent by the peer is still to be received. -/
theorem peerSend (h : Receiving i fs arr net l nodes) {f : Frame} (hf : f.Echoed) :
    Receiving i (fs ++ [f]) arr (net ++ f.encode) l nodes := by
  refine ⟨?_, ?_, h.reads, h.pending, h.posted⟩
  · intro g hg
    rcases List.mem_append.mp hg with hold | hnew
    · exact h.echoed g hold
    · exact List.mem_singleton.mp hnew ▸ hf
  · rw [← List.append_assoc, h.stream, List.flatMap_append, List.flatMap_singleton]

/-- Bytes that arrive are still to be read. -/
theorem arrive (h : Receiving i fs arr net l nodes) {piece : Bytes} (hpiece : piece <+: net)
    (hs : l.step (.arrive piece) = some l') :
    Receiving i fs (arr ++ piece) (net.drop piece.length) l' nodes := by
  obtain ⟨rest, rfl⟩ := hpiece
  have hreads := h.reads.step (a := .arrive piece) trivial hs
  rw [arrived, List.flatMap_singleton] at hreads
  cases hs
  refine ⟨h.echoed, ?_, hreads, h.pending, h.posted⟩
  rw [List.drop_left, List.append_assoc]
  exact h.stream

/-- A read of some bytes posts nothing. -/
theorem readSome (h : Receiving i fs arr net l nodes) {k : Nat}
    (hs : l.step (.readSome k) = some l') : Receiving i fs arr net l' nodes := by
  have hreads := h.reads.step (a := .readSome k) trivial hs
  rw [show arrived [.readSome k] = [] from rfl, List.append_nil] at hreads
  obtain ⟨r, hr, rfl⟩ := ReadLoop.readSome_cases hs
  obtain ⟨_, _, _, rfl⟩ := Receiver.readSome_cases hr
  exact ⟨h.echoed, h.stream, hreads, h.pending, h.posted⟩

/-- A completed read posts at most one node, which the queue takes for this session. -/
theorem readComplete (h : Receiving i fs arr net l nodes) {mem : Nat → Byte} {r : Receiver}
    {node : Option RecvNode} (hs : l.receiver.complete mem = some (r, node)) :
    Receiving i fs arr net { l with receiver := r, posted := l.posted ++ node.toList }
      (nodes ++ node.toList.map (LogicNode.mk i)) := by
  have hstep : l.step (.complete mem) =
      some { l with receiver := r, posted := l.posted ++ node.toList } := by
    rw [ReadLoop.step, hs]
    rfl
  have hreads := h.reads.step (h.headField mem) hstep
  rw [show arrived [.complete mem] = [] from rfl, List.append_nil] at hreads
  refine ⟨h.echoed, h.stream, hreads, ?_, ?_⟩
  · exact ReadLoop.pending_of_complete hs
  · rw [h.posted, List.map_append]

end Receiving

namespace Answering

variable {calls : List (Invocation ι)} {t t' : Sender}

/-- Below the bound the answer to a call is accepted. -/
theorem send (h : Answering calls t) (mem : Nat → Byte) {call : Invocation ι}
    (hb : t.sendQueue.length ≤ maxSendQue) (hshort : call.reply.Short) :
    Answering (calls ++ [call]) (t.send maxSendQue mem call.reply) := by
  refine ⟨?_, h.sends.send maxSendQue mem hshort, ?_⟩
  · rw [Sender.accepted_send hb, h.accepted, List.map_append]
    rfl
  · rw [(Sender.frame_send _ _ _ _).1, h.isStop]

/-- A write of some bytes answers nothing new. -/
theorem writeSome (h : Answering calls t) {j k : Nat} (hs : t.writeSome j k = some t') :
    Answering calls t' := by
  have hsends := h.sends.writeSome hs
  obtain ⟨_, _, _, rfl⟩ := Sender.writeSome_cases hs
  exact ⟨h.accepted, hsends, h.isStop⟩

/-- A write that completes answers nothing new. -/
theorem writeComplete (h : Answering calls t) {j : Nat} (hs : t.complete j = some t') :
    Answering calls t' := by
  have hsends := h.sends.complete hs
  obtain ⟨front, rest, op, _, _, _, _, rfl⟩ := Sender.complete_cases h.sends hs
  exact ⟨h.accepted, hsends, h.isStop⟩

end Answering

end ResourceServer
