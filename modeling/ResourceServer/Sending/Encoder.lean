import ResourceServer.Native.Receive
import ResourceServer.Sending.Capacity

/-!
# Which messages a send node encodes

`send` narrows the length of its message to 32 bits, and the node's constructors add
the head and the terminator to it in 32 bits as well. The node holds its message as
long as neither the narrowing nor these sums lose anything.
-/

namespace ResourceServer

open Memory

/-- The node tells the length of its message, in its own field and in the head, and
was written inside its block. -/
structure SendNode.Encodes (node : SendNode) (m : Message) : Prop where
  currentLen_eq : node.currentLen.toNat = m.data.length + headTotalLen
  bodyLen_eq : (Receiver.headBodyLen node.toMsgNode).toNat = m.data.length
  writes_le : ∀ w ∈ SendNode.writes (BitVec.ofNat 32 m.data.length),
    w.1 + w.2 ≤ node.body.length

/-- The block of a send node has a cell for the terminator behind its length. -/
theorem Message.length_body_node (mem : Nat → Byte) (m : Message) : (m.node mem).body.length =
    (BitVec.ofNat 32 m.data.length + BitVec.ofNat 32 headTotalLen + 1).toNat := by
  simp only [node, SendNode.new, length_copy, MsgNode.length_new_body]

/-- The length field of a node that holds a frame is that of the frame. -/
theorem SendNode.headBodyLen_of_buffer {node : SendNode} {f : Frame} (h : node.buffer = f.encode) :
    Receiver.headBodyLen node.toMsgNode = BitVec.ofNat 32 f.body.length := by
  have hlen := congrArg List.length h
  rw [buffer, List.length_take, Frame.length_encode, headTotalLen] at hlen
  have hhead : node.body.take headTotalLen = f.head := by
    rw [← List.take_left' (Frame.length_head f), ← Frame.encode, ← h, buffer, List.take_take,
      Nat.min_eq_left (by rw [headTotalLen]; omega)]
  have hfield : (node.body.drop headIdLen).take headDataLen =
      hostToNetworkLong (BitVec.ofNat 32 f.body.length) := by
    rw [List.take_drop, show headIdLen + headDataLen = headTotalLen from rfl, hhead, Frame.head,
      List.drop_left' (length_hostToNetworkShort _)]
  rw [Receiver.headBodyLen, hfield, networkToHostLong_hostToNetworkLong]

/-- A send node encodes its message exactly when the message, its head and the terminator
fit the 32-bit sums. -/
theorem Message.encodes_node_iff (mem : Nat → Byte) (m : Message) :
    (m.node mem).Encodes m ↔ m.data.length + headTotalLen + 1 < 2 ^ 32 := by
  have hcur : (m.node mem).currentLen.toNat =
      (m.data.length % 2 ^ 32 + headTotalLen) % 2 ^ 32 := by
    simp only [node, SendNode.new, BitVec.toNat_add, BitVec.toNat_ofNat, headTotalLen,
      Nat.add_mod_mod]
  have hbody : (m.node mem).body.length =
      ((m.data.length % 2 ^ 32 + headTotalLen) % 2 ^ 32 + 1) % 2 ^ 32 := by
    rw [length_body_node]
    simp only [BitVec.toNat_add, BitVec.toNat_ofNat, headTotalLen, Nat.add_mod_mod]
    rfl
  constructor
  · intro h
    have hlen := h.currentLen_eq
    have hterminator := h.writes_le _ List.mem_cons_self
    rw [hcur] at hlen
    rw [hbody, BitVec.toNat_add, BitVec.toNat_ofNat, BitVec.toNat_ofNat] at hterminator
    simp only [headTotalLen] at hlen hterminator ⊢
    omega
  · intro h
    have hlt : m.data.length < 2 ^ 32 := by omega
    refine ⟨?_, ?_, ?_⟩
    · rw [hcur]
      simp only [headTotalLen] at h ⊢
      omega
    · have hbuffer : (m.node mem).buffer = Frame.encode ⟨m.id, m.data, hlt⟩ :=
        SendNode.buffer_new mem ⟨m.id, m.data, hlt⟩ h
      rw [SendNode.headBodyLen_of_buffer hbuffer, Frame.toNat_length]
    · intro w hw
      rw [hbody]
      simp only [SendNode.writes, List.mem_cons, List.not_mem_nil, or_false] at hw
      rcases hw with rfl | rfl | rfl | rfl
      all_goals
        simp only [BitVec.toNat_add, BitVec.toNat_ofNat, headTotalLen, headIdLen, headDataLen]
          at h ⊢
        omega

namespace Sender

/-- `send` pushes a node that encodes the accepted message exactly when the message with
its head and terminator is shorter than `2 ^ 32`. -/
theorem encodes_iff_fits (bound : Nat) (mem : Nat → Byte) (m : Message) (s : Sender)
    (haccepted : s.sendQueue.length ≤ bound) : ∃ ptr,
      (s.send bound mem m).sendQueue = s.sendQueue ++ [ptr] ∧
        (ptr.node.Encodes m ↔ m.data.length + headTotalLen + 1 < 2 ^ 32) :=
  ⟨_, sendQueue_send mem haccepted, m.encodes_node_iff mem⟩

theorem encodes_iff_fits_two : ∃ ptr,
    (init.send maxSendQue (fun _ => 3) ⟨.idTestMsgRsp, [0, 7]⟩).sendQueue = [ptr] ∧
      ptr.node.Encodes ⟨.idTestMsgRsp, [0, 7]⟩ := by
  obtain ⟨ptr, hptr, hiff⟩ := encodes_iff_fits maxSendQue (fun _ => 3) ⟨.idTestMsgRsp, [0, 7]⟩ init
    (Nat.zero_le _)
  exact ⟨ptr, hptr, hiff.mpr (by decide)⟩

/-- A message of `2 ^ 32 - 7` bytes gets a node of no cell at all. -/
theorem not_encodes : ∃ ptr,
    (init.send maxSendQue (fun _ => 0)
      ⟨.idTestMsgRsp, List.replicate (2 ^ 32 - 7) 1⟩).sendQueue = [ptr] ∧
    ptr.node.body.length = 0 ∧ ¬ ptr.node.Encodes ⟨.idTestMsgRsp, List.replicate (2 ^ 32 - 7) 1⟩ := by
  refine ⟨_, sendQueue_send _ (Nat.zero_le _), ?_, ?_⟩
  · rw [Message.length_body_node, List.length_replicate]
    rfl
  · rw [Message.encodes_node_iff, List.length_replicate]
    decide

end Sender

end ResourceServer
