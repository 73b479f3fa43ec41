import ResourceServer.Framing.Frame
import ResourceServer.Native.Receive

/-!
# What the receive loop has read

The invariant of the receive loop ties the pending read, the node being filled
and the bytes taken from the socket: what was taken is the frames of the posted
nodes followed by the part of the frame being read. It is kept for exactly the
length fields whose signed reading gives the node and the read budget room for
the same chunks.
-/

namespace ResourceServer

open Memory

/-- Length fields whose chunks end where the node ends: the non-negative ones,
and the negative ones that are a multiple of the chunk size. -/
def LengthOk (len : BitVec 32) : Prop := len.toNat < 2 ^ 31 ∨ len.toNat % bufferTotalLen = 0

instance (len : BitVec 32) : Decidable (LengthOk len) := inferInstanceAs (Decidable (_ ∨ _))

/-- Sign extension adds the upper half to a negative length. -/
theorem toNat_signExtend_length (len : BitVec 32) :
    (len.signExtend 64).toNat = len.toNat + if 2 ^ 31 ≤ len.toNat then 2 ^ 64 - 2 ^ 32 else 0 := by
  have hlt := len.isLt
  rw [BitVec.toNat_signExtend, BitVec.toNat_setWidth, Nat.mod_eq_of_lt (by omega),
    BitVec.msb_eq_decide]
  simp

/-- A node being filled and the read budget that is left for it. -/
structure Filling (node : RecvNode) (budget : BitVec 64) : Prop where
  /-- The allocation did not wrap. -/
  no_wrap : node.totalLen.toNat + 1 < 2 ^ 32
  length_body : node.body.length = node.totalLen.toNat + 1
  terminator : node.body[node.totalLen.toNat]? = some 0
  current_le : node.currentLen.toNat ≤ node.totalLen.toNat
  /-- Only an empty message is full before its first read completes. -/
  unfilled : node.currentLen.toNat < node.totalLen.toNat ∨ node.totalLen.toNat = 0
  /-- The budget is what the node lacks, or exceeds it by whole chunks only. -/
  budget_eq : (node.totalLen.toNat < 2 ^ 31 ∧
      budget.toNat + node.currentLen.toNat = node.totalLen.toNat) ∨
    (2 ^ 31 ≤ node.totalLen.toNat ∧ node.totalLen.toNat % bufferTotalLen = 0 ∧
      node.currentLen.toNat % bufferTotalLen = 0 ∧
      budget.toNat + node.currentLen.toNat = 2 ^ 64 - 2 ^ 32 + node.totalLen.toNat)

namespace Filling

/-- The next chunk fits behind the bytes already copied. -/
theorem copy_le {node : RecvNode} {budget : BitVec 64} (h : Filling node budget) :
    node.currentLen.toNat + (ReadOp.readMessageFull budget).size ≤ node.totalLen.toNat := by
  have hc := h.current_le
  have hu := h.unfilled
  have hn := h.no_wrap
  have hb := h.budget_eq
  simp only [ReadOp.size, bufferTotalLen] at hb ⊢
  rcases hb with ⟨_, hb⟩ | ⟨_, ht, hm, hb⟩ <;> omega

/-- A chunk is empty only for an empty message. -/
theorem size_pos {node : RecvNode} {budget : BitVec 64} (h : Filling node budget)
    (ht : node.totalLen.toNat ≠ 0) : 0 < (ReadOp.readMessageFull budget).size := by
  have hu := h.unfilled
  have hn := h.no_wrap
  have hb := h.budget_eq
  simp only [ReadOp.size, bufferTotalLen] at hb ⊢
  rcases hb with ⟨_, hb⟩ | ⟨_, _, hm, hb⟩ <;> omega

/-- The node built from an admissible length field starts in this relation. -/
theorem new (fresh : Nat → Byte) {len : BitVec 32} (id : ReqId) (h : LengthOk len) :
    Filling (RecvNode.new fresh len id) (len.signExtend 64) := by
  have hwrap : len.toNat + 1 < 2 ^ 32 := by
    have := len.isLt
    simp only [LengthOk, bufferTotalLen] at h
    omega
  have hext := toNat_signExtend_length len
  refine ⟨hwrap, MsgNode.length_new_body_eq fresh len hwrap, MsgNode.new_terminator fresh hwrap,
    Nat.zero_le _, ?_, ?_⟩
  · exact (Nat.eq_zero_or_pos _).symm
  · change (len.toNat < 2 ^ 31 ∧ _ + 0 = len.toNat) ∨
      (2 ^ 31 ≤ len.toNat ∧ len.toNat % bufferTotalLen = 0 ∧ 0 % bufferTotalLen = 0 ∧
        _ + 0 = 2 ^ 64 - 2 ^ 32 + len.toNat)
    rw [hext]
    simp only [LengthOk, bufferTotalLen, true_and] at h ⊢
    by_cases hneg : 2 ^ 31 ≤ len.toNat
    · rw [if_pos hneg]
      omega
    · rw [if_neg hneg]
      omega

/-- The length of a node after one completed chunk. -/
theorem toNat_current_fillNode {node : RecvNode} {budget : BitVec 64} (h : Filling node budget)
    {data : Bytes} (hd : data.length = (ReadOp.readMessageFull budget).size) :
    (Receiver.fillNode node data).currentLen.toNat = node.currentLen.toNat + data.length := by
  have hc := h.copy_le
  have hn := h.no_wrap
  rw [Receiver.fillNode, BitVec.toNat_add, BitVec.toNat_ofNat]
  omega

/-- A completed chunk extends the copied bytes by itself. -/
theorem take_fillNode {node : RecvNode} {budget : BitVec 64} (h : Filling node budget)
    {data : Bytes} (hd : data.length = (ReadOp.readMessageFull budget).size) :
    (Receiver.fillNode node data).body.take (Receiver.fillNode node data).currentLen.toNat =
      node.body.take node.currentLen.toNat ++ data := by
  have hc := h.copy_le
  rw [h.toNat_current_fillNode hd]
  exact take_copy _ _ _ (by rw [h.length_body]; omega)

/-- A completed chunk leaves the terminator in place. -/
theorem terminator_fillNode {node : RecvNode} {budget : BitVec 64} (h : Filling node budget)
    {data : Bytes} (hd : data.length = (ReadOp.readMessageFull budget).size) :
    (Receiver.fillNode node data).body[node.totalLen.toNat]? = some 0 := by
  have hc := h.copy_le
  exact (getElem?_copy_of_le (by rw [h.length_body]; omega) (by omega)).trans h.terminator

/-- The node is full exactly when its length has been reached. -/
theorem isFulled_fillNode {node : RecvNode} {budget : BitVec 64} (h : Filling node budget)
    {data : Bytes} (hd : data.length = (ReadOp.readMessageFull budget).size) :
    (Receiver.fillNode node data).isFulled = true ↔
      node.currentLen.toNat + data.length = node.totalLen.toNat := by
  rw [RecvNode.isFulled, beq_iff_eq, ← BitVec.toNat_inj, h.toNat_current_fillNode hd]
  exact eq_comm

/-- A node that is not full after a chunk goes on with the residual budget. -/
theorem fillNode {node : RecvNode} {budget : BitVec 64} (h : Filling node budget)
    {data : Bytes} (hd : data.length = (ReadOp.readMessageFull budget).size)
    (hf : (Receiver.fillNode node data).isFulled = false) :
    Filling (Receiver.fillNode node data) (budget - BitVec.ofNat 64 data.length) := by
  have hc := h.copy_le
  have hcur := h.toNat_current_fillNode hd
  have hne : node.currentLen.toNat + data.length ≠ node.totalLen.toNat := by
    intro he
    rw [(h.isFulled_fillNode hd).mpr he] at hf
    exact Bool.noConfusion hf
  have hsub : (budget - BitVec.ofNat 64 data.length).toNat = budget.toNat - data.length := by
    have hle : data.length ≤ budget.toNat := by
      rw [hd]
      exact Nat.min_le_left _ _
    rw [BitVec.toNat_sub_of_le (by rw [BitVec.le_def, BitVec.toNat_ofNat]; omega),
      BitVec.toNat_ofNat, Nat.mod_eq_of_lt (by have := budget.isLt; omega)]
  refine ⟨h.no_wrap, ?_, h.terminator_fillNode hd, ?_, ?_, ?_⟩
  · exact (length_copy _ _ _).trans h.length_body
  · change _ ≤ node.totalLen.toNat
    omega
  · change _ < node.totalLen.toNat ∨ _
    omega
  · change (node.totalLen.toNat < 2 ^ 31 ∧ _ = node.totalLen.toNat) ∨
      (2 ^ 31 ≤ node.totalLen.toNat ∧ node.totalLen.toNat % bufferTotalLen = 0 ∧ _ ∧
        _ = 2 ^ 64 - 2 ^ 32 + node.totalLen.toNat)
    rw [hsub, hcur]
    have hb := h.budget_eq
    have hn := h.no_wrap
    simp only [ReadOp.size, bufferTotalLen] at hb hd ⊢
    rcases hb with ⟨_, hb⟩ | ⟨_, ht, hm, hb⟩ <;> omega

end Filling

/-- The head that announced a receive node. -/
def RecvNode.head (node : RecvNode) : Bytes :=
  hostToNetworkShort node.msgId.enumToInt ++ hostToNetworkLong node.totalLen

/-- A node handed over complete: its message fills it and is followed by the terminator. -/
structure RecvNode.Complete (node : RecvNode) : Prop where
  length_body : node.frame.body.length = node.totalLen.toNat
  body_eq : node.body = node.frame.body ++ [0]

/-- The frame of a complete node is its head and its message. -/
theorem RecvNode.Complete.encode {node : RecvNode} (h : node.Complete) :
    node.frame.encode = node.head ++ node.frame.body := by
  rw [Frame.encode, Frame.head, h.length_body, BitVec.ofNat_toNat, BitVec.setWidth_eq]
  rfl

/-- As a zero-terminated string, the block of a complete node is its message up to the
first zero. -/
theorem RecvNode.Complete.cString_body {node : RecvNode} (h : node.Complete) :
    cString 0 node.body = cString 0 node.frame.body := by
  rw [h.body_eq]
  exact cString_append_terminator 0 node.frame.body []

/-- A filled block is the message and the terminator. -/
theorem RecvNode.complete_of_terminator {node : RecvNode}
    (hl : node.body.length = node.totalLen.toNat + 1)
    (ht : node.body[node.totalLen.toNat]? = some 0) : node.Complete := by
  refine ⟨by rw [frame, List.length_take, hl]; omega, ?_⟩
  have hlast : node.body.drop node.totalLen.toNat = [0] := by
    obtain ⟨hlt, he⟩ := List.getElem?_eq_some_iff.mp ht
    rw [List.drop_eq_getElem_cons hlt, he, List.drop_of_length_le (by omega)]
  rw [frame, ← hlast, List.take_append_drop]

namespace Receiver

/-- The receiver has taken exactly `part` of the frame it is reading. -/
def Reads (r : Receiver) (part : Bytes) : Prop :=
  r.headNode.body.length = headTotalLen + 1 ∧
    match r.pending with
    | none => True
    | some .readHead => part = r.data ∧ r.data.length ≤ headTotalLen
    | some (.readMessageFull n) =>
      r.data.length ≤ (ReadOp.readMessageFull n).size ∧
        ∃ node, r.recvNode = some node ∧ Filling node n ∧
          part = node.head ++ node.body.take node.currentLen.toNat ++ r.data

/-- The length field of a received head. -/
def lengthField (r : Receiver) : BitVec 32 := networkToHostLong (r.data.drop headIdLen)

/-- Started anew, the loop has read nothing of its first head. -/
theorem reads_readHead {r : Receiver} (h : r.headNode.body.length = headTotalLen + 1) :
    r.readHead.Reads [] := by
  refine ⟨?_, rfl, Nat.zero_le _⟩
  rw [readHead, MsgNode.clear, length_copy]
  exact h

/-- A read loop that starts has read nothing. -/
theorem reads_start (mem : Nat → Byte) : (start mem).Reads [] := by
  apply reads_readHead
  rw [MsgNode.length_new_body]
  rfl

/-- Taking bytes of the socket extends the part by them. -/
theorem Reads.readSome {r r' : Receiver} {part bytes : Bytes} (h : r.Reads part)
    (hs : r.readSome bytes = some r') : r'.Reads (part ++ bytes) := by
  obtain ⟨hhead, h⟩ := h
  obtain ⟨op, hop, hfit, rfl⟩ := readSome_cases hs
  rw [hop] at h
  refine ⟨hhead, ?_⟩
  simp only [hop]
  cases op with
  | readHead =>
    obtain ⟨rfl, _⟩ := h
    exact ⟨rfl, by simpa only [List.length_append, ReadOp.size] using hfit⟩
  | readMessageFull n =>
    obtain ⟨_, node, hn, hfill, rfl⟩ := h
    exact ⟨by simpa only [List.length_append] using hfit, node, hn, hfill,
      List.append_assoc _ _ _⟩

/-- The head node holds the received head after its copy. -/
theorem take_fillHead {r : Receiver} (hh : r.headNode.body.length = headTotalLen + 1)
    (hd : r.data.length = headTotalLen) : r.fillHead.body.take headTotalLen = r.data := by
  have ht := take_copy r.headNode.body 0 r.data (by omega)
  rw [Nat.zero_add, hd] at ht
  rw [fillHead, List.take_of_length_le (Nat.le_of_eq hd)]
  exact ht

/-- The id is in the first bytes of the head. -/
theorem headId_fillHead {r : Receiver} (hh : r.headNode.body.length = headTotalLen + 1)
    (hd : r.data.length = headTotalLen) :
    headId r.fillHead = networkToHostShort (r.data.take headIdLen) := by
  rw [headId, ← take_fillHead hh hd, List.take_take]
  rfl

/-- The length is in the last bytes of the head. -/
theorem headBodyLen_fillHead {r : Receiver} (hh : r.headNode.body.length = headTotalLen + 1)
    (hd : r.data.length = headTotalLen) : headBodyLen r.fillHead = r.lengthField := by
  rw [headBodyLen, lengthField, ← take_fillHead hh hd, List.drop_take]
  rfl

/-- A head with an admissible length field starts the read of its body. -/
theorem Reads.onReadHead {r : Receiver} {part : Bytes} (mem : Nat → Byte) (h : r.Reads part)
    (hp : r.pending = some .readHead) (hd : r.data.length = headTotalLen)
    (hok : LengthOk r.lengthField) : (r.onReadHead mem).Reads part := by
  obtain ⟨hhead, h⟩ := h
  simp only [hp] at h
  obtain ⟨rfl, _⟩ := h
  have hne : r.data.length ≠ 0 := by rw [hd]; decide
  rw [Receiver.onReadHead, if_neg hne]
  refine ⟨(length_copy _ _ _).trans hhead, Nat.zero_le _, _, rfl, ?_, ?_⟩
  · rw [headBodyLen_fillHead hhead hd]
    exact Filling.new mem _ hok
  · change r.data = hostToNetworkShort (headId r.fillHead) ++
      hostToNetworkLong (headBodyLen r.fillHead) ++ [] ++ []
    rw [headBodyLen_fillHead hhead hd, headId_fillHead hhead hd, lengthField,
      hostToNetworkShort_networkToHostShort (by rw [List.length_take, hd]; rfl),
      hostToNetworkLong_networkToHostLong (by rw [List.length_drop, hd]; rfl),
      List.append_nil, List.append_nil, List.take_append_drop]

/-- A completed body read either posts the frame that was read or goes on with it. -/
theorem Reads.onReadMessageFull {r : Receiver} {part : Bytes} {n : BitVec 64} {node : RecvNode}
    (h : r.Reads part) (hp : r.pending = some (.readMessageFull n))
    (hd : r.data.length = (ReadOp.readMessageFull n).size) (hn : r.recvNode = some node) :
    (∃ r' full, r.onReadMessageFull n node = (r', some full) ∧ r'.Reads [] ∧
        r'.pending = some .readHead ∧ full.Complete ∧ full.frame.encode = part) ∨
      ∃ r' n', r.onReadMessageFull n node = (r', none) ∧ r'.Reads part ∧ r'.data = [] ∧
        r'.pending = some (.readMessageFull n') ∧ 0 < (ReadOp.readMessageFull n').size := by
  obtain ⟨hhead, h⟩ := h
  simp only [hp] at h
  obtain ⟨_, node', hn', hfill, rfl⟩ := h
  cases hn.symm.trans hn'
  have htake := hfill.take_fillNode hd
  let r' : Receiver := { r with recvNode := some (fillNode node r.data) }
  cases hf : (fillNode node r.data).isFulled with
  | true =>
    have hcur := (hfill.isFulled_fillNode hd).mp hf
    have htotal : (fillNode node r.data).currentLen.toNat = node.totalLen.toNat := by
      rw [hfill.toNat_current_fillNode hd, hcur]
    have hfull : (fillNode node r.data).Complete := RecvNode.complete_of_terminator
      ((length_copy _ _ _).trans hfill.length_body) (hfill.terminator_fillNode hd)
    refine Or.inl ⟨r'.readHead, fillNode node r.data, ?_, reads_readHead hhead, rfl, hfull, ?_⟩
    · rw [Receiver.onReadMessageFull, if_pos hf]
    · rw [htotal] at htake
      rw [hfull.encode, List.append_assoc, ← htake]
      rfl
  | false =>
    have hnext := hfill.fillNode hd hf
    let n' := n - BitVec.ofNat 64 r.data.length
    refine Or.inr ⟨r'.readMessageFull n', n', ?_,
      ⟨hhead, Nat.zero_le _, fillNode node r.data, rfl, hnext, ?_⟩, rfl, rfl, ?_⟩
    · rw [Receiver.onReadMessageFull, hf]
      rfl
    · rw [htake, List.append_assoc]
      exact (List.append_nil _).symm
    · apply hnext.size_pos
      intro hzero
      rw [Bool.eq_false_iff, ne_eq, hfill.isFulled_fillNode hd] at hf
      have hc := hfill.copy_le
      have hcl := hfill.current_le
      change node.totalLen.toNat = 0 at hzero
      omega

end Receiver

end ResourceServer
