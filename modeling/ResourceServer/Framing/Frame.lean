import ResourceServer.Core.PrefixCode
import ResourceServer.Native.MsgNode

/-!
# Frames

The wire format as such: a 16-bit id and a 32-bit length in network order, then
the body. Frames form a prefix-free code, a send node of an admissible length
holds exactly the frame of its message, and every receive node stands for one.
-/

namespace ResourceServer

open Memory PrefixCode

/-- A message whose length fits the length field. -/
structure Frame where
  id : ReqId
  body : Bytes
  /-- The body is no longer than the field can say. -/
  length_lt : body.length < 2 ^ 32
  deriving DecidableEq

namespace Frame

/-- The six bytes in front of the body. -/
def head (f : Frame) : Bytes :=
  hostToNetworkShort f.id.enumToInt ++ hostToNetworkLong (BitVec.ofNat 32 f.body.length)

/-- The bytes of a frame. -/
def encode (f : Frame) : Bytes := f.head ++ f.body

@[simp] theorem length_head (f : Frame) : f.head.length = headTotalLen := by
  rw [head, List.length_append, length_hostToNetworkShort, length_hostToNetworkLong]
  rfl

@[simp] theorem length_encode (f : Frame) : f.encode.length = headTotalLen + f.body.length := by
  rw [encode, List.length_append, length_head]

/-- No frame is encoded by nothing. -/
theorem encode_ne_nil (f : Frame) : f.encode ≠ [] := by
  intro h
  have hl := congrArg List.length h
  rw [length_encode, List.length_nil, headTotalLen] at hl
  omega

/-- The length field of a frame is the length of its body. -/
theorem toNat_length (f : Frame) : (BitVec.ofNat 32 f.body.length).toNat = f.body.length := by
  rw [BitVec.toNat_ofNat, Nat.mod_eq_of_lt f.length_lt]

/-- Equal bytes begin with equal heads. -/
theorem head_append_inj {x y : BitVec 16} {len len' : BitVec 32} {rest rest' : Bytes}
    (h : hostToNetworkShort x ++ hostToNetworkLong len ++ rest =
      hostToNetworkShort y ++ hostToNetworkLong len' ++ rest') : x = y ∧ len = len' := by
  obtain ⟨hhead, _⟩ := List.append_inj h (by
    simp only [List.length_append, length_hostToNetworkShort, length_hostToNetworkLong])
  obtain ⟨hs, hl⟩ := List.append_inj hhead (by simp only [length_hostToNetworkShort])
  have hid := congrArg networkToHostShort hs
  have hlen := congrArg networkToHostLong hl
  simp only [networkToHostShort_hostToNetworkShort, networkToHostLong_hostToNetworkLong]
    at hid hlen
  exact ⟨hid, hlen⟩

/-- A head determines the id and the length of the body. -/
theorem head_inj {f g : Frame} (h : f.head = g.head) :
    f.id = g.id ∧ f.body.length = g.body.length := by
  obtain ⟨hid, hlen⟩ := head_append_inj (congrArg (· ++ []) h)
  refine ⟨?_, ?_⟩
  · cases hf : f.id
    cases hg : g.id
    rw [hf, hg] at hid
    exact congrArg ReqId.mk hid
  · rw [← f.toNat_length, ← g.toNat_length, hlen]

/-- Frames can be told apart wherever a stream is cut. -/
theorem prefixFree_encode : PrefixFree encode := by
  refine prefixFree_of_header head body (fun _ => rfl)
    (fun f g => by rw [length_head, length_head]) (fun f g h => (head_inj h).2) ?_
  intro f g hh hb
  cases f
  cases g
  cases hb
  cases (head_inj hh).1
  rfl

/-- Where a frame begins, the length field of its head stands. -/
theorem length_of_append {f : Frame} {id : ReqId} {len : BitVec 32} {rest more : Bytes}
    (h : hostToNetworkShort id.enumToInt ++ hostToNetworkLong len ++ rest = f.encode ++ more) :
    len = BitVec.ofNat 32 f.body.length := by
  rw [encode, head, List.append_assoc _ f.body] at h
  exact (head_append_inj h).2

/-- Fewer bytes than a head begin no frame. -/
theorem incomplete_of_short {rest : Bytes} (h : rest.length < headTotalLen) :
    Incomplete encode rest := by
  intro f hf
  have hl := hf.length_le
  rw [length_encode] at hl
  omega

/-- A head with fewer body bytes than it declares begins no frame. -/
theorem incomplete_of_head {id : ReqId} {len : BitVec 32} {rest : Bytes}
    (h : rest.length < len.toNat) :
    Incomplete encode (hostToNetworkShort id.enumToInt ++ hostToNetworkLong len ++ rest) := by
  rintro f ⟨tail, ht⟩
  have hlen := length_of_append ht.symm
  have hle := congrArg List.length ht
  rw [hlen, toNat_length] at h
  simp only [List.length_append, length_encode, length_hostToNetworkShort,
    length_hostToNetworkLong, headTotalLen, headIdLen, headDataLen] at hle
  omega

/-- The end of a stream that stops inside a frame: fewer bytes than a head, or a head
with fewer body bytes than it declares. -/
def Cut (rest : Bytes) : Prop :=
  rest.length < headTotalLen ∨ ∃ (id : ReqId) (len : BitVec 32) (part : Bytes),
    rest = hostToNetworkShort id.enumToInt ++ hostToNetworkLong len ++ part ∧
      part.length < len.toNat

/-- No frame begins an end that stops inside one. -/
theorem Cut.incomplete {rest : Bytes} (h : Cut rest) : Incomplete encode rest := by
  rcases h with hshort | ⟨id, len, part, rfl, hlt⟩
  · exact incomplete_of_short hshort
  · exact incomplete_of_head hlt

end Frame

/-- The message a receive node holds: its id and the first `total_len` cells. -/
def RecvNode.frame (node : RecvNode) : Frame where
  id := node.msgId
  body := node.body.take node.totalLen.toNat
  length_lt := (List.length_take_le _ _).trans_lt node.totalLen.isLt

/-- Three successive copies that together cover the block from its start. -/
private theorem take_copy_three (block a b c : Bytes)
    (h : a.length + b.length + c.length ≤ block.length) :
    (copy (copy (copy block 0 a) a.length b) (a.length + b.length) c).take
      (a.length + b.length + c.length) = a ++ b ++ c := by
  have ha : (copy block 0 a).take a.length = a := by
    simpa using take_copy block 0 a (by omega)
  have hb := take_copy (copy block 0 a) a.length b (by rw [length_copy]; omega)
  have hc := take_copy (copy (copy block 0 a) a.length b) (a.length + b.length) c
    (by rw [length_copy, length_copy]; omega)
  rw [hc, hb, ha]

/-- A send node whose sums do not wrap holds the frame of its message, whatever
the allocated memory held before. -/
theorem SendNode.buffer_new (fresh : Nat → Byte) (f : Frame)
    (h : f.body.length + headTotalLen + 1 < 2 ^ 32) :
    (SendNode.new fresh f.body (BitVec.ofNat 32 f.body.length) f.id).buffer = f.encode := by
  have hlen : (BitVec.ofNat 32 f.body.length + BitVec.ofNat 32 headTotalLen).toNat =
      f.body.length + headTotalLen := by
    rw [BitVec.toNat_add, f.toNat_length, BitVec.toNat_ofNat]
    simp only [headTotalLen] at h ⊢
    omega
  have hblock := MsgNode.length_new_body_eq fresh
    (BitVec.ofNat 32 f.body.length + BitVec.ofNat 32 headTotalLen) (by rw [hlen]; exact h)
  have hcover := take_copy_three
    (MsgNode.new fresh (BitVec.ofNat 32 f.body.length + BitVec.ofNat 32 headTotalLen)).body
    (hostToNetworkShort f.id.enumToInt) (hostToNetworkLong (BitVec.ofNat 32 f.body.length))
    f.body (by
      rw [hblock, hlen, length_hostToNetworkShort, length_hostToNetworkLong, headIdLen,
        headDataLen, headTotalLen]
      omega)
  rw [length_hostToNetworkShort, length_hostToNetworkLong] at hcover
  rw [buffer, SendNode.new, f.toNat_length, List.take_length]
  simp only [hlen]
  rw [Nat.add_comm f.body.length]
  exact hcover

end ResourceServer
