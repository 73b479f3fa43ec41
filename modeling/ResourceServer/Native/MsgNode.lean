import ResourceServer.Core.Memory
import ResourceServer.Native.Global

/-!
# Message nodes

The buffers of `msgnode.cpp`. Lengths are 32-bit and wrap as `unsigned int`
does; `new char[n]` returns a block whose contents are given by an arbitrary
function, since C++ leaves them indeterminate.
-/

namespace ResourceServer

open Memory

/-- `MsgNodeBase`. -/
structure MsgNode where
  /-- The allocated block, including the cell reserved for the terminator. -/
  body : Bytes
  totalLen : BitVec 32
  currentLen : BitVec 32
  deriving DecidableEq, Repr

/-- `MsgNodeBase (msgLen_t len_)`. The sum `total_len + 1` is taken in 32 bits. -/
def MsgNode.new (fresh : Nat → Byte) (len : BitVec 32) : MsgNode where
  body := (alloc fresh (len + 1).toNat).set len.toNat 0
  totalLen := len
  currentLen := 0

/-- `MsgNodeBase::clear`. -/
def MsgNode.clear (node : MsgNode) : MsgNode :=
  { node with body := copy node.body 0 (List.replicate node.totalLen.toNat 0), currentLen := 0 }

/-- `RecvNode`. -/
structure RecvNode extends MsgNode where
  msgId : ReqId
  deriving DecidableEq, Repr

/-- `RecvNode (msgLen_t len_, msgID_t id_)`. -/
def RecvNode.new (fresh : Nat → Byte) (len : BitVec 32) (id : ReqId) : RecvNode :=
  { MsgNode.new fresh len with msgId := id }

/-- `RecvNode::is_fulled`. -/
def RecvNode.isFulled (node : RecvNode) : Bool := node.totalLen == node.currentLen

/-- `SendNode`. -/
structure SendNode extends MsgNode where
  msgId : ReqId
  deriving DecidableEq, Repr

/-- `SendNode (const char* msg_, msgLen_t len_, msgID_t id_)`. -/
def SendNode.new (fresh : Nat → Byte) (msg : Bytes) (len : BitVec 32) (id : ReqId) : SendNode :=
  let node := MsgNode.new fresh (len + BitVec.ofNat 32 headTotalLen)
  let body := copy node.body 0 (hostToNetworkShort id.enumToInt)
  let body := copy body headIdLen (hostToNetworkLong len)
  let body := copy body headTotalLen (msg.take len.toNat)
  { node with body := body, currentLen := len + BitVec.ofNat 32 headTotalLen, msgId := id }

/-- The writes of this constructor into its block, each as the index of its first cell
and the number of its cells: the terminator, the id, the length and the message. -/
def SendNode.writes (len : BitVec 32) : List (Nat × Nat) :=
  [((len + BitVec.ofNat 32 headTotalLen).toNat, 1), (0, headIdLen), (headIdLen, headDataLen),
    (headTotalLen, len.toNat)]

/-- The bytes `asio::buffer (msg_node->body, msg_node->current_len)` hands to the socket. -/
def SendNode.buffer (node : SendNode) : Bytes := node.body.take node.currentLen.toNat

@[simp] theorem MsgNode.length_new_body (fresh : Nat → Byte) (len : BitVec 32) :
    (MsgNode.new fresh len).body.length = (len + 1).toNat := by
  rw [MsgNode.new, List.length_set, length_alloc]

/-- The allocation holds one cell more than the node's length unless the sum wraps. -/
theorem MsgNode.length_new_body_eq (fresh : Nat → Byte) (len : BitVec 32)
    (h : len.toNat + 1 < 2 ^ 32) : (MsgNode.new fresh len).body.length = len.toNat + 1 := by
  rw [MsgNode.length_new_body, BitVec.toNat_add]
  exact Nat.mod_eq_of_lt h

/-- The terminator stands behind the message. -/
theorem MsgNode.new_terminator (fresh : Nat → Byte) {len : BitVec 32}
    (h : len.toNat + 1 < 2 ^ 32) : (MsgNode.new fresh len).body[len.toNat]? = some 0 := by
  have hl : len.toNat < (alloc fresh (len + 1).toNat).length := by
    have hb := MsgNode.length_new_body_eq fresh len h
    rw [MsgNode.length_new_body] at hb
    rw [length_alloc, hb]
    exact Nat.lt_succ_self _
  exact List.getElem?_set_self hl

end ResourceServer
