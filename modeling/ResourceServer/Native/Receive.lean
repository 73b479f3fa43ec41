import ResourceServer.Core.Transition
import ResourceServer.Native.MsgNode

/-!
# The receive loop of a session

`read_head` and `read_message_full` of `csession.cpp`, without `_DEBUG`, so that
`Assert` has no effect. An `async_read` collects bytes of the socket in pieces of
any size until its buffer is full and then runs its completion handler. The
signed length field is reinterpreted as `unsigned int` for the node and
sign-extended to `size_t` for the read budget, exactly as the two calls convert it.
-/

namespace ResourceServer

open Memory

/-- The `async_read` a session has started. -/
inductive ReadOp
  | readHead
  | readMessageFull (readTotalLen : BitVec 64)
  deriving DecidableEq, Repr

/-- The size of the buffer passed to `async_read`. -/
def ReadOp.size : ReadOp → Nat
  | .readHead => headTotalLen
  | .readMessageFull n => min n.toNat bufferTotalLen

/-- The receive half of `CSession`. -/
structure Receiver where
  /-- The bytes of the pending read that have arrived in `m_data`. -/
  data : Bytes
  headNode : MsgNode
  /-- The shared pointer `m_recv_node`, null until the first head is read. -/
  recvNode : Option RecvNode
  /-- The pending read; none once the loop has ended. -/
  pending : Option ReadOp
  deriving DecidableEq, Repr

namespace Receiver

/-- `CSession::read_head` up to the start of its read. -/
def readHead (r : Receiver) : Receiver :=
  { r with data := [], headNode := r.headNode.clear, pending := some .readHead }

/-- `CSession::read_message_full` up to the start of its read. -/
def readMessageFull (readTotalLen : BitVec 64) (r : Receiver) : Receiver :=
  { r with data := [], pending := some (.readMessageFull readTotalLen) }

/-- A constructed session after `CSession::start`. -/
def start (fresh : Nat → Byte) : Receiver :=
  readHead ⟨[], MsgNode.new fresh (BitVec.ofNat 32 headTotalLen), none, none⟩

/-- The message id in a head node. -/
def headId (head : MsgNode) : BitVec 16 := networkToHostShort (head.body.take headIdLen)

/-- The signed body length in a head node. -/
def headBodyLen (head : MsgNode) : BitVec 32 :=
  networkToHostLong ((head.body.drop headIdLen).take headDataLen)

/-- The head node after `memcpy` of the received head. -/
def fillHead (r : Receiver) : MsgNode :=
  { r.headNode with
    body := copy r.headNode.body 0 (r.data.take headTotalLen)
    currentLen := r.headNode.currentLen + BitVec.ofNat 32 headTotalLen }

/-- The completion handler of `read_head` on success. -/
def onReadHead (fresh : Nat → Byte) (r : Receiver) : Receiver :=
  if r.data.length = 0 then { r with pending := none }
  else
    let head := r.fillHead
    let bodyLen := headBodyLen head
    let node := RecvNode.new fresh bodyLen ⟨headId head⟩
    readMessageFull (bodyLen.signExtend 64) { r with headNode := head, recvNode := some node }

/-- The receive node after `memcpy` of the bytes of one completed read. -/
def fillNode (node : RecvNode) (data : Bytes) : RecvNode :=
  { node with
    body := copy node.body node.currentLen.toNat data
    currentLen := node.currentLen + BitVec.ofNat 32 data.length }

/-- The completion handler of `read_message_full` on success, with the node it posts. -/
def onReadMessageFull (readTotalLen : BitVec 64) (node : RecvNode) (r : Receiver) :
    Receiver × Option RecvNode :=
  let node := fillNode node r.data
  let r' := { r with recvNode := some node }
  if node.isFulled then (r'.readHead, some node)
  else (r'.readMessageFull (readTotalLen - BitVec.ofNat 64 r.data.length), none)

/-- The pending read moves bytes of the socket into `m_data`, never more than fit. -/
def readSome (bytes : Bytes) (r : Receiver) : Option Receiver :=
  r.pending.bind fun op =>
    if bytes ≠ [] ∧ r.data.length + bytes.length ≤ op.size then
      some { r with data := r.data ++ bytes }
    else none

/-- The pending read completes without error once its buffer is full. A body
read has a receive node, since only the handler of a head starts one. -/
def complete (fresh : Nat → Byte) (r : Receiver) : Option (Receiver × Option RecvNode) :=
  r.pending.bind fun op =>
    if r.data.length = op.size then
      match op with
      | .readHead => some (r.onReadHead fresh, none)
      | .readMessageFull n => r.recvNode.map fun node => r.onReadMessageFull n node
    else none

/-- The pending read completes with an error: `close` and `clear_session`, and no further read. -/
def fail (r : Receiver) : Option Receiver :=
  r.pending.map fun _ => { r with pending := none }

/-- The pending read waits for bytes that have not arrived. -/
def Waiting (r : Receiver) : Prop := ∃ op ∈ r.pending, r.data.length < op.size

instance (r : Receiver) : Decidable r.Waiting :=
  inferInstanceAs (Decidable (∃ op ∈ r.pending, r.data.length < op.size))

/-- The pending read has all its bytes, and its handler may run. -/
def Full (r : Receiver) : Prop := ∃ op ∈ r.pending, r.data.length = op.size

instance (r : Receiver) : Decidable r.Full :=
  inferInstanceAs (Decidable (∃ op ∈ r.pending, r.data.length = op.size))

/-- A read completes with all its bytes only. -/
theorem full_of_complete {r : Receiver} {fresh : Nat → Byte} {result : Receiver × Option RecvNode}
    (h : r.complete fresh = some result) : r.Full := by
  obtain ⟨op, hop, h⟩ := Option.bind_eq_some_iff.mp h
  obtain ⟨hfull, _⟩ := Option.ite_none_right_eq_some.mp h
  exact ⟨op, hop, hfull⟩

/-- Bytes that fit are taken. -/
theorem readSome_eq {r : Receiver} {op : ReadOp} {bytes : Bytes} (hop : r.pending = some op)
    (hne : bytes ≠ []) (hfit : r.data.length + bytes.length ≤ op.size) :
    r.readSome bytes = some { r with data := r.data ++ bytes } := by
  rw [readSome, hop, Option.bind_some, if_pos ⟨hne, hfit⟩]

/-- Bytes are taken only if they fit. -/
theorem readSome_cases {r r' : Receiver} {bytes : Bytes} (h : r.readSome bytes = some r') :
    ∃ op, r.pending = some op ∧ r.data.length + bytes.length ≤ op.size ∧
      r' = { r with data := r.data ++ bytes } := by
  obtain ⟨op, hop, h⟩ := Option.bind_eq_some_iff.mp h
  obtain ⟨hfit, ⟨⟩⟩ := Option.ite_none_right_eq_some.mp h
  exact ⟨op, hop, hfit.2, rfl⟩

/-- Behind a head the loop waits for the body, with the sign-extended budget. -/
theorem onReadHead_eq {r : Receiver} (mem : Nat → Byte) (hd : r.data.length = headTotalLen) :
    (r.onReadHead mem).data = [] ∧ (r.onReadHead mem).pending =
      some (.readMessageFull ((headBodyLen r.fillHead).signExtend 64)) := by
  rw [onReadHead, if_neg (by rw [hd]; decide)]
  exact ⟨rfl, rfl⟩

/-- A full head is handled. -/
theorem complete_readHead {r : Receiver} (mem : Nat → Byte) (hop : r.pending = some .readHead)
    (hd : r.data.length = headTotalLen) : r.complete mem = some (r.onReadHead mem, none) := by
  rw [complete, hop, Option.bind_some, ReadOp.size, if_pos hd]

/-- A full chunk of a body is handled. -/
theorem complete_readMessageFull {r : Receiver} {n : BitVec 64} {node : RecvNode}
    (mem : Nat → Byte) (hop : r.pending = some (.readMessageFull n))
    (hd : r.data.length = (ReadOp.readMessageFull n).size) (hn : r.recvNode = some node) :
    r.complete mem = some (r.onReadMessageFull n node) := by
  rw [complete, hop, Option.bind_some, if_pos hd, hn]
  rfl

/-- A full chunk fills the node, which is posted or goes on with the rest of its budget. -/
theorem onReadMessageFull_cases {r r' : Receiver} {n : BitVec 64} {node : RecvNode}
    {posted : Option RecvNode} (h : r.onReadMessageFull n node = (r', posted)) :
    ((fillNode node r.data).isFulled = true ∧
        r' = { r with recvNode := some (fillNode node r.data) }.readHead ∧
        posted = some (fillNode node r.data)) ∨
      (fillNode node r.data).isFulled = false ∧
        r' = { r with recvNode := some (fillNode node r.data) }.readMessageFull
          (n - BitVec.ofNat 64 r.data.length) ∧ posted = none := by
  rw [onReadMessageFull] at h
  split at h
  · rename_i hfull
    cases h
    exact Or.inl ⟨hfull, rfl, rfl⟩
  · rename_i hnot
    cases h
    exact Or.inr ⟨Bool.eq_false_iff.mpr hnot, rfl, rfl⟩

end Receiver

/-- A session's receive half with its socket and the nodes it has posted. -/
structure ReadLoop where
  /-- Bytes that have arrived and that no read has taken. -/
  socket : Bytes
  receiver : Receiver
  /-- The nodes given to `post_message_to_logic_system`, oldest first. -/
  posted : List RecvNode
  deriving DecidableEq

/-- What the network and the session's io thread can do. -/
inductive ReadAction
  /-- TCP delivers a piece of the peer's stream. -/
  | arrive (piece : Bytes)
  /-- The pending read takes the next `k` bytes. -/
  | readSome (k : Nat)
  /-- The handler of the full read runs; `fresh` is the content of the memory it allocates. -/
  | complete (fresh : Nat → Byte)
  /-- The handler runs with an error. -/
  | fail

namespace ReadLoop

/-- A session that has started and has received nothing. -/
def fresh (mem : Nat → Byte) : ReadLoop := ⟨[], Receiver.start mem, []⟩

/-- One step of the network or of the io thread. -/
def step (s : ReadLoop) : ReadAction → Option ReadLoop
  | .arrive piece => some { s with socket := s.socket ++ piece }
  | .readSome k =>
    if k ≤ s.socket.length then
      (s.receiver.readSome (s.socket.take k)).map fun r =>
        { s with socket := s.socket.drop k, receiver := r }
    else none
  | .complete mem =>
    (s.receiver.complete mem).map fun (r, node) =>
      { s with receiver := r, posted := s.posted ++ node.toList }
  | .fail => s.receiver.fail.map fun r => { s with receiver := r }

/-- The pending read takes its bytes from the front of the socket. -/
theorem readSome_cases {s t : ReadLoop} {k : Nat} (h : s.step (.readSome k) = some t) :
    ∃ r, s.receiver.readSome (s.socket.take k) = some r ∧
      t = { s with socket := s.socket.drop k, receiver := r } := by
  obtain ⟨_, h⟩ := Option.ite_none_right_eq_some.mp h
  obtain ⟨r, hr, rfl⟩ := Option.map_eq_some_iff.mp h
  exact ⟨r, hr, rfl⟩

/-- A completion leaves what its handler does, and posts its node. -/
theorem completed_cases {s t : ReadLoop} {mem : Nat → Byte} (h : s.step (.complete mem) = some t) :
    ∃ r node, s.receiver.complete mem = some (r, node) ∧
      t = { s with receiver := r, posted := s.posted ++ node.toList } := by
  obtain ⟨⟨r, node⟩, hcomp, rfl⟩ := Option.map_eq_some_iff.mp h
  exact ⟨r, node, hcomp, rfl⟩

/-- An error ends the loop and changes nothing else. -/
theorem failed_cases {s t : ReadLoop} (h : s.step .fail = some t) :
    t = { s with receiver := { s.receiver with pending := none } } := by
  obtain ⟨r, hr, rfl⟩ := Option.map_eq_some_iff.mp h
  obtain ⟨op, _, rfl⟩ := Option.map_eq_some_iff.mp hr
  rfl

/-- Everything the socket received has been consumed and the pending read waits for more. -/
def Consumed (s : ReadLoop) : Prop := s.socket = [] ∧ s.receiver.Waiting

instance (s : ReadLoop) : Decidable s.Consumed :=
  inferInstanceAs (Decidable (s.socket = [] ∧ s.receiver.Waiting))

end ReadLoop

/-- The bytes a schedule delivers to the socket. -/
def arrived (as : List ReadAction) : Bytes :=
  as.flatMap fun
    | .arrive piece => piece
    | _ => []

end ResourceServer
