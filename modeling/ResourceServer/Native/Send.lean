import ResourceServer.Core.Transition
import ResourceServer.Native.MsgNode

/-!
# The send half of a session

`CSession::send` and `CSession::write_handler`, each call one step, for any bound
`MAX_SENDQUE`. An `async_write` hands its bytes to the socket in pieces of any size
and completes with success once all are written, or with an error at any time.
-/

namespace ResourceServer

/-- The arguments of one call of `send`. -/
structure Message where
  id : ReqId
  data : Bytes
  deriving DecidableEq, Repr

/-- The node `send` makes: `data.length ()` is converted to `unsigned int`. -/
def Message.node (mem : Nat → Byte) (m : Message) : SendNode :=
  SendNode.new mem m.data (BitVec.ofNat 32 m.data.length) m.id

/-- A `shared_ptr<SendNode>`; pointers are told apart by the number of the push. -/
structure SendPtr where
  number : Nat
  node : SendNode
  deriving DecidableEq, Repr

/-- An `async_write` in flight: the node it writes and the bytes still to be written. -/
structure WriteOp where
  number : Nat
  rest : Bytes
  deriving DecidableEq, Repr

/-- The send half of `CSession`. -/
structure Sender where
  /-- `m_send_queue`, front first. -/
  sendQueue : List SendPtr
  writing : List WriteOp
  /-- The bytes written to the socket. -/
  wire : Bytes
  isStop : Bool
  /-- The messages pushed so far. -/
  accepted : List Message
  /-- The nodes an `async_write` was started for, by number. -/
  started : List Nat
  deriving DecidableEq, Repr

namespace Sender

/-- A session that has sent nothing. -/
def init : Sender := ⟨[], [], [], false, [], []⟩

/-- `async_write` of the front of the queue. -/
def startFront (s : Sender) : Sender :=
  match s.sendQueue with
  | [] => s
  | front :: _ => { s with
      writing := s.writing ++ [⟨front.number, front.node.buffer⟩]
      started := s.started ++ [front.number] }

/-- `CSession::send`, with `bound` for `MAX_SENDQUE`. -/
def send (bound : Nat) (mem : Nat → Byte) (m : Message) (s : Sender) : Sender :=
  let queSize := s.sendQueue.length
  if bound < queSize then s
  else
    let s' := { s with
      sendQueue := s.sendQueue ++ [⟨s.accepted.length, m.node mem⟩]
      accepted := s.accepted ++ [m] }
    if 0 < queSize then s' else s'.startFront

/-- `CSession::close`, as far as the send half sees it. -/
def close (s : Sender) : Sender := { s with isStop := true }

/-- `CSession::write_handler`. -/
def writeHandler (ec : Bool) (s : Sender) : Sender :=
  if ec then s.close
  else
    let s' := { s with sendQueue := s.sendQueue.tail }
    if s'.sendQueue.isEmpty then s' else s'.startFront

/-- The `i`-th write in flight puts its next `k` bytes on the socket. -/
def writeSome (i k : Nat) (s : Sender) : Option Sender :=
  s.writing[i]?.bind fun op =>
    if 0 < k ∧ k ≤ op.rest.length then
      some { s with
        writing := s.writing.set i { op with rest := op.rest.drop k }
        wire := s.wire ++ op.rest.take k }
    else none

/-- The `i`-th write in flight completes with success, all its bytes written. -/
def complete (i : Nat) (s : Sender) : Option Sender :=
  s.writing[i]?.bind fun op =>
    if op.rest = [] then some (writeHandler false { s with writing := s.writing.eraseIdx i })
    else none

/-- The `i`-th write in flight completes with an error. -/
def fail (i : Nat) (s : Sender) : Option Sender :=
  s.writing[i]?.map fun _ => writeHandler true { s with writing := s.writing.eraseIdx i }

/-- A write in flight puts no more on the socket than it has left. -/
theorem writeSome_cases {s t : Sender} {i k : Nat} (h : s.writeSome i k = some t) :
    ∃ op, s.writing[i]? = some op ∧ (0 < k ∧ k ≤ op.rest.length) ∧ t = { s with
      writing := s.writing.set i { op with rest := op.rest.drop k }
      wire := s.wire ++ op.rest.take k } := by
  obtain ⟨op, hop, h⟩ := Option.bind_eq_some_iff.mp h
  obtain ⟨hk, ⟨⟩⟩ := Option.ite_none_right_eq_some.mp h
  exact ⟨op, hop, hk, rfl⟩

/-- A write that completes has nothing left, and its handler runs. -/
theorem handler_of_complete {s t : Sender} {i : Nat} (h : s.complete i = some t) :
    ∃ op, s.writing[i]? = some op ∧ op.rest = [] ∧
      t = writeHandler false { s with writing := s.writing.eraseIdx i } := by
  obtain ⟨op, hop, h⟩ := Option.bind_eq_some_iff.mp h
  obtain ⟨hrest, ⟨⟩⟩ := Option.ite_none_right_eq_some.mp h
  exact ⟨op, hop, hrest, rfl⟩

/-- A write that fails runs its handler with the error. -/
theorem handler_of_fail {s t : Sender} {i : Nat} (h : s.fail i = some t) :
    ∃ op, s.writing[i]? = some op ∧
      t = writeHandler true { s with writing := s.writing.eraseIdx i } := by
  obtain ⟨op, hop, rfl⟩ := Option.map_eq_some_iff.mp h
  exact ⟨op, hop, rfl⟩

end Sender

/-- What the logic worker, the socket and the io thread can do. -/
inductive SendAction
  /-- A call of `send`; `fresh` is the content of the memory its node allocates. -/
  | send (m : Message) (fresh : Nat → Byte)
  | writeSome (i k : Nat)
  | complete (i : Nat)
  | fail (i : Nat)

/-- One step of the send half. -/
def Sender.step (bound : Nat) (s : Sender) : SendAction → Option Sender
  | .send m mem => some (s.send bound mem m)
  | .writeSome i k => s.writeSome i k
  | .complete i => s.complete i
  | .fail i => s.fail i

end ResourceServer
