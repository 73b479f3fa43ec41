import ResourceServer.Core.Transition
import ResourceServer.Native.Global

/-!
# The send handshake, step by step

`CSession::send` and `CSession::write_handler` cut into their atomic steps. Sends
follow one another under `m_send_lock`; `write_handler` takes no lock, so its
steps fall anywhere between theirs. Nodes are told apart by the order in which
they were pushed, handlers only by the step they take next.
-/

namespace ResourceServer

/-- The next step of the `send` call that holds `m_send_lock`. -/
inductive SendPc
  /-- No call is running. -/
  | idle
  /-- The call has read the size of the queue. -/
  | sized (queSize : Nat)
  /-- The call has pushed its node. -/
  | pushed (queSize : Nat)
  /-- The call goes on to start a write of the front. -/
  | starting
  deriving DecidableEq, Repr

/-- The send half of a session under interleaving. -/
structure Handshake where
  /-- `m_send_queue`, front first. -/
  sendQueue : List Nat
  /-- The number of nodes pushed so far, which names the next one. -/
  accepted : Nat
  /-- The nodes of the `async_write`s in flight. -/
  writing : List Nat
  /-- Every node an `async_write` was started for, in that order. -/
  started : List Nat
  send : SendPc
  /-- Running `write_handler` calls that are about to pop. -/
  completed : Nat
  /-- Running `write_handler` calls that are about to test whether the queue is empty. -/
  popped : Nat
  /-- Running `write_handler` calls that are about to start a write of the front. -/
  resuming : Nat
  deriving DecidableEq, Repr

inductive HandshakeAction
  /-- The running `send` call takes its next step, or a new call its first. -/
  | send
  /-- The write of `node` completes with success, and its handler begins. -/
  | complete (node : Nat)
  | handlerPop
  | handlerTest
  | handlerStart
  deriving DecidableEq, Repr

namespace Handshake

/-- A session that has sent nothing. -/
def init : Handshake := ⟨[], 0, [], [], .idle, 0, 0, 0⟩

/-- `async_write` of the front of the queue. -/
def startFront (s : Handshake) : Option Handshake :=
  s.sendQueue.head?.map fun node =>
    { s with writing := s.writing ++ [node], started := s.started ++ [node] }

/-- One atomic step. -/
def step (s : Handshake) : HandshakeAction → Option Handshake
  | .send =>
    match s.send with
    | .idle => some { s with send := .sized s.sendQueue.length }
    | .sized queSize =>
      if maxSendQue < queSize then some { s with send := .idle }
      else some { s with
        sendQueue := s.sendQueue ++ [s.accepted], accepted := s.accepted + 1,
        send := .pushed queSize }
    | .pushed queSize => some { s with send := if 0 < queSize then .idle else .starting }
    | .starting => s.startFront.map fun t => { t with send := .idle }
  | .complete node =>
    if node ∈ s.writing then
      some { s with writing := s.writing.erase node, completed := s.completed + 1 }
    else none
  | .handlerPop =>
    if 0 < s.completed then
      some { s with
        sendQueue := s.sendQueue.tail, completed := s.completed - 1, popped := s.popped + 1 }
    else none
  | .handlerTest =>
    if 0 < s.popped then
      if s.sendQueue.isEmpty then some { s with popped := s.popped - 1 }
      else some { s with popped := s.popped - 1, resuming := s.resuming + 1 }
    else none
  | .handlerStart =>
    if 0 < s.resuming then s.startFront.map fun t => { t with resuming := t.resuming - 1 }
    else none

/-- No `send` and no `write_handler` is in the middle of its steps. -/
def Quiet (s : Handshake) : Prop :=
  s.send = .idle ∧ s.completed = 0 ∧ s.popped = 0 ∧ s.resuming = 0

/-- What the handshake is for: one write at a time, no node written twice, and
outside the two functions a non-empty queue has its write in flight. -/
structure Exclusive (s : Handshake) : Prop where
  one_write : s.writing.length ≤ 1
  nodup : s.started.Nodup
  not_stuck : s.Quiet → s.sendQueue ≠ [] → s.writing.length = 1

end Handshake

end ResourceServer
