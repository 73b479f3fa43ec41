import ResourceServer.Native.Handshake
import ResourceServer.Native.Send

/-!
# The send half, step by step

`CSession::send` and `CSession::write_handler` cut into the steps of the handshake,
with the messages, the bytes on the socket and the writes that fail. Sends follow one
another under `m_send_lock`, the steps of `write_handler` fall anywhere between theirs.
-/

namespace ResourceServer

/-- The send half of a session, between any two steps of its threads. -/
structure SplitSender extends Sender where
  /-- The next step of the `send` call that holds `m_send_lock`. -/
  pc : SendPc
  /-- The arguments of that call; the last call's when no call is running. -/
  message : Message
  /-- The content of the memory that the node of that call allocates. -/
  fresh : Nat → Byte
  /-- Running `write_handler` calls that are about to pop. -/
  completed : Nat
  /-- Running `write_handler` calls that are about to test whether the queue is empty. -/
  popped : Nat
  /-- Running `write_handler` calls that are about to start a write of the front. -/
  resuming : Nat
  /-- The `write_handler` calls that were given an error. -/
  failed : Nat

inductive SplitAction
  /-- A new call of `send` takes `m_send_lock` and reads the size of the queue. -/
  | call (m : Message) (fresh : Nat → Byte)
  /-- The running `send` call takes its next step. -/
  | send
  | writeSome (i k : Nat)
  /-- The `i`-th write in flight completes with success, and its handler begins. -/
  | complete (i : Nat)
  /-- The `i`-th write in flight fails, and its handler closes the session. -/
  | fail (i : Nat)
  | handlerPop
  | handlerTest
  | handlerStart

namespace SplitSender

/-- A session that has sent nothing. -/
def init : SplitSender where
  toSender := Sender.init
  pc := .idle
  message := ⟨.idTestMsgRsp, []⟩
  fresh _ := 0
  completed := 0
  popped := 0
  resuming := 0
  failed := 0

/-- `async_write` of the front of the queue, which there has to be. -/
def startFront (s : SplitSender) : Option SplitSender :=
  match s.sendQueue with
  | [] => none
  | _ :: _ => some { s with toSender := s.toSender.startFront }

/-- The next step of the running `send` call. -/
def sendStep (s : SplitSender) : Option SplitSender :=
  match s.pc with
  | .idle => none
  | .sized queSize =>
    if maxSendQue < queSize then some { s with pc := .idle }
    else some { s with
      sendQueue := s.sendQueue ++ [⟨s.accepted.length, s.message.node s.fresh⟩]
      accepted := s.accepted ++ [s.message]
      pc := .pushed queSize }
  | .pushed queSize => some { s with pc := if 0 < queSize then .idle else .starting }
  | .starting => s.startFront.map fun t => { t with pc := .idle }

/-- The completion of a write whose bytes are all on the socket. -/
def completeWrite (i : Nat) (s : SplitSender) : Option SplitSender :=
  s.writing[i]?.bind fun op =>
    if op.rest = [] then
      some { s with writing := s.writing.eraseIdx i, completed := s.completed + 1 }
    else none

/-- One atomic step. -/
def step (s : SplitSender) : SplitAction → Option SplitSender
  | .call m fresh =>
    if s.pc = .idle then
      some { s with pc := .sized s.sendQueue.length, message := m, fresh := fresh }
    else none
  | .send => s.sendStep
  | .writeSome i k => (s.toSender.writeSome i k).map fun t => { s with toSender := t }
  | .complete i => s.completeWrite i
  | .fail i =>
    (s.toSender.fail i).map fun t => { s with toSender := t, failed := s.failed + 1 }
  | .handlerPop =>
    if 0 < s.completed then
      some { s with
        sendQueue := s.sendQueue.tail, completed := s.completed - 1, popped := s.popped + 1 }
    else none
  | .handlerTest =>
    if 0 < s.popped then
      if s.sendQueue.isEmpty then some { s with popped := s.popped - 1 }
      else some { s with popped := s.popped - 1, resuming := s.resuming + 1 }
    else none
  | .handlerStart =>
    if 0 < s.resuming then s.startFront.map fun t => { t with resuming := s.resuming - 1 }
    else none

/-- No `send` and no `write_handler` is in the middle of its steps. -/
def Quiet (s : SplitSender) : Prop :=
  s.pc = .idle ∧ s.completed = 0 ∧ s.popped = 0 ∧ s.resuming = 0

instance (s : SplitSender) : Decidable s.Quiet := inferInstanceAs (Decidable (_ ∧ _))

/-- A started write is that of the front. -/
theorem startFront_cases {s t : SplitSender} (h : s.startFront = some t) :
    ∃ front rest, s.sendQueue = front :: rest ∧ t = { s with
      writing := s.writing ++ [⟨front.number, front.node.buffer⟩]
      started := s.started ++ [front.number] } := by
  unfold startFront at h
  cases hq : s.sendQueue with
  | nil =>
    rw [hq] at h
    contradiction
  | cons front rest =>
    rw [hq] at h
    cases h
    refine ⟨front, rest, rfl, ?_⟩
    simp only [Sender.startFront, hq]

/-- A write that completes has nothing left. -/
theorem completeWrite_cases {s t : SplitSender} {i : Nat} (h : s.completeWrite i = some t) :
    ∃ op, s.writing[i]? = some op ∧ op.rest = [] ∧ t = { s with
      writing := s.writing.eraseIdx i, completed := s.completed + 1 } := by
  obtain ⟨op, hop, h⟩ := Option.bind_eq_some_iff.mp h
  obtain ⟨hrest, ⟨⟩⟩ := Option.ite_none_right_eq_some.mp h
  exact ⟨op, hop, hrest, rfl⟩

end SplitSender

end ResourceServer
