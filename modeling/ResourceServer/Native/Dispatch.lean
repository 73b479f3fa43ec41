import ResourceServer.Core.Transition
import ResourceServer.Native.MsgNode

/-!
# The logic queue and its worker

`LogicSystem` as the threads see it. Posts come from any thread and take
`m_mutex` for their whole body, so that they fall between the critical sections
of the worker; `deal_message` is cut at every point where it reads shared state,
with the wait on `m_cond` unfolded into its loop; the destructor takes no lock.
A waiting thread may wake without a notification.
-/

namespace ResourceServer

/-- `LogicNode`. Sessions are told apart by a value of `ι`. -/
structure LogicNode (ι : Type*) where
  session : ι
  recvNode : RecvNode
  deriving DecidableEq, Repr

/-- The handlers of `LogicSystem`. -/
inductive CallBack
  | testSend
  | doUploadFileReq
  deriving DecidableEq, Repr

/-- `m_callback_handler` as `register_callback` fills it. -/
def callbackHandler (id : ReqId) : Option CallBack :=
  if id = .idTestMsgReq then some .testSend
  else if id = .idUploadFileReq then some .doUploadFileReq
  else none

/-- A call of a handler with its arguments. -/
structure Invocation (ι : Type*) where
  handler : CallBack
  session : ι
  id : ReqId
  data : Bytes
  deriving DecidableEq, Repr

variable {ι : Type*}

/-- The call `deal_message` makes for a node, if its id is registered. The body is
a `char*`, converted to a `std::string`. -/
def LogicNode.invocation (node : LogicNode ι) : Option (Invocation ι) :=
  (callbackHandler node.recvNode.msgId).map fun handler =>
    ⟨handler, node.session, node.recvNode.msgId, Memory.cString 0 node.recvNode.body⟩

/-- Where `deal_message` stands. -/
inductive WorkerPc
  /-- Without the lock and about to take it. -/
  | locking
  /-- About to evaluate the predicate of the wait. -/
  | checking
  /-- The predicate was false, and the wait is about to release the lock. -/
  | dozing
  /-- Blocked on `m_cond`, without the lock. -/
  | asleep
  /-- The predicate was true. -/
  | awake
  /-- The handler of the front has returned. -/
  | called
  /-- About to test whether to leave the loop. -/
  | testing
  | left
  deriving DecidableEq, Repr

/-- The worker holds `m_mutex`. -/
def WorkerPc.Locked : WorkerPc → Prop
  | .locking | .asleep | .left => False
  | .checking | .dozing | .awake | .called | .testing => True

instance (pc : WorkerPc) : Decidable pc.Locked :=
  match pc with
  | .locking | .asleep | .left => isFalse id
  | .checking | .dozing | .awake | .called | .testing => isTrue trivial

/-- Where `~LogicSystem` stands. -/
inductive DestructorPc
  | notCalled
  /-- `m_is_stop` is set. -/
  | stopping
  /-- `notify_all` has returned. -/
  | joining
  | joined
  deriving DecidableEq, Repr

/-- The state of `LogicSystem`. -/
structure Dispatch (ι : Type*) where
  /-- `m_logic_que`, front first. -/
  logicQue : List (LogicNode ι)
  isStop : Bool
  worker : WorkerPc
  destructor : DestructorPc
  /-- The nodes posted so far. -/
  posted : List (LogicNode ι)
  /-- The handler calls made so far. -/
  invoked : List (Invocation ι)
  deriving DecidableEq

inductive DispatchAction (ι : Type*)
  /-- `post_message_to_logic_system`, on any thread. -/
  | post (node : LogicNode ι)
  /-- The worker takes its next step. -/
  | work
  /-- The wait returns without a notification. -/
  | wake
  /-- The destructor takes its next step. -/
  | destruct

namespace Dispatch

/-- The system behind its constructor. -/
def init : Dispatch ι := ⟨[], false, .locking, .notCalled, [], []⟩

/-- A notification: a blocked worker goes on to take the lock again. -/
def notify (s : Dispatch ι) : Dispatch ι :=
  if s.worker = .asleep then { s with worker := .locking } else s

/-- `post_message_to_logic_system`, once `m_mutex` is free. -/
def post (node : LogicNode ι) (s : Dispatch ι) : Option (Dispatch ι) :=
  if s.worker.Locked then none
  else
    let wasEmpty := s.logicQue.isEmpty
    let s' := { s with logicQue := s.logicQue ++ [node], posted := s.posted ++ [node] }
    some (if wasEmpty then s'.notify else s')

/-- The call the worker makes in its next step. -/
def nextCall (s : Dispatch ι) : Option (Invocation ι) :=
  if s.worker = .awake then s.logicQue.head?.bind LogicNode.invocation else none

/-- The next step of `deal_message`. -/
def dealMessage (s : Dispatch ι) : Option (Dispatch ι) :=
  match s.worker with
  | .locking => some { s with worker := .checking }
  | .checking =>
    if ¬ s.logicQue.isEmpty ∨ s.isStop then some { s with worker := .awake }
    else some { s with worker := .dozing }
  | .dozing => some { s with worker := .asleep }
  | .asleep => none
  | .awake =>
    match s.logicQue with
    | [] => some { s with worker := .testing }
    | msgNode :: rest =>
      match msgNode.invocation with
      | none => some { s with logicQue := rest, worker := .locking }
      | some call => some { s with invoked := s.invoked ++ [call], worker := .called }
  | .called => some { s with logicQue := s.logicQue.tail, worker := .testing }
  | .testing =>
    if s.logicQue.isEmpty ∧ s.isStop then some { s with worker := .left }
    else some { s with worker := .locking }
  | .left => none

/-- The next step of `~LogicSystem`. -/
def destruct (s : Dispatch ι) : Option (Dispatch ι) :=
  match s.destructor with
  | .notCalled => some { s with isStop := true, destructor := .stopping }
  | .stopping => some { s.notify with destructor := .joining }
  | .joining => if s.worker = .left then some { s with destructor := .joined } else none
  | .joined => none

/-- One step of one of the threads. -/
def step (s : Dispatch ι) : DispatchAction ι → Option (Dispatch ι)
  | .post node => s.post node
  | .work => s.dealMessage
  | .wake => if s.worker = .asleep then some { s with worker := .locking } else none
  | .destruct => s.destruct

end Dispatch

end ResourceServer
