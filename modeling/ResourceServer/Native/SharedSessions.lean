import ResourceServer.Core.RefCount
import ResourceServer.Native.Dispatch
import ResourceServer.Native.Registry

/-!
# Who holds a session

The copies of `shared_ptr<CSession>` while the main context runs: those captured by
the accept handler and by the handlers of the operations, the values of `m_sessions`,
the nodes of the logic queue and the argument of the callback. A handler captures its
session when its operation is begun and lets it go when it returns; as in the registry,
a session has at most one read and one write in flight. Copies that go while the one
they are made of is still held, such as the poster's own of its node, are not counted.
-/

namespace ResourceServer

/-- Where the handler of an operation stands as long as it has got no error. -/
inductive RunPc
  /-- No thread executes it. -/
  | idle
  | entered
  /-- The read handler has posted its message. -/
  | posted
  deriving DecidableEq, Repr

/-- Where the worker stands with the node at the front. -/
inductive CallPc
  | waiting
  /-- In the callback, whose argument is a copy of `m_session`. -/
  | calling
  | called
  deriving DecidableEq, Repr

variable {ι : Type*}

/-- The sessions and the references to them. -/
structure SharedSessions (ι : Type*) where
  registry : Registry ι
  refs : RefCount ι
  /-- The session of the accept handler that is pending. -/
  pendingAccept : Option ι
  /-- The session of the accept handler being executed. -/
  runningAccept : Option ι
  runPc : ι → SessionOp → RunPc
  /-- The sessions of the handlers that have nothing left to do but to return. -/
  returning : List ι
  /-- `m_logic_que`, front first. -/
  logicQue : List (LogicNode ι)
  callPc : CallPc

inductive SharedAction (ι : Type*)
  /-- `CServer::start` constructs the session of the next accept. -/
  | construct (i : ι)
  /-- An accept completes with an error. -/
  | acceptError
  /-- An accept completes, and its handler calls `session->start()`. -/
  | accept
  /-- The accept handler inserts its session. -/
  | insert
  /-- The accept handler returns, behind `CServer::start`. -/
  | acceptReturn
  /-- An operation completes, and a thread executes its handler. -/
  | enter (i : ι) (op : SessionOp)
  /-- The read handler posts a node. -/
  | post (i : ι) (node : RecvNode)
  /-- The handler begins the next operation of its chain. -/
  | again (i : ι) (op : SessionOp)
  /-- The write handler finds nothing left to write. -/
  | written (i : ι)
  /-- An operation fails, and its handler calls `close`. -/
  | close (i : ι) (op : SessionOp)
  /-- The handler calls `clear_session`. -/
  | clear (i : ι) (op : SessionOp)
  | handlerReturn (i : ι)
  /-- The worker calls the callback of the front. -/
  | call
  /-- The callback sends on its session with nothing in flight. -/
  | write
  | callReturn
  /-- The worker pops the front, behind its callback or for want of one. -/
  | pop

/-- The session whose members the code of a step uses. -/
def SharedAction.Uses (s : SharedSessions ι) (i : ι) : SharedAction ι → Prop
  | .construct _ => False
  | .acceptError | .accept => s.pendingAccept = some i
  | .insert | .acceptReturn => s.runningAccept = some i
  | .enter j _ | .post j _ | .again j _ | .written j | .close j _ | .clear j _
  | .handlerReturn j => j = i
  | .call | .write | .callReturn | .pop => s.logicQue.head?.map LogicNode.session = some i

/-- A handler returns, or the worker is done with a node. -/
def SharedAction.LetsGo : SharedAction ι → Prop
  | .acceptReturn | .handlerReturn _ | .pop => True
  | .construct _ | .acceptError | .accept | .insert | .enter _ _ | .post _ _ | .again _ _
  | .written _ | .close _ _ | .clear _ _ | .call | .write | .callReturn => False

/-- The references the handler of an operation is. -/
def HandlerPc.refs : HandlerPc → Nat
  | .idle | .cleared => 0
  | .pending | .closed => 1

/-- The references to session `i` in `m_sessions` and in its handlers. -/
def Registry.refs [DecidableEq ι] (r : Registry ι) (i : ι) : Nat :=
  (if i ∈ r.sessions then 1 else 0) + ((r.conns i).handler .read).refs +
    ((r.conns i).handler .write).refs

namespace SharedSessions

/-- The server before its first accept. -/
def init : SharedSessions ι :=
  ⟨Registry.init, RefCount.init, none, none, fun _ _ => .idle, [], [], .waiting⟩

/-- The argument of the callback the worker is in. -/
def argument (s : SharedSessions ι) : Option ι :=
  if s.callPc = .calling then s.logicQue.head?.map LogicNode.session else none

/-- The sessions held outside the registry, once for each reference. -/
def holders (s : SharedSessions ι) : List ι :=
  s.pendingAccept.toList ++ s.runningAccept.toList ++ s.returning ++
    s.logicQue.map LogicNode.session ++ s.argument.toList

variable [DecidableEq ι]

/-- The references to session `i` that are there. -/
def held (s : SharedSessions ι) (i : ι) : Nat := s.holders.count i + s.registry.refs i

/-- The handler of an operation moves on without an error. -/
def setRunPc (i : ι) (op : SessionOp) (pc : RunPc) (s : SharedSessions ι) : SharedSessions ι :=
  { s with runPc := Function.update s.runPc i (Function.update (s.runPc i) op pc) }

/-- One step of the main thread, a pool thread or the logic worker. -/
def step (s : SharedSessions ι) : SharedAction ι → Option (SharedSessions ι)
  | .construct i =>
    if s.pendingAccept = none ∧ s.registry.accepting = none ∧ s.refs.made i = false then
      some { s with pendingAccept := some i, refs := s.refs.make i }
    else none
  | .acceptError =>
    match s.pendingAccept, s.runningAccept with
    | some i, none =>
      (s.registry.step .acceptError).map fun registry =>
        { s with registry, pendingAccept := none, runningAccept := some i }
    | _, _ => none
  | .accept =>
    match s.pendingAccept, s.runningAccept with
    | some i, none =>
      (s.registry.step (.start i)).map fun registry =>
        { s with
          registry
          pendingAccept := none
          runningAccept := some i
          refs := s.refs.copy i }
    | _, _ => none
  | .insert =>
    s.registry.accepting.bind fun i =>
      (s.registry.step .insert).map fun registry => { s with registry, refs := s.refs.copy i }
  | .acceptReturn =>
    match s.runningAccept, s.pendingAccept with
    | some i, some _ => some { s with runningAccept := none, refs := s.refs.drop i }
    | _, _ => none
  | .enter i op =>
    if (s.registry.conns i).handler op = .pending ∧ s.runPc i op = .idle then
      some (s.setRunPc i op .entered)
    else none
  | .post i node =>
    if s.runPc i .read = .entered then
      some { s.setRunPc i .read .posted with
        logicQue := s.logicQue ++ [⟨i, node⟩]
        refs := s.refs.copy i }
    else none
  | .again i op =>
    if s.runPc i op ≠ .idle then
      some { s.setRunPc i op .idle with
        returning := i :: s.returning
        refs := s.refs.copy i }
    else none
  | .written i =>
    if s.runPc i .write = .entered then
      (s.registry.step (.written i)).map fun registry =>
        { s.setRunPc i .write .idle with registry, returning := i :: s.returning }
    else none
  | .close i op =>
    if s.runPc i op = .idle then
      (s.registry.step (.close i op)).map fun registry => { s with registry }
    else none
  | .clear i op =>
    (s.registry.step (.clear i op)).map fun registry =>
      { s with
        registry
        returning := i :: s.returning
        refs := if i ∈ s.registry.sessions then s.refs.drop i else s.refs }
  | .handlerReturn i =>
    if i ∈ s.returning then
      some { s with returning := s.returning.erase i, refs := s.refs.drop i }
    else none
  | .call =>
    match s.callPc, s.logicQue with
    | .waiting, node :: _ =>
      if node.invocation.isSome then
        some { s with callPc := .calling, refs := s.refs.copy node.session }
      else none
    | _, _ => none
  | .write =>
    match s.callPc, s.logicQue with
    | .calling, node :: _ =>
      (s.registry.step (.write node.session)).map fun registry =>
        { s with registry, refs := s.refs.copy node.session }
    | _, _ => none
  | .callReturn =>
    match s.callPc, s.logicQue with
    | .calling, node :: _ => some { s with callPc := .called, refs := s.refs.drop node.session }
    | _, _ => none
  | .pop =>
    match s.logicQue with
    | node :: rest =>
      if s.callPc = .called ∨ s.callPc = .waiting ∧ node.invocation = none then
        some { s with
          callPc := .waiting
          logicQue := rest
          refs := s.refs.drop node.session }
      else none
    | [] => none

end SharedSessions

end ResourceServer
