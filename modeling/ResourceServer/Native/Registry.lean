import Mathlib.Data.Finset.Basic
import ResourceServer.Core.Transition

/-!
# The session registry

`CServer::start` on the main context and the error paths of a session's handlers
on its pool thread, cut at `session->start()`, the insertion into `m_sessions`,
`close` and `clear_session`. The main context runs one accept handler at a time.
A session has at most one read and one write in flight; either ends in an error of
its own, and a write may be started on a socket that is closed already, since
`send` does not look.
-/

namespace ResourceServer

/-- The two kinds of operation a session has in flight. -/
inductive SessionOp
  | read
  | write
  deriving DecidableEq, Repr

/-- Where the handler of an operation stands. -/
inductive HandlerPc
  /-- Nothing is in flight. -/
  | idle
  /-- The operation is in flight. -/
  | pending
  /-- It failed, and its handler has called `close`. -/
  | closed
  /-- The handler has called `clear_session`. -/
  | cleared
  deriving DecidableEq, Repr

/-- A session as the registry depends on it. -/
structure Connection where
  handler : SessionOp → HandlerPc
  isStop : Bool
  /-- The accept handler of the session has made its insertion. -/
  accepted : Bool

/-- A session under construction. -/
def Connection.new : Connection := ⟨fun _ => .idle, false, false⟩

/-- Some handler of the session has called `clear_session`. -/
def Connection.Cleared (c : Connection) : Prop := ∃ op, c.handler op = .cleared

/-- Some handler of the session is about to call `clear_session`. -/
def Connection.Clearing (c : Connection) : Prop := ∃ op, c.handler op = .closed

variable {ι : Type*}

/-- `CServer` and its sessions, whose ids are the values of `ι`. -/
structure Registry (ι : Type*) where
  conns : ι → Connection
  /-- The keys of `m_sessions`. -/
  sessions : Finset ι
  /-- The session whose accept handler is between `start` and the insertion. -/
  accepting : Option ι

inductive RegistryAction (ι : Type*)
  /-- An accept completes with an error, and `CServer::start` begins the next. -/
  | acceptError
  /-- An accept completes, and its handler calls `session->start()`. -/
  | start (i : ι)
  /-- The accept handler inserts its session and begins the next accept. -/
  | insert
  /-- The logic worker sends on the session with nothing in flight. -/
  | write (i : ι)
  /-- The write completes with nothing left to write. -/
  | written (i : ι)
  /-- An operation fails, and its handler calls `close`. -/
  | close (i : ι) (op : SessionOp)
  /-- The handler calls `clear_session`. -/
  | clear (i : ι) (op : SessionOp)
  deriving DecidableEq

/-- The steps of the accept handler, on the main context. -/
def RegistryAction.OnMain : RegistryAction ι → Prop
  | .acceptError | .start _ | .insert => True
  | .write _ | .written _ | .close _ _ | .clear _ _ => False

namespace Registry

/-- The server before its first connection. -/
def init : Registry ι := ⟨fun _ => .new, ∅, none⟩

/-- What the registry is for: no dead session stays in it. -/
structure Live (s : Registry ι) : Prop where
  erased : ∀ i, (s.conns i).accepted = true → (s.conns i).Cleared → i ∉ s.sessions
  owed : ∀ i ∈ s.sessions, (s.conns i).isStop = false ∨ (s.conns i).Clearing

variable [DecidableEq ι]

/-- Session `i` changes. -/
def setConn (i : ι) (c : Connection) (s : Registry ι) : Registry ι :=
  { s with conns := Function.update s.conns i c }

/-- The handler of an operation of session `i` moves on. -/
def setHandler (i : ι) (op : SessionOp) (pc : HandlerPc) (s : Registry ι) : Registry ι :=
  s.setConn i { s.conns i with handler := Function.update (s.conns i).handler op pc }

/-- `CSession::close`. -/
def close (i : ι) (s : Registry ι) : Registry ι :=
  s.setConn i { s.conns i with isStop := true }

/-- `CServer::clear_session`. -/
def clearSession (i : ι) (s : Registry ι) : Registry ι :=
  { s with sessions := s.sessions.erase i }

/-- One step of the main context or of a pool thread. -/
def step (s : Registry ι) : RegistryAction ι → Option (Registry ι)
  | .acceptError => if s.accepting = none then some s else none
  | .start i =>
    if s.accepting = none ∧ (s.conns i).handler .read = .idle then
      some { s.setHandler i .read .pending with accepting := some i }
    else none
  | .insert =>
    s.accepting.map fun i =>
      { s.setConn i { s.conns i with accepted := true } with
        sessions := insert i s.sessions
        accepting := none }
  | .write i =>
    if (s.conns i).handler .read ≠ .idle ∧ (s.conns i).handler .write = .idle then
      some (s.setHandler i .write .pending)
    else none
  | .written i =>
    if (s.conns i).handler .write = .pending then some (s.setHandler i .write .idle) else none
  | .close i op =>
    if (s.conns i).handler op = .pending then some ((s.setHandler i op .closed).close i) else none
  | .clear i op =>
    if (s.conns i).handler op = .closed then some ((s.clearSession i).setHandler i op .cleared)
    else none

end Registry

end ResourceServer
