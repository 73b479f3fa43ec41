import ResourceServer.Native.Global
import ResourceServer.Native.Registry

/-!
# The pool and the handlers of the sessions

The threads the two loops of `AsioIoServicePool`'s constructor start, the services
`get_service` hands out, and the completion handlers on them. Any thread inside
`run ()` of a context takes any handler that is ready there. A handler that
completes without an error begins the next operation of its chain in its body and
returns behind that: a read chain of `read_head` and `read_message_full`, a write
chain of `write_handler`. Nothing is bound to `m_strand`.
-/

namespace ResourceServer

/-- A completion handler, with whether its `error_code` is clear. -/
structure Completion (ι : Type*) where
  session : ι
  op : SessionOp
  ok : Bool
  deriving DecidableEq, Repr

/-- A session on its context. -/
structure PoolSession where
  /-- The index of its `io_context`. -/
  service : Nat
  /-- `session->start ()` was called. -/
  started : Bool
  reading : Bool
  writing : Bool
  /-- The size of `m_send_queue`. -/
  sendQueue : Nat
  deriving DecidableEq, Repr

/-- `CSession::CSession` on the context `service`. -/
def PoolSession.new (service : Nat) : PoolSession := ⟨service, false, false, false, 0⟩

/-- An operation of the session is outstanding. -/
def PoolSession.inFlight (x : PoolSession) : SessionOp → Bool
  | .read => x.reading
  | .write => x.writing

/-- An operation of the session completes. -/
def PoolSession.completed (x : PoolSession) : SessionOp → PoolSession
  | .read => { x with reading := false }
  | .write => { x with writing := false }

/-- `CSession::start`: the first `async_read`. -/
def PoolSession.start (x : PoolSession) : PoolSession := { x with started := true, reading := true }

/-- `CSession::send`: only a message put in an empty queue is written at once. -/
def PoolSession.send (x : PoolSession) : PoolSession :=
  if x.sendQueue > maxSendQue then x
  else { x with sendQueue := x.sendQueue + 1, writing := x.writing || x.sendQueue == 0 }

/-- The body of a completion handler. -/
def PoolSession.handle (x : PoolSession) : SessionOp → Bool → PoolSession
  | _, false => x
  | .read, true => { x with reading := true }
  | .write, true =>
    { x with sendQueue := x.sendQueue - 1, writing := x.writing || x.sendQueue - 1 != 0 }

variable {ι : Type*}

/-- The pool, the sessions on it and their handlers. -/
structure Pool (ι : Type*) where
  /-- `m_next_service`. -/
  nextService : Nat
  sessions : ι → Option PoolSession
  /-- The handlers that are ready. -/
  ready : List (Completion ι)
  /-- The handler a thread executes, and whether its body has run. -/
  running : Nat → Option (Completion ι × Bool)

inductive PoolAction (ι : Type*)
  /-- `CServer::start` constructs a session on the next service. -/
  | construct (i : ι)
  /-- The accept handler starts the session. -/
  | start (i : ι)
  /-- The logic worker sends on the session. -/
  | send (i : ι)
  /-- An operation of the session completes. -/
  | complete (i : ι) (op : SessionOp) (ok : Bool)
  /-- Thread `t` takes the handler at `k` among those that are ready. -/
  | take (t k : Nat)
  /-- The body of the handler thread `t` executes. -/
  | body (t : Nat)
  /-- That handler returns. -/
  | finish (t : Nat)
  deriving DecidableEq

/-- The steps of the pool's threads. -/
def PoolAction.OnThread : PoolAction ι → Prop
  | .take _ _ | .body _ | .finish _ => True
  | .construct _ | .start _ | .send _ | .complete _ _ _ => False

namespace Pool

/-- The context each of the threads runs: either loop of the constructor starts one
thread for every service. -/
def threads (size : Nat) : List Nat := List.range size ++ List.range size

/-- The pool behind its constructor. -/
def init : Pool ι := ⟨0, fun _ => none, [], fun _ => none⟩

/-- `get_service` moves on to the next service. -/
def getService (size : Nat) (nextService : Nat) : Nat :=
  if nextService + 1 = size then 0 else nextService + 1

variable [DecidableEq ι]

/-- Session `i` changes. -/
def setSession (s : Pool ι) (i : ι) (x : PoolSession) : Pool ι :=
  { s with sessions := Function.update s.sessions i (some x) }

/-- Thread `t` goes on to another handler, or to none. -/
def setRunning (s : Pool ι) (t : Nat) (r : Option (Completion ι × Bool)) : Pool ι :=
  { s with running := Function.update s.running t r }

/-- The context of session `i`. -/
def serviceOf (s : Pool ι) (i : ι) : Option Nat := (s.sessions i).map PoolSession.service

/-- One step of the main thread, the logic worker, the network or a pool thread. -/
def step (size : Nat) (s : Pool ι) : PoolAction ι → Option (Pool ι)
  | .construct i =>
    if s.nextService < size ∧ s.sessions i = none then
      some { s.setSession i (.new s.nextService) with
        nextService := getService size s.nextService }
    else none
  | .start i =>
    (s.sessions i).bind fun x => if x.started then none else some (s.setSession i x.start)
  | .send i => (s.sessions i).map fun x => s.setSession i x.send
  | .complete i op ok =>
    (s.sessions i).bind fun x =>
      if x.inFlight op then
        some { s.setSession i (x.completed op) with ready := s.ready ++ [⟨i, op, ok⟩] }
      else none
  | .take t k =>
    s.ready[k]?.bind fun c =>
      if (threads size)[t]?.isSome ∧ (threads size)[t]? = s.serviceOf c.session ∧
          s.running t = none then
        some { s.setRunning t (some (c, false)) with ready := s.ready.eraseIdx k }
      else none
  | .body t =>
    match s.running t with
    | some (c, false) =>
      (s.sessions c.session).map fun x =>
        (s.setSession c.session (x.handle c.op c.ok)).setRunning t (some (c, true))
    | _ => none
  | .finish t =>
    match s.running t with
    | some (_, true) => some (s.setRunning t none)
    | _ => none

/-- A session is constructed on the next service. -/
theorem construct_cases {size : Nat} {s t : Pool ι} {i : ι}
    (h : step size s (.construct i) = some t) :
    s.nextService < size ∧ s.sessions i = none ∧ t = { s.setSession i (.new s.nextService) with
      nextService := getService size s.nextService } := by
  obtain ⟨⟨hnext, hnone⟩, ⟨⟩⟩ := Option.ite_none_right_eq_some.mp h
  exact ⟨hnext, hnone, rfl⟩

/-- A session that was constructed is started. -/
theorem start_cases {size : Nat} {s t : Pool ι} {i : ι} (h : step size s (.start i) = some t) :
    ∃ x, s.sessions i = some x ∧ t = s.setSession i x.start := by
  obtain ⟨x, hx, h⟩ := Option.bind_eq_some_iff.mp h
  obtain ⟨_, ⟨⟩⟩ := Option.ite_none_left_eq_some.mp h
  exact ⟨x, hx, rfl⟩

/-- A session that was constructed is sent on. -/
theorem send_cases {size : Nat} {s t : Pool ι} {i : ι} (h : step size s (.send i) = some t) :
    ∃ x, s.sessions i = some x ∧ t = s.setSession i x.send := by
  obtain ⟨x, hx, rfl⟩ := Option.map_eq_some_iff.mp h
  exact ⟨x, hx, rfl⟩

/-- An operation that completes makes its handler ready. -/
theorem complete_cases {size : Nat} {s t : Pool ι} {i : ι} {op : SessionOp} {ok : Bool}
    (h : step size s (.complete i op ok) = some t) : ∃ x, s.sessions i = some x ∧
      t = { s.setSession i (x.completed op) with ready := s.ready ++ [⟨i, op, ok⟩] } := by
  obtain ⟨x, hx, h⟩ := Option.bind_eq_some_iff.mp h
  obtain ⟨_, ⟨⟩⟩ := Option.ite_none_right_eq_some.mp h
  exact ⟨x, hx, rfl⟩

/-- A thread takes a handler of the context it runs. -/
theorem take_cases {size : Nat} {s t : Pool ι} {u k : Nat}
    (h : step size s (.take u k) = some t) : ∃ c m, s.ready[k]? = some c ∧
      (threads size)[u]? = some m ∧ s.serviceOf c.session = some m ∧
      t = { s.setRunning u (some (c, false)) with ready := s.ready.eraseIdx k } := by
  obtain ⟨c, hc, h⟩ := Option.bind_eq_some_iff.mp h
  obtain ⟨⟨hsome, hu, _⟩, ⟨⟩⟩ := Option.ite_none_right_eq_some.mp h
  obtain ⟨m, hm⟩ := Option.isSome_iff_exists.mp hsome
  exact ⟨c, m, hc, hm, hu.symm.trans hm, rfl⟩

/-- A thread runs the body of the handler it has taken. -/
theorem body_cases {size : Nat} {s t : Pool ι} {u : Nat} (h : step size s (.body u) = some t) :
    ∃ c x, s.running u = some (c, false) ∧ s.sessions c.session = some x ∧
      t = (s.setSession c.session (x.handle c.op c.ok)).setRunning u (some (c, true)) := by
  simp only [step] at h
  split at h
  · rename_i c hc
    obtain ⟨x, hx, rfl⟩ := Option.map_eq_some_iff.mp h
    exact ⟨c, x, hc, hx, rfl⟩
  · contradiction

/-- A thread leaves the handler whose body it has run. -/
theorem finish_cases {size : Nat} {s t : Pool ι} {u : Nat}
    (h : step size s (.finish u) = some t) : t = s.setRunning u none := by
  simp only [step] at h
  split at h
  · cases h
    rfl
  · contradiction

end Pool

end ResourceServer
