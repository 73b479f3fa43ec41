import ResourceServer.Native.Pool

/-!
# Stopping the pool

`AsioIoServicePool::stop`, called by the destructor on the main thread: it drops the
work guards, stops the services and joins the threads. `run ()` of a stopped service
returns to a thread once it executes no handler; a service whose guard is dropped is
stopped as well when a thread finds it out of work.
-/

namespace ResourceServer

/-- Where the main thread stands in `stop`. -/
inductive StopPc
  | notCalled
  /-- It has dropped the work guards before `k`. -/
  | resetting (k : Nat)
  /-- It has stopped the services before `k`. -/
  | stopping (k : Nat)
  /-- It has joined the threads before `k`. -/
  | joining (k : Nat)
  /-- `m_stop` is set. -/
  | returned
  deriving DecidableEq, Repr

/-- The guard of service `m` is dropped. -/
def StopPc.Resets (m : Nat) : StopPc → Prop
  | .notCalled => False
  | .resetting k => m < k
  | .stopping _ | .joining _ | .returned => True

instance (m : Nat) : (pc : StopPc) → Decidable (pc.Resets m)
  | .notCalled => isFalse id
  | .resetting k => inferInstanceAs (Decidable (m < k))
  | .stopping _ | .joining _ | .returned => isTrue trivial

variable {ι : Type*}

/-- The pool with the thread that stops it. -/
structure PoolStop (ι : Type*) extends Pool ι where
  /-- The sessions constructed so far. -/
  constructed : List ι
  stopPc : StopPc
  /-- The services that are stopped. -/
  stopped : List Nat
  /-- The threads `run ()` has returned to. -/
  left : List Nat

inductive PoolStopAction (ι : Type*)
  /-- A step that does not belong to `stop`. -/
  | pool (a : PoolAction ι)
  /-- The main thread calls `stop`. -/
  | call
  /-- It takes the next step of `stop`. -/
  | next
  /-- `run ()` returns to thread `t`. -/
  | leave (t : Nat)

namespace PoolStop

/-- The pool behind its constructor. -/
def init : PoolStop ι := ⟨Pool.init, [], .notCalled, [], []⟩

variable [DecidableEq ι]

/-- No operation of a session on service `m` is outstanding, and no handler is ready or
executed there. -/
def OutOfWork (size m : Nat) (s : PoolStop ι) : Prop :=
  (∀ i ∈ s.constructed, s.serviceOf i = some m →
      ∀ x ∈ s.sessions i, x.reading = false ∧ x.writing = false) ∧
    (∀ c ∈ s.ready, s.serviceOf c.session ≠ some m) ∧
    ∀ t < (Pool.threads size).length, (Pool.threads size)[t]? = some m → s.running t = none

instance (size m : Nat) (s : PoolStop ι) : Decidable (s.OutOfWork size m) :=
  inferInstanceAs (Decidable (_ ∧ _ ∧ _))

/-- Thread `t` is in `run ()` of a service that is not stopped. -/
def Serving (size t : Nat) (s : PoolStop ι) : Prop :=
  t ∉ s.left ∧ ∀ m ∈ (Pool.threads size)[t]?, m ∉ s.stopped

instance (size t : Nat) (s : PoolStop ι) : Decidable (s.Serving size t) :=
  inferInstanceAs (Decidable (_ ∧ _))

/-- The main thread accepts no session while it is in `stop`, and only a thread that serves
takes a handler. -/
def Permits (size : Nat) (s : PoolStop ι) : PoolAction ι → Prop
  | .construct _ | .start _ => s.stopPc = .notCalled ∨ s.stopPc = .returned
  | .take t _ => s.Serving size t
  | .send _ | .complete _ _ _ | .body _ | .finish _ => True

instance (size : Nat) (s : PoolStop ι) : (a : PoolAction ι) → Decidable (s.Permits size a)
  | .construct _ | .start _ => inferInstanceAs (Decidable (_ ∨ _))
  | .take t _ => inferInstanceAs (Decidable (s.Serving size t))
  | .send _ | .complete _ _ _ | .body _ | .finish _ => isTrue trivial

/-- The next step of `stop`. -/
def next (size : Nat) (s : PoolStop ι) : Option (PoolStop ι) :=
  match s.stopPc with
  | .notCalled | .returned => none
  | .resetting k => some { s with stopPc := if k < size then .resetting (k + 1) else .stopping 0 }
  | .stopping k =>
    some (if k < size then { s with stopPc := .stopping (k + 1), stopped := k :: s.stopped }
      else { s with stopPc := .joining 0 })
  | .joining k =>
    if k < (Pool.threads size).length then
      if k ∈ s.left then some { s with stopPc := .joining (k + 1) } else none
    else some { s with stopPc := .returned }

/-- `run ()` returns to thread `t`. -/
def leave (size t : Nat) (s : PoolStop ι) : Option (PoolStop ι) :=
  (Pool.threads size)[t]?.bind fun m =>
    if t ∉ s.left ∧ s.running t = none ∧
        (m ∈ s.stopped ∨ s.stopPc.Resets m ∧ s.OutOfWork size m) then
      some { s with stopped := m :: s.stopped, left := t :: s.left }
    else none

/-- One step of the pool, or of the thread that stops it. -/
def step (size : Nat) (s : PoolStop ι) : PoolStopAction ι → Option (PoolStop ι)
  | .pool a =>
    if s.Permits size a then
      (Pool.step size s.toPool a).map fun t => { s with
        toPool := t
        constructed := match a with
          | .construct i => s.constructed ++ [i]
          | _ => s.constructed }
    else none
  | .call =>
    match s.stopPc with
    | .notCalled => some { s with stopPc := .resetting 0 }
    | .returned => some s
    | .resetting _ | .stopping _ | .joining _ => none
  | .next => s.next size
  | .leave t => s.leave size t

end PoolStop

end ResourceServer
