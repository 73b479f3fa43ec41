import ResourceServer.Native.Registry

/-!
# The main thread and the owner of the server

`run` makes the server and lets its accept handler own it: the captured `self` is
the only `shared_ptr` to `CServer` besides that of the handler just running. A
signal stops the main context, whose destruction drops the pending handler, while
the sessions go on upon the contexts of the pool with the bare `mp_server`.
-/

namespace ResourceServer

/-- Where the main thread stands in `run`. -/
inductive MainPc
  /-- In `ioc.run ()`. -/
  | running
  /-- `ioc.run ()` has returned. -/
  | stopped
  /-- `ioc` is destroyed, and `main` waits in `getchar ()`. -/
  | destroyed
  deriving DecidableEq, Repr

/-- What holds a `shared_ptr` to the server. -/
inductive ServerOwner
  /-- The accept handler in `ioc`. -/
  | pendingAccept
  /-- The accept handler being executed. -/
  | runningAccept
  deriving DecidableEq, Repr

variable {ι : Type*}

/-- The server, its sessions and the main thread. -/
structure Process (ι : Type*) where
  registry : Registry ι
  main : MainPc
  owners : List ServerOwner
  /-- For each call of `clear_session`, whether the server was there. -/
  calls : List Bool

inductive ProcessAction (ι : Type*)
  /-- A step of the accept handler or of a session's handler. -/
  | serve (a : RegistryAction ι)
  /-- The signal handler calls `ioc.stop ()`. -/
  | stop
  /-- `run` leaves the scope of `ioc`. -/
  | destroy

instance (a : RegistryAction ι) : Decidable a.OnMain :=
  match a with
  | .acceptError | .start _ | .insert => isTrue trivial
  | .write _ | .written _ | .close _ _ | .clear _ _ => isFalse id

/-- A pending accept handler is executed. -/
def beginAccept (owners : List ServerOwner) : List ServerOwner :=
  .runningAccept :: owners.erase .pendingAccept

/-- `CServer::start`: the next accept handler captures the server. -/
def startAccept (owners : List ServerOwner) : List ServerOwner := .pendingAccept :: owners

/-- The accept handler returns. -/
def endAccept (owners : List ServerOwner) : List ServerOwner := owners.erase .runningAccept

/-- The owners behind a step: the accept handler starts the next before it returns. -/
def RegistryAction.owners : RegistryAction ι → List ServerOwner → List ServerOwner
  | .acceptError, owners => endAccept (startAccept (beginAccept owners))
  | .start _, owners => beginAccept owners
  | .insert, owners => endAccept (startAccept owners)
  | .write _, owners | .written _, owners | .close _ _, owners | .clear _ _, owners => owners

namespace Process

/-- The server is not destroyed. -/
def Alive (s : Process ι) : Prop := s.owners ≠ []

instance (s : Process ι) : Decidable s.Alive := inferInstanceAs (Decidable (_ ≠ _))

/-- The process once `run` has made the server and started the first accept. -/
def init : Process ι := ⟨Registry.init, .running, [.pendingAccept], []⟩

/-- The calls of `clear_session` behind a step. -/
def callsAfter (s : Process ι) : RegistryAction ι → List Bool
  | .clear _ _ => s.calls ++ [decide s.Alive]
  | _ => s.calls

/-- Destroying `ioc` drops its handler, and with the last owner goes the server. -/
def destroy (s : Process ι) : Process ι :=
  let owners := s.owners.erase .pendingAccept
  { s with
    main := .destroyed
    owners := owners
    registry := if owners.isEmpty then { s.registry with sessions := ∅ } else s.registry }

variable [DecidableEq ι]

/-- One step of the main thread or of a pool thread. -/
def step (s : Process ι) : ProcessAction ι → Option (Process ι)
  | .serve a =>
    if a.OnMain ∧ s.main ≠ .running then none
    else
      (s.registry.step a).map fun registry =>
        { s with registry, owners := a.owners s.owners, calls := s.callsAfter a }
  | .stop =>
    if s.main = .running ∧ s.registry.accepting = none then some { s with main := .stopped }
    else none
  | .destroy => if s.main = .stopped then some s.destroy else none

end Process

end ResourceServer
