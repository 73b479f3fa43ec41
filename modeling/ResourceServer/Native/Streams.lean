import ResourceServer.Native.Upload

/-!
# Sessions and their file streams

Upload requests on their way through the logic queue, with the end of a session.
`CSession::close` sees to the socket only; `m_file_out` is closed by the destructor,
which runs at some time once no node of the queue holds the session any more. Who else
holds it, the registry and the pending handlers, is left open.
-/

namespace ResourceServer

open FileStream

/-- The sessions, the upload requests in `m_logic_que` and the files. -/
structure UploadSessions (ι κ : Type) where
  uploads : UploadSystem ι κ
  /-- `m_session` and the body of the nodes, front first. -/
  logicQue : List (ι × Bytes)
  /-- `m_is_stop` of each session. -/
  isStop : ι → Bool
  /-- `~CSession` has run. -/
  destroyed : ι → Bool

inductive UploadSessionsAction (ι : Type)
  /-- A read handler of the session posts a request. -/
  | post (i : ι) (data : Bytes)
  /-- The worker handles the request at the front and drops its node. -/
  | dealMessage (os : FsOutcome)
  /-- The first `k` buffered bytes of the session's stream reach its file. -/
  | flush (i : ι) (k : Nat)
  /-- `CSession::close`, in a handler that got an error. -/
  | close (i : ι)
  /-- `~CSession`. -/
  | destroy (i : ι)

namespace UploadSessions

variable {ι κ : Type}

/-- Sessions that have sent nothing, over the given files. -/
def init (disk : Disk κ Byte) : UploadSessions ι κ :=
  ⟨UploadSystem.init disk, [], fun _ => false, fun _ => false⟩

variable [DecidableEq ι] [DecidableEq κ]

/-- One step of a session's handlers, of the worker or of the system below. -/
def step (env : UploadEnv κ) (s : UploadSessions ι κ) :
    UploadSessionsAction ι → Option (UploadSessions ι κ)
  | .post i data =>
    if s.destroyed i then none else some { s with logicQue := s.logicQue ++ [(i, data)] }
  | .dealMessage os =>
    match s.logicQue with
    | [] => none
    | (i, data) :: rest =>
      some { s with
        uploads := s.uploads.put i ((s.uploads.session i).act env (.request os data))
        logicQue := rest }
  | .flush i k =>
    some { s with uploads := s.uploads.put i ((s.uploads.session i).act env (.flush k)) }
  | .close i =>
    if s.destroyed i then none else some { s with isStop := Function.update s.isStop i true }
  | .destroy i =>
    if s.destroyed i = false ∧ ∀ node ∈ s.logicQue, node.1 ≠ i then
      some { s with
        uploads := s.uploads.put i { s.uploads.session i with files := (s.uploads.view i).close 0 }
        destroyed := Function.update s.destroyed i true }
    else none

end UploadSessions

end ResourceServer
