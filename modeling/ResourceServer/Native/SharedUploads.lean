import ResourceServer.Native.Debug
import ResourceServer.Native.SharedSessions
import ResourceServer.Native.Streams

/-!
# Streams that go with their sessions

The file streams beside the references to the sessions: the callback works on the stream
of its session, and `~CSession` closes it in the very step that lets the last reference
go.
-/

namespace ResourceServer

open FileStream

variable {ι κ : Type}

/-- The request a node hands to `do_upload_file_req`. -/
def LogicNode.uploadRequest (node : LogicNode ι) : Option (ι × Bytes) :=
  node.invocation.bind fun call =>
    match call.handler with
    | .testSend => none
    | .doUploadFileReq => some (call.session, call.data)

/-- The session a step drops a reference to, or may. -/
def SharedAction.dropped (s : SharedSessions ι) : SharedAction ι → Option ι
  | .acceptReturn => s.runningAccept
  | .clear i _ | .handlerReturn i => some i
  | .callReturn | .pop => s.logicQue.head?.map LogicNode.session
  | .construct _ | .acceptError | .accept | .insert | .enter _ _ | .post _ _ | .again _ _
  | .written _ | .close _ _ | .call | .write => none

/-- The sessions with their references, and the files. -/
structure SharedUploads (ι κ : Type) where
  sessions : SharedSessions ι
  uploads : UploadSystem ι κ

inductive SharedUploadsAction (ι : Type)
  /-- A step of the sessions; a handler it calls finds the file system as `os` says. -/
  | step (a : SharedAction ι) (os : FsOutcome)
  /-- The first `k` buffered bytes of a session's stream reach its file. -/
  | flush (i : ι) (k : Nat)

namespace SharedUploads

/-- The server before its first accept, over the given files. -/
def init (disk : Disk κ Byte) : SharedUploads ι κ := ⟨SharedSessions.init, UploadSystem.init disk⟩

variable [DecidableEq ι] [DecidableEq κ]

/-- The files behind the callback of the front, if the step calls it. -/
def handled (env : UploadEnv κ) (os : FsOutcome) (s : SharedUploads ι κ) :
    SharedAction ι → UploadSystem ι κ
  | .call =>
    match s.sessions.logicQue.head?.bind LogicNode.invocation with
    | some call => call.upload env os s.uploads
    | none => s.uploads
  | _ => s.uploads

/-- The files behind the destructor of the session that is let go, if it runs. -/
def released (s t : SharedSessions ι) (a : SharedAction ι) (w : UploadSystem ι κ) :
    UploadSystem ι κ :=
  match a.dropped s with
  | some i =>
    if t.refs.destructed i = s.refs.destructed i then w
    else w.put i { w.session i with files := (w.view i).close 0 }
  | none => w

/-- One step of a thread or of the system below. -/
def step (env : UploadEnv κ) (s : SharedUploads ι κ) :
    SharedUploadsAction ι → Option (SharedUploads ι κ)
  | .step a os =>
    (s.sessions.step a).map fun t => ⟨t, released s.sessions t a (s.handled env os a)⟩
  | .flush i k =>
    some { s with uploads := s.uploads.put i ((s.uploads.session i).act env (.flush k)) }

end SharedUploads

end ResourceServer
