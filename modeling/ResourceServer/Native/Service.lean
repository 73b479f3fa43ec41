import ResourceServer.Native.Debug

/-!
# The whole server

Every part that runs between `session->start ()` and the end of the process, without
`_DEBUG`: the receive loops and the send halves of all sessions, the logic system with
both its handlers, the file streams, and the errors of the network. Peers send any
bytes. A handler that gets an error closes its session: no byte moves on the socket of
a closed session, and what is in flight on it can only complete, if it had all its
bytes, or fail.
-/

namespace ResourceServer

open FileStream

variable {ι κ : Type}

/-- The arguments of the `send` calls of a handler, with `dump` for `nlohmann::json::dump`:
an upload's are those its request has added to the session's. -/
def Invocation.responses (dump : Json → Bytes) (before after : UploadSystem ι κ)
    (call : Invocation ι) : List Message :=
  match call.handler with
  | .testSend => [⟨.idTestMsgRsp, call.data⟩]
  | .doUploadFileReq =>
    ((after.sent call.session).drop (before.sent call.session).length).map fun answer =>
      ⟨answer.1, dump answer.2⟩

/-- The sessions, the logic system and the files. -/
structure Service (ι κ : Type) where
  loops : ι → ReadLoop
  dispatch : Dispatch ι
  uploads : UploadSystem ι κ
  senders : ι → Sender
  /-- `m_is_stop` of each session, whose socket is closed with it. -/
  isStop : ι → Bool
  /-- The arguments of each session's `send`. -/
  sent : ι → List Message

inductive ServiceAction (ι : Type)
  /-- TCP delivers bytes of a peer. -/
  | arrive (i : ι) (piece : Bytes)
  | readSome (i : ι) (k : Nat)
  /-- The handler of a full read runs; `fresh` is the content of the memory it allocates. -/
  | readComplete (i : ι) (fresh : Nat → Byte)
  /-- The pending read ends in an error, and its handler closes the session. -/
  | readFail (i : ι)
  /-- The worker takes its next step. A handler it calls finds the file system as `os` says
  and allocates memory of content `fresh`. -/
  | work (os : FsOutcome) (fresh : Nat → Byte)
  /-- The worker wakes without a notification. -/
  | wake
  /-- The first `k` buffered bytes of a session's stream reach its file. -/
  | flush (i : ι) (k : Nat)
  | writeSome (i : ι) (j k : Nat)
  | writeComplete (i : ι) (j : Nat)
  /-- A write ends in an error, and its handler closes the session. -/
  | writeFail (i : ι) (j : Nat)

/-- The steps the process takes by itself, while nothing fails. -/
def ServiceAction.Internal : ServiceAction ι → Prop
  | .readSome _ _ | .readComplete _ _ | .work _ _ | .writeSome _ _ _ | .writeComplete _ _ => True
  | .arrive _ _ | .readFail _ | .wake | .flush _ _ | .writeFail _ _ => False

/-- The ends of reads and writes in an error. -/
def ServiceAction.Fails : ServiceAction ι → Prop
  | .readFail _ | .writeFail _ _ => True
  | .arrive _ _ | .readSome _ _ | .readComplete _ _ | .work _ _ | .wake | .flush _ _
  | .writeSome _ _ _ | .writeComplete _ _ => False

namespace Service

/-- Every session started and nothing received, over the given files. -/
def init (mem : ι → Nat → Byte) (disk : Disk κ Byte) : Service ι κ where
  loops i := ReadLoop.fresh (mem i)
  dispatch := Dispatch.init
  uploads := UploadSystem.init disk
  senders _ := Sender.init
  isStop _ := false
  sent _ := []

/-- The logic system goes on. -/
def setDispatch (d : Dispatch ι) (s : Service ι κ) : Service ι κ := { s with dispatch := d }

/-- The files and the streams go on. -/
def setUploads (w : UploadSystem ι κ) (s : Service ι κ) : Service ι κ := { s with uploads := w }

variable [DecidableEq ι]

/-- `CSession::close`. -/
def close (i : ι) (s : Service ι κ) : Service ι κ :=
  { s with isStop := Function.update s.isStop i true }

/-- The receive loop of session `i` goes on. -/
def setLoop (i : ι) (l : ReadLoop) (s : Service ι κ) : Service ι κ :=
  { s with loops := Function.update s.loops i l }

/-- The send half of session `i` goes on. -/
def setSender (i : ι) (t : Sender) (s : Service ι κ) : Service ι κ :=
  { s with senders := Function.update s.senders i t }

/-- `send` for each of the messages, on one session. -/
def sendAll (i : ι) (fresh : Nat → Byte) (ms : List Message) (s : Service ι κ) : Service ι κ :=
  { s.setSender i (ms.foldl (fun t m => t.send maxSendQue fresh m) (s.senders i)) with
    sent := Function.update s.sent i (s.sent i ++ ms) }

/-- The read handler of session `i`, with the post it makes. -/
def readComplete (i : ι) (fresh : Nat → Byte) (s : Service ι κ) : Option (Service ι κ) :=
  ((s.loops i).receiver.complete fresh).bind fun (r, node) =>
    (Server.postNode i node s.dispatch).map fun d =>
      let l := { s.loops i with receiver := r, posted := (s.loops i).posted ++ node.toList }
      (s.setDispatch d).setLoop i l

variable [DecidableEq κ]

/-- The next step of the worker, with the handler it may call. -/
def work (env : UploadEnv κ) (dump : Json → Bytes) (os : FsOutcome) (fresh : Nat → Byte)
    (s : Service ι κ) : Option (Service ι κ) :=
  s.dispatch.dealMessage.map fun d =>
    match s.dispatch.nextCall with
    | none => s.setDispatch d
    | some call =>
      let uploads := call.upload env os s.uploads
      ((s.setDispatch d).setUploads uploads).sendAll call.session fresh
        (call.responses dump s.uploads uploads)

/-- One step of the network or of one of the threads. -/
def step (env : UploadEnv κ) (dump : Json → Bytes) (s : Service ι κ) :
    ServiceAction ι → Option (Service ι κ)
  | .arrive i piece =>
    if s.isStop i then none
    else ((s.loops i).step (.arrive piece)).map fun l => s.setLoop i l
  | .readSome i k =>
    if s.isStop i then none
    else ((s.loops i).step (.readSome k)).map fun l => s.setLoop i l
  | .readComplete i fresh => s.readComplete i fresh
  | .readFail i => ((s.loops i).step .fail).map fun l => (s.setLoop i l).close i
  | .work os fresh => s.work env dump os fresh
  | .wake => (s.dispatch.step .wake).map fun d => s.setDispatch d
  | .flush i k =>
    some (s.setUploads (s.uploads.put i ((s.uploads.session i).act env (.flush k))))
  | .writeSome i j k =>
    if s.isStop i then none
    else ((s.senders i).writeSome j k).map fun t => s.setSender i t
  | .writeComplete i j => ((s.senders i).complete j).map fun t => s.setSender i t
  | .writeFail i j => ((s.senders i).fail j).map fun t => (s.setSender i t).close i

/-- No step is left that the process takes by itself. -/
def Quiescent (env : UploadEnv κ) (dump : Json → Bytes) (s : Service ι κ) : Prop :=
  ∀ a : ServiceAction ι, a.Internal → s.step env dump a = none

end Service

end ResourceServer
