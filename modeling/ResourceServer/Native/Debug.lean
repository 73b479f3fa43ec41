import ResourceServer.Native.Server
import ResourceServer.Native.Upload

/-!
# The server built with `_DEBUG`

`Assert` ends the process when its argument is false, and up to that moment this
build does what the other one does. Receive loops and the worker of the logic system
run side by side; the upload handler works on the files and the streams, whose bytes
may be flushed at any time.
-/

namespace ResourceServer

open FileStream

/-- The arguments of `Assert` in the handler of a full body read, in its order: the
number of transferred bytes, and behind a chunk that is not the last the residual,
which is an `int64_t`. -/
def Receiver.asserts (r : Receiver) : List Bool :=
  match r.pending, r.recvNode with
  | some (.readMessageFull n), some node =>
    decide (0 < r.data.length) :: if (fillNode node r.data).isFulled then []
      else [decide (0 < (n - BitVec.ofNat 64 r.data.length).toInt)]
  | _, _ => []

/-- What a call of a handler does to the files. -/
def Invocation.upload {ι κ : Type} [DecidableEq ι] [DecidableEq κ] (env : UploadEnv κ)
    (os : FsOutcome) (call : Invocation ι) (w : UploadSystem ι κ) : UploadSystem ι κ :=
  match call.handler with
  | .testSend => w
  | .doUploadFileReq =>
    w.put call.session (doUploadFileReq env os call.data (w.session call.session))

/-- The sessions' receive loops, the logic system and the files. -/
structure DebugServer (ι κ : Type) where
  loops : ι → ReadLoop
  dispatch : Dispatch ι
  /-- The uploads, with the arguments of every `Assert` of the process. -/
  uploads : UploadSystem ι κ

inductive DebugAction (ι : Type)
  /-- The network or the io thread of a session takes a step. -/
  | receive (i : ι) (a : ReadAction)
  /-- The worker takes its next step; an upload finds the file system as `os` says. -/
  | work (os : FsOutcome)
  /-- The worker wakes without a notification. -/
  | wake
  /-- The first `k` buffered bytes of a session's stream reach its file. -/
  | flush (i : ι) (k : Nat)

namespace DebugServer

variable {ι κ : Type}

/-- Every session started, nothing received, over the given files. -/
def init (mem : ι → Nat → Byte) (disk : Disk κ Byte) : DebugServer ι κ :=
  ⟨fun i => ReadLoop.fresh (mem i), Dispatch.init, UploadSystem.init disk⟩

/-- An `Assert` was called with false, and the process has ended. -/
def Failed (s : DebugServer ι κ) : Prop := false ∈ s.uploads.asserts

instance (s : DebugServer ι κ) : Decidable s.Failed :=
  inferInstanceAs (Decidable (false ∈ s.uploads.asserts))

/-- `Assert` is called with each of the arguments. -/
def assert (es : List Bool) (s : DebugServer ι κ) : DebugServer ι κ :=
  { s with uploads := { s.uploads with asserts := s.uploads.asserts ++ es } }

variable [DecidableEq ι] [DecidableEq κ]

omit [DecidableEq κ] in
/-- The handler of the full read of session `i`: it posts a whole message unless an
`Assert` before that has failed. -/
def readComplete (i : ι) (fresh : Nat → Byte) (s : DebugServer ι κ) : Option (DebugServer ι κ) :=
  let l := s.loops i
  (l.receiver.complete fresh).bind fun (r, node) =>
    let t := s.assert l.receiver.asserts
    if t.Failed then some t
    else (Server.postNode i node s.dispatch).map fun d =>
      let next := { l with receiver := r, posted := l.posted ++ node.toList }
      { t with loops := Function.update s.loops i next, dispatch := d }

/-- The next step of the worker, with the handler it may call. -/
def work (env : UploadEnv κ) (os : FsOutcome) (s : DebugServer ι κ) :
    Option (DebugServer ι κ) :=
  s.dispatch.dealMessage.map fun d =>
    match s.dispatch.nextCall with
    | none => { s with dispatch := d }
    | some call => { s with dispatch := d, uploads := call.upload env os s.uploads }

/-- One step of the network or of one of the threads. -/
def act (env : UploadEnv κ) (s : DebugServer ι κ) : DebugAction ι → Option (DebugServer ι κ)
  | .receive i (.complete fresh) => s.readComplete i fresh
  | .receive i a =>
    ((s.loops i).step a).map fun l => { s with loops := Function.update s.loops i l }
  | .work os => s.work env os
  | .wake => (s.dispatch.step .wake).map fun d => { s with dispatch := d }
  | .flush i k =>
    some { s with uploads := s.uploads.put i ((s.uploads.session i).act env (.flush k)) }

/-- A step of the process, which takes none behind a failed `Assert`. -/
def step (env : UploadEnv κ) (s : DebugServer ι κ) (a : DebugAction ι) :
    Option (DebugServer ι κ) := if s.Failed then none else s.act env a

end DebugServer

end ResourceServer
