import Mathlib.Logic.Function.Basic
import ResourceServer.Framing.Frame
import ResourceServer.Native.Dispatch
import ResourceServer.Native.Receive
import ResourceServer.Native.Send

/-!
# The running server

Any number of sessions, each with its receive loop and its send half, around the
one logic system they share. A read handler that has a whole message posts it and
so needs `m_mutex`; a handler called by the worker sends on the session of its
node. The files of `do_upload_file_req` are modelled elsewhere: here an upload is
whatever messages it sends.
-/

namespace ResourceServer

variable {ι : Type*}

/-- What a handler sends: `test_send` answers with what it was given. -/
def Invocation.replies (upload : List Message) (call : Invocation ι) : List Message :=
  match call.handler with
  | .testSend => [⟨.idTestMsgRsp, call.data⟩]
  | .doUploadFileReq => upload

/-- The sessions and the logic system. -/
structure Server (ι : Type*) where
  /-- The bytes each peer has sent and that have not arrived. -/
  net : ι → Bytes
  loops : ι → ReadLoop
  dispatch : Dispatch ι
  senders : ι → Sender

inductive ServerAction (ι : Type*)
  /-- A peer sends a frame. -/
  | peerSend (i : ι) (f : Frame)
  /-- TCP delivers a piece of a peer's stream. -/
  | arrive (i : ι) (piece : Bytes)
  | readSome (i : ι) (k : Nat)
  /-- The handler of a full read runs; `fresh` is the content of the memory it allocates. -/
  | readComplete (i : ι) (fresh : Nat → Byte)
  /-- The worker takes its next step. A handler it calls allocates memory of content
  `fresh`; an upload sends `upload`. -/
  | work (fresh : Nat → Byte) (upload : List Message)
  /-- The worker wakes without a notification. -/
  | wake
  | writeSome (i : ι) (j k : Nat)
  | writeComplete (i : ι) (j : Nat)

namespace Server

/-- The server with every session started and nothing received. -/
def init (mem : ι → Nat → Byte) : Server ι where
  net _ := []
  loops i := ReadLoop.fresh (mem i)
  dispatch := Dispatch.init
  senders _ := Sender.init

variable [DecidableEq ι]

/-- The post a completed read makes, if it has a whole message. -/
def postNode (i : ι) (node : Option RecvNode) (d : Dispatch ι) : Option (Dispatch ι) :=
  match node with
  | none => some d
  | some node => d.post ⟨i, node⟩

/-- The read handler of session `i`, with the post it makes. -/
def readComplete (i : ι) (fresh : Nat → Byte) (s : Server ι) : Option (Server ι) :=
  ((s.loops i).receiver.complete fresh).bind fun (r, node) =>
    (postNode i node s.dispatch).map fun d =>
      let l := { s.loops i with receiver := r, posted := (s.loops i).posted ++ node.toList }
      { s with loops := Function.update s.loops i l, dispatch := d }

/-- `send` for each of the messages, on one session. -/
def sendAll (i : ι) (fresh : Nat → Byte) (ms : List Message) (s : Server ι) : Server ι :=
  let t := ms.foldl (fun t m => t.send maxSendQue fresh m) (s.senders i)
  { s with senders := Function.update s.senders i t }

/-- The next step of the worker, with the handler it may call. -/
def work (fresh : Nat → Byte) (upload : List Message) (s : Server ι) : Option (Server ι) :=
  s.dispatch.dealMessage.map fun d =>
    match s.dispatch.nextCall with
    | none => { s with dispatch := d }
    | some call => { s with dispatch := d }.sendAll call.session fresh (call.replies upload)

/-- One step of a peer, the network or one of the threads. -/
def step (s : Server ι) : ServerAction ι → Option (Server ι)
  | .peerSend i f => some { s with net := Function.update s.net i (s.net i ++ f.encode) }
  | .arrive i piece =>
    if piece ≠ [] ∧ piece <+: s.net i then
      ((s.loops i).step (.arrive piece)).map fun l =>
        { s with
          net := Function.update s.net i ((s.net i).drop piece.length)
          loops := Function.update s.loops i l }
    else none
  | .readSome i k =>
    ((s.loops i).step (.readSome k)).map fun l =>
      { s with loops := Function.update s.loops i l }
  | .readComplete i fresh => s.readComplete i fresh
  | .work fresh upload => s.work fresh upload
  | .wake =>
    (s.dispatch.step .wake).map fun d => { s with dispatch := d }
  | .writeSome i j k =>
    ((s.senders i).writeSome j k).map fun t =>
      { s with senders := Function.update s.senders i t }
  | .writeComplete i j =>
    ((s.senders i).complete j).map fun t =>
      { s with senders := Function.update s.senders i t }

end Server

/-- The server's own steps: all but those of a peer and a wake-up out of nothing. -/
def ServerAction.Internal : ServerAction ι → Prop
  | .peerSend _ _ | .wake => False
  | _ => True

/-- No step is left to take. -/
def Server.Quiescent [DecidableEq ι] (s : Server ι) : Prop :=
  ∀ a : ServerAction ι, a.Internal → s.step a = none

end ResourceServer
