import ResourceServer.Native.Service
import ResourceServer.Serving.Echo
import ResourceServer.Uploads.Failures
import ResourceServer.Uploads.Reassembly

/-!
# The server as one session sees it

A session is its receive loop, its send half and its part of the logic system: the
nodes it has posted and the calls made for it. Every step of the server is, for every
session, one of a few steps on these, so that what a session can rely on is shown
without the others.
-/

namespace ResourceServer

open FileStream Transition

/-- `respond` is what the upload handler may answer to a body that parses to `root`: the null
of a handler left by an exception, or the response to a null or to a request. -/
def Json.RespondedBy (root respond : Json) : Prop :=
  respond = .null ∨ (root.isNull = true ∧ respond = invalidJsonRespond) ∨
    ∃ req, uploadFields root = .ok req ∧ respond = successRespond req

/-- A body that parses is answered with one of these responses. -/
theorem respondedBy_of_parse {κ : Type} [DecidableEq κ] (env : UploadEnv κ) (os : FsOutcome)
    {data : Bytes} (s : UploadState κ) {root : Json} (hparse : env.parse data = some root) :
    ∃ respond, root.RespondedBy respond ∧ (doUploadFileReq env os data s).sent =
      s.sent ++ [(.idUploadFileRsp, respond)] := by
  rcases uploadBody_cases env os root s with ⟨hnull, hrun⟩ | ⟨_, e, t, hrun, _, hsent, _⟩ |
    ⟨req, r, e, _, _, _, _, hrun⟩ | ⟨req, r, buffer, hreq, hroot, hdirs, hdec⟩
  · refine ⟨invalidJsonRespond, Or.inr (Or.inl ⟨hnull, rfl⟩), ?_⟩
    simp only [doUploadFileReq, hparse, hrun, UploadState.send]
  · refine ⟨.null, Or.inl rfl, ?_⟩
    rw [(doUploadFileReq_of_error hparse hrun).2, hsent]
  · refine ⟨.null, Or.inl rfl, ?_⟩
    rw [(doUploadFileReq_of_error hparse hrun).2]
    rfl
  · refine ⟨successRespond req, Or.inr (Or.inr ⟨req, hreq, rfl⟩), ?_⟩
    exact UploadEnv.Handles.sent_eq ⟨⟨root, hparse, hreq⟩, hroot, hdirs, hdec⟩

variable {ι κ : Type}

/-- The messages a handler sends for what it was given: an echo for a test message, one response
for an upload request that parses, and nothing for one that does not. -/
def CallBack.Answers (env : UploadEnv κ) (dump : Json → Bytes) (handler : CallBack) (data : Bytes)
    (ms : List Message) : Prop :=
  match handler with
  | .testSend => ms = [⟨.idTestMsgRsp, data⟩]
  | .doUploadFileReq =>
    match env.parse data with
    | none => ms = []
    | some root => ∃ respond, root.RespondedBy respond ∧ ms = [⟨.idUploadFileRsp, dump respond⟩]

/-- A handler sends one message at most. -/
theorem CallBack.Answers.nil_or_singleton {env : UploadEnv κ} {dump : Json → Bytes}
    {handler : CallBack} {data : Bytes} {ms : List Message}
    (h : handler.Answers env dump data ms) : ms = [] ∨ ∃ m, ms = [m] := by
  unfold Answers at h
  split at h
  · exact Or.inr ⟨_, h⟩
  · split at h
    · exact Or.inl h
    · obtain ⟨_, _, rfl⟩ := h
      exact Or.inr ⟨_, rfl⟩

variable [DecidableEq ι] [DecidableEq κ]

/-- What a call sends answers it. -/
theorem Invocation.answers (env : UploadEnv κ) (dump : Json → Bytes) (os : FsOutcome)
    (call : Invocation ι) (w : UploadSystem ι κ) : call.handler.Answers env dump call.data
      (call.responses dump w (call.upload env os w)) := by
  cases hhandler : call.handler with
  | testSend => simp only [CallBack.Answers, responses, hhandler]
  | doUploadFileReq =>
    simp only [CallBack.Answers, responses, upload, hhandler, UploadSystem.sent_put_self]
    cases hparse : env.parse call.data with
    | none =>
      rw [sent_doUploadFileReq_of_none hparse]
      simp only [UploadSystem.session, List.drop_length, List.map_nil]
    | some root =>
      obtain ⟨respond, hrespond, hsent⟩ :=
        respondedBy_of_parse env os (w.session call.session) hparse
      refine ⟨respond, hrespond, ?_⟩
      rw [hsent]
      simp only [UploadSystem.session, List.drop_left, List.map_cons, List.map_nil]

/-- One session with its part of the logic system. -/
structure SessionView (ι : Type) where
  loop : ReadLoop
  /-- The nodes it has posted. -/
  nodes : List (LogicNode ι)
  /-- The calls made for it. -/
  calls : List (Invocation ι)
  sender : Sender
  isStop : Bool
  sent : List Message

/-- What a step of the server is for session `i`, whose socket receives the bytes; `within`
says that no handler found a send queue over the bound. -/
inductive SessionStep (env : UploadEnv κ) (dump : Json → Bytes) (within : Prop) (i : ι)
    (v : SessionView ι) : Bytes → SessionView ι → Prop
  | other : SessionStep env dump within i v [] v
  | arrive (piece : Bytes) (l : ReadLoop) (hopen : v.isStop = false)
      (hl : v.loop.step (.arrive piece) = some l) :
      SessionStep env dump within i v piece { v with loop := l }
  | readSome (k : Nat) (l : ReadLoop) (hopen : v.isStop = false)
      (hl : v.loop.step (.readSome k) = some l) :
      SessionStep env dump within i v [] { v with loop := l }
  | readComplete (fresh : Nat → Byte) (r : Receiver) (node : Option RecvNode)
      (hr : v.loop.receiver.complete fresh = some (r, node)) :
      SessionStep env dump within i v [] { v with
        loop := { v.loop with receiver := r, posted := v.loop.posted ++ node.toList }
        nodes := v.nodes ++ node.toList.map (LogicNode.mk i) }
  | readFail (l : ReadLoop) (hl : v.loop.step .fail = some l) :
      SessionStep env dump within i v [] { v with loop := l, isStop := true }
  | call (call : Invocation ι) (ms : List Message) (fresh : Nat → Byte)
      (ha : call.handler.Answers env dump call.data ms)
      (hq : within → v.sender.sendQueue.length ≤ maxSendQue) :
      SessionStep env dump within i v [] { v with
        calls := v.calls ++ [call]
        sender := ms.foldl (fun t m => t.send maxSendQue fresh m) v.sender
        sent := v.sent ++ ms }
  | writeSome (j k : Nat) (t : Sender) (hopen : v.isStop = false)
      (ht : v.sender.writeSome j k = some t) :
      SessionStep env dump within i v [] { v with sender := t }
  | writeComplete (j : Nat) (t : Sender) (ht : v.sender.complete j = some t) :
      SessionStep env dump within i v [] { v with sender := t }
  | writeFail (j : Nat) (t : Sender) (ht : v.sender.fail j = some t) :
      SessionStep env dump within i v [] { v with sender := t, isStop := true }

omit [DecidableEq ι] [DecidableEq κ] in
/-- What a session has sent is never taken back. -/
theorem SessionStep.sent_prefix {env : UploadEnv κ} {dump : Json → Bytes} {within : Prop} {i : ι}
    {v v' : SessionView ι} {bytes : Bytes} (h : SessionStep env dump within i v bytes v') :
    v.sent <+: v'.sent := by
  cases h with
  | call call ms fresh ha hq => exact List.prefix_append _ _
  | other | arrive | readSome | readComplete | readFail | writeSome | writeComplete | writeFail =>
    exact List.prefix_rfl

omit [DecidableEq ι] [DecidableEq κ] in
/-- What is known of the bound may be forgotten. -/
theorem SessionStep.mono {env : UploadEnv κ} {dump : Json → Bytes} {within within' : Prop} {i : ι}
    {v v' : SessionView ι} {bytes : Bytes} (hw : within' → within)
    (h : SessionStep env dump within i v bytes v') : SessionStep env dump within' i v bytes v' := by
  cases h with
  | other => exact .other
  | arrive _ l hopen hl => exact .arrive _ l hopen hl
  | readSome k l hopen hl => exact .readSome k l hopen hl
  | readComplete fresh r node hr => exact .readComplete fresh r node hr
  | readFail l hl => exact .readFail l hl
  | call call ms fresh ha hq => exact .call call ms fresh ha fun hw' => hq (hw hw')
  | writeSome j k t hopen ht => exact .writeSome j k t hopen ht
  | writeComplete j t ht => exact .writeComplete j t ht
  | writeFail j t ht => exact .writeFail j t ht

/-- The receive half of session `i`, which has received the bytes `arr`: an open session goes on
reading, and its nodes are those its loop has posted. -/
structure SessionView.Reading (i : ι) (arr : Bytes) (v : SessionView ι) : Prop where
  holds : v.loop.Holds arr
  nodes_eq : v.nodes = v.loop.posted.map (LogicNode.mk i)
  pending : v.isStop = false → v.loop.receiver.pending ≠ none

omit [DecidableEq ι] [DecidableEq κ] in
/-- Every step of a session keeps its receive half, while the length fields it receives are
admissible. -/
theorem SessionStep.reading {env : UploadEnv κ} {dump : Json → Bytes} {within : Prop} {i : ι}
    {v v' : SessionView ι} {arr bytes : Bytes} (hs : SessionStep env dump within i v bytes v')
    (h : v.Reading i arr) (hlen : ∀ len, Announces (arr ++ bytes) len → LengthOk len) :
    v'.Reading i (arr ++ bytes) := by
  have hstep : ∀ {a : ReadAction} {l : ReadLoop}, v.loop.step a = some l → arrived [a] = bytes →
      l.Holds (arr ++ bytes) := by
    rintro a l hl rfl
    refine h.holds.step ?_ hl
    cases a with
    | complete fresh =>
      intro hp hd
      exact hlen _ ((h.holds.announces hp hd).mono (List.prefix_append _ _))
    | arrive piece | readSome k | fail => trivial
  cases hs with
  | other | call | writeSome | writeComplete =>
    rw [List.append_nil]
    exact ⟨h.holds, h.nodes_eq, h.pending⟩
  | writeFail =>
    rw [List.append_nil]
    exact ⟨h.holds, h.nodes_eq, fun hopen => Bool.noConfusion hopen⟩
  | arrive _ l hopen hl =>
    have hholds := hstep hl (List.flatMap_singleton ..)
    cases hl
    exact ⟨hholds, h.nodes_eq, h.pending⟩
  | readSome k l hopen hl =>
    have hholds := hstep hl rfl
    obtain ⟨r, hr, rfl⟩ := ReadLoop.readSome_cases hl
    obtain ⟨_, _, _, rfl⟩ := Receiver.readSome_cases hr
    exact ⟨hholds, h.nodes_eq, h.pending⟩
  | readFail l hl =>
    have hholds := hstep hl rfl
    obtain rfl := ReadLoop.failed_cases hl
    exact ⟨hholds, h.nodes_eq, fun hopen => Bool.noConfusion hopen⟩
  | readComplete fresh r node hr =>
    refine ⟨hstep (a := .complete fresh) ?_ rfl, ?_, fun _ => ReadLoop.pending_of_complete hr⟩
    · rw [ReadLoop.step, hr]
      rfl
    · simp only [h.nodes_eq, List.map_append]

namespace Service

/-- The bytes session `i` has received. -/
def received (i : ι) (as : List (ServiceAction ι)) : Bytes :=
  as.flatMap fun
    | .arrive j piece => if j = i then piece else []
    | _ => []

omit [DecidableEq κ] in
/-- The server as session `i` sees it. -/
def view (i : ι) (s : Service ι κ) : SessionView ι where
  loop := s.loops i
  nodes := nodesOf i s.dispatch.posted
  calls := callsOf i s.dispatch.invoked
  sender := s.senders i
  isStop := s.isStop i
  sent := s.sent i

/-- The side condition on steps: no handler finds the send queue of its session over the
bound. -/
def WithinBound (s : Service ι κ) : ServiceAction ι → Prop
  | .work _ _ => ∀ call ∈ s.dispatch.nextCall,
      (s.senders call.session).sendQueue.length ≤ maxSendQue
  | _ => True

instance (s : Service ι κ) (a : ServiceAction ι) : Decidable (s.WithinBound a) :=
  match a with
  | .work _ _ => inferInstanceAs (Decidable (∀ call ∈ s.dispatch.nextCall, _))
  | .arrive _ _ | .readSome _ _ | .readComplete _ _ | .readFail _ | .wake | .flush _ _
  | .writeSome _ _ _ | .writeComplete _ _ | .writeFail _ _ => isTrue trivial

/-- What a session receives in two schedules in turn. -/
theorem received_append (i : ι) (as bs : List (ServiceAction ι)) :
    received i (as ++ bs) = received i as ++ received i bs := List.flatMap_append

section Views

omit [DecidableEq κ]

variable {i j : ι} (s : Service ι κ)

/-- A session's read loop is part of its view. -/
theorem view_setLoop_self (l : ReadLoop) :
    (s.setLoop i l).view i = { s.view i with loop := l } := by
  simp only [view, setLoop, Function.update_self]

/-- The read loop of another session is no part of it. -/
theorem view_setLoop_of_ne (h : i ≠ j) (l : ReadLoop) : (s.setLoop j l).view i = s.view i := by
  simp only [view, setLoop, Function.update_of_ne h]

/-- A session's sender is part of its view. -/
theorem view_setSender_self (t : Sender) :
    (s.setSender i t).view i = { s.view i with sender := t } := by
  simp only [view, setSender, Function.update_self]

/-- The sender of another session is no part of it. -/
theorem view_setSender_of_ne (h : i ≠ j) (t : Sender) :
    (s.setSender j t).view i = s.view i := by
  simp only [view, setSender, Function.update_of_ne h]

/-- A session sees that it is closed. -/
theorem view_close_self : (s.close i).view i = { s.view i with isStop := true } := by
  simp only [view, close, Function.update_self]

/-- A session does not see another one closed. -/
theorem view_close_of_ne (h : i ≠ j) : (s.close j).view i = s.view i := by
  simp only [view, close, Function.update_of_ne h]

/-- A session sees the messages it is made to send. -/
theorem view_sendAll_self (fresh : Nat → Byte) (ms : List Message) :
    (s.sendAll i fresh ms).view i = { s.view i with
      sender := ms.foldl (fun t m => t.send maxSendQue fresh m) (s.senders i)
      sent := s.sent i ++ ms } := by
  simp only [view, sendAll, setSender, Function.update_self]

/-- A session sees none of the messages another one sends. -/
theorem view_sendAll_of_ne (h : i ≠ j) (fresh : Nat → Byte) (ms : List Message) :
    (s.sendAll j fresh ms).view i = s.view i := by
  simp only [view, sendAll, setSender, Function.update_of_ne h]

/-- The files are no part of a session's view. -/
theorem view_setUploads (w : UploadSystem ι κ) :
    (s.setUploads w).view i = s.view i := rfl

/-- A step of the logic system that posts `nodes` and makes `calls`, as session `i` sees it. -/
theorem view_setDispatch {d : Dispatch ι} {nodes : List (LogicNode ι)} {calls : List (Invocation ι)}
    (hposted : d.posted = s.dispatch.posted ++ nodes)
    (hinvoked : d.invoked = s.dispatch.invoked ++ calls) :
    (s.setDispatch d).view i = { s.view i with
      nodes := (s.view i).nodes ++ nodesOf i nodes
      calls := (s.view i).calls ++ callsOf i calls } := by
  simp only [view, setDispatch, hposted, hinvoked, nodesOf_append, callsOf_append]

end Views

/-- What the logic system guarantees whatever it is given. -/
structure Ordered (s : Service ι κ) : Prop where
  fifo : s.dispatch.Fifo s.dispatch.posted
  running : s.dispatch.Running

omit [DecidableEq ι] [DecidableEq κ] in
/-- A service that has posted nothing is in order. -/
theorem ordered_init (mem : ι → Nat → Byte) (disk : Disk κ Byte) :
    (init mem disk : Service ι κ).Ordered := ⟨Dispatch.fifo_init, Dispatch.running_init⟩

variable {env : UploadEnv κ} {dump : Json → Bytes} {s t : Service ι κ}

omit [DecidableEq κ] in
/-- A read handler posts the node it has, if any, for its own session. -/
theorem readComplete_cases {j : ι} {fresh : Nat → Byte} (h : s.readComplete j fresh = some t)
    (ho : s.Ordered) : ∃ r node d, (s.loops j).receiver.complete fresh = some (r, node) ∧
      d.posted = s.dispatch.posted ++ node.toList.map (LogicNode.mk j) ∧
      d.invoked = s.dispatch.invoked ∧ d.Fifo d.posted ∧ d.Running ∧
      t = (s.setDispatch d).setLoop j { s.loops j with
        receiver := r
        posted := (s.loops j).posted ++ node.toList } := by
  obtain ⟨⟨r, node⟩, hr, h⟩ := Option.bind_eq_some_iff.mp h
  obtain ⟨d, hd, rfl⟩ := Option.map_eq_some_iff.mp h
  obtain ⟨hposted, hinvoked, hfifo, hrunning⟩ := Server.postNode_cases hd ho.fifo ho.running
  exact ⟨r, node, d, hr, hposted, hinvoked, hfifo, hrunning, rfl⟩

/-- The worker moves on in the logic system, and makes the call that is due. -/
theorem work_cases {os : FsOutcome} {fresh : Nat → Byte} (h : s.work env dump os fresh = some t)
    (ho : s.Ordered) : ∃ d, s.dispatch.dealMessage = some d ∧ d.posted = s.dispatch.posted ∧
      d.invoked = s.dispatch.invoked ++ s.dispatch.nextCall.toList ∧ d.Fifo d.posted ∧
      d.Running ∧ ((s.dispatch.nextCall = none ∧ t = s.setDispatch d) ∨
        ∃ call, s.dispatch.nextCall = some call ∧
          t = ((s.setDispatch d).setUploads (call.upload env os s.uploads)).sendAll call.session
            fresh (call.responses dump s.uploads (call.upload env os s.uploads))) := by
  obtain ⟨d, hd, rfl⟩ := Option.map_eq_some_iff.mp h
  have hstep := Dispatch.workerStep_of_dealMessage hd
  obtain ⟨hposted, hinvoked⟩ := hstep.effect
  refine ⟨d, hd, hposted, hinvoked, hposted ▸ ho.fifo.workerStep hstep,
    ho.running.workerStep hstep, ?_⟩
  cases hcall : s.dispatch.nextCall with
  | none => exact Or.inl ⟨rfl, rfl⟩
  | some call => exact Or.inr ⟨call, rfl, rfl⟩

/-- One step keeps the logic system in order. -/
theorem Ordered.step {a : ServiceAction ι} (ho : s.Ordered) (h : s.step env dump a = some t) :
    t.Ordered := by
  cases a with
  | arrive j piece | readSome j k | writeSome j l k =>
    obtain ⟨_, h⟩ := Option.ite_none_left_eq_some.mp h
    obtain ⟨_, _, rfl⟩ := Option.map_eq_some_iff.mp h
    exact ⟨ho.fifo, ho.running⟩
  | readFail j | writeComplete j l | writeFail j l =>
    obtain ⟨_, _, rfl⟩ := Option.map_eq_some_iff.mp h
    exact ⟨ho.fifo, ho.running⟩
  | flush j k =>
    cases h
    exact ⟨ho.fifo, ho.running⟩
  | readComplete j fresh =>
    obtain ⟨_, _, _, _, _, _, hfifo, hrunning, rfl⟩ := readComplete_cases h ho
    exact ⟨hfifo, hrunning⟩
  | work os fresh =>
    obtain ⟨_, _, _, _, hfifo, hrunning, ⟨_, rfl⟩ | ⟨_, _, rfl⟩⟩ := work_cases h ho
    · exact ⟨hfifo, hrunning⟩
    · exact ⟨hfifo, hrunning⟩
  | wake =>
    obtain ⟨d, hd, rfl⟩ := Option.map_eq_some_iff.mp h
    have hfifo := ho.fifo.wake hd
    have hrunning := ho.running.wake hd
    obtain ⟨_, rfl⟩ := Dispatch.wake_cases hd
    exact ⟨hfifo, hrunning⟩

/-- Every step of the server is one of the steps of each session. -/
theorem step_view {a : ServiceAction ι} (ho : s.Ordered) (h : s.step env dump a = some t)
    (i : ι) : SessionStep env dump (s.WithinBound a) i (s.view i) (received i [a]) (t.view i) := by
  cases a with
  | arrive j piece =>
    obtain ⟨hopen, h⟩ := Option.ite_none_left_eq_some.mp h
    obtain ⟨l, hl, rfl⟩ := Option.map_eq_some_iff.mp h
    by_cases hij : i = j
    · subst hij
      rw [view_setLoop_self, show received i [.arrive i piece] = piece by simp [received]]
      exact .arrive piece l (Bool.eq_false_iff.mpr hopen) hl
    · rw [view_setLoop_of_ne s hij,
        show received i [.arrive j piece] = [] by simp [received, Ne.symm hij]]
      exact .other
  | readSome j k =>
    obtain ⟨hopen, h⟩ := Option.ite_none_left_eq_some.mp h
    obtain ⟨l, hl, rfl⟩ := Option.map_eq_some_iff.mp h
    by_cases hij : i = j
    · subst hij
      rw [view_setLoop_self]
      exact .readSome k l (Bool.eq_false_iff.mpr hopen) hl
    · rw [view_setLoop_of_ne s hij]
      exact .other
  | readComplete j fresh =>
    obtain ⟨r, node, d, hr, hposted, hinvoked, _, _, rfl⟩ := readComplete_cases h ho
    have hview := s.view_setDispatch (i := i) hposted (hinvoked.trans (List.append_nil _).symm)
    rw [Server.nodesOf_map_mk, show callsOf i [] = [] from rfl, List.append_nil] at hview
    by_cases hij : i = j
    · subst hij
      rw [view_setLoop_self, hview, if_pos rfl]
      exact .readComplete fresh r node hr
    · rw [view_setLoop_of_ne _ hij, hview, if_neg (Ne.symm hij), List.append_nil]
      exact .other
  | readFail j =>
    obtain ⟨l, hl, rfl⟩ := Option.map_eq_some_iff.mp h
    by_cases hij : i = j
    · subst hij
      rw [view_close_self, view_setLoop_self]
      exact .readFail l hl
    · rw [view_close_of_ne _ hij, view_setLoop_of_ne s hij]
      exact .other
  | work os fresh =>
    obtain ⟨d, _, hposted, hinvoked, _, _, hwork⟩ := work_cases h ho
    have hview := s.view_setDispatch (i := i) (hposted.trans (List.append_nil _).symm) hinvoked
    rw [show nodesOf i [] = [] from rfl, List.append_nil] at hview
    rcases hwork with ⟨hcall, rfl⟩ | ⟨call, hcall, rfl⟩
    · rw [hview, hcall, Option.toList_none, show callsOf i [] = [] from rfl, List.append_nil]
      exact .other
    · rw [hcall, Option.toList_some, callsOf, List.filter_singleton] at hview
      by_cases hij : i = call.session
      · subst hij
        rw [decide_eq_true rfl, cond_true] at hview
        rw [view_sendAll_self, view_setUploads, hview]
        exact .call call _ fresh (call.answers env dump os s.uploads) fun hw => hw call hcall
      · rw [decide_eq_false (Ne.symm hij), cond_false, List.append_nil] at hview
        rw [view_sendAll_of_ne _ hij, view_setUploads, hview]
        exact .other
  | wake =>
    obtain ⟨d, hd, rfl⟩ := Option.map_eq_some_iff.mp h
    obtain ⟨_, rfl⟩ := Dispatch.wake_cases hd
    exact .other
  | flush j k =>
    cases h
    exact .other
  | writeSome j l k =>
    obtain ⟨hopen, h⟩ := Option.ite_none_left_eq_some.mp h
    obtain ⟨u, hu, rfl⟩ := Option.map_eq_some_iff.mp h
    by_cases hij : i = j
    · subst hij
      rw [view_setSender_self]
      exact .writeSome l k u (Bool.eq_false_iff.mpr hopen) hu
    · rw [view_setSender_of_ne s hij]
      exact .other
  | writeComplete j l =>
    obtain ⟨u, hu, rfl⟩ := Option.map_eq_some_iff.mp h
    by_cases hij : i = j
    · subst hij
      rw [view_setSender_self]
      exact .writeComplete l u hu
    · rw [view_setSender_of_ne s hij]
      exact .other
  | writeFail j l =>
    obtain ⟨u, hu, rfl⟩ := Option.map_eq_some_iff.mp h
    by_cases hij : i = j
    · subst hij
      rw [view_close_self, view_setSender_self]
      exact .writeFail l u hu
    · rw [view_close_of_ne _ hij, view_setSender_of_ne s hij]
      exact .other

/-- The logic system is in order in every run. -/
theorem ordered_of_run {mem : ι → Nat → Byte} {disk : Disk κ Byte} {as : List (ServiceAction ι)}
    (h : run (step env dump) (init mem disk) as = some s) : s.Ordered :=
  run_invariant (ordered_init mem disk) (fun _ _ _ ho ht => ho.step ht) h

/-- What one session's steps keep holds of it in every run of the server; the steps are known to
stay within the bound if the run is. -/
theorem view_of_run (within : Prop) {u : Service ι κ} (ho : u.Ordered) {i : ι}
    {P : Bytes → SessionView ι → Prop} (h0 : P [] (u.view i))
    (hstep : ∀ arr v bytes v', P arr v → SessionStep env dump within i v bytes v' →
      P (arr ++ bytes) v') {as : List (ServiceAction ι)}
    (hw : within → Along (step env dump) WithinBound u as)
    (h : run (step env dump) u as = some s) : P (received i as) (s.view i) := by
  have hall : Along (step env dump) (fun s a => within → s.WithinBound a) u as := by
    by_cases hwithin : within
    · exact (hw hwithin).mono fun _ _ ha _ => ha
    · exact along_of_mem (fun _ _ _ hw => absurd hw hwithin) _
  have hinit : u.Ordered ∧ P (received i []) (u.view i) := ⟨ho, h0⟩
  have hboth : s.Ordered ∧ P (received i as) (s.view i) := by
    refine run_history_along (P := fun as s => s.Ordered ∧ P (received i as) (s.view i))
      hinit ?_ hall h
    intro as s a t hs ha ht
    rw [received_append]
    exact ⟨hs.1.step ht, hstep _ _ _ _ hs.2 ((step_view hs.1 ht i).mono ha)⟩
  exact hboth.2

omit [DecidableEq κ] in
/-- A new session has read nothing. -/
theorem reading_init (mem : ι → Nat → Byte) (disk : Disk κ Byte) (i : ι) :
    ((init mem disk : Service ι κ).view i).Reading i [] where
  holds := ReadLoop.holds_fresh (mem i)
  nodes_eq := rfl
  pending _ := Option.some_ne_none _

/-- The receive half of one session in every run of the server. -/
theorem reading_of_run {mem : ι → Nat → Byte} {disk : Disk κ Byte} {as : List (ServiceAction ι)}
    (h : run (step env dump) (init mem disk) as = some s) {i : ι}
    (hlen : ∀ len, Announces (received i as) len → LengthOk len) :
    (s.view i).Reading i (received i as) := by
  refine view_of_run False (ordered_init mem disk)
    (P := fun arr v => (∀ len, Announces arr len → LengthOk len) → v.Reading i arr)
    (fun _ => reading_init mem disk i) ?_ False.elim h hlen
  intro arr v bytes v' hinv hs hlen'
  exact hs.reading (hinv fun len hl => hlen' len (hl.mono (List.prefix_append _ _))) hlen'

end Service

end ResourceServer
