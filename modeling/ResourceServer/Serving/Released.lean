import ResourceServer.Core.Simulation
import ResourceServer.Native.SharedUploads
import ResourceServer.Serving.Holders
import ResourceServer.Uploads.Resume

/-!
# Streams released with the last reference

The model of the uploads lets the destructor of a session run at any time once no node
of the queue holds it. Here the destructor runs where the last of all references goes.
Each run is one of that model, with the same requests, files and streams, so what holds
of all its runs holds of the runs with the true lifetimes.
-/

namespace ResourceServer

open FileStream Transition

variable {ι κ : Type}

/-- The requests posted in a schedule. -/
def requestsPosted (as : List (SharedUploadsAction ι)) : List (ι × Bytes) :=
  as.filterMap fun
    | .step (.post i node) _ => LogicNode.uploadRequest ⟨i, node⟩
    | _ => none

/-- The requests in the queue whose callback has not been called. -/
def SharedSessions.requests (s : SharedSessions ι) : List (ι × Bytes) :=
  (if s.callPc = .waiting then s.logicQue else s.logicQue.tail).filterMap LogicNode.uploadRequest

/-- A request is of the session of its node. -/
theorem session_of_uploadRequest {node : LogicNode ι} {r : ι × Bytes}
    (h : node.uploadRequest = some r) : r.1 = node.session := by
  obtain ⟨call, hcall, h⟩ := Option.bind_eq_some_iff.mp h
  obtain ⟨handler, _, rfl⟩ := Option.map_eq_some_iff.mp hcall
  cases handler with
  | testSend => contradiction
  | doUploadFileReq =>
    cases h
    rfl

/-- A request in the queue is in a node of its session. -/
theorem mem_logicQue_of_mem_requests {s : SharedSessions ι} {r : ι × Bytes}
    (h : r ∈ s.requests) : r.1 ∈ s.logicQue.map LogicNode.session := by
  obtain ⟨node, hnode, hr⟩ := List.mem_filterMap.mp h
  refine List.mem_map.mpr ⟨node, ?_, (session_of_uploadRequest hr).symm⟩
  split at hnode
  · exact hnode
  · exact List.mem_of_mem_tail hnode

/-- The images of a list with one more entry. -/
theorem filterMap_snoc {α β : Type} (f : α → Option β) (l : List α) (x : α) :
    (l ++ [x]).filterMap f = l.filterMap f ++ (f x).toList := by
  rw [List.filterMap_append]
  cases hx : f x <;> simp [hx]

/-- The requests posted in two schedules in turn. -/
theorem UploadSessions.posts_append (us vs : List (UploadSessionsAction ι)) :
    UploadSessions.posts (us ++ vs) = UploadSessions.posts us ++ UploadSessions.posts vs :=
  List.filterMap_append

namespace SharedUploads

/-- A run of the model of the uploads that has come as far. -/
structure Follows (s : SharedSessions ι) (w : UploadSystem ι κ) (u : UploadSessions ι κ) :
    Prop where
  uploads : u.uploads = w
  logicQue : u.logicQue = s.requests
  isStop : ∀ i, u.isStop i = (s.registry.conns i).isStop
  destroyed : ∀ i, u.destroyed i = true ↔ s.refs.destructed i = 1

variable [DecidableEq ι] [DecidableEq κ] {env : UploadEnv κ}

open SharedSessions

/-! ## One step -/

section

variable {s t : SharedSessions ι} {a : SharedAction ι} {w : UploadSystem ι κ}
  {u : UploadSessions ι κ}

omit [DecidableEq ι] [DecidableEq κ] in
/-- A session that is used and let go is the one a reference to is dropped. -/
theorem dropped_of_uses {i : ι} (ha : a.Uses s i) (hgo : a.LetsGo) : a.dropped s = some i := by
  cases a with
  | acceptReturn | pop => exact ha
  | handlerReturn j => exact congrArg some ha
  | construct | acceptError | accept | insert | enter | post | again | written | close | clear
  | call | write | callReturn => exact hgo.elim

omit [DecidableEq κ] in
/-- A step of the registry other than `close` stops no session. -/
theorem isStop_step (hs : s.step a = some t) (hclose : ∀ i op, a ≠ .close i op) (i : ι) :
    (t.registry.conns i).isStop = (s.registry.conns i).isStop := by
  cases sharedStep_of_step hs with
  | construct | acceptError | acceptReturn | enter | post | again | handlerReturn | call
  | callReturn | pop => rfl
  | accept | written | write => exact Registry.isStop_setHandler ..
  | clear => exact Registry.isStop_setHandler ..
  | close => exact absurd rfl (hclose _ _)
  | @insert j =>
    change ((s.registry.setConn j _).conns i).isStop = _
    rw [Registry.conns_setConn]
    split
    · rename_i hij
      rw [hij]
    · rfl

/-- The requests in the queue behind the steps that neither post nor call. -/
theorem requests_step (hs : s.step a = some t) (hpost : ∀ i node, a ≠ .post i node)
    (hcall : a ≠ .call) : t.requests = s.requests := by
  cases sharedStep_of_step hs with
  | construct | acceptError | accept | insert | acceptReturn | enter | again | written | close
  | clear | handlerReturn | write => rfl
  | post => exact absurd rfl (hpost _ _)
  | call => exact absurd rfl hcall
  | callReturn hpc => simp [requests, hpc]
  | pop hpc hque =>
    rcases hpc with hpc | ⟨hpc, hnone⟩
    · simp [requests, hpc, hque]
    · have hreq : LogicNode.uploadRequest _ = none := Option.bind_eq_none_iff.mpr
        fun call hcall => absurd (hnone.symm.trans hcall) (Option.some_ne_none call).symm
      simp [requests, hpc, hque, hreq]

/-- A post adds its request behind the others. -/
theorem requests_post (h : s.Shaped) {i : ι} {node : RecvNode}
    (hs : s.step (.post i node) = some t) :
    t.requests = s.requests ++ (LogicNode.uploadRequest ⟨i, node⟩).toList := by
  cases sharedStep_of_step hs with
  | post =>
    by_cases hpc : s.callPc = .waiting
    · simp only [requests, setRunPc, hpc, if_true]
      exact filterMap_snoc ..
    · simp only [requests, setRunPc, hpc, if_false]
      rw [List.tail_append_of_ne_nil (h.queue hpc)]
      exact filterMap_snoc ..

/-- A call takes the first request, if the front has one. -/
theorem requests_call {node : LogicNode ι} {rest : List (LogicNode ι)} (hpc : s.callPc = .waiting)
    (hque : s.logicQue = node :: rest) (hs : s.step .call = some t) :
    s.requests = node.uploadRequest.toList ++ t.requests := by
  cases sharedStep_of_step hs with
  | call =>
    simp only [requests, hpc, hque, reduceCtorEq, if_true, if_false, List.tail_cons]
    rw [← List.singleton_append, List.filterMap_append]
    exact congrArg (· ++ _) (filterMap_snoc _ [] node)

omit [DecidableEq κ] in
/-- What a step uses is not destroyed in the other model either. -/
theorem Follows.alive (h : Follows s w u) (hshaped : s.Shaped) (hex : s.refs.Exact s.held)
    (hs : s.step a = some t) {i : ι} (ha : a.Uses s i) : u.destroyed i = false := by
  have hzero := (hex.alive (held_pos_of_not_finished (not_finished_of_uses hshaped hs ha))).2
  by_contra hdestroyed
  rw [(h.destroyed i).mp (by simpa using hdestroyed)] at hzero
  contradiction

omit [DecidableEq κ] in
/-- Nothing of the uploads is done in a step that neither posts, closes nor calls. -/
theorem Follows.stutter (h : Follows s w u) (hs : s.step a = some t)
    (hpost : ∀ i node, a ≠ .post i node) (hclose : ∀ i op, a ≠ .close i op) (hcall : a ≠ .call) :
    Follows { t with refs := s.refs } w u where
  uploads := h.uploads
  logicQue := h.logicQue.trans (requests_step hs hpost hcall).symm
  isStop i := (h.isStop i).trans (isStop_step hs hclose i).symm
  destroyed := h.destroyed

/-- A post of an upload is one of the other model, and any other is nothing. -/
theorem Follows.post (h : Follows s w u) (hshaped : s.Shaped) (hex : s.refs.Exact s.held) {i : ι}
    {node : RecvNode} (hs : s.step (.post i node) = some t) :
    ∃ cs v, run (UploadSessions.step env) u cs = some v ∧
      Follows { t with refs := s.refs } w v ∧
        UploadSessions.posts cs = (LogicNode.uploadRequest ⟨i, node⟩).toList := by
  have hstop := isStop_step hs (fun _ _ => nofun)
  have hreq := requests_post hshaped hs
  cases hnode : LogicNode.uploadRequest (⟨i, node⟩ : LogicNode ι) with
  | none =>
    rw [hnode, Option.toList_none, List.append_nil] at hreq
    refine ⟨[], u, rfl, ⟨h.uploads, ?_, fun j => ?_, h.destroyed⟩, rfl⟩
    · exact h.logicQue.trans hreq.symm
    · exact (h.isStop j).trans (hstop j).symm
  | some r =>
    obtain ⟨j, data⟩ := r
    have hij : j = i := session_of_uploadRequest hnode
    subst hij
    rw [hnode] at hreq
    have halive : u.destroyed j = false := h.alive hshaped hex hs rfl
    refine ⟨[.post j data], { u with logicQue := u.logicQue ++ [(j, data)] }, ?_, ?_, rfl⟩
    · simp [run_cons, UploadSessions.step, halive]
    · refine ⟨h.uploads, ?_, fun k => (h.isStop k).trans (hstop k).symm, h.destroyed⟩
      exact (congrArg (· ++ [(j, data)]) h.logicQue).trans hreq.symm

/-- `close` is that of the other model. -/
theorem Follows.close (h : Follows s w u) (hshaped : s.Shaped) (hex : s.refs.Exact s.held) {i : ι}
    {op : SessionOp} (hs : s.step (.close i op) = some t) :
    ∃ v, run (UploadSessions.step env) u [.close i] = some v ∧
      Follows { t with refs := s.refs } w v := by
  have halive : u.destroyed i = false := h.alive hshaped hex hs rfl
  have hreq := requests_step hs (fun _ _ => nofun) nofun
  refine ⟨{ u with isStop := Function.update u.isStop i true }, ?_, h.uploads,
    h.logicQue.trans hreq.symm, fun j => ?_, h.destroyed⟩
  · simp [run_cons, UploadSessions.step, halive]
  · cases sharedStep_of_step hs with
    | close =>
      change _ = (((s.registry.setHandler i op .closed).close i).conns j).isStop
      rw [Registry.close, Registry.conns_setConn]
      by_cases hj : j = i
      · rw [if_pos hj, hj]
        exact Function.update_self ..
      · rw [if_neg hj]
        refine (Function.update_of_ne hj ..).trans ?_
        exact (h.isStop j).trans (Registry.isStop_setHandler ..).symm

/-- A call of the upload handler takes the request at the front, and any other nothing. -/
theorem Follows.call (h : Follows s w u) (os : FsOutcome) (hs : s.step .call = some t) :
    ∃ cs v, run (UploadSessions.step env) u cs = some v ∧
      Follows { t with refs := s.refs } (handled env os ⟨s, w⟩ .call) v ∧
        UploadSessions.posts cs = [] := by
  have hstop := isStop_step hs (fun _ _ => nofun)
  obtain ⟨node, rest, hpc, hque, call, hcall⟩ : ∃ node rest, s.callPc = .waiting ∧
      s.logicQue = node :: rest ∧ ∃ call, node.invocation = some call := by
    cases sharedStep_of_step hs with
    | call hpc hque hcall => exact ⟨_, _, hpc, hque, Option.isSome_iff_exists.mp hcall⟩
  have hreq := h.logicQue.trans (requests_call hpc hque hs)
  have hfront : s.logicQue.head?.bind LogicNode.invocation = some call := by
    rw [hque, List.head?_cons, Option.bind_some, hcall]
  have hhandled : handled env os ⟨s, w⟩ .call = call.upload env os w := by
    simp only [handled, hfront]
  rw [hhandled]
  cases hhandler : call.handler with
  | testSend =>
    have hnone : node.uploadRequest = none := by
      simp [LogicNode.uploadRequest, hcall, hhandler]
    rw [hnone] at hreq
    refine ⟨[], u, rfl, ⟨?_, hreq, fun j => (h.isStop j).trans (hstop j).symm, h.destroyed⟩, rfl⟩
    rw [h.uploads, Invocation.upload, hhandler]
  | doUploadFileReq =>
    have hsome : node.uploadRequest = some (call.session, call.data) := by
      simp [LogicNode.uploadRequest, hcall, hhandler]
    rw [hsome] at hreq
    refine ⟨[.dealMessage os], { u with
      uploads := call.upload env os w, logicQue := t.requests }, ?_, ?_, rfl⟩
    · rw [Option.toList_some, List.singleton_append] at hreq
      simp only [run_cons, UploadSessions.step, hreq, Option.bind_some, run_nil,
        Invocation.upload, hhandler, h.uploads]
      rfl
    · exact ⟨rfl, rfl, fun j => (h.isStop j).trans (hstop j).symm, h.destroyed⟩

/-- What a step does before it lets a session go. -/
theorem Follows.before (h : Follows s w u) (env : UploadEnv κ) (hshaped : s.Shaped)
    (hex : s.refs.Exact s.held) (os : FsOutcome) (hs : s.step a = some t) :
    ∃ cs v, run (UploadSessions.step env) u cs = some v ∧
      Follows { t with refs := s.refs } (handled env os ⟨s, w⟩ a) v ∧
        UploadSessions.posts cs = requestsPosted [.step a os] := by
  cases a with
  | construct | acceptError | accept | insert | acceptReturn | enter | again | written | clear
  | handlerReturn | write | callReturn | pop =>
    exact ⟨[], u, rfl, h.stutter hs (fun _ _ => nofun) (fun _ _ => nofun) nofun, rfl⟩
  | post i node =>
    obtain ⟨cs, v, hv, hfollows, hposts⟩ := h.post hshaped hex hs
    exact ⟨cs, v, hv, hfollows, hposts.trans (filterMap_snoc _ [] _).symm⟩
  | close i op =>
    obtain ⟨v, hv, hfollows⟩ := h.close hshaped hex hs
    exact ⟨[.close i], v, hv, hfollows, rfl⟩
  | call => exact h.call os hs

omit [DecidableEq κ] in
/-- A step runs the destructor of no session but the one it drops the last reference to. -/
theorem destructed_cases (hshaped : s.Shaped) (hex : s.refs.Exact s.held) (hs : s.step a = some t)
    {i : ι} (hne : t.refs.destructed i ≠ s.refs.destructed i) :
    a.dropped s = some i ∧ s.refs.destructed i = 0 ∧ t.refs.destructed i = 1 ∧
      ∀ j, j ≠ i → t.refs.destructed j = s.refs.destructed j := by
  obtain ⟨huses, hgo⟩ := destructed_step hex hs hne
  have hdropped := dropped_of_uses huses hgo
  have hzero := (hex.alive (held_pos_of_not_finished (not_finished_of_uses hshaped hs huses))).2
  have hle := (exact_step hshaped hex hs).destructed_le_one i
  refine ⟨hdropped, hzero, by omega, fun j hj => ?_⟩
  by_contra hother
  obtain ⟨huses', hgo'⟩ := destructed_step hex hs hother
  exact hj (Option.some.inj (hdropped.symm.trans (dropped_of_uses huses' hgo'))).symm

omit [DecidableEq κ] in
/-- A session that is destroyed has no request in the queue. -/
theorem ne_of_mem_requests (hex : t.refs.Exact t.held) {i : ι} (hone : t.refs.destructed i = 1) :
    ∀ r ∈ t.requests, r.1 ≠ i := by
  rintro r hr rfl
  have hcount := List.count_pos_iff.mpr (mem_logicQue_of_mem_requests hr)
  have hpos : 0 < t.held r.1 := by
    rw [held_eq]
    omega
  rw [(hex.alive hpos).2] at hone
  contradiction

/-- The destructor runs in the other model where it runs here. -/
theorem Follows.released (h : Follows { t with refs := s.refs } w u) (env : UploadEnv κ)
    (hshaped : s.Shaped) (hex : s.refs.Exact s.held) (hs : s.step a = some t) :
    ∃ cs v, run (UploadSessions.step env) u cs = some v ∧
      Follows t (released s t a w) v ∧ UploadSessions.posts cs = [] := by
  by_cases hsame : ∀ i, t.refs.destructed i = s.refs.destructed i
  · refine ⟨[], u, rfl, ⟨?_, h.logicQue, h.isStop, fun i => ?_⟩, rfl⟩
    · rw [SharedUploads.released]
      split
      · rw [if_pos (hsame _)]
        exact h.uploads
      · exact h.uploads
    · rw [hsame]
      exact h.destroyed i
  · obtain ⟨i, hne⟩ := not_forall.mp hsame
    obtain ⟨hdropped, hzero, hone, hother⟩ := destructed_cases hshaped hex hs hne
    have halive : u.destroyed i = false := by
      have hiff : u.destroyed i = true ↔ s.refs.destructed i = 1 := h.destroyed i
      rw [hzero] at hiff
      exact Bool.eq_false_iff.mpr fun hdestroyed => absurd (hiff.mp hdestroyed) Nat.zero_ne_one
    have hgone : ∀ r ∈ u.logicQue, r.1 ≠ i := by
      rw [h.logicQue]
      exact ne_of_mem_requests (exact_step hshaped hex hs) hone
    refine ⟨[.destroy i], { u with
      uploads := u.uploads.put i { u.uploads.session i with files := (u.uploads.view i).close 0 }
      destroyed := Function.update u.destroyed i true }, ?_, ⟨?_, h.logicQue, h.isStop, ?_⟩, rfl⟩
    · simp only [run_cons, UploadSessions.step, halive, true_and, run_nil]
      rw [if_pos hgone]
      rfl
    · rw [SharedUploads.released, hdropped, h.uploads]
      exact (if_neg hne).symm
    · intro j
      by_cases hj : j = i
      · subst hj
        exact iff_of_true (Function.update_self ..) hone
      · rw [hother j hj, ← h.destroyed j]
        exact iff_of_eq (congrArg (· = true) (Function.update_of_ne hj ..))

/-- Every step is followed by steps of the other model. -/
theorem Follows.step {s t : SharedUploads ι κ} {a : SharedUploadsAction ι}
    (h : Follows s.sessions s.uploads u) (hshaped : s.sessions.Shaped)
    (hex : s.sessions.refs.Exact s.sessions.held) (hs : s.step env a = some t) :
    ∃ cs v, run (UploadSessions.step env) u cs = some v ∧ Follows t.sessions t.uploads v ∧
      UploadSessions.posts cs = requestsPosted [a] ∧ t.sessions.Shaped ∧
        t.sessions.refs.Exact t.sessions.held := by
  cases a with
  | step a os =>
    obtain ⟨t, ht, rfl⟩ := Option.map_eq_some_iff.mp hs
    obtain ⟨cs, v, hv, hbefore, hcs⟩ := h.before env hshaped hex os ht
    obtain ⟨ds, x, hx, hafter, hds⟩ := hbefore.released env hshaped hex ht
    refine ⟨cs ++ ds, x, run_append_eq_some.mpr ⟨v, hv, hx⟩, hafter, ?_, hshaped.step ht,
      exact_step hshaped hex ht⟩
    rw [UploadSessions.posts_append, hds, List.append_nil, hcs]
  | flush i k =>
    cases hs
    refine ⟨[.flush i k], _, rfl, ⟨?_, h.logicQue, h.isStop, h.destroyed⟩, rfl, hshaped, hex⟩
    rw [h.uploads]

end

/-! ## Whole runs -/

/-- Each run of the sessions with the files is followed by one of the model of the uploads:
the same requests posted, the same files, streams and responses, the same sessions closed,
and destroyed those whose destructor has run. -/
theorem refines_uploadSessions (disk : Disk κ Byte) (as : List (SharedUploadsAction ι))
    (s : SharedUploads ι κ) (h : run (step env) (init disk) as = some s) :
    ∃ us u, run (UploadSessions.step env) (UploadSessions.init disk) us = some u ∧
      UploadSessions.posts us = requestsPosted as ∧ u.uploads = s.uploads ∧
      (∀ i, u.isStop i = (s.sessions.registry.conns i).isStop) ∧
      ∀ i, u.destroyed i = true ↔ s.sessions.refs.destructed i = 1 := by
  have hrun : ∃ us u, run (UploadSessions.step env) (UploadSessions.init disk) us = some u ∧
      UploadSessions.posts us = requestsPosted as ∧ Follows s.sessions s.uploads u ∧
        s.sessions.Shaped ∧ s.sessions.refs.Exact s.sessions.held := by
    refine exists_run_of_follows (C := fun _ _ => True) _
      (R := fun as s us u => UploadSessions.posts us = requestsPosted as ∧
        Follows s.sessions s.uploads u ∧ s.sessions.Shaped ∧
          s.sessions.refs.Exact s.sessions.held) ?_ ?_ (along_of_mem (fun _ _ _ => trivial) _) h
    · refine ⟨rfl, ⟨rfl, rfl, fun _ => rfl, fun i => ?_⟩, shaped_init, ?_⟩
      · exact iff_of_false Bool.false_ne_true Nat.zero_ne_one
      · exact RefCount.exact_init.congr fun _ => rfl
    · rintro as s us u a t ⟨hposts, hfollows, hshaped, hex⟩ - ht
      obtain ⟨cs, v, hv, hnext, hcs, hshaped', hex'⟩ := hfollows.step hshaped hex ht
      have hsnoc : requestsPosted (as ++ [a]) = requestsPosted as ++ requestsPosted [a] :=
        List.filterMap_append
      refine ⟨cs, v, hv, ?_, hnext, hshaped', hex'⟩
      rw [UploadSessions.posts_append, hposts, hcs, hsnoc]
  obtain ⟨us, u, hu, hposts, hfollows, _⟩ := hrun
  exact ⟨us, u, hu, hposts, hfollows.uploads, hfollows.isStop, hfollows.destroyed⟩

/-- The first packet of a file `g`. -/
private def unfinishedPacket : List (Bytes × Json) := [([17], packetRoot "g" 1 false "bW4=")]

/-- Session 4 is closed behind that packet, and the worker lets it go last. -/
private def closedBehindPacket : List (SharedUploadsAction Nat) :=
  ([.construct 4, .accept, .insert, .construct 5, .acceptReturn, .enter 4 .read,
    .post 4 ⟨⟨[17, 0], 1, 1⟩, .idUploadFileReq⟩, .again 4 .read, .handlerReturn 4, .close 4 .read,
    .clear 4 .read, .handlerReturn 4, .call, .callReturn, .pop] : List (SharedAction Nat)).map
      fun a => .step a ⟨some true, true, true⟩

theorem refines_uploadSessions_closed : ∃ us u,
    run (UploadSessions.step (tableEnv unfinishedPacket)) (UploadSessions.init fun _ => []) us =
      some u ∧ UploadSessions.posts us = [((4 : Nat), [17])] ∧ u.destroyed 4 = true ∧
        u.uploads.disk "root/bin/static/g" = [109, 110] := by
  have hrun : (run (step (tableEnv unfinishedPacket)) (init fun _ => []) closedBehindPacket).any
      fun s => decide (s.sessions.refs.destructed 4 = 1 ∧
        s.uploads.disk "root/bin/static/g" = [109, 110]) := by
    decide +kernel
  obtain ⟨s, hs, hlast⟩ := (Option.any_eq_true _ _).mp hrun
  obtain ⟨hdestructed, hfile⟩ := of_decide_eq_true hlast
  obtain ⟨us, u, hu, hposts, huploads, _, hdestroyed⟩ :=
    refines_uploadSessions (fun _ => []) closedBehindPacket s hs
  have hone : requestsPosted closedBehindPacket = [(4, [17])] := by decide +kernel
  exact ⟨us, u, hu, hposts.trans hone, (hdestroyed 4).mpr hdestructed, huploads ▸ hfile⟩

end SharedUploads

end ResourceServer
