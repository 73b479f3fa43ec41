import ResourceServer.Core.Simulation
import ResourceServer.Serving.Answers
import ResourceServer.Uploads.Isolated

/-!
# Files that come over the wire

A peer that sends the packets of its files, in frames cut by the network in any
way and mixed with other messages, has them stored, whatever the other peers send
for other files and however their connections end: the uploads of a run of the
server are a run of the uploads.
-/

namespace ResourceServer

open FileStream Transition

variable {ι κ : Type}

/-- What a call gives the upload handler. -/
def Invocation.uploadData (call : Invocation ι) : Option Bytes :=
  match call.handler with
  | .testSend => none
  | .doUploadFileReq => some call.data

/-- What a frame gives the upload handler. -/
def Frame.uploadData (f : Frame) : Option Bytes :=
  if f.id = .idUploadFileReq then some (Memory.cString 0 f.body) else none

/-- The calls due for frames give what the frames give. -/
theorem uploadData_call (i : ι) (fs : List Frame) :
    (fs.filterMap (Frame.call i)).filterMap Invocation.uploadData =
      fs.filterMap Frame.uploadData := by
  rw [List.filterMap_filterMap]
  refine List.filterMap_congr fun f _ => ?_
  rw [Frame.uploadData, Frame.call, callbackHandler]
  by_cases htest : f.id = .idTestMsgReq
  · rw [if_pos htest, if_neg (by rw [htest]; decide)]
    rfl
  · rw [if_neg htest]
    by_cases hupload : f.id = .idUploadFileReq
    · rw [if_pos hupload, if_pos hupload]
      rfl
    · rw [if_neg hupload, if_neg hupload]
      rfl

variable [DecidableEq ι]

/-- The actions on the files in two schedules in turn. -/
theorem actionsOf_append (i : ι) (as bs : List (ι × UploadAction)) :
    actionsOf i (as ++ bs) = actionsOf i as ++ actionsOf i bs := List.filterMap_append

/-- A request in a schedule is one of its session's. -/
theorem mem_requestsOf {i : ι} {os : FsOutcome} {data : Bytes} {as : List (ι × UploadAction)}
    (h : (i, UploadAction.request os data) ∈ as) : data ∈ requestsOf i as :=
  List.mem_filterMap.mpr ⟨_, h, if_pos rfl⟩

variable [DecidableEq κ] {env : UploadEnv κ} {dump : Json → Bytes}

namespace Service

/-- The side condition on steps: a handler called for an upload of session `i` can open its file. -/
def OpensFor (i : ι) (s : Service ι κ) : ServiceAction ι → Prop
  | .work os _ => ∀ call ∈ s.dispatch.nextCall, call.session = i →
      call.handler = .doUploadFileReq → os.DirsOk ∧ os.opens = true
  | _ => True

/-- What the handler of uploads was called with for session `i`. -/
def uploadsOf (i : ι) (s : Service ι κ) : List Bytes :=
  (callsOf i s.dispatch.invoked).filterMap Invocation.uploadData

variable {s t : Service ι κ}

omit [DecidableEq κ] in
/-- Where no call is made, the same has been uploaded. -/
theorem uploadsOf_congr (h : t.dispatch.invoked = s.dispatch.invoked) (i : ι) :
    t.uploadsOf i = s.uploadsOf i := by
  rw [uploadsOf, uploadsOf, h]

omit [DecidableEq κ] in
/-- A call adds what it gives the upload handler. -/
theorem uploadsOf_concat {call : Invocation ι}
    (h : t.dispatch.invoked = s.dispatch.invoked ++ [call]) (i : ι) :
    t.uploadsOf i = s.uploadsOf i ++ if call.session = i then call.uploadData.toList else [] := by
  rw [uploadsOf, h, callsOf_append, List.filterMap_append, ← uploadsOf]
  congr 1
  rw [callsOf, List.filter_singleton]
  by_cases hi : call.session = i
  · rw [decide_eq_true hi, cond_true, if_pos hi]
    cases hdata : call.uploadData with
    | none => rw [List.filterMap_cons_none hdata, List.filterMap_nil, Option.toList_none]
    | some data => rw [List.filterMap_cons_some hdata, List.filterMap_nil, Option.toList_some]
  · rw [decide_eq_false hi, cond_false, if_neg hi]
    rfl

/-- A step of the server does to the files what a step of the uploads does, if any: a flush,
or the request of the call it makes. -/
theorem exists_upload {a : ServiceAction ι} (ho : s.Ordered) (h : s.step env dump a = some t) :
    ∃ o : Option (ι × UploadAction),
      run (UploadSystem.step env) s.uploads o.toList = some t.uploads ∧
      (∀ j, t.uploadsOf j = s.uploadsOf j ++ requestsOf j o.toList) ∧
      ∀ b ∈ o, (∃ j k, b = (j, .flush k)) ∨ ∃ os fresh, a = .work os fresh ∧
        ∃ call ∈ s.dispatch.nextCall, call.handler = .doUploadFileReq ∧
          b = (call.session, .request os call.data) := by
  have hnone : t.uploads = s.uploads → (∀ j, t.uploadsOf j = s.uploadsOf j) →
      ∃ o : Option (ι × UploadAction),
        run (UploadSystem.step env) s.uploads o.toList = some t.uploads ∧
        (∀ j, t.uploadsOf j = s.uploadsOf j ++ requestsOf j o.toList) ∧
        ∀ b ∈ o, (∃ j k, b = (j, .flush k)) ∨ ∃ os fresh, a = .work os fresh ∧
          ∃ call ∈ s.dispatch.nextCall, call.handler = .doUploadFileReq ∧
            b = (call.session, .request os call.data) := by
    intro huploads hsame
    refine ⟨none, by rw [huploads]; rfl, fun j => ?_, fun b hb => absurd hb (Option.not_mem_none b)⟩
    rw [hsame j]
    exact (List.append_nil _).symm
  cases a with
  | arrive j piece | readSome j k | writeSome j l k =>
    obtain ⟨_, h⟩ := Option.ite_none_left_eq_some.mp h
    obtain ⟨_, _, rfl⟩ := Option.map_eq_some_iff.mp h
    exact hnone rfl fun _ => rfl
  | readFail j | writeComplete j l | writeFail j l =>
    obtain ⟨_, _, rfl⟩ := Option.map_eq_some_iff.mp h
    exact hnone rfl fun _ => rfl
  | readComplete j fresh =>
    obtain ⟨_, _, _, _, _, hinvoked, _, _, rfl⟩ := readComplete_cases h ho
    exact hnone rfl (uploadsOf_congr hinvoked)
  | wake =>
    obtain ⟨d, hd, rfl⟩ := Option.map_eq_some_iff.mp h
    obtain ⟨_, rfl⟩ := Dispatch.wake_cases hd
    exact hnone rfl fun _ => rfl
  | flush j k =>
    cases h
    refine ⟨some (j, .flush k), rfl, fun l => (List.append_nil _).symm, ?_⟩
    rintro b ⟨⟩
    exact Or.inl ⟨j, k, rfl⟩
  | work os fresh =>
    obtain ⟨d, _, _, hinvoked, _, _, ⟨hcall, rfl⟩ | ⟨call, hcall, rfl⟩⟩ := work_cases h ho
    · rw [hcall, Option.toList_none, List.append_nil] at hinvoked
      exact hnone rfl (uploadsOf_congr hinvoked)
    · rw [hcall, Option.toList_some] at hinvoked
      have hadd := uploadsOf_concat (t := (((s.setDispatch d).setUploads
        (call.upload env os s.uploads)).sendAll call.session fresh
          (call.responses dump s.uploads (call.upload env os s.uploads)))) hinvoked
      cases hhandler : call.handler with
      | testSend =>
        have hdata : call.uploadData = none := by rw [Invocation.uploadData, hhandler]
        refine hnone ?_ fun j => ?_
        · change call.upload env os s.uploads = s.uploads
          rw [Invocation.upload, hhandler]
        · rw [hadd, hdata, Option.toList_none, ite_self, List.append_nil]
      | doUploadFileReq =>
        have hdata : call.uploadData = some call.data := by rw [Invocation.uploadData, hhandler]
        refine ⟨some (call.session, .request os call.data), ?_, fun j => ?_, ?_⟩
        · change some _ = some (call.upload env os s.uploads)
          rw [Invocation.upload, hhandler]
          rfl
        · rw [hadd, hdata, Option.toList_some, Option.toList_some]
          by_cases hj : call.session = j
          · subst hj
            rw [if_pos rfl, requestsOf_request_self]
            rfl
          · rw [if_neg hj, requestsOf_request_of_ne (Ne.symm hj)]
            rfl
        · rintro b ⟨⟩
          exact Or.inr ⟨os, fresh, rfl, call, hcall, hhandler, rfl⟩

/-- What a step does to the files opens those of session `i` if it can. -/
theorem exists_uploads (i : ι) {a : ServiceAction ι} (ho : s.Ordered)
    (hopens : s.OpensFor i a) (h : s.step env dump a = some t) :
    ∃ cs, run (UploadSystem.step env) s.uploads cs = some t.uploads ∧
      (∀ j, t.uploadsOf j = s.uploadsOf j ++ requestsOf j cs) ∧ AllOpen (actionsOf i cs) := by
  obtain ⟨o, hrun, hadd, hstep⟩ := exists_upload ho h
  refine ⟨o.toList, hrun, hadd, ?_⟩
  cases o with
  | none => exact fun _ _ _ hm => absurd hm List.not_mem_nil
  | some b =>
    rw [Option.toList_some]
    rcases hstep b rfl with ⟨j, k, rfl⟩ | ⟨os, fresh, rfl, call, hcall, hhandler, rfl⟩
    · intro u os data hm
      by_cases hji : j = i
      · subst hji
        rw [actionsOf_self] at hm
        simp [actionsOf] at hm
      · rw [actionsOf_of_ne hji] at hm
        exact absurd hm List.not_mem_nil
    · intro u os' data hm
      by_cases hi : call.session = i
      · subst hi
        rw [actionsOf_self] at hm
        simp only [actionsOf, List.filterMap_nil, List.mem_singleton, Prod.mk.injEq,
          UploadAction.request.injEq] at hm
        obtain ⟨_, rfl, _⟩ := hm
        exact hopens call hcall rfl hhandler
      · rw [actionsOf_of_ne hi] at hm
        exact absurd hm List.not_mem_nil

/-- The responses of uploads among what each session has sent are those its requests were
answered with. -/
def Responds (dump : Json → Bytes) (s : Service ι κ) : Prop :=
  ∀ i, (s.sent i).filter (fun m => m.id = .idUploadFileRsp) =
    (s.uploads.sent i).map fun answer => ⟨answer.1, dump answer.2⟩

/-- What a call sends keeps the responses in step with the answers. -/
theorem Responds.call {call : Invocation ι} {os : FsOutcome} {fresh : Nat → Byte} {u : Service ι κ}
    (h : s.Responds dump) (hsent : u.sent = s.sent) :
    ((u.setUploads (call.upload env os s.uploads)).sendAll call.session fresh
      (call.responses dump s.uploads (call.upload env os s.uploads))).Responds dump := by
  intro i
  change ((Function.update u.sent call.session (u.sent call.session ++ _)) i).filter _ =
    ((call.upload env os s.uploads).sent i).map _
  rw [hsent]
  cases hhandler : call.handler with
  | testSend =>
    rw [Invocation.upload, Invocation.responses, hhandler, ← h i]
    by_cases hi : i = call.session
    · rw [hi, Function.update_self, List.filter_append]
      exact List.append_nil _
    · rw [Function.update_of_ne hi]
  | doUploadFileReq =>
    simp only [Invocation.upload, Invocation.responses, hhandler]
    by_cases hi : i = call.session
    · rw [hi, Function.update_self, UploadSystem.sent_put_self, List.filter_append,
        h call.session]
      have hgrows : ∃ answers : List Json, (doUploadFileReq env os call.data
          (s.uploads.session call.session)).sent = s.uploads.sent call.session ++
            answers.map fun respond => (.idUploadFileRsp, respond) := by
        cases hparse : env.parse call.data with
        | none =>
          rw [sent_doUploadFileReq_of_none hparse]
          exact ⟨[], (List.append_nil _).symm⟩
        | some root =>
          obtain ⟨respond, hrespond⟩ :=
            sent_doUploadFileReq_of_some (s := s.uploads.session call.session) hparse
          exact ⟨[respond], hrespond⟩
      obtain ⟨answers, hanswers⟩ := hgrows
      rw [hanswers, List.drop_left, List.map_append]
      congr 1
      refine List.filter_eq_self.mpr fun m hm => ?_
      simp only [List.map_map, List.mem_map, Function.comp_apply] at hm
      obtain ⟨_, _, rfl⟩ := hm
      rfl
    · rw [Function.update_of_ne hi, UploadSystem.sent_put_of_ne _ hi, h i]

/-- One step keeps the responses in step with the answers. -/
theorem Responds.step {a : ServiceAction ι} (hr : s.Responds dump) (ho : s.Ordered)
    (h : s.step env dump a = some t) : t.Responds dump := by
  cases a with
  | arrive j piece | readSome j k | writeSome j l k =>
    obtain ⟨_, h⟩ := Option.ite_none_left_eq_some.mp h
    obtain ⟨_, _, rfl⟩ := Option.map_eq_some_iff.mp h
    exact hr
  | readFail j | writeComplete j l | writeFail j l | wake =>
    obtain ⟨_, _, rfl⟩ := Option.map_eq_some_iff.mp h
    exact hr
  | readComplete j fresh =>
    obtain ⟨_, _, _, _, _, _, _, _, rfl⟩ := readComplete_cases h ho
    exact hr
  | flush j k =>
    cases h
    intro i
    refine (hr i).trans (congrArg (List.map _) ?_)
    by_cases hi : i = j
    · subst hi
      exact (s.uploads.sent_put_self i ((s.uploads.session i).act env (.flush k))).symm
    · exact (s.uploads.sent_put_of_ne hi ((s.uploads.session j).act env (.flush k))).symm
  | work os fresh =>
    obtain ⟨d, _, _, _, _, _, ⟨_, rfl⟩ | ⟨call, _, rfl⟩⟩ := work_cases h ho
    · exact hr
    · exact hr.call rfl

/-- The uploads of a run of the server are a run of the uploads, with the requests that were
handled in their order. -/
theorem uploads_of_run (i : ι) {mem : ι → Nat → Byte} {disk : Disk κ Byte}
    {as : List (ServiceAction ι)} (hopens : Along (step env dump) (OpensFor i) (init mem disk) as)
    (h : run (step env dump) (init mem disk) as = some s) :
    s.Responds dump ∧ ∃ bs, run (UploadSystem.step env) (UploadSystem.init disk) bs =
        some s.uploads ∧ (∀ j, requestsOf j bs = s.uploadsOf j) ∧ AllOpen (actionsOf i bs) := by
  have hinit : (init mem disk : Service ι κ).Ordered ∧ (init mem disk).Responds dump ∧
      (init mem disk : Service ι κ).uploads = UploadSystem.init disk ∧
      (∀ j, requestsOf j [] = (init mem disk : Service ι κ).uploadsOf j) ∧
      AllOpen (actionsOf i ([] : List (ι × UploadAction))) :=
    ⟨ordered_init mem disk, fun _ => rfl, rfl, fun _ => rfl,
      fun _ _ _ hm => absurd hm List.not_mem_nil⟩
  obtain ⟨bs, w, hw, _, hresponds, rfl, hrequests, hall⟩ := exists_run_of_follows
    (UploadSystem.step env) (R := fun _ s bs w => s.Ordered ∧ s.Responds dump ∧ s.uploads = w ∧
      (∀ j, requestsOf j bs = s.uploadsOf j) ∧ AllOpen (actionsOf i bs))
    hinit (by
      rintro as s bs w a t ⟨ho, hr, rfl, hrequests, hall⟩ ha hat
      obtain ⟨cs, hcs, hadd, hall'⟩ := exists_uploads i ho ha hat
      refine ⟨cs, t.uploads, hcs, ho.step hat, hr.step ho hat, rfl, fun j => ?_, ?_⟩
      · rw [requestsOf_append, hrequests, hadd]
      · intro u os data hm
        rw [actionsOf_append] at hm
        exact (List.mem_append.mp hm).elim (hall u os data) (hall' u os data)) hopens h
  exact ⟨hresponds, bs, hw, hrequests, hall⟩

/-- Files that come over the wire are stored. The peer of an open session has sent the
packets of whole uploads, one upload after another, in frames among any others; its file
system calls succeed; the other sessions may send anything, at any length, and may break
off, as long as none of their handled requests names a file of these uploads. Once no step
is left, each of the files holds the last upload made to it, the session's stream is
closed, and each packet has been answered with `E_SUCESS`, in responses the session was
given to send. -/
theorem stored_of_received (env : UploadEnv κ) (dump : Json → Bytes) (r : String)
    (hroot : env.resourceRoot = some r) (hbio : LawfulBioRead env.bioRead) (mem : ι → Nat → Byte)
    (disk : Disk κ Byte) (as : List (ServiceAction ι)) (s : Service ι κ)
    (hrun : run (step env dump) (init mem disk) as = some s) (hquiescent : s.Quiescent env dump)
    (i : ι) (hopen : s.isStop i = false) (fs : List Frame)
    (hreceived : received i as = fs.flatMap Frame.encode)
    (hshort : ∀ f ∈ fs, f.body.length < 2 ^ 31) (plan : List (Upload env))
    (hplan : fs.filterMap Frame.uploadData = plan.flatMap Upload.datas)
    (hopens : Along (step env dump) (OpensFor i) (init mem disk) as)
    (hothers : ∀ j ≠ i, ∀ data ∈ s.uploadsOf j,
      env.Avoids r (fun path => ∃ u ∈ plan, env.file r u.name = path) data) :
    (∀ us u vs, plan = us ++ u :: vs → (∀ v ∈ vs, env.file r v.name ≠ env.file r u.name) →
        s.uploads.disk (env.file r u.name) = u.content) ∧
      s.uploads.outs i = none ∧
      UploadSystem.AnsweredSucess [] (s.uploads.sent i) (plan.flatMap Upload.datas).length ∧
      (s.sent i).filter (fun m => m.id = .idUploadFileRsp) =
        (s.uploads.sent i).map fun answer => ⟨answer.1, dump answer.2⟩ := by
  have ho := ordered_of_run hrun
  obtain ⟨hresponds, bs, hbs, hrequests, hall⟩ := uploads_of_run i hopens hrun
  have hlen : ∀ len, Announces (received i as) len → LengthOk len := by
    intro len hl
    have hwhole : received i as <+: fs.flatMap Frame.encode := by
      simp only [hreceived, List.prefix_rfl]
    obtain ⟨f, hf, rfl⟩ := hl.of_frames hwhole
    refine Or.inl ?_
    rw [BitVec.toNat_ofNat, Nat.mod_eq_of_lt (f.length_lt)]
    exact hshort f hf
  have hreading := reading_of_run hrun hlen
  have hframes : (s.loops i).frames = fs :=
    ((hreceived ▸ hreading.holds).frames_eq (hquiescent.consumed ho hopen hreading)).1
  have hdatas : requestsOf i bs = plan.flatMap Upload.datas := by
    rw [hrequests i, uploadsOf, show callsOf i s.dispatch.invoked = _ from
      (prefix_calls ho hreading).2 (hquiescent.asleep ho).2, uploadData_call, hframes, hplan]
  have hcarries : List.Forall₂ (env.Carries r) (plan.flatMap Upload.datas)
      (plan.flatMap fun u => u.pieces r) := Upload.carries_flatMap plan r
  have hahead : Ahead env r (fun _ path => ∃ u ∈ plan, env.file r u.name = path) (fun _ => none)
      (fun _ => plan.flatMap fun u => u.pieces r) (actionsOf i bs) := by
    refine ⟨fun _ _ hp => absurd hp (Option.some_ne_none _).symm, ?_,
      fun _ => Upload.run_phase plan r, ?_⟩
    · intro _ p hp
      obtain ⟨u, hu, hpu⟩ := List.mem_flatMap.mp hp
      exact ⟨u, hu, (Upload.path_of_mem_pieces hpu).symm⟩
    · intro _
      rw [requestsOf_actionsOf, hdatas]
      exact hcarries
  have htracks : ((UploadSystem.init disk : UploadSystem ι κ).alone i).Tracks (fun _ => none) disk :=
    UploadSystem.tracks_init disk
  obtain ⟨hclosed, hmine, hanswered⟩ := htracks.run_isolated hroot hbio
    (fun _ _ st (hst : none = some st) => absurd hst (Option.some_ne_none st).symm)
    hahead hall (fun j os data hm hji => hothers j hji data (hrequests j ▸ mem_requestsOf hm)) hbs
  refine ⟨?_, hclosed, ?_, hresponds i⟩
  · intro us u vs hsplit hlast
    rw [hmine _ ⟨u, hsplit ▸ List.mem_append_right us List.mem_cons_self, rfl⟩, hsplit]
    exact Upload.foldl_add_of_last hlast disk
  · rwa [← hcarries.length_eq] at hanswered

/-- The only packet of a file `b`, and the first of a file `a` that never gets its second. -/
private def packetsOnTheWire : List (Bytes × Json) :=
  [([2], packetRoot "b" 1 true "eQ=="), ([1], packetRoot "a" 1 false "aGk=")]

private def uploadOnTheWire : Upload (tableEnv packetsOnTheWire) where
  name := "b"
  datas := [[2]]
  parts := [[121]]
  ne_nil := List.cons_ne_nil _ _
  length_eq := rfl
  packet := by
    rintro (_ | k) data d hdata hd
    · cases hdata
      cases hd
      exact ⟨_, reads_packetRoot rfl, rfl, rfl, rfl, by decide +kernel⟩
    · cases hdata

/-- Both packets arrive and are handled, and the peer of the unfinished file is lost. -/
private def onTheWire : List (ServiceAction Bool) :=
  [.arrive true (Frame.encode ⟨.idUploadFileReq, [2], by decide⟩),
    .arrive false (Frame.encode ⟨.idUploadFileReq, [1], by decide⟩),
    .readSome false 6, .readComplete false fun _ => 9, .readSome false 1,
    .readComplete false fun _ => 9, .readSome true 6, .readComplete true fun _ => 9,
    .readSome true 1, .readComplete true fun _ => 9] ++
  List.replicate 13 (.work ⟨some true, true, true⟩ fun _ => 7) ++
  [.readFail false, .writeFail false 0, .writeSome true 0 6, .writeComplete true 0]

theorem stored_of_received_b :
    ∃ s, run (step (tableEnv packetsOnTheWire) fun _ => []) (init (fun _ _ => 7) fun _ => [])
      onTheWire = some s ∧ s.uploads.disk "root/bin/static/b" = [121] := by
  have hrun : (run (step (tableEnv packetsOnTheWire) fun _ => [])
      (init (fun _ _ => 7) fun _ => []) onTheWire).any fun s =>
        s.isStop true = false ∧ s.uploadsOf false = [[1]] ∧ s.dispatch.worker = .asleep ∧
          ∀ i, ((s.loops i).Consumed ∨ (s.loops i).receiver.pending = none) ∧
            (s.senders i).writing = [] := by
    decide +kernel
  obtain ⟨s, hs, hlast⟩ := (Option.any_eq_true _ _).mp hrun
  obtain ⟨hopen, hother, hasleep, hidle⟩ := of_decide_eq_true hlast
  have hopens : Along (step (tableEnv packetsOnTheWire) fun _ => []) (OpensFor true)
      (init (fun _ _ => 7) fun _ => []) onTheWire := by
    refine along_of_mem ?_ _
    intro a ha s
    simp only [onTheWire, List.mem_append, List.mem_cons, List.mem_replicate, List.not_mem_nil,
      or_false] at ha
    rcases ha with (h | ⟨_, rfl⟩) | h
    · rcases h with rfl | rfl | rfl | rfl | rfl | rfl | rfl | rfl | rfl | rfl <;> trivial
    · exact fun _ _ _ _ => ⟨Or.inl rfl, rfl⟩
    · rcases h with rfl | rfl | rfl | rfl <;> trivial
  have hothers : ∀ j ≠ true, ∀ data ∈ s.uploadsOf j, (tableEnv packetsOnTheWire).Avoids "root"
      (fun path => ∃ u ∈ [uploadOnTheWire], (tableEnv packetsOnTheWire).file "root" u.name = path)
      data := by
    rintro j hj data hdata req hreads ⟨u, hu, hpath⟩
    rw [Bool.eq_false_of_not_eq_true hj, hother, List.mem_singleton] at hdata
    subst hdata
    rw [hreads.unique (reads_packetRoot rfl), List.mem_singleton.mp hu] at hpath
    revert hpath
    decide +kernel
  refine ⟨s, hs, (stored_of_received (tableEnv packetsOnTheWire) (fun _ => []) "root" rfl
    lawful_decodingBioRead (fun _ _ => 7) (fun _ => []) onTheWire s hs
    (quiescent_of_idle hasleep hidle) true hopen [⟨.idUploadFileReq, [2], by decide⟩] ?_ ?_
    [uploadOnTheWire] rfl hopens hothers).1 [] uploadOnTheWire [] rfl
    (fun v hv => absurd hv List.not_mem_nil)⟩
  · decide +kernel
  · decide

end Service

end ResourceServer
