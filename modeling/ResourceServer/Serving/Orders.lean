import ResourceServer.Serving.Transfers
import ResourceServer.Uploads.Serial

/-!
# Uploads over the wire in a serial order

Any number of peers send packets of whole uploads, of the same files too, in frames
the network cuts in any way. As long as no handler opens a file under another
session's stream, the files are at every moment what the completed uploads make of
them one after another.
-/

namespace ResourceServer

open FileStream Transition

variable {ι κ : Type} [DecidableEq ι] [DecidableEq κ] {env : UploadEnv κ} {dump : Json → Bytes}
  {r : String}

namespace Service

/-- The side condition on steps: a handler called for an upload can open its file, and opens
none that another stream is on. -/
def OpensFreely (env : UploadEnv κ) (r : String) (s : Service ι κ) : ServiceAction ι → Prop
  | .work os _ => ∀ call ∈ s.dispatch.nextCall, call.handler = .doUploadFileReq →
      os.DirsOk ∧ os.opens = true ∧ OpensFree env r s.uploads (call.session, .request os call.data)
  | _ => True

instance [Fintype ι] (s : Service ι κ) (a : ServiceAction ι) :
    Decidable (OpensFreely env r s a) :=
  match a with
  | .work os _ => inferInstanceAs (Decidable (∀ call ∈ s.dispatch.nextCall,
      call.handler = .doUploadFileReq → os.DirsOk ∧ os.opens = true ∧
        OpensFree env r s.uploads (call.session, .request os call.data)))
  | .arrive _ _ | .readSome _ _ | .readComplete _ _ | .readFail _ | .wake | .flush _ _
  | .writeSome _ _ _ | .writeComplete _ _ | .writeFail _ _ => isTrue trivial

/-- The uploads of a run of the server are a run of the uploads that opens free files only. -/
theorem free_uploads_of_run {mem : ι → Nat → Byte} {disk : Disk κ Byte}
    {as : List (ServiceAction ι)} {s : Service ι κ}
    (hfree : Along (step env dump) (OpensFreely env r) (init mem disk) as)
    (h : run (step env dump) (init mem disk) as = some s) :
    ∃ bs, run (UploadSystem.step env) (UploadSystem.init disk) bs = some s.uploads ∧
      (∀ j, requestsOf j bs = s.uploadsOf j) ∧ AllOpen bs ∧
      Along (UploadSystem.step env) (OpensFree env r) (UploadSystem.init disk) bs := by
  have hrun : ∃ bs w, run (UploadSystem.step env) (UploadSystem.init disk) bs = some w ∧
      (s.Ordered ∧ s.uploads = w ∧ (∀ j, requestsOf j bs = s.uploadsOf j) ∧ AllOpen bs ∧
        run (UploadSystem.step env) (UploadSystem.init disk) bs = some w ∧
        Along (UploadSystem.step env) (OpensFree env r) (UploadSystem.init disk) bs) := by
    refine exists_run_of_follows (UploadSystem.step env) (R := fun _ s bs w =>
      s.Ordered ∧ s.uploads = w ∧ (∀ j, requestsOf j bs = s.uploadsOf j) ∧ AllOpen bs ∧
        run (UploadSystem.step env) (UploadSystem.init disk) bs = some w ∧
        Along (UploadSystem.step env) (OpensFree env r) (UploadSystem.init disk) bs)
      ⟨ordered_init mem disk, rfl, fun _ => rfl, fun _ _ _ hm => absurd hm List.not_mem_nil, rfl,
        trivial⟩ ?_ hfree h
    rintro as s bs w a t ⟨ho, rfl, hrequests, hopen, hbs, halong⟩ ha hat
    obtain ⟨o, ho', hadd, hstep⟩ := exists_upload ho hat
    refine ⟨o.toList, t.uploads, ho', ho.step hat, rfl, fun j => ?_, ?_, ?_, ?_⟩
    · rw [requestsOf_append, hrequests, hadd]
    · intro j os data hm
      rcases List.mem_append.mp hm with hm | hm
      · exact hopen j os data hm
      · obtain ⟨_, _, hb⟩ | ⟨os', fresh, rfl, call, hcall, hhandler, hb⟩ :=
          hstep _ (Option.mem_toList.mp hm)
        · cases hb
        · cases hb
          obtain ⟨hdirs, hopens, _⟩ := ha call hcall hhandler
          exact ⟨hdirs, hopens⟩
    · exact run_append_eq_some.mpr ⟨s.uploads, hbs, ho'⟩
    · refine (along_append hbs).mpr ⟨halong, ?_⟩
      cases o with
      | none => trivial
      | some b =>
        refine ⟨?_, fun _ _ => trivial⟩
        obtain ⟨j, k, rfl⟩ | ⟨os, fresh, rfl, call, hcall, hhandler, rfl⟩ := hstep b rfl
        · trivial
        · exact (ha call hcall hhandler).2.2
  obtain ⟨bs, _, hbs, _, rfl, hrequests, hopen, _, halong⟩ := hrun
  exact ⟨bs, hbs, hrequests, hopen, halong⟩

/-- What a session has been handled is the first of what its peer sends. -/
theorem uploadsOf_initial {mem : ι → Nat → Byte} {disk : Disk κ Byte} {as : List (ServiceAction ι)}
    {s : Service ι κ} (hrun : run (step env dump) (init mem disk) as = some s) {i : ι}
    {fs : List Frame} (hreceived : received i as <+: fs.flatMap Frame.encode)
    (hshort : ∀ f ∈ fs, f.body.length < 2 ^ 31) :
    s.uploadsOf i <+: fs.filterMap Frame.uploadData ∧
      (s.Quiescent env dump → s.isStop i = false → received i as = fs.flatMap Frame.encode →
        s.uploadsOf i = fs.filterMap Frame.uploadData) := by
  have ho := ordered_of_run hrun
  have hlen : ∀ len, Announces (received i as) len → LengthOk len := by
    intro len hl
    obtain ⟨f, hf, rfl⟩ := hl.of_frames hreceived
    refine Or.inl ?_
    rw [BitVec.toNat_ofNat, Nat.mod_eq_of_lt (f.length_lt)]
    exact hshort f hf
  have hreading := reading_of_run hrun hlen
  obtain ⟨hcalls, hall⟩ := prefix_calls ho hreading
  have hframes : (s.loops i).frames <+: fs := by
    obtain ⟨⟨part, hsplit, _⟩, _⟩ := hreading.holds
    rw [hsplit, List.append_assoc] at hreceived
    exact Frame.prefixFree_encode.of_flatMap Frame.encode_ne_nil
      ((List.prefix_append _ _).trans hreceived)
  constructor
  · have hfirst := hcalls.filterMap Invocation.uploadData
    rw [uploadData_call] at hfirst
    exact hfirst.trans (hframes.filterMap Frame.uploadData)
  · intro hquiescent hopen hwhole
    rw [hwhole] at hreading
    have hconsumed : (s.loops i).frames = fs :=
      (hreading.holds.frames_eq (hquiescent.consumed ho hopen hreading)).1
    rw [uploadsOf, show callsOf i s.dispatch.invoked = _ from hall (hquiescent.asleep ho).2,
      uploadData_call, hconsumed]

/-- Uploads over the wire are serialisable as long as no handler opens a file under another
session's stream. Any number of peers have sent packets of whole uploads, of the same files
too, in frames among any others and up to any point; the network cuts them in any way and may
break off any session, and the file system calls succeed. At every moment the completed
uploads have an order that keeps each session's own, every file no stream is on is what they
make of it one after another, a session without a stream has completed all that was handled of
it, and everything handled has been answered with `E_SUCESS`. Once no step is left, an open
session has completed all the uploads its peer has sent. -/
theorem serialisable_of_received (env : UploadEnv κ) (dump : Json → Bytes) (r : String)
    (hroot : env.resourceRoot = some r) (hbio : LawfulBioRead env.bioRead) (mem : ι → Nat → Byte)
    (disk : Disk κ Byte) (as : List (ServiceAction ι)) (s : Service ι κ)
    (hrun : run (step env dump) (init mem disk) as = some s) (fs : ι → List Frame)
    (hreceived : ∀ i, received i as <+: (fs i).flatMap Frame.encode)
    (hshort : ∀ i, ∀ f ∈ fs i, f.body.length < 2 ^ 31) (plan : ι → List (Upload env))
    (hplan : ∀ i, (fs i).filterMap Frame.uploadData = (plan i).flatMap Upload.datas)
    (hfree : Along (step env dump) (OpensFreely env r) (init mem disk) as) :
    ∃ order : List (ι × Upload env),
      (∀ i, inOrderOf i order <+: plan i ∧
        (s.uploads.outs i = none → s.uploadsOf i = (inOrderOf i order).flatMap Upload.datas) ∧
        (s.Quiescent env dump → s.isStop i = false → received i as = (fs i).flatMap Frame.encode →
          s.uploads.outs i = none ∧ inOrderOf i order = plan i)) ∧
      (∀ path, (∀ i, ∀ st ∈ s.uploads.outs i, st.path ≠ path) →
        s.uploads.disk path = serially r disk order path) ∧
      ∀ i, UploadSystem.AnsweredSucess [] (s.uploads.sent i) (s.uploadsOf i).length := by
  obtain ⟨bs, hbs, hrequests, hopen, halong⟩ := free_uploads_of_run hfree hrun
  have hfirst : ∀ i, requestsOf i bs <+: (plan i).flatMap Upload.datas := by
    intro i
    rw [hrequests, ← hplan]
    exact (uploadsOf_initial hrun (hreceived i) (hshort i)).1
  obtain ⟨⟨opened, disk', order, htracks, hserial⟩, hanswered⟩ :=
    UploadSystem.serial_of_run hroot hbio halong hbs hopen hfirst
  obtain ⟨hsessions, hfiles⟩ := htracks.of_serial hserial
  refine ⟨order, fun i => ?_, hfiles, fun i => hrequests i ▸ hanswered i⟩
  obtain ⟨horder, hclosed, hsent⟩ := hsessions i
  refine ⟨horder, hrequests i ▸ hclosed, fun hquiescent hrunning hwhole => hsent ?_⟩
  rw [hrequests, ← hplan]
  exact (uploadsOf_initial hrun (hreceived i) (hshort i)).2 hquiescent hrunning hwhole

/-- The packets of two uploads of a file `c` and of one of a file `d`. -/
private def packetsOfPeers : List (Bytes × Json) :=
  [([13], packetRoot "c" 1 false "dXY="), ([14], packetRoot "c" 2 true "dw=="),
    ([15], packetRoot "d" 1 true "cA=="), ([16], packetRoot "c" 1 true "c3Q=")]

private def earlierOfC : Upload (tableEnv packetsOfPeers) where
  name := "c"
  datas := [[13], [14]]
  parts := [[117, 118], [119]]
  ne_nil := List.cons_ne_nil _ _
  length_eq := rfl
  packet := by
    rintro (_ | _ | k) data d hdata hd
    · cases hdata
      cases hd
      exact ⟨_, reads_packetRoot rfl, rfl, rfl, rfl, by decide +kernel⟩
    · cases hdata
      cases hd
      exact ⟨_, reads_packetRoot rfl, rfl, rfl, rfl, by decide +kernel⟩
    · cases hdata

private def onlyOfD : Upload (tableEnv packetsOfPeers) where
  name := "d"
  datas := [[15]]
  parts := [[112]]
  ne_nil := List.cons_ne_nil _ _
  length_eq := rfl
  packet := by
    rintro (_ | k) data d hdata hd
    · cases hdata
      cases hd
      exact ⟨_, reads_packetRoot rfl, rfl, rfl, rfl, by decide +kernel⟩
    · cases hdata

private def laterOfC : Upload (tableEnv packetsOfPeers) where
  name := "c"
  datas := [[16]]
  parts := [[115, 116]]
  ne_nil := List.cons_ne_nil _ _
  length_eq := rfl
  packet := by
    rintro (_ | k) data d hdata hd
    · cases hdata
      cases hd
      exact ⟨_, reads_packetRoot rfl, rfl, rfl, rfl, by decide +kernel⟩
    · cases hdata

/-- The frames of the two peers. -/
private def framesOfPeer : Bool → List Frame
  | false => [⟨.idUploadFileReq, [13], by decide⟩, ⟨.idUploadFileReq, [14], by decide⟩]
  | true => [⟨.idUploadFileReq, [15], by decide⟩, ⟨.idUploadFileReq, [16], by decide⟩]

private def uploadsOfPeer : Bool → List (Upload (tableEnv packetsOfPeers))
  | false => [earlierOfC]
  | true => [onlyOfD, laterOfC]

/-- The next frame of a peer is read, and two answers to it are written. -/
private def readFrame (i : Bool) : List (ServiceAction Bool) :=
  [.readSome i 6, .readComplete i fun _ => 9, .readSome i 1, .readComplete i fun _ => 9]

private def writeAnswers (i : Bool) : List (ServiceAction Bool) :=
  [.writeSome i 0 6, .writeComplete i 0, .writeSome i 0 6, .writeComplete i 0]

/-- The file `d` is uploaded inside the first upload of `c`, and `c` again behind it. -/
private def twoPeers : List (ServiceAction Bool) :=
  [.arrive false ((framesOfPeer false).flatMap Frame.encode),
    .arrive true ((framesOfPeer true).flatMap Frame.encode)] ++
  readFrame false ++ readFrame true ++ readFrame false ++ readFrame true ++
  List.replicate 23 (.work ⟨some true, true, true⟩ fun _ => 7) ++
  writeAnswers false ++ writeAnswers true

/-- Two peers whose uploads of one file come in turn. -/
theorem serialisable_of_received_two :
    ∃ s, run (step (tableEnv packetsOfPeers) fun _ => []) (init (fun _ _ => 7) fun _ => [])
        twoPeers = some s ∧
      ∃ order : List (Bool × Upload (tableEnv packetsOfPeers)),
        inOrderOf true order = [onlyOfD, laterOfC] ∧ inOrderOf false order = [earlierOfC] ∧
          s.uploads.disk "root/bin/static/c" =
            serially "root" (fun _ => []) order "root/bin/static/c" := by
  have hrun : (run (step (tableEnv packetsOfPeers) fun _ => [])
      (init (fun _ _ => 7) fun _ => []) twoPeers).any fun s =>
        (∀ i, s.isStop i = false) ∧ s.dispatch.worker = .asleep ∧
          ∀ i, ((s.loops i).Consumed ∨ (s.loops i).receiver.pending = none) ∧
            (s.senders i).writing = [] := by
    decide +kernel
  have hfree : Along (step (tableEnv packetsOfPeers) fun _ => [])
      (OpensFreely (tableEnv packetsOfPeers) "root") (init (fun _ _ => 7) fun _ => [])
      twoPeers := by
    decide +kernel
  have hreceived : ∀ i, received i twoPeers = (framesOfPeer i).flatMap Frame.encode := by
    decide +kernel
  obtain ⟨s, hs, hlast⟩ := (Option.any_eq_true _ _).mp hrun
  obtain ⟨hopen, hasleep, hidle⟩ := of_decide_eq_true hlast
  obtain ⟨order, hsessions, hfiles, _⟩ := serialisable_of_received (tableEnv packetsOfPeers)
    (fun _ => []) "root" rfl lawful_decodingBioRead (fun _ _ => 7) (fun _ => []) twoPeers s hs
    framesOfPeer (fun i => hreceived i ▸ List.prefix_rfl)
    (by intro i; cases i <;> decide) uploadsOfPeer (by intro i; cases i <;> rfl) hfree
  have hwhole : ∀ i, s.uploads.outs i = none ∧ inOrderOf i order = uploadsOfPeer i := fun i =>
    (hsessions i).2.2 (quiescent_of_idle hasleep hidle) (hopen i) (hreceived i)
  refine ⟨s, hs, order, (hwhole true).2, (hwhole false).2, hfiles _ fun i st hst => ?_⟩
  rw [(hwhole i).1] at hst
  exact absurd hst (Option.not_mem_none st)

end Service

end ResourceServer
