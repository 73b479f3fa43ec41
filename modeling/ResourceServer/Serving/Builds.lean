import ResourceServer.Core.Relational
import ResourceServer.Native.Service
import ResourceServer.Uploads.Contents

/-!
# The two builds

What `Assert` is given never flows back into the server, so the build with `_DEBUG`
and the one without it take the same steps until an `Assert` fails.
-/

namespace ResourceServer

open FileStream Relational Transition

section Handler

variable {κ : Type}

/-- The states differ in the arguments of `Assert` at most. -/
structure UploadState.Agrees (s t : UploadState κ) : Prop where
  files_eq : s.files = t.files
  sent_eq : s.sent = t.sent
  createdDirs_eq : s.createdDirs = t.createdDirs

/-- An assertion in both leaves states that agree. -/
theorem related_assert (e : Bool) :
    Related (@UploadState.Agrees κ) (assert e) (assert e) :=
  related_modify fun _ _ h => ⟨h.files_eq, h.sent_eq, h.createdDirs_eq⟩

/-- So does the same change of the files. -/
theorem related_onFiles (f : View κ Byte → View κ Byte) :
    Related (@UploadState.Agrees κ) (onFiles f) (onFiles f) :=
  related_modify fun _ _ h => ⟨congrArg f h.files_eq, h.sent_eq, h.createdDirs_eq⟩

variable [DecidableEq κ]

/-- What the body does once the directory is there. -/
theorem related_store (env : UploadEnv κ) (os : FsOutcome) (req : UploadFields) (path : κ) :
    Related UploadState.Agrees (do
      onFiles (openFile os.opens req.seq path)
      assert (← get).files.out.isSome
      let buffer ← base64Decode env.bioRead req.base64Buffer
      onFiles (View.write buffer)
      if req.last then onFiles (View.close 0)
      return successRespond req : UploadM κ Json) (do
      onFiles (openFile os.opens req.seq path)
      assert (← get).files.out.isSome
      let buffer ← base64Decode env.bioRead req.base64Buffer
      onFiles (View.write buffer)
      if req.last then onFiles (View.close 0)
      return successRespond req) := by
  refine (related_onFiles _).bind fun _ => Related.get_bind fun s t hst => ?_
  rw [hst.files_eq]
  refine (related_assert _).bind fun _ => (related_lift _).bind fun buffer =>
    (related_onFiles _).bind fun _ => ?_
  cases req.last with
  | false => exact related_pure _
  | true => exact (related_onFiles _).bind fun _ => related_pure _

/-- The handler's body does not look at the arguments of `Assert`. -/
theorem related_uploadBody (env : UploadEnv κ) (os : FsOutcome) (root : Json) :
    Related UploadState.Agrees (uploadBody env os root) (uploadBody env os root) := by
  unfold uploadBody
  split
  · exact related_pure _
  refine (related_lift _).bind fun req => (related_assert _).bind fun _ => ?_
  refine Related.bind ?_ fun pathPre => Related.bind ?_ fun found => ?_
  · cases env.resourceRoot with
    | none => exact related_throw _
    | some r => exact related_pure r
  · cases os.dirExists with
    | none => exact related_throw _
    | some found => exact related_pure found
  · cases found with
    | true => exact related_store env os req _
    | false =>
      refine Related.bind (related_modify ?_) fun _ => ?_
      · intro s t h
        refine ⟨h.files_eq, h.sent_eq, ?_⟩
        exact congrArg
          (· ++ [parentPath env.paths (resourcePath env.paths pathPre req.filename)]) h.createdDirs_eq
      · cases os.createDirectories with
        | true => exact related_store env os req _
        | false => exact (related_throw _).bind fun _ => related_store env os req _

/-- A request does not look at the arguments of `Assert`. -/
theorem UploadState.Agrees.request {s t : UploadState κ} (h : s.Agrees t) (env : UploadEnv κ)
    (os : FsOutcome) (data : Bytes) :
    (doUploadFileReq env os data s).Agrees (doUploadFileReq env os data t) := by
  unfold doUploadFileReq
  cases env.parse data with
  | none => exact ⟨h.files_eq, h.sent_eq, h.createdDirs_eq⟩
  | some root =>
    obtain ⟨hresult, hfiles, hsent, hdirs⟩ := related_uploadBody env os root s t h
    cases hs : (uploadBody env os root).run s with
    | mk result s' =>
      cases ht : (uploadBody env os root).run t with
      | mk result' t' =>
        rw [hs, ht] at hresult hfiles hsent hdirs
        obtain rfl : result = result' := hresult
        simp only [hs, ht]
        cases result with
        | ok respond =>
          refine ⟨hfiles, ?_, hdirs⟩
          exact congrArg (· ++ [(ReqId.idUploadFileRsp, respond)]) hsent
        | error e =>
          refine ⟨hfiles, ?_, hdirs⟩
          exact congrArg (· ++ [(ReqId.idUploadFileRsp, Json.null)]) hsent

/-- No action of a session looks at the arguments of `Assert`. -/
theorem UploadState.Agrees.act {s t : UploadState κ} (h : s.Agrees t) (env : UploadEnv κ)
    (a : UploadAction) : (s.act env a).Agrees (t.act env a) := by
  cases a with
  | request os data => exact h.request env os data
  | flush k => exact ⟨congrArg (View.flush 0 k) h.files_eq, h.sent_eq, h.createdDirs_eq⟩

end Handler

variable {ι κ : Type}

/-- The systems differ in the arguments of `Assert` at most. -/
structure UploadSystem.Agrees (w w' : UploadSystem ι κ) : Prop where
  disk_eq : w.disk = w'.disk
  outs_eq : w.outs = w'.outs
  sent_eq : w.sent = w'.sent
  createdDirs_eq : w.createdDirs = w'.createdDirs

/-- The step of the build without `_DEBUG`; a handler allocates memory of content `fresh`. -/
def DebugAction.release (fresh : Nat → Byte) : DebugAction ι → ServiceAction ι
  | .receive i (.arrive piece) => .arrive i piece
  | .receive i (.readSome k) => .readSome i k
  | .receive i (.complete mem) => .readComplete i mem
  | .receive i .fail => .readFail i
  | .work os => .work os fresh
  | .wake => .wake
  | .flush i k => .flush i k

/-- The step of the build with `_DEBUG`, whose writes are left out. -/
def ServiceAction.debug : ServiceAction ι → Option (DebugAction ι)
  | .arrive i piece => some (.receive i (.arrive piece))
  | .readSome i k => some (.receive i (.readSome k))
  | .readComplete i fresh => some (.receive i (.complete fresh))
  | .readFail i => some (.receive i .fail)
  | .work os _ => some (.work os)
  | .wake => some .wake
  | .flush i k => some (.flush i k)
  | .writeSome _ _ _ | .writeComplete _ _ | .writeFail _ _ => none

/-- What a step is in the other build it is there and back. -/
theorem ServiceAction.exists_release {b : ServiceAction ι} {a : DebugAction ι}
    (h : b.debug = some a) : ∃ fresh, b = a.release fresh := by
  cases b with
  | arrive | readSome | readComplete | readFail | wake | flush =>
    cases h
    exact ⟨default, rfl⟩
  | work os fresh =>
    cases h
    exact ⟨fresh, rfl⟩
  | writeSome | writeComplete | writeFail => simp only [debug, reduceCtorEq] at h

/-- The two builds are at the same point, with no session closed. -/
structure DebugServer.Matches (d : DebugServer ι κ) (s : Service ι κ) : Prop where
  loops_eq : d.loops = s.loops
  dispatch_eq : d.dispatch = s.dispatch
  uploads : d.uploads.Agrees s.uploads
  running : ∀ i, s.isStop i = false

variable [DecidableEq ι] [DecidableEq κ]

omit [DecidableEq ι] [DecidableEq κ] in
/-- The sessions of agreeing systems agree. -/
theorem UploadSystem.Agrees.session {w w' : UploadSystem ι κ} (h : w.Agrees w') (i : ι) :
    (w.session i).Agrees (w'.session i) := by
  refine ⟨?_, congrFun h.sent_eq i, h.createdDirs_eq⟩
  simp only [UploadSystem.session, UploadSystem.view, h.disk_eq, h.outs_eq]

omit [DecidableEq κ] in
/-- Putting agreeing sessions back keeps systems agreeing. -/
theorem UploadSystem.Agrees.put {w w' : UploadSystem ι κ} (h : w.Agrees w') (i : ι)
    {s t : UploadState κ} (hs : s.Agrees t) : (w.put i s).Agrees (w'.put i t) := by
  refine ⟨congrArg View.disk hs.files_eq, ?_, ?_, hs.createdDirs_eq⟩
  · simp only [UploadSystem.put, h.outs_eq, hs.files_eq]
  · simp only [UploadSystem.put, h.sent_eq, hs.sent_eq]

/-- A call leaves agreeing systems agreeing. -/
theorem UploadSystem.Agrees.upload {w w' : UploadSystem ι κ} (h : w.Agrees w')
    (env : UploadEnv κ) (os : FsOutcome) (call : Invocation ι) :
    (call.upload env os w).Agrees (call.upload env os w') := by
  unfold Invocation.upload
  cases call.handler with
  | testSend => exact h
  | doUploadFileReq => exact h.put call.session ((h.session call.session).request env os call.data)

namespace DebugServer.Matches

variable {env : UploadEnv κ} {dump : Json → Bytes} {d : DebugServer ι κ} {s : Service ι κ}

omit [DecidableEq κ] in
/-- A read that completes does the same in both builds unless one of its `Assert`s fails. -/
theorem readComplete (h : d.Matches s) (i : ι) (fresh : Nat → Byte)
    (hok : ¬ (d.assert (d.loops i).receiver.asserts).Failed) :
    Option.Rel Matches (d.readComplete i fresh) (s.readComplete i fresh) := by
  unfold DebugServer.readComplete Service.readComplete
  rw [h.loops_eq] at hok ⊢
  cases hc : (s.loops i).receiver.complete fresh with
  | none =>
    simp only [hc, Option.bind_none]
    exact .none
  | some c =>
    obtain ⟨r, node⟩ := c
    simp only [hc, Option.bind_some, if_neg hok, h.dispatch_eq]
    refine rel_map _ fun e _ => ⟨?_, rfl, ?_, h.running⟩
    · rfl
    · exact ⟨h.uploads.disk_eq, h.uploads.outs_eq, h.uploads.sent_eq, h.uploads.createdDirs_eq⟩

variable (env dump) in
/-- Every other step but an error does the same in both builds. -/
theorem act (h : d.Matches s) (fresh : Nat → Byte) (a : DebugAction ι)
    (hfail : ∀ i, a ≠ .receive i .fail)
    (hok : ∀ i mem, a = .receive i (.complete mem) →
      ¬ (d.assert (d.loops i).receiver.asserts).Failed) :
    Option.Rel Matches (d.act env a) (s.step env dump (a.release fresh)) := by
  cases a with
  | receive i a =>
    cases a with
    | arrive piece =>
      simp only [DebugServer.act, DebugAction.release, Service.step, h.running i, h.loops_eq,
        Bool.false_eq_true, if_false]
      exact rel_map _ fun l _ => ⟨rfl, h.dispatch_eq, h.uploads, h.running⟩
    | readSome k =>
      simp only [DebugServer.act, DebugAction.release, Service.step, h.running i, h.loops_eq,
        Bool.false_eq_true, if_false]
      exact rel_map _ fun l _ => ⟨rfl, h.dispatch_eq, h.uploads, h.running⟩
    | complete mem => exact h.readComplete i mem (hok i mem rfl)
    | fail => exact absurd rfl (hfail i)
  | work os =>
    simp only [DebugServer.act, DebugAction.release, Service.step, DebugServer.work, Service.work,
      h.dispatch_eq]
    refine rel_map _ fun e _ => ?_
    cases s.dispatch.nextCall with
    | none => exact ⟨h.loops_eq, rfl, h.uploads, h.running⟩
    | some call => exact ⟨h.loops_eq, rfl, h.uploads.upload env os call, h.running⟩
  | wake =>
    simp only [DebugServer.act, DebugAction.release, Service.step, h.dispatch_eq]
    exact rel_map _ fun e _ => ⟨h.loops_eq, rfl, h.uploads, h.running⟩
  | flush i k =>
    refine .some ⟨h.loops_eq, h.dispatch_eq, ?_, h.running⟩
    exact h.uploads.put i ((h.uploads.session i).act env (.flush k))

omit [DecidableEq κ] in
/-- A completed read whose assertions do not all hold ends the process. -/
theorem failed_of_readComplete {d d' : DebugServer ι κ} {i : ι} {fresh : Nat → Byte}
    (hbad : (d.assert (d.loops i).receiver.asserts).Failed)
    (hs : d.readComplete i fresh = some d') : d'.Failed := by
  obtain ⟨⟨r, node⟩, _, hs⟩ := Option.bind_eq_some_iff.mp hs
  simp only [if_pos hbad] at hs
  cases hs
  exact hbad

omit [DecidableEq κ] in
/-- Where an assertion fails behind a read, the debug build has failed. -/
theorem exists_failed {d : DebugServer ι κ} {s s' : Service ι κ} (h : d.Matches s) {i : ι}
    {fresh : Nat → Byte} (hbad : (d.assert (d.loops i).receiver.asserts).Failed)
    (hs : s.readComplete i fresh = some s') :
    ∃ d', d.readComplete i fresh = some d' ∧ d'.Failed := by
  obtain ⟨⟨r, node⟩, hc, _⟩ := Option.bind_eq_some_iff.mp hs
  refine ⟨d.assert (d.loops i).receiver.asserts, ?_, hbad⟩
  rw [← h.loops_eq] at hc
  simp only [DebugServer.readComplete, hc, Option.bind_some, if_pos hbad]

end DebugServer.Matches

namespace DebugServer

variable {env : UploadEnv κ} {dump : Json → Bytes}

/-- A step of the build with `_DEBUG` fails an `Assert`, or is a step of the other one. -/
theorem Matches.release_step {d d' : DebugServer ι κ} {s : Service ι κ} (h : d.Matches s)
    (dump : Json → Bytes) (fresh : Nat → Byte) {a : DebugAction ι} (hfail : ∀ i, a ≠ .receive i .fail)
    (hs : d.step env a = some d') :
    d'.Failed ∨ ∃ s', s.step env dump (a.release fresh) = some s' ∧ d'.Matches s' := by
  obtain ⟨_, hs⟩ := Option.ite_none_left_eq_some.mp hs
  by_cases hbad : ∃ i mem, a = .receive i (.complete mem) ∧
      (d.assert (d.loops i).receiver.asserts).Failed
  · obtain ⟨i, mem, rfl, hbad⟩ := hbad
    exact Or.inl (Matches.failed_of_readComplete hbad hs)
  · have hrel := h.act env dump fresh a hfail fun i mem ha hf =>
      hbad ⟨i, mem, ha, hf⟩
    obtain ⟨s', hs', hmatches⟩ := (exists_of_rel hrel).1 d' hs
    exact Or.inr ⟨s', hs', hmatches⟩

/-- A step of the build without `_DEBUG` is a step of the other one, which may fail an `Assert`. -/
theorem Matches.step_of_release {d : DebugServer ι κ} {s s' : Service ι κ} (h : d.Matches s)
    (hok : ¬ d.Failed) {fresh : Nat → Byte} {a : DebugAction ι} (hfail : ∀ i, a ≠ .receive i .fail)
    (hs : s.step env dump (a.release fresh) = some s') :
    ∃ d', d.step env a = some d' ∧ (d'.Failed ∨ d'.Matches s') := by
  rw [DebugServer.step, if_neg hok]
  by_cases hbad : ∃ i mem, a = .receive i (.complete mem) ∧
      (d.assert (d.loops i).receiver.asserts).Failed
  · obtain ⟨i, mem, rfl, hbad⟩ := hbad
    obtain ⟨d', hd', hfailed⟩ := h.exists_failed hbad hs
    exact ⟨d', hd', Or.inl hfailed⟩
  · have hrel := h.act env dump fresh a hfail fun i mem ha hf =>
      hbad ⟨i, mem, ha, hf⟩
    obtain ⟨d', hd', hmatches⟩ := (exists_of_rel hrel).2 s' hs
    exact ⟨d', hd', Or.inr hmatches⟩

/-- So is every step but those of a write, which the other one does not see, and errors. -/
theorem Matches.debug_step {d : DebugServer ι κ} {s s' : Service ι κ} (h : d.Matches s)
    (hok : ¬ d.Failed) {b : ServiceAction ι} (hfail : ¬ b.Fails)
    (hs : s.step env dump b = some s') :
    (b.debug = none ∧ d.Matches s') ∨ ∃ a d', b.debug = some a ∧ d.step env a = some d' ∧
      (d'.Failed ∨ d'.Matches s') := by
  cases hb : b.debug with
  | some a =>
    obtain ⟨fresh, rfl⟩ := ServiceAction.exists_release hb
    have hne : ∀ i, a ≠ .receive i .fail := by
      rintro i rfl
      exact hfail trivial
    obtain ⟨d', hd', hmatches⟩ := h.step_of_release hok hne hs
    exact Or.inr ⟨a, d', rfl, hd', hmatches⟩
  | none =>
    refine Or.inl ⟨rfl, ?_⟩
    cases b with
    | arrive | readSome | readComplete | readFail | work | wake | flush =>
      simp only [ServiceAction.debug, reduceCtorEq] at hb
    | writeFail => exact absurd trivial hfail
    | writeSome i j k =>
      obtain ⟨_, hs⟩ := Option.ite_none_left_eq_some.mp hs
      obtain ⟨_, _, rfl⟩ := Option.map_eq_some_iff.mp hs
      exact ⟨h.loops_eq, h.dispatch_eq, h.uploads, h.running⟩
    | writeComplete i j =>
      obtain ⟨_, _, rfl⟩ := Option.map_eq_some_iff.mp hs
      exact ⟨h.loops_eq, h.dispatch_eq, h.uploads, h.running⟩

omit [DecidableEq ι] [DecidableEq κ] in
/-- The two builds start alike. -/
theorem matches_init (mem : ι → Nat → Byte) (disk : Disk κ Byte) :
    (init mem disk).Matches (Service.init mem disk) :=
  ⟨rfl, rfl, ⟨rfl, rfl, rfl, rfl⟩, fun _ => rfl⟩

/-- The two builds agree until an `Assert` fails. While the network has no error, every run of
the build with `_DEBUG` in which no `Assert` fails is a run of the build without it, with the
same received, posted and handled messages, the same files and streams and the same responses.
And every run of the build without `_DEBUG`, its writes left out, is such a run of the other
one, or has an initial part that is one in which an `Assert` fails. -/
theorem builds_agree (env : UploadEnv κ) (dump : Json → Bytes) (mem : ι → Nat → Byte)
    (disk : Disk κ Byte) :
    (∀ as d, (∀ i, DebugAction.receive i .fail ∉ as) → run (step env) (init mem disk) as = some d →
        ¬ d.Failed → ∀ fresh, ∃ s, run (Service.step env dump) (Service.init mem disk)
          (as.map (DebugAction.release fresh)) = some s ∧ d.Matches s) ∧
      ∀ bs s, (∀ b ∈ bs, ¬ b.Fails) →
        run (Service.step env dump) (Service.init mem disk) bs = some s →
        ∃ as d, as <+: bs.filterMap ServiceAction.debug ∧
          run (step env) (init mem disk) as = some d ∧
          (d.Failed ∨ as = bs.filterMap ServiceAction.debug ∧ d.Matches s) := by
  constructor
  · intro as d hfail hrun hok fresh
    have hnone : ∀ a ∈ as, ∀ i, a ≠ DebugAction.receive i .fail := by
      rintro a ha i rfl
      exact hfail i ha
    have hboth := run_history_along (C := fun _ a => ∀ i, a ≠ DebugAction.receive i .fail)
      (P := fun as d => d.Failed ∨ ∃ s, run (Service.step env dump) (Service.init mem disk)
        (as.map (DebugAction.release fresh)) = some s ∧ d.Matches s)
      (Or.inr ⟨_, rfl, matches_init mem disk⟩) ?_
      (along_of_mem (fun a ha _ => hnone a ha) _) hrun
    · exact hboth.resolve_left hok
    · rintro as d a d' hd hne hstep
      obtain ⟨hok, _⟩ := Option.ite_none_left_eq_some.mp hstep
      obtain ⟨s, hs, hmatches⟩ := hd.resolve_left hok
      rcases hmatches.release_step dump fresh hne hstep with hbad | ⟨s', hs', hmatches'⟩
      · exact Or.inl hbad
      · rw [List.map_append]
        exact Or.inr ⟨s', run_snoc_eq_some.mpr ⟨s, hs, hs'⟩, hmatches'⟩
  · intro bs s hfail hrun
    refine run_history_along (C := fun _ b => ¬ ServiceAction.Fails b)
      (P := fun bs s => ∃ as d, as <+: bs.filterMap ServiceAction.debug ∧
        run (step env) (init mem disk) as = some d ∧
        (d.Failed ∨ as = bs.filterMap ServiceAction.debug ∧ d.Matches s))
      ⟨[], _, List.prefix_rfl, rfl, Or.inr ⟨rfl, matches_init mem disk⟩⟩ ?_
      (along_of_mem (fun b hb _ => hfail b hb) _) hrun
    rintro bs s b s' ⟨as, d, hprefix, hd, hcase⟩ hb hstep
    rw [List.filterMap_append]
    by_cases hok : d.Failed
    · exact ⟨as, d, hprefix.trans (List.prefix_append _ _), hd, Or.inl hok⟩
    · obtain ⟨rfl, hmatches⟩ := hcase.resolve_left hok
      rcases hmatches.debug_step hok hb hstep with ⟨hnone, hsame⟩ | ⟨a, d', hsome, hd', hnext⟩
      · rw [List.filterMap_cons_none hnone, List.filterMap_nil, List.append_nil]
        exact ⟨_, d, List.prefix_rfl, hd, Or.inr ⟨rfl, hsame⟩⟩
      · rw [List.filterMap_cons_some hsome, List.filterMap_nil]
        exact ⟨_, d', List.prefix_rfl, run_snoc_eq_some.mpr ⟨d, hd, hd'⟩,
          hnext.imp_right fun hsame => ⟨rfl, hsame⟩⟩

/-- A test message that is received and handled. -/
private def oneHandled : List (DebugAction Bool) :=
  [.receive true (.arrive [3, 233, 0, 0, 0, 1, 104]), .receive true (.readSome 6),
    .receive true (.complete fun _ => 9), .receive true (.readSome 1),
    .receive true (.complete fun _ => 9)] ++ List.replicate 6 (.work ⟨none, false, false⟩)

/-- One message is handled alike in both builds. -/
theorem builds_agree_handled :
    ∃ d s, run (step (tableEnv [])) (init (fun _ _ => 7) fun _ => []) oneHandled = some d ∧
      d.dispatch.invoked.length = 1 ∧
      run (Service.step (tableEnv []) fun _ => []) (Service.init (fun _ _ => 7) fun _ => [])
        (oneHandled.map (DebugAction.release fun _ => 5)) = some s ∧ d.Matches s := by
  have hrun : (run (step (tableEnv [])) (init (fun _ _ => 7) fun _ => []) oneHandled).any
      fun d => d.dispatch.invoked.length = 1 ∧ ¬ d.Failed := by
    decide +kernel
  have hfail : ∀ i, DebugAction.receive i .fail ∉ oneHandled := by simp [oneHandled]
  obtain ⟨d, hd, hlast⟩ := (Option.any_eq_true _ _).mp hrun
  obtain ⟨hcalled, hok⟩ := of_decide_eq_true hlast
  obtain ⟨s, hs, hmatches⟩ := (builds_agree (tableEnv []) (fun _ => []) (fun _ _ => 7)
    fun _ => []).1 oneHandled d hfail hd hok fun _ => 5
  exact ⟨d, s, hd, hcalled, hs, hmatches⟩

end DebugServer

end ResourceServer
