import ResourceServer.Uploads.Contents

/-!
# Requests that fail

The response is sent by a destructor, and so by every way out behind its
construction; a body that does not parse leaves before. The file is opened, and
emptied by a first packet, before the data is decoded, so that a text `BIO_read`
refuses leaves an opened stream behind.
-/

namespace ResourceServer

open FileStream Memory

variable {κ : Type} [DecidableEq κ] {env : UploadEnv κ} {os : FsOutcome} {data : Bytes}
  {s : UploadState κ}

/-- The body of the handler sends nothing itself. -/
theorem sent_run_uploadBody (env : UploadEnv κ) (os : FsOutcome) (root : Json)
    (s : UploadState κ) : ((uploadBody env os root).run s).2.sent = s.sent := by
  rcases uploadBody_cases env os root s with ⟨_, hrun⟩ | ⟨_, e, t, hrun, _, hsent, _⟩ |
    ⟨req, r, e, _, _, _, _, hrun⟩ | ⟨req, r, buffer, hreq, hroot, hdirs, hdec⟩
  · rw [hrun]
  · rw [hrun]
    exact hsent
  · simp only [hrun, UploadEnv.opened]
  · simp only [run_uploadBody_of_decode hreq hroot hdirs hdec, UploadEnv.opened]

/-- A body that parses is answered, with the response the handler left. -/
theorem sent_doUploadFileReq_of_some {root : Json} (hparse : env.parse data = some root) :
    ∃ respond, (doUploadFileReq env os data s).sent =
      s.sent ++ [(.idUploadFileRsp, respond)] := by
  have hsent := sent_run_uploadBody env os root s
  rw [doUploadFileReq, hparse]
  cases hrun : (uploadBody env os root).run s with
  | mk result t =>
    have ht : t.sent = s.sent := by simpa only [hrun] using hsent
    cases result with
    | ok respond => exact ⟨respond, by simp [hrun, UploadState.send, ht]⟩
    | error e => exact ⟨.null, by simp [hrun, UploadState.send, ht]⟩

/-- A body that does not parse is not answered. -/
theorem sent_doUploadFileReq_of_none (hparse : env.parse data = none) :
    (doUploadFileReq env os data s).sent = s.sent := by
  simp [doUploadFileReq, hparse]

/-- A request is answered exactly once if its body parses, whatever it holds and
whatever the file operations do, and otherwise not at all. -/
theorem answered_once_iff_parse (env : UploadEnv κ) (os : FsOutcome) (data : Bytes)
    (s : UploadState κ) :
    (∃ respond, (doUploadFileReq env os data s).sent =
      s.sent ++ [(.idUploadFileRsp, respond)]) ↔ (env.parse data).isSome = true := by
  cases hparse : env.parse data with
  | none => simp [sent_doUploadFileReq_of_none hparse]
  | some root => simpa using sent_doUploadFileReq_of_some hparse

/-- An opening brace alone is no JSON text, and is not answered. -/
theorem not_answered :
    ¬ ∃ respond, (doUploadFileReq (tableEnv []) ⟨some true, true, true⟩ [123]
        (UploadState.init fun _ => [])).sent = [(.idUploadFileRsp, respond)] := by
  rintro ⟨respond, h⟩
  have hnone : (tableEnv []).parse [123] = none := rfl
  rw [sent_doUploadFileReq_of_none hnone] at h
  simp [UploadState.init] at h

/-! ## Assertions -/

/-- A request whose body is a null, or whose fields convert and whose file opens and
data decodes. -/
def UploadEnv.Accepts (env : UploadEnv κ) (os : FsOutcome) (data : Bytes) (s : UploadState κ) :
    Prop :=
  (∃ root, env.parse data = some root ∧ root.isNull = true) ∨
    ∃ req, env.Reads data req ∧ os.DirsOk ∧ (s.files.out.isSome = true ∨ os.opens = true) ∧
      0 ≤ (env.bioRead (cString 0 req.text) req.text.length).1

omit [DecidableEq κ] in
/-- What is left to ask of a request whose fields convert and whose directory is there. -/
theorem UploadEnv.Reads.accepts_iff {req : UploadFields} (h : env.Reads data req)
    (hdirs : os.DirsOk) :
    env.Accepts os data s ↔ (s.files.out.isSome = true ∨ os.opens = true) ∧
      0 ≤ (env.bioRead (cString 0 req.text) req.text.length).1 := by
  constructor
  · rintro (⟨root, hparse, hnull⟩ | ⟨req', h', _, hopens, hpos⟩)
    · obtain ⟨root', hparse', hreq⟩ := h
      cases hparse.symm.trans hparse'
      rw [isNull_of_uploadFields hreq] at hnull
      contradiction
    · rw [h.unique h']
      exact ⟨hopens, hpos⟩
  · exact fun ⟨hopens, hpos⟩ => Or.inr ⟨req, h, hdirs, hopens, hpos⟩

/-- The stream is open behind `openFile` if it was open or the file opens. -/
theorem isSome_out_openFile (opens : Bool) (seq : BitVec 64) (path : κ) (v : View κ Byte) :
    (openFile opens seq path v).out.isSome = true ↔ v.out.isSome = true ∨ opens = true := by
  cases hout : v.out with
  | some st => simp [openFile_of_some _ _ _ hout, hout]
  | none =>
    cases opens with
    | false => simp [openFile_of_refused, hout]
    | true =>
      rw [openFile_of_none _ _ hout]
      by_cases hseq : seq = 1 <;> simp [hseq, View.openOn]

/-- A request keeps clear of a failed assertion exactly when it is one of these. -/
theorem asserts_doUploadFileReq_iff_accepts {r : String} (hroot : env.resourceRoot = some r)
    (hs : false ∉ s.asserts) :
    false ∉ (doUploadFileReq env os data s).asserts ↔ env.Accepts os data s := by
  cases hparse : env.parse data with
  | none => simp [doUploadFileReq, hparse, UploadEnv.Accepts, UploadEnv.Reads]
  | some root =>
    rcases uploadBody_cases env os root s with ⟨hnull, hrun⟩ | ⟨⟨hnull, hearly⟩, e, t, hrun, _⟩ |
      ⟨req, r', e, hreq, hroot', hdirs, hdec, hrun⟩ |
      ⟨req, r', buffer, hreq, hroot', hdirs, hdec⟩
    · refine iff_of_true ?_ (Or.inl ⟨root, hparse, hnull⟩)
      simpa [doUploadFileReq, hparse, hrun, UploadState.send] using hs
    · apply iff_of_false
      · simp [doUploadFileReq, hparse, hrun]
      · rintro (⟨root', hparse', hnull'⟩ | ⟨req, ⟨root', hparse', hreq⟩, hdirs, _⟩)
        · cases hparse.symm.trans hparse'
          exact absurd (hnull.symm.trans hnull') Bool.false_ne_true
        · cases hparse.symm.trans hparse'
          exact hearly ⟨req, r, hreq, hroot, hdirs⟩
    · rw [UploadEnv.Reads.accepts_iff ⟨root, hparse, hreq⟩ hdirs]
      apply iff_of_false
      · simp [doUploadFileReq, hparse, hrun]
      · rintro ⟨_, hpos⟩
        obtain ⟨buffer, hok⟩ := base64Decode_eq_ok_iff.mpr hpos
        rw [hdec] at hok
        contradiction
    · rw [UploadEnv.Reads.accepts_iff ⟨root, hparse, hreq⟩ hdirs,
        and_iff_left (base64Decode_eq_ok_iff.mp ⟨buffer, hdec⟩)]
      have hhandles : env.Handles os data req r' buffer :=
        ⟨⟨root, hparse, hreq⟩, hroot', hdirs, hdec⟩
      rw [hhandles.eq, ← isSome_out_openFile os.opens req.seq (env.file r' req.filename)]
      simp [UploadState.send, UploadEnv.opened, hs, Option.isSome_iff_ne_none]

/-- The handler is left through one of its catch clauses. -/
def Throws (env : UploadEnv κ) (os : FsOutcome) (data : Bytes) (s : UploadState κ) : Prop :=
  env.parse data = none ∨
    ∃ root e t, env.parse data = some root ∧ (uploadBody env os root).run s = (.error e, t)

/-- A well-formed request, with its directory there, opens the closed stream for a
text that `BIO_read` refuses. -/
def OpensForRefused (env : UploadEnv κ) (os : FsOutcome) (data : Bytes) (s : UploadState κ) :
    Prop :=
  (s.files.out = none ∧ os.opens = true) ∧ ∃ req r, env.Reads data req ∧
    env.resourceRoot = some r ∧ os.DirsOk ∧
      (env.bioRead (cString 0 req.text) req.text.length).1 < 0

/-- A request that is handled to its end does not throw. -/
theorem UploadEnv.Handles.not_throws {req : UploadFields} {r : String} {buffer : Bytes}
    (h : env.Handles os data req r buffer) : ¬ Throws env os data s := by
  obtain ⟨root, hparse, hreq⟩ := h.reads
  rintro (hnone | ⟨root', e, t, hparse', hrun⟩)
  · rw [hparse] at hnone
    contradiction
  · cases hparse.symm.trans hparse'
    rw [run_uploadBody_of_decode hreq h.root h.dirs h.decode, Prod.mk.injEq] at hrun
    cases hrun.1

/-- A refused text throws with its file opened. -/
theorem OpensForRefused.throws (h : OpensForRefused env os data s) :
    Throws env os data s ∧ (doUploadFileReq env os data s).files.out.isSome = true := by
  obtain ⟨⟨hclosed, hopens⟩, req, r, ⟨root, hparse, hreq⟩, hroot, hdirs, hneg⟩ := h
  have hdec : ∃ e, base64Decode env.bioRead req.base64Buffer = .error e := by
    cases hdec : base64Decode env.bioRead req.base64Buffer with
    | error e => exact ⟨e, rfl⟩
    | ok buffer => exact absurd (base64Decode_eq_ok_iff.mp ⟨buffer, hdec⟩) (not_le.mpr hneg)
  obtain ⟨e, hdec⟩ := hdec
  have hrun := run_uploadBody_of_refused (s := s) hreq hroot hdirs hdec
  refine ⟨Or.inr ⟨root, e, _, hparse, hrun⟩, ?_⟩
  rw [(doUploadFileReq_of_error hparse hrun).1]
  simp [UploadEnv.opened, hopens, openFile_of_none _ _ hclosed, View.openOn]

/-- A request that throws leaves the files and the stream as they were exactly when it
does not open its file for a text that is refused. -/
theorem untouched_iff_not_opensForRefused (env : UploadEnv κ) (os : FsOutcome) (data : Bytes)
    (s : UploadState κ) :
    (Throws env os data s → (doUploadFileReq env os data s).files = s.files) ↔
      ¬ OpensForRefused env os data s := by
  constructor
  · intro h hopens
    obtain ⟨hthrows, hout⟩ := hopens.throws
    rw [h hthrows, hopens.1.1] at hout
    contradiction
  · intro h hthrows
    rcases doUploadFileReq_cases env os data s with
      ⟨hfiles, _⟩ | ⟨req, r, e, hreads, hroot, hdirs, hdec, hfiles, _⟩ |
      ⟨req, r, buffer, hhandles⟩
    · exact hfiles
    · have hneg : (env.bioRead (cString 0 req.text) req.text.length).1 < 0 := by
        by_contra hpos
        obtain ⟨buffer, hok⟩ := base64Decode_eq_ok_iff.mpr (not_lt.mp hpos)
        rw [hdec] at hok
        contradiction
      rw [hfiles]
      cases hout : s.files.out with
      | some st => exact openFile_of_some _ _ _ hout
      | none =>
        have hrefused : os.opens = false := by
          by_contra hopens
          exact h ⟨⟨hout, by simpa using hopens⟩, req, r, hreads, hroot, hdirs, hneg⟩
        rw [hrefused, openFile_of_refused]
    · exact absurd hthrows hhandles.not_throws

/-- A first packet whose text stops within its first group. -/
private def refusedPacket : List (Bytes × Json) := [([3], packetRoot "c" 1 false "a")]

/-- The packet throws, the file that held something is empty, and the stream is left open. -/
theorem not_untouched :
    Throws (tableEnv refusedPacket) ⟨some true, true, true⟩ [3] (UploadState.init fun _ => [7]) ∧
      (doUploadFileReq (tableEnv refusedPacket) ⟨some true, true, true⟩ [3]
        (UploadState.init fun _ => [7])).files.disk "root/bin/static/c" = [] ∧
      (doUploadFileReq (tableEnv refusedPacket) ⟨some true, true, true⟩ [3]
        (UploadState.init fun _ => [7])).files.out.isSome = true := by
  have hneg : (decodingBioRead (cString 0 "a".toUTF8.toList) "a".toUTF8.toList.length).1 < 0 := by
    decide +kernel
  have hopens : OpensForRefused (tableEnv refusedPacket) ⟨some true, true, true⟩ [3]
      (UploadState.init fun _ => [7]) :=
    ⟨⟨rfl, rfl⟩, _, "root", reads_packetRoot rfl, rfl, Or.inl rfl, hneg⟩
  obtain ⟨hthrows, hout⟩ := hopens.throws
  have hempty : (doUploadFileReq (tableEnv refusedPacket) ⟨some true, true, true⟩ [3]
      (UploadState.init fun _ => [7])).files.disk "root/bin/static/c" = [] := by
    decide +kernel
  exact ⟨hthrows, hempty, hout⟩

end ResourceServer
