import ResourceServer.Uploads.Failures

/-!
# What a response says

The status of a response is the integer in its field `sucess`. Only a null and a
request that is handled to its end are given one: every other value passes the test for
invalid JSON, and the response of a handler left by an exception is still the null it
was constructed as.
-/

namespace ResourceServer

open FileStream Memory

/-- The value of an integer. -/
def Json.integer? : Json → Option Int
  | .numberInteger n => some n.toInt
  | .numberUnsigned n => some n.toNat
  | _ => none

/-- The status a response reports. -/
def Json.status? (respond : Json) : Option Int := (respond.field? "sucess").bind integer?

/-- The number of a status in a response. -/
def ResStaus.value (status : ResStaus) : Int := status.enumToInt.toNat

/-- The answer to invalid text has the status for it. -/
theorem status?_invalidJsonRespond :
    invalidJsonRespond.status? = some ResStaus.invalidJson.value := rfl

/-- The answer to a request has the status of success. -/
theorem status?_successRespond (req : UploadFields) :
    (successRespond req).status? = some ResStaus.sucess.value := rfl

section

variable {κ : Type} [DecidableEq κ] {env : UploadEnv κ} {os : FsOutcome} {data : Bytes}
  {root : Json} {s : UploadState κ}

/-- The request whose body is `root` is answered with an object that reports a status: invalid
JSON, with no file touched, when `root` is no object, and no success when the handler threw. -/
structure Reports (env : UploadEnv κ) (os : FsOutcome) (data : Bytes) (root : Json)
    (s : UploadState κ) (respond : Json) (status : Int) : Prop where
  sent_eq : (doUploadFileReq env os data s).sent = s.sent ++ [(.idUploadFileRsp, respond)]
  isObject : respond.isObject = true
  status_eq : respond.status? = some status
  invalid : root.isObject = false → status = ResStaus.invalidJson.value ∧
    (doUploadFileReq env os data s).files = s.files ∧
    (doUploadFileReq env os data s).createdDirs = s.createdDirs
  failed : Throws env os data s → status ≠ ResStaus.sucess.value

/-- A request left by an exception is answered with no status. -/
theorem not_reports_of_error {e : Exn} {t : UploadState κ} (hparse : env.parse data = some root)
    (hrun : (uploadBody env os root).run s = (.error e, t)) (hsent : t.sent = s.sent) :
    ¬ ∃ respond status, Reports env os data root s respond status := by
  rintro ⟨respond, status, h⟩
  have hs := h.sent_eq
  rw [(doUploadFileReq_of_error hparse hrun).2, hsent, List.append_cancel_left_eq,
    List.singleton_inj, Prod.mk.injEq] at hs
  have hstatus := h.status_eq
  rw [← hs.2] at hstatus
  cases hstatus

/-- A request whose body is a null is answered with invalid JSON. -/
theorem reports_of_null (hparse : env.parse data = some .null) :
    Reports env os data .null s invalidJsonRespond ResStaus.invalidJson.value := by
  have hrun : (uploadBody env os .null).run s = (.ok invalidJsonRespond, s) := rfl
  have heq : doUploadFileReq env os data s = s.send invalidJsonRespond := by
    simp only [doUploadFileReq, hparse, hrun]
  refine ⟨by rw [heq]; rfl, rfl, status?_invalidJsonRespond, fun _ => ?_, fun _ => by decide⟩
  rw [heq]
  exact ⟨rfl, rfl, rfl⟩

/-- A request that is handled to its end is answered with a success. -/
theorem UploadEnv.Handles.reports {req : UploadFields} {r : String} {buffer : Bytes}
    (h : env.Handles os data req r buffer) (hobj : root.isObject = true) :
    Reports env os data root s (successRespond req) ResStaus.sucess.value where
  sent_eq := h.sent_eq
  isObject := rfl
  status_eq := status?_successRespond req
  invalid hnot := absurd hobj (by rw [hnot]; exact Bool.false_ne_true)
  failed hthrows := absurd hthrows h.not_throws

/-- The response to a body that parses reports a meaningful status exactly when the body is a
null, or its fields convert, its directory is there or can be made, and its data is not
refused. -/
theorem reports_iff (env : UploadEnv κ) (os : FsOutcome) (data : Bytes) (root : Json)
    (s : UploadState κ) (hparse : env.parse data = some root) :
    (∃ respond status, Reports env os data root s respond status) ↔
      root.isNull = true ∨ ∃ req r, uploadFields root = .ok req ∧ env.resourceRoot = some r ∧
        os.DirsOk ∧ 0 ≤ (env.bioRead (cString 0 req.text) req.text.length).1 := by
  rcases uploadBody_cases env os root s with
    ⟨hnull, _⟩ | ⟨⟨hnull, hearly⟩, e, t, hrun, _, hsent, _⟩ |
    ⟨req, r, e, hreq, hroot, hdirs, hdec, hrun⟩ | ⟨req, r, buffer, hreq, hroot, hdirs, hdec⟩
  · cases Json.eq_null_of_isNull hnull
    exact iff_of_true ⟨_, _, reports_of_null hparse⟩ (Or.inl rfl)
  · apply iff_of_false (not_reports_of_error hparse hrun hsent)
    rintro (hnull' | ⟨req, r, hreq, hroot, hdirs, _⟩)
    · rw [hnull] at hnull'
      contradiction
    · exact hearly ⟨req, r, hreq, hroot, hdirs⟩
  · apply iff_of_false (not_reports_of_error hparse hrun rfl)
    rintro (hnull | ⟨req', r', hreq', _, _, hpos⟩)
    · rw [isNull_of_uploadFields hreq] at hnull
      contradiction
    · cases hreq.symm.trans hreq'
      obtain ⟨buffer, hok⟩ := base64Decode_eq_ok_iff.mpr hpos
      rw [hdec] at hok
      contradiction
  · have hhandles : env.Handles os data req r buffer := ⟨⟨root, hparse, hreq⟩, hroot, hdirs, hdec⟩
    refine iff_of_true ⟨_, _, hhandles.reports (isObject_of_uploadFields hreq)⟩ ?_
    exact Or.inr ⟨req, r, hreq, hroot, hdirs, base64Decode_eq_ok_iff.mp ⟨buffer, hdec⟩⟩

end

/-- A null, a number, an object without fields, and a packet of a file `f`. -/
private def fourBodies : List (Bytes × Json) :=
  [([0], .null), ([1], .numberUnsigned 1), ([2], .object []), ([3], packetRoot "f" 2 true "aGk=")]

/-- The last packet of a file gets the status of what has come of it. -/
theorem reports_iff_packet : ∃ respond status, Reports (tableEnv fourBodies)
    ⟨some false, true, true⟩ [3] (packetRoot "f" 2 true "aGk=") (UploadState.init fun _ => [])
      respond status := by
  have hpos : 0 ≤ (decodingBioRead (cString 0 "aGk=".toUTF8.toList)
      "aGk=".toUTF8.toList.length).1 := by decide +kernel
  exact (reports_iff (tableEnv fourBodies) ⟨some false, true, true⟩ [3]
    (packetRoot "f" 2 true "aGk=") (UploadState.init fun _ => []) rfl).mpr
      (Or.inr ⟨_, "root", rfl, rfl, Or.inr ⟨rfl, rfl⟩, hpos⟩)

/-- A number is not answered with invalid JSON, and an object without fields with no status. -/
theorem not_reports :
    (¬ ∃ respond status, Reports (tableEnv fourBodies) ⟨some true, true, true⟩ [1]
      (.numberUnsigned 1) (UploadState.init fun _ => []) respond status) ∧
    ¬ ∃ respond status, Reports (tableEnv fourBodies) ⟨some true, true, true⟩ [2]
      (.object []) (UploadState.init fun _ => []) respond status :=
  ⟨not_reports_of_error rfl rfl rfl, not_reports_of_error rfl rfl rfl⟩

end ResourceServer
