import ResourceServer.Core.Base64
import ResourceServer.Native.Upload

/-!
# What one upload request does

The ways out of the handler's body, each with the state it leaves, and the view
of the session's stream after a request that is handled to its end.
-/

namespace ResourceServer

open FileStream Memory

/-- The directory of the file is there, or is made. -/
def FsOutcome.DirsOk (os : FsOutcome) : Prop :=
  os.dirExists = some true ∨ os.dirExists = some false ∧ os.createDirectories = true

instance (os : FsOutcome) : Decidable os.DirsOk := inferInstanceAs (Decidable (_ ∨ _))

/-- The stream after a request that is handled to its end. -/
def UploadFields.handle {κ : Type} [DecidableEq κ] (req : UploadFields) (opens : Bool) (path : κ)
    (buffer : Bytes) (v : View κ Byte) : View κ Byte :=
  let written := (openFile opens req.seq path v).write buffer
  if req.last then written.close 0 else written

section

variable {κ : Type}

/-- A conversion that succeeds leaves the state alone. -/
theorem run_lift_bind_of_ok {α β : Type} {x : Except Exn α} {f : α → UploadM κ β}
    {s : UploadState κ} {a : α} (h : x = .ok a) :
    ((liftM x : UploadM κ α) >>= f).run s = (f a).run s := by
  subst h
  rfl

/-- A conversion that throws leaves the state alone. -/
theorem run_lift_bind_of_error {α β : Type} {x : Except Exn α} {f : α → UploadM κ β}
    {s : UploadState κ} {e : Exn} (h : x = .error e) :
    ((liftM x : UploadM κ α) >>= f).run s = (.error e, s) := by
  subst h
  rfl

end
section

variable {κ : Type} [DecidableEq κ] {env : UploadEnv κ} {os : FsOutcome} {root : Json}
  {s : UploadState κ}

/-- The fields are read from objects only. -/
theorem isObject_of_uploadFields {req : UploadFields} (h : uploadFields root = .ok req) :
    root.isObject = true := by
  cases root with
  | object fields => rfl
  | null | boolean b | numberInteger n | numberUnsigned n | numberFloat n | string s | array items =>
    contradiction

/-- No field is read from a null. -/
theorem isNull_of_uploadFields {req : UploadFields} (h : uploadFields root = .ok req) :
    root.isNull = false := by
  cases root with
  | null => cases h
  | object fields | boolean b | numberInteger n | numberUnsigned n | numberFloat n | string s
  | array items => rfl

/-- The file a name stands for under the resource root `r`. -/
def UploadEnv.file (env : UploadEnv κ) (r filename : String) : κ :=
  env.resolve (resourcePath env.paths r filename)

/-- The state behind the second `Assert`: directories made and the stream opened. -/
def UploadEnv.opened (env : UploadEnv κ) (os : FsOutcome) (req : UploadFields) (r : String)
    (s : UploadState κ) : UploadState κ :=
  let files := openFile os.opens req.seq (env.file r req.filename) s.files
  { s with
    files := files
    asserts := s.asserts ++ [true] ++ [files.out.isSome]
    createdDirs := if os.dirExists = some true then s.createdDirs
      else s.createdDirs ++ [parentPath env.paths (resourcePath env.paths r req.filename)] }

/-- The body up to the second `Assert`. -/
theorem run_uploadBody_opened {req : UploadFields} {r : String} (hreq : uploadFields root = .ok req)
    (hroot : env.resourceRoot = some r) (hdirs : os.DirsOk) :
    (uploadBody env os root).run s = (do
      let buffer ← base64Decode env.bioRead req.base64Buffer
      onFiles (View.write buffer)
      if req.last then onFiles (View.close 0)
      return successRespond req : UploadM κ Json).run (env.opened os req r s) := by
  have hobj := isObject_of_uploadFields hreq
  unfold uploadBody
  rw [hobj, Bool.not_true, Bool.and_false, if_neg Bool.false_ne_true, run_lift_bind_of_ok hreq,
    hroot]
  rcases hdirs with hfound | ⟨hmissing, hmade⟩
  · simp only [UploadEnv.opened, hfound, ite_true]
    rfl
  · simp only [UploadEnv.opened, hmissing, hmade, Option.some.injEq, Bool.false_eq_true, ite_false]
    rfl

/-- What the handler's body does behind the second `Assert`. -/
theorem run_uploadBody_of_decode {req : UploadFields} {r : String} {buffer : Bytes}
    (hreq : uploadFields root = .ok req) (hroot : env.resourceRoot = some r) (hdirs : os.DirsOk)
    (hdec : base64Decode env.bioRead req.base64Buffer = .ok buffer) :
    (uploadBody env os root).run s = (.ok (successRespond req), { env.opened os req r s with
      files := req.handle os.opens (env.file r req.filename) buffer s.files }) := by
  rw [run_uploadBody_opened hreq hroot hdirs, run_lift_bind_of_ok hdec]
  unfold UploadFields.handle
  cases req.last <;> rfl

/-- Directories are asked for by the parent of the request's path only. -/
def UploadEnv.AsksParent (env : UploadEnv κ) (root : Json) (s t : UploadState κ) : Prop :=
  ∀ dir ∈ t.createdDirs, dir ∈ s.createdDirs ∨ ∃ req r, uploadFields root = .ok req ∧
    env.resourceRoot = some r ∧ dir = parentPath env.paths (resourcePath env.paths r req.filename)

omit [DecidableEq κ] in
/-- Where no directory is asked for. -/
theorem UploadEnv.asksParent_of_eq {t : UploadState κ} (h : t.createdDirs = s.createdDirs) :
    env.AsksParent root s t := fun _ hdir => Or.inl (h ▸ hdir)

omit [DecidableEq κ] in
/-- Where the parent of the request's path is asked for. -/
theorem UploadEnv.asksParent_of_concat {t : UploadState κ} {req : UploadFields} {r : String}
    (hreq : uploadFields root = .ok req) (hroot : env.resourceRoot = some r)
    (h : t.createdDirs =
      s.createdDirs ++ [parentPath env.paths (resourcePath env.paths r req.filename)]) :
    env.AsksParent root s t := by
  intro dir hdir
  rw [h] at hdir
  rcases List.mem_append.mp hdir with hbefore | hnow
  · exact Or.inl hbefore
  · exact Or.inr ⟨req, r, hreq, hroot, List.mem_singleton.mp hnow⟩

/-- A request that throws before the file is opened leaves the disk and the stream alone. -/
theorem run_uploadBody_of_early (s : UploadState κ) (h : ¬∃ req r, uploadFields root = .ok req ∧
    env.resourceRoot = some r ∧ os.DirsOk) (hnull : root.isNull = false) :
    ∃ e t, (uploadBody env os root).run s = (.error e, t) ∧ t.files = s.files ∧
      t.sent = s.sent ∧ env.AsksParent root s t := by
  unfold uploadBody
  rw [hnull, Bool.false_and, if_neg Bool.false_ne_true]
  cases hreq : uploadFields root with
  | error e => exact ⟨e, s, rfl, rfl, rfl, UploadEnv.asksParent_of_eq rfl⟩
  | ok req =>
    cases hroot : env.resourceRoot with
    | none => exact ⟨.badOptionalAccess, _, rfl, rfl, rfl, UploadEnv.asksParent_of_eq rfl⟩
    | some r =>
      cases hfound : os.dirExists with
      | none => exact ⟨.filesystemError, _, rfl, rfl, rfl, UploadEnv.asksParent_of_eq rfl⟩
      | some found =>
        cases found with
        | true => exact absurd ⟨req, r, hreq, hroot, Or.inl hfound⟩ h
        | false =>
          cases hmade : os.createDirectories with
          | false =>
            exact ⟨.filesystemError, _, rfl, rfl, rfl,
              UploadEnv.asksParent_of_concat hreq hroot rfl⟩
          | true => exact absurd ⟨req, r, hreq, hroot, Or.inr ⟨hfound, hmade⟩⟩ h

/-- A request whose base64 text is refused leaves its file open, and emptied by a first packet. -/
theorem run_uploadBody_of_refused {req : UploadFields} {r : String} {e : Exn}
    (hreq : uploadFields root = .ok req) (hroot : env.resourceRoot = some r) (hdirs : os.DirsOk)
    (hdec : base64Decode env.bioRead req.base64Buffer = .error e) :
    (uploadBody env os root).run s = (.error e, env.opened os req r s) := by
  rw [run_uploadBody_opened hreq hroot hdirs, run_lift_bind_of_error hdec]

/-- The ways out of the body: at once, by an exception before the file is opened, by
one behind that, or at its end. -/
theorem uploadBody_cases (env : UploadEnv κ) (os : FsOutcome) (root : Json) (s : UploadState κ) :
    (root.isNull = true ∧ (uploadBody env os root).run s = (.ok invalidJsonRespond, s)) ∨
      ((root.isNull = false ∧ ¬∃ req r, uploadFields root = .ok req ∧
          env.resourceRoot = some r ∧ os.DirsOk) ∧
        ∃ e t, (uploadBody env os root).run s = (.error e, t) ∧ t.files = s.files ∧
          t.sent = s.sent ∧ env.AsksParent root s t) ∨
      (∃ req r e, uploadFields root = .ok req ∧ env.resourceRoot = some r ∧ os.DirsOk ∧
        base64Decode env.bioRead req.base64Buffer = .error e ∧
        (uploadBody env os root).run s = (.error e, env.opened os req r s)) ∨
      ∃ req r buffer, uploadFields root = .ok req ∧ env.resourceRoot = some r ∧ os.DirsOk ∧
        base64Decode env.bioRead req.base64Buffer = .ok buffer := by
  cases hnull : root.isNull with
  | true =>
    cases Json.eq_null_of_isNull hnull
    exact Or.inl ⟨rfl, rfl⟩
  | false =>
    by_cases hopen : ∃ req r, uploadFields root = .ok req ∧ env.resourceRoot = some r ∧ os.DirsOk
    · obtain ⟨req, r, hreq, hroot, hdirs⟩ := hopen
      cases hdec : base64Decode env.bioRead req.base64Buffer with
      | error e =>
        have hrun := run_uploadBody_of_refused (s := s) hreq hroot hdirs hdec
        exact Or.inr (Or.inr (Or.inl ⟨req, r, e, hreq, hroot, hdirs, hdec, hrun⟩))
      | ok buffer => exact Or.inr (Or.inr (Or.inr ⟨req, r, buffer, hreq, hroot, hdirs, hdec⟩))
    · exact Or.inr (Or.inl ⟨⟨rfl, hopen⟩, run_uploadBody_of_early s hopen hnull⟩)

end

/-! ## Responses -/

/-- A response that reports `E_SUCESS`. -/
def Json.IsSucess (respond : Json) : Prop :=
  respond.field? "sucess" = some (.ofUint16 ResStaus.sucess.enumToInt)

/-- The answer to a request that was handled is one of success. -/
theorem isSucess_successRespond (req : UploadFields) : (successRespond req).IsSucess := rfl

/-- The null answer is none of success. -/
theorem not_isSucess_null : ¬Json.null.IsSucess := by
  intro h
  cases h

/-- The answer to invalid text is none of success. -/
theorem not_isSucess_invalidJsonRespond : ¬invalidJsonRespond.IsSucess := by
  intro h
  have hn := Json.numberUnsigned.inj (Option.some.inj h)
  contradiction

section

variable {κ : Type} [DecidableEq κ]

/-- The body of a request holds the fields `req`. -/
def UploadEnv.Reads (env : UploadEnv κ) (data : Bytes) (req : UploadFields) : Prop :=
  ∃ root, env.parse data = some root ∧ uploadFields root = .ok req

/-- The request is handled to its end, with `buffer` for its data. -/
structure UploadEnv.Handles (env : UploadEnv κ) (os : FsOutcome) (data : Bytes)
    (req : UploadFields) (r : String) (buffer : Bytes) : Prop where
  reads : env.Reads data req
  root : env.resourceRoot = some r
  dirs : os.DirsOk
  decode : base64Decode env.bioRead req.base64Buffer = .ok buffer

/-- The request was answered with `E_SUCESS`. -/
def Answered (env : UploadEnv κ) (os : FsOutcome) (data : Bytes) (s : UploadState κ) : Prop :=
  ∃ respond, (doUploadFileReq env os data s).sent = s.sent ++ [(.idUploadFileRsp, respond)] ∧
    respond.IsSucess

variable {env : UploadEnv κ} {os : FsOutcome} {data : Bytes} {s : UploadState κ}
  {req : UploadFields} {r : String} {buffer : Bytes}

/-- The state behind a request that is handled to its end. -/
theorem UploadEnv.Handles.eq (h : env.Handles os data req r buffer) :
    doUploadFileReq env os data s = UploadState.send (successRespond req)
      { env.opened os req r s with
        files := req.handle os.opens (env.file r req.filename) buffer s.files } := by
  obtain ⟨root, hparse, hreq⟩ := h.reads
  rw [doUploadFileReq, hparse]
  simp only [run_uploadBody_of_decode hreq h.root h.dirs h.decode]

/-- What a request that is handled leaves of the files. -/
theorem UploadEnv.Handles.files_eq (h : env.Handles os data req r buffer) :
    (doUploadFileReq env os data s).files =
      req.handle os.opens (env.file r req.filename) buffer s.files := by
  rw [h.eq]
  rfl

/-- What it sends. -/
theorem UploadEnv.Handles.sent_eq (h : env.Handles os data req r buffer) :
    (doUploadFileReq env os data s).sent =
      s.sent ++ [(.idUploadFileRsp, successRespond req)] := by
  rw [h.eq]
  rfl

/-- It is answered with success. -/
theorem UploadEnv.Handles.answered (h : env.Handles os data req r buffer) :
    Answered env os data s :=
  ⟨successRespond req, h.sent_eq, isSucess_successRespond req⟩

/-- A request left by an exception is answered with a null and has the disk and
the stream its body left. -/
theorem doUploadFileReq_of_error {root : Json} {e : Exn} {t : UploadState κ}
    (hparse : env.parse data = some root) (hrun : (uploadBody env os root).run s = (.error e, t)) :
    (doUploadFileReq env os data s).files = t.files ∧
      (doUploadFileReq env os data s).sent = t.sent ++ [(.idUploadFileRsp, .null)] := by
  rw [doUploadFileReq, hparse]
  simp only [hrun]
  exact ⟨rfl, rfl⟩

/-- What a request can do: nothing but an answer that is no success, if it gives
one; open its file and answer with a null; or be handled to its end. -/
theorem doUploadFileReq_cases (env : UploadEnv κ) (os : FsOutcome) (data : Bytes)
    (s : UploadState κ) :
    ((doUploadFileReq env os data s).files = s.files ∧
        ((doUploadFileReq env os data s).sent = s.sent ∨ ∃ respond, ¬respond.IsSucess ∧
          (doUploadFileReq env os data s).sent = s.sent ++ [(.idUploadFileRsp, respond)])) ∨
      (∃ req r e, env.Reads data req ∧ env.resourceRoot = some r ∧ os.DirsOk ∧
        base64Decode env.bioRead req.base64Buffer = .error e ∧
        (doUploadFileReq env os data s).files =
          openFile os.opens req.seq (env.file r req.filename) s.files ∧
        (doUploadFileReq env os data s).sent = s.sent ++ [(.idUploadFileRsp, .null)]) ∨
      ∃ req r buffer, env.Handles os data req r buffer := by
  cases hparse : env.parse data with
  | none =>
    rw [doUploadFileReq, hparse]
    exact Or.inl ⟨rfl, Or.inl rfl⟩
  | some root =>
    rcases uploadBody_cases env os root s with ⟨_, hrun⟩ | ⟨_, e, t, hrun, hf, hs, _⟩ |
      ⟨req, r, e, hreq, hroot, hdirs, hdec, hrun⟩ | ⟨req, r, buffer, hreq, hroot, hdirs, hdec⟩
    · rw [doUploadFileReq, hparse]
      simp only [hrun]
      exact Or.inl ⟨rfl, Or.inr ⟨_, not_isSucess_invalidJsonRespond, rfl⟩⟩
    · obtain ⟨hfiles, hsent⟩ := doUploadFileReq_of_error hparse hrun
      rw [hfiles, hsent, hf, hs]
      exact Or.inl ⟨rfl, Or.inr ⟨.null, not_isSucess_null, rfl⟩⟩
    · obtain ⟨hfiles, hsent⟩ := doUploadFileReq_of_error hparse hrun
      exact Or.inr (Or.inl ⟨req, r, e, ⟨root, hparse, hreq⟩, hroot, hdirs, hdec, hfiles, hsent⟩)
    · exact Or.inr (Or.inr ⟨req, r, buffer, ⟨root, hparse, hreq⟩, hroot, hdirs, hdec⟩)

/-- Only a request that is handled to its end is answered with `E_SUCESS`. -/
theorem Answered.handles (h : Answered env os data s) :
    ∃ req r buffer, env.Handles os data req r buffer := by
  obtain ⟨respond, hs, hr⟩ := h
  have hother : ∀ respond', ¬respond'.IsSucess →
      (doUploadFileReq env os data s).sent ≠ s.sent ++ [(.idUploadFileRsp, respond')] := by
    intro respond' hr' hs'
    rw [hs, List.append_cancel_left_eq, List.singleton_inj, Prod.mk.injEq] at hs'
    exact hr' (hs'.2 ▸ hr)
  rcases doUploadFileReq_cases env os data s with
    ⟨_, hs' | ⟨respond', hr', hs'⟩⟩ | ⟨_, _, _, _, _, _, _, _, hs'⟩ | h
  · rw [hs'] at hs
    exact absurd (List.self_eq_append_right.mp hs) (List.cons_ne_nil _ _)
  · exact absurd hs' (hother _ hr')
  · exact absurd hs' (hother _ not_isSucess_null)
  · exact h

end

end ResourceServer
