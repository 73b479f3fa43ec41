import ResourceServer.Uploads.Request

/-!
# What a request adds to the files

The effect of a request on the files once the session's stream is closed: its
decoded data is appended to the file the stream is on, which is the file it names
only if the stream was closed or already there.
-/

namespace ResourceServer

open FileStream Memory

/-- The bytes of a base64 text field. -/
def UploadFields.text (req : UploadFields) : Bytes := req.base64Buffer.toUTF8.toList

/-- `BIO_read` decodes base64 texts. -/
def LawfulBioRead (bioRead : Bytes → Nat → Int × Bytes) : Prop :=
  ∀ text size d, Base64.decode text = some d → text.length ≤ size →
    (bioRead text size).1 = d.length ∧ (bioRead text size).2.take d.length = d

/-- `base64_decode` of a request's text, by the number `BIO_read` returns. -/
theorem base64Decode_eq (bioRead : Bytes → Nat → Int × Bytes) (req : UploadFields) :
    base64Decode bioRead req.base64Buffer =
      if (bioRead (cString 0 req.text) req.text.length).1 = 0 then .ok []
      else if (bioRead (cString 0 req.text) req.text.length).1 < 0 then .error .lengthError
      else .ok ((bioRead (cString 0 req.text) req.text.length).2.take
        (bioRead (cString 0 req.text) req.text.length).1.toNat) := rfl

/-- `base64_decode` returns unless `BIO_read` reports an error. -/
theorem base64Decode_eq_ok_iff {bioRead : Bytes → Nat → Int × Bytes} {req : UploadFields} :
    (∃ buffer, base64Decode bioRead req.base64Buffer = .ok buffer) ↔
      0 ≤ (bioRead (cString 0 req.text) req.text.length).1 := by
  rw [base64Decode_eq]
  generalize bioRead (cString 0 req.text) req.text.length = result
  constructor
  · rintro ⟨buffer, h⟩
    by_contra hneg
    rw [if_neg (by omega), if_pos (by omega)] at h
    contradiction
  · intro hpos
    by_cases hzero : result.1 = 0
    · exact ⟨[], if_pos hzero⟩
    · exact ⟨_, by rw [if_neg hzero, if_neg (by omega)]⟩

/-- The handler decodes a base64 text to the bytes it encodes. -/
theorem LawfulBioRead.base64Decode {bioRead : Bytes → Nat → Int × Bytes} (h : LawfulBioRead bioRead)
    {req : UploadFields} {d : Bytes} (hd : Base64.decode req.text = some d) :
    base64Decode bioRead req.base64Buffer = .ok d := by
  obtain ⟨hlen, hbytes⟩ := h _ _ _ hd le_rfl
  rw [base64Decode_eq, cString_eq_self (Base64.zero_notMem hd), hlen]
  cases d with
  | nil => rfl
  | cons b d =>
    have hpos : (0 : Int) < ((b :: d).length : Int) := by
      rw [List.length_cons]
      omega
    rw [if_neg hpos.ne', if_neg hpos.not_gt, Int.toNat_natCast, hbytes]

/-- A `BIO_read` that decodes base64 texts, reports an error for a short text of the alphabet
that stops within a group of four, and returns nothing for any other. -/
def decodingBioRead (text : Bytes) (_ : Nat) : Int × Bytes :=
  match Base64.decode text with
  | some d => (d.length, d)
  | none =>
    if text.length < 64 && text.length % 4 != 0 && text.all fun c => (Base64.digit c).isSome then
      (-1, [])
    else (0, [])

/-- It decodes what base64 text encodes. -/
theorem lawful_decodingBioRead : LawfulBioRead decodingBioRead := by
  intro text size d hd _
  rw [decodingBioRead, hd]
  exact ⟨rfl, List.take_length⟩

/-- The JSON text of a packet with the given name, number, mark and data. -/
def packetRoot (name : String) (seq : BitVec 64) (last : Bool) (data : String) : Json :=
  .object [("md5", .string ""), ("name", .string name), ("seq", .numberUnsigned seq),
    ("trans_size", .numberUnsigned 0), ("total_size", .numberUnsigned 0),
    ("last", .boolean last), ("data", .string data)]

/-- The surroundings of a server rooted at `root` whose peers send the bodies of a table. -/
def tableEnv (table : List (Bytes × Json)) : UploadEnv String where
  parse data := table.lookup data
  resourceRoot := some "root"
  paths := .posix
  resolve := id
  bioRead := decodingBioRead

/-- The fields of a packet of the table. -/
theorem reads_packetRoot {table : List (Bytes × Json)} {data : Bytes} {name text : String}
    {seq : BitVec 64} {last : Bool}
    (h : table.lookup data = some (packetRoot name seq last text)) :
    (tableEnv table).Reads data ⟨"", name, seq, 0, 0, last, text⟩ := ⟨_, h, rfl⟩

variable {κ : Type}

/-- The fields of a request are determined by its body. -/
theorem UploadEnv.Reads.unique {env : UploadEnv κ} {data : Bytes} {req req' : UploadFields}
    (h : env.Reads data req) (h' : env.Reads data req') : req = req' := by
  obtain ⟨root, hparse, hreq⟩ := h
  obtain ⟨root', hparse', hreq'⟩ := h'
  cases hparse.symm.trans hparse'
  cases hreq.symm.trans hreq'
  rfl

variable [DecidableEq κ]

/-- A stream that is open stays as it is. -/
theorem openFile_of_some (opens : Bool) (seq : BitVec 64) (path : κ) {v : View κ Byte}
    {st : OutStream κ Byte} (h : v.out = some st) : openFile opens seq path v = v := by
  rw [openFile, h]
  rfl

/-- A refused open changes nothing. -/
theorem openFile_of_refused (seq : BitVec 64) (path : κ) (v : View κ Byte) :
    openFile false seq path v = v := by
  rw [openFile, Bool.and_false]
  rfl

/-- A closed stream is opened in the mode the sequence number asks for. -/
theorem openFile_of_none (seq : BitVec 64) (path : κ) {v : View κ Byte} (h : v.out = none) :
    openFile true seq path v = v.openOn (if seq = 1 then .trunc else .app) path := by
  simp only [openFile, h, Option.isNone_none, Bool.and_true, ite_true]
  by_cases hseq : seq = 1
  · rw [if_pos hseq, if_pos hseq]
  · rw [if_neg hseq, if_neg hseq]

/-- A stream at the end of its file is there behind `open` too. -/
theorem atEnd_openFile {opens : Bool} {seq : BitVec 64} {path : κ} {v : View κ Byte}
    (h : v.AtEnd) : (openFile opens seq path v).AtEnd := by
  unfold openFile
  split
  · split
    · exact v.atEnd_openOn _ _
    · exact v.atEnd_openOn _ _
  · exact h

namespace UploadFields

/-- The stream stays at the end of its file. -/
theorem atEnd_handle (req : UploadFields) (opens : Bool) (path : κ) (buffer : Bytes)
    {v : View κ Byte} (h : v.AtEnd) : (req.handle opens path buffer v).AtEnd := by
  unfold handle
  split
  · exact View.atEnd_close 0 _
  · exact (atEnd_openFile h).write buffer

/-- Closing the stream at the end of the request changes nothing about what it leaves. -/
theorem settled_handle (req : UploadFields) (opens : Bool) (path : κ) (buffer : Bytes)
    (v : View κ Byte) : (req.handle opens path buffer v).settled 0 =
      ((openFile opens req.seq path v).write buffer).settled 0 := by
  unfold handle
  split <;> rfl

/-- Data written to a stream that is on `path` is appended there and nowhere else. -/
theorem settled_handle_of_some {req : UploadFields} {opens : Bool} {path : κ} {v : View κ Byte}
    (h : v.AtEnd) {st : OutStream κ Byte} (hst : (openFile opens req.seq path v).out = some st)
    (buffer : Bytes) : (req.handle opens path buffer v).settled 0 =
      Function.update ((openFile opens req.seq path v).settled 0) st.path
        ((openFile opens req.seq path v).settled 0 st.path ++ buffer) := by
  rw [settled_handle, (atEnd_openFile h).settled_write hst]

/-- A request whose stream could not be opened does nothing to it. -/
theorem handle_of_none {req : UploadFields} {opens : Bool} {path : κ} {v : View κ Byte}
    (hst : (openFile opens req.seq path v).out = none) (buffer : Bytes) :
    req.handle opens path buffer v = openFile opens req.seq path v := by
  unfold handle
  generalize openFile opens req.seq path v = w at hst
  obtain ⟨disk, out⟩ := w
  simp only at hst
  subst hst
  split <;> rfl

/-- A request whose stream is on its own file: where it leaves the stream, what it
leaves in the file, and that it leaves the other files alone. -/
theorem handle_spec {req : UploadFields} {opens : Bool} {path : κ} {v : View κ Byte}
    (h : v.AtEnd) {st : OutStream κ Byte} (hst : (openFile opens req.seq path v).out = some st)
    (hpath : st.path = path) (buffer : Bytes) :
    (req.handle opens path buffer v).out.map OutStream.path =
        (if req.last then none else some path) ∧
      (req.handle opens path buffer v).settled 0 path =
        (openFile opens req.seq path v).settled 0 path ++ buffer ∧
      ∀ other ≠ path, (req.handle opens path buffer v).disk other =
        (openFile opens req.seq path v).disk other := by
  subst hpath
  refine ⟨?_, ?_, ?_⟩
  · unfold handle
    split
    · rfl
    · simp only [View.write, hst, Option.map_some, OutStream.path_write]
  · rw [settled_handle_of_some h hst, Function.update_self]
  · intro other hne
    unfold handle
    split
    · change ((openFile opens req.seq st.path v).write buffer).settled 0 other = _
      rw [(atEnd_openFile h).settled_write hst, Function.update_of_ne hne]
      apply View.settled_of_ne 0
      intro st' hst'
      cases hst.symm.trans hst'
      exact hne.symm
    · rfl

end UploadFields

/-- A request leaves its session's stream at the end of its file. -/
theorem atEnd_doUploadFileReq (env : UploadEnv κ) (os : FsOutcome) (data : Bytes)
    {s : UploadState κ} (h : s.files.AtEnd) : (doUploadFileReq env os data s).files.AtEnd := by
  rcases doUploadFileReq_cases env os data s with
    ⟨hf, _⟩ | ⟨req, r, _, _, _, _, _, hf, _⟩ | ⟨req, r, buffer, hhandles⟩
  · rw [hf]
    exact h
  · rw [hf]
    exact atEnd_openFile h
  · rw [hhandles.files_eq]
    exact req.atEnd_handle _ _ _ h

end ResourceServer
