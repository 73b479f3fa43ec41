import ResourceServer.Core.TwoWriters
import ResourceServer.Uploads.Reassembly

/-!
# Concurrent uploads of one file

Nothing links the streams of two sessions that upload the same file: each empties
it at its own first packet and then writes at a position of its own. The result
is a mixture of the two uploads cell by cell, and one of them as a whole when
their requests do not overlap.
-/

namespace ResourceServer

open FileStream Transition

variable {κ : Type} [DecidableEq κ]

/-- A session is uploading `content` to `path`: `rest` is still to be sent, and
`pos` bytes have reached the file. -/
def Uploading (path : κ) (content : Bytes) (out : Option (OutStream κ Byte)) (rest : List Bytes)
    (pos : Nat) : Prop :=
  match out with
  | none => rest = [] ∧ pos = content.length
  | some st => rest ≠ [] ∧ st.path = path ∧ st.mode = .trunc ∧ st.pos = pos ∧
      ∃ done, done.length = pos ∧ content = done ++ st.buffer ++ rest.flatten

/-- Bytes of a truncating stream reach its file at its position. -/
theorem flushDisk_trunc {st : OutStream κ Byte} (hmode : st.mode = .trunc) (k : Nat)
    (disk : Disk κ Byte) : st.flushDisk 0 k disk st.path =
      overwrite 0 (disk st.path) st.pos (st.buffer.take k) := by
  rw [OutStream.flushDisk_self, OutStream.put, hmode]

/-- A flush advances the upload by what it writes. -/
theorem Uploading.flush {path : κ} {content : Bytes} {v : View κ Byte} {rest : List Bytes}
    {pos : Nat} (h : Uploading path content v.out rest pos) (k : Nat) :
    ∃ next, Uploading path content (v.flush 0 k).out rest next ∧
      Advances 0 content (v.disk path) pos ((v.flush 0 k).disk path) next := by
  cases hout : v.out with
  | none =>
    rw [hout] at h
    rw [View.flush, hout]
    refine ⟨pos, ?_, content, [], [], ?_, h.2.symm, rfl, rfl⟩
    · rw [hout]
      exact h
    · rw [List.append_nil, List.append_nil]
  | some st =>
    rw [hout] at h
    obtain ⟨hrest, rfl, hmode, rfl, done, hdone, hcontent⟩ := h
    have hsplit : content = done ++ st.buffer.take k ++ (st.buffer.drop k ++ rest.flatten) := by
      rw [hcontent, List.append_assoc, List.append_assoc, ← List.append_assoc (st.buffer.take k),
        List.take_append_drop]
    rw [View.flush, hout]
    refine ⟨st.pos + (st.buffer.take k).length, ⟨hrest, rfl, hmode, rfl, done ++ st.buffer.take k,
      ?_, ?_⟩, done, st.buffer.take k, _, hsplit, hdone, rfl, flushDisk_trunc hmode k v.disk⟩
    · rw [List.length_append, hdone]
    · rw [hsplit, OutStream.buffer_flush, List.append_assoc (done ++ _)]

/-- A packet behind the first advances the upload by what closing the stream writes. -/
theorem Uploading.handle {path : κ} {content d : Bytes} {v : View κ Byte} {ds : List Bytes}
    {pos : Nat} (h : Uploading path content v.out (d :: ds) pos) {req : UploadFields}
    (hlast : req.last = ds.isEmpty) :
    ∃ next, Uploading path content (req.handle true path d v).out ds next ∧
      Advances 0 content (v.disk path) pos ((req.handle true path d v).disk path) next := by
  cases hout : v.out with
  | none =>
    rw [hout] at h
    exact absurd h.1 (List.cons_ne_nil d ds)
  | some st =>
    rw [hout] at h
    obtain ⟨_, rfl, hmode, rfl, done, hdone, hcontent⟩ := h
    rw [List.flatten_cons, ← List.append_assoc, List.append_assoc done] at hcontent
    rw [UploadFields.handle, openFile_of_some true req.seq st.path hout, hlast]
    cases ds with
    | nil =>
      rw [List.flatten_nil] at hcontent
      refine ⟨content.length, ⟨rfl, rfl⟩, done, st.buffer ++ d, [], hcontent, hdone, ?_, ?_⟩
      · rw [hcontent, ← hdone]
        simp only [List.length_append, List.length_nil, Nat.add_zero]
      · change (v.write d).settled 0 st.path = _
        have hwrite : (st.write d).mode = .trunc := hmode
        have hclose := flushDisk_trunc hwrite (st.write d).buffer.length v.disk
        rw [List.take_length] at hclose
        simp only [View.settled, View.write, hout, Option.map_some]
        exact hclose
    | cons d' ds =>
      refine ⟨st.pos, ?_, done, [], st.buffer ++ d ++ (d' :: ds).flatten, ?_, hdone, rfl, rfl⟩
      · change Uploading st.path content (v.out.map (·.write d)) (d' :: ds) st.pos
        rw [hout, Option.map_some]
        exact ⟨List.cons_ne_nil d' ds, rfl, hmode, rfl, done, hdone,
          hcontent⟩
      · rw [hcontent, List.append_nil, List.append_assoc]

/-- The first packet of a session empties the file, whatever stood in it. -/
theorem handle_first {path : κ} {v : View κ Byte} (hout : v.out = none) {req : UploadFields}
    (hseq : req.seq = 1) (d : Bytes) :
    req.handle true path d v = req.handle true path d (v.openOn .trunc path) := by
  have hopened : (v.openOn .trunc path).out = some ⟨path, .trunc, 0, []⟩ := rfl
  rw [UploadFields.handle, UploadFields.handle, openFile_of_none req.seq path hout, if_pos hseq,
    openFile_of_some true req.seq path hopened]

/-- A session whose first packet has just opened the file. -/
theorem uploading_openOn (path : κ) (v : View κ Byte) {parts : List Bytes} (h : parts ≠ []) :
    Uploading path parts.flatten (v.openOn .trunc path).out parts 0 :=
  ⟨h, rfl, rfl, rfl, [], rfl, rfl⟩

omit [DecidableEq κ] in
/-- A session that has sent everything has written everything. -/
theorem Uploading.done {path : κ} {content : Bytes} {out : Option (OutStream κ Byte)} {pos : Nat}
    (h : Uploading path content out [] pos) : pos = content.length := by
  cases out with
  | none => exact h.2
  | some st => exact absurd rfl h.1

omit [DecidableEq κ] in
/-- The progress of one of two uploads keeps the file mixed. -/
theorem mixed_put {path : κ} {content : Bool → Bytes} {l : Bool} {w : UploadSystem Bool κ}
    {rest : Bool → List Bytes} {pos : Bool → Nat}
    (h : ∀ i, Uploading path (content i) (w.outs i) (rest i) (pos i))
    (hmixed : Mixed 0 (content !l) (content l) (pos !l) (pos l) (w.disk path)) {i : Bool}
    {s : UploadState κ} {ds : List Bytes} {next : Nat}
    (hi : Uploading path (content i) s.files.out ds next)
    (ha : Advances 0 (content i) (w.disk path) (pos i) (s.files.disk path) next) :
    (∀ j, Uploading path (content j) ((w.put i s).outs j) (Function.update rest i ds j)
        (Function.update pos i next j)) ∧
      Mixed 0 (content !l) (content l) (Function.update pos i next !l)
        (Function.update pos i next l) ((w.put i s).disk path) := by
  constructor
  · intro j
    by_cases hij : j = i
    · subst hij
      rw [Function.update_self, Function.update_self, w.outs_put_self]
      exact hi
    · rw [Function.update_of_ne hij, Function.update_of_ne hij, w.outs_put_of_ne hij]
      exact h j
  · by_cases hil : i = l
    · subst hil
      rw [Function.update_self, Function.update_of_ne (Bool.not_ne_self i)]
      exact hmixed.advance_second ha
    · obtain rfl : i = !l := Bool.eq_not_of_ne hil
      rw [Function.update_self, Function.update_of_ne (Bool.self_ne_not l)]
      exact hmixed.advance_first ha

section

variable {env : UploadEnv κ} {r : String} {path : κ}

omit [DecidableEq κ] in
/-- The next request of a session carries the first of the parts it has still to send. -/
theorem carries_next {i : Bool} {os : FsOutcome} {data : Bytes} {as : List (Bool × UploadAction)}
    {first : Bool} {parts : List Bytes}
    (h : List.Forall₂ (env.Carries r) (requestsOf i ((i, .request os data) :: as))
      (Piece.ofParts path first parts)) :
    ∃ d ds req, parts = d :: ds ∧ env.Reads data req ∧ env.file r req.filename = path ∧
      (req.seq = 1 ↔ first = true) ∧ req.last = ds.isEmpty ∧
      Base64.decode req.text = some d ∧
      List.Forall₂ (env.Carries r) (requestsOf i as) (Piece.ofParts path false ds) := by
  rw [requestsOf_request_self] at h
  cases parts with
  | nil => cases h
  | cons d ds =>
    obtain ⟨⟨req, hreads, hfile, hseq, hlast, hd⟩, hrest⟩ := List.forall₂_cons.mp h
    exact ⟨d, ds, req, rfl, hreads, hfile, hseq, hlast, hd, hrest⟩

omit [DecidableEq κ] in
/-- A session that has sent all its requests has no parts left. -/
theorem parts_eq_nil {i : Bool} {first : Bool} {parts : List Bytes}
    (h : List.Forall₂ (env.Carries r) (requestsOf i []) (Piece.ofParts path first parts)) :
    parts = [] := by
  cases parts with
  | nil => rfl
  | cons d ds => cases h

variable (hroot : env.resourceRoot = some r) (hbio : LawfulBioRead env.bioRead)
include hroot hbio

/-- What a request leaves of the files. -/
theorem files_act (w : UploadSystem Bool κ) (i : Bool) {os : FsOutcome} {data d : Bytes}
    {req : UploadFields} (hos : os.DirsOk ∧ os.opens = true) (hreads : env.Reads data req)
    (hfile : env.file r req.filename = path) (hd : Base64.decode req.text = some d) :
    ((w.session i).act env (.request os data)).files = req.handle true path d (w.view i) := by
  have hhandles : env.Handles os data req r d :=
    ⟨hreads, hroot, hos.1, hbio.base64Decode hd⟩
  rw [← hos.2, ← hfile]
  exact hhandles.files_eq

omit hroot hbio [DecidableEq κ] in
/-- A request of one session takes one part off what that session has to send. -/
theorem carries_update {rest : Bool → List Bytes} {i : Bool} (os : FsOutcome) (data : Bytes)
    {as : List (Bool × UploadAction)} {ds : List Bytes}
    (hothers : ∀ j ≠ i, List.Forall₂ (env.Carries r) (requestsOf j ((i, .request os data) :: as))
      (Piece.ofParts path false (rest j)))
    (hnext : List.Forall₂ (env.Carries r) (requestsOf i as) (Piece.ofParts path false ds)) (j : Bool) :
    List.Forall₂ (env.Carries r) (requestsOf j as)
      (Piece.ofParts path false (Function.update rest i ds j)) := by
  by_cases hij : j = i
  · subst hij
    rwa [Function.update_self]
  · rw [Function.update_of_ne hij, ← requestsOf_request_of_ne hij os data as]
    exact hothers j hij

/-- Two sessions in the middle of their uploads leave the file mixed. -/
theorem mixed_of_run {content : Bool → Bytes} {l : Bool} {as : List (Bool × UploadAction)}
    {w w' : UploadSystem Bool κ} (rest : Bool → List Bytes) (pos : Bool → Nat)
    (h : ∀ i, Uploading path (content i) (w.outs i) (rest i) (pos i))
    (hmixed : Mixed 0 (content !l) (content l) (pos !l) (pos l) (w.disk path))
    (hcarries : ∀ i, List.Forall₂ (env.Carries r) (requestsOf i as)
      (Piece.ofParts path false (rest i))) (hopen : AllOpen as)
    (hrun : run (UploadSystem.step env) w as = some w') :
    Mixed 0 (content !l) (content l) (content !l).length (content l).length (w'.disk path) := by
  induction as generalizing w rest pos with
  | nil =>
    cases hrun
    have hpos : ∀ i, pos i = (content i).length := by
      intro i
      have hi := h i
      rw [parts_eq_nil (hcarries i)] at hi
      exact hi.done
    rwa [hpos, hpos] at hmixed
  | cons a as ih =>
    obtain ⟨u, hu, hrun⟩ := run_cons_eq_some.mp hrun
    cases hu
    have hopen' := hopen.tail
    obtain ⟨i, act⟩ := a
    cases act with
    | flush k =>
      obtain ⟨next, hi, ha⟩ := (h i).flush (v := w.view i) k
      obtain ⟨h', hmixed'⟩ := mixed_put h hmixed (s := (w.session i).act env (.flush k)) hi ha
      refine ih _ _ h' hmixed' ?_ hopen' hrun
      intro j
      have hj := hcarries j
      rw [requestsOf_flush] at hj
      by_cases hij : j = i
      · subst hij
        rwa [Function.update_self]
      · rwa [Function.update_of_ne hij]
    | request os data =>
      obtain ⟨d, ds, req, hrest, hreads, hfile, _, hlast, hd, hnext⟩ := carries_next (hcarries i)
      have hi := h i
      rw [hrest] at hi
      obtain ⟨next, hi', ha⟩ := hi.handle (v := w.view i) hlast
      have hfiles := files_act hroot hbio w i (hopen i os data List.mem_cons_self) hreads hfile hd
      rw [← hfiles] at hi' ha
      obtain ⟨h', hmixed'⟩ := mixed_put h hmixed hi' ha
      exact ih _ _ h' hmixed' (carries_update os data (fun j _ => hcarries j) hnext) hopen' hrun

/-- The first packet of a session empties the file and starts its upload. -/
theorem first_packet {w : UploadSystem Bool κ} {i : Bool} {os : FsOutcome} {data : Bytes}
    {as : List (Bool × UploadAction)} {parts : List Bytes} (hclosed : w.outs i = none)
    (hcarries : List.Forall₂ (env.Carries r) (requestsOf i ((i, .request os data) :: as))
      (Piece.ofParts path true parts)) (hos : os.DirsOk ∧ os.opens = true) :
    ∃ ds next,
      Uploading path parts.flatten ((w.session i).act env (.request os data)).files.out ds next ∧
        Advances 0 parts.flatten [] 0 (((w.session i).act env (.request os data)).files.disk path)
          next ∧
        List.Forall₂ (env.Carries r) (requestsOf i as) (Piece.ofParts path false ds) := by
  obtain ⟨d, ds, req, rfl, hreads, hfile, hseq, hlast, hd, hnext⟩ := carries_next hcarries
  have hopened := uploading_openOn path (w.view i) (List.cons_ne_nil d ds)
  obtain ⟨next, hi, ha⟩ := hopened.handle hlast
  have hempty : ((w.view i).openOn .trunc path).disk path = [] := Function.update_self _ _ _
  rw [← handle_first hclosed (hseq.mpr rfl), ← files_act hroot hbio w i hos hreads hfile hd]
    at hi ha
  rw [hempty] at ha
  exact ⟨ds, next, hi, ha, hnext⟩

/-- Two sessions of which one is in the middle of its upload and the other has yet
to begin leave the file mixed. -/
theorem mixed_of_second {content : Bool → Bytes} {l : Bool} {as : List (Bool × UploadAction)}
    {w w' : UploadSystem Bool κ} {rest parts : List Bytes} {pos : Nat}
    (h : Uploading path (content !l) (w.outs !l) rest pos) (hclosed : w.outs l = none)
    (hcontent : content l = parts.flatten) (hparts : parts ≠ [])
    (hfirst : List.Forall₂ (env.Carries r) (requestsOf (!l) as) (Piece.ofParts path false rest))
    (hsecond : List.Forall₂ (env.Carries r) (requestsOf l as) (Piece.ofParts path true parts))
    (hopen : AllOpen as) (hrun : run (UploadSystem.step env) w as = some w') :
    Mixed 0 (content !l) (content l) (content !l).length (content l).length (w'.disk path) := by
  have hne : l ≠ !l := Bool.self_ne_not l
  induction as generalizing w rest pos with
  | nil => exact absurd (parts_eq_nil hsecond) hparts
  | cons a as ih =>
    obtain ⟨u, hu, hrun⟩ := run_cons_eq_some.mp hrun
    cases hu
    have hopen' := hopen.tail
    obtain ⟨i, act⟩ := a
    by_cases hil : i = l
    · subst hil
      cases act with
      | flush k =>
        have hsame : ((w.session i).act env (.flush k)).files.out = none :=
          (congrArg View.out (View.flush_of_none 0 k hclosed)).trans hclosed
        have hother := w.outs_put_of_ne hne.symm ((w.session i).act env (.flush k))
        exact ih (hother ▸ h) ((w.outs_put_self i _).trans hsame) hfirst hsecond hopen' hrun
      | request os data =>
        obtain ⟨ds, next, hi, ha, hnext⟩ :=
          first_packet hroot hbio hclosed hsecond (hopen i os data List.mem_cons_self)
        rw [← hcontent] at hi ha
        refine mixed_of_run hroot hbio (Function.update (fun _ => rest) i ds)
          (Function.update (fun _ => pos) i next) ?_ ?_ (carries_update os data ?_ hnext) hopen' hrun
        · intro j
          by_cases hij : j = i
          · subst hij
            rw [Function.update_self, Function.update_self, w.outs_put_self]
            exact hi
          · obtain rfl : j = !i := Bool.eq_not_of_ne hij
            rw [Function.update_of_ne hij, Function.update_of_ne hij, w.outs_put_of_ne hij]
            exact h
        · rw [Function.update_self, Function.update_of_ne hne.symm]
          exact (mixed_nil 0 _ _ pos).advance_second ha
        · intro j hij
          obtain rfl : j = !i := Bool.eq_not_of_ne hij
          exact hfirst
    · obtain rfl : i = !l := Bool.eq_not_of_ne hil
      have hlast : ∀ act, (w.put (!l) ((w.session !l).act env act)).outs l = none :=
        fun act => (w.outs_put_of_ne hne _).trans hclosed
      cases act with
      | flush k =>
        obtain ⟨next, hi, _⟩ := h.flush (v := w.view !l) k
        have hself := w.outs_put_self (!l) ((w.session !l).act env (.flush k))
        exact ih (hself ▸ hi) (hlast _) hfirst hsecond hopen' hrun
      | request os data =>
        obtain ⟨d, ds, req, rfl, hreads, hfile, _, hmark, hd, hnext⟩ := carries_next hfirst
        obtain ⟨next, hi, _⟩ := h.handle (v := w.view !l) hmark
        rw [← files_act hroot hbio w (!l) (hopen (!l) os data List.mem_cons_self) hreads hfile hd]
          at hi
        rw [requestsOf_request_of_ne hne] at hsecond
        have hself := w.outs_put_self (!l) ((w.session !l).act env (.request os data))
        exact ih (hself ▸ hi) (hlast _) hnext hsecond hopen' hrun

/-- Of two sessions that have yet to begin one begins last; they leave the file mixed. -/
theorem exists_mixed {content : Bool → Bytes} {parts : Bool → List Bytes}
    {as : List (Bool × UploadAction)} {w w' : UploadSystem Bool κ} (hclosed : ∀ i, w.outs i = none)
    (hcontent : ∀ i, content i = (parts i).flatten) (hparts : ∀ i, parts i ≠ [])
    (hcarries : ∀ i, List.Forall₂ (env.Carries r) (requestsOf i as)
      (Piece.ofParts path true (parts i)))
    (hopen : AllOpen as) (hrun : run (UploadSystem.step env) w as = some w') :
    ∃ l, (∃ bs cs, as = bs ++ cs ∧ requestsOf l bs = [] ∧ requestsOf (!l) bs ≠ []) ∧
      Mixed 0 (content !l) (content l) (content !l).length (content l).length (w'.disk path) := by
  induction as generalizing w with
  | nil => exact absurd (parts_eq_nil (hcarries true)) (hparts true)
  | cons a as ih =>
    obtain ⟨u, hu, hrun⟩ := run_cons_eq_some.mp hrun
    cases hu
    have hopen' := hopen.tail
    obtain ⟨i, act⟩ := a
    cases act with
    | flush k =>
      have hclosed' : ∀ j, (w.put i ((w.session i).act env (.flush k))).outs j = none := by
        intro j
        by_cases hij : j = i
        · subst hij
          rw [w.outs_put_self]
          exact (congrArg View.out (View.flush_of_none 0 k (hclosed j))).trans (hclosed j)
        · rw [w.outs_put_of_ne hij]
          exact hclosed j
      obtain ⟨l, ⟨bs, cs, rfl, hnone, hsome⟩, hmixed⟩ := ih hclosed' hcarries hopen' hrun
      exact ⟨l, ⟨(i, .flush k) :: bs, cs, rfl, hnone, hsome⟩, hmixed⟩
    | request os data =>
      obtain ⟨l, rfl⟩ : ∃ l, i = !l := ⟨!i, (Bool.not_not i).symm⟩
      have hne : l ≠ !l := Bool.self_ne_not l
      refine ⟨l, ⟨[(!l, .request os data)], as, rfl, requestsOf_request_of_ne hne os data [], ?_⟩, ?_⟩
      · rw [requestsOf_request_self]
        exact List.cons_ne_nil _ _
      · obtain ⟨ds, next, hi, _, hnext⟩ := first_packet hroot hbio (hclosed !l) (hcarries !l)
          (hopen (!l) os data List.mem_cons_self)
        rw [← hcontent] at hi
        have hself := w.outs_put_self (!l) ((w.session !l).act env (.request os data))
        have hsecond := hcarries l
        rw [requestsOf_request_of_ne hne] at hsecond
        exact mixed_of_second hroot hbio (hself ▸ hi)
          ((w.outs_put_of_ne hne _).trans (hclosed l)) (hcontent l) (hparts l) hnext hsecond hopen'
          hrun

/-- When all requests of one session come before the first of the other, the file
holds the later upload. -/
theorem content_of_serial {u : Bool → Upload env} (hfile : ∀ i, env.file r (u i).name = path)
    {disk : Disk κ Byte} {i : Bool} {bs cs : List (Bool × UploadAction)}
    {w : UploadSystem Bool κ} (hopen : AllOpen (bs ++ cs))
    (hplan : ∀ i, requestsOf i (bs ++ cs) = (u i).datas) (hbs : requestsOf i bs = [])
    (hcs : requestsOf (!i) cs = [])
    (hrun : run (UploadSystem.step env) (UploadSystem.init disk) (bs ++ cs) = some w) :
    w.disk path = (u i).content := by
  have happend : ∀ j, requestsOf j bs ++ requestsOf j cs = (u j).datas :=
    fun j => List.filterMap_append.symm.trans (hplan j)
  have hfirst := happend !i
  have hsecond := happend i
  rw [hcs, List.append_nil] at hfirst
  rw [hbs, List.nil_append] at hsecond
  obtain ⟨w', hw', hrest⟩ := run_append_eq_some.mp hrun
  obtain ⟨disk', htracks, _⟩ := (UploadSystem.tracks_init disk).run_alone hroot hbio hfirst
    (fun j hj => by rw [Bool.eq_not_of_ne hj, Bool.not_not, hbs])
    (fun j os data hm => hopen j os data (List.mem_append_left cs hm)) hw'
  obtain ⟨disk'', htracks', hcontent⟩ := htracks.run_alone hroot hbio hsecond
    (fun j hj => by rw [Bool.eq_not_of_ne hj, hcs])
    (fun j os data hm => hopen j os data (List.mem_append_right bs hm)) hrest
  rw [htracks'.rest path fun _ => (Option.some_ne_none path).symm, ← hfile i]
  exact hcontent

end

/-- Two uploads of one file. One of the two sessions begins last; the file is as
long as its upload or as the longer of the two, and each byte of it is the byte one
of the uploads has at that position, or a zero behind the end of that session's
upload. If the requests of the two do not overlap, it is the later upload. -/
theorem mixed_uploads (env : UploadEnv κ) (r : String) (hroot : env.resourceRoot = some r)
    (hbio : LawfulBioRead env.bioRead) (disk : Disk κ Byte) (u : Bool → Upload env) (path : κ)
    (hfile : ∀ i, env.file r (u i).name = path) (as : List (Bool × UploadAction))
    (hopen : AllOpen as) (hplan : ∀ i, requestsOf i as = (u i).datas) (w : UploadSystem Bool κ)
    (hrun : run (UploadSystem.step env) (UploadSystem.init disk) as = some w) :
    (∃ l, (∃ bs cs, as = bs ++ cs ∧ requestsOf l bs = [] ∧ requestsOf (!l) bs ≠ []) ∧
        Mixed 0 (u !l).content (u l).content (u !l).content.length (u l).content.length
          (w.disk path)) ∧
      ∀ i bs cs, as = bs ++ cs → requestsOf i bs = [] → requestsOf (!i) cs = [] →
        w.disk path = (u i).content := by
  constructor
  · have hcarries : ∀ i, List.Forall₂ (env.Carries r) (requestsOf i as)
        (Piece.ofParts path true (u i).parts) := by
      intro i
      rw [hplan i, ← hfile i]
      exact (u i).carries r
    exact exists_mixed hroot hbio (fun _ => rfl) (fun _ => rfl) (fun i => (u i).parts_ne_nil)
      hcarries hopen hrun
  · rintro i bs cs rfl hbs hcs
    exact content_of_serial hroot hbio hfile hopen hplan hbs hcs hrun

/-- The packets of two uploads of a file `a`, one in two parts and one in a single longer one. -/
private def samePackets : List (Bytes × Json) :=
  [([4], packetRoot "a" 1 false "aG8="), ([5], packetRoot "a" 2 true "aGk="),
    ([6], packetRoot "a" 1 true "YWJjZGVm")]

private def shortUpload : Upload (tableEnv samePackets) where
  name := "a"
  datas := [[4], [5]]
  parts := [[104, 111], [104, 105]]
  ne_nil := List.cons_ne_nil _ _
  length_eq := rfl
  packet := by
    rintro (_ | _ | k) data d hdata hd
    · cases hdata
      cases hd
      exact ⟨_, reads_packetRoot rfl, rfl, rfl, rfl, by decide +kernel⟩
    · cases hdata
      cases hd
      exact ⟨_, reads_packetRoot rfl, rfl, rfl, rfl, by decide +kernel⟩
    · cases hdata

private def longUpload : Upload (tableEnv samePackets) where
  name := "a"
  datas := [[6]]
  parts := [[97, 98, 99, 100, 101, 102]]
  ne_nil := List.cons_ne_nil _ _
  length_eq := rfl
  packet := by
    rintro (_ | k) data d hdata hd
    · cases hdata
      cases hd
      exact ⟨_, reads_packetRoot rfl, rfl, rfl, rfl, by decide +kernel⟩
    · cases hdata

/-- The long upload is handled between the two packets of the short one. -/
private def overlapping : List (Bool × UploadAction) :=
  [(false, .request ⟨some true, true, true⟩ [4]), (true, .request ⟨some true, true, true⟩ [6]),
    (false, .request ⟨some true, true, true⟩ [5])]

private theorem allOpen_overlapping : AllOpen overlapping := by
  intro i os data hm
  simp only [overlapping, List.mem_cons, Prod.mk.injEq, UploadAction.request.injEq,
    List.not_mem_nil, or_false] at hm
  rcases hm with ⟨_, rfl, _⟩ | ⟨_, rfl, _⟩ | ⟨_, rfl, _⟩ <;> exact ⟨Or.inl rfl, rfl⟩

private def bothUploads (i : Bool) : Upload (tableEnv samePackets) :=
  if i then longUpload else shortUpload

private theorem file_bothUploads (i : Bool) :
    (tableEnv samePackets).file "root" (bothUploads i).name = "root/bin/static/a" := by
  cases i <;> decide +kernel

private theorem requestsOf_overlapping (i : Bool) :
    requestsOf i overlapping = (bothUploads i).datas := by
  cases i <;> rfl

theorem mixed_uploads_overlapping :
    ∃ w, run (UploadSystem.step (tableEnv samePackets)) (UploadSystem.init fun _ => [])
        overlapping = some w ∧
      ∃ l, Mixed 0 (bothUploads !l).content (bothUploads l).content
        (bothUploads !l).content.length (bothUploads l).content.length
        (w.disk "root/bin/static/a") := by
  obtain ⟨⟨l, _, hmixed⟩, _⟩ := mixed_uploads (tableEnv samePackets) "root" rfl
    lawful_decodingBioRead (fun _ => []) bothUploads "root/bin/static/a" file_bothUploads
    overlapping allOpen_overlapping requestsOf_overlapping _ rfl
  exact ⟨_, rfl, l, hmixed⟩

/-- The short upload is written over the beginning of the long one. -/
theorem not_serialisable :
    ¬∀ (env : UploadEnv String) (r path : String), env.resourceRoot = some r →
      LawfulBioRead env.bioRead → ∀ (disk : Disk String Byte) (u : Bool → Upload env),
      (∀ i, env.file r (u i).name = path) → ∀ as, AllOpen as →
      (∀ i, requestsOf i as = (u i).datas) → ∀ w,
      run (UploadSystem.step env) (UploadSystem.init disk) as = some w →
      w.disk path = (u false).content ∨ w.disk path = (u true).content := by
  intro h
  have hor := h (tableEnv samePackets) "root" "root/bin/static/a" rfl lawful_decodingBioRead
    (fun _ => []) bothUploads file_bothUploads overlapping allOpen_overlapping
    requestsOf_overlapping _ rfl
  revert hor
  decide +kernel

end ResourceServer
