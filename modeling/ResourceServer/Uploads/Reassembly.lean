import ResourceServer.Uploads.Pieces

/-!
# Upload reassembly

Sessions that send whole uploads one after another, each to files of its own, are
tracked piece by piece: with every open stream's buffer counted in, the files hold
what their pieces make of them. Once all requests are handled every stream is
closed, so the disk itself holds the last upload made to each file.
-/

namespace ResourceServer

open FileStream Transition

variable {ι κ : Type} [DecidableEq ι] [DecidableEq κ]

/-- The request bodies of session `i` in a schedule. -/
def requestsOf (i : ι) (as : List (ι × UploadAction)) : List Bytes :=
  as.filterMap fun a =>
    match a.2 with
    | .request _ data => if a.1 = i then some data else none
    | .flush _ => none

/-- Every open and every call before it succeeds. -/
def AllOpen (as : List (ι × UploadAction)) : Prop :=
  ∀ i os data, (i, UploadAction.request os data) ∈ as → os.DirsOk ∧ os.opens = true

omit [DecidableEq ι] in
/-- What succeeds in a schedule succeeds in the rest of it. -/
theorem AllOpen.tail {a : ι × UploadAction} {as : List (ι × UploadAction)}
    (h : AllOpen (a :: as)) : AllOpen as :=
  fun i os data hm => h i os data (List.mem_cons_of_mem a hm)

namespace UploadSystem

omit [DecidableEq κ] in
@[simp] theorem view_put_self (w : UploadSystem ι κ) (i : ι) (s : UploadState κ) :
    (w.put i s).view i = s.files := by
  simp only [view, put, Function.update_self]

omit [DecidableEq κ] in
/-- A session put back has its own stream. -/
theorem outs_put_self (w : UploadSystem ι κ) (i : ι) (s : UploadState κ) :
    (w.put i s).outs i = s.files.out := Function.update_self _ _ _

omit [DecidableEq κ] in
/-- The other streams are as before. -/
theorem outs_put_of_ne (w : UploadSystem ι κ) {i j : ι} (h : j ≠ i) (s : UploadState κ) :
    (w.put i s).outs j = w.outs j := Function.update_of_ne h _ _

omit [DecidableEq κ] in
/-- A session put back has its own messages. -/
theorem sent_put_self (w : UploadSystem ι κ) (i : ι) (s : UploadState κ) :
    (w.put i s).sent i = s.sent := Function.update_self _ _ _

omit [DecidableEq κ] in
/-- The other messages are as before. -/
theorem sent_put_of_ne (w : UploadSystem ι κ) {i j : ι} (h : j ≠ i) (s : UploadState κ) :
    (w.put i s).sent j = w.sent j := Function.update_of_ne h _ _

/-- The streams are at the end of the files they are on, no two on one file, and
the files hold `disk` once they are closed. -/
structure Tracks (w : UploadSystem ι κ) (opened : ι → Option κ) (disk : Disk κ Byte) : Prop where
  atEnd : ∀ i, (w.view i).AtEnd
  path_eq : ∀ i, (w.outs i).map OutStream.path = opened i
  apart : ∀ i j path, opened i = some path → opened j = some path → i = j
  content : ∀ i path, opened i = some path → (w.view i).settled 0 path = disk path
  rest : ∀ path, (∀ i, opened i ≠ some path) → w.disk path = disk path

omit [DecidableEq ι] in
/-- No file is open at first. -/
theorem tracks_init (disk : Disk κ Byte) :
    (init disk : UploadSystem ι κ).Tracks (fun _ => none) disk where
  atEnd := by
    intro i st hst
    cases hst
  path_eq _ := rfl
  apart := by
    intro i j path hi
    contradiction
  content := by
    intro i path hi
    contradiction
  rest _ _ := rfl

/-- A session's view of a file it is on does not depend on the other files. -/
theorem Tracks.other {w : UploadSystem ι κ} {opened : ι → Option κ} {disk : Disk κ Byte}
    (h : w.Tracks opened disk) {i j : ι} (hij : j ≠ i) {s : UploadState κ}
    (hs : ∀ path, opened j = some path → s.files.disk path = w.disk path) :
    ((w.put i s).view j).AtEnd ∧ ((w.put i s).outs j).map OutStream.path = opened j ∧
      ∀ path, opened j = some path → ((w.put i s).view j).settled 0 path = disk path := by
  have hout := w.outs_put_of_ne hij s
  have hpath : ∀ st, w.outs j = some st → opened j = some st.path := by
    intro st hst
    rw [← h.path_eq j, hst]
    rfl
  have hend : ((w.put i s).view j).AtEnd := by
    intro st hst
    have hst' : w.outs j = some st := hout.symm.trans hst
    rcases h.atEnd j st hst' with hmode | hpos
    · exact Or.inl hmode
    · exact Or.inr (hpos.trans (congrArg List.length (hs _ (hpath st hst')).symm))
  refine ⟨hend, by rw [hout, h.path_eq], ?_⟩
  intro path hopen
  obtain ⟨st, hst, rfl⟩ := Option.map_eq_some_iff.mp ((h.path_eq j).trans hopen)
  rw [hend.settled_self 0 (hout.trans hst), ← h.content j _ hopen, (h.atEnd j).settled_self 0 hst]
  exact congrArg (· ++ st.buffer) (hs _ hopen)

/-- What session `i` is left with decides what the system tracks. -/
theorem Tracks.put {w : UploadSystem ι κ} {opened : ι → Option κ} {disk : Disk κ Byte}
    (h : w.Tracks opened disk) (i : ι) (s : UploadState κ) (next : Option κ) (disk' : Disk κ Byte)
    (hend : s.files.AtEnd) (hpath : s.files.out.map OutStream.path = next)
    (hcontent : ∀ path, next = some path → s.files.settled 0 path = disk' path)
    (hapart : ∀ j ≠ i, ∀ path, next = some path → opened j ≠ some path)
    (hother : ∀ j ≠ i, ∀ path, opened j = some path →
      s.files.disk path = w.disk path ∧ disk' path = disk path)
    (hrest : ∀ path, next ≠ some path → (∀ j ≠ i, opened j ≠ some path) →
      s.files.disk path = disk' path) :
    (w.put i s).Tracks (Function.update opened i next) disk' := by
  constructor
  · intro j
    by_cases hij : j = i
    · subst hij
      rw [view_put_self]
      exact hend
    · exact (h.other hij fun path hp => (hother j hij path hp).1).1
  · intro j
    by_cases hij : j = i
    · subst hij
      rw [Function.update_self, ← hpath]
      exact congrArg (fun v : View κ Byte => v.out.map OutStream.path) (w.view_put_self j s)
    · rw [Function.update_of_ne hij]
      exact (h.other hij fun path hp => (hother j hij path hp).1).2.1
  · intro j k path hj hk
    by_cases hji : j = i
    · by_cases hki : k = i
      · rw [hji, hki]
      · rw [hji, Function.update_self] at hj
        rw [Function.update_of_ne hki] at hk
        exact absurd hk (hapart k hki path hj)
    · rw [Function.update_of_ne hji] at hj
      by_cases hki : k = i
      · rw [hki, Function.update_self] at hk
        exact absurd hj (hapart j hji path hk)
      · rw [Function.update_of_ne hki] at hk
        exact h.apart j k path hj hk
  · intro j path hj
    by_cases hij : j = i
    · subst hij
      rw [Function.update_self] at hj
      rw [view_put_self]
      exact hcontent path hj
    · rw [Function.update_of_ne hij] at hj
      rw [(h.other hij fun path hp => (hother j hij path hp).1).2.2 path hj,
        (hother j hij path hj).2]
  · intro path hfree
    apply hrest
    · have hi := hfree i
      rwa [Function.update_self] at hi
    · intro j hij
      have hj := hfree j
      rwa [Function.update_of_ne hij] at hj

/-- Buffered bytes that reach their file change nothing that is tracked. -/
theorem Tracks.flush {w : UploadSystem ι κ} {opened : ι → Option κ} {disk : Disk κ Byte}
    (h : w.Tracks opened disk) (env : UploadEnv κ) (i : ι) (k : Nat) :
    (w.put i ((w.session i).act env (.flush k))).Tracks opened disk := by
  have hon : ∀ st ∈ w.outs i, opened i = some st.path := by
    intro st hst
    rw [← h.path_eq i, Option.mem_def.mp hst]
    rfl
  have hput := h.put i ((w.session i).act env (.flush k)) (opened i) disk
    ((h.atEnd i).flush 0 k) (((w.view i).path_out_flush 0 k).trans (h.path_eq i)) ?_ ?_ ?_ ?_
  · rwa [Function.update_eq_self] at hput
  · intro path hi
    exact (congrFun ((h.atEnd i).settled_flush 0 k) path).trans (h.content i path hi)
  · intro j hij path hi hj
    exact hij (h.apart j i path hj hi)
  · intro j hij path hj
    refine ⟨View.disk_flush_of_ne 0 k ?_, rfl⟩
    intro st hst hpath
    exact hij (h.apart j i path hj (hpath ▸ hon st hst))
  · intro path hi hfree
    refine (View.disk_flush_of_ne 0 k ?_).trans (h.rest path ?_)
    · intro st hst hpath
      exact hi (hpath ▸ hon st hst)
    · intro j
      by_cases hij : j = i
      · rwa [hij]
      · exact hfree j hij

omit [DecidableEq ι] in
/-- The stream a session's next piece finds: on the piece's own file, emptied if
the piece is the first, with the other files left alone. -/
theorem Tracks.openFile {w : UploadSystem ι κ} {opened : ι → Option κ} {disk : Disk κ Byte}
    (h : w.Tracks opened disk) {i : ι} {p : Piece κ} {next : Option κ}
    (hphase : p.phase (opened i) = some next) {seq : BitVec 64} (hseq : seq = 1 ↔ p.first = true) :
    (∃ st, (openFile true seq p.path (w.view i)).out = some st ∧ st.path = p.path) ∧
      (openFile true seq p.path (w.view i)).settled 0 p.path =
        (if p.first then [] else disk p.path) ∧
      ∀ path ≠ p.path, (openFile true seq p.path (w.view i)).disk path = w.disk path := by
  obtain ⟨_, ⟨hclosed, hfirst⟩ | ⟨hopen, hfirst⟩⟩ := Piece.phase_eq_some hphase
  · have hout : (w.view i).out = none := Option.map_eq_none_iff.mp ((h.path_eq i).trans hclosed)
    rw [openFile_of_none seq p.path hout, if_pos (hseq.mpr hfirst), hfirst]
    refine ⟨⟨_, rfl, rfl⟩, ?_, ?_⟩
    · rw [View.settled_openOn, if_pos rfl]
      exact Function.update_self _ _ _
    · intro path hne
      exact Function.update_of_ne hne _ _
  · obtain ⟨st, hst, hpath⟩ := Option.map_eq_some_iff.mp ((h.path_eq i).trans hopen)
    rw [openFile_of_some true seq p.path hst, hfirst, if_neg Bool.false_ne_true]
    exact ⟨⟨st, hst, hpath⟩, h.content i p.path hopen, fun _ _ => rfl⟩

/-- A request that carries the next piece of its session adds it, and is answered
with `E_SUCESS`. -/
theorem Tracks.request {w : UploadSystem ι κ} {opened : ι → Option κ} {disk : Disk κ Byte}
    (h : w.Tracks opened disk) {env : UploadEnv κ} {r : String} (hroot : env.resourceRoot = some r)
    (hbio : LawfulBioRead env.bioRead) {os : FsOutcome} (hdirs : os.DirsOk)
    (hopens : os.opens = true) {i : ι} {p : Piece κ} {data : Bytes} {next : Option κ}
    (hdata : env.Carries r data p) (hphase : p.phase (opened i) = some next)
    (hapart : ∀ j ≠ i, opened j ≠ some p.path) :
    (w.put i ((w.session i).act env (.request os data))).Tracks (Function.update opened i next)
        (p.add disk) ∧
      ∃ respond, respond.IsSucess ∧ ((w.session i).act env (.request os data)).sent =
        w.sent i ++ [(.idUploadFileRsp, respond)] := by
  obtain ⟨req, hreads, hfile, hseq, hlast, hd⟩ := hdata
  have hhandles : env.Handles os data req r p.bytes :=
    ⟨hreads, hroot, hdirs, hbio.base64Decode hd⟩
  have hfiles : ((w.session i).act env (.request os data)).files =
      req.handle true p.path p.bytes (w.view i) := by
    rw [← hopens, ← hfile]
    exact hhandles.files_eq
  obtain ⟨⟨st, hst, hpath⟩, hbefore, hkept⟩ := h.openFile hphase hseq
  obtain ⟨hnext, hsettled, hothers⟩ := UploadFields.handle_spec (h.atEnd i) hst hpath p.bytes
  obtain ⟨hnext', hcase⟩ := Piece.phase_eq_some hphase
  rw [← hfiles] at hnext hsettled hothers
  rw [hbefore] at hsettled
  rw [hlast, ← hnext'] at hnext
  refine ⟨h.put _ _ _ _ ?_ hnext ?_ ?_ ?_ ?_, successRespond req, isSucess_successRespond req,
    hhandles.sent_eq⟩
  · exact atEnd_doUploadFileReq env os data (h.atEnd i)
  · intro path hp
    rw [hp] at hnext'
    split at hnext'
    · contradiction
    · cases hnext'
      rw [Piece.add_self]
      exact hsettled
  · intro j hij path hp
    rw [hp] at hnext'
    split at hnext'
    · contradiction
    · cases hnext'
      exact hapart j hij
  · intro j hij path hj
    have hne : path ≠ p.path := fun he => hapart j hij (he ▸ hj)
    exact ⟨(hothers path hne).trans (hkept path hne), Piece.add_of_ne hne⟩
  · intro path hp hfree
    by_cases hne : path = p.path
    · subst hne
      rw [Piece.add_self]
      refine Eq.trans ?_ hsettled
      refine (View.settled_of_ne 0 ?_).symm
      intro st' hst' hpath'
      apply hp
      rw [← hnext, Option.mem_def.mp hst', Option.map_some, hpath']
    · rw [Piece.add_of_ne hne, hothers path hne, hkept path hne]
      apply h.rest path
      intro j
      by_cases hij : j = i
      · subst hij
        rcases hcase with ⟨hclosed, _⟩ | ⟨hopen, _⟩
        · rw [hclosed]
          exact (Option.some_ne_none path).symm
        · rw [hopen]
          exact fun he => hne (Option.some.inj he).symm
      · exact hfree j hij

end UploadSystem

omit [DecidableEq κ] in
@[simp] theorem requestsOf_flush (i j : ι) (k : Nat) (as : List (ι × UploadAction)) :
    requestsOf j ((i, .flush k) :: as) = requestsOf j as := rfl

@[simp] theorem requestsOf_request_self (i : ι) (os : FsOutcome) (data : Bytes)
    (as : List (ι × UploadAction)) :
    requestsOf i ((i, .request os data) :: as) = data :: requestsOf i as := by
  simp [requestsOf]

/-- A request of another session is not one of this one's. -/
theorem requestsOf_request_of_ne {i j : ι} (h : j ≠ i) (os : FsOutcome) (data : Bytes)
    (as : List (ι × UploadAction)) :
    requestsOf j ((i, .request os data) :: as) = requestsOf j as := by
  simp [requestsOf, h.symm]

/-- The requests of two schedules in turn. -/
theorem requestsOf_append (i : ι) (as bs : List (ι × UploadAction)) :
    requestsOf i (as ++ bs) = requestsOf i as ++ requestsOf i bs := List.filterMap_append

/-- The pieces still to come: each session's requests carry its own, on files of
its own, and end its last upload. -/
structure Ahead (env : UploadEnv κ) (r : String) (own : ι → κ → Prop) (opened : ι → Option κ)
    (ahead : ι → List (Piece κ)) (as : List (ι × UploadAction)) : Prop where
  owned_open : ∀ i path, opened i = some path → own i path
  owned : ∀ i, ∀ p ∈ ahead i, own i p.path
  ends : ∀ i, run Piece.phase (opened i) (ahead i) = some none
  carries : ∀ i, List.Forall₂ (env.Carries r) (requestsOf i as) (ahead i)

/-- The next request carries the first piece of its session. -/
theorem Ahead.request {env : UploadEnv κ} {r : String} {own : ι → κ → Prop}
    {opened : ι → Option κ} {ahead : ι → List (Piece κ)} {as : List (ι × UploadAction)} {i : ι}
    {os : FsOutcome} {data : Bytes}
    (h : Ahead env r own opened ahead ((i, .request os data) :: as)) :
    ∃ p ps next, ahead i = p :: ps ∧ own i p.path ∧ env.Carries r data p ∧
      p.phase (opened i) = some next ∧
      Ahead env r own (Function.update opened i next) (Function.update ahead i ps) as := by
  have hcarries := h.carries i
  rw [requestsOf_request_self] at hcarries
  obtain ⟨p, ps, hp, hps, hahead⟩ := List.forall₂_cons_left_iff.mp hcarries
  have hends := h.ends i
  rw [hahead] at hends
  obtain ⟨next, hphase, hrest⟩ := run_cons_eq_some.mp hends
  have hown : own i p.path := h.owned i p (hahead ▸ List.mem_cons_self)
  refine ⟨p, ps, next, hahead, hown, hp, hphase, ?_, ?_, ?_, ?_⟩
  · intro j path hj
    by_cases hij : j = i
    · subst hij
      rw [Function.update_self] at hj
      have hnext := (Piece.phase_eq_some hphase).1
      rw [hj] at hnext
      split at hnext
      · contradiction
      · cases hnext
        exact hown
    · rw [Function.update_of_ne hij] at hj
      exact h.owned_open j path hj
  · intro j q hq
    by_cases hij : j = i
    · subst hij
      rw [Function.update_self] at hq
      exact h.owned j q (hahead ▸ List.mem_cons_of_mem p hq)
    · rw [Function.update_of_ne hij] at hq
      exact h.owned j q hq
  · intro j
    by_cases hij : j = i
    · subst hij
      rw [Function.update_self, Function.update_self]
      exact hrest
    · rw [Function.update_of_ne hij, Function.update_of_ne hij]
      exact h.ends j
  · intro j
    by_cases hij : j = i
    · subst hij
      rw [Function.update_self]
      exact hps
    · rw [Function.update_of_ne hij, ← requestsOf_request_of_ne hij os data as]
      exact h.carries j

namespace UploadSystem

/-- `k` more answers, all of them `E_SUCESS`. -/
def AnsweredSucess (before after : List (ReqId × Json)) (k : Nat) : Prop :=
  ∃ answers, after = before ++ answers ∧ answers.length = k ∧
    ∀ answer ∈ answers, answer.1 = .idUploadFileRsp ∧ answer.2.IsSucess

/-- Handling all that is ahead closes every stream, adds each session's pieces to
its own files and to no other, and answers every request. -/
theorem Tracks.run {env : UploadEnv κ} {r : String} (hroot : env.resourceRoot = some r)
    (hbio : LawfulBioRead env.bioRead) {own : ι → κ → Prop}
    (hown : ∀ i j path, own i path → own j path → i = j) {as : List (ι × UploadAction)}
    {w w' : UploadSystem ι κ} {opened : ι → Option κ} {disk : Disk κ Byte}
    {ahead : ι → List (Piece κ)} (h : w.Tracks opened disk)
    (hahead : Ahead env r own opened ahead as) (hopen : AllOpen as)
    (hrun : Transition.run (step env) w as = some w') :
    ∃ disk', w'.Tracks (fun _ => none) disk' ∧
      (∀ i path, own i path → disk' path = (ahead i).foldl Piece.add disk path) ∧
      (∀ path, (∀ i, ¬own i path) → disk' path = disk path) ∧
      ∀ i, AnsweredSucess (w.sent i) (w'.sent i) (ahead i).length := by
  induction as generalizing w opened disk ahead with
  | nil =>
    cases hrun
    have hnil : ∀ i, ahead i = [] := fun i => List.forall₂_nil_left_iff.mp (hahead.carries i)
    have hclosed : opened = fun _ => none := by
      funext i
      have hends := hahead.ends i
      rw [hnil i] at hends
      exact Option.some.inj hends
    subst hclosed
    refine ⟨disk, h, ?_, fun _ _ => rfl, ?_⟩
    · intro i path _
      rw [hnil i]
      rfl
    · intro i
      rw [hnil i]
      exact ⟨[], (List.append_nil _).symm, rfl, fun _ hx => absurd hx List.not_mem_nil⟩
  | cons a as ih =>
    obtain ⟨u, hu, hrun⟩ := run_cons_eq_some.mp hrun
    cases hu
    have hopen' := hopen.tail
    obtain ⟨i, act⟩ := a
    cases act with
    | flush k =>
      have hahead' : Ahead env r own opened ahead as :=
        ⟨hahead.owned_open, hahead.owned, hahead.ends, hahead.carries⟩
      obtain ⟨disk', ht, hmine, hfree, hsent⟩ := ih (h.flush env i k) hahead' hopen' hrun
      refine ⟨disk', ht, hmine, hfree, ?_⟩
      intro j
      have hj := hsent j
      by_cases hij : j = i
      · subst hij
        rwa [sent_put_self] at hj
      · rwa [sent_put_of_ne w hij] at hj
    | request os data =>
      obtain ⟨p, ps, next, hp, hownp, hdata, hphase, hahead'⟩ := hahead.request
      obtain ⟨hdirs, hopens⟩ := hopen i os data List.mem_cons_self
      have hapart : ∀ j ≠ i, opened j ≠ some p.path :=
        fun j hij hj => hij (hown j i _ (hahead.owned_open j _ hj) hownp)
      obtain ⟨ht, respond, hsucess, hanswer⟩ :=
        h.request hroot hbio hdirs hopens hdata hphase hapart
      obtain ⟨disk', ht', hmine, hfree, hsent⟩ := ih ht hahead' hopen' hrun
      refine ⟨disk', ht', ?_, ?_, ?_⟩
      · intro j path hj
        rw [hmine j path hj]
        by_cases hij : j = i
        · subst hij
          rw [Function.update_self, hp, List.foldl_cons]
        · rw [Function.update_of_ne hij]
          refine Piece.foldl_add_congr (Piece.add_of_ne ?_) _
          rintro rfl
          exact hij (hown j i _ hj hownp)
      · intro path hnone
        rw [hfree path hnone]
        apply Piece.add_of_ne
        rintro rfl
        exact hnone i hownp
      · intro j
        obtain ⟨answers, hafter, hlen, hall⟩ := hsent j
        by_cases hij : j = i
        · subst hij
          rw [Function.update_self] at hlen
          rw [sent_put_self, hanswer, List.append_assoc] at hafter
          refine ⟨(.idUploadFileRsp, respond) :: answers, hafter, ?_, ?_⟩
          · rw [List.length_cons, hlen, hp, List.length_cons]
          · intro answer hmem
            rcases List.mem_cons.mp hmem with rfl | hmem
            · exact ⟨rfl, hsucess⟩
            · exact hall answer hmem
        · rw [Function.update_of_ne hij] at hlen
          rw [sent_put_of_ne w hij] at hafter
          exact ⟨answers, hafter, hlen, hall⟩

/-- One session's upload, with nobody else sending: its file holds it, and every
stream is closed again. -/
theorem Tracks.run_alone {env : UploadEnv κ} {r : String} (hroot : env.resourceRoot = some r)
    (hbio : LawfulBioRead env.bioRead) {as : List (ι × UploadAction)} {w w' : UploadSystem ι κ}
    {disk : Disk κ Byte} (h : w.Tracks (fun _ => none) disk) {i : ι} {u : Upload env}
    (hself : requestsOf i as = u.datas) (hothers : ∀ j ≠ i, requestsOf j as = [])
    (hopen : AllOpen as) (hrun : Transition.run (step env) w as = some w') :
    ∃ disk', w'.Tracks (fun _ => none) disk' ∧ disk' (env.file r u.name) = u.content := by
  have hahead : Ahead env r (fun j _ => j = i) (fun _ => none)
      (Function.update (fun _ => []) i (u.pieces r)) as := by
    refine ⟨?_, ?_, ?_, ?_⟩
    · intro j path hj
      contradiction
    · intro j p hp
      by_contra hij
      rw [Function.update_of_ne hij] at hp
      exact List.not_mem_nil hp
    · intro j
      by_cases hij : j = i
      · rw [hij, Function.update_self]
        exact Piece.run_phase_ofParts _ true u.parts_ne_nil
      · rw [Function.update_of_ne hij]
        rfl
    · intro j
      by_cases hij : j = i
      · rw [hij, Function.update_self, hself]
        exact u.carries r
      · rw [Function.update_of_ne hij, hothers j hij]
        exact List.Forall₂.nil
  obtain ⟨disk', htracks, hmine, _⟩ := h.run hroot hbio (fun _ _ _ hj hk => hj.trans hk.symm)
    hahead hopen hrun
  refine ⟨disk', htracks, ?_⟩
  rw [hmine i _ rfl, Function.update_self]
  exact Piece.foldl_add_ofParts _ true u.parts_ne_nil disk

/-- Upload reassembly. When sessions have sent whole uploads back to back, no two
of them to one file, and every open has succeeded, then in whatever order their
requests were handled and their buffers written: each file holds the last upload
made to it, other files what they held before, every stream is closed, and every
request was answered with `E_SUCESS`. -/
theorem reassembly (env : UploadEnv κ) (r : String) (hroot : env.resourceRoot = some r)
    (hbio : LawfulBioRead env.bioRead) (disk : Disk κ Byte) (plan : ι → List (Upload env))
    (hapart : ∀ i j, ∀ u ∈ plan i, ∀ v ∈ plan j, env.file r u.name = env.file r v.name → i = j)
    (as : List (ι × UploadAction)) (hopen : AllOpen as)
    (hplan : ∀ i, requestsOf i as = (plan i).flatMap Upload.datas) (w : UploadSystem ι κ)
    (hrun : Transition.run (step env) (init disk) as = some w) :
    (∀ i us u vs, plan i = us ++ u :: vs → (∀ v ∈ vs, env.file r v.name ≠ env.file r u.name) →
        w.disk (env.file r u.name) = u.content) ∧
      (∀ path, (∀ i, ∀ u ∈ plan i, env.file r u.name ≠ path) → w.disk path = disk path) ∧
      (∀ i, w.outs i = none) ∧
      ∀ i, AnsweredSucess [] (w.sent i) (requestsOf i as).length := by
  have hcarries : ∀ i, List.Forall₂ (env.Carries r) (requestsOf i as)
      ((plan i).flatMap fun u => u.pieces r) := by
    intro i
    rw [hplan i]
    exact Upload.carries_flatMap (plan i) r
  have hahead : Ahead env r (fun i path => ∃ u ∈ plan i, env.file r u.name = path)
      (fun _ => none) (fun i => (plan i).flatMap fun u => u.pieces r) as := by
    refine ⟨?_, ?_, fun i => Upload.run_phase (plan i) r, hcarries⟩
    · intro i path hi
      contradiction
    · intro i p hp
      obtain ⟨u, hu, hpu⟩ := List.mem_flatMap.mp hp
      exact ⟨u, hu, (Upload.path_of_mem_pieces hpu).symm⟩
  have hown : ∀ i j path, (∃ u ∈ plan i, env.file r u.name = path) →
      (∃ v ∈ plan j, env.file r v.name = path) → i = j := by
    rintro i j path ⟨u, hu, hup⟩ ⟨v, hv, hvp⟩
    exact hapart i j u hu v hv (hup.trans hvp.symm)
  obtain ⟨disk', htracks, hmine, hfree, hsent⟩ :=
    (tracks_init disk).run hroot hbio hown hahead hopen hrun
  have hdisk : ∀ path, w.disk path = disk' path :=
    fun path => htracks.rest path fun _ => (Option.some_ne_none path).symm
  refine ⟨?_, ?_, ?_, ?_⟩
  · intro i us u vs hi hlast
    rw [hdisk, hmine i _ ⟨u, hi ▸ List.mem_append_right us List.mem_cons_self, rfl⟩, hi]
    exact Upload.foldl_add_of_last hlast disk
  · intro path hnone
    rw [hdisk]
    apply hfree
    rintro i ⟨u, hu, hup⟩
    exact hnone i u hu hup
  · intro i
    exact Option.map_eq_none_iff.mp (htracks.path_eq i)
  · intro i
    have hi := hsent i
    rwa [← (hcarries i).length_eq] at hi

/-- Two packets of a file `a` and the only one of a file `b`. -/
private def threePackets : List (Bytes × Json) :=
  [([1], packetRoot "a" 1 false "aGk="), ([2], packetRoot "a" 2 true "aG8="),
    ([3], packetRoot "b" 1 true "eA==")]

private def uploadOfA : Upload (tableEnv threePackets) where
  name := "a"
  datas := [[1], [2]]
  parts := [[104, 105], [104, 111]]
  ne_nil := List.cons_ne_nil _ _
  length_eq := rfl
  packet := by
    rintro (_ | _ | k) data d hdata hd
    · cases hdata
      cases hd
      exact ⟨_, reads_packetRoot rfl, rfl, rfl, rfl, by decide +kernel⟩
    · cases hdata
      cases hd
      exact ⟨_, reads_packetRoot rfl, rfl, rfl, rfl, by decide +kernel⟩
    · cases hdata

private def uploadOfB : Upload (tableEnv threePackets) where
  name := "b"
  datas := [[3]]
  parts := [[120]]
  ne_nil := List.cons_ne_nil _ _
  length_eq := rfl
  packet := by
    rintro (_ | k) data d hdata hd
    · cases hdata
      cases hd
      exact ⟨_, reads_packetRoot rfl, rfl, rfl, rfl, by decide +kernel⟩
    · cases hdata

private def twoSessions : List (Bool × UploadAction) :=
  [(false, .request ⟨some true, true, true⟩ [1]), (true, .request ⟨some true, true, true⟩ [3]),
    (false, .flush 1), (false, .request ⟨some true, true, true⟩ [2])]

/-- A file is what its packets held, though those of another session came in between. -/
theorem reassembly_two :
    ∃ w, Transition.run (step (tableEnv threePackets)) (init fun _ => [120]) twoSessions = some w ∧
      w.disk "root/bin/static/a" = [104, 105, 104, 111] := by
  refine ⟨_, rfl, (reassembly (tableEnv threePackets) "root" rfl lawful_decodingBioRead
    (fun _ => [120]) (fun i => if i then [uploadOfB] else [uploadOfA]) ?_ twoSessions ?_ ?_ _
    rfl).1 false [] uploadOfA [] rfl (fun v hv => absurd hv List.not_mem_nil)⟩
  · have hne :
        (tableEnv threePackets).file "root" "a" ≠ (tableEnv threePackets).file "root" "b" := by
      decide +kernel
    rintro (_ | _) (_ | _) u hu v hv h
    · rfl
    · rw [List.mem_singleton.mp hu, List.mem_singleton.mp hv] at h
      exact absurd h hne
    · rw [List.mem_singleton.mp hu, List.mem_singleton.mp hv] at h
      exact absurd h.symm hne
    · rfl
  · intro i os data hm
    simp only [twoSessions, List.mem_cons, Prod.mk.injEq, UploadAction.request.injEq, reduceCtorEq,
      and_false, List.not_mem_nil, or_false, false_or] at hm
    rcases hm with ⟨_, rfl, _⟩ | ⟨_, rfl, _⟩ | ⟨_, rfl, _⟩ <;> exact ⟨Or.inl rfl, rfl⟩
  · rintro (_ | _) <;> rfl

end UploadSystem

end ResourceServer
