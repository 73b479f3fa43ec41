import ResourceServer.Core.FileFrame
import ResourceServer.Uploads.Reassembly

/-!
# One session among others

A session that sends whole uploads, beside sessions that send any requests for
other files: what these leave unfinished, repeat or break off is theirs alone. The
session is seen as the only one of a system whose other files may change.
-/

namespace ResourceServer

open FileStream Transition

variable {κ : Type} [DecidableEq κ]

/-- A request that names none of the files. -/
def UploadEnv.Avoids (env : UploadEnv κ) (r : String) (own : κ → Prop) (data : Bytes) : Prop :=
  ∀ req, env.Reads data req → ¬ own (env.file r req.filename)

section

variable {env : UploadEnv κ} {own : κ → Prop} {v : View κ Byte}

/-- A stream that is open is not opened on another file. -/
theorem keeps_openFile (opens : Bool) (seq : BitVec 64) {path : κ} (h : v.ClearOf own)
    (hpath : ¬ own path) : v.Keeps own (openFile opens seq path v) := by
  cases hout : v.out with
  | some st =>
    rw [openFile_of_some opens seq path hout]
    exact h.keeps
  | none =>
    cases opens with
    | false =>
      rw [openFile_of_refused]
      exact h.keeps
    | true =>
      rw [openFile_of_none seq path hout]
      exact View.keeps_openOn _ hpath

/-- A request for another file, on a stream that is on another, keeps the files. -/
theorem UploadEnv.Avoids.keeps {r : String} {data : Bytes} (h : env.Avoids r own data)
    (hroot : env.resourceRoot = some r) (os : FsOutcome) {s : UploadState κ}
    (hclear : s.files.ClearOf own) : s.files.Keeps own (doUploadFileReq env os data s).files := by
  rcases doUploadFileReq_cases env os data s with
    ⟨hf, _⟩ | ⟨req, r', _, hreads, hroot', _, _, hf, _⟩ | ⟨req, r', buffer, hhandles⟩
  · rw [hf]
    exact hclear.keeps
  · cases hroot.symm.trans hroot'
    rw [hf]
    exact keeps_openFile _ _ hclear (h req hreads)
  · cases hroot.symm.trans hhandles.root
    rw [hhandles.files_eq, UploadFields.handle]
    have hopened := keeps_openFile os.opens req.seq hclear (h req hhandles.reads)
    have hwritten := hopened.trans (hopened.clear.keeps_write buffer)
    split
    · exact hwritten.trans (hwritten.clear.keeps_close 0)
    · exact hwritten

end

variable {ι : Type} [DecidableEq ι]

omit [DecidableEq κ] in
/-- What happens to session `i` in a schedule. -/
def actionsOf (i : ι) (as : List (ι × UploadAction)) : List (Unit × UploadAction) :=
  as.filterMap fun a => if a.1 = i then some ((), a.2) else none

/-- A session's actions with one more of its own. -/
theorem actionsOf_self (i : ι) (a : UploadAction) (as : List (ι × UploadAction)) :
    actionsOf i ((i, a) :: as) = ((), a) :: actionsOf i as := by
  simp [actionsOf]

/-- A session's actions with one more of another. -/
theorem actionsOf_of_ne {i j : ι} (h : j ≠ i) (a : UploadAction) (as : List (ι × UploadAction)) :
    actionsOf i ((j, a) :: as) = actionsOf i as := by
  simp [actionsOf, h]

/-- The requests of a session are those of its actions. -/
theorem requestsOf_actionsOf (i : ι) (as : List (ι × UploadAction)) :
    requestsOf () (actionsOf i as) = requestsOf i as := by
  induction as with
  | nil => rfl
  | cons a as ih =>
    obtain ⟨j, a⟩ := a
    by_cases hji : j = i
    · subst hji
      rw [actionsOf_self]
      cases a with
      | request os data => rw [requestsOf_request_self, requestsOf_request_self, ih]
      | flush k => rw [requestsOf_flush, requestsOf_flush, ih]
    · rw [actionsOf_of_ne hji]
      cases a with
      | request os data => rw [requestsOf_request_of_ne (Ne.symm hji), ih]
      | flush k => rw [requestsOf_flush, ih]

namespace UploadSystem

omit [DecidableEq κ] [DecidableEq ι] in
/-- Session `i` and the files, without the other sessions. -/
def alone (i : ι) (w : UploadSystem ι κ) : UploadSystem Unit κ :=
  ⟨w.disk, fun _ => w.outs i, fun _ => w.sent i, w.asserts, w.createdDirs⟩

omit [DecidableEq κ] in
/-- A step of the session is a step of the session alone. -/
theorem alone_put_self (w : UploadSystem ι κ) (i : ι) (s : UploadState κ) :
    (w.put i s).alone i = (w.alone i).put () s := by
  simp only [alone, put, Function.update_self]
  congr 1

omit [DecidableEq κ] in
/-- A step of another session changes the files at most. -/
theorem alone_put_of_ne (w : UploadSystem ι κ) {i j : ι} (h : j ≠ i) (s : UploadState κ) :
    ((w.put j s).alone i).outs = (w.alone i).outs ∧
      (w.put j s).sent i = w.sent i := by
  refine ⟨?_, w.sent_put_of_ne (Ne.symm h) s⟩
  funext _
  exact w.outs_put_of_ne (Ne.symm h) s

/-- Where the files of the session are kept, what is tracked of it stays. -/
theorem Tracks.keeps {w w' : UploadSystem Unit κ} {opened : Option κ} {disk : Disk κ Byte}
    {own : κ → Prop} (h : w.Tracks (fun _ => opened) disk)
    (hopened : ∀ path, opened = some path → own path) (houts : w'.outs = w.outs)
    (hdisk : ∀ path, own path → w'.disk path = w.disk path) :
    ∃ disk', w'.Tracks (fun _ => opened) disk' ∧ ∀ path, own path → disk' path = disk path := by
  classical
  have hout : w'.outs () = w.outs () := congrFun houts ()
  have hown : ∀ st, w.outs () = some st → own st.path := by
    intro st hst
    refine hopened _ ?_
    rw [← h.path_eq (), hst]
    rfl
  have hend : (w'.view ()).AtEnd := by
    intro st hst
    have hst' := hout.symm.trans hst
    rcases h.atEnd () st hst' with hmode | hpos
    · exact Or.inl hmode
    · exact Or.inr (hpos.trans (congrArg List.length (hdisk _ (hown st hst')).symm))
  refine ⟨fun path => if own path then disk path else w'.disk path, ⟨fun _ => hend, ?_,
    fun _ _ _ _ _ => rfl, ?_, ?_⟩, fun path hp => if_pos hp⟩
  · intro _
    rw [hout]
    exact h.path_eq ()
  · intro _ path hp
    rw [if_pos (hopened path hp), ← h.content () path hp]
    obtain ⟨st, hst, rfl⟩ := Option.map_eq_some_iff.mp ((h.path_eq ()).trans hp)
    rw [hend.settled_self 0 (hout.trans hst), (h.atEnd ()).settled_self 0 hst]
    exact congrArg (· ++ st.buffer) (hdisk _ (hown st hst))
  · intro path hp
    by_cases ho : own path
    · rw [if_pos ho, hdisk path ho, h.rest path hp]
    · rw [if_neg ho]

/-- What the other sessions may do in a schedule: requests that name none of the files. -/
def OthersAvoid (env : UploadEnv κ) (r : String) (own : κ → Prop) (i : ι)
    (as : List (ι × UploadAction)) : Prop :=
  ∀ j os data, (j, UploadAction.request os data) ∈ as → j ≠ i → env.Avoids r own data

omit [DecidableEq κ] [DecidableEq ι] in
/-- What others avoid in a schedule they avoid in the rest of it. -/
theorem OthersAvoid.tail {env : UploadEnv κ} {r : String} {own : κ → Prop} {i : ι}
    {a : ι × UploadAction} {as : List (ι × UploadAction)} (h : OthersAvoid env r own i (a :: as)) :
    OthersAvoid env r own i as :=
  fun j os data hm => h j os data (List.mem_cons_of_mem a hm)

omit [DecidableEq κ] in
/-- The other streams stay clear of the files if the one that goes on does. -/
theorem clear_put {w : UploadSystem ι κ} {own : κ → Prop} {i j : ι} {s : UploadState κ}
    (hclear : ∀ k ≠ i, (w.view k).ClearOf own) (hs : j ≠ i → s.files.ClearOf own) :
    ∀ k ≠ i, ((w.put j s).view k).ClearOf own := by
  intro k hk
  by_cases hkj : k = j
  · subst hkj
    rw [view_put_self]
    exact hs hk
  · exact (hclear k hk).of_path_eq
      (congrArg (Option.map OutStream.path) (w.outs_put_of_ne hkj s))

omit [DecidableEq ι] in
/-- A step of another session keeps the files of session `i`, and leaves every other stream
clear of them. -/
theorem keeps_step {env : UploadEnv κ} {r : String} (hroot : env.resourceRoot = some r)
    {own : κ → Prop} {i j : ι} (hji : j ≠ i) {a : UploadAction} {as : List (ι × UploadAction)}
    (havoid : OthersAvoid env r own i ((j, a) :: as)) {w : UploadSystem ι κ}
    (hclear : ∀ j ≠ i, (w.view j).ClearOf own) :
    (w.view j).Keeps own ((w.session j).act env a).files := by
  cases a with
  | flush k => exact (hclear j hji).keeps_flush 0 k
  | request os data =>
    exact (havoid j os data List.mem_cons_self hji).keeps (s := w.session j) hroot os
      (hclear j hji)

/-- Handling all that is ahead of one session, with anything in between that keeps its files,
closes its stream, adds its pieces to them and answers all of its requests. -/
theorem Tracks.run_isolated {env : UploadEnv κ} {r : String} (hroot : env.resourceRoot = some r)
    (hbio : LawfulBioRead env.bioRead) {own : κ → Prop} {i : ι} {as : List (ι × UploadAction)}
    {w w' : UploadSystem ι κ} {opened : Option κ} {disk : Disk κ Byte} {ahead : List (Piece κ)}
    (h : (w.alone i).Tracks (fun _ => opened) disk) (hclear : ∀ j ≠ i, (w.view j).ClearOf own)
    (hahead : Ahead env r (fun _ => own) (fun _ => opened) (fun _ => ahead) (actionsOf i as))
    (hopen : AllOpen (actionsOf i as)) (havoid : OthersAvoid env r own i as)
    (hrun : Transition.run (step env) w as = some w') :
    w'.outs i = none ∧ (∀ path, own path → w'.disk path = ahead.foldl Piece.add disk path) ∧
      AnsweredSucess (w.sent i) (w'.sent i) ahead.length := by
  induction as generalizing w opened disk ahead with
  | nil =>
    cases hrun
    have hnil : ahead = [] := List.forall₂_nil_left_iff.mp (hahead.carries ())
    subst hnil
    obtain rfl := Option.some.inj (hahead.ends ())
    refine ⟨Option.map_eq_none_iff.mp (h.path_eq ()), ?_, [], (List.append_nil _).symm, rfl,
      fun _ hx => absurd hx List.not_mem_nil⟩
    exact fun path _ => h.rest path fun _ => (Option.some_ne_none path).symm
  | cons a as ih =>
    obtain ⟨u, hu, hrun⟩ := run_cons_eq_some.mp hrun
    cases hu
    obtain ⟨j, act⟩ := a
    by_cases hji : j = i
    · subst hji
      have hclear' := clear_put (s := (w.session j).act env act) hclear fun hne => absurd rfl hne
      rw [actionsOf_self] at hahead hopen
      cases act with
      | flush l =>
        have ht := h.flush env () l
        have hahead' : Ahead env r (fun _ => own) (fun _ => opened) (fun _ => ahead)
            (actionsOf j as) := ⟨hahead.owned_open, hahead.owned, hahead.ends, hahead.carries⟩
        rw [show (w.alone j).session () = w.session j from rfl, ← alone_put_self] at ht
        obtain ⟨hclosed, hmine, hsent⟩ := ih ht hclear' hahead' hopen.tail havoid.tail hrun
        rw [sent_put_self] at hsent
        exact ⟨hclosed, hmine, hsent⟩
      | request os data =>
        obtain ⟨p, ps, next, hp, _, hdata, hphase, hahead'⟩ := hahead.request
        obtain ⟨hdirs, hopens⟩ := hopen () os data List.mem_cons_self
        obtain ⟨ht, respond, hsucess, hanswer⟩ := h.request hroot hbio hdirs hopens hdata hphase
          fun k hk => absurd (Subsingleton.elim k ()) hk
        rw [Function.update_eq_const_of_subsingleton] at ht hahead'
        rw [Function.update_eq_const_of_subsingleton] at hahead'
        rw [show (w.alone j).session () = w.session j from rfl, ← alone_put_self] at ht
        obtain ⟨hclosed, hmine, answers, hafter, hlen, hall⟩ :=
          ih ht hclear' hahead' hopen.tail havoid.tail hrun
        rw [hp]
        refine ⟨hclosed, hmine, (.idUploadFileRsp, respond) :: answers, ?_, ?_, ?_⟩
        · rw [hafter, sent_put_self, show ((w.session j).act env _).sent = _ from hanswer,
            List.append_assoc]
          rfl
        · rw [List.length_cons, hlen, List.length_cons]
        · intro answer hmem
          rcases List.mem_cons.mp hmem with rfl | hmem
          · exact ⟨rfl, hsucess⟩
          · exact hall answer hmem
    · rw [actionsOf_of_ne hji] at hahead hopen
      have hkeeps := keeps_step hroot hji havoid hclear
      obtain ⟨houts, hsame⟩ := w.alone_put_of_ne hji ((w.session j).act env act)
      obtain ⟨disk', ht, hdisk⟩ := h.keeps (hahead.owned_open ()) houts hkeeps.disk_eq
      have hclear' := clear_put (j := j) hclear fun _ => hkeeps.clear
      obtain ⟨hclosed, hmine, hsent⟩ := ih ht hclear' hahead hopen havoid.tail hrun
      rw [hsame] at hsent
      refine ⟨hclosed, fun path hp => ?_, hsent⟩
      rw [hmine path hp]
      exact Piece.foldl_add_congr (hdisk path hp) ahead

end UploadSystem

end ResourceServer
