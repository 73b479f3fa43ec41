import ResourceServer.Uploads.Resume

/-!
# Runs of a resumed upload

While the first session is sending nothing of the second reaches the file, and once it
has sent its part every step is in turn or makes the two sessions clash for good.
-/

namespace ResourceServer

open FileStream Transition

namespace UploadSessions

section

variable {κ : Type} [DecidableEq κ] {env : UploadEnv κ} {r : String} {path : κ}
  {s t w : UploadSessions Bool κ}

omit [DecidableEq κ] in
/-- Once both sessions are destroyed the queue is empty and the streams are closed. -/
theorem Clean.closed (h : w.Clean) (hdestroyed : ∀ i, w.destroyed i = true) :
    w.logicQue = [] ∧ ∀ i, w.uploads.outs i = none := by
  refine ⟨?_, fun i => h.out i (hdestroyed i)⟩
  apply List.eq_nil_iff_forall_not_mem.mpr
  intro node hnode
  exact h.node node.1 (hdestroyed node.1) node hnode rfl

/-- While the second session is sending, the file becomes the two texts exactly if all
goes in order. -/
theorem Sending.run (hroot : env.resourceRoot = some r) (hbio : LawfulBioRead env.bioRead)
    {rest : List Bytes} {as : List (UploadSessionsAction Bool)} (h : Sending env r path rest s as)
    (hresumes : Along (UploadSessions.step env) (Resumes env) s as)
    (hopens : Along (UploadSessions.step env) Opens s as)
    (hrun : Transition.run (UploadSessions.step env) s as = some w)
    (hdestroyed : ∀ i, w.destroyed i = true) (text text' : Bytes) :
    (s.uploads.Turns path text text' → (w.uploads.disk path = text ++ (text' ++ rest.flatten) ↔
        Along (UploadSessions.step env) (InOrder env) s as)) ∧
      (s.uploads.Clashes path text text' →
        w.uploads.disk path ≠ text ++ (text' ++ rest.flatten)) := by
  induction as generalizing s rest text' with
  | nil =>
    cases hrun
    obtain ⟨datas, hcoming, hcarries⟩ := h.coming
    obtain ⟨hque, houts⟩ := h.clean.closed hdestroyed
    have hnone : datas = [] := by simpa [UploadSessions.coming, hque, posts] using hcoming
    subst hnone
    have hnil : rest = [] := by
      cases rest with
      | nil => rfl
      | cons d rest => cases hcarries
    subst hnil
    rw [List.flatten_nil, List.append_nil, UploadSystem.Turns, UploadSystem.Clashes, houts, houts]
    exact ⟨fun hturns => iff_of_true hturns.file_eq trivial, fun hclashes => hclashes.file_ne⟩
  | cons a as ih =>
    obtain ⟨t, ht, hrun⟩ := run_cons_eq_some.mp hrun
    obtain ⟨hnow, hresumes⟩ := (along_cons ht).mp hresumes
    obtain ⟨hopen, hopens⟩ := (along_cons ht).mp hopens
    obtain ⟨d, rest', hflatten, hsending, hmoves⟩ := h.step hroot hbio hnow hopen ht
    obtain ⟨hturns, hclashes⟩ := ih hsending hresumes hopens hrun (text' ++ d)
    rw [hflatten, ← List.append_assoc text', along_cons ht]
    refine ⟨fun hbefore => ?_, fun hbefore => hclashes (hmoves.stays _ _ hbefore)⟩
    by_cases hok : InOrder env s a
    · rw [and_iff_right hok]
      exact hturns (hmoves.keeps _ _ hok hbefore)
    · exact iff_of_false (hclashes (hmoves.breaks _ _ hok hbefore)) fun hall => hok hall.1

/-! ## The first session before it -/

/-- What the first session has done so far: nothing yet, or `text` on the emptied file. -/
def Begun (path : κ) (first : Bool) (text : Bytes) (v : UploadSystem Bool κ) : Prop :=
  v.outs true = none ∧ if first then v.outs false = none ∧ text = []
    else (v.outs false).isSome = true ∧ v.Turns path text []

/-- The first session has parts `ds` to send, and then the second has the parts `rest`. -/
structure Leading (env : UploadEnv κ) (r : String) (path : κ) (first : Bool) (ds rest : List Bytes)
    (text : Bytes) (s : UploadSessions Bool κ) (as : List (UploadSessionsAction Bool)) : Prop where
  clean : s.Clean
  coming : ∃ datas datas', s.coming as = datas.map (Prod.mk false) ++ datas'.map (Prod.mk true) ∧
    List.Forall₂ (env.Carries r) datas (Piece.unfinished path first ds) ∧
    List.Forall₂ (env.Carries r) datas' (Piece.ofParts path false rest)
  ne_nil : ds ≠ []
  begun : Begun path first text s.uploads

omit [DecidableEq κ] in
/-- A request of the first session is the next. -/
theorem Leading.exists_coming {first : Bool} {ds rest : List Bytes} {text : Bytes}
    {as : List (UploadSessionsAction Bool)} (h : Leading env r path first ds rest text s as) :
    ∃ data others, s.coming as = (false, data) :: others := by
  obtain ⟨datas, datas', hcoming, hcarries, _⟩ := h.coming
  cases ds with
  | nil => exact absurd rfl h.ne_nil
  | cons d ds =>
    cases datas with
    | nil => cases hcarries
    | cons data datas => exact ⟨data, _, hcoming⟩

omit [DecidableEq κ] in
/-- A step that leaves a session's files as they are changes no stream and no file. -/
theorem Begun.put {first : Bool} {text : Bytes} {v : UploadSystem Bool κ} {i : Bool}
    {u : UploadState κ} (h : Begun path first text v) (hu : u.files = v.view i) :
    Begun path first text (v.put i u) := by
  have houts : (v.put i u).outs = v.outs := by
    simp [UploadSystem.put, hu, UploadSystem.view]
  have hdisk : (v.put i u).disk = v.disk := by
    simp [UploadSystem.put, hu, UploadSystem.view]
  rw [Begun, UploadSystem.Turns, houts, hdisk]
  exact h

/-- A flush leaves the second session's stream closed and the first one in turn. -/
theorem Begun.flush {first : Bool} {text : Bytes} {v : UploadSystem Bool κ}
    (h : Begun path first text v) (i : Bool) (k : Nat) :
    Begun path first text (v.put i ((v.session i).act env (.flush k))) := by
  cases i with
  | true => exact h.put (View.flush_of_none 0 k h.1)
  | false =>
    cases first with
    | true => exact h.put (View.flush_of_none 0 k h.2.1)
    | false =>
      obtain ⟨hnone, hsome, hturns⟩ := h
      refine ⟨(v.outs_put_of_ne Bool.noConfusion _).trans hnone, ?_, ?_⟩
      · rw [v.outs_put_self, ← Option.isSome_map]
        rw [← Option.isSome_map (f := OutStream.path)] at hsome
        exact ((v.view false).path_out_flush 0 k).symm ▸ hsome
      · exact (UploadSystem.moves_flush_false v env k).keeps text [] trivial hturns

/-- A packet of the first session, which is not the last of its upload. -/
theorem Begun.request {first opens : Bool} {text d : Bytes} {v : UploadSystem Bool κ}
    {req : UploadFields} {u : UploadState κ} (h : Begun path first text v)
    (hu : u.files = req.handle opens path d (v.view false)) (hseq : req.seq = 1 ↔ first = true)
    (hlast : req.last = false) (hopens : v.outs false = none → opens = true) :
    Begun path false (text ++ d) (v.put false u) := by
  have hfiles : u.files = (openFile opens req.seq path (v.view false)).write d := by
    rw [hu, UploadFields.handle, hlast]
    rfl
  have hturn : InTurn path text [] (openFile opens req.seq path (v.view false)).out (v.outs true)
      ((openFile opens req.seq path (v.view false)).disk path) := by
    cases first with
    | true =>
      obtain ⟨hnone, hclosed, rfl⟩ := h
      rw [hnone, hopens hclosed, openFile_of_none _ _ (v := v.view false) hclosed,
        if_pos (hseq.mpr rfl)]
      exact inTurn_openOn path _
    | false =>
      obtain ⟨st, hst⟩ := Option.isSome_iff_exists.mp h.2.1
      rw [openFile_of_some _ _ _ (v := v.view false) hst]
      exact h.2.2
  have hopened := isSome_openFile (v := v.view false) hopens req.seq path
  refine ⟨(v.outs_put_of_ne Bool.noConfusion _).trans h.1, ?_, ?_⟩
  · rw [v.outs_put_self, hfiles]
    obtain ⟨st, hst⟩ := Option.isSome_iff_exists.mp hopened
    simp [View.write, hst]
  · rw [UploadSystem.turns_put_false, hfiles]
    exact hturn.write_first hopened d

/-- A packet of the first session leads on to its next one, or to the second session. -/
theorem Leading.dealMessage (hroot : env.resourceRoot = some r) (hbio : LawfulBioRead env.bioRead)
    {first : Bool} {ds rest : List Bytes} {text : Bytes} {os : FsOutcome}
    {as : List (UploadSessionsAction Bool)}
    (h : Leading env r path first ds rest text s (.dealMessage os :: as))
    (hresumes : Resumes env s (.dealMessage os)) (hopens : Opens s (.dealMessage os))
    (hs : s.step env (.dealMessage os) = some t) :
    InOrder env s (.dealMessage os) ∧ ∃ d ds', ds = d :: ds' ∧
      (ds' ≠ [] ∧ Leading env r path false ds' rest (text ++ d) t as ∨
        ds' = [] ∧ Sending env r path rest t as ∧ t.uploads.Turns path (text ++ d) []) := by
  have hclean := h.clean.step hs
  obtain ⟨datas, datas', hcoming, hcarries, hlater⟩ := h.coming
  obtain ⟨i, data, que, hque, hnext, rfl⟩ := dealMessage_cases hs
  rw [hnext] at hcoming
  cases ds with
  | nil => exact absurd rfl h.ne_nil
  | cons d ds =>
    cases datas with
    | nil => cases hcarries
    | cons data' datas =>
      obtain ⟨⟨⟩, hremain⟩ := List.cons.inj hcoming
      obtain ⟨hdata, hcarries⟩ := List.forall₂_cons.mp hcarries
      obtain ⟨req, _, hseq, hlast, _, hfiles⟩ :=
        files_of_answered hroot hbio (hresumes false data que hque) hdata
      have hbegun := h.begun.request hfiles hseq hlast (hopens false data que hque)
      refine ⟨?_, d, ds, rfl, ?_⟩
      · intro data' rest' req' hque'
        cases hque.symm.trans hque'
      · cases ds with
        | nil =>
          cases hcarries
          exact Or.inr ⟨rfl, ⟨hclean, datas', hremain, hlater⟩, hbegun.2.2⟩
        | cons d' ds =>
          refine Or.inl ⟨List.cons_ne_nil d' ds, hclean, ⟨datas, datas', hremain, ?_, hlater⟩,
            List.cons_ne_nil d' ds, hbegun⟩
          exact hcarries

/-- Any other step leaves the first session where it is. -/
theorem Leading.other {first : Bool} {ds rest : List Bytes} {text : Bytes}
    {a : UploadSessionsAction Bool} {as : List (UploadSessionsAction Bool)}
    (h : Leading env r path first ds rest text s (a :: as)) (ha : ∀ os, a ≠ .dealMessage os)
    (hs : s.step env a = some t) (hrun : Transition.run (UploadSessions.step env) t as = some w) :
    InOrder env s a ∧ Leading env r path first ds rest text t as := by
  suffices InOrder env s a ∧ Begun path first text t.uploads by
    obtain ⟨datas, datas', hcoming, hcarries⟩ := h.coming
    exact ⟨this.1, h.clean.step hs, ⟨datas, datas', (coming_step hs ha as).trans hcoming, hcarries⟩,
      h.ne_nil, this.2⟩
  have hnone : buffered (s.uploads.outs true) = [] := by rw [h.begun.1, buffered_none]
  cases a with
  | post i data | close i =>
    obtain ⟨_, ⟨⟩⟩ := Option.ite_none_left_eq_some.mp hs
    exact ⟨trivial, h.begun⟩
  | dealMessage os => exact absurd rfl (ha os)
  | flush i k =>
    cases hs
    refine ⟨?_, h.begun.flush i k⟩
    cases i with
    | false => trivial
    | true => exact Or.inl (by rw [hnone, List.take_nil])
  | destroy i =>
    cases i with
    | false =>
      obtain ⟨data, others, hcoming⟩ := h.exists_coming
      exact absurd rfl (ne_of_mem_coming hs hrun (false, data) (hcoming ▸ List.mem_cons_self))
    | true =>
      obtain ⟨_, ⟨⟩⟩ := Option.ite_none_right_eq_some.mp hs
      refine ⟨Or.inl hnone, h.begun.put ?_⟩
      simp [View.close, View.settled, UploadSystem.view, h.begun.1]

/-- From the first session's next packet on, the file becomes the upload exactly if all
goes in order. -/
theorem Leading.run (hroot : env.resourceRoot = some r) (hbio : LawfulBioRead env.bioRead)
    {first : Bool} {ds rest : List Bytes} {text : Bytes} {as : List (UploadSessionsAction Bool)}
    (h : Leading env r path first ds rest text s as)
    (hresumes : Along (UploadSessions.step env) (Resumes env) s as)
    (hopens : Along (UploadSessions.step env) Opens s as)
    (hrun : Transition.run (UploadSessions.step env) s as = some w)
    (hdestroyed : ∀ i, w.destroyed i = true) :
    w.uploads.disk path = text ++ (ds.flatten ++ rest.flatten) ↔
      Along (UploadSessions.step env) (InOrder env) s as := by
  induction as generalizing s first ds text with
  | nil =>
    cases hrun
    obtain ⟨data, others, hcoming⟩ := h.exists_coming
    rw [UploadSessions.coming, (h.clean.closed hdestroyed).1] at hcoming
    contradiction
  | cons a as ih =>
    obtain ⟨t, ht, hrun'⟩ := run_cons_eq_some.mp hrun
    obtain ⟨hnow, hresumes'⟩ := (along_cons ht).mp hresumes
    obtain ⟨hopen, hopens'⟩ := (along_cons ht).mp hopens
    rw [along_cons ht]
    by_cases hdeal : ∃ os, a = .dealMessage os
    · obtain ⟨os, rfl⟩ := hdeal
      obtain ⟨hok, d, ds, rfl, ⟨_, hleading⟩ | ⟨rfl, hsending, hturns⟩⟩ :=
        h.dealMessage hroot hbio hnow hopen ht
      · rw [and_iff_right hok, ← ih hleading hresumes' hopens' hrun', List.flatten_cons,
          List.append_assoc, List.append_assoc]
      · have hlater := (hsending.run hroot hbio hresumes' hopens' hrun' hdestroyed (text ++ d) []).1
        rw [and_iff_right hok, ← hlater hturns]
        simp
    · obtain ⟨hok, hleading⟩ := h.other (fun os ha => hdeal ⟨os, ha⟩) ht hrun'
      rw [and_iff_right hok]
      exact ih hleading hresumes' hopens' hrun'

/-- The posts of a schedule are those of the first session and then those of the second. -/
theorem posts_eq {as : List (UploadSessionsAction Bool)}
    (hresumes : Along (UploadSessions.step env) (Resumes env) s as)
    (hrun : Transition.run (UploadSessions.step env) s as = some w) :
    posts as = (posted false as).map (Prod.mk false) ++ (posted true as).map (Prod.mk true) ∧
      (s.isStop false = true → posted false as = []) := by
  induction as generalizing s with
  | nil => exact ⟨rfl, fun _ => rfl⟩
  | cons a as ih =>
    obtain ⟨t, ht, hrun⟩ := run_cons_eq_some.mp hrun
    obtain ⟨hnow, hresumes'⟩ := (along_cons ht).mp hresumes
    obtain ⟨heq, hstopped⟩ := ih hresumes' hrun
    cases a with
    | post i data =>
      obtain ⟨_, ⟨⟩⟩ := Option.ite_none_left_eq_some.mp ht
      have hcons : posts (.post i data :: as) = (i, data) :: posts as := rfl
      cases i with
      | false =>
        refine ⟨?_, fun hstop => absurd (hstop.symm.trans hnow) Bool.noConfusion⟩
        rw [hcons, heq]
        simp
      | true =>
        refine ⟨?_, fun hstop => by simpa using hstopped hstop⟩
        rw [hcons, heq, hstopped hnow]
        simp [hstopped hnow]
    | dealMessage os | flush i k | close i | destroy i =>
      exact ⟨heq, fun hstop => hstopped ((ends_step ht false).2 hstop)⟩

/-- A session sends the first `k` packets of an upload and is closed, and another one
sends the rest. When every open succeeds and both are destroyed, the file is the upload
exactly if the bytes of the second session have reached it only while the first had
none left to write. -/
theorem resumed_iff_inOrder (env : UploadEnv κ) (r : String) (hroot : env.resourceRoot = some r)
    (hbio : LawfulBioRead env.bioRead) (disk : Disk κ Byte) (u : Upload env) (k : Nat) (hk : 1 ≤ k)
    (hlt : k < u.datas.length) (as : List (UploadSessionsAction Bool)) (w : UploadSessions Bool κ)
    (hrun : Transition.run (UploadSessions.step env) (init disk) as = some w)
    (hfirst : posted false as = u.datas.take k) (hsecond : posted true as = u.datas.drop k)
    (hresumes : Along (UploadSessions.step env) (Resumes env) (init disk) as)
    (hopens : Along (UploadSessions.step env) Opens (init disk) as)
    (hdestroyed : ∀ i, w.destroyed i = true) :
    w.uploads.disk (env.file r u.name) = u.content ↔
      Along (UploadSessions.step env) (InOrder env) (init disk) as := by
  obtain ⟨m, rfl⟩ : ∃ m, k = m + 1 := ⟨k - 1, (Nat.sub_add_cancel hk).symm⟩
  have hshort : m + 1 < u.parts.length := u.length_eq ▸ hlt
  have hcarries := List.forall₂_take (m + 1) (u.carries r)
  have hcarries' := List.forall₂_drop (m + 1) (u.carries r)
  rw [Upload.pieces, Piece.take_ofParts _ _ hshort] at hcarries
  rw [Upload.pieces, Piece.drop_ofParts] at hcarries'
  have hleading : Leading env r (env.file r u.name) true (u.parts.take (m + 1))
      (u.parts.drop (m + 1)) [] (init disk) as := by
    refine ⟨clean_init disk, ⟨_, _, ?_, hcarries, hcarries'⟩, ?_, rfl, rfl, rfl⟩
    · rw [← hfirst, ← hsecond]
      exact (posts_eq hresumes hrun).1
    · apply List.ne_nil_of_length_pos
      rw [List.length_take]
      omega
  have hiff := hleading.run hroot hbio hresumes hopens hrun hdestroyed
  rwa [List.nil_append, ← List.flatten_append, List.take_append_drop] at hiff

end

/-- The packets of an upload of a file `e` in two parts. -/
private def resumedPackets : List (Bytes × Json) :=
  [([7], packetRoot "e" 1 false "aG8="), ([8], packetRoot "e" 2 true "aGkh")]

private def resumedUpload : Upload (tableEnv resumedPackets) where
  name := "e"
  datas := [[7], [8]]
  parts := [[104, 111], [104, 105, 33]]
  ne_nil := List.cons_ne_nil _ _
  length_eq := rfl
  packet := by
    rintro (_ | _ | k) data d hdata hd
    · cases hdata
      cases hd
      exact ⟨_, reads_packetRoot rfl, rfl, rfl, rfl, by decide +kernel⟩
    · cases hdata
      cases hd
      exact ⟨_, reads_packetRoot rfl, rfl, rfl, rfl, by decide +kernel⟩
    · cases hdata

/-- The directory is there and the file opens. -/
private def opening : FsOutcome := ⟨some true, true, true⟩

private theorem answered_resumed {data : Bytes} (hdata : data = [7] ∨ data = [8])
    (s : UploadState String) : Answered (tableEnv resumedPackets) opening data s := by
  rcases hdata with rfl | rfl
  · exact UploadEnv.Handles.answered ⟨reads_packetRoot rfl, rfl, Or.inl rfl,
      lawful_decodingBioRead.base64Decode (d := [104, 111]) (by decide +kernel)⟩
  · exact UploadEnv.Handles.answered ⟨reads_packetRoot rfl, rfl, Or.inl rfl,
      lawful_decodingBioRead.base64Decode (d := [104, 105, 33]) (by decide +kernel)⟩

/-- The two posts stand on either side of the close, and each packet finds the file. -/
private def delivers (s : UploadSessions Bool String) : UploadSessionsAction Bool → Bool
  | .post i _ => s.isStop false == i
  | .dealMessage os =>
    os == opening && s.logicQue.all fun node => node.2 == [7] || node.2 == [8]
  | _ => true

private theorem resumes_of_delivers {s : UploadSessions Bool String}
    {a : UploadSessionsAction Bool} (h : delivers s a = true) :
    Resumes (tableEnv resumedPackets) s a ∧ Opens s a := by
  cases a with
  | post i data => exact ⟨eq_of_beq h, trivial⟩
  | dealMessage os =>
    obtain ⟨hos, hque⟩ := Bool.and_eq_true_iff.mp h
    cases eq_of_beq hos
    refine ⟨fun i data rest hfront => ?_, fun _ _ _ _ _ => rfl⟩
    apply answered_resumed
    simpa [hfront] using (List.all_eq_true.mp hque) (i, data) (hfront ▸ List.mem_cons_self)
  | flush i k | close i | destroy i => exact ⟨trivial, trivial⟩

/-- The second packet arrives once the first session has been destroyed. -/
private def patient : List (UploadSessionsAction Bool) :=
  [.post false [7], .dealMessage opening, .close false, .destroy false, .post true [8],
    .dealMessage opening, .destroy true]

theorem resumed_iff_inOrder_patient :
    Along (step (tableEnv resumedPackets)) (InOrder (tableEnv resumedPackets))
      (init fun _ => []) patient := by
  have hdelivers : Along (step (tableEnv resumedPackets)) (fun s a => delivers s a = true)
      (init fun _ => []) patient := by
    decide +kernel
  have hrun : (run (step (tableEnv resumedPackets)) (init fun _ => []) patient).any fun w =>
      decide ((∀ i, w.destroyed i = true) ∧
        w.uploads.disk "root/bin/static/e" = resumedUpload.content) := by
    decide +kernel
  obtain ⟨w, hw, h⟩ := (Option.any_eq_true _ _).mp hrun
  obtain ⟨hdestroyed, hcontent⟩ := of_decide_eq_true h
  exact (resumed_iff_inOrder (tableEnv resumedPackets) "root" rfl lawful_decodingBioRead
    (fun _ => []) resumedUpload 1 le_rfl (by decide) patient w hw rfl rfl
    (hdelivers.mono fun s a ha => (resumes_of_delivers ha).1)
    (hdelivers.mono fun s a ha => (resumes_of_delivers ha).2) hdestroyed).mp hcontent

/-- The first session outlives the second, whose bytes it then writes over. -/
theorem not_resumed :
    ¬ ∀ (env : UploadEnv String) (r : String), env.resourceRoot = some r →
      LawfulBioRead env.bioRead → ∀ (disk : Disk String Byte) (u : Upload env) k, 1 ≤ k →
      k < u.datas.length → ∀ as w, Transition.run (step env) (init disk) as = some w →
      posted false as = u.datas.take k → posted true as = u.datas.drop k →
      Along (step env) (Resumes env) (init disk) as → (∀ i, w.destroyed i = true) →
      w.uploads.disk (env.file r u.name) = u.content := by
  intro hall
  let late : List (UploadSessionsAction Bool) :=
    [.post false [7], .dealMessage opening, .close false, .post true [8], .dealMessage opening,
      .destroy true, .destroy false]
  have hdelivers : Along (step (tableEnv resumedPackets)) (fun s a => delivers s a = true)
      (init fun _ => []) late := by
    decide +kernel
  have hrun : (run (step (tableEnv resumedPackets)) (init fun _ => []) late).any fun w =>
      decide ((∀ i, w.destroyed i = true) ∧
        w.uploads.disk "root/bin/static/e" = [104, 111, 33]) := by
    decide +kernel
  obtain ⟨w, hw, h⟩ := (Option.any_eq_true _ _).mp hrun
  obtain ⟨hdestroyed, hcontent⟩ := of_decide_eq_true h
  have hfile := hall (tableEnv resumedPackets) "root" rfl lawful_decodingBioRead (fun _ => [])
    resumedUpload 1 le_rfl (by decide) late w hw rfl rfl
    (hdelivers.mono fun s a ha => (resumes_of_delivers ha).1) hdestroyed
  have hpath : (tableEnv resumedPackets).file "root" resumedUpload.name = "root/bin/static/e" := by
    decide +kernel
  rw [hpath, hcontent] at hfile
  exact absurd hfile (by decide)

end UploadSessions

end ResourceServer
