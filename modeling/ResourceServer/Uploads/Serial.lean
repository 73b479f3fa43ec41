import Mathlib.Data.Fintype.Defs
import ResourceServer.Uploads.Reassembly

/-!
# Uploads in a serial order

Any number of sessions upload any files, the same ones too. As long as no file is
opened while a stream of another session is on it, the files are at every moment
what the completed uploads make of them one after another.
-/

namespace ResourceServer

open FileStream Transition

section Order

variable {ι α : Type*} [DecidableEq ι]

/-- What session `i` has in a common order. -/
def inOrderOf (i : ι) (order : List (ι × α)) : List α :=
  order.filterMap fun x => if x.1 = i then some x.2 else none

/-- A session's entries with one more of its own. -/
theorem inOrderOf_snoc_self (i : ι) (order : List (ι × α)) (x : α) :
    inOrderOf i (order ++ [(i, x)]) = inOrderOf i order ++ [x] := by
  simp [inOrderOf]

/-- A session's entries with one more of another. -/
theorem inOrderOf_snoc_of_ne {i j : ι} (h : j ≠ i) (order : List (ι × α)) (x : α) :
    inOrderOf j (order ++ [(i, x)]) = inOrderOf j order := by
  simp [inOrderOf, h.symm]

end Order

/-- What follows an initial part of a list, in a longer one, is its next entry. -/
theorem getElem?_of_take_prefix {α : Type*} {l m : List α} {k : Nat} {x : α} (hk : k < l.length)
    (h : l.take k ++ [x] <+: l ++ m) : l[k]? = some x := by
  have hlen : (l.take k).length = k := List.length_take_of_le hk.le
  have hx := List.prefix_iff_getElem?.mp h k (by simp [hlen])
  rw [List.getElem?_append_left hk] at hx
  rw [hx]
  simp [hlen]

section Requests

variable {ι : Type} [DecidableEq ι] {i j : ι} (as : List (ι × UploadAction))

@[simp] theorem requestsOf_snoc_flush (k : Nat) :
    requestsOf j (as ++ [(i, .flush k)]) = requestsOf j as := by
  rw [requestsOf_append]
  exact List.append_nil _

@[simp] theorem requestsOf_snoc_self (os : FsOutcome) (data : Bytes) :
    requestsOf i (as ++ [(i, .request os data)]) = requestsOf i as ++ [data] := by
  rw [requestsOf_append, requestsOf_request_self]
  rfl

/-- A session's requests with one more of another. -/
theorem requestsOf_snoc_of_ne (h : j ≠ i) (os : FsOutcome) (data : Bytes) :
    requestsOf j (as ++ [(i, .request os data)]) = requestsOf j as := by
  rw [requestsOf_append, requestsOf_request_of_ne h]
  exact List.append_nil _

end Requests

section

variable {κ : Type} [DecidableEq κ] {env : UploadEnv κ} {r : String}

namespace Upload

/-- The disk once the upload is complete: its content takes the place of its file's. -/
def store (r : String) (disk : Disk κ Byte) (u : Upload env) : Disk κ Byte :=
  Function.update disk (env.file r u.name) u.content

omit [DecidableEq κ] in
/-- Every packet of an upload has its part. -/
theorem exists_part (u : Upload env) {k : Nat} {data : Bytes} (h : u.datas[k]? = some data) :
    ∃ d, u.parts[k]? = some d := by
  have hk := (List.getElem?_eq_some_iff.mp h).1
  rw [u.length_eq] at hk
  exact ⟨_, List.getElem?_eq_getElem hk⟩

omit [DecidableEq κ] in
/-- The packet numbered `k + 1` carries a piece of the upload's file. -/
theorem carries_packet (u : Upload env) (r : String) {k : Nat} {data d : Bytes}
    (hdata : u.datas[k]? = some data) (hd : u.parts[k]? = some d) :
    env.Carries r data ⟨env.file r u.name, decide (k = 0), decide (k + 1 = u.datas.length), d⟩ := by
  obtain ⟨req, hreads, hname, hseq, hlast, hdecode⟩ := u.packet k data d hdata hd
  refine ⟨req, hreads, congrArg (env.file r) hname, ?_, hlast, hdecode⟩
  rw [decide_eq_true_iff, ← BitVec.toNat_inj, hseq]
  simp

end Upload

/-- Where a session is in its uploads: the file it is in the middle of, the packets of the
current upload it has sent, and the uploads it has not completed. -/
inductive Stage (r : String) (disk : Disk κ Byte) :
    Option κ → List Bytes → List (Upload env) → Prop
  | between (todo : List (Upload env)) : Stage r disk none [] todo
  | within (u : Upload env) (us : List (Upload env)) (k : Nat) (hpos : 0 < k)
      (hlt : k < u.datas.length) (hdisk : disk (env.file r u.name) = (u.parts.take k).flatten) :
      Stage r disk (some (env.file r u.name)) (u.datas.take k) (u :: us)

namespace Stage

variable {disk disk' : Disk κ Byte} {open? : Option κ} {begun : List Bytes}
  {todo : List (Upload env)}

omit [DecidableEq κ] in
/-- A stage depends on the file it is in the middle of. -/
theorem congr (h : Stage r disk open? begun todo)
    (hdisk : ∀ path, open? = some path → disk' path = disk path) :
    Stage r disk' open? begun todo := by
  cases h with
  | between => exact between todo
  | within u us k hpos hlt hcontent => exact within u us k hpos hlt ((hdisk _ rfl).trans hcontent)

omit [DecidableEq κ] in
/-- The next packet is the next one of the first upload that is not complete. -/
theorem exists_packet (h : Stage r disk open? begun todo) {data : Bytes}
    (hnext : begun ++ [data] <+: todo.flatMap Upload.datas) :
    ∃ (u : Upload env) (us : List (Upload env)) (k : Nat), todo = u :: us ∧
      begun = u.datas.take k ∧ u.datas[k]? = some data ∧
      open? = (if k = 0 then none else some (env.file r u.name)) ∧
      (k ≠ 0 → disk (env.file r u.name) = (u.parts.take k).flatten) := by
  cases h with
  | between =>
    cases todo with
    | nil => exact absurd (List.prefix_nil.mp hnext) (List.cons_ne_nil _ _)
    | cons u us =>
      rw [List.flatMap_cons] at hnext
      have hlt : 0 < u.datas.length := List.length_pos_iff.mpr u.ne_nil
      exact ⟨u, us, 0, rfl, rfl, getElem?_of_take_prefix hlt hnext, rfl, fun h => absurd rfl h⟩
  | within u us k hpos hlt hcontent =>
    rw [List.flatMap_cons] at hnext
    exact ⟨u, us, k, rfl, rfl, getElem?_of_take_prefix hlt hnext, (if_neg hpos.ne').symm,
      fun _ => hcontent⟩

omit [DecidableEq κ] in
/-- A session that has sent all its packets is in the middle of no upload. -/
theorem eq_nil (h : Stage r disk open? begun todo) (hall : begun = todo.flatMap Upload.datas) :
    open? = none ∧ todo = [] := by
  cases h with
  | between =>
    cases todo with
    | nil => exact ⟨rfl, rfl⟩
    | cons u us =>
      rw [List.flatMap_cons] at hall
      exact absurd (List.append_eq_nil_iff.mp hall.symm).1 u.ne_nil
  | within u us k hpos hlt hcontent =>
    have hlen := congrArg List.length hall
    rw [List.flatMap_cons, List.length_append, List.length_take_of_le hlt.le] at hlen
    omega

/-- The next packet carries a piece that its session can add. It completes the upload, or
leaves the session in the middle of it. -/
theorem exists_next (h : Stage r disk open? begun todo) {data : Bytes}
    (hnext : begun ++ [data] <+: todo.flatMap Upload.datas) :
    ∃ (u : Upload env) (us : List (Upload env)) (p : Piece κ), todo = u :: us ∧
      p.path = env.file r u.name ∧ env.Carries r data p ∧
      (p.phase open? = some none ∧ begun ++ [data] = u.datas ∧
          p.content (disk p.path) = u.content ∨
        p.phase open? = some (some p.path) ∧
          Stage r (p.add disk) (some p.path) (begun ++ [data]) todo) := by
  obtain ⟨u, us, k, rfl, rfl, hdata, rfl, hcontent⟩ := h.exists_packet hnext
  obtain ⟨d, hd⟩ := u.exists_part hdata
  have hk := (List.getElem?_eq_some_iff.mp hdata).1
  have hbegun : u.datas.take k ++ [data] = u.datas.take (k + 1) := by
    rw [List.take_add_one, hdata]
    rfl
  let p : Piece κ :=
    ⟨env.file r u.name, decide (k = 0), decide (k + 1 = u.datas.length), d⟩
  have hadded : p.content (disk p.path) = (u.parts.take (k + 1)).flatten := by
    simp only [p, Piece.content, decide_eq_true_eq]
    rw [List.take_add_one, hd, List.flatten_append]
    by_cases hzero : k = 0
    · subst hzero
      simp
    · rw [if_neg hzero, hcontent hzero]
      simp
  have hphase : p.phase (if k = 0 then none else some p.path) =
      some (if k + 1 = u.datas.length then none else some p.path) := by
    by_cases hzero : k = 0 <;> simp [p, Piece.phase, hzero]
  refine ⟨u, us, p, rfl, rfl, u.carries_packet r hdata hd, ?_⟩
  rw [hphase, hbegun]
  by_cases hlast : k + 1 = u.datas.length
  · refine Or.inl ⟨by rw [if_pos hlast], by rw [hlast, List.take_length], ?_⟩
    rw [hadded, hlast, u.length_eq, List.take_length]
    rfl
  · refine Or.inr ⟨by rw [if_neg hlast], within u us (k + 1) (Nat.succ_pos k) (by omega) ?_⟩
    exact (p.add_self disk).trans hadded

end Stage

/-- The disk once the uploads are made one after another. -/
def serially {ι : Type} (r : String) (disk : Disk κ Byte) (order : List (ι × Upload env)) :
    Disk κ Byte := order.foldl (fun disk x => x.2.store r disk) disk

/-- The last upload is stored last. -/
theorem serially_snoc {ι : Type} (disk : Disk κ Byte) (order : List (ι × Upload env))
    (x : ι × Upload env) :
    serially r disk (order ++ [x]) = x.2.store r (serially r disk order) := List.foldl_concat ..

variable {ι : Type} [DecidableEq ι]

/-- The side condition on steps: a request opens no file that another stream is on. -/
def OpensFree (env : UploadEnv κ) (r : String) (w : UploadSystem ι κ) : ι × UploadAction → Prop
  | (i, .request _ data) => w.outs i = none → ∀ req, env.Reads data req →
      ∀ j, ∀ st ∈ w.outs j, st.path ≠ env.file r req.filename
  | (_, .flush _) => True

instance [Fintype ι] (w : UploadSystem ι κ) (a : ι × UploadAction) :
    Decidable (OpensFree env r w a) :=
  match a with
  | (i, .request _ data) =>
    decidable_of_iff (w.outs i = none → ∀ root ∈ env.parse data,
      ∀ req ∈ (uploadFields root).toOption, ∀ j, ∀ st ∈ w.outs j,
        st.path ≠ env.file r req.filename) (by
      refine imp_congr_right fun _ => ⟨?_, ?_⟩
      · rintro h req ⟨root, hparse, hfields⟩
        exact h root hparse req (by rw [hfields]; rfl)
      · rintro h root hparse req hreq
        cases hfields : uploadFields root with
        | error e => simp [hfields, Except.toOption] at hreq
        | ok req' =>
          rw [hfields] at hreq
          cases hreq
          exact h req ⟨root, hparse, hfields⟩)
  | (_, .flush _) => isTrue trivial

/-- The pieces handled so far make of the disk `start` the disk `disk`: completed uploads
in an order, and of each session at most one upload that is not complete. -/
structure Serial (r : String) (plan : ι → List (Upload env)) (start : Disk κ Byte)
    (as : List (ι × UploadAction)) (opened : ι → Option κ) (disk : Disk κ Byte)
    (order : List (ι × Upload env)) : Prop where
  stage : ∀ i, ∃ begun todo, plan i = inOrderOf i order ++ todo ∧
    requestsOf i as = (inOrderOf i order).flatMap Upload.datas ++ begun ∧
    Stage r disk (opened i) begun todo
  rest : ∀ path, (∀ i, opened i ≠ some path) → disk path = serially r start order path

namespace Serial

variable {plan : ι → List (Upload env)} {start disk : Disk κ Byte} {as : List (ι × UploadAction)}
  {opened : ι → Option κ} {order : List (ι × Upload env)}

/-- Nothing is stored before anything is sent. -/
theorem init (plan : ι → List (Upload env)) (start : Disk κ Byte) :
    Serial r plan start [] (fun _ => none) start [] where
  stage i := ⟨[], plan i, rfl, rfl, .between (plan i)⟩
  rest _ _ := rfl

/-- Bytes that reach a file are no request. -/
theorem flush (h : Serial r plan start as opened disk order) (i : ι) (k : Nat) :
    Serial r plan start (as ++ [(i, .flush k)]) opened disk order := by
  refine ⟨fun j => ?_, h.rest⟩
  obtain ⟨begun, todo, hplan, hrequests, hstage⟩ := h.stage j
  refine ⟨begun, todo, hplan, ?_, hstage⟩
  rw [requestsOf_snoc_flush, hrequests]

/-- The other sessions' uploads are where they were. -/
theorem stage_other (h : Serial r plan start as opened disk order) {i j : ι} (hij : j ≠ i)
    {order' : List (ι × Upload env)} {os : FsOutcome} {data : Bytes} {p : Piece κ}
    {next : Option κ} (hapart : opened j ≠ some p.path)
    (horder : inOrderOf j order' = inOrderOf j order) :
    ∃ begun todo, plan j = inOrderOf j order' ++ todo ∧
      requestsOf j (as ++ [(i, .request os data)]) =
        (inOrderOf j order').flatMap Upload.datas ++ begun ∧
      Stage r (p.add disk) (Function.update opened i next j) begun todo := by
  obtain ⟨begun, todo, hplan, hrequests, hstage⟩ := h.stage j
  refine ⟨begun, todo, by rw [horder, hplan], ?_, ?_⟩
  · rw [requestsOf_snoc_of_ne as hij, horder, hrequests]
  · rw [Function.update_of_ne hij]
    refine hstage.congr fun path hpath => Piece.add_of_ne ?_
    rintro rfl
    exact hapart hpath

/-- What nobody is in the middle of behind a piece of another file, nobody was before it. -/
theorem free_of_phase {i : ι} {p : Piece κ} {next : Option κ}
    (hphase : p.phase (opened i) = some next) {path : κ} (hp : path ≠ p.path)
    (hpath : ∀ j, Function.update opened i next j ≠ some path) (j : ι) : opened j ≠ some path := by
  intro hj
  by_cases hij : j = i
  · subst hij
    rcases (Piece.phase_eq_some hphase).2 with ⟨hclosed, _⟩ | ⟨hopen, _⟩
    · exact Option.some_ne_none path (hj.symm.trans hclosed)
    · exact hp (Option.some.inj (hj.symm.trans hopen))
  · refine hpath j ?_
    rwa [Function.update_of_ne hij]

/-- The next request of a session carries the next piece of its uploads, which is added, and
completes an upload if it is the last of it. -/
theorem request (h : Serial r plan start as opened disk order) {i : ι} {data : Bytes}
    (os : FsOutcome) (hnext : requestsOf i as ++ [data] <+: (plan i).flatMap Upload.datas)
    (hapart : ∀ j k path, opened j = some path → opened k = some path → j = k)
    (hfree : opened i = none → ∀ req, env.Reads data req →
      ∀ j, opened j ≠ some (env.file r req.filename)) :
    ∃ p next order', env.Carries r data p ∧ p.phase (opened i) = some next ∧
      (∀ j ≠ i, opened j ≠ some p.path) ∧
      Serial r plan start (as ++ [(i, .request os data)]) (Function.update opened i next)
        (p.add disk) order' := by
  obtain ⟨begun, todo, hplan, hrequests, hstage⟩ := h.stage i
  have hprefix : begun ++ [data] <+: todo.flatMap Upload.datas := by
    rw [hplan, hrequests, List.flatMap_append, List.append_assoc] at hnext
    exact (List.prefix_append_right_inj _).mp hnext
  obtain ⟨u, us, p, rfl, hfile, hcarries, hcase⟩ := hstage.exists_next hprefix
  have hothers : ∀ j ≠ i, opened j ≠ some p.path := by
    intro j hij hj
    have hphase : ∃ next, p.phase (opened i) = some next :=
      hcase.elim (fun hc => ⟨_, hc.1⟩) fun hc => ⟨_, hc.1⟩
    obtain ⟨next, hphase⟩ := hphase
    rcases (Piece.phase_eq_some hphase).2 with ⟨hclosed, _⟩ | ⟨hopen, _⟩
    · obtain ⟨req, hreads, hpath, _⟩ := hcarries
      exact hfree hclosed req hreads j (hpath ▸ hj)
    · exact hij (hapart j i p.path hj hopen)
  have hbegun : requestsOf i (as ++ [(i, .request os data)]) =
      (inOrderOf i order).flatMap Upload.datas ++ (begun ++ [data]) := by
    rw [requestsOf_snoc_self, hrequests, List.append_assoc]
  rcases hcase with ⟨hphase, hwhole, hcontent⟩ | ⟨hphase, hstage'⟩
  · refine ⟨p, none, order ++ [(i, u)], hcarries, hphase, hothers, ?_, ?_⟩
    · intro j
      by_cases hij : j = i
      · subst hij
        refine ⟨[], us, ?_, ?_, ?_⟩
        · rw [inOrderOf_snoc_self, hplan, List.append_assoc]
          rfl
        · rw [hbegun, hwhole, inOrderOf_snoc_self, List.flatMap_append, List.append_nil]
          simp
        · rw [Function.update_self]
          exact .between us
      · exact h.stage_other hij (hothers j hij) (inOrderOf_snoc_of_ne hij order u)
    · intro path hpath
      rw [serially_snoc]
      by_cases hp : path = p.path
      · subst hp
        rw [Piece.add_self, hcontent, hfile]
        exact (Function.update_self _ _ (serially r start order)).symm
      · rw [Piece.add_of_ne hp, Upload.store, Function.update_of_ne (hfile ▸ hp)]
        exact h.rest path (free_of_phase hphase hp hpath)
  · refine ⟨p, some p.path, order, hcarries, hphase, hothers, ?_, ?_⟩
    · intro j
      by_cases hij : j = i
      · subst hij
        refine ⟨begun ++ [data], u :: us, hplan, hbegun, ?_⟩
        rw [Function.update_self]
        exact hstage'
      · exact h.stage_other hij (hothers j hij) rfl
    · intro path hpath
      have hp : path ≠ p.path := by
        rintro rfl
        exact hpath i (Function.update_self i (some p.path) opened)
      rw [Piece.add_of_ne hp]
      exact h.rest path (free_of_phase hphase hp hpath)

end Serial

namespace UploadSystem

/-- One more answer. -/
theorem AnsweredSucess.snoc {before after after' : List (ReqId × Json)} {k : Nat} {respond : Json}
    (h : AnsweredSucess before after k) (hsucess : respond.IsSucess)
    (hafter : after' = after ++ [(.idUploadFileRsp, respond)]) :
    AnsweredSucess before after' (k + 1) := by
  obtain ⟨answers, rfl, rfl, hall⟩ := h
  refine ⟨answers ++ [(.idUploadFileRsp, respond)], by rw [hafter, List.append_assoc], by simp, ?_⟩
  intro answer hmem
  rcases List.mem_append.mp hmem with hmem | hmem
  · exact hall answer hmem
  · rw [List.mem_singleton.mp hmem]
    exact ⟨rfl, hsucess⟩

/-- In every run that opens free files only, the pieces handled so far are tracked, in an order
of the completed uploads, and every request is answered. -/
theorem serial_of_run (hroot : env.resourceRoot = some r) (hbio : LawfulBioRead env.bioRead)
    {start : Disk κ Byte} {plan : ι → List (Upload env)} {as : List (ι × UploadAction)}
    {w : UploadSystem ι κ} (hfree : Along (step env) (OpensFree env r) (init start) as)
    (hrun : Transition.run (step env) (init start) as = some w) (hopen : AllOpen as)
    (hplan : ∀ i, requestsOf i as <+: (plan i).flatMap Upload.datas) :
    (∃ opened disk order, w.Tracks opened disk ∧ Serial r plan start as opened disk order) ∧
      ∀ i, AnsweredSucess [] (w.sent i) (requestsOf i as).length := by
  refine run_history_along (P := fun as (w : UploadSystem ι κ) => AllOpen as →
    (∀ i, requestsOf i as <+: (plan i).flatMap Upload.datas) →
      (∃ opened disk order, w.Tracks opened disk ∧ Serial r plan start as opened disk order) ∧
        ∀ i, AnsweredSucess [] (w.sent i) (requestsOf i as).length) ?_ ?_ hfree hrun hopen hplan
  · intro _ _
    exact ⟨⟨_, start, [], tracks_init start, Serial.init plan start⟩,
      fun _ => ⟨[], rfl, rfl, fun _ hx => absurd hx List.not_mem_nil⟩⟩
  · rintro as w ⟨i, a⟩ w' hP hC hstep hopen hplan
    have hopen' : AllOpen as := fun j os data hm => hopen j os data (List.mem_append_left _ hm)
    have hplan' : ∀ j, requestsOf j as <+: (plan j).flatMap Upload.datas := by
      intro j
      have hj := hplan j
      rw [requestsOf_append] at hj
      exact (List.prefix_append _ _).trans hj
    obtain ⟨⟨opened, disk, order, htracks, hserial⟩, hanswered⟩ := hP hopen' hplan'
    cases hstep
    cases a with
    | flush k =>
      refine ⟨⟨opened, disk, order, htracks.flush env i k, hserial.flush i k⟩, fun j => ?_⟩
      rw [requestsOf_snoc_flush]
      by_cases hij : j = i
      · subst hij
        rw [sent_put_self]
        exact hanswered j
      · rw [sent_put_of_ne w hij]
        exact hanswered j
    | request os data =>
      obtain ⟨hdirs, hopens⟩ := hopen i os data (List.mem_append_right _ List.mem_cons_self)
      have hnext : requestsOf i as ++ [data] <+: (plan i).flatMap Upload.datas := by
        have hi := hplan i
        rwa [requestsOf_snoc_self] at hi
      have hfree' : opened i = none → ∀ req, env.Reads data req →
          ∀ j, opened j ≠ some (env.file r req.filename) := by
        intro hnone req hreads j hj
        have hout : w.outs i = none := Option.map_eq_none_iff.mp ((htracks.path_eq i).trans hnone)
        obtain ⟨st, hst, hpath⟩ := Option.map_eq_some_iff.mp ((htracks.path_eq j).trans hj)
        exact hC hout req hreads j st hst hpath
      obtain ⟨p, next, order', hcarries, hphase, hothers, hserial'⟩ :=
        hserial.request os hnext htracks.apart hfree'
      obtain ⟨htracks', respond, hsucess, hanswer⟩ :=
        htracks.request hroot hbio hdirs hopens hcarries hphase hothers
      refine ⟨⟨_, _, order', htracks', hserial'⟩, fun j => ?_⟩
      by_cases hij : j = i
      · subst hij
        rw [requestsOf_snoc_self, List.length_append, sent_put_self]
        exact (hanswered j).snoc hsucess hanswer
      · rw [requestsOf_snoc_of_ne as hij, sent_put_of_ne w hij]
        exact hanswered j

/-- What the tracked pieces make of the files and of the sessions that are between two uploads. -/
theorem Tracks.of_serial {w : UploadSystem ι κ} {opened : ι → Option κ} {start disk : Disk κ Byte}
    {plan : ι → List (Upload env)} {as : List (ι × UploadAction)} {order : List (ι × Upload env)}
    (h : w.Tracks opened disk) (hserial : Serial r plan start as opened disk order) :
    (∀ i, inOrderOf i order <+: plan i ∧
        (w.outs i = none → requestsOf i as = (inOrderOf i order).flatMap Upload.datas) ∧
        (requestsOf i as = (plan i).flatMap Upload.datas →
          w.outs i = none ∧ inOrderOf i order = plan i)) ∧
      ∀ path, (∀ i, ∀ st ∈ w.outs i, st.path ≠ path) →
        w.disk path = serially r start order path := by
  have hnone : ∀ i, opened i = none ↔ w.outs i = none := by
    intro i
    rw [← h.path_eq i, Option.map_eq_none_iff]
  refine ⟨fun i => ?_, fun path hpath => ?_⟩
  · obtain ⟨begun, todo, hall, hrequests, hstage⟩ := hserial.stage i
    refine ⟨⟨todo, hall.symm⟩, fun hclosed => ?_, fun hsent => ?_⟩
    · rw [(hnone i).mpr hclosed] at hstage
      cases hstage
      rw [hrequests, List.append_nil]
    · rw [hrequests, hall, List.flatMap_append, List.append_cancel_left_eq] at hsent
      obtain ⟨hclosed, rfl⟩ := hstage.eq_nil hsent
      exact ⟨(hnone i).mp hclosed, by rw [hall, List.append_nil]⟩
  · have hunopened : ∀ i, opened i ≠ some path := by
      intro i hi
      obtain ⟨st, hst, rfl⟩ := Option.map_eq_some_iff.mp ((h.path_eq i).trans hi)
      exact hpath i st hst rfl
    rw [h.rest path hunopened, hserial.rest path hunopened]

/-- Uploads are serialisable as long as no file is opened under another stream. Any number
of sessions send the packets of whole uploads, of any files, the same ones too, up to any
point; the calls on the file system succeed, and the buffered bytes reach the files at any
time. If a request never opens a file that another session's stream is on, then at every
moment the completed uploads have an order that keeps each session's own, and every file no
stream is on is what they make of it one after another; a session whose stream is closed
has completed all that it has sent, and every request has been answered with `E_SUCESS`. -/
theorem serialisable_of_free (env : UploadEnv κ) (r : String) (hroot : env.resourceRoot = some r)
    (hbio : LawfulBioRead env.bioRead) (disk : Disk κ Byte) (plan : ι → List (Upload env))
    (as : List (ι × UploadAction)) (hopen : AllOpen as)
    (hplan : ∀ i, requestsOf i as <+: (plan i).flatMap Upload.datas) (w : UploadSystem ι κ)
    (hrun : Transition.run (step env) (init disk) as = some w)
    (hfree : Along (step env) (OpensFree env r) (init disk) as) :
    ∃ order : List (ι × Upload env),
      (∀ i, inOrderOf i order <+: plan i ∧
        (w.outs i = none → requestsOf i as = (inOrderOf i order).flatMap Upload.datas) ∧
        (requestsOf i as = (plan i).flatMap Upload.datas →
          w.outs i = none ∧ inOrderOf i order = plan i)) ∧
      (∀ path, (∀ i, ∀ st ∈ w.outs i, st.path ≠ path) →
        w.disk path = serially r disk order path) ∧
      ∀ i, AnsweredSucess [] (w.sent i) (requestsOf i as).length := by
  obtain ⟨⟨opened, disk', order, htracks, hserial⟩, hanswered⟩ :=
    serial_of_run hroot hbio hfree hrun hopen hplan
  obtain ⟨hsessions, hfiles⟩ := htracks.of_serial hserial
  exact ⟨order, hsessions, hfiles, hanswered⟩

/-- The packets of three uploads, two of them of a file `a`. -/
private def packetsInTurn : List (Bytes × Json) :=
  [([11], packetRoot "a" 1 false "eHk="), ([12], packetRoot "a" 2 true "eng="),
    ([9], packetRoot "b" 1 true "eg=="), ([10], packetRoot "a" 1 true "cXJz")]

private def firstOfA : Upload (tableEnv packetsInTurn) where
  name := "a"
  datas := [[11], [12]]
  parts := [[120, 121], [122, 120]]
  ne_nil := List.cons_ne_nil _ _
  length_eq := rfl
  packet := by
    rintro (_ | _ | k) data d hdata hd
    · cases hdata
      cases hd
      exact ⟨_, reads_packetRoot rfl, rfl, rfl, rfl, by decide +kernel⟩
    · cases hdata
      cases hd
      exact ⟨_, reads_packetRoot rfl, rfl, rfl, rfl, by decide +kernel⟩
    · cases hdata

private def secondOfA : Upload (tableEnv packetsInTurn) where
  name := "a"
  datas := [[10]]
  parts := [[113, 114, 115]]
  ne_nil := List.cons_ne_nil _ _
  length_eq := rfl
  packet := by
    rintro (_ | k) data d hdata hd
    · cases hdata
      cases hd
      exact ⟨_, reads_packetRoot rfl, rfl, rfl, rfl, by decide +kernel⟩
    · cases hdata

private def onlyOfB : Upload (tableEnv packetsInTurn) where
  name := "b"
  datas := [[9]]
  parts := [[122]]
  ne_nil := List.cons_ne_nil _ _
  length_eq := rfl
  packet := by
    rintro (_ | k) data d hdata hd
    · cases hdata
      cases hd
      exact ⟨_, reads_packetRoot rfl, rfl, rfl, rfl, by decide +kernel⟩
    · cases hdata

/-- The file `b` is uploaded inside the first upload of `a`, and `a` again behind it. -/
private def inTurn : List (Bool × UploadAction) :=
  [(false, .request ⟨some true, true, true⟩ [11]), (true, .request ⟨some true, true, true⟩ [9]),
    (false, .flush 1), (false, .request ⟨some true, true, true⟩ [12]),
    (true, .request ⟨some true, true, true⟩ [10])]

/-- Two sessions whose uploads of one file come in turn. -/
theorem serialisable_of_free_in_turn :
    ∃ w, Transition.run (step (tableEnv packetsInTurn)) (init fun _ => []) inTurn = some w ∧
      ∃ order : List (Bool × Upload (tableEnv packetsInTurn)),
        inOrderOf true order = [onlyOfB, secondOfA] ∧ inOrderOf false order = [firstOfA] ∧
          w.disk "root/bin/static/a" = serially "root" (fun _ => []) order "root/bin/static/a" := by
  have hopen : AllOpen inTurn := by
    intro i os data hm
    simp only [inTurn, List.mem_cons, Prod.mk.injEq, UploadAction.request.injEq, reduceCtorEq,
      and_false, List.not_mem_nil, or_false, false_or] at hm
    rcases hm with ⟨_, rfl, _⟩ | ⟨_, rfl, _⟩ | ⟨_, rfl, _⟩ | ⟨_, rfl, _⟩ <;> exact ⟨Or.inl rfl, rfl⟩
  have hfree : Along (step (tableEnv packetsInTurn)) (OpensFree (tableEnv packetsInTurn) "root")
      (init fun _ => []) inTurn := by decide +kernel
  have hall : ∀ i, requestsOf i inTurn =
      (if i then [onlyOfB, secondOfA] else [firstOfA]).flatMap Upload.datas := by
    rintro (_ | _) <;> rfl
  obtain ⟨order, horder, hdisk, _⟩ := serialisable_of_free (tableEnv packetsInTurn) "root" rfl
    lawful_decodingBioRead (fun _ => []) (fun i => if i then [onlyOfB, secondOfA] else [firstOfA])
    inTurn hopen (fun i => hall i ▸ List.prefix_rfl) _ rfl hfree
  refine ⟨_, rfl, order, ((horder true).2.2 (hall true)).2, ((horder false).2.2 (hall false)).2,
    hdisk _ fun i st hst => ?_⟩
  rw [((horder i).2.2 (hall i)).1] at hst
  exact absurd hst (Option.not_mem_none st)

end UploadSystem

end

end ResourceServer
