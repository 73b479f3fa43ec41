import ResourceServer.Core.Handover
import ResourceServer.Native.Streams
import ResourceServer.Uploads.Reassembly

/-!
# An upload resumed on a new session

The first session leaves its stream behind when it is closed, and the stream keeps its
buffered bytes until the session is destroyed. The second session appends. The file is
the upload as long as nothing is appended before those bytes are written, and not
otherwise.
-/

namespace ResourceServer

open FileStream Transition

/-! ## One request of the second session -/

section

variable {κ : Type} [DecidableEq κ] {path : κ} {text text' : Bytes}
  {out : Option (OutStream κ Byte)} {v : View κ Byte} {opens : Bool} {req : UploadFields}

/-- Opening a stream puts nothing in its buffer. -/
theorem buffered_openFile (opens : Bool) (seq : BitVec 64) (path : κ) (v : View κ Byte) :
    buffered (openFile opens seq path v).out = buffered v.out := by
  cases hout : v.out with
  | some st => rw [openFile_of_some _ _ _ hout, hout]
  | none =>
    cases opens with
    | false => rw [openFile_of_refused, hout]
    | true =>
      rw [openFile_of_none _ _ hout]
      rfl

/-- The stream a later packet finds, if the file can be opened. -/
theorem isSome_openFile (hopens : v.out = none → opens = true) (seq : BitVec 64) (path : κ) :
    (openFile opens seq path v).out.isSome = true := by
  cases hout : v.out with
  | some st => rw [openFile_of_some _ _ _ hout, hout, Option.isSome_some]
  | none =>
    rw [hopens hout, openFile_of_none _ _ hout]
    rfl

/-- A later packet keeps an open stream and opens a closed one for appending. -/
theorem openFile_later (hopens : v.out = none → opens = true) {seq : BitVec 64} (hseq : seq ≠ 1)
    (path : κ) : openFile opens seq path v = v ∨
      v.out = none ∧ openFile opens seq path v = v.openOn .app path := by
  cases hout : v.out with
  | some st => exact Or.inl (openFile_of_some _ _ _ hout)
  | none =>
    apply Or.inr
    rw [hopens hout, openFile_of_none _ _ hout, if_neg hseq]
    exact ⟨rfl, rfl⟩

/-- The last packet closes the stream with something in its buffer. -/
def Ends (req : UploadFields) (d : Bytes) (v : View κ Byte) : Prop :=
  req.last = true ∧ ¬ (buffered v.out = [] ∧ d = [])

/-- A packet of the second session, whose file is opened for appending, and what that keeps. -/
theorem later_write {R : Bytes → Option (OutStream κ Byte) → Bytes → Prop} {d : Bytes}
    (hopen : R text' none (v.disk path) →
      R text' (v.openOn .app path).out ((v.openOn .app path).disk path))
    (hwrite : ∀ {u : View κ Byte}, R text' u.out (u.disk path) → u.out.isSome = true →
      R (text' ++ d) (u.write d).out (u.disk path))
    (h : R text' v.out (v.disk path)) (hseq : req.seq ≠ 1) (hopens : v.out = none → opens = true) :
    R (text' ++ d) ((openFile opens req.seq path v).write d).out
      (((openFile opens req.seq path v).write d).disk path) := by
  apply hwrite _ (isSome_openFile hopens req.seq path)
  rcases openFile_later hopens hseq path with hkept | ⟨hclosed, hopened⟩
  · rwa [hkept]
  · rw [hopened]
    rw [hclosed] at h
    exact hopen h

/-- What the stream of a later packet holds before it may be closed. -/
theorem buffered_write (hopens : v.out = none → opens = true) (d : Bytes) :
    buffered ((openFile opens req.seq path v).write d).out = buffered v.out ++ d := by
  rw [View.buffered_write (isSome_openFile hopens req.seq path), buffered_openFile]

/-- The packet keeps the turns, unless it closes its stream too early. -/
theorem inTurn_handle (h : InTurn path text text' out v.out (v.disk path)) (hseq : req.seq ≠ 1)
    (hopens : v.out = none → opens = true) {d : Bytes} (hturn : Ends req d v → buffered out = []) :
    InTurn path text (text' ++ d) out (req.handle opens path d v).out
      ((req.handle opens path d v).disk path) := by
  have hwrite := later_write (R := fun text' => InTurn path text text' out) InTurn.open_second
    (fun hu hs => InTurn.write_second hu hs d) h hseq hopens
  unfold UploadFields.handle
  cases hlast : req.last with
  | false => exact hwrite
  | true =>
    apply hwrite.close_second
    rw [buffered_write hopens, List.append_eq_nil_iff]
    by_contra hnot
    rw [not_or] at hnot
    exact hnot.2 (hturn ⟨hlast, hnot.1⟩)

/-- A packet that closes its stream too early makes the two overlap. -/
theorem overlaps_of_ends (h : InTurn path text text' out v.out (v.disk path)) (hseq : req.seq ≠ 1)
    (hopens : v.out = none → opens = true) {d : Bytes} (hends : Ends req d v)
    (hleft : buffered out ≠ []) :
    Overlaps path text (text' ++ d) out (req.handle opens path d v).out
      ((req.handle opens path d v).disk path) := by
  have hwrite := later_write (R := fun text' => InTurn path text text' out) InTurn.open_second
    (fun hu hs => InTurn.write_second hu hs d) h hseq hopens
  unfold UploadFields.handle
  rw [if_pos hends.1]
  apply hwrite.overlaps_close _ hleft
  rw [buffered_write hopens, ne_eq, List.append_eq_nil_iff]
  exact hends.2

/-- A packet leaves an overlap as it is. -/
theorem overlaps_handle (h : Overlaps path text text' out v.out (v.disk path)) (hseq : req.seq ≠ 1)
    (hopens : v.out = none → opens = true) (d : Bytes) :
    Overlaps path text (text' ++ d) out (req.handle opens path d v).out
      ((req.handle opens path d v).disk path) := by
  have hwrite := later_write (R := fun text' => Overlaps path text text' out)
    Overlaps.open_second (fun hu hs => Overlaps.write_second hu hs d) h hseq hopens
  unfold UploadFields.handle
  cases req.last with
  | false => exact hwrite
  | true => exact hwrite.close_second 0

end

/-! ## The pieces of either session -/

namespace Piece

variable {κ : Type}

/-- The pieces of an upload that is broken off. -/
def unfinished (path : κ) (first : Bool) : List Bytes → List (Piece κ)
  | [] => []
  | d :: ds => ⟨path, first, false, d⟩ :: unfinished path false ds

/-- The first pieces of an upload are those of one that is broken off. -/
theorem take_ofParts (path : κ) (first : Bool) {k : Nat} {ds : List Bytes} (hk : k < ds.length) :
    (ofParts path first ds).take k = unfinished path first (ds.take k) := by
  induction ds generalizing first k with
  | nil => contradiction
  | cons d ds ih =>
    cases k with
    | zero => rfl
    | succ k =>
      rw [List.length_cons, Nat.add_lt_add_iff_right] at hk
      have hmore : ds.isEmpty = false := by
        rw [List.isEmpty_eq_false_iff]
        exact List.ne_nil_of_length_pos (Nat.zero_lt_of_lt hk)
      rw [ofParts, List.take_succ_cons, List.take_succ_cons, unfinished, ih false hk, hmore]

/-- The later pieces of an upload are those of the rest of it. -/
theorem drop_ofParts (path : κ) (first : Bool) (k : Nat) (ds : List Bytes) :
    (ofParts path first ds).drop (k + 1) = ofParts path false (ds.drop (k + 1)) := by
  induction ds generalizing first k with
  | nil => rfl
  | cons d ds ih =>
    rw [ofParts, List.drop_succ_cons, List.drop_succ_cons]
    cases k with
    | zero => rfl
    | succ k => exact ih false k

end Piece

/-! ## Schedules -/

namespace UploadSessions

section

variable {ι κ : Type}

/-- The requests posted in a schedule. -/
def posts (as : List (UploadSessionsAction ι)) : List (ι × Bytes) :=
  as.filterMap fun
    | .post i data => some (i, data)
    | _ => none

/-- The requests that are still to be handled. -/
def coming (s : UploadSessions ι κ) (as : List (UploadSessionsAction ι)) : List (ι × Bytes) :=
  s.logicQue ++ posts as

/-- A destroyed session has no stream, and no node in the queue. -/
structure Clean (s : UploadSessions ι κ) : Prop where
  out : ∀ i, s.destroyed i = true → s.uploads.outs i = none
  node : ∀ i, s.destroyed i = true → ∀ node ∈ s.logicQue, node.1 ≠ i

/-- No session is destroyed at first. -/
theorem clean_init (disk : Disk κ Byte) : (init disk : UploadSessions ι κ).Clean where
  out _ h := absurd h Bool.false_ne_true
  node _ h := absurd h Bool.false_ne_true

variable [DecidableEq ι]

/-- The request bodies session `i` posts. -/
def posted (i : ι) (as : List (UploadSessionsAction ι)) : List Bytes :=
  (posts as).filterMap fun node => if node.1 = i then some node.2 else none

@[simp] theorem posted_post (i j : ι) (data : Bytes) (as : List (UploadSessionsAction ι)) :
    posted i (.post j data :: as) = if j = i then data :: posted i as else posted i as := by
  have hcons : posts (.post j data :: as) = (j, data) :: posts as := rfl
  rw [posted, hcons]
  by_cases hij : j = i <;> simp [posted, hij]

variable [DecidableEq κ] {env : UploadEnv κ} {s t : UploadSessions ι κ}

/-- The worker handles the first request that is coming. -/
theorem dealMessage_cases {os : FsOutcome} (hs : s.step env (.dealMessage os) = some t) :
    ∃ i data rest, s.logicQue = (i, data) :: rest ∧
      (∀ as, s.coming (.dealMessage os :: as) = (i, data) :: t.coming as) ∧
      t = { s with
        uploads := s.uploads.put i ((s.uploads.session i).act env (.request os data))
        logicQue := rest } := by
  cases hque : s.logicQue with
  | nil => simp [UploadSessions.step, hque] at hs
  | cons node rest =>
    simp only [UploadSessions.step, hque] at hs
    cases hs
    refine ⟨node.1, node.2, rest, rfl, fun as => ?_, rfl⟩
    rw [coming, hque]
    rfl

/-- A session that is stopped or destroyed stays so. -/
theorem ends_step {a : UploadSessionsAction ι} (hs : s.step env a = some t) (i : ι) :
    (s.destroyed i = true → t.destroyed i = true) ∧ (s.isStop i = true → t.isStop i = true) := by
  have hupdate : ∀ (f : ι → Bool) j, f i = true → Function.update f j true i = true := by
    intro f j h
    by_cases hij : i = j
    · subst hij
      exact Function.update_self _ _ _
    · exact (Function.update_of_ne hij _ _).trans h
  cases a with
  | post j data =>
    obtain ⟨_, ⟨⟩⟩ := Option.ite_none_left_eq_some.mp hs
    exact ⟨id, id⟩
  | dealMessage os =>
    obtain ⟨_, _, _, _, _, rfl⟩ := dealMessage_cases hs
    exact ⟨id, id⟩
  | flush j k =>
    cases hs
    exact ⟨id, id⟩
  | close j =>
    obtain ⟨_, ⟨⟩⟩ := Option.ite_none_left_eq_some.mp hs
    exact ⟨id, hupdate s.isStop j⟩
  | destroy j =>
    obtain ⟨_, ⟨⟩⟩ := Option.ite_none_right_eq_some.mp hs
    exact ⟨hupdate s.destroyed j, id⟩

/-- A destroyed session posts nothing. -/
theorem ne_of_mem_posts {as : List (UploadSessionsAction ι)} {w : UploadSessions ι κ} {i : ι}
    (h : s.destroyed i = true) (hrun : run (step env) s as = some w) :
    ∀ node ∈ posts as, node.1 ≠ i := by
  induction as generalizing s with
  | nil => exact fun node hnode => nomatch hnode
  | cons a as ih =>
    obtain ⟨t, ht, hrun⟩ := run_cons_eq_some.mp hrun
    have hlater := ih ((ends_step ht i).1 h) hrun
    cases a with
    | post j data =>
      obtain ⟨hlive, _⟩ := Option.ite_none_left_eq_some.mp ht
      intro node hnode
      rcases List.mem_cons.mp hnode with rfl | hnode
      · rintro rfl
        exact hlive h
      · exact hlater node hnode
    | dealMessage os | flush j k | close j | destroy j => exact hlater

/-- Every step keeps destroyed sessions out of the way. -/
theorem Clean.step {a : UploadSessionsAction ι} (h : s.Clean) (hs : s.step env a = some t) :
    t.Clean := by
  cases a with
  | post j data =>
    obtain ⟨hlive, ⟨⟩⟩ := Option.ite_none_left_eq_some.mp hs
    refine ⟨h.out, fun i hi node hnode => ?_⟩
    rcases List.mem_append.mp hnode with hold | hnew
    · exact h.node i hi node hold
    · rintro rfl
      rw [List.mem_singleton.mp hnew] at hi
      exact hlive hi
  | dealMessage os =>
    obtain ⟨j, data, rest, hque, _, rfl⟩ := dealMessage_cases hs
    refine ⟨fun i hi => ?_, fun i hi node hnode => ?_⟩
    · have hne := h.node i hi (j, data) (hque ▸ List.mem_cons_self)
      exact (UploadSystem.outs_put_of_ne _ hne.symm _).trans (h.out i hi)
    · exact h.node i hi node (hque ▸ List.mem_cons_of_mem _ hnode)
  | flush j k =>
    cases hs
    refine ⟨fun i hi => ?_, h.node⟩
    by_cases hij : i = j
    · subst hij
      apply (UploadSystem.outs_put_self _ _ _).trans
      exact (congrArg View.out (View.flush_of_none 0 k (h.out i hi))).trans (h.out i hi)
    · exact (UploadSystem.outs_put_of_ne _ hij _).trans (h.out i hi)
  | close j =>
    obtain ⟨_, ⟨⟩⟩ := Option.ite_none_left_eq_some.mp hs
    exact ⟨h.out, h.node⟩
  | destroy j =>
    obtain ⟨⟨_, hfree⟩, ⟨⟩⟩ := Option.ite_none_right_eq_some.mp hs
    constructor
    · intro i hi
      by_cases hij : i = j
      · subst hij
        exact UploadSystem.outs_put_self _ _ _
      · refine (UploadSystem.outs_put_of_ne _ hij _).trans (h.out i ?_)
        exact (Function.update_of_ne hij _ _).symm.trans hi
    · intro i hi
      by_cases hij : i = j
      · subst hij
        exact hfree
      · exact h.node i ((Function.update_of_ne hij _ _).symm.trans hi)

/-- A session that is destroyed has nothing coming. -/
theorem ne_of_mem_coming {as : List (UploadSessionsAction ι)} {w : UploadSessions ι κ} {i : ι}
    (hs : s.step env (.destroy i) = some t) (hrun : run (UploadSessions.step env) t as = some w) :
    ∀ node ∈ s.coming (.destroy i :: as), node.1 ≠ i := by
  obtain ⟨⟨_, hfree⟩, ht⟩ := Option.ite_none_right_eq_some.mp hs
  have hdestroyed : t.destroyed i = true := by
    cases ht
    exact Function.update_self _ _ _
  intro node hnode
  rcases List.mem_append.mp hnode with hqueued | hposted
  · exact hfree node hqueued
  · exact ne_of_mem_posts hdestroyed hrun node hposted

/-- Steps other than those of the worker leave what is coming as it is. -/
theorem coming_step {a : UploadSessionsAction ι} (hs : s.step env a = some t)
    (ha : ∀ os, a ≠ .dealMessage os) (as : List (UploadSessionsAction ι)) :
    t.coming as = s.coming (a :: as) := by
  cases a with
  | post j data =>
    obtain ⟨_, ⟨⟩⟩ := Option.ite_none_left_eq_some.mp hs
    exact List.append_assoc _ _ _
  | dealMessage os => exact absurd rfl (ha os)
  | flush j k =>
    cases hs
    rfl
  | close j =>
    obtain ⟨_, ⟨⟩⟩ := Option.ite_none_left_eq_some.mp hs
    rfl
  | destroy j =>
    obtain ⟨_, ⟨⟩⟩ := Option.ite_none_right_eq_some.mp hs
    rfl

end

end UploadSessions

/-! ## The files of the two sessions -/

namespace UploadSystem

section

variable {κ : Type} {path : κ} {text text' : Bytes}

/-- The file is what the first session has written and then what the second has. -/
def Turns (path : κ) (text text' : Bytes) (w : UploadSystem Bool κ) : Prop :=
  InTurn path text text' (w.outs false) (w.outs true) (w.disk path)

/-- The file has lost some of what the two sessions have written. -/
def Clashes (path : κ) (text text' : Bytes) (w : UploadSystem Bool κ) : Prop :=
  Overlaps path text text' (w.outs false) (w.outs true) (w.disk path)

/-- Turns taken with the first session put back. -/
theorem turns_put_false (w : UploadSystem Bool κ) (u : UploadState κ) :
    (w.put false u).Turns path text text' ↔
      InTurn path text text' u.files.out (w.outs true) (u.files.disk path) := by
  rw [Turns, outs_put_self, outs_put_of_ne w Bool.noConfusion]
  rfl

/-- Turns taken with the second session put back. -/
theorem turns_put_true (w : UploadSystem Bool κ) (u : UploadState κ) :
    (w.put true u).Turns path text text' ↔
      InTurn path text text' (w.outs false) u.files.out (u.files.disk path) := by
  rw [Turns, outs_put_self, outs_put_of_ne w Bool.noConfusion]
  rfl

/-- An overlap with the first session put back. -/
theorem clashes_put_false (w : UploadSystem Bool κ) (u : UploadState κ) :
    (w.put false u).Clashes path text text' ↔
      Overlaps path text text' u.files.out (w.outs true) (u.files.disk path) := by
  rw [Clashes, outs_put_self, outs_put_of_ne w Bool.noConfusion]
  rfl

/-- An overlap with the second session put back. -/
theorem clashes_put_true (w : UploadSystem Bool κ) (u : UploadState κ) :
    (w.put true u).Clashes path text text' ↔
      Overlaps path text text' (w.outs false) u.files.out (u.files.disk path) := by
  rw [Clashes, outs_put_self, outs_put_of_ne w Bool.noConfusion]
  rfl

/-- The second session's text grows by `d`, in turn exactly if `ok` holds. -/
structure Moves (path : κ) (ok : Prop) (d : Bytes) (w w' : UploadSystem Bool κ) : Prop where
  keeps : ∀ text text', ok → w.Turns path text text' → w'.Turns path text (text' ++ d)
  breaks : ∀ text text', ¬ ok → w.Turns path text text' → w'.Clashes path text (text' ++ d)
  stays : ∀ text text', w.Clashes path text text' → w'.Clashes path text (text' ++ d)

/-- Nothing happens to the files. -/
theorem moves_refl (path : κ) (w : UploadSystem Bool κ) : Moves path True [] w w where
  keeps text text' _ h := by rwa [List.append_nil]
  breaks text text' hno := absurd trivial hno
  stays text text' h := by rwa [List.append_nil]

variable [DecidableEq κ] (w : UploadSystem Bool κ)

omit [DecidableEq κ] in
/-- What the first session does at any time. -/
theorem moves_first {w : UploadSystem Bool κ} {u : UploadState κ}
    (hkeeps : ∀ text text', w.Turns path text text' →
      InTurn path text text' u.files.out (w.outs true) (u.files.disk path))
    (hstays : ∀ text text', w.Clashes path text text' →
      Overlaps path text text' u.files.out (w.outs true) (u.files.disk path)) :
    Moves path True [] w (w.put false u) where
  keeps text text' _ h := by
    rw [turns_put_false, List.append_nil]
    exact hkeeps text text' h
  breaks text text' hno := absurd trivial hno
  stays text text' h := by
    rw [clashes_put_false, List.append_nil]
    exact hstays text text' h

omit [DecidableEq κ] in
/-- What the second session does in turn exactly if `ok` holds. -/
theorem moves_second {w : UploadSystem Bool κ} {u : UploadState κ} {ok : Prop} {d : Bytes}
    (hkeeps : ∀ text text', ok → w.Turns path text text' →
      InTurn path text (text' ++ d) (w.outs false) u.files.out (u.files.disk path))
    (hbreaks : ∀ text text', ¬ ok → w.Turns path text text' →
      Overlaps path text (text' ++ d) (w.outs false) u.files.out (u.files.disk path))
    (hstays : ∀ text text', w.Clashes path text text' →
      Overlaps path text (text' ++ d) (w.outs false) u.files.out (u.files.disk path)) :
    Moves path ok d w (w.put true u) where
  keeps text text' hok h := (turns_put_true w u).mpr (hkeeps text text' hok h)
  breaks text text' hno h := (clashes_put_true w u).mpr (hbreaks text text' hno h)
  stays text text' h := (clashes_put_true w u).mpr (hstays text text' h)

/-- The first session's stream may be flushed at any time. -/
theorem moves_flush_false (env : UploadEnv κ) (k : Nat) :
    Moves path True [] w (w.put false ((w.session false).act env (.flush k))) :=
  moves_first (fun _ _ h => InTurn.flush_first (v := w.view false) h 0 k)
    fun _ _ h => Overlaps.flush_first (v := w.view false) h 0 k

/-- The second session's stream is flushed in turn if the first has nothing left. -/
theorem moves_flush_true (env : UploadEnv κ) (k : Nat) :
    Moves path ((buffered (w.outs true)).take k = [] ∨ buffered (w.outs false) = []) [] w
      (w.put true ((w.session true).act env (.flush k))) := by
  refine moves_second (fun text text' hok h => ?_) (fun text text' hno h => ?_)
    fun text text' h => ?_
  · rw [List.append_nil]
    exact InTurn.flush_second (v := w.view true) h hok 0
  · rw [not_or] at hno
    rw [List.append_nil]
    exact InTurn.overlaps (v := w.view true) h hno.1 hno.2 0
  · rw [List.append_nil]
    exact Overlaps.flush_second (v := w.view true) h 0 k

/-- The first session may be destroyed at any time. -/
theorem moves_close_false : Moves path True [] w
    (w.put false { w.session false with files := (w.view false).close 0 }) :=
  moves_first (fun _ _ h => InTurn.close_first (v := w.view false) h 0)
    fun _ _ h => Overlaps.close_first (v := w.view false) h 0

/-- The second session is destroyed in turn if the first has nothing left. -/
theorem moves_close_true :
    Moves path (buffered (w.outs true) = [] ∨ buffered (w.outs false) = []) [] w
      (w.put true { w.session true with files := (w.view true).close 0 }) := by
  refine moves_second (fun text text' hok h => ?_) (fun text text' hno h => ?_)
    fun text text' h => ?_
  · rw [List.append_nil]
    exact InTurn.close_second (v := w.view true) h hok 0
  · rw [not_or] at hno
    rw [List.append_nil]
    exact InTurn.overlaps_close (v := w.view true) h hno.1 hno.2 0
  · rw [List.append_nil]
    exact Overlaps.close_second (v := w.view true) h 0

/-- A packet of the second session is handled in turn unless it closes its stream
while the first has something left. -/
theorem moves_handle {opens : Bool} {req : UploadFields} {d : Bytes} {u : UploadState κ}
    (hu : u.files = req.handle opens path d (w.view true)) (hseq : req.seq ≠ 1)
    (hopens : w.outs true = none → opens = true) :
    Moves path (Ends req d (w.view true) → buffered (w.outs false) = []) d w (w.put true u) := by
  refine moves_second (fun text text' hok h => ?_) (fun text text' hno h => ?_)
    fun text text' h => ?_
  · rw [hu]
    exact inTurn_handle (v := w.view true) h hseq hopens hok
  · rw [Classical.not_imp] at hno
    rw [hu]
    exact overlaps_of_ends (v := w.view true) h hseq hopens hno.1 hno.2
  · rw [hu]
    exact overlaps_handle (v := w.view true) h hseq hopens d

end

end UploadSystem

/-! ## The second session alone -/

namespace UploadSessions

section

variable {κ : Type} [DecidableEq κ]

/-- The first session posts before it is closed and the second after that, and every
request is answered with `E_SUCESS`. -/
def Resumes (env : UploadEnv κ) (s : UploadSessions Bool κ) : UploadSessionsAction Bool → Prop
  | .post i _ => s.isStop false = i
  | .dealMessage os => ∀ i data rest, s.logicQue = (i, data) :: rest →
    Answered env os data (s.uploads.session i)
  | .flush _ _ | .close _ | .destroy _ => True

/-- A request that finds its session's stream closed opens the file. -/
def Opens (s : UploadSessions Bool κ) : UploadSessionsAction Bool → Prop
  | .dealMessage os => ∀ i data rest, s.logicQue = (i, data) :: rest →
    s.uploads.outs i = none → os.opens = true
  | _ => True

/-- Bytes of the second session's stream reach the file only when the stream of the
first has none left. -/
def InOrder (env : UploadEnv κ) (s : UploadSessions Bool κ) : UploadSessionsAction Bool → Prop
  | .flush true k =>
    (buffered (s.uploads.outs true)).take k = [] ∨ buffered (s.uploads.outs false) = []
  | .destroy true => buffered (s.uploads.outs true) = [] ∨ buffered (s.uploads.outs false) = []
  | .dealMessage _ => ∀ data rest req, s.logicQue = (true, data) :: rest → env.Reads data req →
    req.last = true → (buffered (s.uploads.outs true) = [] ∧ Base64.decode req.text = some []) ∨
      buffered (s.uploads.outs false) = []
  | _ => True

variable {env : UploadEnv κ} {r : String} {path : κ} {s t w : UploadSessions Bool κ}

omit [DecidableEq κ] in
/-- A request that closes the second session's stream must wait for the first session. -/
theorem inOrder_dealMessage_iff {os : FsOutcome} {data d : Bytes} {rest : List (Bool × Bytes)}
    {req : UploadFields} (hque : s.logicQue = (true, data) :: rest) (hreads : env.Reads data req)
    (hd : Base64.decode req.text = some d) : InOrder env s (.dealMessage os) ↔
      (Ends req d (s.uploads.view true) → buffered (s.uploads.outs false) = []) := by
  constructor
  · rintro h ⟨hlast, hmore⟩
    refine (h data rest req hque hreads hlast).resolve_left fun hnone => hmore ⟨hnone.1, ?_⟩
    exact Option.some.inj (hd.symm.trans hnone.2)
  · intro h data' rest' req' hque' hreads' hlast
    cases hque.symm.trans hque'
    cases hreads.unique hreads'
    by_contra hnot
    rw [not_or] at hnot
    refine hnot.2 (h ⟨hlast, fun hnone => hnot.1 ⟨hnone.1, ?_⟩⟩)
    rw [hd, hnone.2]

/-- What a request that carries a piece and is answered with `E_SUCESS` leaves of the files. -/
theorem files_of_answered (hroot : env.resourceRoot = some r) (hbio : LawfulBioRead env.bioRead)
    {i : Bool} {os : FsOutcome} {data : Bytes} {p : Piece κ} {v : UploadSystem Bool κ}
    (hanswered : Answered env os data (v.session i)) (hdata : env.Carries r data p) :
    ∃ req, env.Reads data req ∧ (req.seq = 1 ↔ p.first = true) ∧ req.last = p.last ∧
      Base64.decode req.text = some p.bytes ∧
      ((v.session i).act env (.request os data)).files =
        req.handle os.opens p.path p.bytes (v.view i) := by
  obtain ⟨req, hreads, hfile, hseq, hlast, hd⟩ := hdata
  obtain ⟨req', r', buffer, hhandles⟩ := hanswered.handles
  refine ⟨req, hreads, hseq, hlast, hd, ?_⟩
  rw [← hfile]
  exact UploadEnv.Handles.files_eq ⟨hreads, hroot, hhandles.dirs, hbio.base64Decode hd⟩

/-- Only requests of the second session are to come: those of the parts `rest`. -/
structure Sending (env : UploadEnv κ) (r : String) (path : κ) (rest : List Bytes)
    (s : UploadSessions Bool κ) (as : List (UploadSessionsAction Bool)) : Prop where
  clean : s.Clean
  coming : ∃ datas, s.coming as = datas.map (Prod.mk true) ∧
    List.Forall₂ (env.Carries r) datas (Piece.ofParts path false rest)

/-- One step while the second session is sending. -/
theorem Sending.step (hroot : env.resourceRoot = some r) (hbio : LawfulBioRead env.bioRead)
    {rest : List Bytes} {a : UploadSessionsAction Bool} {as : List (UploadSessionsAction Bool)}
    (h : Sending env r path rest s (a :: as)) (hresumes : Resumes env s a) (hopens : Opens s a)
    (hs : s.step env a = some t) :
    ∃ d rest', rest.flatten = d ++ rest'.flatten ∧ Sending env r path rest' t as ∧
      UploadSystem.Moves path (InOrder env s a) d s.uploads t.uploads := by
  have hclean := h.clean.step hs
  obtain ⟨datas, hcoming, hcarries⟩ := h.coming
  have hsame : (∀ os, a ≠ .dealMessage os) → Sending env r path rest t as := by
    intro ha
    exact ⟨hclean, datas, (coming_step hs ha as).trans hcoming, hcarries⟩
  cases a with
  | post i data =>
    refine ⟨[], rest, rfl, hsame (fun os ha => nomatch ha), ?_⟩
    obtain ⟨_, ⟨⟩⟩ := Option.ite_none_left_eq_some.mp hs
    exact UploadSystem.moves_refl path _
  | dealMessage os =>
    obtain ⟨i, data, que, hque, hnext, rfl⟩ := dealMessage_cases hs
    rw [hnext] at hcoming
    cases datas with
    | nil => contradiction
    | cons data' datas =>
      obtain ⟨⟨⟩, hlater⟩ := List.cons.inj hcoming
      cases rest with
      | nil => contradiction
      | cons d rest =>
        obtain ⟨hdata, hcarries⟩ := List.forall₂_cons.mp hcarries
        obtain ⟨req, hreads, hseq, _, hd, hfiles⟩ :=
          files_of_answered hroot hbio (hresumes true data que hque) hdata
        refine ⟨d, rest, List.flatten_cons, ⟨hclean, datas, hlater, hcarries⟩, ?_⟩
        rw [inOrder_dealMessage_iff hque hreads hd]
        refine UploadSystem.moves_handle s.uploads hfiles ?_ (hopens true data que hque)
        exact fun he => Bool.noConfusion (hseq.mp he)
  | flush i k =>
    refine ⟨[], rest, rfl, hsame (fun os ha => nomatch ha), ?_⟩
    cases hs
    cases i with
    | false => exact UploadSystem.moves_flush_false s.uploads env k
    | true => exact UploadSystem.moves_flush_true s.uploads env k
  | close i =>
    refine ⟨[], rest, rfl, hsame (fun os ha => nomatch ha), ?_⟩
    obtain ⟨_, ⟨⟩⟩ := Option.ite_none_left_eq_some.mp hs
    exact UploadSystem.moves_refl path _
  | destroy i =>
    refine ⟨[], rest, rfl, hsame (fun os ha => nomatch ha), ?_⟩
    obtain ⟨_, ⟨⟩⟩ := Option.ite_none_right_eq_some.mp hs
    cases i with
    | false => exact UploadSystem.moves_close_false s.uploads
    | true => exact UploadSystem.moves_close_true s.uploads

end

end UploadSessions

end ResourceServer
