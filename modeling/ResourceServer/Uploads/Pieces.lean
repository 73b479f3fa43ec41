import Mathlib.Data.List.Forall2
import ResourceServer.Core.Transition
import ResourceServer.Uploads.Contents

/-!
# Uploads as sequences of pieces

What an upload is for, without the handler: its pieces are appended to its file,
the first of them to an emptied one. A session that sends whole uploads one after
another goes through an open and a closed phase, and the last upload to a file is
what the file holds.
-/

namespace ResourceServer

open FileStream Transition

/-- One packet of an upload: the bytes it adds to a file. -/
structure Piece (κ : Type) where
  path : κ
  /-- It is the first of its upload. -/
  first : Bool
  /-- It is the last of its upload. -/
  last : Bool
  bytes : Bytes

namespace Piece

variable {κ : Type} [DecidableEq κ]

/-- The content of the piece's own file once it is added. -/
def content (p : Piece κ) (file : Bytes) : Bytes := (if p.first then [] else file) ++ p.bytes

/-- The disk once the piece is added. -/
def add (disk : Disk κ Byte) (p : Piece κ) : Disk κ Byte :=
  Function.update disk p.path (p.content (disk p.path))

/-- The file a session is in the middle of, before and after a piece. -/
def phase (open? : Option κ) (p : Piece κ) : Option (Option κ) :=
  match open? with
  | none => if p.first then some (if p.last then none else some p.path) else none
  | some path =>
    if p.first = false ∧ p.path = path then some (if p.last then none else some path) else none

/-- Adding a piece changes its own file. -/
theorem add_self (disk : Disk κ Byte) (p : Piece κ) :
    p.add disk p.path = p.content (disk p.path) := Function.update_self _ _ _

/-- The other files are as before. -/
theorem add_of_ne {disk : Disk κ Byte} {p : Piece κ} {path : κ} (h : path ≠ p.path) :
    p.add disk path = disk path := Function.update_of_ne h _ _

/-- A session is in the middle of the file of its last piece, or of none. -/
theorem phase_eq_some {open? next : Option κ} {p : Piece κ} (h : phase open? p = some next) :
    next = (if p.last then none else some p.path) ∧
      (open? = none ∧ p.first = true ∨ open? = some p.path ∧ p.first = false) := by
  cases open? with
  | none =>
    simp only [phase] at h
    split at h
    · rename_i hfirst
      exact ⟨(Option.some.inj h).symm, Or.inl ⟨rfl, hfirst⟩⟩
    · contradiction
  | some path =>
    simp only [phase] at h
    split at h
    · rename_i hp
      obtain ⟨hfirst, rfl⟩ := hp
      exact ⟨(Option.some.inj h).symm, Or.inr ⟨rfl, hfirst⟩⟩
    · contradiction

/-- Pieces make of a file what its content was alone, not what other files hold. -/
theorem foldl_add_congr {disk disk' : Disk κ Byte} {path : κ} (h : disk path = disk' path)
    (ps : List (Piece κ)) : ps.foldl add disk path = ps.foldl add disk' path := by
  induction ps generalizing disk disk' with
  | nil => exact h
  | cons p ps ih =>
    rw [List.foldl_cons, List.foldl_cons]
    apply ih
    by_cases hp : path = p.path
    · subst hp
      rw [add_self, add_self, h]
    · rw [add_of_ne hp, add_of_ne hp, h]

/-- Pieces of other files leave a file alone. -/
theorem foldl_add_of_ne {disk : Disk κ Byte} {path : κ} {ps : List (Piece κ)}
    (h : ∀ p ∈ ps, p.path ≠ path) : ps.foldl add disk path = disk path := by
  induction ps generalizing disk with
  | nil => rfl
  | cons p ps ih =>
    rw [List.foldl_cons, ih fun q hq => h q (List.mem_cons_of_mem p hq),
      add_of_ne (h p List.mem_cons_self).symm]

omit [DecidableEq κ] in
/-- The pieces of an upload, or of what is left of it. -/
def ofParts (path : κ) (first : Bool) : List Bytes → List (Piece κ)
  | [] => []
  | d :: ds => ⟨path, first, ds.isEmpty, d⟩ :: ofParts path false ds

omit [DecidableEq κ] in
/-- All pieces are of the one file. -/
theorem path_of_mem_ofParts {path : κ} {first : Bool} {ds : List Bytes} {p : Piece κ}
    (h : p ∈ ofParts path first ds) : p.path = path := by
  induction ds generalizing first with
  | nil => cases h
  | cons d ds ih =>
    rcases List.mem_cons.mp h with rfl | h
    · rfl
    · exact ih h

/-- A whole upload leads from the closed phase back to it, and so does the rest of
one from its middle. -/
theorem run_phase_ofParts (path : κ) (first : Bool) {ds : List Bytes} (h : ds ≠ []) :
    run phase (if first then none else some path) (ofParts path first ds) = some none := by
  induction ds generalizing first with
  | nil => exact absurd rfl h
  | cons d ds ih =>
    have hphase : phase (if first then none else some path) ⟨path, first, ds.isEmpty, d⟩ =
        some (if ds.isEmpty then none else some path) := by
      cases first <;> simp [phase]
    refine run_cons_eq_some.mpr ⟨_, hphase, ?_⟩
    cases ds with
    | nil => rfl
    | cons d' ds => exact ih false (List.cons_ne_nil d' ds)

/-- A whole upload leaves its parts in the file, the rest of one adds them to it. -/
theorem foldl_add_ofParts (path : κ) (first : Bool) {ds : List Bytes} (h : ds ≠ [])
    (disk : Disk κ Byte) : (ofParts path first ds).foldl add disk path =
      (if first then [] else disk path) ++ ds.flatten := by
  induction ds generalizing first disk with
  | nil => exact absurd rfl h
  | cons d ds ih =>
    rw [ofParts, List.foldl_cons, List.flatten_cons, ← List.append_assoc]
    cases ds with
    | nil =>
      rw [List.flatten_nil, List.append_nil]
      exact Function.update_self _ _ _
    | cons d' ds =>
      rw [ih false (List.cons_ne_nil d' ds)]
      congr 1
      exact Function.update_self _ _ _

end Piece

/-! ## Requests that carry pieces -/

section

variable {κ : Type}

/-- The body of a request carries the piece, under the resource root `r`. -/
def UploadEnv.Carries (env : UploadEnv κ) (r : String) (data : Bytes) (p : Piece κ) : Prop :=
  ∃ req, env.Reads data req ∧ env.file r req.filename = p.path ∧
    (req.seq = 1 ↔ p.first = true) ∧ req.last = p.last ∧ Base64.decode req.text = some p.bytes

/-- The requests of one complete upload: numbered from one on, the same name in
each, the last one marked, each with the encoding of its part. -/
structure Upload (env : UploadEnv κ) where
  name : String
  datas : List Bytes
  parts : List Bytes
  ne_nil : datas ≠ []
  length_eq : datas.length = parts.length
  packet : ∀ k data d, datas[k]? = some data → parts[k]? = some d →
    ∃ req, env.Reads data req ∧ req.filename = name ∧ req.seq.toNat = k + 1 ∧
      req.last = decide (k + 1 = datas.length) ∧ Base64.decode req.text = some d

namespace Upload

variable {env : UploadEnv κ}

/-- The content of the whole upload. -/
def content (u : Upload env) : Bytes := u.parts.flatten

/-- The pieces of an upload under the resource root `r`. -/
def pieces (u : Upload env) (r : String) : List (Piece κ) :=
  Piece.ofParts (env.file r u.name) true u.parts

/-- An upload has at least one part. -/
theorem parts_ne_nil (u : Upload env) : u.parts ≠ [] := by
  intro h
  have hl := u.length_eq
  rw [h, List.length_nil] at hl
  exact u.ne_nil (List.length_eq_zero_iff.mp hl)

/-- Requests numbered from `k + 1` on carry the pieces of the parts from there on. -/
theorem carries_ofParts {r name : String} {datas parts : List Bytes} (k : Nat)
    (hlen : datas.length = parts.length)
    (h : ∀ i data d, datas[i]? = some data → parts[i]? = some d →
      ∃ req, env.Reads data req ∧ req.filename = name ∧ req.seq.toNat = k + i + 1 ∧
        req.last = decide (i + 1 = datas.length) ∧ Base64.decode req.text = some d) :
    List.Forall₂ (env.Carries r) datas
      (Piece.ofParts (env.file r name) (decide (k = 0)) parts) := by
  induction parts generalizing k datas with
  | nil =>
    rw [List.length_eq_zero_iff.mp hlen]
    exact List.Forall₂.nil
  | cons d ds ih =>
    cases datas with
    | nil => contradiction
    | cons data datas =>
      rw [List.length_cons, List.length_cons, Nat.add_right_cancel_iff] at hlen
      refine List.Forall₂.cons ?_ ?_
      · obtain ⟨req, hreads, hname, hseq, hlast, hd⟩ := h 0 data d rfl rfl
        refine ⟨req, hreads, by rw [hname], ?_, ?_, hd⟩
        · rw [decide_eq_true_iff, ← BitVec.toNat_inj, hseq]
          simp
        · rw [hlast, List.length_cons, hlen]
          cases ds <;> simp
      · have hfalse : decide (k + 1 = 0) = false := by simp
        rw [← hfalse]
        apply ih (k + 1) hlen
        intro i data' d' hi hi'
        obtain ⟨req, hreads, hname, hseq, hlast, hd⟩ := h (i + 1) data' d' hi hi'
        refine ⟨req, hreads, hname, by omega, ?_, hd⟩
        rw [hlast, List.length_cons]
        simp

/-- The requests of an upload carry its pieces. -/
theorem carries (u : Upload env) (r : String) :
    List.Forall₂ (env.Carries r) u.datas (u.pieces r) := by
  apply carries_ofParts 0 u.length_eq
  intro i data d hi hi'
  obtain ⟨req, hreads, hname, hseq, hlast, hd⟩ := u.packet i data d hi hi'
  exact ⟨req, hreads, hname, by omega, hlast, hd⟩

/-- The requests of successive uploads carry their pieces. -/
theorem carries_flatMap (us : List (Upload env)) (r : String) :
    List.Forall₂ (env.Carries r) (us.flatMap datas) (us.flatMap fun u => u.pieces r) := by
  induction us with
  | nil => exact List.Forall₂.nil
  | cons u us ih =>
    rw [List.flatMap_cons, List.flatMap_cons]
    exact List.rel_append (u.carries r) ih

/-- All pieces of an upload are of its own file. -/
theorem path_of_mem_pieces {u : Upload env} {r : String} {p : Piece κ} (h : p ∈ u.pieces r) :
    p.path = env.file r u.name := Piece.path_of_mem_ofParts h

variable [DecidableEq κ]

/-- Successive whole uploads lead from the closed phase back to it. -/
theorem run_phase (us : List (Upload env)) (r : String) :
    run Piece.phase none (us.flatMap fun u => u.pieces r) = some none := by
  induction us with
  | nil => rfl
  | cons u us ih =>
    rw [List.flatMap_cons]
    exact run_append_eq_some.mpr ⟨none, Piece.run_phase_ofParts _ true u.parts_ne_nil, ih⟩

/-- Of successive uploads the last one to a file is what the file holds. -/
theorem foldl_add_of_last {us vs : List (Upload env)} {u : Upload env} {r : String}
    (h : ∀ v ∈ vs, env.file r v.name ≠ env.file r u.name) (disk : Disk κ Byte) :
    ((us ++ u :: vs).flatMap fun u => u.pieces r).foldl Piece.add disk (env.file r u.name) =
      u.content := by
  rw [List.flatMap_append, List.flatMap_cons, List.foldl_append, List.foldl_append,
    Piece.foldl_add_of_ne]
  · exact Piece.foldl_add_ofParts _ true u.parts_ne_nil _
  · intro p hp
    obtain ⟨v, hv, hpv⟩ := List.mem_flatMap.mp hp
    rw [path_of_mem_pieces hpv]
    exact h v hv

end Upload

end

end ResourceServer
