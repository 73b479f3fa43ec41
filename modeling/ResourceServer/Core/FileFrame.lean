import ResourceServer.Core.FileStream

/-!
# Files a stream keeps clear of

A stream that is on none of the files of a set, and is opened on none of them,
never changes them: neither by what is written to it, nor when its buffer reaches
its file or it is closed.
-/

namespace FileStream

namespace View

variable {κ β : Type*} {own : κ → Prop} {v w : View κ β}

/-- The stream is on none of the files. -/
def ClearOf (own : κ → Prop) (v : View κ β) : Prop := ∀ st ∈ v.out, ¬ own st.path

/-- The files are what they were, and the stream is on none of them. -/
structure Keeps (own : κ → Prop) (v w : View κ β) : Prop where
  clear : w.ClearOf own
  disk_eq : ∀ path, own path → w.disk path = v.disk path

/-- Whether a stream is clear of files depends on the file it is on. -/
theorem ClearOf.of_path_eq (h : v.ClearOf own)
    (hpath : w.out.map OutStream.path = v.out.map OutStream.path) : w.ClearOf own := by
  intro st hst
  rw [Option.mem_def.mp hst, Option.map_some] at hpath
  obtain ⟨st', hst', he⟩ := Option.map_eq_some_iff.mp hpath.symm
  exact he ▸ h st' hst'

/-- The files the stream is clear of are none it is on. -/
theorem ClearOf.path_ne (h : v.ClearOf own) {path : κ} (hp : own path) :
    ∀ st ∈ v.out, st.path ≠ path := by
  rintro st hst rfl
  exact h st hst hp

/-- A stream clear of the files keeps them while nothing is done. -/
theorem ClearOf.keeps (h : v.ClearOf own) : v.Keeps own v := ⟨h, fun _ _ => rfl⟩

/-- The files are kept over two steps if either keeps them. -/
theorem Keeps.trans {u : View κ β} (h : u.Keeps own v) (h' : v.Keeps own w) : u.Keeps own w :=
  ⟨h'.clear, fun path hp => (h'.disk_eq path hp).trans (h.disk_eq path hp)⟩

/-- Writing to a stream clear of the files keeps them. -/
theorem ClearOf.keeps_write (h : v.ClearOf own) (bs : List β) : v.Keeps own (v.write bs) := by
  refine ⟨h.of_path_eq ?_, fun _ _ => rfl⟩
  rw [View.write, Option.map_map]
  rfl

variable [DecidableEq κ]

/-- Opening another file keeps them. -/
theorem keeps_openOn (mode : Mode) {path : κ} (hpath : ¬ own path) :
    v.Keeps own (v.openOn mode path) := by
  refine ⟨?_, fun other hother => disk_openOn_of_ne mode ?_⟩
  · rintro st ⟨⟩
    exact hpath
  · rintro rfl
    exact hpath hother

/-- Flushing a stream clear of the files keeps them. -/
theorem ClearOf.keeps_flush (h : v.ClearOf own) (zero : β) (k : Nat) :
    v.Keeps own (v.flush zero k) :=
  ⟨h.of_path_eq (path_out_flush zero k v),
    fun _ hp => disk_flush_of_ne zero k (h.path_ne hp)⟩

/-- Closing a stream clear of the files keeps them. -/
theorem ClearOf.keeps_close (h : v.ClearOf own) (zero : β) : v.Keeps own (v.close zero) := by
  refine ⟨?_, fun _ hp => settled_of_ne zero (h.path_ne hp)⟩
  rintro st ⟨⟩

end View

end FileStream
