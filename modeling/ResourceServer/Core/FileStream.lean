import Mathlib.Logic.Function.Basic
import Mathlib.Tactic.Common

/-!
# Buffered file streams

A disk maps names to contents. What is written to an open stream waits in its
buffer; any initial part of the buffer may reach the file at any time, and the
whole of it does when the stream is closed. A truncating stream writes at a
position of its own, an appending one at the end of the file.
-/

namespace FileStream

variable {κ β : Type*}

/-- The contents of the files, empty where there is none. -/
abbrev Disk (κ β : Type*) := κ → List β

inductive Mode
  | trunc
  | app
  deriving DecidableEq, Repr

/-- An open output stream. -/
structure OutStream (κ β : Type*) where
  path : κ
  mode : Mode
  /-- Where a truncating stream writes next. -/
  pos : Nat
  /-- What was written to the stream and has not reached the file. -/
  buffer : List β
  deriving DecidableEq, Repr

/-- Write over the cells from `pos` on; a gap behind the end of the file is filled. -/
def overwrite (zero : β) (file : List β) (pos : Nat) (bs : List β) : List β :=
  if bs.isEmpty then file
  else file.take pos ++ List.replicate (pos - file.length) zero ++ bs ++
    file.drop (pos + bs.length)

@[simp] theorem overwrite_nil (zero : β) (file : List β) (pos : Nat) :
    overwrite zero file pos [] = file := rfl

/-- What is written makes the file at least as long as where it ends. -/
theorem length_overwrite (zero : β) (file : List β) (pos : Nat) {bs : List β} (h : bs ≠ []) :
    (overwrite zero file pos bs).length = max file.length (pos + bs.length) := by
  rw [overwrite, if_neg (by simpa using h)]
  simp only [List.length_append, List.length_take, List.length_replicate, List.length_drop]
  omega

/-- More cells written in one go with the others stand behind these exactly if the others
end the file. -/
theorem overwrite_append_iff (zero : β) (file : List β) (pos : Nat) (bs : List β) {more : List β}
    (hmore : more ≠ []) :
    overwrite zero file pos (bs ++ more) = overwrite zero file pos bs ++ more ↔
      pos + bs.length = (overwrite zero file pos bs).length := by
  have hpos := List.length_pos_iff.mpr hmore
  have hboth := length_overwrite zero file pos (List.append_ne_nil_of_right_ne_nil bs hmore)
  rw [List.length_append] at hboth
  constructor
  · intro h
    rw [h, List.length_append] at hboth
    by_cases hbs : bs = []
    · subst hbs
      rw [overwrite_nil, List.length_nil] at hboth ⊢
      omega
    · rw [length_overwrite zero file pos hbs] at hboth ⊢
      omega
  · intro hend
    by_cases hbs : bs = []
    · subst hbs
      rw [overwrite_nil, List.length_nil, Nat.add_zero] at hend
      simp [overwrite, hmore, hend]
    · rw [length_overwrite zero file pos hbs] at hend
      have hdrop : file.drop (pos + (bs ++ more).length) = [] := by
        rw [List.length_append]
        exact List.drop_eq_nil_of_le (by omega)
      have hdrop' : file.drop (pos + bs.length) = [] := List.drop_eq_nil_of_le (by omega)
      rw [overwrite, overwrite, if_neg (by simp [hbs]), if_neg (by simp [hbs]), hdrop, hdrop']
      simp only [List.append_assoc, List.append_nil]

namespace OutStream

/-- The file once `bs` has reached it. -/
def put (zero : β) (st : OutStream κ β) (file bs : List β) : List β :=
  match st.mode with
  | .trunc => overwrite zero file st.pos bs
  | .app => file ++ bs

/-- Write to the stream. -/
def write (st : OutStream κ β) (bs : List β) : OutStream κ β :=
  { st with buffer := st.buffer ++ bs }

/-- The stream once the first `k` cells of its buffer have reached the file. -/
def flush (st : OutStream κ β) (k : Nat) : OutStream κ β :=
  { st with pos := st.pos + (st.buffer.take k).length, buffer := st.buffer.drop k }

/-- The stream adds to the end of its file. -/
def AtEnd (st : OutStream κ β) (disk : Disk κ β) : Prop :=
  st.mode = .app ∨ st.pos = (disk st.path).length

@[simp] theorem path_write (st : OutStream κ β) (bs : List β) : (st.write bs).path = st.path := rfl

@[simp] theorem buffer_write (st : OutStream κ β) (bs : List β) :
    (st.write bs).buffer = st.buffer ++ bs := rfl

@[simp] theorem path_flush (st : OutStream κ β) (k : Nat) : (st.flush k).path = st.path := rfl

@[simp] theorem buffer_flush (st : OutStream κ β) (k : Nat) :
    (st.flush k).buffer = st.buffer.drop k := rfl

/-- What a stream at the end of its file writes is appended. -/
theorem AtEnd.put_eq {st : OutStream κ β} {disk : Disk κ β} (h : st.AtEnd disk) (zero : β)
    (bs : List β) : st.put zero (disk st.path) bs = disk st.path ++ bs := by
  rcases h with hmode | hpos
  · rw [put, hmode]
  · cases hm : st.mode with
    | app => rw [put, hm]
    | trunc =>
      rw [put, hm]
      change overwrite zero (disk st.path) st.pos bs = _
      rw [overwrite, hpos]
      cases bs with
      | nil => simp
      | cons b bs => simp

/-- Writing to the buffer leaves a stream at the end of its file. -/
theorem AtEnd.write {st : OutStream κ β} {disk : Disk κ β} (h : st.AtEnd disk) (bs : List β) :
    (st.write bs).AtEnd disk := h

end OutStream

variable [DecidableEq κ]

namespace OutStream

/-- The disk once the first `k` cells of the buffer have reached the file. -/
def flushDisk (zero : β) (st : OutStream κ β) (k : Nat) (disk : Disk κ β) : Disk κ β :=
  Function.update disk st.path (st.put zero (disk st.path) (st.buffer.take k))

/-- The disk once the stream is closed. -/
def closeDisk (zero : β) (st : OutStream κ β) (disk : Disk κ β) : Disk κ β :=
  st.flushDisk zero st.buffer.length disk

/-- What is written next comes behind all that closing the stream would leave: the stream and its
file, the buffer counted in with both, end at one place. -/
def AtSettledEnd (zero : β) (st : OutStream κ β) (disk : Disk κ β) : Prop :=
  st.mode = .app ∨ st.pos + st.buffer.length = (st.closeDisk zero disk st.path).length

instance (zero : β) (st : OutStream κ β) (disk : Disk κ β) :
    Decidable (st.AtSettledEnd zero disk) := inferInstanceAs (Decidable (_ ∨ _))

/-- What closing the stream leaves in its file. -/
theorem closeDisk_self {zero : β} {st : OutStream κ β} {disk : Disk κ β} :
    st.closeDisk zero disk st.path = st.put zero (disk st.path) st.buffer := by
  rw [closeDisk, flushDisk, Function.update_self, List.take_length]

/-- Files other than the stream's own are left alone. -/
theorem flushDisk_of_ne {zero : β} {st : OutStream κ β} {k : Nat} {disk : Disk κ β} {path : κ}
    (h : path ≠ st.path) : st.flushDisk zero k disk path = disk path :=
  Function.update_of_ne h _ _

/-- The stream's own file. -/
theorem flushDisk_self {zero : β} {st : OutStream κ β} {k : Nat} {disk : Disk κ β} :
    st.flushDisk zero k disk st.path = st.put zero (disk st.path) (st.buffer.take k) :=
  Function.update_self _ _ _

/-- At the end of its file a flush appends. -/
theorem AtEnd.flushDisk_self {st : OutStream κ β} {disk : Disk κ β} (h : st.AtEnd disk) (zero : β)
    (k : Nat) : st.flushDisk zero k disk st.path = disk st.path ++ st.buffer.take k := by
  rw [OutStream.flushDisk_self, h.put_eq]

/-- A flush leaves the stream at the end of its file. -/
theorem AtEnd.flush {st : OutStream κ β} {disk : Disk κ β} (h : st.AtEnd disk) (zero : β)
    (k : Nat) : (st.flush k).AtEnd (st.flushDisk zero k disk) := by
  rcases h with hmode | hpos
  · exact Or.inl hmode
  · apply Or.inr
    rw [path_flush, AtEnd.flushDisk_self (Or.inr hpos), List.length_append, ← hpos]
    rfl

/-- At the end of its file, closing a stream appends its buffer. -/
theorem AtEnd.closeDisk_eq {st : OutStream κ β} {disk : Disk κ β} (h : st.AtEnd disk) (zero : β) :
    st.closeDisk zero disk = Function.update disk st.path (disk st.path ++ st.buffer) := by
  rw [closeDisk, OutStream.flushDisk, h.put_eq, List.take_length]

/-- A flush does not change what closing the stream will leave. -/
theorem AtEnd.closeDisk_flush {st : OutStream κ β} {disk : Disk κ β} (h : st.AtEnd disk) (zero : β)
    (k : Nat) :
    (st.flush k).closeDisk zero (st.flushDisk zero k disk) = st.closeDisk zero disk := by
  rw [(h.flush zero k).closeDisk_eq, h.closeDisk_eq, path_flush, h.flushDisk_self, buffer_flush,
    List.append_assoc, List.take_append_drop, OutStream.flushDisk, Function.update_idem]

/-- A stream at the end of its file is there with its buffer counted in. -/
theorem AtEnd.atSettledEnd {st : OutStream κ β} {disk : Disk κ β} (h : st.AtEnd disk) (zero : β) :
    st.AtSettledEnd zero disk := by
  refine h.imp_right fun hpos => ?_
  rw [h.closeDisk_eq, Function.update_self, List.length_append, hpos]

/-- What is written to a stream is appended to what closing it leaves exactly if it is nothing or
comes behind all that. -/
theorem closeDisk_write_iff (zero : β) (st : OutStream κ β) (disk : Disk κ β) (bs : List β) :
    (st.write bs).closeDisk zero disk =
        Function.update (st.closeDisk zero disk) st.path (st.closeDisk zero disk st.path ++ bs) ↔
      bs = [] ∨ st.AtSettledEnd zero disk := by
  have hfile : (st.write bs).closeDisk zero disk =
        Function.update (st.closeDisk zero disk) st.path (st.closeDisk zero disk st.path ++ bs) ↔
      st.put zero (disk st.path) (st.buffer ++ bs) = st.put zero (disk st.path) st.buffer ++ bs := by
    rw [closeDisk_self, closeDisk, closeDisk, flushDisk, flushDisk, Function.update_idem, path_write,
      buffer_write, List.take_length]
    exact (Function.update_injective disk st.path).eq_iff
  rw [hfile, AtSettledEnd, closeDisk_self]
  by_cases hbs : bs = []
  · subst hbs
    simp
  · cases hmode : st.mode with
    | app => simp [put, hmode]
    | trunc => simp [put, hmode, hbs, overwrite_append_iff zero (disk st.path) st.pos st.buffer hbs]

end OutStream

/-- A disk and one stream, which may be closed. -/
structure View (κ β : Type*) where
  disk : Disk κ β
  /-- The stream, if it is open. -/
  out : Option (OutStream κ β)

namespace View

/-- Open the stream: truncating empties the file, appending leaves it as it is. -/
def openOn (mode : Mode) (path : κ) (v : View κ β) : View κ β where
  disk := match mode with
    | .trunc => Function.update v.disk path []
    | .app => v.disk
  out := some ⟨path, mode, 0, []⟩

omit [DecidableEq κ] in
/-- Write to the stream; a closed one takes nothing. -/
def write (bs : List β) (v : View κ β) : View κ β := { v with out := v.out.map (·.write bs) }

/-- The first `k` cells of the buffer reach the file. -/
def flush (zero : β) (k : Nat) (v : View κ β) : View κ β :=
  match v.out with
  | none => v
  | some st => ⟨st.flushDisk zero k v.disk, some (st.flush k)⟩

/-- The contents of the files once the stream is closed. -/
def settled (zero : β) (v : View κ β) : Disk κ β :=
  match v.out with
  | none => v.disk
  | some st => st.closeDisk zero v.disk

/-- Close the stream. -/
def close (zero : β) (v : View κ β) : View κ β := ⟨v.settled zero, none⟩

omit [DecidableEq κ] in
/-- The stream, if it is open, adds to the end of its file. -/
def AtEnd (v : View κ β) : Prop := ∀ st ∈ v.out, st.AtEnd v.disk

/-- Files the stream is not on are the same before and after it is closed. -/
theorem settled_of_ne (zero : β) {v : View κ β} {path : κ} (h : ∀ st ∈ v.out, st.path ≠ path) :
    v.settled zero path = v.disk path := by
  cases hout : v.out with
  | none => simp only [settled, hout]
  | some st =>
    simp only [settled, hout]
    exact OutStream.flushDisk_of_ne (h st hout).symm

/-- What closing a stream at the end of its file leaves there. -/
theorem AtEnd.settled_self {v : View κ β} (h : v.AtEnd) (zero : β) {st : OutStream κ β}
    (hst : v.out = some st) : v.settled zero st.path = v.disk st.path ++ st.buffer := by
  simp only [settled, hst]
  rw [(h st hst).closeDisk_eq, Function.update_self]

/-- There is no stream behind a close. -/
theorem atEnd_close (zero : β) (v : View κ β) : (v.close zero).AtEnd := by
  intro st hst
  cases hst

/-- A stream is opened at the end of its file. -/
theorem atEnd_openOn (mode : Mode) (path : κ) (v : View κ β) : (v.openOn mode path).AtEnd := by
  intro st hst
  cases hst
  cases mode with
  | app => exact Or.inl rfl
  | trunc =>
    apply Or.inr
    simp [openOn]

/-- Opening leaves the other files alone. -/
theorem disk_openOn_of_ne (mode : Mode) {path other : κ} {v : View κ β} (h : other ≠ path) :
    (v.openOn mode path).disk other = v.disk other := by
  cases mode with
  | app => rfl
  | trunc => exact Function.update_of_ne h _ _

/-- Opening changes what is on the disk by the truncation only. -/
theorem settled_openOn (zero : β) (mode : Mode) (path : κ) (v : View κ β) :
    (v.openOn mode path).settled zero = (v.openOn mode path).disk := by
  change OutStream.closeDisk zero ⟨path, mode, 0, []⟩ (v.openOn mode path).disk = _
  rw [(atEnd_openOn mode path v _ rfl).closeDisk_eq]
  simp

omit [DecidableEq κ] in
/-- Writing to the buffer leaves a stream at the end of its file. -/
theorem AtEnd.write {v : View κ β} (h : v.AtEnd) (bs : List β) : (v.write bs).AtEnd := by
  intro st hst
  obtain ⟨st', hst', rfl⟩ := Option.map_eq_some_iff.mp hst
  exact (h st' hst').write bs

/-- What is written to an open stream is appended to its file exactly if it is nothing or comes
behind all that closing the stream would leave. -/
theorem settled_write_iff {v : View κ β} {st : OutStream κ β} (hst : v.out = some st) (zero : β)
    (bs : List β) : (v.write bs).settled zero =
        Function.update (v.settled zero) st.path (v.settled zero st.path ++ bs) ↔
      bs = [] ∨ st.AtSettledEnd zero v.disk := by
  simp only [settled, View.write, hst, Option.map_some]
  exact st.closeDisk_write_iff zero v.disk bs

/-- What is written to an open stream at the end of its file is appended to the file. -/
theorem AtEnd.settled_write {v : View κ β} (h : v.AtEnd) {st : OutStream κ β}
    (hst : v.out = some st) (zero : β) (bs : List β) : (v.write bs).settled zero =
      Function.update (v.settled zero) st.path (v.settled zero st.path ++ bs) :=
  (settled_write_iff hst zero bs).mpr (Or.inr ((h st hst).atSettledEnd zero))

/-- A stream that writes at the end stays there. -/
theorem AtEnd.flush {v : View κ β} (h : v.AtEnd) (zero : β) (k : Nat) :
    (v.flush zero k).AtEnd := by
  unfold View.flush
  split
  · exact h
  · rename_i st hout
    intro st' hst'
    cases hst'
    exact (h st hout).flush zero k

/-- A closed stream has nothing to flush. -/
theorem flush_of_none (zero : β) (k : Nat) {v : View κ β} (h : v.out = none) :
    v.flush zero k = v := by
  simp only [View.flush, h]

@[simp] theorem path_out_flush (zero : β) (k : Nat) (v : View κ β) :
    (v.flush zero k).out.map OutStream.path = v.out.map OutStream.path := by
  unfold View.flush
  split
  · rfl
  · rename_i st hout
    rw [hout]
    rfl

/-- A flush leaves the files the stream is not on alone. -/
theorem disk_flush_of_ne (zero : β) (k : Nat) {v : View κ β} {path : κ}
    (h : ∀ st ∈ v.out, st.path ≠ path) : (v.flush zero k).disk path = v.disk path := by
  unfold View.flush
  split
  · rfl
  · rename_i st hout
    exact OutStream.flushDisk_of_ne (h st hout).symm

/-- A flush at the end of the file does not change what closing the stream will leave. -/
theorem AtEnd.settled_flush {v : View κ β} (h : v.AtEnd) (zero : β) (k : Nat) :
    (v.flush zero k).settled zero = v.settled zero := by
  cases hout : v.out with
  | none => rw [View.flush, hout]
  | some st =>
    simp only [View.flush, settled, hout]
    exact (h st hout).closeDisk_flush zero k

end View

end FileStream
