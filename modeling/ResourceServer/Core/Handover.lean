import ResourceServer.Core.TwoWriters

/-!
# A file handed over to a second writer

A truncating stream is left with bytes in its buffer while an appending stream goes on
with the file. As long as the second one adds nothing before those bytes are written,
the file is the two texts in a row. Once it does, their last bytes and its first ones
take the same cells, and the file stays shorter than the two texts for good.
-/

namespace FileStream

variable {κ β : Type*}

/-- What a stream, if it is open, has yet to write. -/
def buffered (out : Option (OutStream κ β)) : List β := (out.map OutStream.buffer).getD []

/-- Where a stream, if it is open, will have written to. -/
def reach (out : Option (OutStream κ β)) : Nat :=
  (out.map fun st => st.pos + st.buffer.length).getD 0

/-- The stream, if it is open, is on the file `path` in the mode `mode`. -/
def OnFile (path : κ) (mode : Mode) (out : Option (OutStream κ β)) : Prop :=
  ∀ st ∈ out, st.path = path ∧ st.mode = mode

/-- The file is what the two streams have written, one behind the other. -/
structure InTurn (path : κ) (text text' : List β) (out out' : Option (OutStream κ β))
    (file : List β) : Prop where
  first : OnFile path .trunc out
  second : OnFile path .app out'
  split : ∃ done done', file = done ++ done' ∧ text = done ++ buffered out ∧
    text' = done' ++ buffered out' ∧ (∀ st ∈ out, st.pos = done.length) ∧
    (buffered out = [] ∨ done' = [])

/-- The file will never have room for both texts. -/
structure Overlaps (path : κ) (text text' : List β) (out out' : Option (OutStream κ β))
    (file : List β) : Prop where
  first : OnFile path .trunc out
  second : OnFile path .app out'
  short : max file.length (reach out) + (buffered out').length < text.length + text'.length

@[simp] theorem buffered_none : buffered (none : Option (OutStream κ β)) = [] := rfl

@[simp] theorem buffered_some (st : OutStream κ β) : buffered (some st) = st.buffer := rfl

@[simp] theorem reach_none : reach (none : Option (OutStream κ β)) = 0 := rfl

@[simp] theorem reach_some (st : OutStream κ β) : reach (some st) = st.pos + st.buffer.length := rfl

/-- A closed stream is on no other file. -/
theorem onFile_none (path : κ) (mode : Mode) :
    OnFile path mode (none : Option (OutStream κ β)) := by
  intro st hst
  cases hst

/-- What two closed streams in turn have left. -/
theorem InTurn.file_eq {path : κ} {text text' file : List β}
    (h : InTurn path text text' none none file) : file = text ++ text' := by
  obtain ⟨done, done', hfile, htext, htext', _⟩ := h.split
  rw [buffered_none, List.append_nil] at htext htext'
  rw [hfile, htext, htext']

/-- What two closed streams with an overlap have left. -/
theorem Overlaps.file_ne {path : κ} {text text' file : List β}
    (h : Overlaps path text text' none none file) : file ≠ text ++ text' := by
  rintro rfl
  have hshort := h.short
  simp at hshort

/-- A stream that is closed with nothing in its buffer was not needed. -/
theorem InTurn.drop_first {path : κ} {text text' file : List β} {out out' : Option (OutStream κ β)}
    (h : InTurn path text text' out out' file) (hbuf : buffered out = []) :
    InTurn path text text' none out' file := by
  obtain ⟨done, done', hfile, htext, htext', _⟩ := h.split
  rw [hbuf] at htext
  refine ⟨onFile_none _ _, h.second, done, done', hfile, htext, htext', ?_, Or.inl rfl⟩
  intro st hst
  cases hst

/-- The second stream may be dropped once it has nothing left. -/
theorem InTurn.drop_second {path : κ} {text text' file : List β} {out out' : Option (OutStream κ β)}
    (h : InTurn path text text' out out' file) (hbuf : buffered out' = []) :
    InTurn path text text' out none file := by
  obtain ⟨done, done', hfile, htext, htext', hrest⟩ := h.split
  rw [hbuf] at htext'
  exact ⟨h.first, onFile_none _ _, done, done', hfile, htext, htext', hrest⟩

/-- Dropping the first stream leaves an overlap. -/
theorem Overlaps.drop_first {path : κ} {text text' file : List β}
    {out out' : Option (OutStream κ β)} (h : Overlaps path text text' out out' file) :
    Overlaps path text text' none out' file := by
  refine ⟨onFile_none _ _, h.second, Nat.lt_of_le_of_lt ?_ h.short⟩
  rw [reach_none]
  omega

/-- Dropping the second stream leaves an overlap. -/
theorem Overlaps.drop_second {path : κ} {text text' file : List β}
    {out out' : Option (OutStream κ β)} (h : Overlaps path text text' out out' file) :
    Overlaps path text text' out none file := by
  refine ⟨h.first, onFile_none _ _, Nat.lt_of_le_of_lt ?_ h.short⟩
  rw [buffered_none, List.length_nil]
  omega

/-- What an open stream is given waits in its buffer. -/
theorem View.buffered_write {v : View κ β} (hopen : v.out.isSome = true) (bs : List β) :
    buffered (v.write bs).out = buffered v.out ++ bs := by
  obtain ⟨st, hst⟩ := Option.isSome_iff_exists.mp hopen
  simp [View.write, hst]

/-- Writing keeps a stream on its file. -/
theorem OnFile.write {path : κ} {mode : Mode} {v : View κ β} (h : OnFile path mode v.out)
    (bs : List β) : OnFile path mode (v.write bs).out := by
  intro st hst
  obtain ⟨st', hst', rfl⟩ := Option.map_eq_some_iff.mp hst
  exact h st' hst'

/-- The first stream takes more text while the second has none. -/
theorem InTurn.write_first {path : κ} {text : List β} {out' : Option (OutStream κ β)} {v : View κ β}
    {file : List β} (h : InTurn path text [] v.out out' file) (hopen : v.out.isSome = true)
    (bs : List β) : InTurn path (text ++ bs) [] (v.write bs).out out' file := by
  obtain ⟨done, done', hfile, htext, htext', hpos, _⟩ := h.split
  refine ⟨h.first.write bs, h.second, done, done', hfile, ?_, htext', ?_, ?_⟩
  · rw [View.buffered_write hopen, htext, List.append_assoc]
  · intro st hst
    obtain ⟨st', hst', rfl⟩ := Option.map_eq_some_iff.mp hst
    exact hpos st' hst'
  · exact Or.inr (List.append_eq_nil_iff.mp htext'.symm).1

/-- The second stream takes more text at any time. -/
theorem InTurn.write_second {path : κ} {text text' : List β} {out : Option (OutStream κ β)}
    {v : View κ β} {file : List β} (h : InTurn path text text' out v.out file)
    (hopen : v.out.isSome = true) (bs : List β) :
    InTurn path text (text' ++ bs) out (v.write bs).out file := by
  obtain ⟨done, done', hfile, htext, htext', hrest⟩ := h.split
  refine ⟨h.first, h.second.write bs, done, done', hfile, htext, ?_, hrest⟩
  rw [View.buffered_write hopen, htext', List.append_assoc]

/-- Writing to the second stream leaves an overlap. -/
theorem Overlaps.write_second {path : κ} {text text' : List β} {out : Option (OutStream κ β)}
    {v : View κ β} {file : List β} (h : Overlaps path text text' out v.out file)
    (hopen : v.out.isSome = true) (bs : List β) :
    Overlaps path text (text' ++ bs) out (v.write bs).out file := by
  refine ⟨h.first, h.second.write bs, ?_⟩
  have hshort := h.short
  rw [View.buffered_write hopen, List.length_append, List.length_append]
  omega

/-- Writing between what stands in the file, where only one of the two is something. -/
theorem overwrite_between (zero : β) {done done' bs : List β} (h : bs = [] ∨ done' = []) :
    overwrite zero (done ++ done') done.length bs = done ++ bs ++ done' := by
  rcases h with rfl | rfl
  · simp
  · by_cases hbs : bs = []
    · subst hbs
      simp
    · rw [overwrite, if_neg (by simpa using hbs)]
      simp

variable [DecidableEq κ]

/-- A stream is closed once all of its buffer has reached the file. -/
theorem View.close_eq (zero : β) (v : View κ β) :
    v.close zero = ⟨(v.flush zero (buffered v.out).length).disk, none⟩ := by
  cases hout : v.out with
  | none => simp [View.close, View.settled, View.flush, hout]
  | some st => simp [View.close, View.settled, View.flush, hout, OutStream.closeDisk]

/-- What is left in the buffer behind a flush. -/
theorem View.buffered_flush (zero : β) (k : Nat) (v : View κ β) :
    buffered (v.flush zero k).out = (buffered v.out).drop k := by
  cases hout : v.out with
  | none => simp [View.flush, hout]
  | some st => simp [View.flush, hout]

/-- A flush leaves the stream as far as it was going to get. -/
theorem View.reach_flush (zero : β) (k : Nat) (v : View κ β) :
    reach (v.flush zero k).out = reach v.out := by
  cases hout : v.out with
  | none => simp [View.flush, hout]
  | some st =>
    simp [View.flush, hout, OutStream.flush]
    omega

/-- Flushing keeps a stream on its file. -/
theorem OnFile.flush {path : κ} {mode : Mode} {v : View κ β} (h : OnFile path mode v.out) (zero : β)
    (k : Nat) : OnFile path mode (v.flush zero k).out := by
  cases hout : v.out with
  | none =>
    simp only [View.flush, hout]
    exact onFile_none path mode
  | some st =>
    simp only [View.flush, hout]
    rintro _ ⟨⟩
    exact h st hout

section

variable {path : κ} {text text' : List β} {out out' : Option (OutStream κ β)} {v : View κ β}

/-- The bytes a flush takes to the file. -/
theorem OnFile.disk_flush {mode : Mode} (h : OnFile path mode v.out) (zero : β) (k : Nat) :
    (v.flush zero k).disk path = if mode = .app then v.disk path ++ (buffered v.out).take k else
      overwrite zero (v.disk path) ((v.out.map OutStream.pos).getD 0)
        ((buffered v.out).take k) := by
  cases hout : v.out with
  | none => simp [View.flush, hout]
  | some st =>
    obtain ⟨rfl, rfl⟩ := h st hout
    cases hmode : st.mode <;> simp [View.flush, hout, OutStream.flushDisk_self, OutStream.put, hmode]

/-- A truncating stream flushes to its position. -/
theorem pos_flush {pos : Nat} (hpos : ∀ st ∈ v.out, st.pos = pos) (zero : β) (k : Nat) :
    ∀ st ∈ (v.flush zero k).out, st.pos = pos + ((buffered v.out).take k).length := by
  cases hout : v.out with
  | none => simp [View.flush, hout]
  | some st =>
    simp only [View.flush, hout]
    rintro _ ⟨⟩
    rw [← hpos st hout]
    rfl

/-- A flush of the first stream keeps the turns. -/
theorem InTurn.flush_first (h : InTurn path text text' v.out out' (v.disk path)) (zero : β)
    (k : Nat) :
    InTurn path text text' (v.flush zero k).out out' ((v.flush zero k).disk path) := by
  obtain ⟨done, done', hfile, htext, htext', hpos, hturn⟩ := h.split
  have hempty : (buffered v.out).take k = [] ∨ done' = [] :=
    hturn.imp_left fun hbuf => by rw [hbuf, List.take_nil]
  have hwritten : (v.flush zero k).disk path = done ++ (buffered v.out).take k ++ done' := by
    rw [h.first.disk_flush, if_neg Mode.noConfusion, hfile, ← overwrite_between zero hempty]
    cases hout : v.out with
    | none => simp
    | some st => rw [Option.map_some, Option.getD_some, hpos st hout]
  refine ⟨h.first.flush zero k, h.second, done ++ (buffered v.out).take k, done', hwritten, ?_,
    htext', ?_, ?_⟩
  · rw [View.buffered_flush, List.append_assoc, List.take_append_drop]
    exact htext
  · rw [List.length_append]
    exact pos_flush hpos zero k
  · rw [View.buffered_flush]
    exact hturn.imp_left fun hbuf => by rw [hbuf, List.drop_nil]

/-- A flush of the second stream keeps the turns if it is empty or the first has written. -/
theorem InTurn.flush_second (h : InTurn path text text' out v.out (v.disk path)) {k : Nat}
    (hturn : (buffered v.out).take k = [] ∨ buffered out = []) (zero : β) :
    InTurn path text text' out (v.flush zero k).out ((v.flush zero k).disk path) := by
  obtain ⟨done, done', hfile, htext, htext', hpos, hbefore⟩ := h.split
  refine ⟨h.first, h.second.flush zero k, done, done' ++ (buffered v.out).take k, ?_, htext, ?_,
    hpos, ?_⟩
  · rw [h.second.disk_flush, if_pos rfl, hfile, List.append_assoc]
  · rw [View.buffered_flush, List.append_assoc, List.take_append_drop]
    exact htext'
  · rcases hturn with hnil | hwritten
    · rwa [hnil, List.append_nil]
    · exact Or.inl hwritten

/-- A flush of the second stream that comes too early makes the two overlap. -/
theorem InTurn.overlaps (h : InTurn path text text' out v.out (v.disk path)) {k : Nat}
    (hearly : (buffered v.out).take k ≠ []) (hleft : buffered out ≠ []) (zero : β) :
    Overlaps path text text' out (v.flush zero k).out ((v.flush zero k).disk path) := by
  obtain ⟨done, done', hfile, htext, htext', hpos, hbefore⟩ := h.split
  refine ⟨h.first, h.second.flush zero k, ?_⟩
  obtain rfl := hbefore.resolve_left hleft
  have hsplit := congrArg List.length (List.take_append_drop k (buffered v.out))
  have hreach : reach out = done.length + (buffered out).length := by
    cases hout : out with
    | none => simp [hout] at hleft
    | some st => rw [reach_some, hpos st hout, buffered_some]
  have hpos' := List.length_pos_iff.mpr hearly
  have hleft' := List.length_pos_iff.mpr hleft
  rw [h.second.disk_flush, if_pos rfl, hfile, View.buffered_flush, htext, htext', hreach]
  simp only [List.length_append, List.length_nil] at hsplit ⊢
  omega

/-- An overlap is there to stay, whichever stream is flushed. -/
theorem Overlaps.flush_first (h : Overlaps path text text' v.out out' (v.disk path)) (zero : β)
    (k : Nat) :
    Overlaps path text text' (v.flush zero k).out out' ((v.flush zero k).disk path) := by
  refine ⟨h.first.flush zero k, h.second, ?_⟩
  have hshort := h.short
  rw [h.first.disk_flush, if_neg Mode.noConfusion, View.reach_flush]
  by_cases hnil : (buffered v.out).take k = []
  · rwa [hnil, overwrite_nil]
  · rw [length_overwrite _ _ _ hnil]
    cases hout : v.out with
    | none => simp [hout] at hnil
    | some st =>
      simp only [hout, reach_some, buffered_some, Option.map_some, Option.getD_some,
        List.length_take] at hshort ⊢
      omega

/-- Flushing the second stream leaves an overlap. -/
theorem Overlaps.flush_second (h : Overlaps path text text' out v.out (v.disk path)) (zero : β)
    (k : Nat) :
    Overlaps path text text' out (v.flush zero k).out ((v.flush zero k).disk path) := by
  refine ⟨h.first, h.second.flush zero k, ?_⟩
  have hshort := h.short
  have hsplit := congrArg List.length (List.take_append_drop k (buffered v.out))
  rw [h.second.disk_flush, if_pos rfl, View.buffered_flush]
  simp only [List.length_append] at hsplit ⊢
  omega

/-- Closing the first stream keeps the turns. -/
theorem InTurn.close_first (h : InTurn path text text' v.out out' (v.disk path)) (zero : β) :
    InTurn path text text' (v.close zero).out out' ((v.close zero).disk path) := by
  rw [View.close_eq]
  apply (h.flush_first zero (buffered v.out).length).drop_first
  rw [View.buffered_flush, List.drop_length]

/-- Closing the second stream keeps the turns if it is empty or the first has written. -/
theorem InTurn.close_second (h : InTurn path text text' out v.out (v.disk path))
    (hturn : buffered v.out = [] ∨ buffered out = []) (zero : β) :
    InTurn path text text' out (v.close zero).out ((v.close zero).disk path) := by
  rw [View.close_eq]
  apply (h.flush_second _ zero).drop_second
  · rw [View.buffered_flush, List.drop_length]
  · rwa [List.take_length]

/-- Closing the second stream too early makes the two overlap. -/
theorem InTurn.overlaps_close (h : InTurn path text text' out v.out (v.disk path))
    (hearly : buffered v.out ≠ []) (hleft : buffered out ≠ []) (zero : β) :
    Overlaps path text text' out (v.close zero).out ((v.close zero).disk path) := by
  rw [View.close_eq]
  apply (h.overlaps _ hleft zero).drop_second
  rwa [List.take_length]

/-- Closing the first stream leaves an overlap. -/
theorem Overlaps.close_first (h : Overlaps path text text' v.out out' (v.disk path)) (zero : β) :
    Overlaps path text text' (v.close zero).out out' ((v.close zero).disk path) := by
  rw [View.close_eq]
  exact (h.flush_first zero _).drop_first

/-- Closing the second stream leaves an overlap. -/
theorem Overlaps.close_second (h : Overlaps path text text' out v.out (v.disk path)) (zero : β) :
    Overlaps path text text' out (v.close zero).out ((v.close zero).disk path) := by
  rw [View.close_eq]
  exact (h.flush_second zero _).drop_second

/-- The first stream starts with an emptied file. -/
theorem inTurn_openOn (path : κ) (v : View κ β) :
    InTurn path [] [] (v.openOn .trunc path).out none ((v.openOn .trunc path).disk path) := by
  refine ⟨?_, onFile_none _ _, [], [], Function.update_self _ _ _, rfl, rfl, ?_, Or.inl rfl⟩
  · rintro _ ⟨⟩
    exact ⟨rfl, rfl⟩
  · rintro _ ⟨⟩
    rfl

/-- The second stream is opened with nothing in its buffer. -/
theorem InTurn.open_second (h : InTurn path text text' out none (v.disk path)) :
    InTurn path text text' out (v.openOn .app path).out ((v.openOn .app path).disk path) := by
  refine ⟨h.first, ?_, h.split⟩
  rintro _ ⟨⟩
  exact ⟨rfl, rfl⟩

/-- Opening the second stream leaves an overlap. -/
theorem Overlaps.open_second (h : Overlaps path text text' out none (v.disk path)) :
    Overlaps path text text' out (v.openOn .app path).out ((v.openOn .app path).disk path) := by
  refine ⟨h.first, ?_, h.short⟩
  rintro _ ⟨⟩
  exact ⟨rfl, rfl⟩

end

end FileStream
