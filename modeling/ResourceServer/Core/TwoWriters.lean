import ResourceServer.Core.FileStream

/-!
# Two writers of one file

Two truncating streams on one file write at positions of their own. What the file
holds after the second truncation is, cell by cell, what one of the two writes
there, or the filling of a gap behind the second writer.
-/

namespace FileStream

variable {β : Type*}

/-- A writer of `text` goes from position `pos` to `pos'`, and the file from `file` to `file'`. -/
def Advances (zero : β) (text file : List β) (pos : Nat) (file' : List β) (pos' : Nat) : Prop :=
  ∃ done bs rest, text = done ++ bs ++ rest ∧ done.length = pos ∧ pos' = pos + bs.length ∧
    file' = overwrite zero file pos bs

/-- What the file holds when writers of `first` and `second` are at `pos` and
`pos'`, the second having emptied the file last. -/
structure Mixed (zero : β) (first second : List β) (pos pos' : Nat) (file : List β) : Prop where
  length_eq : file.length = pos' ∨ file.length = max pos pos'
  cell : ∀ i x, file[i]? = some x →
    first[i]? = some x ∨ second[i]? = some x ∨ x = zero ∧ pos' ≤ i

/-- A file that was emptied holds nothing of either. -/
theorem mixed_nil (zero : β) (first second : List β) (pos : Nat) :
    Mixed zero first second pos 0 [] := by
  refine ⟨Or.inl rfl, ?_⟩
  intro i x h
  rw [List.getElem?_nil] at h
  contradiction

/-- A cell after a write: a written one, an old one, or the filling of a gap. -/
theorem getElem?_overwrite {zero : β} {file bs : List β} {pos i : Nat} {x : β}
    (h : (overwrite zero file pos bs)[i]? = some x) :
    (pos ≤ i ∧ bs[i - pos]? = some x) ∨
      (file[i]? = some x ∧ (i < pos ∨ pos + bs.length ≤ i)) ∨
      x = zero ∧ file.length ≤ i ∧ i < pos := by
  by_cases hbs : bs = []
  · subst hbs
    rw [overwrite_nil] at h
    exact Or.inr (Or.inl ⟨h, by rw [List.length_nil]; omega⟩)
  · rw [overwrite, if_neg (by simpa using hbs), List.append_assoc] at h
    have hlen : (file.take pos ++ List.replicate (pos - file.length) zero).length = pos := by
      rw [List.length_append, List.length_take, List.length_replicate]
      omega
    rcases Nat.lt_or_ge i pos with hi | hi
    · rw [List.getElem?_append_left (by omega)] at h
      rcases Nat.lt_or_ge i file.length with hf | hf
      · rw [List.getElem?_append_left (by rw [List.length_take]; omega),
          List.getElem?_take_of_lt hi] at h
        exact Or.inr (Or.inl ⟨h, Or.inl hi⟩)
      · rw [List.getElem?_append_right (by rw [List.length_take]; omega)] at h
        have hx := List.eq_of_mem_replicate (List.mem_of_getElem? h)
        exact Or.inr (Or.inr ⟨hx, hf, hi⟩)
    · rw [List.getElem?_append_right (by omega), hlen] at h
      rcases Nat.lt_or_ge (i - pos) bs.length with hb | hb
      · rw [List.getElem?_append_left hb] at h
        exact Or.inl ⟨hi, h⟩
      · rw [List.getElem?_append_right hb, List.getElem?_drop] at h
        have hi' : pos + bs.length + (i - pos - bs.length) = i := by omega
        rw [hi'] at h
        exact Or.inr (Or.inl ⟨h, Or.inr (by omega)⟩)

/-- A cell of a text behind what its writer has done. -/
theorem getElem?_of_advance {done bs rest : List β} {i : Nat} {x : β} (hi : done.length ≤ i)
    (h : bs[i - done.length]? = some x) : (done ++ bs ++ rest)[i]? = some x := by
  obtain ⟨hlt, _⟩ := List.getElem?_eq_some_iff.mp h
  rw [List.append_assoc, List.getElem?_append_right hi, List.getElem?_append_left hlt]
  exact h

/-- The first writer's progress keeps the file mixed. -/
theorem Mixed.advance_first {zero : β} {first second file file' : List β} {pos pos' next : Nat}
    (h : Mixed zero first second pos pos' file) (ha : Advances zero first file pos file' next) :
    Mixed zero first second next pos' file' := by
  obtain ⟨done, bs, rest, rfl, rfl, rfl, rfl⟩ := ha
  have hlength := h.length_eq
  constructor
  · by_cases hbs : bs = []
    · subst hbs
      exact hlength
    · have hpos := List.length_pos_iff.mpr hbs
      rw [length_overwrite _ _ _ hbs]
      omega
  · intro i x hx
    rcases getElem?_overwrite hx with ⟨hi, hb⟩ | ⟨hf, _⟩ | ⟨rfl, hf, _⟩
    · exact Or.inl (getElem?_of_advance hi hb)
    · exact h.cell i x hf
    · refine Or.inr (Or.inr ⟨rfl, ?_⟩)
      omega

/-- The second writer's progress keeps the file mixed. -/
theorem Mixed.advance_second {zero : β} {first second file file' : List β} {pos pos' next : Nat}
    (h : Mixed zero first second pos pos' file) (ha : Advances zero second file pos' file' next) :
    Mixed zero first second pos next file' := by
  obtain ⟨done, bs, rest, rfl, rfl, rfl, rfl⟩ := ha
  have hlength := h.length_eq
  by_cases hbs : bs = []
  · subst hbs
    exact h
  constructor
  · rw [length_overwrite _ _ _ hbs]
    omega
  · intro i x hx
    rcases getElem?_overwrite hx with ⟨hi, hb⟩ | ⟨hf, hi⟩ | ⟨rfl, hf, hi⟩
    · exact Or.inr (Or.inl (getElem?_of_advance hi hb))
    · rcases h.cell i x hf with hfirst | hsecond | ⟨hzero, hle⟩
      · exact Or.inl hfirst
      · exact Or.inr (Or.inl hsecond)
      · refine Or.inr (Or.inr ⟨hzero, ?_⟩)
        omega
    · omega

end FileStream
