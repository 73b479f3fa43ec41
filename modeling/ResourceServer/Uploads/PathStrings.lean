import ResourceServer.Core.LexicalPath
import ResourceServer.Native.Path

/-!
# Path strings as lexical paths

The strings of both formats, read as `std::filesystem` reads them. What is put behind
a path can change its root: `\` and `\`, with the name of a host behind. Behind a path
that goes on past its root it cannot, and there joining strings joins paths and the
parent string names a directory above.
-/

namespace ResourceServer

/-- A piece between two separators. -/
def pathComponent (piece : List Char) : PathComponent (List Char) :=
  if piece = ['.'] then .current
  else if piece = ['.', '.'] then .parent
  else .name piece

namespace PathFormat

/-- The components of a path behind its root name: repeated separators count once. -/
def pathComponents (fmt : PathFormat) (path : List Char) : List (PathComponent (List Char)) :=
  ((path.splitOnP fmt.isSeparator).filter fun piece => piece ≠ []).map pathComponent

/-- The characters of a path, as `std::filesystem` reads them. -/
def lexicalChars (fmt : PathFormat) (path : List Char) : LexicalPath (List Char) where
  rootName :=
    if fmt.rootNameLength path = 0 then none else some (path.take (fmt.rootNameLength path))
  rootDirectory := fmt.hasRootDirectory path
  components := fmt.pathComponents (path.drop (fmt.rootNameLength path))

/-- A path, as `std::filesystem` reads it. -/
def lexical (fmt : PathFormat) (path : String) : LexicalPath (List Char) :=
  fmt.lexicalChars path.toList

variable {fmt : PathFormat}

@[simp] theorem isSeparator_preferredSeparator (fmt : PathFormat) :
    fmt.isSeparator fmt.preferredSeparator = true := by
  simp [isSeparator]

/-- A separator ends the components before it. -/
theorem pathComponents_append {sep : Char} (hsep : fmt.isSeparator sep = true)
    (path rest : List Char) : fmt.pathComponents (path ++ sep :: rest) =
      fmt.pathComponents path ++ fmt.pathComponents rest := by
  simp only [pathComponents, List.splitOnP_append_cons _ _ hsep, List.filter_append,
    List.map_append]

/-! ## Roots -/

/-- A path with no root of its own has neither a root name nor a root directory. -/
theorem relative_iff {q : List Char} : (fmt.lexicalChars q).Relative ↔
    fmt.rootNameLength q = 0 ∧ fmt.hasRootDirectory q = false := by
  refine and_congr_left fun _ => ?_
  change (if _ then none else some _) = none ↔ _
  split
  · exact iff_of_true rfl ‹_›
  · exact iff_of_false (Option.some_ne_none _) ‹_›

/-- The path goes on past its root, which nothing put behind it changes. -/
structure RootFixed (fmt : PathFormat) (p : List Char) : Prop where
  append : ∀ rest, fmt.rootNameLength (p ++ rest) = fmt.rootNameLength p
  lt : fmt.rootNameLength p < p.length

/-- What is taken while no separator comes ends with the first one. -/
theorem takeWhile_append_cons {sep : Char} (hsep : fmt.isSeparator sep = true)
    (path rest : List Char) : (path ++ sep :: rest).takeWhile (!fmt.isSeparator ·) =
      path.takeWhile (!fmt.isSeparator ·) := by
  rw [List.takeWhile_append, List.takeWhile_cons_of_neg (by simp [hsep]), List.append_nil]
  split
  · rename_i hall
    exact ((List.takeWhile_prefix _).eq_of_length hall).symm
  · rfl

/-- A separator behind three characters or more, and not at the end, fixes the root. -/
theorem rootFixed_of_separator {sep : Char} (hsep : fmt.isSeparator sep = true) {p q : List Char}
    (hp : 3 ≤ p.length) (hq : q ≠ []) : fmt.RootFixed (p ++ sep :: q) := by
  cases fmt with
  | posix => exact ⟨fun _ => rfl, List.length_pos_iff.mpr (by simp)⟩
  | windows =>
    match p, hp with
    | a :: b :: c :: p, _ =>
      have htake : ∀ rest, (p ++ sep :: q ++ rest).takeWhile (!isSeparator .windows ·) =
          p.takeWhile (!isSeparator .windows ·) := by
        intro rest
        rw [List.append_assoc, List.cons_append, takeWhile_append_cons hsep]
      have hle := (List.takeWhile_prefix (l := p) (!isSeparator .windows ·)).length_le
      have hhead : ∀ rest, (p ++ sep :: q ++ rest).head? = (p ++ sep :: q).head? ∧
          ((p ++ sep :: q ++ rest).drop 1).head? = ((p ++ sep :: q).drop 1).head? := by
        intro rest
        obtain ⟨d, q, rfl⟩ := List.exists_cons_of_ne_nil hq
        match p with
        | [] => exact ⟨rfl, rfl⟩
        | [_] => exact ⟨rfl, rfl⟩
        | _ :: _ :: _ => exact ⟨rfl, rfl⟩
      have hnil := htake []
      rw [List.append_nil] at hnil
      constructor
      · intro rest
        simp only [rootNameLength, List.cons_append, windowsRootName, htake, hnil, hhead]
      · simp only [rootNameLength, List.cons_append, windowsRootName, hnil, List.length_cons,
          List.length_append]
        split_ifs <;> omega

variable {p : List Char}

/-- What is put behind a path with a fixed root goes behind its components. -/
theorem lexicalChars_append (h : fmt.RootFixed p) {sep : Char} (hsep : fmt.isSeparator sep = true)
    (rest : List Char) : fmt.lexicalChars (p ++ sep :: rest) = { fmt.lexicalChars p with
      components := (fmt.lexicalChars p).components ++ fmt.pathComponents rest } := by
  have hle := h.lt.le
  have hne : p.drop (fmt.rootNameLength p) ≠ [] := by
    rw [Ne, List.drop_eq_nil_iff, not_le]
    exact h.lt
  simp only [lexicalChars, hasRootDirectory, h.append, List.take_append_of_le_length hle,
    List.drop_append_of_le_length hle, pathComponents_append hsep,
    List.head?_append_of_ne_nil _ hne]

/-! ## Joining -/

/-- A relative path is appended behind a separator, where one is needed. -/
theorem append_of_relative {q : List Char} (hq : (fmt.lexicalChars q).Relative)
    (hp : fmt.needsSeparator p = true) : fmt.append p q = p ++ fmt.preferredSeparator :: q := by
  obtain ⟨hname, hroot⟩ := relative_iff.mp hq
  have habsolute : fmt.isAbsolute q = false := by
    cases fmt with
    | posix => exact hroot
    | windows => simp [isAbsolute, hname]
  simp [append, habsolute, hname, hroot, hp]

/-- A separator is needed behind a name of three characters or more. -/
theorem needsSeparator_concat {c : Char} (hp : 2 ≤ p.length) (hc : fmt.isSeparator c = false) :
    fmt.needsSeparator (p ++ [c]) = true := by
  unfold needsSeparator
  split
  · simpa using hp
  · simp [hc]

/-- Whatever it is appended to, a name that is no root ends the path. -/
theorem suffix_append {q : List Char} (hq : (fmt.lexicalChars q).Relative) :
    q <:+ fmt.append p q := by
  obtain ⟨hname, hroot⟩ := relative_iff.mp hq
  simp only [append, hname, hroot, List.drop_zero, Bool.false_eq_true, if_false]
  split
  · exact List.suffix_rfl
  · split
    · exact (List.suffix_cons _ _).trans (List.suffix_append _ _)
    · exact List.suffix_append _ _

/-! ## Parents -/

/-- What ends where the characters to be dropped begin is kept. -/
theorem prefix_rdropWhile {α : Type*} {drops : α → Bool} {kept : List α}
    (h : kept.rdropWhile drops = kept) (rest : List α) :
    kept <+: (kept ++ rest).rdropWhile drops := by
  induction rest using List.reverseRecOn with
  | nil => rw [List.append_nil, h]
  | append_singleton rest x ih =>
    rw [← List.append_assoc, List.rdropWhile_concat]
    split
    · exact ih
    · rw [List.append_assoc]
      exact List.prefix_append _ _

/-- The name of a directory, cut off before a separator, keeps what stands before an earlier one. -/
theorem dirname_append {sep : Char} (hsep : fmt.isSeparator sep = true)
    (hp : p.rdropWhile fmt.isSeparator = p) (q : List Char) : ∃ more c rest,
      fmt.dirname (p ++ sep :: q) = p ++ more ∧ fmt.isSeparator c = true ∧
        p ++ sep :: q = p ++ more ++ c :: rest := by
  have hkept : (p ++ [sep]).rdropWhile (!fmt.isSeparator ·) = p ++ [sep] :=
    List.rdropWhile_concat_neg _ _ _ (by simp [hsep])
  obtain ⟨more, hmore⟩ := prefix_rdropWhile hkept q
  rw [List.append_assoc, List.append_assoc, List.singleton_append, List.singleton_append] at hmore
  have hfirst := List.rdropWhile_append_rtakeWhile (p := (!fmt.isSeparator ·)) (l := p ++ sep :: q)
  have hlast := List.rdropWhile_last_not (!fmt.isSeparator ·) (p ++ sep :: q)
  rw [dirname]
  generalize (p ++ sep :: q).rdropWhile (!fmt.isSeparator ·) = first at hmore hfirst hlast
  obtain ⟨between, hbetween⟩ := prefix_rdropWhile hp (sep :: more)
  rw [hmore] at hbetween
  have hsecond := List.rdropWhile_append_rtakeWhile (p := fmt.isSeparator) (l := first)
  cases htake : first.rtakeWhile fmt.isSeparator with
  | nil =>
    have hne : first ≠ [] := by
      rw [← hmore]
      exact List.append_ne_nil_of_right_ne_nil _ (List.cons_ne_nil _ _)
    have hnot := List.rtakeWhile_eq_nil_iff.mp htake hne
    have hsep' := hlast hne
    simp only [Bool.not_eq_true', Bool.not_eq_false] at hsep'
    exact absurd hsep' hnot
  | cons c seps =>
    refine ⟨between, c, seps ++ (p ++ sep :: q).rtakeWhile (!fmt.isSeparator ·), hbetween.symm,
      ?_, ?_⟩
    · exact List.mem_rtakeWhile_imp (htake ▸ List.mem_cons_self)
    · rw [htake] at hsecond
      rw [hbetween, ← List.cons_append, ← List.append_assoc, hsecond, hfirst]

/-- The end of a path that does not end in a separator does not either. -/
theorem rdropWhile_of_suffix {s : List Char} (h : s <:+ p)
    (hp : p.rdropWhile fmt.isSeparator = p) : s.rdropWhile fmt.isSeparator = s := by
  rw [List.rdropWhile_eq_self_iff] at hp ⊢
  intro hs
  rw [h.getLast hs]
  exact hp _

/-- The parent of a path cut off before a separator keeps what stands before an earlier one. -/
theorem parent_append (h : fmt.RootFixed p) (hp : p.rdropWhile fmt.isSeparator = p) {sep : Char}
    (hsep : fmt.isSeparator sep = true) (q : List Char) : ∃ more c rest,
      fmt.parent (p ++ sep :: q) = p ++ more ∧ fmt.isSeparator c = true ∧
        p ++ sep :: q = p ++ more ++ c :: rest := by
  have hbehind := rdropWhile_of_suffix (List.drop_suffix (fmt.rootNameLength p) p) hp
  have hne : p.drop (fmt.rootNameLength p) ≠ [] := by
    rw [Ne, List.drop_eq_nil_iff, not_le]
    exact h.lt
  have hsplit := List.take_append_drop (fmt.rootNameLength p) p
  rw [parent, h.append, List.take_append_of_le_length h.lt.le,
    List.drop_append_of_le_length h.lt.le]
  generalize p.drop (fmt.rootNameLength p) = behind at hbehind hne hsplit
  have hdrop : behind.dropWhile fmt.isSeparator ≠ [] := by
    intro hnil
    have hall := List.rdropWhile_eq_nil_iff.mpr (List.dropWhile_eq_nil_iff.mp hnil)
    exact hne (hbehind.symm.trans hall)
  have hseps := List.takeWhile_append_dropWhile (p := fmt.isSeparator) (l := behind)
  have hlt : ¬ (behind.takeWhile fmt.isSeparator).length = behind.length := by
    intro hall
    have hlen := congrArg List.length hseps
    rw [List.length_append] at hlen
    exact hdrop (List.length_eq_zero_iff.mp (by omega))
  obtain ⟨more, c, rest, hdir, hc, hpath⟩ := dirname_append hsep
    (rdropWhile_of_suffix (List.dropWhile_suffix _) hbehind) q
  rw [List.takeWhile_append, if_neg hlt, List.dropWhile_append,
    if_neg (by simpa using hdrop), hdir, ← List.append_assoc, List.append_assoc (p.take _), hseps,
    hsplit]
  refine ⟨more, c, rest, rfl, hc, ?_⟩
  have hrest : sep :: q = more ++ c :: rest := by
    rwa [List.append_assoc, List.append_cancel_left_eq] at hpath
  rw [hrest, List.append_assoc]

/-- The parent of a path that goes on behind a fixed root is a directory above it. -/
theorem initial_parent (h : fmt.RootFixed p) (hp : p.rdropWhile fmt.isSeparator = p) {sep : Char}
    (hsep : fmt.isSeparator sep = true) (q : List Char) :
    (fmt.lexicalChars (fmt.parent (p ++ sep :: q))).Initial (fmt.lexicalChars (p ++ sep :: q)) := by
  obtain ⟨more, c, rest, hparent, hc, hpath⟩ := parent_append h hp hsep q
  have hmore : fmt.RootFixed (p ++ more) := by
    refine ⟨fun rest => ?_, ?_⟩
    · rw [List.append_assoc, h.append, h.append]
    · rw [h.append, List.length_append]
      exact Nat.lt_add_right _ h.lt
  rw [hparent, hpath, lexicalChars_append hmore hc]
  exact ⟨⟨rfl, rfl⟩, List.prefix_append _ _⟩

end PathFormat

end ResourceServer
