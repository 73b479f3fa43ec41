import Mathlib.Data.List.Infix
import Mathlib.Logic.Function.Iterate
import Mathlib.Tactic.Common

/-!
# Lexical paths

Paths as lists of components behind a root, apart from any file system: joining, the
normal form that cancels every `..` against the name before it, and what lies under a
path. A relative path climbs as many directories as its normal form has leading `..`;
one that climbs none stays under whatever it is joined to, with every initial part of it.
-/

/-- A component of a path. -/
inductive PathComponent (α : Type*)
  /-- `.` -/
  | current
  /-- `..` -/
  | parent
  | name (a : α)
  deriving DecidableEq, Repr

/-- A path before normalisation. -/
@[ext] structure LexicalPath (α : Type*) where
  /-- The name of its root, such as that of a drive, if it gives one. -/
  rootName : Option α
  /-- Whether it begins at the root directory. -/
  rootDirectory : Bool
  components : List (PathComponent α)
  deriving DecidableEq, Repr

namespace LexicalPath

variable {α : Type*}

/-- A normal form behind the root name: leading `..`, of which there are none behind a root
directory, and names. -/
@[ext] structure Normal (α : Type*) where
  rootDirectory : Bool
  ups : Nat
  names : List α
  deriving DecidableEq, Repr

/-- One more component behind a normal form. -/
def Normal.push (n : Normal α) : PathComponent α → Normal α
  | .current => n
  | .name a => { n with names := n.names ++ [a] }
  | .parent =>
    if n.names = [] then if n.rootDirectory then n else { n with ups := n.ups + 1 }
    else { n with names := n.names.dropLast }

/-- The components behind a normal form. -/
def Normal.follow (n : Normal α) (cs : List (PathComponent α)) : Normal α := cs.foldl Normal.push n

/-- Climb `k` directories. -/
def Normal.climb (n : Normal α) (k : Nat) : Normal α := (fun m => m.push .parent)^[k] n

/-- The normal form of a path. -/
def normalize (p : LexicalPath α) : Normal α := Normal.follow ⟨p.rootDirectory, 0, []⟩ p.components

/-- The components of a relative path behind another. -/
def append (p q : LexicalPath α) : LexicalPath α :=
  { p with components := p.components ++ q.components }

/-- The two paths begin at one root. -/
def SameRoot (p q : LexicalPath α) : Prop :=
  p.rootName = q.rootName ∧ p.rootDirectory = q.rootDirectory

/-- `d` is `p` or one of the directories above it, as `p` names them. -/
def Initial (d p : LexicalPath α) : Prop := d.SameRoot p ∧ d.components <+: p.components

/-- `p` lies under `base`. -/
def Under (base p : LexicalPath α) : Prop :=
  base.SameRoot p ∧ base.normalize.ups = p.normalize.ups ∧
    base.normalize.names <+: p.normalize.names

/-- The path has no root of its own. -/
def Relative (q : LexicalPath α) : Prop := q.rootName = none ∧ q.rootDirectory = false

/-- A relative path that stays where it starts. -/
def Inside (q : LexicalPath α) : Prop := q.Relative ∧ q.normalize.ups = 0

instance [DecidableEq α] (p q : LexicalPath α) : Decidable (p.SameRoot q) :=
  inferInstanceAs (Decidable (_ ∧ _))

instance [DecidableEq α] (q : LexicalPath α) : Decidable q.Relative :=
  inferInstanceAs (Decidable (_ ∧ _))

instance [DecidableEq α] (base p : LexicalPath α) : Decidable (base.Under p) :=
  inferInstanceAs (Decidable (_ ∧ _ ∧ _))

instance [DecidableEq α] (d p : LexicalPath α) : Decidable (d.Initial p) :=
  inferInstanceAs (Decidable (_ ∧ _))

instance [DecidableEq α] (q : LexicalPath α) : Decidable q.Inside :=
  inferInstanceAs (Decidable (_ ∧ _))

@[simp] theorem Normal.follow_nil (n : Normal α) : n.follow [] = n := rfl

/-- Components are followed one after another. -/
theorem Normal.follow_append (n : Normal α) (cs ds : List (PathComponent α)) :
    n.follow (cs ++ ds) = (n.follow cs).follow ds := List.foldl_append

/-- The last component is followed last. -/
theorem Normal.follow_snoc (n : Normal α) (cs : List (PathComponent α)) (c : PathComponent α) :
    n.follow (cs ++ [c]) = (n.follow cs).push c := by
  simp [follow]

@[simp] theorem Normal.rootDirectory_push (n : Normal α) (c : PathComponent α) :
    (n.push c).rootDirectory = n.rootDirectory := by
  unfold push
  split
  · rfl
  · rfl
  · split
    · split <;> rfl
    · rfl

/-- A component takes back none of the leading parents. -/
theorem Normal.ups_le_push (n : Normal α) (c : PathComponent α) : n.ups ≤ (n.push c).ups := by
  unfold push
  split
  · exact le_rfl
  · exact le_rfl
  · split
    · split
      · exact le_rfl
      · exact Nat.le_succ _
    · exact le_rfl

@[simp] theorem Normal.rootDirectory_follow (n : Normal α) (cs : List (PathComponent α)) :
    (n.follow cs).rootDirectory = n.rootDirectory := by
  induction cs using List.reverseRecOn with
  | nil => rfl
  | append_singleton cs c ih => rw [follow_snoc, rootDirectory_push, ih]

/-- No number of components takes back the leading parents. -/
theorem Normal.ups_le_follow (n : Normal α) (cs : List (PathComponent α)) :
    n.ups ≤ (n.follow cs).ups := by
  induction cs using List.reverseRecOn with
  | nil => exact le_rfl
  | append_singleton cs c ih =>
    rw [follow_snoc]
    exact ih.trans (ups_le_push _ _)

/-- Climbing once more. -/
theorem Normal.climb_succ (n : Normal α) (k : Nat) :
    n.climb (k + 1) = (n.climb k).push .parent := Function.iterate_succ_apply' _ _ _

/-- Following components climbs as often as their own normal form does, and then goes
down its names. -/
theorem Normal.follow_eq (n : Normal α) (cs : List (PathComponent α)) :
    n.follow cs = { n.climb (Normal.follow ⟨false, 0, []⟩ cs).ups with
      names := (n.climb (Normal.follow ⟨false, 0, []⟩ cs).ups).names ++
        (Normal.follow ⟨false, 0, []⟩ cs).names } := by
  induction cs using List.reverseRecOn with
  | nil => simp [climb]
  | append_singleton cs c ih =>
    rw [follow_snoc, follow_snoc, ih]
    have hroot : (Normal.follow (⟨false, 0, []⟩ : Normal α) cs).rootDirectory = false := by simp
    generalize Normal.follow (⟨false, 0, []⟩ : Normal α) cs = m at hroot
    cases c with
    | current => rfl
    | name a => simp [push]
    | parent =>
      by_cases hnames : m.names = []
      · simp [push, hnames, hroot, climb_succ]
      · simp [push, hnames, List.dropLast_append_of_ne_nil]

/-- The normal form of a relative path behind another. -/
theorem normalize_append {p q : LexicalPath α} (hq : q.Relative) :
    (p.append q).normalize = { p.normalize.climb q.normalize.ups with
      names := (p.normalize.climb q.normalize.ups).names ++ q.normalize.names } := by
  rw [append, normalize, Normal.follow_append, Normal.follow_eq]
  simp only [normalize, hq.2]

/-- What stays inside stays under the path it is joined to. -/
theorem under_append {base q : LexicalPath α} (hq : q.Inside) : base.Under (base.append q) := by
  have hnormal := normalize_append (p := base) hq.1
  rw [hq.2, Normal.climb, Function.iterate_zero, id] at hnormal
  exact ⟨⟨rfl, rfl⟩, by rw [hnormal], by rw [hnormal]; exact List.prefix_append _ _⟩

/-- A path that stays inside does so from its first component on. -/
theorem Inside.of_initial {d q : LexicalPath α} (h : d.Initial q) (hq : q.Inside) : d.Inside := by
  obtain ⟨⟨hname, hroot⟩, cs, hcs⟩ := h
  refine ⟨⟨hname.trans hq.1.1, hroot.trans hq.1.2⟩, Nat.le_zero.mp ?_⟩
  have hups := hq.2
  rw [normalize, ← hcs, Normal.follow_append] at hups
  rw [← hups, normalize, hroot]
  exact Normal.ups_le_follow _ _

/-- Leading parts of leading parts are leading parts. -/
theorem Initial.trans {d e p : LexicalPath α} (h : d.Initial e) (he : e.Initial p) :
    d.Initial p :=
  ⟨⟨h.1.1.trans he.1.1, h.1.2.trans he.1.2⟩, h.2.trans he.2⟩

/-- The directories above a joined path are those above its left side, and those the
right side goes through. -/
theorem initial_append {d p q : LexicalPath α} (h : d.Initial (p.append q)) :
    d.Initial p ∨ ∃ e, Initial e q ∧ d = p.append e := by
  obtain ⟨hroot, hcomponents⟩ := h
  rcases List.prefix_or_prefix_of_prefix hcomponents (List.prefix_append _ _) with
    hleft | ⟨cs, hcs⟩
  · exact Or.inl ⟨hroot, hleft⟩
  · rw [← hcs, append, List.prefix_append_right_inj] at hcomponents
    refine Or.inr ⟨{ q with components := cs }, ⟨⟨rfl, rfl⟩, hcomponents⟩, ?_⟩
    ext1
    · exact hroot.1
    · exact hroot.2
    · exact hcs.symm

/-- Above a path that stays inside, a directory is one above the path it is joined to, or
lies under that. -/
theorem under_of_initial {base q d : LexicalPath α} (hq : q.Inside)
    (h : d.Initial (base.append q)) : d.Initial base ∨ base.Under d := by
  rcases initial_append h with hleft | ⟨e, he, rfl⟩
  · exact Or.inl hleft
  · exact Or.inr (under_append (Inside.of_initial he hq))

end LexicalPath
