import Mathlib.Logic.Function.Basic
import Mathlib.Tactic.Common

/-!
# Reference counts

The control blocks of shared objects: a count for each, raised by a copy of a
reference and lowered when one goes, and the destructor that runs with the last.
Over them stands the account of the references that are there. The counts are exact
as long as every copy is made of a reference and every reference goes once.
-/

/-- The control blocks of a family of objects. -/
structure RefCount (ι : Type*) where
  /-- The objects that have been constructed. -/
  made : ι → Bool
  useCount : ι → Nat
  /-- How often the destructor of each has run. -/
  destructed : ι → Nat

namespace RefCount

variable {ι : Type*}

/-- No object is constructed. -/
def init : RefCount ι := ⟨fun _ => false, fun _ => 0, fun _ => 0⟩

/-- The counts are those of the references that are there, and an object is destroyed
once it has none any more. -/
structure Exact (c : RefCount ι) (held : ι → Nat) : Prop where
  useCount : ∀ i, c.useCount i = held i
  made : ∀ i, 0 < held i → c.made i = true
  destructed : ∀ i, c.destructed i = if c.made i = true ∧ held i = 0 then 1 else 0

/-- Nothing is held before anything is made. -/
theorem exact_init : Exact (init : RefCount ι) fun _ => 0 where
  useCount _ := rfl
  made _ h := absurd h (Nat.lt_irrefl 0)
  destructed _ := by simp [init]

section

variable {c : RefCount ι} {held held' : ι → Nat}

/-- References may change hands. -/
theorem Exact.congr (h : Exact c held) (heq : ∀ j, held' j = held j) : Exact c held' := by
  rwa [funext heq]

/-- What is referred to has not been destroyed. -/
theorem Exact.alive (h : Exact c held) {i : ι} (hi : 0 < held i) :
    0 < c.useCount i ∧ c.destructed i = 0 := by
  rw [h.useCount, h.destructed, if_neg fun hnone => Nat.ne_of_gt hi hnone.2]
  exact ⟨hi, rfl⟩

/-- What has been constructed and is not referred to has been destroyed. -/
theorem Exact.destructed_eq_one_iff (h : Exact c held) {i : ι} (hi : c.made i = true) :
    c.destructed i = 1 ↔ held i = 0 := by
  rw [h.destructed]
  constructor
  · intro hone
    by_contra hne
    rw [if_neg fun hnone => hne hnone.2] at hone
    contradiction
  · exact fun hnone => if_pos ⟨hi, hnone⟩

/-- No destructor runs twice. -/
theorem Exact.destructed_le_one (h : Exact c held) (i : ι) : c.destructed i ≤ 1 := by
  rw [h.destructed]
  split <;> decide

end

variable [DecidableEq ι]

/-- An object is constructed, with one reference to it. -/
def make (i : ι) (c : RefCount ι) : RefCount ι :=
  { c with made := Function.update c.made i true, useCount := Function.update c.useCount i 1 }

/-- A reference is copied. -/
def copy (i : ι) (c : RefCount ι) : RefCount ι :=
  { c with useCount := Function.update c.useCount i (c.useCount i + 1) }

/-- A reference goes, and with the last one the object. -/
def drop (i : ι) (c : RefCount ι) : RefCount ι :=
  { c with
    useCount := Function.update c.useCount i (c.useCount i - 1)
    destructed := if c.useCount i = 1 then
      Function.update c.destructed i (c.destructed i + 1) else c.destructed }

@[simp] theorem made_copy (i j : ι) (c : RefCount ι) : (c.copy i).made j = c.made j := rfl

@[simp] theorem made_drop (i j : ι) (c : RefCount ι) : (c.drop i).made j = c.made j := rfl

@[simp] theorem destructed_make (i j : ι) (c : RefCount ι) :
    (c.make i).destructed j = c.destructed j := rfl

@[simp] theorem destructed_copy (i j : ι) (c : RefCount ι) :
    (c.copy i).destructed j = c.destructed j := rfl

/-- What is made once one more object is. -/
theorem made_make (i j : ι) (c : RefCount ι) :
    (c.make i).made j = if j = i then true else c.made j := Function.update_apply ..

/-- The count of a new object is one. -/
theorem useCount_make (i j : ι) (c : RefCount ι) :
    (c.make i).useCount j = if j = i then 1 else c.useCount j := Function.update_apply ..

/-- A copy raises the count of its own object by one. -/
theorem useCount_copy (i j : ι) (c : RefCount ι) :
    (c.copy i).useCount j = c.useCount j + if j = i then 1 else 0 := by
  change Function.update c.useCount i (c.useCount i + 1) j = _
  rw [Function.update_apply]
  split
  · rename_i hj
    rw [hj]
  · rfl

/-- A dropped reference lowers the count of its own object by one. -/
theorem useCount_drop (i j : ι) (c : RefCount ι) :
    (c.drop i).useCount j = c.useCount j - if j = i then 1 else 0 := by
  change Function.update c.useCount i (c.useCount i - 1) j = _
  rw [Function.update_apply]
  split
  · rename_i hj
    rw [hj]
  · rfl

/-- The destructor runs when the last reference is dropped. -/
theorem destructed_drop (i j : ι) (c : RefCount ι) : (c.drop i).destructed j =
    c.destructed j + if j = i ∧ c.useCount i = 1 then 1 else 0 := by
  rw [drop]
  by_cases hlast : c.useCount i = 1
  · by_cases hj : j = i
    · subst hj
      simp [hlast]
    · simp [hlast, hj]
  · simp [hlast]

variable {c : RefCount ι} {held held' : ι → Nat}

/-- A new object has the reference it is constructed with. -/
theorem Exact.make (h : Exact c held) {i : ι} (hi : c.made i = false)
    (heq : ∀ j, held' j = held j + if j = i then 1 else 0) : Exact (c.make i) held' := by
  have hnone : held i = 0 := by
    by_contra hne
    rw [h.made i (Nat.pos_of_ne_zero hne)] at hi
    contradiction
  constructor <;> intro j <;> by_cases hj : j = i
  · rw [useCount_make, if_pos hj, heq, if_pos hj, hj, hnone]
  · rw [useCount_make, if_neg hj, heq, if_neg hj]
    exact h.useCount j
  · exact fun _ => by rw [made_make, if_pos hj]
  · rw [heq, if_neg hj, made_make, if_neg hj]
    exact h.made j
  · rw [destructed_make, h.destructed, heq, hj, hi]
    simp
  · rw [destructed_make, made_make, if_neg hj, heq, if_neg hj]
    exact h.destructed j

/-- A reference is copied from one that is there. -/
theorem Exact.copy (h : Exact c held) {i : ι} (hi : 0 < held i)
    (heq : ∀ j, held' j = held j + if j = i then 1 else 0) : Exact (c.copy i) held' := by
  refine ⟨fun j => ?_, fun j => ?_, fun j => ?_⟩
  · rw [useCount_copy, h.useCount, heq]
  · rw [made_copy, heq]
    by_cases hj : j = i
    · exact fun _ => h.made j (hj ▸ hi)
    · rw [if_neg hj]
      exact h.made j
  · rw [destructed_copy, made_copy, heq]
    by_cases hj : j = i
    · rw [hj, (h.alive hi).2, if_neg fun hnone => ?_]
      have hzero := hnone.2
      omega
    · rw [if_neg hj]
      exact h.destructed j

/-- A reference that is there goes. -/
theorem Exact.drop (h : Exact c held) {i : ι}
    (heq : ∀ j, held j = held' j + if j = i then 1 else 0) : Exact (c.drop i) held' := by
  have hi : held i = held' i + 1 := by rw [heq, if_pos rfl]
  have hpos : 0 < held i := by omega
  refine ⟨fun j => ?_, fun j hj => ?_, fun j => ?_⟩
  · rw [useCount_drop, h.useCount, heq, Nat.add_sub_cancel]
  · exact h.made j (by rw [heq]; omega)
  · rw [destructed_drop, made_drop, h.useCount, hi]
    by_cases hj : j = i
    · rw [hj, (h.alive hpos).2, h.made i hpos]
      simp
    · rw [if_neg fun hlast => hj hlast.1, h.destructed, heq, if_neg hj]
      rfl

end RefCount
