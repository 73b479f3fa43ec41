import Mathlib.Data.List.TakeWhile
import Mathlib.Tactic.Common

/-!
# Blocks of memory

A block is the list of its cells. Copying into a block never changes its length:
cells that would fall outside the block are not part of it. A zero-terminated
string is read up to the first zero cell.
-/

namespace Memory

variable {β : Type*}

/-- A block of `n` cells holding whatever `fresh` says. -/
def alloc (fresh : Nat → β) (n : Nat) : List β := (List.range n).map fresh

/-- Copy `src` over the cells of `dst` from index `off` on. -/
def copy (dst : List β) (off : Nat) (src : List β) : List β :=
  (dst.take off ++ src ++ dst.drop (off + src.length)).take dst.length

@[simp] theorem length_alloc (fresh : Nat → β) (n : Nat) : (alloc fresh n).length = n := by
  rw [alloc, List.length_map, List.length_range]

@[simp] theorem length_copy (dst : List β) (off : Nat) (src : List β) :
    (copy dst off src).length = dst.length := by
  simp only [copy, List.length_take, List.length_append, List.length_drop]
  omega

/-- A copy that stays inside the block replaces exactly its own cells. -/
theorem copy_eq {dst : List β} {off : Nat} {src : List β} (h : off + src.length ≤ dst.length) :
    copy dst off src = dst.take off ++ src ++ dst.drop (off + src.length) := by
  apply List.take_of_length_le
  simp only [List.length_append, List.length_take, List.length_drop]
  omega

/-- After a copy inside the block, its cells up to the end of the copy are the
old cells before it followed by the copied ones. -/
theorem take_copy (dst : List β) (off : Nat) (src : List β)
    (h : off + src.length ≤ dst.length) :
    (copy dst off src).take (off + src.length) = dst.take off ++ src := by
  rw [copy_eq h]
  apply List.take_left'
  rw [List.length_append, List.length_take, Nat.min_eq_left (by omega)]

/-- Cells behind a copy inside the block are untouched. -/
theorem getElem?_copy_of_le {dst : List β} {off i : Nat} {src : List β}
    (h : off + src.length ≤ dst.length) (hi : off + src.length ≤ i) :
    (copy dst off src)[i]? = dst[i]? := by
  have hl : (dst.take off ++ src).length = off + src.length := by
    rw [List.length_append, List.length_take, Nat.min_eq_left (by omega)]
  rw [copy_eq h, List.getElem?_append_right (by rw [hl]; exact hi), hl, List.getElem?_drop]
  congr 1
  omega

/-- The zero-terminated string at the start of a block. -/
def cString [BEq β] (zero : β) (block : List β) : List β := block.takeWhile (· != zero)

/-- Cells behind a terminator are no part of the string. -/
theorem cString_append_terminator [BEq β] [LawfulBEq β] (zero : β) (text rest : List β) :
    cString zero (text ++ zero :: rest) = cString zero text := by
  induction text with
  | nil => simp [cString]
  | cons b text ih =>
    by_cases hb : b = zero
    · simp [cString, hb]
    · have hne : (b != zero) = true := by simpa using hb
      simp only [cString, List.cons_append, List.takeWhile_cons, hne, ite_true] at ih ⊢
      rw [ih]

/-- A text is its own string exactly when it has no zero. -/
theorem cString_eq_self_iff [BEq β] [LawfulBEq β] {zero : β} {text : List β} :
    cString zero text = text ↔ zero ∉ text := by
  rw [cString, List.takeWhile_eq_self_iff]
  constructor
  · intro h hmem
    have hne := h zero hmem
    rw [bne_self_eq_false] at hne
    contradiction
  · intro h b hb
    have hne : b ≠ zero := fun he => h (he ▸ hb)
    simpa using hne

/-- A text without a zero is its own string. -/
theorem cString_eq_self [BEq β] [LawfulBEq β] {zero : β} {text : List β} (h : zero ∉ text) :
    cString zero text = text :=
  cString_eq_self_iff.mpr h

end Memory
