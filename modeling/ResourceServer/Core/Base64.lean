import Mathlib.Tactic.Common

/-!
# Base64

The decoding of a base64 text without line breaks: groups of four characters of
the standard alphabet, the last one padded with `=` where it holds fewer than
three bytes.
-/

namespace Base64

/-- The character `=`. -/
def pad : UInt8 := 61

/-- The six bits a character of the alphabet stands for. -/
def digit (c : UInt8) : Option Nat :=
  if 65 ≤ c ∧ c ≤ 90 then some (c.toNat - 65)
  else if 97 ≤ c ∧ c ≤ 122 then some (c.toNat - 71)
  else if 48 ≤ c ∧ c ≤ 57 then some (c.toNat + 4)
  else if c = 43 then some 62
  else if c = 47 then some 63
  else none

/-- The bytes of a last group, which may be padded. -/
def lastGroup (a b c d : UInt8) : Option (List UInt8) := do
  let a ← digit a
  let b ← digit b
  let first := UInt8.ofNat (a * 4 + b / 16)
  if c = pad then
    if d = pad then return [first] else none
  else
    let c ← digit c
    let second := UInt8.ofNat (b * 16 + c / 4)
    if d = pad then return [first, second]
    else
      let d ← digit d
      return [first, second, UInt8.ofNat (c * 64 + d)]

/-- The bytes of a group that others follow, and which is not padded. -/
def group (a b c d : UInt8) : Option (List UInt8) :=
  if c = pad ∨ d = pad then none else lastGroup a b c d

/-- The bytes a text encodes, if it is a base64 text. -/
def decode : List UInt8 → Option (List UInt8)
  | [] => some []
  | [a, b, c, d] => lastGroup a b c d
  | a :: b :: c :: d :: rest => do
    let bytes ← group a b c d
    let more ← decode rest
    return bytes ++ more
  | _ => none

example : decode [97, 71, 107, 61] = some [104, 105] := by decide

/-- No character of a group is zero. -/
theorem ne_zero_of_lastGroup {a b c d : UInt8} {bytes : List UInt8}
    (h : lastGroup a b c d = some bytes) : a ≠ 0 ∧ b ≠ 0 ∧ c ≠ 0 ∧ d ≠ 0 := by
  have hdigit : digit 0 = none := by decide
  refine ⟨?_, ?_, ?_, ?_⟩
  · rintro rfl
    simp [lastGroup, hdigit] at h
  · rintro rfl
    simp [lastGroup, hdigit] at h
  · rintro rfl
    have hpad : ¬(0 : UInt8) = pad := by decide
    simp [lastGroup, hdigit, hpad] at h
  · rintro rfl
    have hpad : ¬(0 : UInt8) = pad := by decide
    simp [lastGroup, hdigit, hpad] at h

/-- A base64 text contains no zero byte. -/
theorem zero_notMem {text bytes : List UInt8} (h : decode text = some bytes) :
    (0 : UInt8) ∉ text := by
  fun_induction decode text generalizing bytes with
  | case1 => exact List.not_mem_nil
  | case2 a b c d =>
    obtain ⟨ha, hb, hc, hd⟩ := ne_zero_of_lastGroup h
    simp [ha.symm, hb.symm, hc.symm, hd.symm]
  | case3 a b c d rest hrest ih =>
    obtain ⟨first, hgroup, h⟩ := Option.bind_eq_some_iff.mp h
    obtain ⟨more, hmore, _⟩ := Option.bind_eq_some_iff.mp h
    unfold group at hgroup
    split at hgroup
    · contradiction
    · obtain ⟨ha, hb, hc, hd⟩ := ne_zero_of_lastGroup hgroup
      simp [ha.symm, hb.symm, hc.symm, hd.symm, ih hmore]
  | case4 => contradiction

end Base64
