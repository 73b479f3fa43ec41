import Mathlib.Data.List.Induction
import Mathlib.Tactic.Common
import Mathlib.Tactic.Ring

/-!
# Big-endian numerals

A natural number is written as a fixed number of base-256 digits, most
significant first, and read back from any list of bytes. Writing then reading is
reduction modulo the capacity; reading then writing loses no byte.
-/

namespace ByteOrder

/-- The last `k` base-256 digits of `n`, most significant first. -/
def toBigEndian : Nat → Nat → List UInt8
  | 0, _ => []
  | k + 1, n => UInt8.ofNat (n / 256 ^ k) :: toBigEndian k n

/-- The number written by a list of base-256 digits, most significant first. -/
def ofBigEndian : List UInt8 → Nat
  | [] => 0
  | b :: bs => b.toNat * 256 ^ bs.length + ofBigEndian bs

@[simp] theorem length_toBigEndian (k n : Nat) : (toBigEndian k n).length = k := by
  induction k with
  | zero => rfl
  | succ k ih => rw [toBigEndian, List.length_cons, ih]

/-- A list of digits stays below the capacity of its length. -/
theorem ofBigEndian_lt (bs : List UInt8) : ofBigEndian bs < 256 ^ bs.length := by
  induction bs with
  | nil => exact Nat.one_pos
  | cons b bs ih =>
    have hb : b.toNat + 1 ≤ 256 := b.toNat_lt
    calc ofBigEndian (b :: bs)
        < b.toNat * 256 ^ bs.length + 256 ^ bs.length := Nat.add_lt_add_left ih _
      _ = (b.toNat + 1) * 256 ^ bs.length := (Nat.succ_mul _ _).symm
      _ ≤ 256 * 256 ^ bs.length := Nat.mul_le_mul_right _ hb
      _ = 256 ^ (b :: bs).length := by rw [List.length_cons, pow_succ, Nat.mul_comm]

/-- Reading back a written number reduces it modulo the capacity. -/
theorem ofBigEndian_toBigEndian (k n : Nat) : ofBigEndian (toBigEndian k n) = n % 256 ^ k := by
  induction k with
  | zero => rw [toBigEndian, ofBigEndian, pow_zero, Nat.mod_one]
  | succ k ih =>
    have hmod : n % 256 ^ (k + 1) = n % 256 ^ k + 256 ^ k * (n / 256 ^ k % 256) := by
      rw [pow_succ, Nat.mod_mul]
    rw [toBigEndian, ofBigEndian, length_toBigEndian, ih, hmod, Nat.add_comm, Nat.mul_comm]
    rfl

/-- Digits beyond the width do not change what is written. -/
theorem toBigEndian_add_mul (k n m : Nat) :
    toBigEndian k (n + m * 256 ^ k) = toBigEndian k n := by
  induction k generalizing m with
  | zero => rfl
  | succ k ih =>
    have hm : n + m * 256 ^ (k + 1) = n + m * 256 * 256 ^ k := by ring
    rw [hm, toBigEndian, toBigEndian, ih, Nat.add_mul_div_right _ _ (Nat.pow_pos (by decide))]
    congr 1
    apply UInt8.toNat_inj.mp
    rw [UInt8.toNat_ofNat', UInt8.toNat_ofNat', Nat.add_mul_mod_self_right]

/-- Writing back a number read from bytes recovers every byte. -/
theorem toBigEndian_ofBigEndian (bs : List UInt8) :
    toBigEndian bs.length (ofBigEndian bs) = bs := by
  induction bs with
  | nil => rfl
  | cons b bs ih =>
    have hdiv : (b.toNat * 256 ^ bs.length + ofBigEndian bs) / 256 ^ bs.length = b.toNat := by
      rw [Nat.add_comm, Nat.add_mul_div_right _ _ (Nat.pow_pos (by decide)),
        Nat.div_eq_of_lt (ofBigEndian_lt bs), Nat.zero_add]
    rw [List.length_cons, ofBigEndian, toBigEndian, hdiv, Nat.add_comm (b.toNat * _),
      toBigEndian_add_mul, ih, UInt8.ofNat_toNat]

end ByteOrder
