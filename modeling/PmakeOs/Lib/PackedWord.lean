import Mathlib.Data.Nat.Bitwise

/-!
# Words that pack a number above a field of flags

A word `w` whose low `k` bits are flags and whose upper bits are a number is
read back with a shift and with single-bit tests.  Words of this kind are built
with bitwise or, so what has to be known is how or acts on both parts:

* `toNat_or_div` --- the number part of an or is the or of the number parts, so
  it is unchanged when the other operand is below `2 ^ k`
  (`toNat_or_div_of_lt`);
* `and_twoPow_of_ne_zero` --- a one-bit mask leaves nothing or that bit;
* `toNat_and_mask` --- masking with `2 ^ k - 1` keeps the flags, and masking
  with the complement (`toNat_and_not_mask_div`) keeps the number.
-/

namespace PmakeOs
namespace Lib

variable {n : ℕ}

/-- The number part of an or. -/
theorem toNat_or_div (a b : BitVec n) (k : ℕ) :
    (a ||| b).toNat / 2 ^ k = a.toNat / 2 ^ k ||| b.toNat / 2 ^ k := by
  rw [BitVec.toNat_or, Nat.or_div_two_pow]

/-- An operand below the number part leaves the number alone. -/
theorem toNat_or_div_of_lt (a : BitVec n) {b : BitVec n} {k : ℕ} (hb : b.toNat < 2 ^ k) :
    (a ||| b).toNat / 2 ^ k = a.toNat / 2 ^ k := by
  rw [toNat_or_div, Nat.div_eq_of_lt hb, Nat.or_zero]

/-- What a one-bit mask leaves is nothing or that bit. -/
theorem and_twoPow_of_ne_zero {a : BitVec n} {i : ℕ} (h : a &&& BitVec.twoPow n i ≠ 0#n) :
    a &&& BitVec.twoPow n i = BitVec.twoPow n i := by
  rw [BitVec.and_twoPow] at h ⊢
  split_ifs at h ⊢ with hbit
  · rfl
  · exact absurd rfl h

/-- The flags, as a number. -/
theorem toNat_and_mask (a : BitVec n) {k : ℕ} (hk : k ≤ n) :
    (a &&& BitVec.ofNat n (2 ^ k - 1)).toNat = a.toNat % 2 ^ k := by
  have hlt : 2 ^ k - 1 < 2 ^ n := by
    have h1 : 2 ^ k ≤ 2 ^ n := Nat.pow_le_pow_right (by omega) hk
    have h2 : 0 < 2 ^ k := Nat.two_pow_pos k
    omega
  rw [BitVec.toNat_and, BitVec.toNat_ofNat, Nat.mod_eq_of_lt hlt, Nat.and_two_pow_sub_one_eq_mod]

/-- Clearing the flags leaves the number. -/
theorem toNat_and_not_mask_div (a : BitVec n) (k : ℕ) :
    (a &&& ~~~ BitVec.ofNat n (2 ^ k - 1)).toNat / 2 ^ k = a.toNat / 2 ^ k := by
  apply Nat.eq_of_testBit_eq
  intro i
  rw [Nat.testBit_div_two_pow, Nat.testBit_div_two_pow, BitVec.testBit_toNat,
    BitVec.testBit_toNat, BitVec.getLsbD_and, BitVec.getLsbD_not, BitVec.getLsbD_ofNat,
    Nat.testBit_two_pow_sub_one]
  by_cases h : i + k < n
  · simp [h]
  · rw [BitVec.getLsbD_of_ge _ _ (Nat.le_of_not_lt h)]
    simp

end Lib
end PmakeOs
