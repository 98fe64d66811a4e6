import Mathlib.Data.Nat.Digits.Lemmas

/-!
# Numerals

The digits of a number from the most significant on, as they are written: `Nat.digits` the
other way round, except that zero has one digit.
-/

namespace PmakeOs.Lib

/-- The digits of `n` in base `b`, the most significant first. -/
def numeral (b n : ℕ) : List ℕ := if n = 0 then [0] else (Nat.digits b n).reverse

variable {b n : ℕ}

theorem numeral_of_lt (h : n < b) : numeral b n = [n] := by
  unfold numeral
  split
  · rename_i hz
    rw [hz]
  · rename_i hz
    rw [Nat.digits_of_lt b n hz h]
    rfl

theorem numeral_of_le (hb : 1 < b) (h : b ≤ n) :
    numeral b n = numeral b (n / b) ++ [n % b] := by
  have hn : n ≠ 0 := by omega
  have hq : n / b ≠ 0 := (Nat.div_pos h (by omega)).ne'
  rw [numeral, if_neg hn, numeral, if_neg hq, Nat.digits_def' hb (Nat.pos_of_ne_zero hn),
    List.reverse_cons]

theorem lt_of_mem_numeral (hb : 1 < b) {d : ℕ} (h : d ∈ numeral b n) : d < b := by
  unfold numeral at h
  split at h
  · rw [List.mem_singleton.mp h]
    omega
  · exact Nat.digits_lt_base hb (List.mem_reverse.mp h)

theorem length_numeral_le (hb : 1 < b) {k : ℕ} (hk : 0 < k) (h : n < b ^ k) :
    (numeral b n).length ≤ k := by
  unfold numeral
  split
  · exact hk
  · rw [List.length_reverse]
    exact (Nat.digits_length_le_iff hb n).mpr h

theorem length_numeral_pos (b n : ℕ) : 0 < (numeral b n).length := by
  unfold numeral
  split
  · exact Nat.zero_lt_one
  · rename_i hn
    rw [List.length_reverse, List.length_pos_iff]
    exact Nat.digits_ne_nil_iff_ne_zero.mpr hn

/-- A numeral begins with a zero only if it is that of zero. -/
theorem numeral_eq_cons (hn : n ≠ 0) : ∃ d l, numeral b n = d :: l ∧ 0 < d := by
  have hne : Nat.digits b n ≠ [] := Nat.digits_ne_nil_iff_ne_zero.mpr hn
  refine ⟨(Nat.digits b n).getLast hne, (Nat.digits b n).dropLast.reverse, ?_, ?_⟩
  · rw [numeral, if_neg hn]
    conv_lhs => rw [← List.dropLast_append_getLast hne]
    rw [List.reverse_append]
    rfl
  · exact Nat.pos_of_ne_zero (Nat.getLast_digit_ne_zero b hn)

/-- **Reading a numeral gives the number back.** -/
theorem foldl_numeral (hb : 1 < b) (n : ℕ) :
    (numeral b n).foldl (fun v d => v * b + d) 0 = n := by
  induction n using Nat.strong_induction_on with
  | _ n ih =>
    rcases Nat.lt_or_ge n b with h | h
    · rw [numeral_of_lt h, List.foldl_cons, List.foldl_nil, Nat.zero_mul, Nat.zero_add]
    · rw [numeral_of_le hb h, List.foldl_append, ih _ (Nat.div_lt_self (by omega) hb)]
      exact Nat.div_add_mod' n b

end PmakeOs.Lib
