import Mathlib.Data.Nat.Notation
import Mathlib.Tactic.IntervalCases

/-!
# The bytes of a word

A processor that stores a byte replaces eight bits of a word in memory.  `byte w i` reads
byte `i` of `w` and `setByte w i b` replaces it, with a mask and a shift; `byte_setByte` is
the law between them, and `ext_byte` says that a word is determined by its four bytes, from
which `ofBytes` puts it together again.
-/

namespace PmakeOs
namespace Lib

/-- Byte `i` of a word, the least significant first. -/
def byte (w : BitVec 32) (i : ℕ) : BitVec 8 := w.extractLsb' (8 * i) 8

/-- The word with byte `i` replaced. -/
def setByte (w : BitVec 32) (i : ℕ) (b : BitVec 8) : BitVec 32 :=
  w &&& ~~~ (0xFF#32 <<< (8 * i)) ||| b.setWidth 32 <<< (8 * i)

theorem getLsbD_byteMask (n : ℕ) : (0xFF#32).getLsbD n = decide (n < 8) := by
  by_cases hn : n < 32
  · interval_cases n <;> rfl
  · rw [BitVec.getLsbD_of_ge _ _ (by omega), eq_comm, decide_eq_false_iff_not]
    omega

theorem getLsbD_setByte (w : BitVec 32) (b : BitVec 8) {i n : ℕ} (hn : n < 32) :
    (setByte w i b).getLsbD n =
      if 8 * i ≤ n ∧ n < 8 * i + 8 then b.getLsbD (n - 8 * i) else w.getLsbD n := by
  have h32 : n - 8 * i < 32 := by omega
  by_cases hle : 8 * i ≤ n
  · by_cases hlt : n < 8 * i + 8
    · rw [if_pos ⟨hle, hlt⟩]
      simp only [setByte, BitVec.getLsbD_or, BitVec.getLsbD_and, BitVec.getLsbD_not,
        BitVec.getLsbD_shiftLeft, BitVec.getLsbD_setWidth, getLsbD_byteMask, hn, h32,
        show ¬ n < 8 * i by omega, show n - 8 * i < 8 by omega, decide_true, decide_false,
        Bool.not_false, Bool.not_true, Bool.true_and, Bool.and_false, Bool.false_or]
    · have hb : b.getLsbD (n - 8 * i) = false := BitVec.getLsbD_of_ge _ _ (by omega)
      rw [if_neg fun h => hlt h.2]
      simp only [setByte, BitVec.getLsbD_or, BitVec.getLsbD_and, BitVec.getLsbD_not,
        BitVec.getLsbD_shiftLeft, BitVec.getLsbD_setWidth, getLsbD_byteMask, hn, hb,
        show ¬ n < 8 * i by omega, show ¬ n - 8 * i < 8 by omega, decide_true, decide_false,
        Bool.not_false, Bool.and_true, Bool.and_false, Bool.or_false]
  · rw [if_neg fun h => hle h.1]
    simp only [setByte, BitVec.getLsbD_or, BitVec.getLsbD_and, BitVec.getLsbD_not,
      BitVec.getLsbD_shiftLeft, hn, show n < 8 * i by omega, decide_true, Bool.not_true,
      Bool.and_false, Bool.false_and, Bool.not_false, Bool.and_true, Bool.or_false]

theorem byte_setByte (w : BitVec 32) (b : BitVec 8) {i j : ℕ} (hj : j < 4) :
    byte (setByte w i b) j = if j = i then b else byte w j := by
  apply BitVec.eq_of_getLsbD_eq
  intro k hk
  rw [byte, BitVec.getLsbD_extractLsb', decide_eq_true hk, Bool.true_and,
    getLsbD_setByte w b (by omega)]
  by_cases h : j = i
  · rw [if_pos (by omega), if_pos h, show 8 * j + k - 8 * i = k by omega]
  · rw [if_neg (by omega), if_neg h, byte, BitVec.getLsbD_extractLsb', decide_eq_true hk,
      Bool.true_and]

/-- A word is its bytes. -/
theorem ext_byte {v w : BitVec 32} (h : ∀ i < 4, byte v i = byte w i) : v = w := by
  apply BitVec.eq_of_getLsbD_eq
  intro n hn
  have hb := congrArg (fun b => b.getLsbD (n % 8)) (h (n / 8) (by omega))
  simp only [byte, BitVec.getLsbD_extractLsb', show n % 8 < 8 by omega, decide_true, Bool.true_and,
    show 8 * (n / 8) + n % 8 = n by omega] at hb
  exact hb

/-- The word with the given bytes. -/
def ofBytes (b : ℕ → BitVec 8) : BitVec 32 :=
  setByte (setByte (setByte (setByte 0#32 0 (b 0)) 1 (b 1)) 2 (b 2)) 3 (b 3)

theorem ofBytes_eq {b : ℕ → BitVec 8} {w : BitVec 32} (h : ∀ i < 4, b i = byte w i) :
    ofBytes b = w := by
  refine ext_byte fun i hi => ?_
  rw [← h i hi, ofBytes, byte_setByte _ _ hi, byte_setByte _ _ hi, byte_setByte _ _ hi,
    byte_setByte _ _ hi]
  split_ifs with h3 h2 h1 h0
  · rw [h3]
  · rw [h2]
  · rw [h1]
  · rw [h0]
  · omega

end Lib
end PmakeOs
