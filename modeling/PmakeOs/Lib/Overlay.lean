import Mathlib.Data.Nat.Notation
import Mathlib.Tactic.Common

/-!
# Memory that is written over in turn

Writer `k` stores `w k a` at address `a`, or nothing if that is `none`.  `overlays m w n` is the
memory after writers `0`, ..., `n - 1`.  An address has what its last writer stored
(`overlays_of_last`), and an address that was written has a last writer (`exists_last`).
-/

namespace PmakeOs.Lib

variable {α β : Type*} {m : α → β} {w : ℕ → α → Option β} {lo n k : ℕ} {a : α} {b : β}

/-- The memory after the writers below `n`. -/
def overlays (m : α → β) (w : ℕ → α → Option β) : ℕ → α → β
  | 0 => m
  | n + 1 => fun a => (w n a).getD (overlays m w n a)

theorem overlays_succ_of_some (h : w n a = some b) : overlays m w (n + 1) a = b := by
  show (w n a).getD (overlays m w n a) = b
  rw [h, Option.getD_some]

theorem overlays_succ_of_none (h : w n a = none) :
    overlays m w (n + 1) a = overlays m w n a := by
  show (w n a).getD (overlays m w n a) = _
  rw [h, Option.getD_none]

/-- Writers that leave an address alone. -/
theorem overlays_of_none (hlo : lo ≤ n) (h : ∀ k, lo ≤ k → k < n → w k a = none) :
    overlays m w n a = overlays m w lo a := by
  induction n with
  | zero =>
    obtain rfl : lo = 0 := Nat.le_zero.mp hlo
    rfl
  | succ n ih =>
    rcases Nat.eq_or_lt_of_le hlo with rfl | hlt
    · rfl
    · rw [overlays_succ_of_none (h n (Nat.le_of_lt_succ hlt) (Nat.lt_succ_self n)),
        ih (Nat.le_of_lt_succ hlt) fun k hk hk' => h k hk (Nat.lt_succ_of_lt hk')]

/-- **The last writer decides.** -/
theorem overlays_of_last (hk : k < n) (hw : w k a = some b)
    (hlast : ∀ k', k < k' → k' < n → w k' a = none) : overlays m w n a = b := by
  have hrest : overlays m w n a = overlays m w (k + 1) a :=
    overlays_of_none hk fun k' hk' => hlast k' hk'
  rw [hrest, overlays_succ_of_some hw]

/-- An address that writer `k` has written has a last writer. -/
theorem exists_last (hk : k < n) (hw : w k a ≠ none) :
    ∃ l, k ≤ l ∧ l < n ∧ w l a ≠ none ∧ ∀ k', l < k' → k' < n → w k' a = none := by
  induction n with
  | zero => omega
  | succ n ih =>
    by_cases hn : w n a = none
    · have hkn : k < n := by
        rcases Nat.eq_or_lt_of_le (Nat.le_of_lt_succ hk) with rfl | hlt
        · exact absurd hn hw
        · exact hlt
      obtain ⟨l, hkl, hln, hl, hlast⟩ := ih hkn
      refine ⟨l, hkl, Nat.lt_succ_of_lt hln, hl, fun k' hk' hk'' => ?_⟩
      rcases Nat.eq_or_lt_of_le (Nat.le_of_lt_succ hk'') with rfl | hlt
      · exact hn
      · exact hlast k' hk' hlt
    · exact ⟨n, Nat.le_of_lt_succ hk, Nat.lt_succ_self n, hn, fun k' hk' hk'' => by omega⟩

end PmakeOs.Lib
