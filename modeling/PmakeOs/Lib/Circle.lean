import Mathlib.Data.Nat.ModEq
import Mathlib.Tactic.ByContra
import Mathlib.Tactic.SplitIfs

/-!
# Going round a circle of slots

`n` slots `0, …, n - 1` on a circle.  `ahead n a b` is the number of steps from slot `a`
on to slot `b`, and `next n a` the slot after `a`.  A search that tries every slot once,
starting from `a`, finds the slot with the fewest steps ahead, and a sequence of slots
that never passes a fixed slot `x` comes closer to `x` at every move.
-/

namespace PmakeOs.Lib

variable {n a b i : ℕ}

/-- The slot after `a`. -/
def next (n a : ℕ) : ℕ := (a + 1) % n

/-- The steps from slot `a` on to slot `b`. -/
def ahead (n a b : ℕ) : ℕ := if a ≤ b then b - a else b + n - a

theorem next_lt (ha : a < n) : next n a < n := Nat.mod_lt _ (by omega)

theorem next_eq (ha : a < n) : next n a = if a + 1 = n then 0 else a + 1 := by
  unfold next
  split
  · rename_i h
    rw [h, Nat.mod_self]
  · exact Nat.mod_eq_of_lt (by omega)

theorem ahead_lt (ha : a < n) (hb : b < n) : ahead n a b < n := by
  unfold ahead
  split <;> omega

theorem add_mod_eq (ha : a < n) (hi : i < n) :
    (a + i) % n = if a + i < n then a + i else a + i - n := by
  split
  · exact Nat.mod_eq_of_lt ‹_›
  · rw [Nat.mod_eq_sub_mod (by omega), Nat.mod_eq_of_lt (by omega)]

theorem ahead_add_mod (ha : a < n) (hi : i < n) : ahead n a ((a + i) % n) = i := by
  rw [add_mod_eq ha hi, ahead]
  split <;> split <;> omega

theorem add_ahead_mod (ha : a < n) (hb : b < n) : (a + ahead n a b) % n = b := by
  rw [add_mod_eq ha (ahead_lt ha hb), ahead]
  split <;> split <;> omega

/-! ## The search -/

/-- The slots from `a` on, all the way round. -/
def turn (n a : ℕ) : List ℕ := (List.range n).map fun i => (a + i) % n

theorem mem_turn (ha : a < n) : b ∈ turn n a ↔ b < n := by
  rw [turn, List.mem_map]
  constructor
  · rintro ⟨i, -, rfl⟩
    exact Nat.mod_lt _ (by omega)
  · exact fun hb => ⟨ahead n a b, List.mem_range.mpr (ahead_lt ha hb), add_ahead_mod ha hb⟩

/-- It makes no difference whether the search starts at `n` or at `0`. -/
theorem turn_mod (n a : ℕ) : turn n (a % n) = turn n a := by
  refine List.map_congr_left fun i _ => ?_
  rw [Nat.mod_add_mod]

theorem find?_turn_eq_none (ha : a < n) {p : ℕ → Bool} :
    (turn n a).find? p = none ↔ ∀ k < n, p k = false := by
  rw [List.find?_eq_none]
  constructor
  · intro h k hk
    exact Bool.eq_false_iff.mpr (h k ((mem_turn ha).mpr hk))
  · intro h k hk
    rw [h k ((mem_turn ha).mp hk)]
    exact Bool.false_ne_true

/-- **The search finds the nearest slot ahead.** -/
theorem find?_turn_eq_some (ha : a < n) {p : ℕ → Bool} (h : (turn n a).find? p = some b) :
    b < n ∧ p b = true ∧ ∀ k < n, p k = true → ahead n a b ≤ ahead n a k := by
  refine ⟨(mem_turn ha).mp (List.mem_of_find?_eq_some h), List.find?_some h, fun k hk hpk => ?_⟩
  by_contra hlt
  rw [List.find?_eq_some_iff_getElem] at h
  obtain ⟨-, i, hi, hib, hbefore⟩ := h
  have hin : i < n := by simpa [turn] using hi
  have hbi : (a + i) % n = b := by simpa [turn] using hib
  have hai : ahead n a b = i := by rw [← hbi, ahead_add_mod ha hin]
  have hki := hbefore (ahead n a k) (by omega)
  simp only [turn, List.getElem_map, List.getElem_range, add_ahead_mod ha hk, hpk] at hki
  cases hki

/-! ## Coming closer -/

/-- **A move to a slot that is not past `x`, nor `x` itself, shortens the way to `x`.** -/
theorem ahead_next_lt {c e x : ℕ} (hc : c < n) (he : e < n) (hx : x < n)
    (hle : ahead n (next n c) e ≤ ahead n (next n c) x) (hne : e ≠ x) :
    ahead n (next n e) x < ahead n (next n c) x := by
  generalize hs : next n c = s at hle ⊢
  have hsn : s < n := hs ▸ next_lt hc
  rw [next_eq he]
  unfold ahead at *
  split_ifs at * <;> omega

end PmakeOs.Lib
