import Mathlib.Data.Nat.Nth
import Mathlib.Data.Nat.PrimeFin
import Mathlib.Data.List.Sort

/-!
# The sieve of Eratosthenes as a chain of filters

A filter takes the first number of a stream for its own and passes on those of the others that
its number does not divide.  The numbers from 2 on are fed to a chain of such filters.

* `mem_sieved` --- what comes to filter `k` are the numbers without a factor among the first `k`
  primes.
* `eq_nth_of_sieved` --- the number that filter `k` takes is the `k`-th prime.
* `primes_of_sieved_nil` --- if nothing comes to filter `k`, the filters before it have all the
  primes that were fed.
* `passed_mono` --- a filter that has seen a part of its stream has passed on a part of what it
  will.
-/

namespace PmakeOs
namespace Lib

/-- What a filter passes on. -/
def passed : List ℕ → List ℕ
  | [] => []
  | p :: l => l.filter fun i => ¬ p ∣ i

/-- What comes to filter `k` when the `n` numbers from 2 on are fed. -/
def sieved (n : ℕ) : ℕ → List ℕ
  | 0 => List.range' 2 n
  | k + 1 => passed (sieved n k)

variable {n k i p : ℕ} {l l' : List ℕ}

theorem mem_passed : i ∈ passed (p :: l) ↔ i ∈ p :: l ∧ ¬ p ∣ i := by
  rw [passed, List.mem_filter, List.mem_cons, decide_eq_true_iff]
  constructor
  · exact fun h => ⟨Or.inr h.1, h.2⟩
  · rintro ⟨rfl | h, hp⟩
    · exact absurd dvd_rfl hp
    · exact ⟨h, hp⟩

theorem passed_concat (p i : ℕ) (l : List ℕ) :
    passed (p :: (l ++ [i])) = passed (p :: l) ++ if p ∣ i then [] else [i] := by
  rw [passed, passed, List.filter_append]
  by_cases h : p ∣ i
  · rw [if_pos h, List.filter_cons_of_neg (by simpa using h), List.filter_nil]
  · rw [if_neg h, List.filter_cons_of_pos (by simpa using h), List.filter_nil]

theorem passed_mono (h : l <+: l') : passed l <+: passed l' := by
  cases l with
  | nil => exact List.nil_prefix
  | cons p l =>
    obtain ⟨t, rfl⟩ := h
    exact ⟨t.filter fun i => ¬ p ∣ i, (List.filter_append ..).symm⟩

theorem sieved_sorted (n k : ℕ) : (sieved n k).SortedLT := by
  induction k with
  | zero => exact List.sortedLT_range' 2 n (by decide)
  | succ k ih =>
    rw [sieved]
    cases hl : sieved n k with
    | nil => exact List.Pairwise.nil.sortedLT
    | cons p l =>
      rw [hl] at ih
      exact (ih.pairwise.of_cons.filter _).sortedLT

/-- The number that has passed the first `k` filters. -/
def Survives (k i : ℕ) : Prop := 2 ≤ i ∧ ∀ j < k, ¬ Nat.nth Nat.Prime j ∣ i

theorem prime_nth (j : ℕ) : (Nat.nth Nat.Prime j).Prime :=
  Nat.nth_mem_of_infinite Nat.infinite_setOfPred_prime j

theorem survives_nth (k : ℕ) : Survives k (Nat.nth Nat.Prime k) := by
  refine ⟨(prime_nth k).two_le, fun j hj hdvd => ?_⟩
  have heq := (Nat.prime_dvd_prime_iff_eq (prime_nth j) (prime_nth k)).mp hdvd
  exact absurd (Nat.nth_injective Nat.infinite_setOfPred_prime heq) hj.ne

/-- The least prime factor of a survivor comes at `k` or later. -/
theorem Survives.exists_nth (h : Survives k i) : ∃ m, k ≤ m ∧ Nat.nth Nat.Prime m ∣ i ∧
    Nat.nth Nat.Prime m ≤ i ∧ Survives k (Nat.nth Nat.Prime m) := by
  have hprime : i.minFac.Prime := Nat.minFac_prime (by have := h.1; omega)
  have hnth : Nat.nth Nat.Prime (Nat.count Nat.Prime i.minFac) = i.minFac := Nat.nth_count hprime
  refine ⟨Nat.count Nat.Prime i.minFac, ?_, ?_, ?_, ?_⟩
  · by_contra hlt
    exact h.2 _ (Nat.lt_of_not_le hlt) (by rw [hnth]; exact Nat.minFac_dvd i)
  · rw [hnth]
    exact Nat.minFac_dvd i
  · rw [hnth]
    exact Nat.minFac_le (by have := h.1; omega)
  · rw [hnth]
    exact ⟨hprime.two_le, fun j hj hdvd => h.2 j hj (hdvd.trans (Nat.minFac_dvd i))⟩

/-- The least survivor is the next prime. -/
theorem Survives.nth_le (h : Survives k i) : Nat.nth Nat.Prime k ≤ i := by
  obtain ⟨m, hm, -, hle, -⟩ := h.exists_nth
  exact ((Nat.nth_le_nth Nat.infinite_setOfPred_prime).mpr hm).trans hle

/-- The head of a list of the survivors. -/
theorem eq_nth_of_mem_iff (hsorted : (p :: l).SortedLT)
    (hmem : ∀ i, i ∈ p :: l ↔ i < n + 2 ∧ Survives k i) : p = Nat.nth Nat.Prime k := by
  obtain ⟨hlt, hsurv⟩ := (hmem p).mp List.mem_cons_self
  have hle := hsurv.nth_le
  rcases List.mem_cons.mp ((hmem _).mpr ⟨hle.trans_lt hlt, survives_nth k⟩) with heq | hin
  · exact heq.symm
  · exact absurd (List.rel_of_pairwise_cons hsorted.pairwise hin) (Nat.not_lt.mpr hle)

/-- **What comes to filter `k`.** -/
theorem mem_sieved : i ∈ sieved n k ↔ i < n + 2 ∧ Survives k i := by
  induction k generalizing i with
  | zero =>
    rw [sieved, List.mem_range'_1]
    exact ⟨fun h => ⟨by omega, h.1, fun j hj => absurd hj (Nat.not_lt_zero j)⟩,
      fun h => ⟨h.2.1, by omega⟩⟩
  | succ k ih =>
    have hstep : Survives (k + 1) i ↔ Survives k i ∧ ¬ Nat.nth Nat.Prime k ∣ i := by
      refine ⟨fun h => ⟨⟨h.1, fun j hj => h.2 j (Nat.lt_succ_of_lt hj)⟩,
        h.2 k (Nat.lt_succ_self k)⟩, fun h => ⟨h.1.1, fun j hj => ?_⟩⟩
      rcases Nat.lt_succ_iff_lt_or_eq.mp hj with hlt | rfl
      · exact h.1.2 j hlt
      · exact h.2
    have hsorted := sieved_sorted n k
    rw [sieved]
    cases hl : sieved n k with
    | nil =>
      rw [hl] at ih
      have hno : ¬ (i < n + 2 ∧ Survives (k + 1) i) := fun h0 =>
        absurd (ih.mpr ⟨h0.1, (hstep.mp h0.2).1⟩) List.not_mem_nil
      exact iff_of_false List.not_mem_nil hno
    | cons p l =>
      rw [hl] at ih hsorted
      rw [mem_passed, ih, hstep, eq_nth_of_mem_iff hsorted fun i => ih, and_assoc]

/-- **The number that filter `k` takes.** -/
theorem eq_nth_of_sieved (h : sieved n k = p :: l) : p = Nat.nth Nat.Prime k := by
  have hsorted := sieved_sorted n k
  have hmem := fun i => mem_sieved (n := n) (k := k) (i := i)
  rw [h] at hsorted hmem
  exact eq_nth_of_mem_iff hsorted hmem

/-- **If nothing comes to filter `k`, and something to those before it**, these have all the
primes that were fed. -/
theorem primes_of_sieved_nil (h : sieved n k = []) (hne : ∀ j < k, sieved n j ≠ []) :
    (List.range' 2 n).filter (fun i => i.Prime) = (List.range k).map (Nat.nth Nat.Prime) := by
  have hmono := Nat.nth_strictMono Nat.infinite_setOfPred_prime
  have hsorted : ((List.range k).map (Nat.nth Nat.Prime)).SortedLT :=
    (List.pairwise_lt_range.map _ fun _ _ hlt => hmono hlt).sortedLT
  refine ((List.sortedLT_range' 2 n (by decide)).pairwise.filter _).sortedLT.eq_of_mem_iff
    hsorted fun i => ?_
  rw [List.mem_filter, List.mem_range'_1, List.mem_map, decide_eq_true_iff]
  constructor
  · rintro ⟨hrange, hprime⟩
    refine ⟨Nat.count Nat.Prime i, ?_, Nat.nth_count hprime⟩
    rw [List.mem_range]
    by_contra hge
    have hsurv : Survives k i := by
      refine ⟨hprime.two_le, fun j hj hdvd => ?_⟩
      have heq := (Nat.prime_dvd_prime_iff_eq (prime_nth j) hprime).mp hdvd
      rw [← heq] at hge
      exact hge ((Nat.count_nth_of_infinite Nat.infinite_setOfPred_prime j).trans_lt hj)
    have hmem := mem_sieved.mpr ⟨(by omega : i < n + 2), hsurv⟩
    rw [h] at hmem
    exact absurd hmem List.not_mem_nil
  · rintro ⟨j, hj, rfl⟩
    obtain ⟨p, l, hl⟩ := List.exists_cons_of_ne_nil (hne j (List.mem_range.mp hj))
    obtain rfl := eq_nth_of_sieved hl
    have hmem := (mem_sieved (n := n) (k := j)).mp (by rw [hl]; exact List.mem_cons_self)
    exact ⟨⟨hmem.2.1, by omega⟩, prime_nth j⟩

end Lib
end PmakeOs
