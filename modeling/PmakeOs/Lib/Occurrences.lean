import Mathlib.Data.Finset.Card
import Mathlib.Data.Finset.Prod

/-!
# Counting the occurrences of a value of a partial map

A reference count is a number kept beside a partial map `f` that is supposed to
say how many points of a finite domain `f` sends to a given value.
`occurrences S f k` is that number, and the one fact every reference-counting
argument uses is how it moves when `f` changes at a single point
(`occurrences_update`): the old value at the point loses one, the new value
gains one, and when the two agree nothing happens.  The equation is stated
without subtraction, so that it can be handed to `omega` as it is.
-/

namespace PmakeOs
namespace Lib

variable {ι κ : Type*} [DecidableEq κ]

/-- The number of points of `S` that `f` sends to `k`. -/
def occurrences (S : Finset ι) (f : ι → Option κ) (k : κ) : ℕ :=
  (S.filter fun a => f a = some k).card

variable {S : Finset ι} {f g : ι → Option κ} {k : κ} {a : ι}

theorem occurrences_congr (h : ∀ a ∈ S, (f a = some k ↔ g a = some k)) :
    occurrences S f k = occurrences S g k := by
  rw [occurrences, occurrences, Finset.filter_congr h]

theorem occurrences_pos_iff : 0 < occurrences S f k ↔ ∃ a ∈ S, f a = some k := by
  rw [occurrences, Finset.card_pos]
  constructor
  · rintro ⟨a, ha⟩
    exact ⟨a, (Finset.mem_filter.mp ha).1, (Finset.mem_filter.mp ha).2⟩
  · rintro ⟨a, ha, hf⟩
    exact ⟨a, Finset.mem_filter.mpr ⟨ha, hf⟩⟩

theorem occurrences_eq_zero_iff : occurrences S f k = 0 ↔ ∀ a ∈ S, f a ≠ some k := by
  rw [← Nat.le_zero, ← Nat.not_lt, occurrences_pos_iff]
  push Not
  rfl

/-- **A map that is copied from another** does not count more than that one. -/
theorem occurrences_le_of_injOn {ι' : Type*} {T : Finset ι'} {g' : ι' → Option κ} (i : ι → ι')
    (h : ∀ a ∈ S, f a = some k → i a ∈ T ∧ g' (i a) = some k) (hi : Set.InjOn i S) :
    occurrences S f k ≤ occurrences T g' k := by
  refine Finset.card_le_card_of_injOn i (fun a ha => ?_) fun a ha b hb hab => ?_
  · obtain ⟨haS, hf⟩ := Finset.mem_filter.mp (Finset.mem_coe.mp ha)
    exact Finset.mem_coe.mpr (Finset.mem_filter.mpr (h a haS hf))
  · exact hi (Finset.mem_coe.mpr (Finset.mem_filter.mp (Finset.mem_coe.mp ha)).1)
      (Finset.mem_coe.mpr (Finset.mem_filter.mp (Finset.mem_coe.mp hb)).1) hab

/-- Splitting the count in two. -/
theorem occurrences_eq_filter_add (T : ι → Prop) [DecidablePred T] :
    occurrences S f k =
      occurrences (S.filter T) f k + occurrences (S.filter fun a => ¬ T a) f k := by
  rw [occurrences, occurrences, occurrences, Finset.filter_comm, Finset.filter_comm (p := fun a => ¬ T a),
    Finset.card_filter_add_card_filter_not]

/-- **A part is cut out.**  A map that is undefined on `T` and agrees with `f` elsewhere
counts less by what `f` does on `T`. -/
theorem occurrences_of_cut {T : ι → Prop} [DecidablePred T] (hon : ∀ a ∈ S, T a → g a = none)
    (hoff : ∀ a ∈ S, ¬ T a → g a = f a) :
    occurrences S f k = occurrences S g k + occurrences (S.filter T) f k := by
  have hzero : occurrences (S.filter T) g k = 0 := by
    refine occurrences_eq_zero_iff.mpr fun a ha => ?_
    obtain ⟨haS, haT⟩ := Finset.mem_filter.mp ha
    rw [hon a haS haT]
    exact nofun
  have hsame : occurrences (S.filter fun a => ¬ T a) g k =
      occurrences (S.filter fun a => ¬ T a) f k := by
    refine occurrences_congr fun a ha => ?_
    obtain ⟨haS, haT⟩ := Finset.mem_filter.mp ha
    rw [hoff a haS haT]
  rw [occurrences_eq_filter_add (f := f) T, occurrences_eq_filter_add (f := g) T, hzero, hsame]
  omega

variable [DecidableEq ι]

/-- Splitting the count at a point of the domain. -/
theorem occurrences_eq_erase_add (ha : a ∈ S) :
    occurrences S f k = occurrences (S.erase a) f k + if f a = some k then 1 else 0 := by
  rw [occurrences, occurrences, Finset.filter_erase]
  by_cases hf : f a = some k
  · have hmem : a ∈ S.filter fun a => f a = some k := Finset.mem_filter.mpr ⟨ha, hf⟩
    rw [if_pos hf, Finset.card_erase_add_one hmem]
  · have hmem : a ∉ S.filter fun a => f a = some k := fun h => hf (Finset.mem_filter.mp h).2
    rw [if_neg hf, Finset.erase_eq_of_notMem hmem, Nat.add_zero]

/-- **A change at one point.**  Two maps that agree off `a` count alike, up to
what they do at `a`. -/
theorem occurrences_add_of_eq_off (ha : a ∈ S) (h : ∀ b ∈ S, b ≠ a → f b = g b) :
    occurrences S f k + (if g a = some k then 1 else 0) =
      occurrences S g k + (if f a = some k then 1 else 0) := by
  have hoff : occurrences (S.erase a) f k = occurrences (S.erase a) g k :=
    occurrences_congr fun b hb => by
      rw [h b (Finset.mem_of_mem_erase hb) (Finset.ne_of_mem_erase hb)]
  rw [occurrences_eq_erase_add (f := f) ha, occurrences_eq_erase_add (f := g) ha, hoff]
  omega

end Lib
end PmakeOs
