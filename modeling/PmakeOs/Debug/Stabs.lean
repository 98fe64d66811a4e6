import PmakeOs.Machine.Mmu
import Mathlib.Logic.Relation
import Mathlib.Algebra.Order.Ring.Int

/-!
# `kern/kdebug.c`: searching the symbol table

`stab_binsearch` looks for the stab of a given type that contains an address.  Stabs of
the type are ordered by address, but they lie between stabs of other types.  So each
probe goes back from the middle of the interval to the nearest stab of the type, and the
search ends with another walk backwards from the right end.

* `scanDown` is both backward walks, `round` one round of the search, and `stabBinsearch`
  the function.
* `Brackets` is what the comment above the function says about the result.
* An exact hit at `j` makes the search go on from `j` with the next address.  If the stab
  for that address lies ahead, the search takes it for an exact hit again, and moves on.
  This is harmless if the bisection has met that stab before it met `j`.  Whether it has
  depends on the places of the stabs alone: `SeenFirst`.

The indices are integers, since the right end may become `-1`.  A table of 12-byte
entries in a 32-bit address space has fewer than `2 ^ 29` of them, so that `l + r` is an
`int`.
-/

namespace PmakeOs

/-- The fields of `struct Stab` that the search reads. -/
structure Stab where
  nType : BitVec 8
  nValue : Word

namespace Kdebug

/-- The stab at `i` has the type.  The C operator compares two `int`s. -/
def IsType (stabs : ℤ → Stab) (type i : ℤ) : Prop := ((stabs i).nType.toNat : ℤ) = type

instance (stabs : ℤ → Stab) (type i : ℤ) : Decidable (IsType stabs type i) :=
  inferInstanceAs (Decidable (_ = _))

/-- `while (… && stabs[m].n_type != type) m--`, where the other condition allows `n`
rounds. -/
def scanDown (stabs : ℤ → Stab) (type : ℤ) : ℕ → ℤ → ℤ
  | 0, m => m
  | n + 1, m => if ¬ IsType stabs type m then scanDown stabs type n (m - 1) else m

/-- The variables of `stab_binsearch`, and the two it writes through its arguments. -/
structure Search where
  l : ℤ
  r : ℤ
  addr : Word
  regionLeft : ℤ
  regionRight : ℤ
  anyMatches : Bool

/-- One round of the search. -/
def round (stabs : ℤ → Stab) (type : ℤ) (x : Search) : Search :=
  let trueM := (x.l + x.r) / 2
  let m := scanDown stabs type (trueM + 1 - x.l).toNat trueM
  if m < x.l then { x with l := trueM + 1 }
  else
    let x := { x with anyMatches := true }
    if (stabs m).nValue < x.addr then { x with regionLeft := m, l := trueM + 1 }
    else if x.addr < (stabs m).nValue then { x with regionRight := m - 1, r := m - 1 }
    else { x with regionLeft := m, l := m, addr := x.addr + 1#32 }

/-- The loop, for a number of rounds. -/
def loop (stabs : ℤ → Stab) (type : ℤ) : ℕ → Search → Option Search
  | 0, x => if x.l ≤ x.r then none else some x
  | fuel + 1, x => if x.l ≤ x.r then loop stabs type fuel (round stabs type x) else some x

/-- What follows the loop: `*region_left` and `*region_right`. -/
def fixUp (stabs : ℤ → Stab) (type : ℤ) (x : Search) : ℤ × ℤ :=
  if ¬ x.anyMatches then (x.regionLeft, x.regionLeft - 1)
  else (scanDown stabs type (x.regionRight - x.regionLeft).toNat x.regionRight, x.regionRight)

/-- `stab_binsearch`: `*region_left` and `*region_right` at the end. -/
def stabBinsearch (fuel : ℕ) (stabs : ℤ → Stab) (left right type : ℤ) (addr : Word) :
    Option (ℤ × ℤ) :=
  (loop stabs type fuel ⟨left, right, addr, left, right, false⟩).map (fixUp stabs type)

variable {stabs : ℤ → Stab} {type left right l r m q i j k : ℤ} {addr a : Word} {x y : Search}

/-! ## What the result should be -/

/-- The stabs of the type are ordered by address. -/
def Increasing (stabs : ℤ → Stab) (type left right : ℤ) : Prop :=
  ∀ i j, left ≤ i → i < j → j ≤ right → IsType stabs type i → IsType stabs type j →
    (stabs i).nValue < (stabs j).nValue

/-- A stab of the type, in the range, that does not begin behind `addr`. -/
def Below (stabs : ℤ → Stab) (left right type : ℤ) (addr : Word) (i : ℤ) : Prop :=
  left ≤ i ∧ i ≤ right ∧ IsType stabs type i ∧ (stabs i).nValue ≤ addr

/-- `q` is the last stab of the type among those from `l` to `m`. -/
structure LastIn (stabs : ℤ → Stab) (type l m q : ℤ) : Prop where
  ge : l ≤ q
  le : q ≤ m
  isType : IsType stabs type q
  after : ∀ i, q < i → i ≤ m → ¬ IsType stabs type i

/-- The comment above `stab_binsearch`. -/
structure Brackets (stabs : ℤ → Stab) (left right type : ℤ) (addr : Word) (out : ℤ × ℤ) :
    Prop where
  below : (∃ i, Below stabs left right type addr i) → Below stabs left right type addr out.1
  last : ∀ i, Below stabs left right type addr i → i ≤ out.1
  next : (∃ i, Below stabs left right type addr i) →
    (∀ i, out.1 < i → i ≤ out.2 → ¬ IsType stabs type i) ∧
      (out.2 = right ∨ out.1 ≤ out.2 ∧ out.2 < right ∧ IsType stabs type (out.2 + 1))
  missing : (¬ ∃ i, Below stabs left right type addr i) → out.2 < out.1

/-- The function returns, with a result as the comment says. -/
def Finds (stabs : ℤ → Stab) (left right type : ℤ) (addr : Word) : Prop :=
  ∃ out, (∃ n, ∀ fuel, n ≤ fuel → stabBinsearch fuel stabs left right type addr = some out) ∧
    Brackets stabs left right type addr out

/-- The bisection of `[l, r]` meets the stab at `k` before the one at `j`, where `j` and
`k` are neighbours among the stabs of the type. -/
inductive SeenFirst (stabs : ℤ → Stab) (type j k : ℤ) : ℤ → ℤ → Prop
  /-- The first probe finds `k`. -/
  | here {l r : ℤ} : LastIn stabs type l ((l + r) / 2) k → SeenFirst stabs type j k l r
  /-- It finds a later stab, and the search goes on before it. -/
  | before {l r q : ℤ} : LastIn stabs type l ((l + r) / 2) q → k < q →
      SeenFirst stabs type j k l (q - 1) → SeenFirst stabs type j k l r
  /-- It finds none, or one before `j`, and the search goes on behind the middle. -/
  | behind {l r : ℤ} : (l + r) / 2 < j → SeenFirst stabs type j k ((l + r) / 2 + 1) r →
      SeenFirst stabs type j k l r

/-- The stab for the next address does not lead the search astray. -/
def Harmless (stabs : ℤ → Stab) (left right type : ℤ) (addr : Word) (j k : ℤ) : Prop :=
  SeenFirst stabs type j k left right ∨ addr = 0xFFFFFFFE#32 ∧ k = j + 1

/-- Inputs on which `stab_binsearch` does what its comment says. -/
structure FindsWhen (stabs : ℤ → Stab) (left right type : ℤ) (addr : Word) : Prop where
  /-- If there are stabs of the type, the first of them does not begin behind `addr`. -/
  some : (∃ i, left ≤ i ∧ i ≤ right ∧ IsType stabs type i) →
    ∃ i, Below stabs left right type addr i
  /-- A stab at `addr` itself is not at the last address of all, and a stab at the next
  address is harmless. -/
  exact : ∀ j, left ≤ j → j ≤ right → IsType stabs type j → (stabs j).nValue = addr →
    addr ≠ BitVec.allOnes 32 ∧
      ∀ k, left ≤ k → k ≤ right → IsType stabs type k → (stabs k).nValue = addr + 1#32 →
        Harmless stabs left right type addr j k

/-! ## Walking back -/

theorem le_scanDown (stabs : ℤ → Stab) (type : ℤ) (n : ℕ) (m : ℤ) :
    m - n ≤ scanDown stabs type n m ∧ scanDown stabs type n m ≤ m := by
  induction n generalizing m with
  | zero => simp [scanDown]
  | succ n ih =>
    rw [scanDown]
    have h := ih (m - 1)
    split
    · push_cast
      omega
    · push_cast
      omega

/-- No stab of the type is skipped. -/
theorem not_isType_of_scanDown {n : ℕ} (h : scanDown stabs type n m < i) (hi : i ≤ m) :
    ¬ IsType stabs type i := by
  induction n generalizing m with
  | zero =>
    rw [scanDown] at h
    omega
  | succ n ih =>
    rw [scanDown] at h
    split at h
    · rename_i hm
      rcases eq_or_lt_of_le hi with rfl | hlt
      · exact hm
      · exact ih h (by omega)
    · omega

/-- The walk ends at a stab of the type, or where it has to. -/
theorem isType_scanDown (stabs : ℤ → Stab) (type : ℤ) (n : ℕ) (m : ℤ) :
    scanDown stabs type n m = m - n ∨ IsType stabs type (scanDown stabs type n m) := by
  induction n generalizing m with
  | zero => simp [scanDown]
  | succ n ih =>
    rw [scanDown]
    split
    · rcases ih (m - 1) with h | h
      · left
        rw [h]
        push_cast
        omega
      · exact Or.inr h
    · rename_i hm
      exact Or.inr (not_not.mp hm)

theorem LastIn.unique {q' : ℤ} (h : LastIn stabs type l m q) (h' : LastIn stabs type l m q') :
    q = q' := by
  rcases lt_trichotomy q q' with hlt | heq | hlt
  · exact absurd h'.isType (h.after q' hlt h'.le)
  · exact heq
  · exact absurd h.isType (h'.after q hlt h.le)

/-! ## One round -/

/-- **What a round can do.** -/
theorem round_cases (stabs : ℤ → Stab) (type : ℤ) (hle : x.l ≤ x.r) :
    (∀ i, x.l ≤ i → i ≤ (x.l + x.r) / 2 → ¬ IsType stabs type i) ∧
        round stabs type x = { x with l := (x.l + x.r) / 2 + 1 } ∨
      ∃ q, LastIn stabs type x.l ((x.l + x.r) / 2) q ∧
        ((stabs q).nValue < x.addr ∧ round stabs type x =
            { x with anyMatches := true, regionLeft := q, l := (x.l + x.r) / 2 + 1 } ∨
          x.addr < (stabs q).nValue ∧ round stabs type x =
            { x with anyMatches := true, regionRight := q - 1, r := q - 1 } ∨
          (stabs q).nValue = x.addr ∧ round stabs type x =
            { x with anyMatches := true, regionLeft := q, l := q, addr := x.addr + 1#32 }) := by
  have hmid : x.l ≤ (x.l + x.r) / 2 ∧ (x.l + x.r) / 2 ≤ x.r := by omega
  have hn : (((x.l + x.r) / 2 + 1 - x.l).toNat : ℤ) = (x.l + x.r) / 2 + 1 - x.l :=
    Int.toNat_of_nonneg (by omega)
  unfold round
  dsimp only
  generalize hq : scanDown stabs type ((x.l + x.r) / 2 + 1 - x.l).toNat ((x.l + x.r) / 2) = q
  have hbounds := le_scanDown stabs type ((x.l + x.r) / 2 + 1 - x.l).toNat ((x.l + x.r) / 2)
  have hskip : ∀ i, q < i → i ≤ (x.l + x.r) / 2 → ¬ IsType stabs type i := by
    intro i hi hi'
    rw [← hq] at hi
    exact not_isType_of_scanDown hi hi'
  have htype := isType_scanDown stabs type ((x.l + x.r) / 2 + 1 - x.l).toNat ((x.l + x.r) / 2)
  rw [hq, hn] at hbounds htype
  by_cases hlt : q < x.l
  · rw [if_pos hlt]
    exact Or.inl ⟨fun i hi => hskip i (by omega), rfl⟩
  · rw [if_neg hlt]
    have hlast : LastIn stabs type x.l ((x.l + x.r) / 2) q :=
      ⟨by omega, hbounds.2, htype.resolve_left (by omega), hskip⟩
    refine Or.inr ⟨q, hlast, ?_⟩
    by_cases hv : (stabs q).nValue < x.addr
    · rw [if_pos hv]
      exact Or.inl ⟨hv, rfl⟩
    · rw [if_neg hv]
      by_cases hv' : x.addr < (stabs q).nValue
      · rw [if_pos hv']
        exact Or.inr (Or.inl ⟨hv', rfl⟩)
      · rw [if_neg hv']
        exact Or.inr (Or.inr ⟨BitVec.le_antisymm (BitVec.not_lt.mp hv') (BitVec.not_lt.mp hv), rfl⟩)

/-- The probe finds no stab. -/
theorem round_of_none (hle : x.l ≤ x.r)
    (hnone : ∀ i, x.l ≤ i → i ≤ (x.l + x.r) / 2 → ¬ IsType stabs type i) :
    round stabs type x = { x with l := (x.l + x.r) / 2 + 1 } := by
  rcases round_cases stabs type hle with ⟨-, hround⟩ | ⟨q, hq, -⟩
  · exact hround
  · exact absurd hq.isType (hnone q hq.ge hq.le)

theorem round_of_lastIn (hle : x.l ≤ x.r) (hq : LastIn stabs type x.l ((x.l + x.r) / 2) q) :
    (stabs q).nValue < x.addr ∧ round stabs type x =
        { x with anyMatches := true, regionLeft := q, l := (x.l + x.r) / 2 + 1 } ∨
      x.addr < (stabs q).nValue ∧ round stabs type x =
        { x with anyMatches := true, regionRight := q - 1, r := q - 1 } ∨
      (stabs q).nValue = x.addr ∧ round stabs type x =
        { x with anyMatches := true, regionLeft := q, l := q, addr := x.addr + 1#32 } := by
  rcases round_cases stabs type hle with ⟨hnone, -⟩ | ⟨q', hq', hcase⟩
  · exact absurd hq.isType (hnone q hq.ge hq.le)
  · obtain rfl := hq.unique hq'
    exact hcase

/-- It finds a stab behind the address. -/
theorem round_of_behind (hle : x.l ≤ x.r) (hq : LastIn stabs type x.l ((x.l + x.r) / 2) q)
    (hv : x.addr < (stabs q).nValue) :
    round stabs type x = { x with anyMatches := true, regionRight := q - 1, r := q - 1 } := by
  rcases round_of_lastIn hle hq with ⟨hv', -⟩ | ⟨-, hround⟩ | ⟨hv', -⟩
  · exact absurd hv' (BitVec.lt_asymm hv)
  · exact hround
  · rw [hv'] at hv
    exact absurd hv (BitVec.lt_irrefl _)

/-- It finds a stab at the address. -/
theorem round_of_hit (hle : x.l ≤ x.r) (hq : LastIn stabs type x.l ((x.l + x.r) / 2) q)
    (hv : (stabs q).nValue = x.addr) : round stabs type x =
      { x with anyMatches := true, regionLeft := q, l := q, addr := x.addr + 1#32 } := by
  rcases round_of_lastIn hle hq with ⟨hv', -⟩ | ⟨hv', -⟩ | ⟨-, hround⟩
  · rw [hv] at hv'
    exact absurd hv' (BitVec.lt_irrefl _)
  · rw [hv] at hv'
    exact absurd hv' (BitVec.lt_irrefl _)
  · exact hround

/-- Rounds of the search. -/
def Rounds (stabs : ℤ → Stab) (type : ℤ) : Search → Search → Prop :=
  Relation.ReflTransGen fun x y => x.l ≤ x.r ∧ y = round stabs type x

theorem Rounds.round {z : Search} (hle : x.l ≤ x.r) (hy : Kdebug.round stabs type x = y)
    (h : Rounds stabs type y z) : Rounds stabs type x z := by
  subst hy
  exact Relation.ReflTransGen.head ⟨hle, rfl⟩ h

theorem loop_of_done (h : x.r < x.l) (fuel : ℕ) : loop stabs type fuel x = some x := by
  cases fuel with
  | zero => rw [loop, if_neg (by omega)]
  | succ fuel => rw [loop, if_neg (by omega)]

/-- Enough fuel takes the loop to its end. -/
theorem Rounds.loop (h : Rounds stabs type x y) (hy : y.r < y.l) :
    ∃ n, ∀ fuel, n ≤ fuel → loop stabs type fuel x = some y := by
  induction h using Relation.ReflTransGen.head_induction_on with
  | refl => exact ⟨0, fun fuel _ => loop_of_done hy fuel⟩
  | head hstep _ ih =>
    obtain ⟨hle, rfl⟩ := hstep
    obtain ⟨n, hn⟩ := ih
    refine ⟨n + 1, fun fuel hfuel => ?_⟩
    obtain ⟨fuel, rfl⟩ : ∃ f, fuel = f + 1 := ⟨fuel - 1, by omega⟩
    rw [Kdebug.loop, if_pos hle]
    exact hn fuel (by omega)

/-! ## A search without an exact hit -/

/-- The stabs of the type are ordered by address, where several may have one address. -/
def Sorted (stabs : ℤ → Stab) (type left right : ℤ) : Prop :=
  ∀ i j, left ≤ i → i < j → j ≤ right → IsType stabs type i → IsType stabs type j →
    (stabs i).nValue ≤ (stabs j).nValue

theorem Increasing.sorted (h : Increasing stabs type left right) : Sorted stabs type left right :=
  fun i j hi hij hj hti htj => BitVec.le_of_lt (h i j hi hij hj hti htj)

theorem Sorted.sub {left' right' : ℤ} (h : Sorted stabs type left right)
    (hl : left ≤ left') (hr : right' ≤ right) : Sorted stabs type left' right' :=
  fun i j hi hij hj => h i j (by omega) hij (by omega)

theorem Sorted.lt_of_value_lt (h : Sorted stabs type left right) (hi : i ≤ right)
    (hti : IsType stabs type i) (hj : left ≤ j) (htj : IsType stabs type j)
    (hlt : (stabs i).nValue < (stabs j).nValue) : i < j := by
  by_contra hge
  rcases eq_or_lt_of_le (not_lt.mp hge) with rfl | hji
  · exact BitVec.lt_irrefl _ hlt
  · exact absurd hlt (BitVec.not_lt.mpr (h j i hj hji hi htj hti))

theorem Increasing.eq_of_value_eq (h : Increasing stabs type left right) (hil : left ≤ i)
    (hir : i ≤ right) (hti : IsType stabs type i) (hjl : left ≤ j) (hjr : j ≤ right)
    (htj : IsType stabs type j) (hv : (stabs i).nValue = (stabs j).nValue) : i = j := by
  rcases lt_trichotomy i j with hlt | heq | hlt
  · have hlt' := h i j hil hlt hjr hti htj
    rw [hv] at hlt'
    exact absurd hlt' (BitVec.lt_irrefl _)
  · exact heq
  · have hlt' := h j i hjl hlt hir htj hti
    rw [hv] at hlt'
    exact absurd hlt' (BitVec.lt_irrefl _)

/-- The search from `x` ends in `y`, with the interval cut at the first stab behind the
address. -/
structure Cut (stabs : ℤ → Stab) (type : ℤ) (x y : Search) : Prop where
  rounds : Rounds stabs type x y
  done : y.r < y.l
  region : y.regionRight = y.r
  ge : x.l - 1 ≤ y.r
  le : y.r ≤ x.r
  below : ∀ i, x.l ≤ i → i ≤ y.r → IsType stabs type i → (stabs i).nValue < x.addr
  above : y.r = x.r ∨ IsType stabs type (y.r + 1) ∧ x.addr < (stabs (y.r + 1)).nValue
  left : y.regionLeft = x.regionLeft ∨
    x.l ≤ y.regionLeft ∧ y.regionLeft ≤ y.r ∧ IsType stabs type y.regionLeft
  any : y.anyMatches = true ↔
    x.anyMatches = true ∨ ∃ i, x.l ≤ i ∧ i ≤ x.r ∧ IsType stabs type i

/-- **The bisection.**  Every round shortens the interval. -/
theorem exists_cut (hinc : Sorted stabs type x.l x.r) (hreg : x.regionRight = x.r)
    (hle : x.l ≤ x.r + 1)
    (hno : ∀ i, x.l ≤ i → i ≤ x.r → IsType stabs type i → (stabs i).nValue ≠ x.addr) :
    ∃ y, Cut stabs type x y := by
  induction hn : (x.r + 1 - x.l).toNat using Nat.strong_induction_on generalizing x with
  | _ n ih =>
    by_cases hdone : x.r < x.l
    · refine ⟨x, .refl, hdone, hreg, by omega, le_rfl, fun i hi hi' => ?_, Or.inl rfl,
        Or.inl rfl, ?_⟩
      · omega
      · refine ⟨Or.inl, fun h => h.resolve_right ?_⟩
        rintro ⟨i, hi, hi', -⟩
        omega
    have hlr : x.l ≤ x.r := by omega
    rcases round_cases stabs type hlr with ⟨hnone, hround⟩ | ⟨q, hq, hcase⟩
    · -- no stab of the type up to the middle
      obtain ⟨y, hy⟩ := ih _ (by dsimp only; omega)
        (x := { x with l := (x.l + x.r) / 2 + 1 }) (hinc.sub (by dsimp only; omega) le_rfl) hreg
        (by dsimp only; omega) (fun i hi => hno i (by dsimp only at hi; omega)) rfl
      have hge := hy.ge
      dsimp only at hge
      refine ⟨y, hy.rounds.round hlr hround, hy.done, hy.region, by omega, hy.le, ?_, hy.above,
        ?_, ?_⟩
      · intro i hi hi' ht
        refine hy.below i ?_ hi' ht
        dsimp only
        by_contra hlt
        exact hnone i hi (by omega) ht
      · rcases hy.left with h | ⟨h, h'⟩
        · exact Or.inl h
        · dsimp only at h
          exact Or.inr ⟨by omega, h'⟩
      · rw [hy.any]
        refine or_congr Iff.rfl ⟨?_, ?_⟩
        · rintro ⟨i, hi, hi', ht⟩
          dsimp only at hi
          exact ⟨i, by omega, hi', ht⟩
        · rintro ⟨i, hi, hi', ht⟩
          refine ⟨i, ?_, hi', ht⟩
          dsimp only
          by_contra hlt
          exact hnone i hi (by omega) ht
    have hqle := hq.le
    have hqge := hq.ge
    have hex : ∃ i, x.l ≤ i ∧ i ≤ x.r ∧ IsType stabs type i := ⟨q, hqge, by omega, hq.isType⟩
    rcases hcase with ⟨hv, hround⟩ | ⟨hv, hround⟩ | ⟨hv, -⟩
    · -- a stab before the address: go on behind the middle
      obtain ⟨y, hy⟩ := ih _ (by dsimp only; omega)
        (x := { x with anyMatches := true, regionLeft := q, l := (x.l + x.r) / 2 + 1 })
        (hinc.sub (by dsimp only; omega) le_rfl) hreg (by dsimp only; omega)
        (fun i hi => hno i (by dsimp only at hi; omega)) rfl
      have hge := hy.ge
      dsimp only at hge
      refine ⟨y, hy.rounds.round hlr hround, hy.done, hy.region, by omega, hy.le, ?_, hy.above,
        ?_, ?_⟩
      · intro i hi hi' ht
        by_cases hmid : (x.l + x.r) / 2 < i
        · exact hy.below i (by dsimp only; omega) hi' ht
        · have hiq : i ≤ q := by
            by_contra hlt
            exact hq.after i (by omega) (by omega) ht
          rcases eq_or_lt_of_le hiq with rfl | hlt
          · exact hv
          · have hle := hinc i q hi hlt (by omega) ht hq.isType
            rw [BitVec.le_def] at hle
            rw [BitVec.lt_def] at hv ⊢
            exact lt_of_le_of_lt hle hv
      · rcases hy.left with h | ⟨h, h'⟩
        · rw [h]
          exact Or.inr ⟨hqge, by dsimp only; omega, hq.isType⟩
        · dsimp only at h
          exact Or.inr ⟨by omega, h'⟩
      · exact ⟨fun _ => Or.inr hex, fun _ => hy.any.mpr (Or.inl rfl)⟩
    · -- a stab behind the address: go on before it
      obtain ⟨y, hy⟩ := ih _ (by dsimp only; omega)
        (x := { x with anyMatches := true, regionRight := q - 1, r := q - 1 })
        (hinc.sub le_rfl (by dsimp only; omega)) rfl (by dsimp only; omega)
        (fun i hi hi' => hno i hi (by dsimp only at hi'; omega)) rfl
      have hyle := hy.le
      dsimp only at hyle
      refine ⟨y, hy.rounds.round hlr hround, hy.done, hy.region, hy.ge, by omega, hy.below, ?_,
        hy.left, ?_⟩
      · rcases hy.above with h | h
        · dsimp only at h
          rw [h, sub_add_cancel]
          exact Or.inr ⟨hq.isType, hv⟩
        · exact Or.inr h
      · exact ⟨fun _ => Or.inr hex, fun _ => hy.any.mpr (Or.inl rfl)⟩
    · exact absurd hv (hno q hqge (by omega) hq.isType)

/-! ## An exact hit -/

/-- `j` and `k` are neighbours among the stabs of the type. -/
structure Neighbours (stabs : ℤ → Stab) (type j k : ℤ) : Prop where
  lt : j < k
  first : IsType stabs type j
  second : IsType stabs type k
  between : ∀ i, j < i → i < k → ¬ IsType stabs type i

/-- Among the stabs of the type, `j` is the first at the address, and `k` the first behind it. -/
structure Straddles (stabs : ℤ → Stab) (type l r : ℤ) (addr : Word) (j k : ℤ) : Prop where
  ge : l ≤ j
  lt : j < k
  le : k ≤ r
  first : IsType stabs type j
  value : (stabs j).nValue = addr
  before : ∀ i, l ≤ i → i < j → IsType stabs type i → (stabs i).nValue ≠ addr
  second : IsType stabs type k
  behind : addr < (stabs k).nValue
  between : ∀ i, l ≤ i → i < k → IsType stabs type i → (stabs i).nValue ≤ addr

theorem Straddles.sub {l' r' : ℤ} (h : Straddles stabs type l r a j k) (hl : l ≤ l') (hj : l' ≤ j)
    (hk : k ≤ r') : Straddles stabs type l' r' a j k :=
  ⟨hj, h.lt, hk, h.first, h.value, fun i hi => h.before i (by omega), h.second, h.behind,
    fun i hi => h.between i (by omega)⟩

/-- The search from `x` comes to the stab at `j`, which is at the address, and goes on
with the next address in `y`. -/
structure Hit (stabs : ℤ → Stab) (type : ℤ) (x y : Search) (j : ℤ) : Prop where
  rounds : Rounds stabs type x y
  l : y.l = j
  addr : y.addr = x.addr + 1#32
  left : y.regionLeft = j
  region : y.regionRight = y.r
  any : y.anyMatches = true
  ge : j ≤ y.r
  le : y.r ≤ x.r
  above : y.r = x.r ∨ IsType stabs type (y.r + 1) ∧ x.addr < (stabs (y.r + 1)).nValue
  seen : ∀ i k, Straddles stabs type x.l x.r x.addr i k →
    (y.r < k ↔ SeenFirst stabs type i k x.l x.r)

/-- Before the middle lies neither `j` nor `k`. -/
theorem seenFirst_behind (hlt : (l + r) / 2 < j) (hjk : j < k) :
    SeenFirst stabs type j k l r ↔ SeenFirst stabs type j k ((l + r) / 2 + 1) r := by
  refine ⟨fun h => ?_, .behind hlt⟩
  cases h with
  | here h =>
    have hle := h.le
    omega
  | before h hq =>
    have hle := h.le
    omega
  | behind _ h => exact h

/-- The probe finds a stab behind `j`. -/
theorem seenFirst_before (hq : LastIn stabs type l ((l + r) / 2) q) (hjq : j < q) :
    SeenFirst stabs type j k l r ↔ k = q ∨ k < q ∧ SeenFirst stabs type j k l (q - 1) := by
  constructor
  · intro h
    cases h with
    | here h => exact Or.inl (h.unique hq)
    | before h hlt hrec =>
      obtain rfl := h.unique hq
      exact Or.inr ⟨hlt, hrec⟩
    | behind hlt =>
      have hle := hq.le
      omega
  · rintro (rfl | ⟨hlt, h⟩)
    · exact .here hq
    · exact .before hq hlt h

/-- The probe finds a stab from `j` on, but before `k`. -/
theorem not_seenFirst (hq : LastIn stabs type l ((l + r) / 2) q) (hjq : j ≤ q) (hqk : q < k) :
    ¬ SeenFirst stabs type j k l r := by
  intro h
  cases h with
  | here h => exact absurd (h.unique hq) (by omega)
  | before h hlt =>
    have heq := h.unique hq
    omega
  | behind hlt =>
    have hle := hq.le
    omega

/-- **A stab at the address is hit.** -/
theorem exists_hit (hinc : Sorted stabs type x.l x.r) (hreg : x.regionRight = x.r)
    (hjl : x.l ≤ j) (hjr : j ≤ x.r) (hj : IsType stabs type j) (hv : (stabs j).nValue = x.addr) :
    ∃ y j', x.l ≤ j' ∧ j' ≤ x.r ∧ IsType stabs type j' ∧ (stabs j').nValue = x.addr ∧
      Hit stabs type x y j' := by
  induction hn : (x.r + 1 - x.l).toNat using Nat.strong_induction_on generalizing x with
  | _ n ih =>
    have hlr : x.l ≤ x.r := by omega
    rcases round_cases stabs type hlr with ⟨hnone, hround⟩ | ⟨q, hq, hcase⟩
    · have hmid : (x.l + x.r) / 2 < j := by
        by_contra hge
        exact hnone j hjl (by omega) hj
      obtain ⟨y, j', hjl', hjr', hj', hv', hy⟩ := ih _ (by dsimp only; omega)
        (x := { x with l := (x.l + x.r) / 2 + 1 }) (hinc.sub (by dsimp only; omega) le_rfl) hreg
        (by dsimp only; omega) hjr hv rfl
      refine ⟨y, j', by dsimp only at hjl'; omega, hjr', hj', hv', hy.rounds.round hlr hround, hy.l,
        hy.addr, hy.left, hy.region, hy.any, hy.ge, hy.le, hy.above, fun i k hk => ?_⟩
      have hmid' : (x.l + x.r) / 2 < i := by
        by_contra hge
        exact hnone i hk.ge (by omega) hk.first
      rw [hy.seen i k (hk.sub (by dsimp only; omega) (by dsimp only; omega) hk.le),
        seenFirst_behind hmid' hk.lt]
    have hqle := hq.le
    have hqge := hq.ge
    rcases hcase with ⟨hvq, hround⟩ | ⟨hvq, hround⟩ | ⟨hvq, hround⟩
    · -- all stabs at the address are behind the probe, and so behind the middle
      have hlater : ∀ i, x.l ≤ i → IsType stabs type i → (stabs i).nValue = x.addr →
          (x.l + x.r) / 2 < i := by
        intro i hi hti hvi
        have hqi : q < i := hinc.lt_of_value_lt (by omega) hq.isType hi hti (by rwa [hvi])
        by_contra hge
        exact hq.after i hqi (by omega) hti
      have hmid := hlater j hjl hj hv
      obtain ⟨y, j', hjl', hjr', hj', hv', hy⟩ := ih _ (by dsimp only; omega)
        (x := { x with anyMatches := true, regionLeft := q, l := (x.l + x.r) / 2 + 1 })
        (hinc.sub (by dsimp only; omega) le_rfl) hreg (by dsimp only; omega) hjr hv rfl
      refine ⟨y, j', by dsimp only at hjl'; omega, hjr', hj', hv', hy.rounds.round hlr hround, hy.l,
        hy.addr, hy.left, hy.region, hy.any, hy.ge, hy.le, hy.above, fun i k hk => ?_⟩
      have hmid' := hlater i hk.ge hk.first hk.value
      rw [hy.seen i k (hk.sub (by dsimp only; omega) (by dsimp only; omega) hk.le),
        seenFirst_behind hmid' hk.lt]
    · have hjq : j < q := hinc.lt_of_value_lt hjr hj hqge hq.isType (by rwa [hv])
      obtain ⟨y, j', hjl', hjr', hj', hv', hy⟩ := ih _ (by dsimp only; omega)
        (x := { x with anyMatches := true, regionRight := q - 1, r := q - 1 })
        (hinc.sub le_rfl (by dsimp only; omega)) rfl hjl (by dsimp only; omega) hv rfl
      have hyle := hy.le
      dsimp only at hyle
      refine ⟨y, j', hjl', by dsimp only at hjr'; omega, hj', hv', hy.rounds.round hlr hround, hy.l,
        hy.addr, hy.left, hy.region, hy.any, hy.ge, by omega, ?_, fun i k hk => ?_⟩
      · rcases hy.above with h | h
        · dsimp only at h
          rw [h, sub_add_cancel]
          exact Or.inr ⟨hq.isType, hvq⟩
        · exact Or.inr h
      · have hlt := hk.lt
        have hkq : k ≤ q := by
          by_contra hgt
          exact absurd hvq (BitVec.not_lt.mpr (hk.between q hqge (by omega) hq.isType))
        rw [seenFirst_before hq (show i < q by omega)]
        rcases eq_or_lt_of_le hkq with rfl | hlt'
        · exact ⟨fun _ => Or.inl rfl, fun _ => by omega⟩
        · rw [hy.seen i k (hk.sub le_rfl hk.ge (by dsimp only; omega))]
          exact ⟨fun h => Or.inr ⟨hlt', h⟩, fun h => (h.resolve_left (by omega)).2⟩
    · refine ⟨_, q, hqge, by omega, hq.isType, hvq, Rounds.round hlr hround .refl, rfl, rfl, rfl, hreg,
        rfl, by dsimp only; omega, le_rfl, Or.inl rfl, fun i k hk => ⟨fun h => ?_, fun h => ?_⟩⟩
      · have hle := hk.le
        dsimp only at h
        omega
      · have hiq : i ≤ q := by
          by_contra hlt
          exact hk.before q hqge (by omega) hq.isType hvq
        have hqk : q < k := by
          refine hinc.lt_of_value_lt (by omega) hq.isType ?_ hk.second ?_
          · have := hk.ge
            have := hk.lt
            omega
          · rw [hvq]
            exact hk.behind
        exact absurd h (not_seenFirst hq hiq hqk)

end Kdebug
end PmakeOs
