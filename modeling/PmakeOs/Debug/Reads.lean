import PmakeOs.Debug.Eip
import PmakeOs.Debug.Found

/-!
# Where the search reads

The search on `[left, right]` ends for every table, ordered or not, and reads inside of
`[left, right]`.  What it returns is inside too, or says that there is no stab of the type, or
is the index in front of `left`, twice: the search has gone back to `left` and found even that
stab behind the address (`FallsOff`).  The caller takes that for a stab that contains the
address.
-/

namespace PmakeOs
namespace Kdebug

open Lib

/-! ## The reads of one round -/

section

variable {table : ℤ → StabEntry} {stabs : ℤ → Stab} {type left right l r m q i : ℤ} {addr : Word}
  {k : ℤ} {x y : Search} {S : ℤ → Prop} {n fuel : ℕ} {out : ℤ × ℤ}

theorem reads_scanDownR (type : ℤ) (hS : ∀ i, m - n < i → i ≤ m → S i) :
    Reads S (scanDownR table type n m) (scanDown (stabsOf table) type n m) := by
  induction n generalizing m with
  | zero => exact .pure m
  | succ n ih =>
    have hm : S m := hS m (by push_cast; omega) le_rfl
    refine Reads.bind (.read table hm) ?_
    rw [scanDown]
    by_cases h : IsType (stabsOf table) type m
    · have h' : ((table m).nType.toNat : ℤ) = type := h
      rw [if_neg (not_not.mpr h), if_neg (not_not.mpr h')]
      exact .pure m
    · have h' : ((table m).nType.toNat : ℤ) ≠ type := h
      rw [if_pos h, if_pos h']
      exact ih fun i hi hi' => hS i (by push_cast; omega) (by omega)

theorem reads_roundR (type : ℤ) (hle : x.l ≤ x.r) (hS : ∀ i, x.l ≤ i → i ≤ x.r → S i) :
    Reads S (roundR table type x) (round (stabsOf table) type x) := by
  have hmid : x.l ≤ (x.l + x.r) / 2 ∧ (x.l + x.r) / 2 ≤ x.r := by omega
  have hn : (((x.l + x.r) / 2 + 1 - x.l).toNat : ℤ) = (x.l + x.r) / 2 + 1 - x.l :=
    Int.toNat_of_nonneg (by omega)
  unfold roundR round
  dsimp only
  refine Reads.bind (reads_scanDownR type fun i hi hi' => hS i (by omega) (by omega)) ?_
  have hbounds := le_scanDown (stabsOf table) type ((x.l + x.r) / 2 + 1 - x.l).toNat
    ((x.l + x.r) / 2)
  generalize scanDown (stabsOf table) type ((x.l + x.r) / 2 + 1 - x.l).toNat
    ((x.l + x.r) / 2) = q at hbounds ⊢
  by_cases hlt : q < x.l
  · rw [if_pos hlt, if_pos hlt]
    exact .pure _
  · rw [if_neg hlt, if_neg hlt]
    refine Reads.bind (.read table (hS q (by omega) (by omega))) ?_
    by_cases hv : (table q).nValue < x.addr
    · rw [if_pos hv, if_pos hv]
      exact .pure _
    · rw [if_neg hv, if_neg hv]
      by_cases hv' : x.addr < (table q).nValue
      · rw [if_pos hv', if_pos hv']
        exact .pure _
      · rw [if_neg hv', if_neg hv']
        exact .pure _

/-- The search stays in `[left, right]`. -/
structure InRange (stabs : ℤ → Stab) (type left right : ℤ) (x : Search) : Prop where
  l : left ≤ x.l
  r : x.r ≤ right
  le : x.l ≤ x.r + 1
  regionLeft : left ≤ x.regionLeft ∧ x.regionLeft ≤ x.l
  regionRight : x.regionRight = x.r
  noMatch : x.anyMatches = false → x.regionLeft = left ∧ x.r = right ∧
    ∀ i, left ≤ i → i < x.l → ¬ IsType stabs type i
  anyMatch : x.anyMatches = true → ∃ i, left ≤ i ∧ i ≤ right ∧ IsType stabs type i
  leftType : x.regionLeft = left ∨ IsType stabs type x.regionLeft

theorem inRange_start (hle : left ≤ right + 1) (addr : Word) :
    InRange stabs type left right ⟨left, right, addr, left, right, false⟩ :=
  ⟨le_rfl, le_rfl, hle, ⟨le_rfl, le_rfl⟩, rfl,
    fun _ => ⟨rfl, rfl, fun i hi hi' => absurd hi' (by dsimp only; omega)⟩,
    fun h => absurd h Bool.false_ne_true, Or.inl rfl⟩

theorem InRange.round (h : InRange stabs type left right x) (hle : x.l ≤ x.r) :
    InRange stabs type left right (round stabs type x) := by
  obtain ⟨hl, hr, -, hregion, hright, hno, hany, htype⟩ := h
  rcases round_cases stabs type hle with ⟨hnone, hround⟩ | ⟨q, hq, hcase⟩
  · rw [hround]
    refine ⟨by dsimp only; omega, hr, by dsimp only; omega,
      ⟨hregion.1, by dsimp only; omega⟩, hright, fun hf => ?_, hany, htype⟩
    obtain ⟨hleft, hend, hskip⟩ := hno hf
    refine ⟨hleft, hend, fun i hi hi' => ?_⟩
    dsimp only at hi'
    rcases lt_or_ge i x.l with hlt | hge
    · exact hskip i hi hlt
    · exact hnone i hge (by omega)
  · have hqge := hq.ge
    have hqle := hq.le
    have hex : ∃ i, left ≤ i ∧ i ≤ right ∧ IsType stabs type i :=
      ⟨q, by omega, by omega, hq.isType⟩
    rcases hcase with ⟨-, hround⟩ | ⟨-, hround⟩ | ⟨-, hround⟩
    · rw [hround]
      exact ⟨by dsimp only; omega, hr, by dsimp only; omega,
        ⟨by dsimp only; omega, by dsimp only; omega⟩, hright,
        fun hf => absurd hf.symm Bool.false_ne_true, fun _ => hex, Or.inr hq.isType⟩
    · rw [hround]
      exact ⟨hl, by dsimp only; omega, by dsimp only; omega, hregion, rfl,
        fun hf => absurd hf.symm Bool.false_ne_true, fun _ => hex, htype⟩
    · rw [hround]
      exact ⟨by dsimp only; omega, hr, by dsimp only; omega,
        ⟨by dsimp only; omega, le_rfl⟩, hright, fun hf => absurd hf.symm Bool.false_ne_true,
        fun _ => hex, Or.inr hq.isType⟩

theorem InRange.rounds (h : InRange stabs type left right x) (hr : Rounds stabs type x y) :
    InRange stabs type left right y := by
  induction hr with
  | refl => exact h
  | tail _ hstep ih =>
    obtain ⟨hle, rfl⟩ := hstep
    exact ih.round hle

/-! ## The search ends -/

/-- The probe of the next round is at the address. -/
def Hits (stabs : ℤ → Stab) (type : ℤ) (x : Search) : Prop :=
  ∃ q, LastIn stabs type x.l ((x.l + x.r) / 2) q ∧ (stabs q).nValue = x.addr

/-- **Every search ends.**  A round makes the interval shorter, or it is a hit at the left end,
and the next round is none. -/
theorem exists_rounds (stabs : ℤ → Stab) (type : ℤ) (x : Search) :
    ∃ y, Rounds stabs type x y ∧ y.r < y.l := by
  classical
  induction hn : 2 * (x.r + 1 - x.l).toNat + (if Hits stabs type x then 1 else 0)
    using Nat.strong_induction_on generalizing x with
  | _ n ih =>
    by_cases hdone : x.r < x.l
    · exact ⟨x, .refl, hdone⟩
    have hle : x.l ≤ x.r := by omega
    have hshort : ∀ z : Search, Kdebug.round stabs type x = z → z.r - z.l < x.r - x.l →
        ∃ y, Rounds stabs type x y ∧ y.r < y.l := by
      intro z hz hlt
      have hmeasure : 2 * (z.r + 1 - z.l).toNat + (if Hits stabs type z then 1 else 0) < n := by
        rw [← hn]
        split
        · omega
        · omega
      obtain ⟨y, hy, hend⟩ := ih _ hmeasure z rfl
      exact ⟨y, hy.round hle hz, hend⟩
    rcases round_cases stabs type hle with ⟨-, hround⟩ | ⟨q, hq, hcase⟩
    · exact hshort _ hround (by dsimp only; omega)
    have hqge := hq.ge
    have hqle := hq.le
    rcases hcase with ⟨-, hround⟩ | ⟨-, hround⟩ | ⟨hv, hround⟩
    · exact hshort _ hround (by dsimp only; omega)
    · exact hshort _ hround (by dsimp only; omega)
    · by_cases hql : x.l < q
      · exact hshort _ hround (by dsimp only; omega)
      · -- the interval stays, but the stab is no longer at the address
        obtain rfl : q = x.l := by omega
        have hhit : Hits stabs type x := ⟨x.l, hq, hv⟩
        have hmiss : ¬ Hits stabs type (Kdebug.round stabs type x) := by
          rw [hround]
          rintro ⟨q', hq', hv'⟩
          have heq := hq.unique hq'
          subst heq
          dsimp only at hv'
          rw [hv] at hv'
          simp at hv'
        rw [if_pos hhit] at hn
        obtain ⟨y, hy, hend⟩ := ih _ (by rw [if_neg hmiss, hround]; dsimp only; omega)
          (Kdebug.round stabs type x) rfl
        exact ⟨y, hy.round hle rfl, hend⟩

theorem exists_ends (stabs : ℤ → Stab) (type : ℤ) (x : Search) : ∃ out, Ends stabs type x out := by
  obtain ⟨y, hy, hend⟩ := exists_rounds stabs type x
  exact ⟨_, y, hy, hend, rfl⟩

theorem Rounds.eq_of_done (h : Rounds stabs type x y) (hdone : x.r < x.l) : y = x := by
  cases h using Relation.ReflTransGen.head_induction_on with
  | refl => rfl
  | head hstep => exact absurd hstep.1 (by omega)

theorem Rounds.unique {z : Search} (hy : Rounds stabs type x y) (hend : y.r < y.l)
    (hz : Rounds stabs type x z) (hend' : z.r < z.l) : y = z := by
  obtain ⟨n, hn⟩ := hy.loop hend
  obtain ⟨n', hn'⟩ := hz.loop hend'
  exact Option.some.inj ((hn (max n n') (le_max_left _ _)).symm.trans (hn' _ (le_max_right _ _)))

theorem Ends.unique {out' : ℤ × ℤ} (h : Ends stabs type x out) (h' : Ends stabs type x out') :
    out = out' := by
  obtain ⟨y, hy, hend, rfl⟩ := h
  obtain ⟨z, hz, hend', rfl⟩ := h'
  rw [hy.unique hend hz hend']

/-! ## What it reads -/

theorem reads_loopR_of_done (h : x.r < x.l) (fuel : ℕ) : Reads S (loopR table type fuel x) x := by
  cases fuel with
  | zero =>
    rw [loopR, if_neg (by omega)]
    exact .pure _
  | succ fuel =>
    rw [loopR, if_neg (by omega)]
    exact .pure _

theorem reads_loopR (h : InRange (stabsOf table) type left right x)
    (hS : ∀ i, left ≤ i → i ≤ right → S i)
    (hr : Rounds (stabsOf table) type x y) (hy : y.r < y.l) :
    ∃ n, ∀ fuel, n ≤ fuel → Reads S (loopR table type fuel x) y := by
  induction hr using Relation.ReflTransGen.head_induction_on with
  | refl => exact ⟨0, fun fuel _ => reads_loopR_of_done hy fuel⟩
  | @head x z hstep _ ih =>
    obtain ⟨hle, rfl⟩ := hstep
    obtain ⟨n, hn⟩ := ih (h.round hle)
    refine ⟨n + 1, fun fuel hfuel => ?_⟩
    obtain ⟨fuel, rfl⟩ : ∃ f, fuel = f + 1 := ⟨fuel - 1, by omega⟩
    rw [loopR, if_pos hle]
    have hl := h.l
    have hr := h.r
    exact Reads.bind (reads_roundR type hle fun i hi hi' => hS i (by omega) (by omega))
      (hn fuel (by omega))

theorem reads_fixUpR (h : InRange (stabsOf table) type left right x)
    (hS : ∀ i, left ≤ i → i ≤ right → S i) :
    Reads S (fixUpR table type x) (fixUp (stabsOf table) type x) := by
  unfold fixUpR fixUp
  by_cases hany : x.anyMatches = true
  · rw [if_neg (not_not.mpr hany), if_neg (not_not.mpr hany)]
    have hleft := h.regionLeft
    have hright := h.regionRight
    have hr := h.r
    refine Reads.bind (reads_scanDownR type fun i hi hi' => hS i ?_ (by omega)) (.pure _)
    rcases le_or_gt x.regionLeft x.regionRight with hle | hgt
    · rw [Int.toNat_of_nonneg (by omega)] at hi
      omega
    · rw [Int.toNat_of_nonpos (by omega)] at hi
      push_cast at hi
      omega
  · rw [if_pos hany, if_pos hany]
    exact .pure _

/-- **The search reads inside of its range**, and does what `stabBinsearch` does. -/
theorem reads_stabBinsearchR (hS : ∀ i, left ≤ i → i ≤ right → S i)
    (h : Ends (stabsOf table) type ⟨left, right, addr, left, right, false⟩ out) :
    ∃ n, ∀ fuel, n ≤ fuel → Reads S (stabBinsearchR table type fuel left right addr) out := by
  obtain ⟨y, hy, hend, rfl⟩ := h
  by_cases hempty : right < left
  · -- there is nothing to search, whatever the right end is
    obtain rfl := hy.eq_of_done hempty
    exact ⟨0, fun fuel _ => (reads_loopR_of_done hempty fuel).bind (.pure _)⟩
  have hle : left ≤ right + 1 := by omega
  have hstart : InRange (stabsOf table) type left right _ := inRange_start hle addr
  obtain ⟨n, hn⟩ := reads_loopR hstart hS hy hend
  exact ⟨n, fun fuel hfuel => (hn fuel hfuel).bind (reads_fixUpR (hstart.rounds hy) hS)⟩

/-- The size of `struct Stab`. -/
def sizeofStab : ℤ := 12

/-- **Every search returns**, whatever the table is, and reads inside of its range.  A table
that fits into the address space is small enough for the sums `l + r`: each is an `int`. -/
theorem stabBinsearch_returns (table : ℤ → StabEntry) (type left right size : ℤ) (addr : Word)
    (hleft : 0 ≤ left) (hright : right < size) :
    (∃ out n, ∀ fuel, n ≤ fuel →
      Reads (fun i => left ≤ i ∧ i ≤ right) (stabBinsearchR table type fuel left right addr) out) ∧
    (size * sizeofStab ≤ 2 ^ 32 →
      ∀ x, Rounds (stabsOf table) type ⟨left, right, addr, left, right, false⟩ x → x.l ≤ x.r →
        0 ≤ x.l + x.r ∧ x.l + x.r < 2 ^ 31) := by
  constructor
  · obtain ⟨out, hout⟩ := exists_ends (stabsOf table) type ⟨left, right, addr, left, right, false⟩
    exact ⟨out, reads_stabBinsearchR (fun i hi hi' => ⟨hi, hi'⟩) hout⟩
  · intro hsize x hx hlr
    have hle : left ≤ right + 1 := by
      by_contra hgt
      obtain rfl := hx.eq_of_done (by dsimp only; omega)
      dsimp only at hlr
      omega
    have hin : InRange (stabsOf table) type left right x := (inRange_start hle addr).rounds hx
    have hl := hin.l
    have hr := hin.r
    unfold sizeofStab at hsize
    omega

/-- An unordered table whose stabs all have the last address of all. -/
theorem stabBinsearch_returns_allOnes : ∃ out n, ∀ fuel, n ≤ fuel →
    Reads (fun i => 0 ≤ i ∧ i ≤ 2)
      (stabBinsearchR (fun _ => ⟨⟨0x24#8, BitVec.allOnes 32⟩, 0#32, 0#16⟩) nFun fuel 0 2
        (BitVec.allOnes 32)) out :=
  (stabBinsearch_returns _ nFun 0 2 3 (BitVec.allOnes 32) (by decide) (by decide)).1

/-! ## What it returns -/

/-- The bisection of `[left, r]` goes back to `left`, and even that stab is behind `addr`. -/
inductive FallsOff (stabs : ℤ → Stab) (type left : ℤ) (addr : Word) : ℤ → Prop
  /-- The probe finds the stab at `left`. -/
  | first {r : ℤ} : LastIn stabs type left ((left + r) / 2) left → addr < (stabs left).nValue →
      FallsOff stabs type left addr r
  /-- It finds that stab at the last address of all, and the next address is zero. -/
  | wraps {r : ℤ} : LastIn stabs type left ((left + r) / 2) left → (stabs left).nValue = addr →
      addr = BitVec.allOnes 32 → FallsOff stabs type left addr r
  /-- It finds a later stab, and the search goes on before it. -/
  | before {r q : ℤ} : LastIn stabs type left ((left + r) / 2) q → left < q →
      addr < (stabs q).nValue → FallsOff stabs type left addr (q - 1) →
      FallsOff stabs type left addr r

theorem FallsOff.isType {r : ℤ} (h : FallsOff stabs type left addr r) :
    IsType stabs type left ∧ left ≤ r := by
  induction h with
  | first hq =>
    have hle := hq.le
    exact ⟨hq.isType, by omega⟩
  | wraps hq =>
    have hle := hq.le
    exact ⟨hq.isType, by omega⟩
  | before hq hlt _ _ ih =>
    have hle := hq.le
    exact ⟨ih.1, by omega⟩

/-- The interval gets shorter on both sides. -/
theorem Rounds.mono (h : Rounds stabs type x y) (hle : x.l ≤ x.r + 1) :
    x.l ≤ y.l ∧ y.l ≤ y.r + 1 ∧ y.r ≤ x.r := by
  induction h with
  | refl => exact ⟨le_rfl, hle, le_rfl⟩
  | @tail y z _ hstep ih =>
    obtain ⟨hlr, rfl⟩ := hstep
    rcases round_cases stabs type hlr with ⟨-, hround⟩ | ⟨q, hq, hcase⟩
    · rw [hround]
      dsimp only
      omega
    · have hqge := hq.ge
      have hqle := hq.le
      rcases hcase with ⟨-, hround⟩ | ⟨-, hround⟩ | ⟨-, hround⟩
      all_goals
        rw [hround]
        dsimp only
        omega

/-- The first round, of a search that ends. -/
theorem Rounds.head (h : Rounds stabs type x y) (hle : x.l ≤ x.r) (hend : y.r < y.l) :
    Rounds stabs type (Kdebug.round stabs type x) y := by
  cases h using Relation.ReflTransGen.head_induction_on with
  | refl => omega
  | head hstep hrest =>
    obtain ⟨-, rfl⟩ := hstep
    exact hrest

theorem FallsOff.exists_rounds (h : FallsOff stabs type left x.addr r) (hl : x.l = left)
    (hr : x.r = r) (hregion : x.regionLeft = left) (hright : x.regionRight = x.r) :
    ∃ y, Rounds stabs type x y ∧ y.l = left ∧ y.regionRight = left - 1 ∧ y.r = left - 1 ∧
      y.regionLeft = left ∧ y.anyMatches = true := by
  generalize ha : x.addr = a at h
  induction h generalizing x with
  | @first r hq hv =>
    have hqle := hq.le
    have hle : x.l ≤ x.r := by omega
    subst hl hr ha
    exact ⟨_, Rounds.round hle (round_of_behind hle hq hv) .refl, rfl, rfl, rfl, hregion, rfl⟩
  | @wraps r hq hv hmax =>
    have hqle := hq.le
    have hle : x.l ≤ x.r := by omega
    subst hl hr ha
    have hround := round_of_hit hle hq hv
    -- the second round finds the same stab, and the address is zero
    have hzero : x.addr + 1#32 = 0#32 := by
      rw [hmax]
      decide
    have hpos : x.addr + 1#32 < (stabs x.l).nValue := by
      rw [hzero, hv, hmax]
      decide
    have hround' := round_of_behind
      (x := { x with anyMatches := true, regionLeft := x.l, addr := x.addr + 1#32 }) hle hq hpos
    exact ⟨_, Rounds.round hle hround (Rounds.round hle hround' .refl), rfl, rfl, rfl, rfl, rfl⟩
  | @before r q hq hlt hv _ ih =>
    have hqle := hq.le
    have hle : x.l ≤ x.r := by omega
    subst hl hr ha
    obtain ⟨y, hy, hrest⟩ := ih (x := { x with anyMatches := true, regionRight := q - 1, r := q - 1 })
      rfl rfl hregion rfl rfl
    exact ⟨y, hy.round hle (round_of_behind hle hq hv), hrest⟩

theorem fallsOff_of_rounds (h : Rounds stabs type x y) (hend : y.r < y.l) (hl : x.l = left)
    (hle : left ≤ x.r) (hy : y.r < left) : FallsOff stabs type left x.addr x.r := by
  induction hn : (x.r - left).toNat using Nat.strong_induction_on generalizing x with
  | _ n ih =>
    subst hl
    have hhead := h.head hle hend
    -- the left end of the interval has not moved
    have hstay : ∀ z, Kdebug.round stabs type x = z → z.l ≤ z.r + 1 → z.l ≤ x.l := by
      intro z hz hzle
      rw [hz] at hhead
      have hmono := hhead.mono hzle
      omega
    rcases round_cases stabs type hle with ⟨-, hround⟩ | ⟨q, hq, hcase⟩
    · have hle' := hstay _ hround (by dsimp only; omega)
      dsimp only at hle'
      omega
    have hqge := hq.ge
    have hqle := hq.le
    rcases hcase with ⟨-, hround⟩ | ⟨hv, hround⟩ | ⟨hv, hround⟩
    · have hle' := hstay _ hround (by dsimp only; omega)
      dsimp only at hle'
      omega
    · rcases eq_or_lt_of_le hqge with heq | hlt
      · rw [← heq] at hq hv
        exact .first hq hv
      · rw [hround] at hhead
        exact .before hq hlt hv (ih _ (by dsimp only; omega) hhead rfl (by dsimp only; omega) rfl)
    · have hle' := hstay _ hround (by dsimp only; omega)
      dsimp only at hle'
      obtain rfl : q = x.l := by omega
      -- a hit at the left end: the next round must find the stab behind the address
      have hlr : (Kdebug.round stabs type x).l ≤ (Kdebug.round stabs type x).r := by
        rw [hround]
        exact hle
      have hhead' := hhead.head hlr hend
      have hkeep : (Kdebug.round stabs type x).l = x.l ∧ (Kdebug.round stabs type x).r = x.r ∧
          (Kdebug.round stabs type x).addr = x.addr + 1#32 := by
        rw [hround]
        exact ⟨rfl, rfl, rfl⟩
      obtain ⟨hkl, hkr, hka⟩ := hkeep
      have hcases := round_cases stabs type hlr
      rw [hkl, hkr, hka] at hcases
      rcases hcases with ⟨hnone, -⟩ | ⟨q, hq', hcase⟩
      · exact absurd hq.isType (hnone _ le_rfl hq.le)
      obtain rfl := hq.unique hq'
      have hgt : x.addr + 1#32 < x.addr := by
        rcases hcase with ⟨-, hround'⟩ | ⟨hv', -⟩ | ⟨hv', -⟩
        · rw [hround'] at hhead'
          have hmono := hhead'.mono (by dsimp only; omega)
          dsimp only at hmono
          omega
        · rwa [hv] at hv'
        · rw [hv] at hv'
          simp at hv'
      refine .wraps hq hv ?_
      by_contra hmax
      rw [BitVec.lt_def, toNat_succ hmax] at hgt
      omega

theorem FallsOff.value (h : FallsOff stabs type left addr r) :
    addr < (stabs left).nValue ∨ (stabs left).nValue = addr ∧ addr = BitVec.allOnes 32 := by
  induction h with
  | first _ hv => exact Or.inl hv
  | wraps _ hv hmax => exact Or.inr ⟨hv, hmax⟩
  | before _ _ _ _ ih => exact ih

/-- What a search on `[left, right]` returns. -/
inductive Outcome (stabs : ℤ → Stab) (type left right : ℤ) (addr : Word) : ℤ × ℤ → Prop
  /-- There is no stab of the type. -/
  | missing : (∀ i, left ≤ i → i ≤ right → ¬ IsType stabs type i) →
      Outcome stabs type left right addr (left, left - 1)
  /-- The index in front of the range. -/
  | fallsOff : FallsOff stabs type left addr right →
      Outcome stabs type left right addr (left - 1, left - 1)
  /-- A region inside of the range. -/
  | found {out : ℤ × ℤ} : (∃ i, left ≤ i ∧ i ≤ right ∧ IsType stabs type i) →
      ¬ FallsOff stabs type left addr right → left ≤ out.1 → out.1 ≤ out.2 → out.2 ≤ right →
      Outcome stabs type left right addr out

/-- **What the search returns**, for every table. -/
theorem Ends.outcome (h : Ends stabs type ⟨left, right, addr, left, right, false⟩ out) :
    Outcome stabs type left right addr out := by
  obtain ⟨y, hy, hend, rfl⟩ := h
  by_cases hempty : right < left
  · obtain rfl := hy.eq_of_done hempty
    exact .missing fun i hi hi' => absurd hi' (by omega)
  have hle : left ≤ right + 1 := by omega
  have hstart : InRange stabs type left right _ := inRange_start hle addr
  obtain ⟨hl, hr, hyle, hregion, hright, hno, hany, -⟩ := hstart.rounds hy
  by_cases hm : y.anyMatches = true
  · have hex := hany hm
    rw [fixUp_of_any hm, hright]
    by_cases hoff : y.r < left
    · obtain ⟨i, hi, hi', -⟩ := hex
      have hlr : left ≤ right := by omega
      have hfalls := fallsOff_of_rounds hy hend rfl hlr hoff
      rw [Int.toNat_of_nonpos (by omega), scanDown, show y.r = left - 1 by omega]
      exact .fallsOff hfalls
    · have hb := le_scanDown stabs type (y.r - y.regionLeft).toNat y.r
      refine .found hex (fun hfalls => ?_) ?_ hb.2 hr
      · obtain ⟨z, hz, hzl, -, hzr, -⟩ := hfalls.exists_rounds
          (x := ⟨left, right, addr, left, right, false⟩) rfl rfl rfl rfl
        rw [hy.unique hend hz (by omega)] at hoff
        omega
      · dsimp only
        rcases le_or_gt y.regionLeft y.r with hle' | hgt
        · rw [Int.toNat_of_nonneg (by omega)] at hb
          omega
        · rw [Int.toNat_of_nonpos (by omega), scanDown]
          omega
  · have hm := Bool.eq_false_iff.mpr hm
    obtain ⟨hleft, hend', hskip⟩ := hno hm
    have hout : fixUp stabs type y = (left, left - 1) := by
      rw [fixUp, hm, hleft]
      rfl
    rw [hout]
    exact .missing fun i hi hi' => hskip i hi (by omega)

/-! ## A stab at the last address of all -/

/-- The first stab that the bisection of `[l, r]` finds is the one at `k`. -/
inductive ComesTo (stabs : ℤ → Stab) (type k : ℤ) : ℤ → ℤ → Prop
  /-- The probe finds it. -/
  | here {l r : ℤ} : LastIn stabs type l ((l + r) / 2) k → ComesTo stabs type k l r
  /-- The search goes on behind the middle. -/
  | behind {l r : ℤ} : (l + r) / 2 < k → ComesTo stabs type k ((l + r) / 2 + 1) r →
      ComesTo stabs type k l r

/-- The search hits the stab at `k`, which is at the last address of all and the first in the
range, and goes back in front of it. -/
structure Retreats (stabs : ℤ → Stab) (type left right : ℤ) (addr : Word) (k : ℤ) : Prop where
  comes : ComesTo stabs type k left right
  value : (stabs k).nValue = addr
  max : addr = BitVec.allOnes 32
  falls : FallsOff stabs type k 0#32 right

theorem ComesTo.le (h : ComesTo stabs type k l r) : k ≤ r ∧ l ≤ k := by
  induction h with
  | here hq =>
    have hge := hq.ge
    have hle := hq.le
    omega
  | behind hlt _ ih => omega

theorem ComesTo.exists_rounds (h : ComesTo stabs type k l r) (hl : x.l = l) (hr : x.r = r)
    (hno : ∀ i, l ≤ i → i < k → ¬ IsType stabs type i) (hv : (stabs k).nValue = x.addr) :
    ∃ y, Rounds stabs type x y ∧ y.l = k ∧ y.r = x.r ∧ y.addr = x.addr + 1#32 ∧
      y.regionLeft = k ∧ y.regionRight = x.regionRight := by
  induction h generalizing x with
  | @here l r hq =>
    have hge := hq.ge
    have hqle := hq.le
    have hle : x.l ≤ x.r := by omega
    subst hl hr
    exact ⟨_, Rounds.round hle (round_of_hit hle hq hv) .refl, rfl, rfl, rfl, rfl, rfl⟩
  | @behind l r hlt hrest ih =>
    have hle : x.l ≤ x.r := by
      have := hrest.le
      omega
    subst hl hr
    have hround := round_of_none hle fun i hi hi' => hno i hi (by omega)
    obtain ⟨y, hy, hrest⟩ := ih (x := { x with l := (x.l + x.r) / 2 + 1 }) rfl rfl
      (fun i hi => hno i (by omega)) hv
    exact ⟨y, hy.round hle hround, hrest⟩

theorem Retreats.ends (h : Retreats stabs type left right addr k)
    (hno : ∀ i, left ≤ i → i < k → ¬ IsType stabs type i) :
    Ends stabs type ⟨left, right, addr, left, right, false⟩ (k - 1, k - 1) := by
  obtain ⟨hcomes, hv, hmax, hfalls⟩ := h
  obtain ⟨y, hy, hyl, hyr, hya, hyleft, hyright⟩ := hcomes.exists_rounds
    (x := ⟨left, right, addr, left, right, false⟩) rfl rfl hno hv
  have hzero : y.addr = 0#32 := by
    rw [hya]
    show addr + 1#32 = 0#32
    rw [hmax]
    decide
  rw [← hzero] at hfalls
  obtain ⟨z, hz, hzl, hzright, hzr, hzleft, hzany⟩ := hfalls.exists_rounds hyl hyr hyleft
    (by rw [hyright, hyr])
  refine ⟨z, Relation.ReflTransGen.trans hy hz, by omega, ?_⟩
  rw [fixUp_of_any hzany, hzleft, hzright, Int.toNat_of_nonpos (by omega), scanDown]

end

end Kdebug
end PmakeOs
