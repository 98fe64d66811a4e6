import PmakeOs.Debug.Stabs
import Mathlib.Tactic.IntervalCases

/-!
# What `stab_binsearch` finds

The bisection cuts the interval at the first stab behind the address, and from there the
last walk goes back to the stab that contains it.  Three things go wrong:

* if there are stabs of the type and all lie behind the address, the last walk ends at or
  before the right end of the region, so that the region is not empty;
* a hit at the last address of all makes the address wrap to zero, and the stab just hit
  lies behind it;
* a hit at `j` with a stab at the next address still ahead ends at that stab or behind it.
  There is one exception, at the end of the address space: `brackets_of_fallback`.

`stabBinsearch_finds` says that nothing else does.
-/

namespace PmakeOs
namespace Kdebug

variable {stabs : ℤ → Stab} {type left right r i j k : ℤ} {addr a : Word} {x y : Search}

/-! ## The result -/

/-- The search from `x` ends with the result `out`. -/
def Ends (stabs : ℤ → Stab) (type : ℤ) (x : Search) (out : ℤ × ℤ) : Prop :=
  ∃ y, Rounds stabs type x y ∧ y.r < y.l ∧ fixUp stabs type y = out

theorem Rounds.ends {out : ℤ × ℤ} (h : Rounds stabs type x y) (hy : Ends stabs type y out) :
    Ends stabs type x out := by
  obtain ⟨z, hz, hdone, hout⟩ := hy
  exact ⟨z, Relation.ReflTransGen.trans h hz, hdone, hout⟩

theorem Cut.ends (h : Cut stabs type x y) : Ends stabs type x (fixUp stabs type y) :=
  ⟨y, h.rounds, h.done, rfl⟩

/-- There is one result. -/
theorem finds_iff {out : ℤ × ℤ} (h : Ends stabs type ⟨left, right, addr, left, right, false⟩ out) :
    Finds stabs left right type addr ↔ Brackets stabs left right type addr out := by
  obtain ⟨y, hy, hdone, rfl⟩ := h
  obtain ⟨n, hn⟩ := hy.loop hdone
  have hrun : ∀ fuel, n ≤ fuel →
      stabBinsearch fuel stabs left right type addr = some (fixUp stabs type y) := by
    intro fuel hfuel
    rw [stabBinsearch, hn fuel hfuel]
    rfl
  constructor
  · rintro ⟨out, ⟨n', hn'⟩, hb⟩
    have heq := (hrun (max n n') (le_max_left _ _)).symm.trans (hn' _ (le_max_right _ _))
    rwa [Option.some.inj heq]
  · exact fun hb => ⟨_, ⟨n, hrun⟩, hb⟩

theorem fixUp_of_any (h : y.anyMatches = true) : fixUp stabs type y =
    (scanDown stabs type (y.regionRight - y.regionLeft).toNat y.regionRight, y.regionRight) := by
  rw [fixUp, h]
  rfl

/-- The last walk does not pass the left end of the region. -/
theorem le_fixUp (h : y.anyMatches = true) (hle : y.regionLeft ≤ y.regionRight) :
    y.regionLeft ≤ (fixUp stabs type y).1 := by
  have hb := le_scanDown stabs type (y.regionRight - y.regionLeft).toNat y.regionRight
  rw [fixUp_of_any h]
  dsimp only
  omega

/-- An interval that is cut at the right place gives the right result. -/
theorem brackets_fixUp (hany : y.anyMatches = true) (hreg : y.regionRight = y.r)
    (hle : y.r ≤ right)
    (hlow : ∀ i, left ≤ i → i ≤ y.r → IsType stabs type i → (stabs i).nValue ≤ addr)
    (hhigh : ∀ i, y.r < i → i ≤ right → IsType stabs type i → addr < (stabs i).nValue)
    (hend : y.r = right ∨ IsType stabs type (y.r + 1))
    (hleft : left ≤ y.regionLeft ∧ y.regionLeft ≤ y.r)
    (htype : y.regionLeft = left ∨ IsType stabs type y.regionLeft)
    (hex : ∃ i, Below stabs left right type addr i) :
    Brackets stabs left right type addr (fixUp stabs type y) := by
  rw [fixUp_of_any hany, hreg]
  have hn : ((y.r - y.regionLeft).toNat : ℤ) = y.r - y.regionLeft :=
    Int.toNat_of_nonneg (by omega)
  have hbounds := le_scanDown stabs type (y.r - y.regionLeft).toNat y.r
  have hq := isType_scanDown stabs type (y.r - y.regionLeft).toNat y.r
  have hskip : ∀ i, scanDown stabs type (y.r - y.regionLeft).toNat y.r < i → i ≤ y.r →
      ¬ IsType stabs type i := fun i hi hi' => not_isType_of_scanDown hi hi'
  generalize scanDown stabs type (y.r - y.regionLeft).toNat y.r = q at hbounds hq hskip
  rw [hn] at hbounds hq
  have hlast : ∀ i, Below stabs left right type addr i → i ≤ q := by
    intro i hi
    obtain ⟨hil, hir, hti, hvi⟩ := hi
    by_contra hlt
    have hiy : i ≤ y.r := by
      by_contra hgt
      exact absurd hvi (BitVec.not_le.mpr (hhigh i (by omega) hir hti))
    exact hskip i (by omega) hiy hti
  have hqt : IsType stabs type q := by
    rcases hq with hq | hq
    · rcases htype with hl | ht
      · -- the walk went to the left end, so a stab below the address can only be there
        obtain ⟨i, hi⟩ := hex
        have hiq := hlast i hi
        obtain ⟨hil, -, hti, -⟩ := hi
        obtain rfl : i = q := by omega
        exact hti
      · rw [show q = y.regionLeft by omega]
        exact ht
    · exact hq
  refine ⟨fun _ => ⟨by dsimp only; omega, by dsimp only; omega, hqt, ?_⟩, hlast, fun _ => ⟨hskip, ?_⟩,
    fun h => absurd hex h⟩
  · exact hlow q (by omega) (by omega) hqt
  · rcases eq_or_lt_of_le hle with h | h
    · exact Or.inl h
    · exact Or.inr ⟨by dsimp only; omega, h, hend.resolve_left (by omega)⟩

/-! ## Going on from an exact hit -/

/-- The search goes on from a stab that has been hit. -/
structure Resumed (stabs : ℤ → Stab) (type : ℤ) (x : Search) (j : ℤ) : Prop where
  l : x.l = j
  left : x.regionLeft = j
  region : x.regionRight = x.r
  any : x.anyMatches = true
  ge : j ≤ x.r
  isType : IsType stabs type j
  sorted : Sorted stabs type x.l x.r

theorem Hit.resumed (h : Hit stabs type x y j) (hinc : Sorted stabs type x.l x.r)
    (hjl : x.l ≤ j) (hj : IsType stabs type j) : Resumed stabs type y j :=
  ⟨h.l, h.left, h.region, h.any, h.ge, hj, hinc.sub (by rw [h.l]; exact hjl) h.le⟩

theorem Resumed.exists_cut (h : Resumed stabs type x j)
    (hno : ∀ i, x.l ≤ i → i ≤ x.r → IsType stabs type i → (stabs i).nValue ≠ x.addr) :
    ∃ y, Cut stabs type x y ∧ y.anyMatches = true ∧ j ≤ y.regionLeft := by
  have hl := h.l
  have hge := h.ge
  obtain ⟨y, hy⟩ := Kdebug.exists_cut h.sorted h.region (by omega) hno
  refine ⟨y, hy, hy.any.mpr (Or.inl h.any), ?_⟩
  rcases hy.left with h' | ⟨h', -⟩
  · rw [h', h.left]
  · omega

/-- After a hit at the last address of all, the address is zero, and the stab just hit
lies behind it. -/
theorem Resumed.ends_of_zero (h : Resumed stabs type x j) (hv : (stabs j).nValue = BitVec.allOnes 32)
    (haddr : x.addr = 0#32) : Ends stabs type x (j - 1, j - 1) := by
  have hl := h.l
  have hge := h.ge
  have hall : ∀ i, x.l ≤ i → i ≤ x.r → IsType stabs type i →
      (stabs i).nValue = BitVec.allOnes 32 := by
    intro i hi hi' ht
    rcases eq_or_lt_of_le hi with heq | hlt
    · rw [← heq, hl, hv]
    · have hle := h.sorted j i (by omega) (by omega) hi' h.isType ht
      rw [hv, BitVec.le_def, BitVec.toNat_allOnes] at hle
      have hb := (stabs i).nValue.isLt
      apply BitVec.eq_of_toNat_eq
      rw [BitVec.toNat_allOnes]
      omega
  obtain ⟨y, hy, hany, hleft⟩ := h.exists_cut fun i hi hi' ht => by
    rw [hall i hi hi' ht, haddr]
    decide
  have hyge := hy.ge
  have hylt : y.r < j := by
    by_contra hjy
    have hlt := hy.below j (by omega) (by omega) h.isType
    rw [haddr] at hlt
    exact absurd hlt (by simp [BitVec.lt_def])
  have hout : fixUp stabs type y = (j - 1, j - 1) := by
    rw [fixUp_of_any hany, hy.region, Int.toNat_of_nonpos (by omega), scanDown]
    rw [show y.r = j - 1 by omega]
  rw [← hout]
  exact hy.ends

theorem toNat_succ (h : a ≠ BitVec.allOnes 32) : (a + 1#32).toNat = a.toNat + 1 := by
  have hne : a.toNat ≠ 2 ^ 32 - 1 := by
    intro h'
    apply h
    apply BitVec.eq_of_toNat_eq
    rw [h', BitVec.toNat_allOnes]
  have ha := a.isLt
  rw [BitVec.toNat_add, show (1#32 : Word).toNat = 1 from rfl]
  omega

/-- The search does not come back behind a stab before the address. -/
theorem Resumed.exists_ends (h : Resumed stabs type x j) (hlt : (stabs j).nValue < x.addr) :
    ∃ out, Ends stabs type x out ∧ j ≤ out.1 := by
  induction hn : (x.r - x.l).toNat using Nat.strong_induction_on generalizing x j with
  | _ n ih =>
    have hl := h.l
    have hge := h.ge
    by_cases hno : ∀ i, x.l ≤ i → i ≤ x.r → IsType stabs type i → (stabs i).nValue ≠ x.addr
    · obtain ⟨y, hy, hany, hleft⟩ := h.exists_cut hno
      refine ⟨_, hy.ends, hleft.trans (le_fixUp hany ?_)⟩
      rw [hy.region]
      have hjy : j ≤ y.r := by
        rcases hy.above with heq | ⟨ht, hv⟩
        · omega
        · have hyge := hy.ge
          have hyle := hy.le
          by_contra hlt'
          rw [show y.r + 1 = j by omega] at hv
          exact BitVec.lt_asymm hlt hv
      rcases hy.left with heq | ⟨-, hle, -⟩
      · rw [heq, h.left]
        exact hjy
      · exact hle
    · -- another exact hit, at a later stab
      push Not at hno
      obtain ⟨k, hkl, hkr, hkt, hkv⟩ := hno
      obtain ⟨y, k, hkl, hkr, hkt, hkv, hy⟩ := exists_hit h.sorted h.region hkl hkr hkt hkv
      have hjk : j < k := h.sorted.lt_of_value_lt h.ge h.isType hkl hkt (by rwa [hkv])
      have hres := hy.resumed h.sorted hkl hkt
      by_cases hmax : x.addr = BitVec.allOnes 32
      · refine ⟨_, hy.rounds.ends (hres.ends_of_zero (hkv.trans hmax) ?_), ?_⟩
        · rw [hy.addr, hmax]
          decide
        · dsimp only
          omega
      · have hyl := hy.l
        have hyle := hy.le
        have hyge := hy.ge
        obtain ⟨out, hout, hkout⟩ := ih _ (by omega) hres (by
          rw [BitVec.lt_def, hkv, hy.addr, toNat_succ hmax]
          omega) rfl
        exact ⟨out, hy.rounds.ends hout, by omega⟩

/-! ## When the search finds the stab -/

/-- Stabs behind the cut are behind the address. -/
theorem Sorted.lt_of_cut (hinc : Sorted stabs type left right) (hl : left ≤ r + 1)
    (hcut : r = right ∨ IsType stabs type (r + 1) ∧ a < (stabs (r + 1)).nValue) (hri : r < i)
    (hir : i ≤ right) (ht : IsType stabs type i) : a < (stabs i).nValue := by
  rcases hcut with heq | ⟨htr, hlt⟩
  · omega
  · rcases eq_or_lt_of_le (show r + 1 ≤ i by omega) with heq | hlt'
    · rwa [← heq]
    · have hle := hinc (r + 1) i hl hlt' hir htr ht
      rw [BitVec.le_def] at hle
      rw [BitVec.lt_def] at hlt ⊢
      exact lt_of_lt_of_le hlt hle

/-- Without a stab at the address, the search finds what there is to find.  It cannot
say that all stabs lie behind the address. -/
theorem finds_of_no_hit (hle : left ≤ right) (hinc : Sorted stabs type left right)
    (hno : ∀ i, left ≤ i → i ≤ right → IsType stabs type i → (stabs i).nValue ≠ addr) :
    Finds stabs left right type addr ↔
      ((∃ i, left ≤ i ∧ i ≤ right ∧ IsType stabs type i) →
        ∃ i, Below stabs left right type addr i) := by
  obtain ⟨y, hy⟩ := exists_cut (x := ⟨left, right, addr, left, right, false⟩) hinc rfl
    (by dsimp only; omega) hno
  rw [finds_iff hy.ends]
  have hyge : left - 1 ≤ y.r := hy.ge
  have hyle : y.r ≤ right := hy.le
  by_cases hsome : ∃ i, left ≤ i ∧ i ≤ right ∧ IsType stabs type i
  · have hany : y.anyMatches = true := hy.any.mpr (Or.inr hsome)
    by_cases hex : ∃ i, Below stabs left right type addr i
    · refine ⟨fun _ _ => hex, fun _ => ?_⟩
      have hhigh : ∀ i, y.r < i → i ≤ right → IsType stabs type i → addr < (stabs i).nValue :=
        fun i hi hi' ht => hinc.lt_of_cut (by omega) hy.above hi hi' ht
      have hleft : y.regionLeft = left ∨
          left ≤ y.regionLeft ∧ y.regionLeft ≤ y.r ∧ IsType stabs type y.regionLeft := hy.left
      refine brackets_fixUp hany hy.region hyle
        (fun i hi hi' ht => BitVec.le_of_lt (hy.below i hi hi' ht)) hhigh
        (hy.above.imp_right And.left) ?_ (hleft.imp_right fun h => h.2.2) hex
      obtain ⟨i, hil, hir, hti, hvi⟩ := hex
      have hiy : i ≤ y.r := by
        by_contra hlt
        exact absurd hvi (BitVec.not_le.mpr (hhigh i (by omega) hir hti))
      rcases hleft with h | ⟨h, h', -⟩
      · omega
      · exact ⟨h, h'⟩
    · -- the last walk ends at or before the right end of the region
      refine ⟨fun hb => ?_, fun h => absurd (h hsome) hex⟩
      have hlt := hb.missing hex
      rw [fixUp_of_any hany] at hlt
      have hb' := le_scanDown stabs type (y.regionRight - y.regionLeft).toNat y.regionRight
      dsimp only at hlt
      omega
  · refine ⟨fun _ h => absurd h hsome, fun _ => ?_⟩
    have hany : y.anyMatches = false := by
      rw [Bool.eq_false_iff]
      exact fun h => hsome ((hy.any.mp h).resolve_left (by simp))
    have hout : fixUp stabs type y = (y.regionLeft, y.regionLeft - 1) := by
      rw [fixUp, hany]
      rfl
    have hbelow : ¬ ∃ i, Below stabs left right type addr i :=
      fun ⟨i, hil, hir, hti, _⟩ => hsome ⟨i, hil, hir, hti⟩
    rw [hout]
    exact ⟨fun h => absurd h hbelow, fun i hi => absurd ⟨i, hi⟩ hbelow, fun h => absurd h hbelow,
      fun _ => by dsimp only; omega⟩

/-- With a stab `j` at the address, no other stab below the address is behind it. -/
theorem Brackets.eq_of_hit {out : ℤ × ℤ} (h : Brackets stabs left right type addr out)
    (hinc : Increasing stabs type left right) (hjl : left ≤ j) (hjr : j ≤ right)
    (hj : IsType stabs type j) (hv : (stabs j).nValue = addr) : out.1 = j := by
  have hbj : Below stabs left right type addr j := ⟨hjl, hjr, hj, by rw [hv]; exact BitVec.le_refl _⟩
  obtain ⟨-, hr, ht, hle⟩ := h.below ⟨j, hbj⟩
  have hge := h.last j hbj
  by_contra hne
  have hlt := hinc j out.1 hjl (by omega) hr hj ht
  rw [hv] at hlt
  exact absurd hle (BitVec.not_le.mpr hlt)

/-- The search has cut off the stab for the next address before it hits `j`. -/
theorem brackets_of_hit (hinc : Sorted stabs type left right) (hjl : left ≤ j)
    (hjr : j ≤ right) (hj : IsType stabs type j) (hv : (stabs j).nValue = addr)
    (hmax : addr ≠ BitVec.allOnes 32) (hy : Hit stabs type ⟨left, right, addr, left, right, false⟩ y j)
    (hno : ∀ i, y.l ≤ i → i ≤ y.r → IsType stabs type i → (stabs i).nValue ≠ y.addr) :
    ∃ out, Ends stabs type ⟨left, right, addr, left, right, false⟩ out ∧
      Brackets stabs left right type addr out := by
  have hres := hy.resumed hinc hjl hj
  obtain ⟨z, hz, hany, hleft⟩ := hres.exists_cut hno
  refine ⟨_, hy.rounds.ends hz.ends, ?_⟩
  have hnext : y.addr.toNat = addr.toNat + 1 := by
    rw [hy.addr]
    exact toNat_succ hmax
  have hyl := hy.l
  have hyge := hy.ge
  have hyle : y.r ≤ right := hy.le
  have hzge := hz.ge
  have hzle := hz.le
  have hlow : ∀ i, left ≤ i → i ≤ z.r → IsType stabs type i → (stabs i).nValue ≤ addr := by
    intro i hi hi' ht
    by_cases hij : j ≤ i
    · have hlt := hz.below i (by omega) hi' ht
      rw [BitVec.lt_def, hnext] at hlt
      rw [BitVec.le_def]
      omega
    · rw [← hv]
      exact hinc i j hi (by omega) hjr ht hj
  -- the cut is at the right end, or where the bisection has been before
  have hcut : z.r = right ∨ IsType stabs type (z.r + 1) ∧ addr < (stabs (z.r + 1)).nValue := by
    rcases hz.above with heq | ⟨ht, hlt⟩
    · rw [heq]
      exact hy.above
    · rw [BitVec.lt_def, hnext] at hlt
      exact Or.inr ⟨ht, by rw [BitVec.lt_def]; omega⟩
  have hhigh : ∀ i, z.r < i → i ≤ right → IsType stabs type i → addr < (stabs i).nValue :=
    fun i hi hi' ht => hinc.lt_of_cut (by omega) hcut hi hi' ht
  have hjz : j ≤ z.r := by
    by_contra hlt
    have h := hhigh j (by omega) hjr hj
    rw [hv] at h
    exact BitVec.lt_irrefl _ h
  refine brackets_fixUp hany hz.region (by omega) hlow hhigh (hcut.imp_right And.left) ?_ ?_
    ⟨j, hjl, hjr, hj, by rw [hv]; exact BitVec.le_refl _⟩
  · rcases hz.left with heq | ⟨h, h', -⟩
    · rw [heq, hy.left]
      exact ⟨hjl, hjz⟩
    · exact ⟨by omega, h'⟩
  · rcases hz.left with heq | ⟨-, -, h⟩
    · rw [heq, hy.left]
      exact Or.inr hj
    · exact Or.inr h

/-- The stab for the next address is the next stab. -/
theorem Increasing.neighbours (hinc : Increasing stabs type left right) (hjl : left ≤ j)
    (hjr : j ≤ right) (hj : IsType stabs type j) (hkl : left ≤ k) (hkr : k ≤ right)
    (hk : IsType stabs type k) (hv : (stabs k).nValue.toNat = (stabs j).nValue.toNat + 1) :
    Neighbours stabs type j k := by
  have hjk : j < k := by
    refine hinc.sorted.lt_of_value_lt hjr hj hkl hk ?_
    rw [BitVec.lt_def]
    omega
  refine ⟨hjk, hj, hk, fun i hji hik ht => ?_⟩
  have h₁ := hinc j i hjl hji (by omega) hj ht
  have h₂ := hinc i k (by omega) hik hkr ht hk
  rw [BitVec.lt_def] at h₁ h₂
  omega

theorem Neighbours.straddles (h : Neighbours stabs type j k) (hinc : Increasing stabs type left right)
    (hjl : left ≤ j) (hkr : k ≤ right) (hv : (stabs j).nValue = addr) :
    Straddles stabs type left right addr j k := by
  have hlt := h.lt
  refine ⟨hjl, hlt, hkr, h.first, hv, fun i hi hij ht heq => ?_, h.second, ?_, fun i hi hik ht => ?_⟩
  · have hlt' := hinc i j hi hij (by omega) ht h.first
    rw [heq, hv] at hlt'
    exact BitVec.lt_irrefl _ hlt'
  · rw [← hv]
    exact hinc j k hjl hlt hkr h.first h.second
  · rcases lt_trichotomy i j with hij | rfl | hji
    · rw [← hv]
      exact BitVec.le_of_lt (hinc i j hi hij (by omega) ht h.first)
    · rw [hv]
      exact BitVec.le_refl _
    · exact absurd ht (h.between i hji hik)

/-- The accident at the end of the address space: the search falls back from `j + 1` to
`j`. -/
theorem brackets_of_fallback (hinc : Increasing stabs type left right) (hjl : left ≤ j)
    (hjr : j + 1 ≤ right) (hj : IsType stabs type j) (hv : (stabs j).nValue = addr)
    (hk : IsType stabs type (j + 1)) : Brackets stabs left right type addr (j, j) := by
  have hbj : Below stabs left right type addr j :=
    ⟨hjl, by omega, hj, by rw [hv]; exact BitVec.le_refl _⟩
  refine ⟨fun _ => hbj, fun i hi => ?_, fun _ => ⟨fun i hi hi' => ?_, Or.inr ⟨le_rfl, ?_, hk⟩⟩,
    fun h => absurd ⟨j, hbj⟩ h⟩
  · obtain ⟨-, hir, hti, hvi⟩ := hi
    by_contra hlt
    have h := hinc j i hjl (not_le.mp hlt) hir hj hti
    rw [hv] at h
    exact absurd hvi (BitVec.not_le.mpr h)
  · dsimp only at hi hi'
    omega
  · dsimp only
    omega

theorem finds_of_hit (hinc : Increasing stabs type left right) (hjl : left ≤ j) (hjr : j ≤ right)
    (hj : IsType stabs type j) (hv : (stabs j).nValue = addr) :
    Finds stabs left right type addr ↔ addr ≠ BitVec.allOnes 32 ∧
      ∀ k, left ≤ k → k ≤ right → IsType stabs type k → (stabs k).nValue = addr + 1#32 →
        Harmless stabs left right type addr j k := by
  obtain ⟨y, j', hjl', hjr', hj', hv', hy⟩ :=
    exists_hit (x := ⟨left, right, addr, left, right, false⟩) hinc.sorted rfl hjl hjr hj hv
  obtain rfl : j = j' := hinc.eq_of_value_eq hjl hjr hj hjl' hjr' hj' (hv.trans hv'.symm)
  have hres := hy.resumed hinc.sorted hjl hj
  have hyl := hy.l
  have hyge := hy.ge
  have hyle : y.r ≤ right := hy.le
  have haddr : y.addr = addr + 1#32 := hy.addr
  by_cases hmax : addr = BitVec.allOnes 32
  · have hends := hres.ends_of_zero (hv.trans hmax) (by rw [haddr, hmax]; decide)
    rw [finds_iff (hy.rounds.ends hends)]
    refine ⟨fun hb => ?_, fun h => absurd hmax h.1⟩
    have heq := hb.eq_of_hit hinc hjl hjr hj hv
    dsimp only at heq
    omega
  have hsucc := toNat_succ hmax
  have hnb : ∀ k, left ≤ k → k ≤ right → IsType stabs type k → (stabs k).nValue = addr + 1#32 →
      Neighbours stabs type j k := fun k hkl hkr hkt hkv =>
    hinc.neighbours hjl hjr hj hkl hkr hkt (by rw [hkv, hsucc, hv])
  by_cases hno : ∀ i, y.l ≤ i → i ≤ y.r → IsType stabs type i → (stabs i).nValue ≠ y.addr
  · obtain ⟨out, hends, hb⟩ := brackets_of_hit hinc.sorted hjl hjr hj hv hmax hy hno
    refine ⟨fun _ => ⟨hmax, fun k hkl hkr hkt hkv => ?_⟩, fun _ => (finds_iff hends).mpr hb⟩
    have hk := hnb k hkl hkr hkt hkv
    have hlt := hk.lt
    refine Or.inl ((hy.seen j k (hk.straddles hinc hjl hkr hv)).mp ?_)
    by_contra hle
    exact hno k (by omega) (by omega) hkt (hkv.trans haddr.symm)
  · push Not at hno
    obtain ⟨k, hkl, hkr, hkt, hkv⟩ := hno
    have hk := hnb k (by omega) (by omega) hkt (hkv.trans haddr)
    have hlt := hk.lt
    have hnot : ¬ SeenFirst stabs type j k left right := by
      intro hseen
      have hlt' := (hy.seen j k (hk.straddles hinc hjl (show k ≤ right by omega) hv)).mpr hseen
      omega
    obtain ⟨z, k', hkl', hkr', hkt', hkv', hz⟩ := exists_hit hres.sorted hres.region hkl hkr hkt hkv
    obtain rfl : k = k' := hinc.eq_of_value_eq (by omega) (by omega) hkt (by omega) (by omega) hkt'
      (hkv.trans hkv'.symm)
    have hres' := hz.resumed hres.sorted hkl hkt
    by_cases hmax' : y.addr = BitVec.allOnes 32
    · -- the second hit is at the last address, and the search falls back from it
      have hends := hres'.ends_of_zero (hkv.trans hmax') (by rw [hz.addr, hmax']; decide)
      rw [finds_iff (hy.rounds.ends (hz.rounds.ends hends))]
      constructor
      · intro hb
        have heq := hb.eq_of_hit hinc hjl hjr hj hv
        dsimp only at heq
        refine ⟨hmax, fun k' hkl' hkr' hkt' hkv' => Or.inr ⟨?_, ?_⟩⟩
        · rw [haddr] at hmax'
          rw [← BitVec.add_sub_cancel addr 1#32, hmax']
          decide
        · have hk' := hnb k' hkl' hkr' hkt' hkv'
          by_contra hne
          have hlt' := hk'.lt
          exact hk'.between k (by omega) (by omega) hkt
      · rintro ⟨-, h⟩
        obtain ⟨-, rfl⟩ := (h k (by omega) (by omega) hkt (hkv.trans haddr)).resolve_left hnot
        rw [add_sub_cancel_right]
        exact brackets_of_fallback hinc hjl (by omega) hj hv hkt
    · obtain ⟨out, hends, hout⟩ := hres'.exists_ends (by
        rw [hkv, hz.addr, BitVec.lt_def, toNat_succ hmax']
        omega)
      rw [finds_iff (hy.rounds.ends (hz.rounds.ends hends))]
      constructor
      · intro hb
        have heq := hb.eq_of_hit hinc hjl hjr hj hv
        omega
      · rintro ⟨-, h⟩
        obtain ⟨hend, -⟩ := (h k (by omega) (by omega) hkt (hkv.trans haddr)).resolve_left hnot
        refine absurd ?_ hmax'
        rw [haddr, hend]
        decide

/-- **When `stab_binsearch` does what its comment says.** -/
theorem stabBinsearch_finds (hle : left ≤ right) (hinc : Increasing stabs type left right) :
    Finds stabs left right type addr ↔ FindsWhen stabs left right type addr := by
  by_cases hhit : ∃ j, left ≤ j ∧ j ≤ right ∧ IsType stabs type j ∧ (stabs j).nValue = addr
  · obtain ⟨j, hjl, hjr, hj, hv⟩ := hhit
    rw [finds_of_hit hinc hjl hjr hj hv]
    constructor
    · intro h
      refine ⟨fun _ => ⟨j, hjl, hjr, hj, by rw [hv]; exact BitVec.le_refl _⟩, ?_⟩
      intro j' hjl' hjr' hj' hv'
      obtain rfl : j' = j :=
        hinc.eq_of_value_eq hjl' hjr' hj' hjl hjr hj (hv'.trans hv.symm)
      exact h
    · exact fun h => h.exact j hjl hjr hj hv
  · push Not at hhit
    rw [finds_of_no_hit hle hinc.sorted hhit]
    exact ⟨fun h => ⟨h, fun j hjl hjr hj hv => absurd hv (hhit j hjl hjr hj)⟩, fun h => h.some⟩

/-- Two functions with a line between them. -/
def funStabs (i : ℤ) : Stab :=
  if i = 0 then ⟨0x24#8, 0xF0100000#32⟩
  else if i = 1 then ⟨0x44#8, 0x0C#32⟩
  else ⟨0x24#8, 0xF0100040#32⟩

theorem increasing_funStabs : Increasing funStabs 0x24 0 2 := by
  intro i j hi hij hj hti htj
  have hi' : i ≤ 2 := by omega
  have hj' : 0 ≤ j := by omega
  interval_cases i <;> interval_cases j <;> revert hti htj <;> decide

theorem stabBinsearch_finds_funStabs : Increasing funStabs 0x24 0 2 ∧
    Finds funStabs 0 2 0x24 0xF0100010#32 := by
  refine ⟨increasing_funStabs, (stabBinsearch_finds (by decide) increasing_funStabs).mpr ?_⟩
  refine ⟨fun _ => ⟨0, by decide, by decide, by decide, by decide⟩, fun j hjl hjr _ hv => ?_⟩
  exfalso
  interval_cases j <;> revert hv <;> decide

/-- An address before the first function is not reported as missing. -/
theorem not_stabBinsearch_finds : ¬ ∀ (stabs : ℤ → Stab) (left right type : ℤ) (addr : Word),
    0 ≤ left → left ≤ right → Increasing stabs type left right →
      Finds stabs left right type addr := by
  intro h
  have hfinds := h funStabs 0 2 0x24 0xF00FFFFF#32 (by decide) (by decide) increasing_funStabs
  have hno : ∀ i, 0 ≤ i → i ≤ 2 → IsType funStabs 0x24 i →
      0xF00FFFFF#32 < (funStabs i).nValue := by
    intro i hi hi' hti
    interval_cases i <;> revert hti <;> decide
  have hex := (finds_of_no_hit (by decide) increasing_funStabs.sorted fun i hi hi' hti heq => by
    have hlt := hno i hi hi' hti
    rw [heq] at hlt
    exact BitVec.lt_irrefl _ hlt).mp hfinds ⟨0, by decide, by decide, by decide⟩
  obtain ⟨i, hi, hi', hti, hle⟩ := hex
  exact absurd hle (BitVec.not_le.mpr (hno i hi hi' hti))

end Kdebug
end PmakeOs
