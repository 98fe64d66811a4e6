import PmakeOs.Boot.Addresses
import PmakeOs.Space.SelfMap
import PmakeOs.Trap.UserMemory
import Mathlib.Order.Bounds.Basic

/-!
# What `user_mem_check` should say

The comment above `user_mem_check` says what the answer should be: zero if the address is
below `ULIM` and the page table gives the permission, and otherwise an error with the first
address that fails.  `Accessible` is that test for one byte, with the permission that the
processor derives from both levels, and `ChecksRange` is the whole.

Two things go wrong.  The end of the range is rounded up in 32 bits, so a range that ends in
the last page of memory, or beyond it, ends at zero for the loop, which then looks at no page
or at one.  And the loop looks at table entries only: in the window at `UVPT` these are
directory entries, which have `PTE_W`, but the entry that leads there has not.
-/

namespace PmakeOs

open Lib

namespace Kernel

variable {s : Kernel} {ρ : ℕ → Role} {h : Hardware} {d e k : ℕ} {va len perm : Word}

/-! ## The answer -/

/-- User mode may access the byte at `a` with the rights `perm`.  The address is a natural
number, since a range may go on behind the last address. -/
def Accessible (s : Kernel) (d : ℕ) (perm : Word) (a : ℕ) : Prop :=
  a < ulim.toNat ∧ ∃ t, mmuWalk s.phys d (a / pgsize) = some t ∧ t.user = true ∧
    (Has perm pteW → t.write = true)

/-- The check returns zero if every byte of the range is accessible, and otherwise reports
the first that is not. -/
def ChecksRange (s : Kernel) (e d : ℕ) (va len perm : Word) : Prop :=
  (∀ a, va.toNat ≤ a → a < va.toNat + len.toNat → Accessible s d perm a) ∧
      s.userMemCheck e va len perm = .ok (0, s) ∨
    ∃ a, IsLeast {a | va.toNat ≤ a ∧ a < va.toNat + len.toNat ∧ ¬ Accessible s d perm a} a ∧
      s.userMemCheck e va len perm =
        .ok (-eFault, { s with userMemCheckAddr := BitVec.ofNat 32 a })

/-- The directory entry of page `k` gives the rights `perm` too. -/
def Passes (s : Kernel) (d : ℕ) (perm : Word) (k : ℕ) : Prop :=
  Has (s.phys d (k / nptentries)) pteU ∧ (Has perm pteW → Has (s.phys d (k / nptentries)) pteW)

/-- The check is right.  Where the end does not wrap, the loop must be able to read the table
of each page that it comes to, and the directory must give the rights that the table gives;
where it does, the loop must look at the page of `va`, and refuse it. -/
def CheckedWhen (s : Kernel) (d : ℕ) (va len perm : Word) : Prop :=
  (va.toNat + len.toNat + 4095 < 2 ^ 32 →
    ∀ k, pagesOf va len k → (∀ j, pagesOf va len j → j < k → Granted s d perm j) →
      InWindow s d k ∧ (Granted s d perm k → Passes s d perm k)) ∧
  (2 ^ 32 ≤ va.toNat + len.toNat + 4095 →
    rounddown va (BitVec.ofNat 32 pgsize) < roundup (va + len) (BitVec.ofNat 32 pgsize) ∧
      InWindow s d (pgnum va) ∧ ¬ Granted s d perm (pgnum va))

/-! ## Where the loop stops -/

/-- The first number at which `Q` fails. -/
theorem exists_first {P Q : ℕ → Prop} (h : ¬ ∀ k, P k → Q k) :
    ∃ k, (P k ∧ ¬ Q k) ∧ ∀ j, P j → j < k → Q j := by
  classical
  have hex : ∃ k, P k ∧ ¬ Q k := by
    simpa only [not_forall, exists_prop] using h
  refine ⟨Nat.find hex, Nat.find_spec hex, fun j hj hlt => ?_⟩
  by_contra hq
  exact Nat.find_min hex hlt ⟨hj, hq⟩

/-- A walk through a table outside the kernel's window is a panic. -/
theorem pgdirWalk_false_error (h : ¬ InWindow s d (pgnum va)) :
    ∃ p, s.pgdirWalk d va false = .error p := by
  rw [InWindow, pgnum_div, Classical.not_imp, not_and_or] at h
  obtain ⟨hp, hout⟩ := h
  unfold pgdirWalk
  rw [if_neg (not_not.mpr hp)]
  unfold kaddr
  rw [pgnum_pteAddr]
  by_cases hn : frame (s.phys d (pdx va)) < s.npages
  · rw [if_neg (by omega), if_pos (by omega)]
    exact ⟨_, rfl⟩
  · rw [if_pos (by omega)]
    exact ⟨_, rfl⟩

section Loop

variable {stop i : Word} {a b fuel : ℕ}

/-- The loop goes over the pages that are granted. -/
theorem userMemCheckLoop_reach (hi : i.toNat = 4096 * a) (hs : stop.toNat = 4096 * b)
    (hak : a ≤ k) (hkb : k < b) (hfuel : k < a + fuel)
    (hbefore : ∀ j, a ≤ j → j < k → InWindow s d j ∧ Granted s d perm j) :
    ∃ i' fuel', i'.toNat = 4096 * k ∧ s.userMemCheckLoop d va stop perm fuel i =
      s.userMemCheckLoop d va stop perm (fuel' + 1) i' := by
  induction fuel generalizing i a with
  | zero => omega
  | succ fuel ih =>
    rcases eq_or_ne a k with rfl | hne
    · exact ⟨i, fuel, hi, rfl⟩
    have hlt : i < stop := by
      rw [BitVec.lt_def]
      omega
    obtain ⟨hwin, hgr⟩ := hbefore a le_rfl (by omega)
    rw [← pgnum_page hi] at hwin hgr
    obtain ⟨o, hw⟩ := exists_pgdirWalk_false hwin
    have hok : refused s perm i o = false := (refused_iff hw).mpr hgr
    obtain ⟨i', fuel', hi', heq⟩ := ih (page_add_pgsize hi hs hlt) (by omega) (by omega)
      fun j hj hjk => hbefore j (by omega) hjk
    refine ⟨i', fuel', hi', ?_⟩
    rw [← heq, userMemCheckLoop_succ, if_pos hlt, hw, ok_bind]
    dsimp only
    rw [hok, if_neg Bool.false_ne_true]

/-- It stops at the first page that is refused. -/
theorem userMemCheckLoop_refuse (hi : i.toNat = 4096 * k) (hlt : i < stop)
    (hwin : InWindow s d k) (hk : ¬ Granted s d perm k) :
    s.userMemCheckLoop d va stop perm (fuel + 1) i = .ok (-eFault,
      { s with userMemCheckAddr := BitVec.ofNat 32 (max va.toNat (4096 * k)) }) := by
  rw [← pgnum_page hi] at hwin hk
  obtain ⟨o, hw⟩ := exists_pgdirWalk_false hwin
  have href : refused s perm i o = true := Bool.not_eq_false _ ▸ mt (refused_iff hw).mp hk
  -- the address is that of the page, or `va` if the range begins behind it
  have haddr : (if i < va then va else i) = BitVec.ofNat 32 (max va.toNat (4096 * k)) := by
    apply BitVec.eq_of_toNat_eq
    have hvlt := va.isLt
    have hilt := i.isLt
    rw [BitVec.toNat_ofNat, Nat.mod_eq_of_lt (by omega)]
    split
    · rename_i hiv
      rw [BitVec.lt_def] at hiv
      omega
    · rename_i hiv
      rw [BitVec.lt_def] at hiv
      omega
  rw [userMemCheckLoop_succ, if_pos hlt, hw, ok_bind]
  dsimp only
  rw [if_pos href, haddr]

/-- A table that cannot be read is a panic. -/
theorem userMemCheckLoop_error (hi : i.toNat = 4096 * k) (hlt : i < stop)
    (hwin : ¬ InWindow s d k) : ∃ p, s.userMemCheckLoop d va stop perm (fuel + 1) i = .error p := by
  rw [← pgnum_page hi] at hwin
  obtain ⟨p, hp⟩ := pgdirWalk_false_error hwin
  rw [userMemCheckLoop_succ, if_pos hlt, hp]
  exact ⟨p, rfl⟩

/-- **The outcome of the loop**, by the first page at which it cannot go on. -/
theorem userMemCheckLoop_stop (hi : i.toNat = 4096 * a) (hs : stop.toNat = 4096 * b)
    (hak : a ≤ k) (hkb : k < b) (hfuel : k < a + fuel)
    (hbefore : ∀ j, a ≤ j → j < k → InWindow s d j ∧ Granted s d perm j)
    (hk : ¬ (InWindow s d k ∧ Granted s d perm k)) :
    ¬ InWindow s d k ∧ (∃ p, s.userMemCheckLoop d va stop perm fuel i = .error p) ∨
    InWindow s d k ∧ ¬ Granted s d perm k ∧ s.userMemCheckLoop d va stop perm fuel i =
      .ok (-eFault, { s with userMemCheckAddr := BitVec.ofNat 32 (max va.toNat (4096 * k)) }) := by
  obtain ⟨i', fuel', hi', heq⟩ := userMemCheckLoop_reach hi hs hak hkb hfuel hbefore
  have hlt : i' < stop := by
    rw [BitVec.lt_def]
    omega
  rw [heq]
  by_cases hwin : InWindow s d k
  · have hno : ¬ Granted s d perm k := fun h0 => hk ⟨hwin, h0⟩
    exact Or.inr ⟨hwin, hno, userMemCheckLoop_refuse hi' hlt hwin hno⟩
  · exact Or.inl ⟨hwin, userMemCheckLoop_error hi' hlt hwin⟩

end Loop

/-- The outcome of the check, for a range whose end does not wrap. -/
theorem userMemCheck_stop (hd : (s.envs e).envPgdir = some d)
    (hfit : va.toNat + len.toNat + 4095 < 2 ^ 32) (hk : pagesOf va len k)
    (hbefore : ∀ j, pagesOf va len j → j < k → InWindow s d j ∧ Granted s d perm j)
    (hno : ¬ (InWindow s d k ∧ Granted s d perm k)) :
    ¬ InWindow s d k ∧ (∃ p, s.userMemCheck e va len perm = .error p) ∨
    InWindow s d k ∧ ¬ Granted s d perm k ∧ s.userMemCheck e va len perm =
      .ok (-eFault, { s with userMemCheckAddr := BitVec.ofNat 32 (max va.toNat (4096 * k)) }) := by
  rcases userMemCheck_eq perm hd hfit with ⟨-, hnone⟩ | ⟨start, stop, hi, hs, heq⟩
  · exact absurd hk (hnone k)
  · rw [heq]
    have hkb := hk.2
    exact userMemCheckLoop_stop hi hs hk.1 hkb (by omega)
      (fun j hj hjk => hbefore j ⟨hj, by omega⟩ hjk) hno

/-! ## Pages -/

/-- The test of `Accessible` is one of the page. -/
def PageAccessible (s : Kernel) (d : ℕ) (perm : Word) (k : ℕ) : Prop :=
  k < pgnum ulim ∧ ∃ t, mmuWalk s.phys d k = some t ∧ t.user = true ∧
    (Has perm pteW → t.write = true)

theorem accessible_iff (s : Kernel) (d : ℕ) (perm : Word) (a : ℕ) :
    Accessible s d perm a ↔ PageAccessible s d perm (a / 4096) := by
  have hlt : a < ulim.toNat ↔ a / 4096 < pgnum ulim := by
    rw [pgnum_eq, toNat_ulim]
    omega
  unfold Accessible PageAccessible
  rw [hlt, pgsize]

/-- The tables of a live environment are in the kernel's window. -/
theorem Sound.inWindow (hs : Settled s ρ) (hd : dirsOf s e = some d) (hk : k < 2 ^ 20) :
    InWindow s d k := by
  intro hp
  have hi : k / nptentries < npdentries := by
    rw [nptentries, npdentries]
    omega
  have hrole : ρ (frame (s.phys d (k / nptentries))) ≠ .reserved := by
    by_cases hlo : k / nptentries < pdx utop
    · rw [hs.ledger.typed.tree.table hd hlo hp]
      simp
    · have hup := hs.layout.upper hd (Nat.not_lt.mp hlo) hi
      by_cases hu : k / nptentries = pdx uvpt
      · have hdir := hs.ledger.typed.tree.dir.mp hd
        have hdw : d < kernWindow := hs.ledger.typed.lt_kernWindow (by simp [hdir])
        rw [if_pos hu] at hup
        rw [hup, ← selfEntry, frame_selfEntry hdw, hdir]
        simp
      · rw [if_neg hu] at hup
        rw [hup] at hp ⊢
        rw [(hs.layout.high (Nat.not_lt.mp hlo) hi hu hp).1]
        simp
  exact ⟨hs.ledger.typed.lt hrole, hs.ledger.typed.lt_kernWindow hrole⟩

/-- A directory entry lets writes through, but for the one at `UVPT`. -/
theorem Sound.write_iff_of_present (hs : Settled s ρ) (hd : dirsOf s e = some d) {i : ℕ}
    (hi : i < npdentries) (hp : Has (s.phys d i) pteP) : Has (s.phys d i) pteW ↔ i ≠ pdx uvpt := by
  by_cases hlo : i < pdx utop
  · refine iff_of_true (hs.layout.wide hd hlo hp).2 ?_
    rw [pdx_utop] at hlo
    rw [pdx_uvpt]
    omega
  · have hup := hs.layout.upper hd (Nat.not_lt.mp hlo) hi
    by_cases hu : i = pdx uvpt
    · rw [hup, if_pos hu]
      exact iff_of_false (has_selfEntry d).2.2 (not_not.mpr hu)
    · rw [if_neg hu] at hup
      rw [hup] at hp ⊢
      exact iff_of_true (hs.layout.high (Nat.not_lt.mp hlo) hi hu hp).2.2 hu

/-- The rights that are asked for. -/
structure Rights (perm : Word) : Prop where
  within : perm &&& ~~~ (pteU ||| pteW ||| pteP) = 0#32
  user : Has perm pteU

/-- There are four of them. -/
theorem Rights.cases (hp : Rights perm) : perm = pteU ∨ perm = pteU ||| pteP ∨
    perm = pteU ||| pteW ∨ perm = pteU ||| pteW ||| pteP := by
  have hlt : perm.toNat < 8 := by
    have hdiv := toNat_and_not_mask_div perm 3
    have hmask : BitVec.ofNat 32 (2 ^ 3 - 1) = pteU ||| pteW ||| pteP := by decide
    rw [hmask, hp.within, BitVec.toNat_zero] at hdiv
    omega
  obtain ⟨n, hn⟩ : ∃ n, perm.toNat = n := ⟨_, rfl⟩
  have hperm : perm = BitVec.ofNat 32 n := by
    rw [← hn, BitVec.ofNat_toNat, BitVec.setWidth_eq]
  have huser := hp.user
  rw [hn] at hlt
  rw [hperm] at huser ⊢
  clear hperm hn hp
  revert huser
  interval_cases n <;> decide

theorem and_or_eq_iff (w a b : Word) :
    w &&& (a ||| b) = a ||| b ↔ w &&& a = a ∧ w &&& b = b := by
  constructor
  · intro h
    have hle : ∀ c, (a ||| b) &&& c = c → w &&& c = c := by
      intro c hc
      rw [← hc, ← BitVec.and_assoc, h]
    refine ⟨hle a ?_, hle b ?_⟩
    · ext i
      simp
      tauto
    · ext i
      simp
      tauto
  · rintro ⟨ha, hb⟩
    rw [BitVec.and_or_distrib_left, ha, hb]

/-- One bit of an entry. -/
theorem and_eq_iff_has (w : Word) : (w &&& pteU = pteU ↔ Has w pteU) ∧
    (w &&& pteW = pteW ↔ Has w pteW) ∧ (w &&& pteP = pteP ↔ Has w pteP) := by
  have hbit : ∀ i, BitVec.twoPow 32 i ≠ 0#32 →
      (w &&& BitVec.twoPow 32 i = BitVec.twoPow 32 i ↔ Has w (BitVec.twoPow 32 i)) := by
    intro i hi
    refine ⟨fun h => ?_, fun h => and_twoPow_of_ne_zero h⟩
    rw [Has, h]
    exact hi
  exact ⟨hbit 2 (by decide), hbit 1 (by decide), hbit 0 (by decide)⟩

/-- A present entry has the rights exactly if it has the bits. -/
theorem Rights.and_eq_iff (hp : Rights perm) {w : Word} (hw : Has w pteP) :
    w &&& perm = perm ↔ Has w pteU ∧ (Has perm pteW → Has w pteW) := by
  obtain ⟨hU, hW, hP⟩ := and_eq_iff_has w
  have hno : ¬ Has pteU pteW ∧ ¬ Has (pteU ||| pteP) pteW ∧ Has (pteU ||| pteW) pteW ∧
      Has (pteU ||| pteW ||| pteP) pteW := by decide
  rcases hp.cases with rfl | rfl | rfl | rfl
  · rw [hU]
    simp [hno.1]
  · rw [and_or_eq_iff, hU, hP]
    simp [hno.2.1, hw]
  · rw [and_or_eq_iff, hU, hW]
    simp [hno.2.2.1]
  · rw [and_or_eq_iff, and_or_eq_iff, hU, hW, hP]
    simp [hno.2.2.2, hw]

/-- The loop tests the table only. -/
theorem pageAccessible_iff (hp : Rights perm) :
    PageAccessible s d perm k ↔ Granted s d perm k ∧ Passes s d perm k := by
  unfold PageAccessible Granted Passes mmuWalk userPte
  dsimp only
  by_cases hpres : Has (s.phys d (k / nptentries)) pteP ∧
      Has (s.phys (frame (s.phys d (k / nptentries))) (k % nptentries)) pteP
  · rw [if_pos hpres, if_pos hpres]
    simp only [Option.some.injEq, exists_eq_left', hp.and_eq_iff hpres.2, decide_eq_true_eq]
    tauto
  · rw [if_neg hpres, if_neg hpres]
    simp

/-! ## The range -/

section Range

variable (hlen : 0 < len.toNat)

include hlen

/-- A range is accessible if its pages are. -/
theorem accessible_range_iff :
    (∀ a, va.toNat ≤ a → a < va.toNat + len.toNat → Accessible s d perm a) ↔
      ∀ k, pagesOf va len k → PageAccessible s d perm k := by
  constructor
  · intro hall k hk
    unfold pagesOf at hk
    have hacc := hall (max va.toNat (4096 * k)) (by omega) (by omega)
    rw [accessible_iff, show max va.toNat (4096 * k) / 4096 = k by omega] at hacc
    exact hacc
  · intro hall a hle hlt
    rw [accessible_iff]
    refine hall _ ?_
    unfold pagesOf
    omega

/-- The first byte that fails is the first of its page, or the first of the range. -/
theorem isLeast_of_first (hk : pagesOf va len k)
    (hbefore : ∀ j, pagesOf va len j → j < k → PageAccessible s d perm j)
    (hno : ¬ PageAccessible s d perm k) :
    IsLeast {a | va.toNat ≤ a ∧ a < va.toNat + len.toNat ∧ ¬ Accessible s d perm a}
      (max va.toNat (4096 * k)) := by
  have hk' := hk
  unfold pagesOf at hk'
  refine ⟨⟨by omega, by omega, ?_⟩, fun a ha => ?_⟩
  · rw [accessible_iff, show max va.toNat (4096 * k) / 4096 = k by omega]
    exact hno
  · obtain ⟨hle, hlt, hnacc⟩ := ha
    by_contra hsmall
    refine hnacc ((accessible_iff s d perm a).mpr (hbefore _ ?_ (by omega)))
    unfold pagesOf
    omega

end Range

theorem eq_of_fault {a b : ℕ} (ha : a < 2 ^ 32) (hb : b < 2 ^ 32)
    (heq : (.ok (-eFault, { s with userMemCheckAddr := BitVec.ofNat 32 a }) :
      Except Panic (ℤ × Kernel)) = .ok (-eFault, { s with userMemCheckAddr := BitVec.ofNat 32 b })) :
    a = b := by
  have haddr := congrArg Kernel.userMemCheckAddr (Prod.mk.inj (Except.ok.inj heq)).2
  have hnat := congrArg BitVec.toNat haddr
  simp only [BitVec.toNat_ofNat] at hnat
  omega

section Outcome

variable (hlen : 0 < len.toNat)

/-- A panic is no answer. -/
theorem not_checksRange_of_error {p : Panic} (h : s.userMemCheck e va len perm = .error p) :
    ¬ ChecksRange s e d va len perm := by
  rintro (⟨-, hrun⟩ | ⟨a, -, hrun⟩)
  · exact nomatch h.symm.trans hrun
  · exact nomatch h.symm.trans hrun

/-- Zero is the answer if every byte is accessible. -/
theorem checksRange_iff_of_zero (h : s.userMemCheck e va len perm = .ok (0, s)) :
    ChecksRange s e d va len perm ↔
      ∀ a, va.toNat ≤ a → a < va.toNat + len.toNat → Accessible s d perm a := by
  refine ⟨?_, fun hall => Or.inl ⟨hall, h⟩⟩
  rintro (⟨hall, -⟩ | ⟨a, -, hrun⟩)
  · exact hall
  · rw [h] at hrun
    exact absurd (Prod.mk.inj (Except.ok.inj hrun)).1 (by decide)

include hlen in
/-- A page that is refused is the answer if every page before it is accessible. -/
theorem checksRange_iff_of_fault (hk : pagesOf va len k) (hk32 : 4096 * k < 2 ^ 32)
    (hno : ¬ PageAccessible s d perm k)
    (h : s.userMemCheck e va len perm =
      .ok (-eFault, { s with userMemCheckAddr := BitVec.ofNat 32 (max va.toNat (4096 * k)) })) :
    ChecksRange s e d va len perm ↔
      ∀ j, pagesOf va len j → j < k → PageAccessible s d perm j := by
  constructor
  · rintro (⟨-, hrun⟩ | ⟨a, hleast, hrun⟩) j hj hjk
    · rw [h] at hrun
      exact absurd (Prod.mk.inj (Except.ok.inj hrun)).1 (by decide)
    · -- otherwise a byte of page `j` fails, and it is less than the one that is reported
      by_contra hnj
      have hj' := hj
      have hk' := hk
      unfold pagesOf at hj' hk'
      have hle : a ≤ max va.toNat (4096 * j) := by
        refine hleast.2 ⟨by omega, by omega, ?_⟩
        rw [accessible_iff, show max va.toNat (4096 * j) / 4096 = j by omega]
        exact hnj
      have hvlt := va.isLt
      rw [h] at hrun
      have heq := eq_of_fault (by omega) (by omega) hrun
      omega
  · intro hbefore
    exact Or.inr ⟨_, isLeast_of_first hlen hk hbefore hno, h⟩

include hlen in
/-- **A range whose end does not wrap.** -/
theorem checksRange_iff_of_fit (hpd : (s.envs e).envPgdir = some d) (hp : Rights perm)
    (hfit : va.toNat + len.toNat + 4095 < 2 ^ 32) :
    ChecksRange s e d va len perm ↔
      ∀ k, pagesOf va len k → (∀ j, pagesOf va len j → j < k → Granted s d perm j) →
        InWindow s d k ∧ (Granted s d perm k → Passes s d perm k) := by
  by_cases hall : ∀ k, pagesOf va len k → InWindow s d k ∧ Granted s d perm k
  · -- the loop goes to the end
    rw [checksRange_iff_of_zero (userMemCheck_of_granted hpd hfit (fun k hk => (hall k hk).1)
      fun k hk => (hall k hk).2), accessible_range_iff hlen]
    constructor
    · intro hacc k hk _
      exact ⟨(hall k hk).1, fun _ => ((pageAccessible_iff hp).mp (hacc k hk)).2⟩
    · intro hcond k hk
      have hgr := (hall k hk).2
      exact (pageAccessible_iff hp).mpr
        ⟨hgr, (hcond k hk fun j hj _ => (hall j hj).2).2 hgr⟩
  · obtain ⟨k, ⟨hk, hno⟩, hbefore⟩ := exists_first hall
    rcases userMemCheck_stop hpd hfit hk hbefore hno with ⟨hwin, p, herr⟩ | ⟨hwin, hng, hrun⟩
    · -- it panics at page `k`
      refine iff_of_false (not_checksRange_of_error herr) fun hcond => hwin ?_
      exact (hcond k hk fun j hj hjk => (hbefore j hj hjk).2).1
    · -- it refuses page `k`
      have hk' := hk
      unfold pagesOf at hk'
      have hnacc : ¬ PageAccessible s d perm k := fun h0 => hng ((pageAccessible_iff hp).mp h0).1
      rw [checksRange_iff_of_fault hlen hk (by omega) hnacc hrun]
      constructor
      · intro hacc j hj hbefore'
        rcases Nat.lt_trichotomy j k with hlt | rfl | hgt
        · exact ⟨(hbefore j hj hlt).1, fun _ => ((pageAccessible_iff hp).mp (hacc j hj hlt)).2⟩
        · exact ⟨hwin, fun h0 => absurd h0 hng⟩
        · exact absurd (hbefore' k hk hgt) hng
      · intro hcond j hj hjk
        have hgr := (hbefore j hj hjk).2
        refine (pageAccessible_iff hp).mpr ⟨hgr, (hcond j hj fun i hi hij => ?_).2 hgr⟩
        exact (hbefore i hi (by omega)).2

/-- A range that reaches the last page of memory is not accessible. -/
theorem not_accessible_of_wrap (hwrap : 2 ^ 32 ≤ va.toNat + len.toNat + 4095) (hpos : 0 < len.toNat) :
    ¬ ∀ a, va.toNat ≤ a → a < va.toNat + len.toNat → Accessible s d perm a := by
  intro hall
  have hlast := (hall (va.toNat + len.toNat - 1) (by omega) (by omega)).1
  rw [toNat_ulim] at hlast
  omega

/-- The two ends of the loop, for a range whose end wraps: it looks at the page of `va` or at
none. -/
theorem ends_of_wrap (hwrap : 2 ^ 32 ≤ va.toNat + len.toNat + 4095)
    (hlt : rounddown va (BitVec.ofNat 32 pgsize) < roundup (va + len) (BitVec.ofNat 32 pgsize)) :
    (rounddown va (BitVec.ofNat 32 pgsize)).toNat = 4096 * pgnum va ∧
      (roundup (va + len) (BitVec.ofNat 32 pgsize)).toNat = 4096 * (pgnum va + 1) := by
  have hpg : (BitVec.ofNat 32 pgsize).toNat = 4096 := by decide
  have hva := va.isLt
  have hl := len.isLt
  have hstart : (rounddown va (BitVec.ofNat 32 pgsize)).toNat = 4096 * pgnum va := by
    rw [toNat_rounddown, hpg, pgnum_eq]
    omega
  have hstop := toNat_roundup_mod (va + len)
  rw [BitVec.toNat_add, pageCeil] at hstop
  rw [BitVec.lt_def, hstart] at hlt
  rw [pgnum_eq] at *
  refine ⟨hstart, ?_⟩
  omega

include hlen in
/-- **A range whose end wraps.** -/
theorem checksRange_iff_of_wrap (hpd : (s.envs e).envPgdir = some d) (hp : Rights perm)
    (hwrap : 2 ^ 32 ≤ va.toNat + len.toNat + 4095) :
    ChecksRange s e d va len perm ↔
      rounddown va (BitVec.ofNat 32 pgsize) < roundup (va + len) (BitVec.ofNat 32 pgsize) ∧
        InWindow s d (pgnum va) ∧ ¬ Granted s d perm (pgnum va) := by
  have hnall : ¬ ∀ a, va.toNat ≤ a → a < va.toNat + len.toNat → Accessible s d perm a :=
    not_accessible_of_wrap hwrap hlen
  by_cases hlt : rounddown va (BitVec.ofNat 32 pgsize) < roundup (va + len) (BitVec.ofNat 32 pgsize)
  · obtain ⟨hi, hs⟩ := ends_of_wrap hwrap hlt
    have hloop : s.userMemCheck e va len perm = s.userMemCheckLoop d va
        (roundup (va + len) (BitVec.ofNat 32 pgsize)) perm (2 ^ 20)
        (rounddown va (BitVec.ofNat 32 pgsize)) := by
      unfold userMemCheck
      dsimp only
      rw [if_pos hlt, hpd, deref_some, ok_bind]
    rw [and_iff_right hlt]
    have hone : ∀ k, pgnum va ≤ k → k < pgnum va + 1 → k = pgnum va := by
      intro k h1 h2
      omega
    by_cases hgo : InWindow s d (pgnum va) ∧ Granted s d perm (pgnum va)
    · -- the one page is granted
      rw [userMemCheckLoop_of_granted hi hs (fun k h1 h2 => hone k h1 h2 ▸ hgo.1)
        fun k h1 h2 => hone k h1 h2 ▸ hgo.2] at hloop
      rw [checksRange_iff_of_zero hloop]
      exact iff_of_false hnall fun h0 => h0.2 hgo.2
    · have hpages : pagesOf va len (pgnum va) := by
        unfold pagesOf
        rw [pgnum_eq]
        omega
      have hva := va.isLt
      have hpg := pgnum_eq va
      have hstop : ¬ InWindow s d (pgnum va) ∧ (∃ p, s.userMemCheck e va len perm = .error p) ∨
          InWindow s d (pgnum va) ∧ ¬ Granted s d perm (pgnum va) ∧
            s.userMemCheck e va len perm = .ok (-eFault,
              { s with userMemCheckAddr := BitVec.ofNat 32 (max va.toNat (4096 * pgnum va)) }) := by
        rw [hloop]
        exact userMemCheckLoop_stop hi hs le_rfl (Nat.lt_succ_self _)
          (Nat.lt_add_of_pos_right (Nat.two_pow_pos 20)) (fun j h1 h2 => by omega) hgo
      rcases hstop with ⟨hwin, p, herr⟩ | ⟨hwin, hng, hrun⟩
      · exact iff_of_false (not_checksRange_of_error herr) fun h0 => hwin h0.1
      · have hnacc : ¬ PageAccessible s d perm (pgnum va) := fun h0 =>
          hng ((pageAccessible_iff hp).mp h0).1
        rw [checksRange_iff_of_fault hlen hpages (by omega) hnacc hrun]
        refine iff_of_true (fun j hj hjk => ?_) ⟨hwin, hng⟩
        unfold pagesOf at hj
        omega
  · -- no page is looked at
    have hzero : s.userMemCheck e va len perm = .ok (0, s) := by
      unfold userMemCheck
      exact if_neg hlt
    rw [checksRange_iff_of_zero hzero]
    exact iff_of_false hnall fun h0 => hlt h0.1

end Outcome

/-- **When `user_mem_check` is right.** -/
theorem checksRange_iff (hpd : (s.envs e).envPgdir = some d) (hp : Rights perm)
    (hlen : len ≠ 0#32) : ChecksRange s e d va len perm ↔ CheckedWhen s d va len perm := by
  have hpos : 0 < len.toNat := Nat.pos_of_ne_zero fun h0 => hlen (BitVec.eq_of_toNat_eq h0)
  rcases Nat.lt_or_ge (va.toNat + len.toNat + 4095) (2 ^ 32) with hfit | hwrap
  · rw [checksRange_iff_of_fit hpos hpd hp hfit]
    exact ⟨fun h0 => ⟨fun _ => h0, fun h1 => absurd hfit (Nat.not_lt.mpr h1)⟩, fun h0 => h0.1 hfit⟩
  · rw [checksRange_iff_of_wrap hpos hpd hp hwrap]
    exact ⟨fun h0 => ⟨fun h1 => absurd h1 (Nat.not_lt.mpr hwrap), fun _ => h0⟩,
      fun h0 => h0.2 hwrap⟩

/-! ## In the states that are reached

The tables are in the kernel's window, and the directory gives every right but one: it does
not let writes through to the window at `UVPT`. -/

theorem present_of_granted (hg : Granted s d perm k) : Has (s.phys d (k / nptentries)) pteP := by
  obtain ⟨-, w, hw, -⟩ := hg
  unfold userPte at hw
  dsimp only at hw
  split at hw
  · rename_i hp
    exact hp.1
  · cases hw

/-- **In a state that is reached**, a range that does not wrap is checked as it should be,
unless it is checked for writes and has a page in the window at `UVPT`. -/
theorem checkedWhen_of_reached (hr : Reached h s) (hlive : Live s e)
    (hpd : (s.envs e).envPgdir = some d) (hfit : va.toNat + len.toNat + 4095 < 2 ^ 32)
    (huvpt : Has perm pteW → ∀ k, pagesOf va len k → k / nptentries ≠ pdx uvpt) :
    CheckedWhen s d va len perm := by
  obtain ⟨ρ, hs, -⟩ := hr.settled
  have hd := dirsOf_of_pgdir hlive hpd
  refine ⟨fun _ k hk _ => ?_, fun hwrap => absurd hfit (Nat.not_lt.mpr hwrap)⟩
  have hk20 : k < 2 ^ 20 := by
    unfold pagesOf at hk
    omega
  have hi : k / nptentries < npdentries := by
    rw [nptentries, npdentries]
    omega
  refine ⟨hs.inWindow hd hk20, fun hg => ?_⟩
  have hp := present_of_granted hg
  exact ⟨hs.user_of_present hd hi hp, fun hW => (hs.write_iff_of_present hd hi hp).mpr
    (huvpt hW k hk)⟩

/-- The first environment on a machine with 64 MB. -/
theorem firstEnv_reached : ∃ s e d, Reached machine64 s ∧ Live s e ∧
    (s.envs e).envPgdir = some d := by
  obtain ⟨s₀, hboot⟩ := machine64_boots
  obtain ⟨s, e, hexec, hmodest, -, -, hlive⟩ := firstEnv_run hboot
  have hop : Issuable s₀ (.envAlloc 0#32) := trivial
  have hr : Reached machine64 s := .op (.boot hboot) hop hmodest hexec
  obtain ⟨ρ, hs, -⟩ := hr.settled
  obtain ⟨-, d, hd⟩ := hs.layout.live hlive
  exact ⟨s, e, d, hr, hlive, hd⟩

/-- A read check of the first environment's page at `0x800000`. -/
theorem checksRange_iff_firstEnv : ∃ s e d, Reached machine64 s ∧ Live s e ∧
    (s.envs e).envPgdir = some d ∧ ChecksRange s e d 0x800000#32 1#32 pteU := by
  obtain ⟨s, e, d, hr, hlive, hd⟩ := firstEnv_reached
  have hrights : Rights pteU := ⟨by decide, by decide⟩
  have hwhen : CheckedWhen s d 0x800000#32 1#32 pteU :=
    checkedWhen_of_reached hr hlive hd (by decide) fun hW => absurd hW (by decide)
  exact ⟨s, e, d, hr, hlive, hd, (checksRange_iff hd hrights (by decide)).mpr hwhen⟩

/-- The last byte but one of memory: the end wraps to zero, and the loop looks at no page. -/
theorem not_checksRange_last : ¬ ∀ (h : Hardware) (s : Kernel) (e d : ℕ) (va len perm : Word),
    Reached h s → Live s e → (s.envs e).envPgdir = some d → Rights perm → len ≠ 0#32 →
    ChecksRange s e d va len perm := by
  intro hall
  obtain ⟨s, e, d, hr, hlive, hd⟩ := firstEnv_reached
  have hrights : Rights pteU := ⟨by decide, by decide⟩
  have hch := hall _ s e d 0xFFFFFFFE#32 1#32 pteU hr hlive hd hrights (by decide)
  have hwrap := (checksRange_iff_of_wrap (by decide) hd hrights (by decide)).mp hch
  exact absurd hwrap.1 (by decide)

end Kernel
end PmakeOs
