import PmakeOs.Paging.Typing

/-!
# What `user_mem_check` grants

`user_mem_check` walks the tables page by page over a range that it rounds to whole pages.
`Granted s d perm vpn` is what it asks of one page.  If it returns zero, every byte of the
range lies in a page that is granted; if every page is granted, it returns zero; and it
changes nothing but the address it reports.
-/

namespace PmakeOs
namespace Kernel

variable {s s' : Kernel} {d : ℕ} {va perm : Word}

/-- Page `vpn` is below `ULIM`, and its entry is present with the rights `perm`. -/
def Granted (s : Kernel) (d : ℕ) (perm : Word) (vpn : ℕ) : Prop :=
  vpn < pgnum ulim ∧ ∃ w, userPte s.phys d vpn = some w ∧ w &&& perm = perm

/-- The table of page `vpn`, if there is one, is in the kernel's window. -/
def InWindow (s : Kernel) (d vpn : ℕ) : Prop :=
  Has (s.phys d (vpn / nptentries)) pteP →
    frame (s.phys d (vpn / nptentries)) < s.npages ∧
    frame (s.phys d (vpn / nptentries)) < kernWindow

theorem granted_iff (s : Kernel) (d : ℕ) (perm va : Word) :
    Granted s d perm (pgnum va) ↔ va < ulim ∧ Has (s.phys d (pdx va)) pteP ∧
      Has (s.phys (frame (s.phys d (pdx va))) (ptx va)) pteP ∧
      s.phys (frame (s.phys d (pdx va))) (ptx va) &&& perm = perm := by
  have hlt : pgnum va < pgnum ulim ↔ va < ulim := by
    rw [pgnum_eq, pgnum_eq, BitVec.lt_def, toNat_ulim]
    omega
  unfold Granted userPte
  simp only [pgnum_div, pgnum_mod, hlt]
  constructor
  · rintro ⟨h, w, hw, hperm⟩
    split at hw
    · rename_i hp
      obtain rfl := Option.some.inj hw
      exact ⟨h, hp.1, hp.2, hperm⟩
    · cases hw
  · rintro ⟨h, hp, hp', hperm⟩
    exact ⟨h, _, if_pos ⟨hp, hp'⟩, hperm⟩

/-! ## One page -/

theorem kaddr_pteAddr {w : Word} (h : frame w < s.npages) (h' : frame w < kernWindow) :
    s.kaddr (pteAddr w) = .ok (frame w) := by
  unfold kaddr
  rw [pgnum_pteAddr, if_neg (by omega), if_neg (by omega)]

theorem eq_of_kaddr {pa : Word} {t : ℕ} (h : s.kaddr pa = .ok t) : t = pgnum pa := by
  unfold kaddr at h
  split at h
  · cases h
  · split at h
    · cases h
    · exact (Except.ok.inj h).symm

/-- A walk that creates nothing changes nothing. -/
theorem pgdirWalk_false {o : Option (ℕ × ℕ)} (h : s.pgdirWalk d va false = .ok (o, s')) :
    s' = s ∧ o = if Has (s.phys d (pdx va)) pteP then
      some (frame (s.phys d (pdx va)), ptx va) else none := by
  unfold pgdirWalk at h
  by_cases hp : Has (s.phys d (pdx va)) pteP
  · rw [if_neg (not_not.mpr hp)] at h
    obtain ⟨t, ht, h⟩ := bind_eq_ok.mp h
    obtain ⟨rfl, rfl⟩ := Prod.mk.inj (Except.ok.inj h)
    rw [if_pos hp, eq_of_kaddr ht]
    exact ⟨rfl, rfl⟩
  · rw [if_pos hp, if_neg Bool.false_ne_true] at h
    obtain ⟨rfl, rfl⟩ := Prod.mk.inj (Except.ok.inj h)
    exact ⟨rfl, (if_neg hp).symm⟩

theorem exists_pgdirWalk_false (h : InWindow s d (pgnum va)) :
    ∃ o, s.pgdirWalk d va false = .ok (o, s) := by
  unfold pgdirWalk
  by_cases hp : Has (s.phys d (pdx va)) pteP
  · rw [InWindow, pgnum_div] at h
    rw [if_neg (not_not.mpr hp), kaddr_pteAddr (h hp).1 (h hp).2]
    exact ⟨_, rfl⟩
  · rw [if_pos hp]
    exact ⟨none, rfl⟩

/-- The test of one page. -/
def refused (s : Kernel) (perm i : Word) : Option (ℕ × ℕ) → Bool
  | none => true
  | some (t, j) => decide (ulim ≤ i ∨ ¬ Has (s.phys t j) pteP ∨ s.phys t j &&& perm ≠ perm)

theorem refused_iff {i : Word} {o : Option (ℕ × ℕ)} (h : s.pgdirWalk d i false = .ok (o, s')) :
    refused s perm i o = false ↔ Granted s d perm (pgnum i) := by
  rw [granted_iff, (pgdirWalk_false h).2]
  by_cases hp : Has (s.phys d (pdx i)) pteP
  · rw [if_pos hp, refused, decide_eq_false_iff_not, not_or, not_or, not_not, not_not,
      BitVec.not_le]
    exact ⟨fun ⟨h1, h2, h3⟩ => ⟨h1, hp, h2, h3⟩, fun ⟨h1, _, h2, h3⟩ => ⟨h1, h2, h3⟩⟩
  · rw [if_neg hp, refused]
    exact iff_of_false Bool.noConfusion fun h => hp h.2.1

/-- One round of the loop. -/
theorem userMemCheckLoop_succ (s : Kernel) (d : ℕ) (va stop perm : Word) (fuel : ℕ) (i : Word) :
    s.userMemCheckLoop d va stop perm (fuel + 1) i =
      if i < stop then s.pgdirWalk d i false >>= fun p =>
        if refused p.2 perm i p.1 then
          .ok (-eFault, { p.2 with userMemCheckAddr := if i < va then va else i })
        else p.2.userMemCheckLoop d va stop perm fuel (i + BitVec.ofNat 32 pgsize)
      else .ok (0, s) := by
  rw [userMemCheckLoop]
  split
  · rename_i hlt
    cases s.pgdirWalk d i false with
    | error p => rfl
    | ok p =>
      obtain ⟨o, s'⟩ := p
      rw [ok_bind, ok_bind]
      cases o with
      | none => rfl
      | some q => rfl
  · rfl

/-! ## The loop

The loop runs over the pages from `a` up to `b`; its variable is the address of page `a`. -/

section

variable {va stop perm i : Word} {a b fuel : ℕ}

theorem page_add_pgsize (hi : i.toNat = 4096 * a) (hs : stop.toNat = 4096 * b) (hlt : i < stop) :
    (i + BitVec.ofNat 32 pgsize).toNat = 4096 * (a + 1) := by
  have hpg : (BitVec.ofNat 32 pgsize).toNat = 4096 := by decide
  have hb := stop.isLt
  rw [BitVec.lt_def] at hlt
  rw [BitVec.toNat_add, hpg, Nat.mod_eq_of_lt (by omega)]
  omega

theorem pgnum_page (hi : i.toNat = 4096 * a) : pgnum i = a := by
  rw [pgnum_eq]
  omega

/-- The loop changes nothing, or reports an address. -/
theorem userMemCheckLoop_cases {r : ℤ} (h : s.userMemCheckLoop d va stop perm fuel i = .ok (r, s')) :
    r = 0 ∧ s' = s ∨ r = -eFault ∧ ∃ x, s' = { s with userMemCheckAddr := x } := by
  induction fuel generalizing i with
  | zero =>
    obtain ⟨rfl, rfl⟩ := Prod.mk.inj (Except.ok.inj h)
    exact Or.inl ⟨rfl, rfl⟩
  | succ fuel ih =>
    rw [userMemCheckLoop_succ] at h
    split at h
    · obtain ⟨⟨o, s₁⟩, hw, hr⟩ := bind_eq_ok.mp h
      obtain ⟨rfl, -⟩ := pgdirWalk_false hw
      dsimp only at hr
      split at hr
      · obtain ⟨rfl, rfl⟩ := Prod.mk.inj (Except.ok.inj hr)
        exact Or.inr ⟨rfl, _, rfl⟩
      · exact ih hr
    · obtain ⟨rfl, rfl⟩ := Prod.mk.inj (Except.ok.inj h)
      exact Or.inl ⟨rfl, rfl⟩

theorem granted_of_userMemCheckLoop (hi : i.toNat = 4096 * a) (hs : stop.toNat = 4096 * b)
    (h : s.userMemCheckLoop d va stop perm fuel i = .ok (0, s')) {k : ℕ} (hak : a ≤ k) (hkb : k < b)
    (hk : k < a + fuel) : Granted s d perm k := by
  induction fuel generalizing i a with
  | zero => omega
  | succ fuel ih =>
    have hlt : i < stop := by
      rw [BitVec.lt_def]
      omega
    rw [userMemCheckLoop_succ, if_pos hlt] at h
    obtain ⟨⟨o, s₁⟩, hw, hr⟩ := bind_eq_ok.mp h
    obtain ⟨rfl, -⟩ := pgdirWalk_false hw
    dsimp only at hr
    split at hr
    · exact absurd (Prod.mk.inj (Except.ok.inj hr)).1 (by decide)
    · rename_i hok
      rcases eq_or_ne k a with rfl | hne
      · rw [← pgnum_page hi]
        exact (refused_iff hw).mp (Bool.eq_false_iff.mpr hok)
      · exact ih (page_add_pgsize hi hs hlt) hr (by omega) (by omega)

theorem exists_userMemCheckLoop (hi : i.toNat = 4096 * a) (hs : stop.toNat = 4096 * b)
    (hwin : ∀ k, a ≤ k → k < b → InWindow s d k) :
    ∃ r s', s.userMemCheckLoop d va stop perm fuel i = .ok (r, s') := by
  induction fuel generalizing i a with
  | zero => exact ⟨0, s, rfl⟩
  | succ fuel ih =>
    rw [userMemCheckLoop_succ]
    split
    · rename_i hlt
      have hab : a < b := by
        rw [BitVec.lt_def] at hlt
        omega
      have hwin' : InWindow s d (pgnum i) := by
        rw [pgnum_page hi]
        exact hwin a le_rfl hab
      obtain ⟨o, hw⟩ := exists_pgdirWalk_false hwin'
      rw [hw, ok_bind]
      dsimp only
      split
      · exact ⟨_, _, rfl⟩
      · exact ih (page_add_pgsize hi hs hlt) fun k hk hkb => hwin k (by omega) hkb
    · exact ⟨0, s, rfl⟩

theorem userMemCheckLoop_of_granted (hi : i.toNat = 4096 * a) (hs : stop.toNat = 4096 * b)
    (hwin : ∀ k, a ≤ k → k < b → InWindow s d k)
    (hgr : ∀ k, a ≤ k → k < b → Granted s d perm k) :
    s.userMemCheckLoop d va stop perm fuel i = .ok (0, s) := by
  induction fuel generalizing i a with
  | zero => rfl
  | succ fuel ih =>
    rw [userMemCheckLoop_succ]
    split
    · rename_i hlt
      have hab : a < b := by
        rw [BitVec.lt_def] at hlt
        omega
      have hwin' : InWindow s d (pgnum i) := by
        rw [pgnum_page hi]
        exact hwin a le_rfl hab
      obtain ⟨o, hw⟩ := exists_pgdirWalk_false hwin'
      have hok : refused s perm i o = false := (refused_iff hw).mpr (by
        rw [pgnum_page hi]
        exact hgr a le_rfl hab)
      rw [hw, ok_bind]
      dsimp only
      rw [hok, if_neg Bool.false_ne_true]
      exact ih (page_add_pgsize hi hs hlt) (fun k hk hkb => hwin k (by omega) hkb)
        fun k hk hkb => hgr k (by omega) hkb
    · rfl

end

/-! ## The check -/

section

variable {e : ℕ} {va len perm : Word}

/-- The pages from that of `va` up to the end of the range. -/
def pagesOf (va len : Word) (k : ℕ) : Prop :=
  va.toNat / 4096 ≤ k ∧ k < (va.toNat + len.toNat + 4095) / 4096

/-- The two ends of the loop, for a range that does not reach the top of memory. -/
theorem userMemCheck_eq (perm : Word) (hd : (s.envs e).envPgdir = some d)
    (hfit : va.toNat + len.toNat + 4095 < 2 ^ 32) :
    (s.userMemCheck e va len perm = .ok (0, s) ∧ ∀ k, ¬ pagesOf va len k) ∨
    ∃ start stop : Word, start.toNat = 4096 * (va.toNat / 4096) ∧
      stop.toNat = 4096 * ((va.toNat + len.toNat + 4095) / 4096) ∧
      s.userMemCheck e va len perm = s.userMemCheckLoop d va stop perm (2 ^ 20) start := by
  have hpg : (BitVec.ofNat 32 pgsize).toNat = 4096 := by decide
  have hsum : (va + len).toNat = va.toNat + len.toNat := by
    rw [BitVec.toNat_add, Nat.mod_eq_of_lt (by omega)]
  have hstart : (rounddown va (BitVec.ofNat 32 pgsize)).toNat = 4096 * (va.toNat / 4096) := by
    rw [toNat_rounddown, hpg]
    omega
  have hstop : (roundup (va + len) (BitVec.ofNat 32 pgsize)).toNat =
      4096 * ((va.toNat + len.toNat + 4095) / 4096) := by
    rw [toNat_roundup (by omega), hsum]
    omega
  unfold userMemCheck
  dsimp only
  by_cases hlt : rounddown va (BitVec.ofNat 32 pgsize) < roundup (va + len) (BitVec.ofNat 32 pgsize)
  · refine Or.inr ⟨_, _, hstart, hstop, ?_⟩
    rw [if_pos hlt, hd, deref_some, ok_bind]
  · refine Or.inl ⟨if_neg hlt, fun k hk => ?_⟩
    rw [BitVec.lt_def, hstart, hstop] at hlt
    unfold pagesOf at hk
    omega

/-- `user_mem_check` returns zero and changes nothing, or reports an address. -/
theorem userMemCheck_cases {r : ℤ} (h : s.userMemCheck e va len perm = .ok (r, s')) :
    r = 0 ∧ s' = s ∨ r = -eFault ∧ ∃ x, s' = { s with userMemCheckAddr := x } := by
  unfold userMemCheck at h
  dsimp only at h
  split at h
  · obtain ⟨d, -, h⟩ := bind_eq_ok.mp h
    exact userMemCheckLoop_cases h
  · obtain ⟨rfl, rfl⟩ := Prod.mk.inj (Except.ok.inj h)
    exact Or.inl ⟨rfl, rfl⟩

/-- **Every page of a range that passes the check is granted.** -/
theorem granted_of_userMemCheck (hd : (s.envs e).envPgdir = some d)
    (hfit : va.toNat + len.toNat + 4095 < 2 ^ 32)
    (h : s.userMemCheck e va len perm = .ok (0, s')) {k : ℕ} (hk : pagesOf va len k) :
    Granted s d perm k := by
  rcases userMemCheck_eq perm hd hfit with ⟨-, hnone⟩ | ⟨start, stop, hi, hs, heq⟩
  · exact absurd hk (hnone k)
  · rw [heq] at h
    have := va.isLt
    exact granted_of_userMemCheckLoop hi hs h hk.1 hk.2 (by have := hk.2; omega)

/-- **The check passes if every page is granted.** -/
theorem userMemCheck_of_granted (hd : (s.envs e).envPgdir = some d)
    (hfit : va.toNat + len.toNat + 4095 < 2 ^ 32)
    (hwin : ∀ k, pagesOf va len k → InWindow s d k)
    (hgr : ∀ k, pagesOf va len k → Granted s d perm k) :
    s.userMemCheck e va len perm = .ok (0, s) := by
  rcases userMemCheck_eq perm hd hfit with ⟨heq, -⟩ | ⟨start, stop, hi, hs, heq⟩
  · exact heq
  · rw [heq]
    exact userMemCheckLoop_of_granted hi hs (fun k hk hkb => hwin k ⟨hk, hkb⟩)
      fun k hk hkb => hgr k ⟨hk, hkb⟩

/-- The check comes to an end. -/
theorem exists_userMemCheck (perm : Word) (hd : (s.envs e).envPgdir = some d)
    (hfit : va.toNat + len.toNat + 4095 < 2 ^ 32)
    (hwin : ∀ k, pagesOf va len k → InWindow s d k) :
    ∃ r s', s.userMemCheck e va len perm = .ok (r, s') := by
  rcases userMemCheck_eq perm hd hfit with ⟨heq, -⟩ | ⟨start, stop, hi, hs, heq⟩
  · exact ⟨0, s, heq⟩
  · rw [heq]
    exact exists_userMemCheckLoop hi hs fun k hk hkb => hwin k ⟨hk, hkb⟩

end

end Kernel
end PmakeOs
