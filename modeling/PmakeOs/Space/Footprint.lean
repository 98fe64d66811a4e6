import PmakeOs.Space.Effects
import PmakeOs.Sched.Acts

/-!
# The words that kernel code writes

The effects of `Space.Effects` speak about whole address spaces and need the reference
counts.  To see that an operation on one address space leaves the *others* alone less
is enough: which words of memory it may write.

* `page_remove` writes one word, of the table that it finds;
* `page_insert` writes one word of the directory and one of the table; a new table is
  the first page of the free list;
* `env_free` writes the directory of the environment and its tables.

A frame has one role, so the directory and the tables of another environment are not
among them.  What the tables say of a virtual page is `mappingOf`.
-/

namespace PmakeOs

open Lib

namespace Kernel

variable {s s' : Kernel} {ρ : ℕ → Role} {e d i t p : ℕ} {va perm : Word}

/-! ## Pages -/

theorem phys_of_pageFree (h : s.pageFree p = .ok s') : s'.phys = s.phys := by
  unfold pageFree at h
  split at h
  · cases h
  · obtain rfl := Except.ok.inj h
    rfl

theorem phys_of_pageDecref (h : s.pageDecref p = .ok s') : s'.phys = s.phys := by
  unfold pageDecref at h
  simp only at h
  split at h
  · rw [phys_of_pageFree h]
    rfl
  · obtain rfl := Except.ok.inj h
    rfl

/-- The entry that `page_lookup` finds. -/
theorem pageLookup_entry {pp t j : ℕ} (h : s.pageLookup d va = .ok (some (pp, (t, j)))) :
    Has (s.phys d (pdx va)) pteP ∧ t = frame (s.phys d (pdx va)) ∧ j = ptx va := by
  unfold pageLookup pgdirWalk at h
  by_cases hp : Has (s.phys d (pdx va)) pteP
  · refine ⟨hp, ?_⟩
    simp only [hp, not_true_eq_false, if_false] at h
    obtain ⟨⟨o, s₁⟩, hw, h⟩ := bind_eq_ok.mp h
    obtain ⟨t', hk, hw⟩ := bind_eq_ok.mp hw
    obtain ⟨rfl, rfl⟩ := Prod.mk.inj (Except.ok.inj hw)
    have ht : t' = frame (s.phys d (pdx va)) := by
      unfold kaddr at hk
      split at hk
      · cases hk
      · split at hk
        · cases hk
        · exact (Except.ok.inj hk).symm
    simp only at h
    split at h
    · exact nomatch Except.ok.inj h
    · obtain ⟨q, -, h⟩ := bind_eq_ok.mp h
      obtain ⟨-, h⟩ := Prod.mk.inj (Option.some.inj (Except.ok.inj h))
      obtain ⟨rfl, rfl⟩ := Prod.mk.inj h
      exact ⟨ht, rfl⟩
  · simp only [hp, not_false_eq_true, if_true] at h
    exact nomatch Except.ok.inj h

/-- `page_remove` writes at most the entry of the page. -/
theorem words_of_pageRemove (h : s.pageRemove d va = .ok s') (f k : ℕ)
    (hf : ¬ (f = frame (s.phys d (pdx va)) ∧ k = ptx va)) : s'.phys f k = s.phys f k := by
  unfold pageRemove at h
  obtain ⟨o, hl, h⟩ := bind_eq_ok.mp h
  cases o with
  | none =>
    obtain rfl := Except.ok.inj h
    rfl
  | some x =>
    obtain ⟨pp, t, j⟩ := x
    obtain ⟨-, rfl, rfl⟩ := pageLookup_entry hl
    obtain ⟨s₁, hdec, h⟩ := bind_eq_ok.mp h
    obtain rfl := Except.ok.inj h
    rw [phys_tlbInvalidate]
    simp [setWord, hf, phys_of_pageDecref hdec]

/-- What `page_insert` wrote, when it found a table or made one. -/
inductive Stored (s s' : Kernel) (d : ℕ) (va perm : Word) : Prop
  | found (hp : Has (s.phys d (pdx va)) pteP)
      (hpde : s'.phys d (pdx va) = s.phys d (pdx va) ||| perm)
      (hother : ∀ f k, ¬ (f = d ∧ k = pdx va) →
        ¬ (f = frame (s.phys d (pdx va)) ∧ k = ptx va) → s'.phys f k = s.phys f k)
  | made (p : ℕ) (hp : ¬ Has (s.phys d (pdx va)) pteP) (hl : s.pageFreeList = some p)
      (hzero : ∀ k, k ≠ ptx va → s'.phys p k = 0#32)
      (hpde : s'.phys d (pdx va) = page2pa p ||| pteP ||| pteU ||| pteW ||| perm)
      (hother : ∀ f k, f ≠ p → ¬ (f = d ∧ k = pdx va) → s'.phys f k = s.phys f k)

/-- `page_insert` fails without a write, or stores. -/
theorem stored_of_pageInsert {pp : ℕ} {r : ℤ} (ht : Typed s (dirsOf s) ρ)
    (hd : dirsOf s e = some d) (hva : va < utop)
    (h : s.pageInsert d pp va perm = .ok (r, s')) :
    r < 0 ∧ s'.phys = s.phys ∨ r = 0 ∧ Stored s s' d va perm := by
  have hdir := ht.tree.dir.mp hd
  have hix := (lt_utop_iff va).mp hva
  by_cases hp : Has (s.phys d (pdx va)) pteP
  · have htab := ht.tree.table hd hix hp
    have htd : frame (s.phys d (pdx va)) ≠ d := ne_of_role ρ (by rw [htab, hdir]; simp)
    have hlt : frame (s.phys d (pdx va)) < s.npages := ht.lt (by rw [htab]; simp)
    unfold pageInsert at h
    rw [pgdirWalk_of_present hp hlt ht.window] at h
    obtain ⟨x, hx, h⟩ := bind_eq_ok.mp h
    obtain rfl := Except.ok.inj hx
    obtain ⟨s₁, hrem, h⟩ := bind_eq_ok.mp h
    obtain ⟨rfl, rfl⟩ := Prod.mk.inj (Except.ok.inj h)
    have hrest : ∀ f k, ¬ (f = frame (s.phys d (pdx va)) ∧ k = ptx va) →
        s₁.phys f k = s.phys f k := by
      intro f k hf
      split at hrem
      · exact words_of_pageRemove hrem f k hf
      · obtain rfl := Except.ok.inj hrem
        rfl
    refine Or.inr ⟨rfl, .found hp ?_ fun f k hfd hft => ?_⟩
    · have h1 := hrest d (pdx va) fun h0 => htd h0.1.symm
      simp [Kernel.note, setWord, htd.symm, h1]
    · have h1 := hrest f k hft
      simp [Kernel.note, setWord, hfd, hft, h1]
  · cases hl : s.pageFreeList with
    | none =>
      rw [pageInsert_of_noMem hp hl] at h
      obtain ⟨rfl, rfl⟩ := Prod.mk.inj (Except.ok.inj h)
      exact Or.inl ⟨by decide, rfl⟩
    | some p =>
      have hfree := ht.free.role_of_head hl
      have hlt : p < s.npages := ht.lt (by rw [hfree]; simp)
      have hpd : p ≠ d := ne_of_role ρ (by rw [hfree, hdir]; simp)
      have hnew : ∀ f k, ((s.addTable d (pdx va) p).incRef pp).phys f k =
          if f = d ∧ k = pdx va then page2pa p ||| pteP ||| pteU ||| pteW
          else if f = p then 0#32 else s.phys f k := by
        intro f k
        simp [addTable, Kernel.takePage, Kernel.incRef, setPage, setWord, zeroFrame, Kernel.note]
      have hnp : ¬ Has ((s.addTable d (pdx va) p).phys p (ptx va)) pteP := by
        have h0 := hnew p (ptx va)
        rw [if_neg fun h1 => hpd h1.1, if_pos rfl] at h0
        rw [show (s.addTable d (pdx va) p).phys p (ptx va) = 0#32 from h0]
        exact not_has_zero _
      rw [pageInsert_of_unused (pgdirWalk_of_alloc hp hl hlt ht.window) hnp] at h
      obtain ⟨rfl, rfl⟩ := Prod.mk.inj (Except.ok.inj h)
      refine Or.inr ⟨rfl, .made p hp hl (fun k hk => ?_) ?_ fun f k hfp hfd => ?_⟩
      · simp [storeEntry, Kernel.note, setWord, hnew, hpd, hk]
      · simp [storeEntry, Kernel.note, setWord, hnew, hpd.symm]
      · simp [storeEntry, Kernel.note, setWord, hnew, hfp, hfd]

/-! ## What the tables say -/

/-- What the tables say of virtual page `vpn`: the entry, and whether the directory entry
lets user mode use and write the page. -/
def mappingOf (m : Phys) (d vpn : ℕ) : Option (Word × Bool × Bool) :=
  let pde := m d (vpn / nptentries)
  let pte := m (frame pde) (vpn % nptentries)
  if Has pde pteP ∧ Has pte pteP then some (pte, decide (Has pde pteU), decide (Has pde pteW))
  else none

/-- The mapping determines the entry and what the processor does. -/
theorem mmuWalk_eq_mappingOf (m : Phys) (d vpn : ℕ) :
    mmuWalk m d vpn = (mappingOf m d vpn).map fun x =>
      ⟨frame x.1, decide (x.2.1 ∧ Has x.1 pteU), decide (x.2.2 ∧ Has x.1 pteW)⟩ := by
  unfold mmuWalk mappingOf
  simp only
  split
  · simp
  · rfl

/-- The words that the walk reads are the same. -/
theorem mappingOf_of_index {m m' : Phys} {vpn : ℕ}
    (hpde : m' d (vpn / nptentries) = m d (vpn / nptentries))
    (hpte : Has (m d (vpn / nptentries)) pteP → m' (frame (m d (vpn / nptentries)))
      (vpn % nptentries) = m (frame (m d (vpn / nptentries))) (vpn % nptentries)) :
    mappingOf m' d vpn = mappingOf m d vpn := by
  unfold mappingOf
  simp only [hpde]
  by_cases hp : Has (m d (vpn / nptentries)) pteP
  · rw [hpte hp]
  · simp [hp]

/-- The directory of `e` and its tables have not been written. -/
theorem mappingOf_of_nodes (ht : Tree s.phys (dirsOf s) ρ) (hd : dirsOf s e = some d)
    (hm : ∀ f k, ρ f = .dir e ∨ (∃ i, ρ f = .table e i) → s'.phys f k = s.phys f k) {vpn : ℕ}
    (hlt : vpn < upn) : mappingOf s'.phys d vpn = mappingOf s.phys d vpn := by
  refine mappingOf_of_index (hm d _ (Or.inl (ht.dir.mp hd))) fun hp => ?_
  exact hm _ _ (Or.inr ⟨_, ht.table hd (index_lt hlt) hp⟩)

/-- A directory entry for user pages leaves the rights to the table. -/
def Wide (s : Kernel) : Prop := ∀ e d i, dirsOf s e = some d → i < pdx utop →
  Has (s.phys d i) pteP → Has (s.phys d i) pteU ∧ Has (s.phys d i) pteW

/-- **`page_insert` changes the mapping of one page.** -/
theorem Stored.mappingOf_of_ne (h : Stored s s' d va perm) (ht : Typed s (dirsOf s) ρ)
    (hw : Wide s) (hd : dirsOf s e = some d) (hva : va < utop) (hperm : perm.toNat < 2 ^ 12)
    {vpn : ℕ} (hlt : vpn < upn) (hne : vpn ≠ pgnum va) :
    mappingOf s'.phys d vpn = mappingOf s.phys d vpn := by
  have hdir := ht.tree.dir.mp hd
  have hidx := index_lt hlt
  have hix := (lt_utop_iff va).mp hva
  cases h with
  | found hp hpde hother =>
    have htab := ht.tree.table hd hix hp
    by_cases hi : vpn / nptentries = pdx va
    · have hj : vpn % nptentries ≠ ptx va := by
        intro hj
        rw [pgnum_eq_pdx_ptx, ← hi, ← hj, pageNo_div_add_mod] at hne
        exact hne rfl
      obtain ⟨hU, hW⟩ := hw e d (pdx va) hd hix hp
      have htd : frame (s.phys d (pdx va)) ≠ d := ne_of_role ρ (by rw [htab, hdir]; simp)
      have hword := hother (frame (s.phys d (pdx va))) (vpn % nptentries) (fun h0 => htd h0.1)
        (fun h0 => hj h0.2)
      unfold mappingOf
      simp only [hi, hpde, frame_or_of_lt _ hperm, hword, has_or, hp, hU, hW, true_or]
    · refine mappingOf_of_index (hother d _ (fun h0 => hi h0.2) (fun h0 => ?_)) fun hp' => ?_
      · rw [← h0.1, hdir] at htab
        cases htab
      · have htab' := ht.tree.table hd hidx hp'
        refine hother _ _ (fun h0 => ?_) fun h0 => ?_
        · rw [h0.1, hdir] at htab'
          cases htab'
        · rw [h0.1, htab] at htab'
          exact hi (Role.table.inj htab').2.symm
  | made p hp hl hzero hpde hother =>
    have hfree := ht.free.role_of_head hl
    have hpd : d ≠ p := ne_of_role ρ (by rw [hfree, hdir]; simp)
    by_cases hi : vpn / nptentries = pdx va
    · have hj : vpn % nptentries ≠ ptx va := by
        intro hj
        rw [pgnum_eq_pdx_ptx, ← hi, ← hj, pageNo_div_add_mod] at hne
        exact hne rfl
      have hlt : p < kernWindow := ht.lt_kernWindow (by rw [hfree]; simp)
      have hfr : frame (s'.phys d (pdx va)) = p := by
        rw [hpde, frame_or_of_lt _ hperm, frame_tableEntry hlt]
      unfold mappingOf
      simp only [hi, hfr, hzero _ hj, hp, not_has_zero, and_false, false_and, if_false]
    · refine mappingOf_of_index (hother d _ hpd (fun h0 => hi h0.2)) fun hp' => ?_
      have htab' := ht.tree.table hd hidx hp'
      refine hother _ _ (fun h0 => ?_) fun h0 => ?_
      · rw [h0, hfree] at htab'
        cases htab'
      · rw [h0.1, hdir] at htab'
        cases htab'

/-! ## Teardown -/

/-- The inner loop of `env_free` writes the table. -/
theorem words_of_envFreeTable (hi : i < npdentries) (ht : t = frame (s.phys d i)) (htd : t ≠ d)
    (h : s.envFreeTable d i t = .ok s') (f k : ℕ) (hf : f ≠ t) : s'.phys f k = s.phys f k := by
  have hloop : ∀ f k, f ≠ t → s'.phys f k = s.phys f k := by
    refine foldlM_invariant_mem (P := fun b => ∀ f k, f ≠ t → b.phys f k = s.phys f k) _
      (fun b j hj b' hb hstep f k hf => ?_) (fun _ _ _ => rfl) h
    have hj' := List.mem_range.mp hj
    split at hstep
    · have hw := words_of_pageRemove hstep f k
      rw [pdx_pgaddr hi hj', hb d i htd.symm, ← ht] at hw
      rw [hw fun h0 => hf h0.1, hb f k hf]
    · obtain rfl := Except.ok.inj hstep
      exact hb f k hf
  exact hloop f k hf

/-- The state of the outer loop: a directory entry is as before, or cleared. -/
structure Dismantled (s : Kernel) (ρ : ℕ → Role) (e d : ℕ) (b : Kernel) : Prop where
  dir : ∀ i, b.phys d i = s.phys d i ∨ b.phys d i = 0#32
  other : ∀ f k, f ≠ d → (∀ i, ρ f ≠ .table e i) → b.phys f k = s.phys f k

theorem Dismantled.envFreePde {b b' : Kernel} (h : Dismantled s ρ e d b)
    (ht : Typed s (dirsOf s) ρ) (hd : dirsOf s e = some d) (hi : i < pdx utop)
    (hrun : envFreePde d b i = .ok b') : Dismantled s ρ e d b' := by
  unfold Kernel.envFreePde at hrun
  by_cases hp : Has (b.phys d i) pteP
  · simp only [hp, not_true_eq_false, if_false] at hrun
    -- a present entry has not been cleared
    have hsame : b.phys d i = s.phys d i := by
      rcases h.dir i with h0 | h0
      · exact h0
      · rw [h0] at hp
        exact absurd hp (not_has_zero _)
    obtain ⟨t, hk, hrun⟩ := bind_eq_ok.mp hrun
    have hteq : t = frame (b.phys d i) := by
      unfold kaddr at hk
      split at hk
      · cases hk
      · split at hk
        · cases hk
        · exact (Except.ok.inj hk).symm
    rw [hsame] at hp
    have htab : ρ t = .table e i := by
      rw [hteq, hsame]
      exact ht.tree.table hd hi hp
    have htd : t ≠ d := ne_of_role ρ (by rw [htab, ht.tree.dir.mp hd]; simp)
    obtain ⟨b₁, htable, hrun⟩ := bind_eq_ok.mp hrun
    have hw := words_of_envFreeTable (lt_trans hi (by decide)) hteq htd htable
    obtain ⟨pp, -, hrun⟩ := bind_eq_ok.mp hrun
    have hphys := phys_of_pageDecref hrun
    refine ⟨fun i' => ?_, fun f k hf hft => ?_⟩
    · rw [hphys]
      rcases eq_or_ne i' i with rfl | hne
      · exact Or.inr (by simp [setWord])
      · have h0 : (b₁.setWord d i 0#32).phys d i' = b₁.phys d i' := by simp [setWord, hne]
        rw [h0, hw d i' htd.symm]
        exact h.dir i'
    · have hft' : f ≠ t := by
        rintro rfl
        exact hft i htab
      have h0 : (b₁.setWord d i 0#32).phys f k = b₁.phys f k := by simp [setWord, hf]
      rw [hphys, h0, hw f k hft']
      exact h.other f k hf hft
  · simp only [hp, not_false_eq_true, if_true] at hrun
    obtain rfl := Except.ok.inj hrun
    exact h

/-- `env_free` writes the directory of `e` and its tables. -/
theorem words_of_envFree (ht : Typed s (dirsOf s) ρ) (hd : dirsOf s e = some d)
    (h : s.envFree e = .ok s') (f k : ℕ) (hf : f ≠ d) (hft : ∀ i, ρ f ≠ .table e i) :
    s'.phys f k = s.phys f k := by
  have hpg : (s.envs e).envPgdir = some d := pgdir_of_dirsOf hd
  unfold envFree at h
  obtain ⟨s₁, hs₁, henvs₁, hphys₁⟩ : ∃ s₁ : Kernel, s₁ =
      (if (s.note (.envFree s.cpunum e)).curenv = some e
        then (s.note (.envFree s.cpunum e)).lcr3 (s.note (.envFree s.cpunum e)).kernPgdir
        else s.note (.envFree s.cpunum e)) ∧ s₁.envs = s.envs ∧ s₁.phys = s.phys := by
    refine ⟨_, rfl, ?_⟩
    split <;> exact ⟨rfl, rfl⟩
  simp only [← hs₁] at h
  obtain ⟨d', hd', h⟩ := bind_eq_ok.mp h
  have hdd := deref_eq_ok hd'
  rw [henvs₁, hpg] at hdd
  obtain rfl : d = d' := Option.some.inj hdd
  obtain ⟨s₂, hloop, h⟩ := bind_eq_ok.mp h
  have hdis : Dismantled s ρ e d s₂ := by
    refine foldlM_invariant_mem (P := Dismantled s ρ e d) _ (fun b i hi b' hb hrun => ?_) ?_ hloop
    · exact hb.envFreePde ht hd (List.mem_range.mp hi) hrun
    · exact ⟨fun i => Or.inl (by rw [hphys₁]), fun f k _ _ => by rw [hphys₁]⟩
  obtain ⟨pp, -, h⟩ := bind_eq_ok.mp h
  obtain ⟨s₃, hdec, h⟩ := bind_eq_ok.mp h
  have h₃ := phys_of_pageDecref hdec
  have hs' := Except.ok.inj h
  have hphys : s'.phys = s₂.phys := by
    subst hs'
    exact h₃
  rw [hphys]
  exact hdis.other f k hf hft

end Kernel
end PmakeOs
