import PmakeOs.Boot.FreeList

/-!
# What the windows at `UPAGES` and `UENVS` show

`mem_init` maps four megabytes from `pages` on at `UPAGES`, and four megabytes from `envs` on
at `UENVS`, for user mode to read.  The array `envs` takes 31 pages.  What follows it is the
first memory that `page_init` gives to the allocator, so the window at `UENVS` shows 993 pages
of that.  The tables of `kern_pgdir` take 68 of them at most, and the last test of `mem_init`
insists that a page above the kernel is free; so on every machine that is accepted, a free
page is in the window.
-/

namespace PmakeOs

open Lib

namespace Kernel

variable {s : Kernel} {U l : List ℕ} {E : ℕ → Word} {h : Hardware}

/-- User mode can read frame `f` through the windows of `kern_pgdir`. -/
def Exposed (s : Kernel) (f : ℕ) : Prop :=
  ∃ vpn t, (pgnum upages ≤ vpn ∧ vpn < pgnum upages + nptentries ∨
      pgnum uenvs ≤ vpn ∧ vpn < pgnum uenvs + nptentries) ∧
    mmuWalk s.phys s.kernPgdir vpn = some t ∧ t.ppn = f ∧ t.user = true

/-- No free page is exposed. -/
def Sealed (s : Kernel) : Prop := ∀ f, Exposed s f → ¬ s.InFreeList f

/-- What the MMU finds in a table of `kern_pgdir`. -/
theorem Booting.mmuWalk {i j : ℕ} (hb : Booting U s l E) (hi : KernIndex i) (hj : j < nptentries)
    (hp : Has (E (i * nptentries + j)) pteP) :
    mmuWalk s.phys s.kernPgdir (i * nptentries + j) =
      some ⟨frame (E (i * nptentries + j)), decide (Has (E (i * nptentries + j)) pteU),
        decide (Has (E (i * nptentries + j)) pteW)⟩ := by
  have hdiv : (i * nptentries + j) / nptentries = i := by
    rw [nptentries] at hj ⊢
    omega
  have hmod : (i * nptentries + j) % nptentries = j := by
    rw [nptentries] at hj ⊢
    omega
  have hpde : Has (s.phys s.kernPgdir i) pteP := by
    by_contra h0
    rw [hb.absent i j hi hj h0] at hp
    exact not_has_zero _ hp
  obtain ⟨hlead, hW, -⟩ := hb.dir.of_present hi hpde
  unfold PmakeOs.mmuWalk
  simp only [hdiv, hmod, hb.entry i j hi hj hpde]
  rw [if_pos ⟨hpde, hp⟩]
  simp [hlead.user, hW]

/-- The frame of `envs`. -/
theorem Placed.toNat_envsVa (hp : Placed h) :
    (envsVa h).toNat = 0xF0000000 + 4096 * (kernelEndPage h - 31) ∧ 31 ≤ kernelEndPage h := by
  have hfree := hp.free
  have hend := hp.toNat_firstFree
  have hge := hp.kernFrame_ge
  have hlt := hp.kernFrame_lt
  omega

/-- Page `k` of the window at `UENVS`. -/
theorem Booting.exposed_envs (hb : Booting U s l (kernEntries h)) (hp : Placed h) {k : ℕ}
    (hk : k < 1024) : Exposed s (kernelEndPage h - 31 + k) := by
  obtain ⟨henvs, h31⟩ := hp.toNat_envsVa
  have hle := hp.kernelEndPage_le
  have hE := kernEntries_envs (h := h) hk
  have hP : Has pteP pteP := by decide
  have hU : Has pteU pteU := by decide
  have hi : KernIndex 955 := by decide
  have hsum : (envsVa h - kernbase + BitVec.ofNat 32 (k * pgsize)).toNat =
      4096 * (kernelEndPage h - 31 + k) := by
    rw [BitVec.toNat_add, toNat_sub_kernbase (by omega), BitVec.toNat_ofNat, pgsize]
    omega
  have hwalk := hb.mmuWalk hi (j := k) (by rw [nptentries]; exact hk) (by
    show Has (kernEntries h (955 * 1024 + k)) pteP
    rw [hE]
    simp [hP])
  refine ⟨955 * nptentries + k, _, Or.inr ?_, hwalk, ?_, ?_⟩
  · rw [pgnum_uenvs, nptentries]
    omega
  · show frame (kernEntries h (955 * 1024 + k)) = _
    rw [hE, frame_or_of_lt _ (by decide), frame_or_of_lt _ (by decide), frame_eq, hsum]
    omega
  · show decide (Has (kernEntries h (955 * 1024 + k)) pteU) = true
    rw [hE]
    simp [hU]

theorem exists_exposed_free (hrun : memInit h = .ok s) : ∃ p, Exposed s p ∧ s.InFreeList p := by
  obtain ⟨hp, hw, hk, hsame, l, hb, q, hq, hext⟩ := booting_of_memInit hrun
  obtain ⟨-, h31⟩ := hp.toNat_envsVa
  have hge := hp.kernFrame_ge
  have hlt := hp.kernFrame_lt
  have hU : ∀ p, p ∈ allocatable h ↔ p < i386DetectMemory h ∧ Usable (kernelEndPage h) p :=
    fun p => mem_usablePages
  rw [kernWindow] at hw
  -- a free page from the end of the kernel on that is not beyond the window
  have hfree : ∃ p ∈ l, kernelEndPage h ≤ p ∧ p < kernelEndPage h + 993 := by
    rcases Nat.lt_or_ge (i386DetectMemory h) (kernelEndPage h + 993) with hsmall | hlarge
    · have hqU := (hU q).mp (hb.sub q hq)
      have hu := usable_iff.mp hqU.2
      rw [BitVec.le_def, toNat_page2pa (by omega), show extphysmem.toNat = 256 * 4096 by decide]
        at hext
      exact ⟨q, hq, by omega, by omega⟩
    · exact hb.exists_free (fun p h1 h2 => (hU p).mpr ⟨by omega, usable_iff.mpr (by omega)⟩)
        (by omega)
  obtain ⟨p, hpl, h1, h2⟩ := hfree
  have hexp := hb.exposed_envs hp (k := p - (kernelEndPage h - 31)) (by omega)
  rw [show kernelEndPage h - 31 + (p - (kernelEndPage h - 31)) = p by omega] at hexp
  exact ⟨p, hexp, hb.pool.inFreeList_iff.mpr hpl⟩

/-- **On every machine that `mem_init` accepts, a free page is exposed.** -/
theorem not_sealed_of_memInit (hrun : memInit h = .ok s) : ¬ Sealed s := by
  obtain ⟨p, hexp, hfree⟩ := exists_exposed_free hrun
  exact fun hsealed => hsealed p hexp hfree

/-- On the machine with 64 MB. -/
theorem not_sealed_machine64 : ∃ s, memInit machine64 = .ok s ∧ ¬ Sealed s := by
  obtain ⟨s, hboot⟩ := machine64_boots
  obtain ⟨s₁, hrun, -⟩ := bind_eq_ok.mp hboot
  exact ⟨s₁, hrun, not_sealed_of_memInit hrun⟩

/-- So the windows are not sealed in general. -/
theorem not_sealed : ¬ ∀ h s, memInit h = .ok s → Sealed s := by
  intro hall
  obtain ⟨s, hboot⟩ := machine64_boots
  obtain ⟨s₁, hrun, -⟩ := bind_eq_ok.mp hboot
  obtain ⟨p, hexp, hfree⟩ := exists_exposed_free hrun
  exact hall machine64 s₁ hrun p hexp hfree

end Kernel
end PmakeOs
