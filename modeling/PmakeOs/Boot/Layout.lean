import PmakeOs.Boot.Exposure

/-!
# The address space that boot leaves

`inc/memlayout.h` draws the kernel's part of the address space.  `memLayout h` is that picture as
a function: the window of physical memory from `KERNBASE` on, below it one stack for each CPU with
a gap under it, the two arrays that user mode may read, and nothing else.  On every machine with
memory enough, boot returns, no test of `mem_init` panics, and the MMU finds exactly the picture
(`bootUp_layout`).  The slot at `UVPT`, where the directory is its own table, is left out.
-/

namespace PmakeOs

open Lib

namespace Kernel

variable {s : Kernel} {U l : List ℕ} {E : ℕ → Word} {h : Hardware}

/-- Where virtual page `vpn` leads, by `inc/memlayout.h`. -/
def memLayout (h : Hardware) (vpn : ℕ) : Option Translation :=
  if pgnum kernbase ≤ vpn then
    some ⟨vpn - pgnum kernbase, false, true⟩
  else if pgnum mmiolim ≤ vpn then
    -- eight pages of stack from the top, and eight pages of gap
    let i := (pgnum kstacktop - 1 - vpn) / 16
    let k := (pgnum kstacktop - 1 - vpn) % 16
    if i < ncpu ∧ k < 8 then some ⟨pgnum (stackAt h i - kernbase) + (7 - k), false, true⟩ else none
  else if pgnum upages ≤ vpn ∧ vpn < pgnum uvpt then
    some ⟨pgnum (pagesVa h - kernbase) + (vpn - pgnum upages), true, false⟩
  else if pgnum uenvs ≤ vpn ∧ vpn < pgnum upages then
    some ⟨pgnum (envsVa h - kernbase) + (vpn - pgnum uenvs), true, false⟩
  else
    none

theorem pgnum_uvpt : pgnum uvpt = 957 * 1024 := by decide

theorem pgnum_mmiolim : pgnum mmiolim = 959 * 1024 := by decide

theorem pgnum_kstacktop : pgnum kstacktop = 960 * 1024 := by decide

/-! ## One page -/

/-- What the walk finds in an entry of the kernel's tables. -/
def foundIn (w : Word) : Option Translation :=
  if Has w pteP then some ⟨frame w, decide (Has w pteU), decide (Has w pteW)⟩ else none

theorem foundIn_zero : foundIn 0#32 = none := if_neg (not_has_zero _)

/-- An entry of a region, at an aligned address. -/
theorem foundIn_region {pa perm : Word} {f k : ℕ} (hpa : pa.toNat = f * 4096)
    (hlt : f + k < 2 ^ 20) (hperm : perm.toNat < 2 ^ 12) :
    foundIn (pa + BitVec.ofNat 32 (k * pgsize) ||| pteP ||| perm) =
      some ⟨f + k, decide (Has perm pteU), decide (Has perm pteW)⟩ := by
  have hP : Has pteP pteP := by decide
  have hPU : ¬ Has pteP pteU := by decide
  have hPW : ¬ Has pteP pteW := by decide
  have hpage : pa + BitVec.ofNat 32 (k * pgsize) = page2pa (f + k) := by
    apply BitVec.eq_of_toNat_eq
    rw [toNat_page2pa hlt, BitVec.toNat_add, BitVec.toNat_ofNat, hpa, pgsize]
    omega
  have hU : ¬ Has (page2pa (f + k)) pteU := not_has_page2pa _ (by decide)
  have hW : ¬ Has (page2pa (f + k)) pteW := not_has_page2pa _ (by decide)
  rw [hpage, foundIn, if_pos (by simp [hP]), frame_or_of_lt _ hperm,
    frame_or_of_lt _ (by decide), frame_page2pa hlt]
  simp [hPU, hPW, hU, hW]

/-- The walk through `kern_pgdir` reads the kernel's entries. -/
theorem Booting.mmuWalk_eq (hb : Booting U s l E) {vpn : ℕ} (hi : KernIndex (vpn / nptentries)) :
    PmakeOs.mmuWalk s.phys s.kernPgdir vpn = foundIn (E vpn) := by
  have hj := mod_lt_nptentries vpn
  have hvpn : vpn / nptentries * nptentries + vpn % nptentries = vpn :=
    Nat.div_add_mod' vpn nptentries
  by_cases hP : Has (E vpn) pteP
  · have hwalk := hb.mmuWalk hi hj (by rw [hvpn]; exact hP)
    rw [hvpn] at hwalk
    rw [hwalk, foundIn, if_pos hP]
  · rw [foundIn, if_neg hP]
    refine if_neg fun hboth => hP ?_
    have hentry := hb.entry _ _ hi hj hboth.1
    rw [hvpn] at hentry
    rw [← hentry]
    exact hboth.2

/-! ## The regions -/

/-- Where the arrays are. -/
theorem Placed.toNat_windows (hp : Placed h) :
    (pagesVa h - kernbase).toNat = pgnum (pagesVa h - kernbase) * 4096 ∧
      (envsVa h - kernbase).toNat = pgnum (envsVa h - kernbase) * 4096 ∧
      pgnum (pagesVa h - kernbase) < 1024 ∧ pgnum (envsVa h - kernbase) < 1024 := by
  have hk := hp.kern
  have hal := hp.aligned
  have hpg := hp.pages
  have hen := hp.envs
  have hfr := hp.free
  have hle := hp.le
  rw [pgnum_eq, pgnum_eq, toNat_sub_kernbase (by omega), toNat_sub_kernbase (by omega)]
  omega

/-- Where the stack of CPU `i` is. -/
theorem Stacked.toNat_stack (hs : Stacked h) {i : ℕ} (hi : i < ncpu) :
    (stackAt h i - kernbase).toNat = pgnum (stackAt h i - kernbase) * 4096 ∧
      pgnum (stackAt h i - kernbase) + 8 < 2 ^ 20 := by
  have hto := hs.toNat_stackAt hi
  have hpc := hs.percpu
  have hfits := hs.fits
  have hal := hs.aligned
  rw [ncpu] at hi hfits
  rw [show kstksize = 32768 by decide] at hfits
  rw [pgnum_eq, toNat_sub_kernbase (by omega)]
  omega

/-- Between the windows and the stacks there is nothing. -/
theorem regionEntries_unused {x : ℕ} (hlo : 957 * 1024 ≤ x) (hhi : x < 960 * 1024 - 8) :
    regionEntries h x = 0#32 := by
  have h0 : pgnum (stackVa 0) = 983032 := pgnum_stackVa (by decide)
  rw [regionEntries, pgnum_kernbase, pgnum_uenvs, pgnum_upages, h0, overlay_of_not (by omega),
    overlay_of_not (by omega), overlay_of_not (by omega), overlay_of_not (by omega)]

/-- **The kernel's entries are the picture.** -/
theorem foundIn_kernEntries (hp : Placed h) (hs : Stacked h) {vpn : ℕ}
    (hlo : pgnum uenvs ≤ vpn) (hhi : vpn < 2 ^ 20)
    (hself : vpn < pgnum uvpt ∨ pgnum mmiobase ≤ vpn) :
    foundIn (kernEntries h vpn) = memLayout h vpn := by
  obtain ⟨hpages, henvs, hpages', henvs'⟩ := hp.toNat_windows
  have hPU : Has (pteU ||| pteP) pteU := by decide
  have hPW : ¬ Has (pteU ||| pteP) pteW := by decide
  have hWU : ¬ Has pteW pteU := by decide
  have hWW : Has pteW pteW := by decide
  have hmmio : pgnum mmiobase = 958 * 1024 := by decide
  rw [pgnum_uenvs] at hlo
  rw [pgnum_uvpt, hmmio] at hself
  unfold memLayout
  rw [pgnum_kernbase, pgnum_mmiolim, pgnum_kstacktop, pgnum_upages, pgnum_uvpt, pgnum_uenvs]
  dsimp only
  by_cases hmem : 960 * 1024 ≤ vpn
  · obtain ⟨k, rfl⟩ := Nat.exists_eq_add_of_le hmem
    rw [if_pos hmem, kernEntries_memory (by omega),
      foundIn_region (f := 0) (by decide) (by omega) (by decide), Nat.add_sub_cancel_left,
      Nat.zero_add]
    simp [hWU, hWW]
  rw [if_neg hmem]
  by_cases hstk : 959 * 1024 ≤ vpn
  · rw [if_pos hstk]
    generalize hi : (960 * 1024 - 1 - vpn) / 16 = i
    generalize hk : (960 * 1024 - 1 - vpn) % 16 = k
    by_cases hin : i < ncpu ∧ k < 8
    · obtain ⟨hin, hk8⟩ := hin
      obtain ⟨hto, hlt⟩ := hs.toNat_stack hin
      have hvpn : vpn = 983040 - 8 - i * 16 + (7 - k) := by omega
      rw [if_pos ⟨hin, hk8⟩, hvpn, kernEntries_stack hin (by omega),
        foundIn_region hto (by omega) (by decide)]
      simp [hWU, hWW]
    · rw [if_neg hin]
      by_cases hcpu : i < ncpu
      · -- the gap under the stack of CPU `i`
        have hvpn : vpn = 983040 - 16 - i * 16 + (15 - k) := by
          have hk8 : ¬ k < 8 := fun hk8 => hin ⟨hcpu, hk8⟩
          omega
        rw [hvpn, kernEntries_gap hcpu (by omega), foundIn_zero]
      · have hzero : kernEntries h vpn = 0#32 := by
          rw [ncpu] at hcpu
          rw [kernEntries, stackEntries_off (Nat.le_refl _) fun j hj => by rw [ncpu] at hj; omega]
          exact regionEntries_unused (by omega) (by omega)
        rw [hzero, foundIn_zero]
  rw [if_neg hstk]
  by_cases hup : 956 * 1024 ≤ vpn ∧ vpn < 957 * 1024
  · obtain ⟨k, rfl⟩ := Nat.exists_eq_add_of_le hup.1
    rw [if_pos hup, kernEntries_pages (by omega),
      foundIn_region hpages (by omega) (by decide), Nat.add_sub_cancel_left]
    simp [hPU, hPW]
  rw [if_neg hup]
  by_cases hue : 955 * 1024 ≤ vpn ∧ vpn < 956 * 1024
  · obtain ⟨k, rfl⟩ := Nat.exists_eq_add_of_le hue.1
    rw [if_pos hue, kernEntries_envs (by omega),
      foundIn_region henvs (by omega) (by decide), Nat.add_sub_cancel_left]
    simp [hPU, hPW]
  -- the device window, of which boot has used nothing
  have hzero : kernEntries h vpn = 0#32 := by
    rw [kernEntries_off (by omega)]
    exact regionEntries_unused (by omega) (by omega)
  rw [if_neg hue, hzero, foundIn_zero]

/-- **Boot leaves the picture**, and all memory but 68 pages of tables is free: on every machine
whose memory reaches 69 pages beyond the kernel, `mem_init` returns. -/
theorem bootUp_layout (hp : Placed h) (hs : Stacked h) (hw : i386DetectMemory h ≤ kernWindow)
    (hk : kernelEndPage h + 68 < i386DetectMemory h) :
    ∃ s, bootUp h = .ok s ∧
      (∀ vpn < 2 ^ 20, vpn / nptentries ≠ pdx uvpt →
        PmakeOs.mmuWalk s.phys s.kernPgdir vpn = memLayout h vpn) ∧
      ∃ l, Threads s.links s.pageFreeList l ∧ l.Nodup ∧ (∀ p ∈ l, p ∈ allocatable h) ∧
        (∀ p ∈ l, (s.pages p).ppRef = 0#16) ∧ (allocatable h).length ≤ l.length + 68 := by
  obtain ⟨s, hrun⟩ := memInit_ok hp hs hw hk
  obtain ⟨-, -, -, -, l, hb, -⟩ := booting_of_memInit hrun
  have heq := envInit_eq s
  refine ⟨s.envInit, by rw [bootUp, hrun]; rfl, fun vpn hlt hself => ?_, l, ?_, hb.pool.nodup,
    hb.sub, fun p hpl => ?_, hb.length_le (nodup_usablePages _ _)⟩
  · have hphys : s.envInit.phys = s.phys := by rw [heq]
    have hdir : s.envInit.kernPgdir = s.kernPgdir := by rw [heq]
    rw [hphys, hdir]
    rw [show pdx uvpt = 957 by decide, nptentries] at hself
    have hmmio : pgnum mmiobase = 958 * 1024 := by decide
    by_cases hlow : vpn < pgnum uenvs
    · -- nothing below `UTOP`
      have hdir0 := hb.dir.low (vpn / nptentries) (by
        rw [pgnum_uenvs] at hlow
        rw [pdx_utop, nptentries]
        omega)
      rw [memLayout, if_neg (by rw [pgnum_kernbase]; rw [pgnum_uenvs] at hlow; omega),
        if_neg (by rw [pgnum_mmiolim]; rw [pgnum_uenvs] at hlow; omega),
        if_neg (by rw [pgnum_upages]; rw [pgnum_uenvs] at hlow; omega), if_neg (by omega)]
      refine if_neg fun hboth => ?_
      rw [hdir0] at hboth
      exact not_has_zero _ hboth.1
    · rw [pgnum_uenvs] at hlow
      rw [hb.mmuWalk_eq (kernIndex_iff.mpr (by rw [nptentries]; omega)),
        foundIn_kernEntries hp hs (by rw [pgnum_uenvs]; omega) hlt
          (by rw [pgnum_uvpt, hmmio]; omega)]
  · rw [heq]
    exact hb.pool.list
  · rw [heq]
    exact hb.pool.ref p hpl

/-- The machine with 64 MB. -/
theorem bootUp_layout_machine64 : ∃ s, bootUp machine64 = .ok s ∧
    (∀ vpn < 2 ^ 20, vpn / nptentries ≠ pdx uvpt →
      PmakeOs.mmuWalk s.phys s.kernPgdir vpn = memLayout machine64 vpn) ∧
    ∃ l, Threads s.links s.pageFreeList l ∧ l.Nodup ∧ (∀ p ∈ l, p ∈ allocatable machine64) ∧
      (∀ p ∈ l, (s.pages p).ppRef = 0#16) ∧ (allocatable machine64).length ≤ l.length + 68 := by
  have hp : Placed machine64 := by
    constructor <;> decide +kernel
  have hs : Stacked machine64 := by
    constructor <;> decide +kernel
  exact bootUp_layout hp hs (by decide +kernel) (by decide +kernel)

end Kernel
end PmakeOs
