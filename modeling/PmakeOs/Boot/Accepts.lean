import PmakeOs.Boot.BootUp

/-!
# Machines on which the kernel boots

`check_kern_pgdir` reads the mappings back that `mem_init` has just made.  They are those of
`kernEntries h`, so the tests pass whenever the stacks are aligned and lie above `KERNBASE`.
The last two tests need free pages on either side of the device hole; there are 68 tables, so
69 pages beyond the kernel are enough (`memInit_ok`).
-/

namespace PmakeOs

open Lib

namespace Kernel

variable {s s' : Kernel} {U l : List ℕ} {E : ℕ → Word} {h : Hardware} {va pa perm : Word}

/-! ## The entries of the regions -/

theorem overlay_of_mem {v n x : ℕ} (hx : v ≤ x ∧ x < v + n) :
    overlay E v n pa perm x = pa + BitVec.ofNat 32 ((x - v) * pgsize) ||| pteP ||| perm :=
  if_pos hx

theorem overlay_of_not {v n x : ℕ} (hx : ¬ (v ≤ x ∧ x < v + n)) :
    overlay E v n pa perm x = E x :=
  if_neg hx

/-- A page that belongs to none of the stacks. -/
theorem stackEntries_off {n x : ℕ} (hn : n ≤ ncpu)
    (hx : ∀ i < n, ¬ (983040 - 8 - i * 16 ≤ x ∧ x < 983040 - 8 - i * 16 + 8)) :
    stackEntries h E n x = E x := by
  induction n with
  | zero => rfl
  | succ n ih =>
    have hlast := hx n (Nat.lt_succ_self n)
    rw [stackEntries, overlay_of_not (by rw [pgnum_stackVa (by omega)]; exact hlast)]
    exact ih (by omega) fun i hi => hx i (by omega)

/-- Page `k` of the stack of CPU `i`. -/
theorem stackEntries_at {n i k : ℕ} (hn : n ≤ ncpu) (hi : i < n) (hk : k < 8) :
    stackEntries h E n (983040 - 8 - i * 16 + k) =
      stackAt h i - kernbase + BitVec.ofNat 32 (k * pgsize) ||| pteP ||| pteW := by
  induction n with
  | zero => exact absurd hi (Nat.not_lt_zero i)
  | succ n ih =>
    have hn' := hn
    rw [ncpu] at hn'
    rcases Nat.lt_or_ge i n with hlt | hge
    · rw [stackEntries, overlay_of_not (by rw [pgnum_stackVa (by omega)]; omega)]
      exact ih (by omega) hlt
    · obtain rfl : i = n := by omega
      rw [stackEntries, overlay_of_mem (by rw [pgnum_stackVa (by omega)]; omega),
        pgnum_stackVa (by omega), Nat.add_sub_cancel_left]

theorem pgnum_upages : pgnum upages = 956 * 1024 := by decide

theorem pgnum_uenvs : pgnum uenvs = 955 * 1024 := by decide

theorem pgnum_kernbase : pgnum kernbase = 960 * 1024 := by decide

/-- The stacks are between the device window and `KERNBASE`. -/
theorem kernEntries_off {x : ℕ} (hx : x < 959 * 1024 ∨ 960 * 1024 ≤ x) :
    kernEntries h x = regionEntries h x := by
  refine stackEntries_off (Nat.le_refl _) fun i hi => ?_
  rw [ncpu] at hi
  omega

theorem kernEntries_pages {k : ℕ} (hk : k < 1024) : kernEntries h (956 * 1024 + k) =
    pagesVa h - kernbase + BitVec.ofNat 32 (k * pgsize) ||| pteP ||| (pteU ||| pteP) := by
  have h0 : pgnum (stackVa 0) = 983032 := pgnum_stackVa (by decide)
  rw [kernEntries_off (by omega), regionEntries, pgnum_kernbase, pgnum_uenvs, pgnum_upages, h0,
    overlay_of_not (by omega), overlay_of_not (by omega), overlay_of_not (by omega),
    overlay_of_mem (by omega), Nat.add_sub_cancel_left]

theorem kernEntries_envs {k : ℕ} (hk : k < 1024) : kernEntries h (955 * 1024 + k) =
    envsVa h - kernbase + BitVec.ofNat 32 (k * pgsize) ||| pteP ||| (pteU ||| pteP) := by
  have h0 : pgnum (stackVa 0) = 983032 := pgnum_stackVa (by decide)
  rw [kernEntries_off (by omega), regionEntries, pgnum_kernbase, pgnum_uenvs, pgnum_upages, h0,
    overlay_of_not (by omega), overlay_of_not (by omega), overlay_of_mem (by omega),
    Nat.add_sub_cancel_left]

theorem kernEntries_memory {k : ℕ} (hk : k < 65536) : kernEntries h (960 * 1024 + k) =
    0#32 + BitVec.ofNat 32 (k * pgsize) ||| pteP ||| pteW := by
  rw [kernEntries_off (by omega), regionEntries, pgnum_kernbase, overlay_of_mem (by omega),
    Nat.add_sub_cancel_left]

theorem kernEntries_stack {i k : ℕ} (hi : i < ncpu) (hk : k < 8) :
    kernEntries h (983040 - 8 - i * 16 + k) =
      stackAt h i - kernbase + BitVec.ofNat 32 (k * pgsize) ||| pteP ||| pteW :=
  stackEntries_at (Nat.le_refl _) hi hk

/-- The gap below the stack of CPU `i`. -/
theorem kernEntries_gap {i k : ℕ} (hi : i < ncpu) (hk : k < 8) :
    kernEntries h (983040 - 16 - i * 16 + k) = 0#32 := by
  have hi' := hi
  rw [ncpu] at hi'
  have h0 : pgnum (stackVa 0) = 983032 := pgnum_stackVa (by decide)
  rw [kernEntries, stackEntries_off (Nat.le_refl _) fun j hj => by rw [ncpu] at hj; omega,
    regionEntries, pgnum_kernbase, pgnum_uenvs, pgnum_upages, h0, overlay_of_not (by omega),
    overlay_of_not (by omega), overlay_of_not (by omega), overlay_of_not (by omega)]

/-! ## `check_kern_pgdir` -/

theorem page2pa_frame_of_aligned {w : Word} (hw : w.toNat % 4096 = 0) : page2pa (frame w) = w := by
  apply BitVec.eq_of_toNat_eq
  rw [toNat_page2pa (frame_lt w), frame_eq]
  omega

/-- An entry of a region is present and leads to its page. -/
theorem pteAddr_region {w : Word} (hw : w.toNat % 4096 = 0) (hperm : perm.toNat < 2 ^ 12) :
    Has (w ||| pteP ||| perm) pteP ∧ pteAddr (w ||| pteP ||| perm) = w := by
  have hP : Has pteP pteP := by decide
  refine ⟨by simp [hP], ?_⟩
  rw [pteAddr_eq, frame_or_of_lt _ hperm, frame_or_of_lt _ (by decide), page2pa_frame_of_aligned hw]

theorem Booting.checkVa_mapped {w : Word} (hb : Booting U s l E) (hi : KernIndex (pdx va))
    (hE : E (pgnum va) = w ||| pteP ||| perm) (hw : w.toNat % 4096 = 0)
    (hperm : perm.toNat < 2 ^ 12) : s.checkVa s.kernPgdir va w = .ok () := by
  have hread := hb.checkVa2pa hi
  obtain ⟨hP, haddr⟩ := pteAddr_region hw hperm
  rw [hE, if_pos hP, haddr] at hread
  exact checkVa_of hread

theorem Booting.checkVa_unmapped (hb : Booting U s l E) (hi : KernIndex (pdx va))
    (hE : E (pgnum va) = 0#32) : s.checkVa s.kernPgdir va (BitVec.allOnes 32) = .ok () := by
  have hread := hb.checkVa2pa hi
  rw [hE, if_neg (not_has_zero _)] at hread
  exact checkVa_of hread

theorem toNat_add_page {w : Word} {k : ℕ} (hw : w.toNat % 4096 = 0) :
    (w + BitVec.ofNat 32 (k * pgsize)).toNat % 4096 = 0 := by
  rw [BitVec.toNat_add, BitVec.toNat_ofNat, pgsize]
  omega

/-- **A range that lies in a region passes.** -/
theorem Booting.checkRange (hb : Booting U s l E) {size : Word} (v : ℕ) (perm : Word)
    (hva : va.toNat = v * 4096) (hpa : pa.toNat % 4096 = 0) (hperm : perm.toNat < 2 ^ 12)
    (hlt : v + size.toNat / pgsize ≤ 2 ^ 20)
    (hi : ∀ k < size.toNat / pgsize, KernIndex ((v + k) / nptentries))
    (hE : ∀ k < size.toNat / pgsize,
      E (v + k) = pa + BitVec.ofNat 32 (k * pgsize) ||| pteP ||| perm) :
    s.checkRange size va pa = .ok () := by
  refine forM_eq_ok.mpr fun k hk => ?_
  rw [List.mem_range] at hk
  have hpg : pgnum (va + BitVec.ofNat 32 (k * pgsize)) = v + k := by
    rw [pgnum_add va (by rw [hva, pgsize]; omega), pgnum_eq, hva]
    omega
  refine hb.checkVa_mapped ?_ (by rw [hpg, hE k hk]) (toNat_add_page hpa) hperm
  rw [← pgnum_div, hpg]
  exact hi k hk

/-- The addresses that the linker gives the stacks. -/
structure Stacked (h : Hardware) : Prop where
  boot : 0xF0000000 ≤ h.bootstack.toNat
  percpu : 0xF0000000 ≤ h.percpuKstacks.toNat
  fits : h.percpuKstacks.toNat + ncpu * kstksize ≤ 2 ^ 32
  aligned : h.percpuKstacks.toNat % 4096 = 0

theorem Stacked.toNat_stackAt (hs : Stacked h) {i : ℕ} (hi : i < ncpu) :
    (stackAt h i).toNat = h.percpuKstacks.toNat + i * 32768 := by
  have hfits := hs.fits
  rw [ncpu] at hi hfits
  rw [show kstksize = 32768 by decide] at hfits
  rw [stackAt, show kstksize = 32768 by decide, BitVec.toNat_add, BitVec.toNat_ofNat]
  omega

/-- The part of `check_kern_pgdir` about one CPU. -/
theorem Booting.checkStack (hb : Booting U s l (kernEntries h)) (hs : Stacked h) {n : ℕ}
    (hn : n < ncpu) :
    (do
      let base := kstacktop - BitVec.ofNat 32 ((kstksize + kstkgap) * (n + 1))
      let pa ← paddr (h.percpuKstacks + BitVec.ofNat 32 (n * kstksize))
      s.checkRange (BitVec.ofNat 32 kstksize) (base + BitVec.ofNat 32 kstkgap) pa
      (List.range (kstkgap / pgsize)).forM fun k =>
        s.checkVa s.kernPgdir (base + BitVec.ofNat 32 (k * pgsize)) (BitVec.allOnes 32)) =
      (.ok () : Except Panic Unit) := by
  have hto := hs.toNat_stackAt hn
  have hpc := hs.percpu
  have hal := hs.aligned
  have hn' := hn
  rw [ncpu] at hn'
  have hpa : paddr (stackAt h n) = .ok (stackAt h n - kernbase) :=
    paddr_eq_ok.mpr ⟨by omega, rfl⟩
  have hpa' : (stackAt h n - kernbase).toNat % 4096 = 0 := by
    rw [toNat_sub_kernbase (by omega)]
    omega
  have hbase : kstacktop - BitVec.ofNat 32 ((kstksize + kstkgap) * (n + 1)) +
      BitVec.ofNat 32 kstkgap = stackVa n := by
    interval_cases n <;> decide
  have hgap : (kstacktop - BitVec.ofNat 32 ((kstksize + kstkgap) * (n + 1))).toNat =
      (983040 - 16 - n * 16) * 4096 := by
    interval_cases n <;> decide
  have hsize : (BitVec.ofNat 32 kstksize).toNat / pgsize = 8 := by decide
  have hrange : s.checkRange (BitVec.ofNat 32 kstksize) (stackVa n) (stackAt h n - kernbase) =
      .ok () := by
    refine hb.checkRange (983040 - 8 - n * 16) pteW ?_ hpa' (by decide) ?_ ?_ ?_
    · rw [toNat_stackVa hn]
      omega
    · rw [hsize]
      omega
    · intro k hk
      rw [hsize] at hk
      rw [kernIndex_iff, nptentries]
      omega
    · intro k hk
      rw [hsize] at hk
      exact kernEntries_stack hn hk
  generalize hB : kstacktop - BitVec.ofNat 32 ((kstksize + kstkgap) * (n + 1)) = base at hbase hgap
  dsimp only
  rw [hbase]
  show (paddr (stackAt h n) >>= _) = _
  rw [hpa, ok_bind, hrange, ok_bind]
  refine forM_eq_ok.mpr fun k hk => ?_
  rw [List.mem_range, show kstkgap / pgsize = 8 by decide] at hk
  have hpg : pgnum (base + BitVec.ofNat 32 (k * pgsize)) = 983040 - 16 - n * 16 + k := by
    rw [pgnum_add base (by rw [hgap, pgsize]; omega), pgnum_eq, hgap]
    omega
  refine hb.checkVa_unmapped ?_ (by rw [hpg]; exact kernEntries_gap hn hk)
  rw [← pgnum_div, hpg, kernIndex_iff, nptentries]
  omega

/-- The switch over the directory entries. -/
theorem Booting.checkKernPde (hb : Booting U s l (kernEntries h))
    (hdev : Has (s.phys s.kernPgdir (pdx mmiobase)) pteP) {i : ℕ} (hi : i < npdentries) :
    s.checkKernPde i = .ok () := by
  -- a table of which some entry is not zero is there
  have hthere : ∀ x, KernIndex (x / nptentries) → kernEntries h x ≠ 0#32 →
      Has (s.phys s.kernPgdir (x / nptentries)) pteP := by
    intro x hx hne
    by_contra hno
    refine hne ?_
    have h0 := hb.absent (x / nptentries) (x % nptentries) hx (mod_lt_nptentries x) hno
    rw [pageNo_div_add_mod] at h0
    exact h0
  have hnz : ∀ {w f : Word}, w ||| pteP ||| f ≠ 0#32 := by
    intro w f h0
    have hP : Has (w ||| pteP ||| f) pteP := by
      have hP : Has pteP pteP := by decide
      simp [hP]
    rw [h0] at hP
    exact not_has_zero _ hP
  have e957 : pdx uvpt = 957 := by decide
  have e959 : pdx (kstacktop - 1#32) = 959 := by decide
  have e956 : pdx upages = 956 := by decide
  have e955 : pdx uenvs = 955 := by decide
  have e958 : pdx mmiobase = 958 := by decide
  have e960 : pdx kernbase = 960 := by decide
  rw [npdentries] at hi
  unfold Kernel.checkKernPde
  dsimp only
  by_cases hcase : i = pdx uvpt ∨ i = pdx (kstacktop - 1#32) ∨ i = pdx upages ∨ i = pdx uenvs ∨
      i = pdx mmiobase
  · rw [if_pos hcase]
    refine assert_of ?_
    rcases hcase with rfl | rfl | rfl | rfl | rfl
    · exact hb.dir.self.present
    · have hx := hthere 983032 (by decide) (by
        have hstack := kernEntries_stack (h := h) (i := 0) (k := 0) (by decide) (by decide)
        rw [show 983040 - 8 - 0 * 16 + 0 = 983032 by decide] at hstack
        rw [hstack]
        exact hnz)
      rw [e959]
      exact hx
    · have hx := hthere (956 * 1024) (by decide) (by
        have hpages := kernEntries_pages (h := h) (k := 0) (by decide)
        rw [Nat.add_zero] at hpages
        rw [hpages]
        exact hnz)
      rw [e956]
      exact hx
    · have hx := hthere (955 * 1024) (by decide) (by
        have henvs := kernEntries_envs (h := h) (k := 0) (by decide)
        rw [Nat.add_zero] at henvs
        rw [henvs]
        exact hnz)
      rw [e955]
      exact hx
    · exact hdev
  · rw [if_neg hcase]
    rw [e957, e959, e956, e955, e958] at hcase
    by_cases hk : pdx kernbase ≤ i
    · rw [e960] at hk
      have hki : KernIndex i := kernIndex_iff.mpr (by omega)
      have hx := hthere (i * nptentries) (by rw [nptentries, Nat.mul_div_cancel _ (by decide)]; exact hki)
        (by
          have hmem := kernEntries_memory (h := h) (k := (i - 960) * 1024) (by omega)
          rw [show 960 * 1024 + (i - 960) * 1024 = i * nptentries by rw [nptentries]; omega] at hmem
          rw [hmem]
          exact hnz)
      rw [Nat.mul_div_cancel _ (by decide)] at hx
      obtain ⟨-, hW, -, -, -⟩ := hb.dir.of_present hki hx
      rw [if_pos (by rw [e960]; exact hk), assert_of hx, ok_bind, assert_of hW]
    · rw [if_neg hk]
      rw [e960] at hk
      exact assert_of (hb.dir.low i (by rw [pdx_utop]; omega))

/-- **`check_kern_pgdir` succeeds.** -/
theorem Booting.checkKernPgdir (hb : Booting U s l (kernEntries h)) (hp : Placed h)
    (hs : Stacked h) (hn : s.npages = i386DetectMemory h)
    (hdev : Has (s.phys s.kernPgdir (pdx mmiobase)) pteP) :
    s.checkKernPgdir h (pagesVa h) (envsVa h) = .ok () := by
  have hk := hp.kern
  have hal := hp.aligned
  have hpg := hp.pages
  have hen := hp.envs
  have hw := hb.window
  rw [kernWindow, hn] at hw
  have hpt : pgsize = 4096 := rfl
  have p₁ : paddr (pagesVa h) = .ok (pagesVa h - kernbase) := paddr_eq_ok.mpr ⟨by omega, rfl⟩
  have p₂ : paddr (envsVa h) = .ok (envsVa h - kernbase) := paddr_eq_ok.mpr ⟨by omega, rfl⟩
  have hpages : s.checkRange (roundup (BitVec.ofNat 32 (s.npages * sizeofPageInfo))
      (BitVec.ofNat 32 pgsize)) upages (pagesVa h - kernbase) = .ok () := by
    have hsize : (roundup (BitVec.ofNat 32 (s.npages * sizeofPageInfo))
        (BitVec.ofNat 32 pgsize)).toNat / pgsize ≤ 1024 := by
      have hto : (BitVec.ofNat 32 (s.npages * sizeofPageInfo)).toNat = s.npages * 8 := by
        rw [BitVec.toNat_ofNat, sizeofPageInfo, hn]
        omega
      rw [toNat_roundup (by rw [hto, hn]; omega), hto, hn, hpt]
      omega
    refine hb.checkRange (956 * 1024) (pteU ||| pteP) (by decide) ?_ (by decide)
      (by omega) ?_ fun k hk' => kernEntries_pages (by omega)
    · rw [toNat_sub_kernbase (by omega)]
      omega
    · intro k hk'
      rw [kernIndex_iff, nptentries]
      omega
  have henvs : s.checkRange (roundup (BitVec.ofNat 32 (nenv * sizeofEnv))
      (BitVec.ofNat 32 pgsize)) uenvs (envsVa h - kernbase) = .ok () := by
    have hsize : (roundup (BitVec.ofNat 32 (nenv * sizeofEnv))
        (BitVec.ofNat 32 pgsize)).toNat / pgsize = 31 := by decide
    refine hb.checkRange (955 * 1024) (pteU ||| pteP) (by decide) ?_ (by decide)
      (by omega) ?_ fun k hk' => kernEntries_envs (by omega)
    · rw [toNat_sub_kernbase (by omega)]
      omega
    · intro k hk'
      rw [hsize] at hk'
      rw [kernIndex_iff, nptentries]
      omega
  have hmemory : s.checkRange (BitVec.ofNat 32 (s.npages * pgsize)) kernbase 0#32 = .ok () := by
    have hsize : (BitVec.ofNat 32 (s.npages * pgsize)).toNat / pgsize ≤ 65536 := by
      rw [BitVec.toNat_ofNat, hn, hpt]
      omega
    refine hb.checkRange (960 * 1024) pteW (by decide) (by decide) (by decide)
      (by omega) ?_ fun k hk' => kernEntries_memory (by omega)
    intro k hk'
    rw [kernIndex_iff, nptentries]
    omega
  unfold Kernel.checkKernPgdir
  dsimp only
  rw [p₁, ok_bind, hpages, ok_bind, p₂, ok_bind, henvs, ok_bind, hmemory, ok_bind,
    forM_eq_ok.mpr fun n hn' => hb.checkStack hs (List.mem_range.mp hn'), ok_bind]
  exact forM_eq_ok.mpr fun i hi => hb.checkKernPde hdev (List.mem_range.mp hi)

/-! ## The free pages that are left -/

/-- A run of more pages than there are tables has a free one. -/
theorem Booting.exists_free (hb : Booting U s l E) {a n : ℕ} (hsub : ∀ p, a ≤ p → p < a + n → p ∈ U)
    (hn : 68 < n) : ∃ p ∈ l, a ≤ p ∧ p < a + n := by
  by_contra hno
  push Not at hno
  have hsubset : (List.range' a n).toFinset ⊆ ((Finset.range 1024).filter KernIndex).image
      fun i => frame (s.phys s.kernPgdir i) := by
    intro p hp
    rw [List.mem_toFinset, List.mem_range'_1] at hp
    rw [Finset.mem_image]
    have hl : p ∉ l := fun h0 => absurd hp.2 (Nat.not_lt.mpr (hno p h0 hp.1))
    obtain ⟨i, hi, -, hf⟩ := hb.dir.cover p (hsub p hp.1 hp.2) hl
    refine ⟨i, ?_, hf⟩
    rw [Finset.mem_filter, Finset.mem_range]
    exact ⟨(kernIndex_iff.mp hi).2.1, hi⟩
  have hindex : ((Finset.range 1024).filter KernIndex).card = 68 := by decide +kernel
  have hle := (Finset.card_le_card hsubset).trans Finset.card_image_le
  rw [List.toFinset_card_of_nodup List.nodup_range', List.length_range', hindex] at hle
  omega

/-- **The kernel boots** if the machine has 69 pages beyond the kernel, and none beyond the
window. -/
theorem memInit_ok (hp : Placed h) (hs : Stacked h) (hw : i386DetectMemory h ≤ kernWindow)
    (hk : kernelEndPage h + 68 < i386DetectMemory h) : ∃ s, memInit h = .ok s := by
  have hge := hp.kernFrame_ge
  have hlt := hp.kernFrame_lt
  have hU : (allocatable h).Nodup := nodup_usablePages _ _
  have h90 : 90 < (allocatable h).length := length_usablePages (by omega)
  have hkern := hp.kern
  have hpg := hp.pages
  have hen := hp.envs
  have hfr := hp.free
  have hle := hp.le
  have m₁ : entryMapped (kernPgdirVa h) pgsize = .ok () :=
    entryMapped_eq_ok.mpr (Or.inr (by rw [pgsize]; omega))
  have m₂ : entryMapped (pagesVa h) (sizeofPageInfo * i386DetectMemory h) = .ok () :=
    entryMapped_eq_ok.mpr (Or.inr (by rw [sizeofPageInfo]; omega))
  have m₃ : entryMapped (envsVa h) (nenv * sizeofEnv) = .ok () :=
    entryMapped_eq_ok.mpr (Or.inr (by rw [nenv, sizeofEnv]; omega))
  have hpa : paddr (kernPgdirVa h) = .ok (kernPgdirVa h - kernbase) :=
    paddr_eq_ok.mpr ⟨by omega, rfl⟩
  obtain ⟨s₁, l₁, hrun₁, hstill₁, hdev₁, hb₁⟩ := setUpPages_ok hp hw (by omega)
  have hst : ∀ i < ncpu, 0xF0000000 ≤ (stackAt h i).toNat := by
    intro i hi
    rw [hs.toNat_stackAt hi]
    have hpc := hs.percpu
    omega
  obtain ⟨s₂, l₂, hrun₂, hadds₂, hb₂⟩ := hb₁.setUpTables hU (by omega) hp hs.boot hst
  have hn₂ : s₂.npages = i386DetectMemory h := (hstill₁.trans hadds₂.still).npages
  have hcheck := hb₂.checkKernPgdir hp hs hn₂ (by
    have hdev₂ := hadds₂.tables _ hdev₁
    exact hdev₂)
  have hb₃ := hb₂.lcr3 s₂.kernPgdir
  have hmem : ∀ p, p ∈ allocatable h ↔ p < i386DetectMemory h ∧ Usable (kernelEndPage h) p :=
    fun p => mem_usablePages
  have hext : extphysmem.toNat = 256 * 4096 := by decide
  rw [kernWindow] at hw
  -- there are free pages on both sides of the hole
  obtain ⟨p, hpl, hplo, hphi⟩ := hb₃.exists_free (a := 8) (n := 69)
    (fun p h1 h2 => (hmem p).mpr ⟨by omega, usable_iff.mpr (by omega)⟩) (by omega)
  obtain ⟨q, hql, hqlo, hqhi⟩ := hb₃.exists_free (a := kernelEndPage h) (n := 69)
    (fun p h1 h2 => (hmem p).mpr ⟨by omega, usable_iff.mpr (by omega)⟩) (by omega)
  obtain ⟨s₄, l₄, hfree, ht⟩ := hb₃.pool.checkPageFreeList hb₃.window (firstFree h)
    (fun p hpl => by
      have hpU := (hmem p).mp (hb₃.sub p hpl)
      exact hp.passesCheck (by rw [kernWindow]; omega) hpU.2)
    ⟨p, hpl, by rw [BitVec.lt_def, toNat_page2pa (by omega), hext]; omega⟩
    ⟨q, hql, by rw [BitVec.le_def, toNat_page2pa (by omega), hext]; omega⟩ false
  have hb₄ := hb₃.tested ht
  obtain ⟨a, b, c, rest, rfl, bench⟩ := hb₄.bench hU (by omega)
  have hcr : s₄.thiscpu.cr3 = s₄.kernPgdir := by
    rw [ht.still.kernPgdir, thiscpu, ht.still.cpunum, ht.still.cr3]
    simp [Kernel.lcr3, setCpu, thiscpu]
  obtain ⟨s₅, hinst, -⟩ := bench.checkPageInstalledPgdir hcr
    (hb₄.dir.low 0 (by rw [pdx_utop]; omega))
  refine ⟨s₅, ?_⟩
  unfold memInit finish
  rw [m₁, ok_bind, hpa, ok_bind, m₂, ok_bind, m₃, ok_bind, hrun₁, ok_bind, hrun₂, ok_bind, hcheck,
    ok_bind, hfree, ok_bind]
  exact hinst

/-! ## A machine -/

/-- A machine with 64 MB. -/
def machine64 : Hardware :=
  { basemem := 640#16
    extmem := 15360#16
    ext16mem := 768#16
    kernelEnd := 0xF0160000#32
    bootstack := 0xF010E000#32
    percpuKstacks := 0xF0118000#32
    entryPgdir := 0x116
    phys := fun _ _ => 0#32
    linked := by decide }

theorem machine64_boots : ∃ s, bootUp machine64 = .ok s := by
  have hp : Placed machine64 := by
    constructor <;> decide +kernel
  have hs : Stacked machine64 := by
    constructor <;> decide +kernel
  obtain ⟨s, hrun⟩ := memInit_ok hp hs (by decide +kernel) (by decide +kernel)
  refine ⟨s.envInit, ?_⟩
  rw [bootUp, hrun]
  rfl

end Kernel
end PmakeOs
