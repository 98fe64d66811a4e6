import PmakeOs.Boot.Regions

/-!
# What `mem_init` leaves

The stages of `mem_init`, put together.  `Placed h` is the arithmetic of the boot
allocator: where `kern_pgdir`, `pages` and `envs` come to lie, and that all of it is
within the four megabytes that `entry_pgdir` maps.  From there on every stage keeps
`Booting`, with the entries `kernEntries h` of the kernel's tables at the end.

* `booting_of_memInit` --- what holds if `mem_init` returns;
* `memInit_ok` --- a machine on which it does.
-/

namespace PmakeOs

open Lib

theorem npages_lt (h : Hardware) : i386DetectMemory h < 2 ^ 21 := by
  have h1 := h.basemem.isLt
  have h2 := h.extmem.isLt
  have h3 := h.ext16mem.isLt
  unfold i386DetectMemory
  simp only [pgsize]
  split
  · omega
  · split <;> omega

namespace Kernel

variable {s s' : Kernel} {U l : List ℕ} {h : Hardware}

/-! ## The boot allocator -/

/-- The arrays lie one after the other, above the kernel and below 4 MB. -/
structure Placed (h : Hardware) : Prop where
  kern : 0xF0100000 ≤ (kernPgdirVa h).toNat
  aligned : (kernPgdirVa h).toNat % 4096 = 0
  pages : (pagesVa h).toNat = (kernPgdirVa h).toNat + 4096
  envs : (envsVa h).toNat =
    (pagesVa h).toNat + (8 * i386DetectMemory h + 4095) / 4096 * 4096
  free : (firstFree h).toNat = (envsVa h).toNat + 31 * 4096
  le : (firstFree h).toNat ≤ 0xF0400000

theorem toNat_kernbase : kernbase.toNat = 0xF0000000 := by decide

theorem paddr_eq_ok {kva pa : Word} : paddr kva = .ok pa ↔
    0xF0000000 ≤ kva.toNat ∧ pa = kva - kernbase := by
  unfold paddr
  rw [← toNat_kernbase, ← BitVec.le_def]
  by_cases hlt : kva < kernbase
  · rw [if_pos hlt]
    constructor
    · exact fun h0 => nomatch h0
    · exact fun h0 => absurd h0.1 (BitVec.not_le.mpr hlt)
  · rw [if_neg hlt]
    constructor
    · intro h0
      exact ⟨BitVec.not_lt.mp hlt, (Except.ok.inj h0).symm⟩
    · rintro ⟨-, rfl⟩
      rfl

theorem toNat_sub_kernbase {kva : Word} (hk : 0xF0000000 ≤ kva.toNat) :
    (kva - kernbase).toNat = kva.toNat - 0xF0000000 := by
  rw [BitVec.toNat_sub_of_le (BitVec.le_def.mpr (by rw [toNat_kernbase]; exact hk)), toNat_kernbase]

theorem entryMapped_eq_ok {va : Word} {n : ℕ} {u : Unit} : entryMapped va n = .ok u ↔
    va.toNat + n ≤ 4194304 ∨ 0xF0000000 ≤ va.toNat ∧ va.toNat + n ≤ 0xF0400000 := by
  unfold entryMapped
  have hpt : ptsize = 4194304 := by decide
  have hk : kernbase ≤ va ↔ 0xF0000000 ≤ va.toNat := by rw [BitVec.le_def, toNat_kernbase]
  split
  · rename_i hc
    rw [hpt, toNat_kernbase, hk] at hc
    simp only [true_iff]
    omega
  · rename_i hc
    rw [hpt, toNat_kernbase, hk] at hc
    constructor
    · exact fun h0 => nomatch h0
    · intro h0
      omega

/-- What the checks of the allocations amount to. -/
theorem placed_of_ok {pa : Word} {u : Unit} (hk : paddr (kernPgdirVa h) = .ok pa)
    (h₁ : entryMapped (kernPgdirVa h) pgsize = .ok u)
    (h₂ : entryMapped (pagesVa h) (sizeofPageInfo * i386DetectMemory h) = .ok u)
    (h₃ : entryMapped (envsVa h) (nenv * sizeofEnv) = .ok u) : Placed h := by
  have hend := BitVec.le_def.mp h.linked
  have hn := npages_lt h
  have he : (0xF0100000#32 : Word).toNat = 0xF0100000 := by decide
  rw [he] at hend
  have hkb := (paddr_eq_ok.mp hk).1
  rw [entryMapped_eq_ok, pgsize] at h₁
  rw [entryMapped_eq_ok, sizeofPageInfo] at h₂
  rw [entryMapped_eq_ok, nenv, sizeofEnv] at h₃
  -- the end of the kernel does not wrap when it is rounded
  have hnowrap : h.kernelEnd.toNat + 4095 < 2 ^ 32 := by
    by_contra h0
    have hw := toNat_roundup_of_wrap (Nat.not_lt.mp h0)
    rw [show roundup h.kernelEnd (BitVec.ofNat 32 pgsize) = kernPgdirVa h from rfl] at hw
    omega
  have hkern : (kernPgdirVa h).toNat = (h.kernelEnd.toNat + 4095) / 4096 * 4096 :=
    toNat_roundup hnowrap
  have hpages : (pagesVa h).toNat = (kernPgdirVa h).toNat + 4096 := by
    have hsum : (kernPgdirVa h + BitVec.ofNat 32 pgsize).toNat = (kernPgdirVa h).toNat + 4096 := by
      rw [BitVec.toNat_add, BitVec.toNat_ofNat, pgsize]
      omega
    rw [show pagesVa h = roundup (kernPgdirVa h + BitVec.ofNat 32 pgsize) (BitVec.ofNat 32 pgsize)
      from rfl, toNat_roundup (by omega), hsum]
    omega
  have henvs : (envsVa h).toNat =
      (pagesVa h).toNat + (8 * i386DetectMemory h + 4095) / 4096 * 4096 := by
    have hsum : (pagesVa h + BitVec.ofNat 32 (sizeofPageInfo * i386DetectMemory h)).toNat =
        (pagesVa h).toNat + 8 * i386DetectMemory h := by
      rw [BitVec.toNat_add, BitVec.toNat_ofNat, sizeofPageInfo]
      omega
    rw [show envsVa h = roundup (pagesVa h + BitVec.ofNat 32 (sizeofPageInfo * i386DetectMemory h))
      (BitVec.ofNat 32 pgsize) from rfl, toNat_roundup (by omega), hsum]
    omega
  have hfree : (firstFree h).toNat = (envsVa h).toNat + 31 * 4096 := by
    have hsum : (envsVa h + BitVec.ofNat 32 (nenv * sizeofEnv)).toNat =
        (envsVa h).toNat + 31 * 4096 := by
      rw [BitVec.toNat_add, BitVec.toNat_ofNat, nenv, sizeofEnv]
      omega
    rw [show firstFree h = roundup (envsVa h + BitVec.ofNat 32 (nenv * sizeofEnv))
      (BitVec.ofNat 32 pgsize) from rfl, toNat_roundup (by omega), hsum]
    omega
  exact ⟨by omega, by omega, hpages, henvs, hfree, by omega⟩

/-! ## The stages -/

/-- The first page after the kernel and its arrays, `kernel_end_page`. -/
def kernelEndPage (h : Hardware) : ℕ := pgnum (firstFree h - kernbase)

namespace Placed

variable (hp : Placed h)

include hp

theorem paddr_firstFree : paddr (firstFree h) = .ok (firstFree h - kernbase) := by
  have h1 := hp.kern
  have h2 := hp.pages
  have h3 := hp.envs
  have h4 := hp.free
  exact paddr_eq_ok.mpr ⟨by omega, rfl⟩

theorem toNat_firstFree : (firstFree h).toNat = 0xF0000000 + 4096 * kernelEndPage h := by
  have h1 := hp.kern
  have h2 := hp.pages
  have h3 := hp.envs
  have h4 := hp.free
  have h5 := hp.aligned
  rw [kernelEndPage, pgnum_eq, toNat_sub_kernbase (by omega)]
  omega

theorem toNat_kernPgdirVa : (kernPgdirVa h).toNat = 0xF0000000 + 4096 * kernFrame h := by
  have h1 := hp.kern
  have h5 := hp.aligned
  rw [kernFrame, pgnum_eq, toNat_sub_kernbase (by omega)]
  omega

theorem kernFrame_ge : 256 ≤ kernFrame h := by
  have h1 := hp.kern
  have h2 := hp.toNat_kernPgdirVa
  omega

theorem kernFrame_lt : kernFrame h + 32 ≤ kernelEndPage h := by
  have h1 := hp.toNat_kernPgdirVa
  have h2 := hp.toNat_firstFree
  have h3 := hp.pages
  have h4 := hp.envs
  have h5 := hp.free
  omega

theorem kernelEndPage_le : kernelEndPage h ≤ 1024 := by
  have h1 := hp.toNat_firstFree
  have h2 := hp.le
  omega

theorem kernPgdirVa_sub : kernPgdirVa h - kernbase = page2pa (kernFrame h) := by
  have h1 := hp.toNat_kernPgdirVa
  have h2 := hp.kernFrame_lt
  have h3 := hp.kernelEndPage_le
  apply BitVec.eq_of_toNat_eq
  rw [toNat_sub_kernbase (by omega), toNat_page2pa (by omega)]
  omega

theorem not_usable_kernFrame : ¬ Usable (kernelEndPage h) (kernFrame h) := by
  have h1 := hp.kernFrame_ge
  have h2 := hp.kernFrame_lt
  rw [usable_iff]
  omega

/-- The pages of the free list pass the test. -/
theorem passesCheck {p : ℕ} (hlt : p < kernWindow) (hu : Usable (kernelEndPage h) p) :
    PassesCheck (firstFree h) p := by
  have h1 := hp.kernFrame_ge
  have h2 := hp.kernFrame_lt
  have h3 := hp.toNat_firstFree
  rw [kernWindow] at hlt
  rw [usable_iff] at hu
  have hpa : (page2pa p).toNat = p * 4096 := toNat_page2pa (by omega)
  have hne : ∀ {w : Word}, w.toNat ≠ p * 4096 → page2pa p ≠ w := by
    rintro w hw rfl
    exact hw hpa
  have hext : extphysmem.toNat = 256 * 4096 := by decide
  refine ⟨hne ?_, hne ?_, hne ?_, hne ?_, fun hge => ?_, hne ?_⟩
  · have h0 : (0#32 : Word).toNat = 0 := by decide
    omega
  · have h0 : iophysmem.toNat = 160 * 4096 := by decide
    omega
  · have h0 : (extphysmem - BitVec.ofNat 32 pgsize).toNat = 255 * 4096 := by decide
    omega
  · omega
  · rw [BitVec.le_def, hext, hpa] at hge
    rw [BitVec.le_def, BitVec.toNat_add, hpa, toNat_kernbase]
    omega
  · have h0 : mpentryPaddr.toNat = 7 * 4096 := by decide
    omega

end Placed

/-- There are more free pages below the device hole than tables. -/
theorem length_usablePages {k n : ℕ} (hn : 160 ≤ n) : 90 < (usablePages k n).length := by
  have hnd : (List.range' 8 150).Nodup := List.nodup_range'
  have hsub : List.range' 8 150 ⊆ usablePages k n := by
    intro p hp
    rw [List.mem_range'_1] at hp
    rw [mem_usablePages, usable_iff]
    omega
  have hle := (hnd.subperm hsub).length_le
  rw [List.length_range'] at hle
  omega

theorem nodup_usablePages (k n : ℕ) : (usablePages k n).Nodup :=
  List.nodup_reverse.mpr (List.nodup_range.filter _)

/-- The pages of the allocator. -/
def allocatable (h : Hardware) : List ℕ := usablePages (kernelEndPage h) (i386DetectMemory h)

/-- `kern_pgdir` before it has tables. -/
theorem early_phys (hp : Placed h) (i : ℕ) : (early h).phys (kernFrame h) i =
    if i = pdx uvpt then page2pa (kernFrame h) ||| pteU ||| pteP else 0#32 := by
  rw [early, hp.kernPgdirVa_sub]
  by_cases hi : i = pdx uvpt
  · simp [setWord, hi]
  · simp [setWord, zeroFrame, hi]

/-- After `page_init` there are no tables yet. -/
theorem Placed.booting (hp : Placed h) (hw : i386DetectMemory h ≤ kernWindow)
    {pages : ℕ → PageInfo} {pfl : Option ℕ}
    (hpool : Pool { early h with pages := pages, pageFreeList := pfl } (allocatable h)) :
    Booting (allocatable h) { early h with pages := pages, pageFreeList := pfl } (allocatable h)
      fun _ => 0#32 := by
  have hzero : ∀ i, i ≠ pdx uvpt → (early h).phys (kernFrame h) i = 0#32 := by
    intro i hi
    rw [early_phys hp, if_neg hi]
  have habs : ∀ i, KernIndex i → ¬ Has ((early h).phys (kernFrame h) i) pteP := by
    intro i hi
    rw [hzero i hi.2.2]
    exact not_has_zero _
  have hkf : kernFrame h < 2 ^ 20 := by
    have h1 := hp.kernFrame_lt
    have h2 := hp.kernelEndPage_le
    omega
  refine ⟨hpool, hw, fun p hpU => (mem_usablePages.mp hpU).1, fun p hpU => hpU, ?_, ?_, ?_, ?_⟩
  · exact fun h0 => hp.not_usable_kernFrame (mem_usablePages.mp h0).2
  · refine ⟨fun i hi => hzero i ?_, ?_, fun i hi => Or.inl (hzero i hi.2.2),
      fun i _ hi _ hpr _ => absurd hpr (habs i hi), fun p hpU hl => absurd hpU hl⟩
    · rw [pdx_utop] at hi
      rw [pdx_uvpt]
      omega
    · show LeadsTo ((early h).phys (kernFrame h) (pdx uvpt)) (kernFrame h)
      rw [early_phys hp, if_pos rfl]
      have hP : Has pteP pteP := by decide
      have hU : Has pteU pteU := by decide
      refine ⟨by simp [hP], by simp [hU], ?_⟩
      rw [frame_or_of_lt _ (by decide), frame_or_of_lt _ (by decide), frame_page2pa hkf]
  · exact fun i j hi _ hpr => absurd hpr (habs i hi)
  · exact fun _ _ _ _ _ => rfl

/-! ## The page allocator -/

/-- Three pages of the free list. -/
theorem Booting.bench {E : ℕ → Word} (hb : Booting U s l E) (hU : U.Nodup) (h71 : 71 < U.length) :
    ∃ a b c rest, l = a :: b :: c :: rest ∧ Bench s a b c rest := by
  have hlen := hb.length_le hU
  match l, hb, hlen with
  | [], hb, hlen => simp at hlen; omega
  | [_], hb, hlen => simp at hlen; omega
  | [_, _], hb, hlen => simp at hlen; omega
  | a :: b :: c :: rest, hb, _ =>
    exact ⟨a, b, c, rest, rfl, hb.pool, hb.window, fun h0 => hb.kern (hb.sub _ h0)⟩

/-- **`check_page`.** -/
theorem Booting.checkPage (hb : Booting U s l fun _ => 0#32) (hU : U.Nodup)
    (h71 : 71 < U.length) :
    ∃ s' l', s.checkPage mmiobase = .ok (mmiobase + 12288#32, s') ∧ Still s s' ∧
      Has (s'.phys s'.kernPgdir (pdx mmiobase)) pteP ∧ Booting U s' l' fun _ => 0#32 := by
  obtain ⟨a, b, c, rest, rfl, bench⟩ := hb.bench hU h71
  have hA : a = a ∨ a = b ∨ a = c := Or.inl rfl
  have hB : b = a ∨ b = b ∨ b = c := Or.inr (Or.inl rfl)
  have hC : c = a ∨ c = b ∨ c = c := Or.inr (Or.inr rfl)
  obtain ⟨ha, hbr, hc⟩ := bench.not_mem_rest
  have h0 : s.phys s.kernPgdir 0 = 0#32 := hb.dir.low 0 (by rw [pdx_utop]; omega)
  have h1 : s.phys s.kernPgdir 1 = 0#32 := hb.dir.low 1 (by rw [pdx_utop]; omega)
  obtain ⟨s₁, s₂, s₃, hrun₁, hrun₂, hrun₃, h₃⟩ := bench.take
  have h₄ := h₃.steal bench.not_mem_rest
  obtain ⟨s₅, w, hrun₅, hw, h₅⟩ := bench.checkPageMap h₄ (fun _ => rfl) h0 h1
  obtain ⟨s₆, pte, hrun₆, h₆⟩ := bench.checkPageTables h₅ hw h0 h1
  have h₇ := h₆.giveBack bench rfl h₃ rfl
  obtain ⟨s₈, hrun₈, h₈⟩ := h₇.pageFree hA ha (bench.ref hA)
  obtain ⟨s₉, hrun₉, h₉⟩ := h₈.pageFree hB (by simp [bench.ne_ab.symm, hbr]) (bench.ref hB)
  obtain ⟨s₁₀, hrun₁₀, h₁₀⟩ := h₉.pageFree hC
    (by simp [bench.ne_ac.symm, bench.ne_bc.symm, hc]) (bench.ref hC)
  have hperm : (c :: b :: a :: rest).Perm (a :: b :: c :: rest) :=
    (List.Perm.swap b c (a :: rest)).trans ((List.Perm.cons b (.swap a c rest)).trans
      (.swap a b (c :: rest)))
  have htested : Tested s s₁₀ (a :: b :: c :: rest) (c :: b :: a :: rest) :=
    h₁₀.tested bench hperm (fun _ => rfl) rfl fun _ _ _ => rfl
  obtain ⟨s', l', hmmio, hstill, hdev, hb'⟩ := (hb.tested htested).checkMmio hU (by omega)
  refine ⟨s', l', ?_, htested.still.trans hstill, hdev, hb'⟩
  unfold Kernel.checkPage
  rw [hrun₁, ok_bind]
  dsimp only
  rw [hrun₂, ok_bind]
  dsimp only
  rw [hrun₃, ok_bind]
  dsimp only
  rw [assert_of bench.ne_ab.symm, ok_bind, assert_of ⟨bench.ne_bc.symm, bench.ne_ac.symm⟩, ok_bind,
    h₄.mustNotAlloc rfl, ok_bind, hrun₅, ok_bind, hrun₆, ok_bind, hrun₈, ok_bind, hrun₉, ok_bind,
    hrun₁₀, ok_bind, hmmio]

/-- **The page allocator is set up**, on every machine with a page above the kernel and
none beyond the window. -/
theorem setUpPages_ok (hp : Placed h) (hw : i386DetectMemory h ≤ kernWindow)
    (hk : kernelEndPage h < i386DetectMemory h) :
    ∃ s l, setUpPages h = .ok s ∧ Still (early h) s ∧
      Has (s.phys s.kernPgdir (pdx mmiobase)) pteP ∧ Booting (allocatable h) s l fun _ => 0#32 := by
  obtain ⟨pages, pfl, hinit, hpool⟩ := pageInit_ok (s := early h) (firstFree h) rfl
    (fun _ => rfl) hp.paddr_firstFree
  have hge := hp.kernFrame_ge
  have hlt := hp.kernFrame_lt
  have hU : (allocatable h).Nodup := nodup_usablePages _ _
  have h90 : 90 < (allocatable h).length := length_usablePages (by omega)
  have hb := hp.booting hw hpool
  have hmem : ∀ p, p ∈ allocatable h ↔ p < i386DetectMemory h ∧ Usable (kernelEndPage h) p :=
    fun p => mem_usablePages
  have hext : extphysmem.toNat = 256 * 4096 := by decide
  have hkw : kernelEndPage h < 2 ^ 20 := by
    rw [kernWindow] at hw
    omega
  obtain ⟨s₁, l₁, hrun₁, ht₁⟩ := hpool.checkPageFreeList hw (firstFree h)
    (fun p hpU => hp.passesCheck (lt_of_lt_of_le ((hmem p).mp hpU).1 hw) ((hmem p).mp hpU).2)
    ⟨1, (hmem 1).mpr ⟨by omega, usable_iff.mpr (by omega)⟩, by decide⟩
    ⟨kernelEndPage h, (hmem _).mpr ⟨hk, usable_iff.mpr (by omega)⟩, by
      rw [BitVec.le_def, hext, toNat_page2pa hkw]
      omega⟩ true
  have hb₁ := hb.tested ht₁
  obtain ⟨a, b, c, rest, rfl, bench⟩ := hb₁.bench hU (by omega)
  obtain ⟨s₂, hrun₂, ht₂⟩ := bench.checkPageAlloc
  have hb₂ := hb₁.tested ht₂
  obtain ⟨s₃, l₃, hrun₃, hstill₃, hdev, hb₃⟩ := hb₂.checkPage hU (by omega)
  refine ⟨s₃, l₃, ?_, ?_, hdev, hb₃⟩
  · rw [setUpPages, hinit, ok_bind, hrun₁, ok_bind, hrun₂, ok_bind, hrun₃]
    rfl
  · have hstart : Still (early h) { early h with pages := pages, pageFreeList := pfl } :=
      ⟨rfl, rfl, rfl, rfl, rfl, fun _ => rfl⟩
    exact ((hstart.trans ht₁.still).trans ht₂.still).trans hstill₃

end Kernel
end PmakeOs
