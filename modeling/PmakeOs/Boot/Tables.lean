import PmakeOs.Boot.MemInit
import Mathlib.Tactic.IntervalCases

/-!
# The mappings above `UTOP`

`mem_init` maps `pages`, `envs`, the boot stack and all of memory, and `mem_init_mp` the
stacks of the processors.  `kernEntries h` are the entries that come out of it, one overlay
for each call of `boot_map_region`.
-/

namespace PmakeOs

open Lib

namespace Kernel

variable {s s' : Kernel} {U l : List ℕ} {E : ℕ → Word} {h : Hardware}

/-! ## What the tests of the page allocator have seen -/

theorem of_setUpPages (hp : Placed h) (hrun : setUpPages h = .ok s) :
    i386DetectMemory h ≤ kernWindow ∧ kernelEndPage h < i386DetectMemory h := by
  obtain ⟨pages, pfl, hinit, hpool⟩ := pageInit_ok (s := early h) _ rfl (fun _ => rfl)
    hp.paddr_firstFree
  have hge := hp.kernFrame_ge
  have hlt := hp.kernFrame_lt
  have hle := hp.kernelEndPage_le
  rw [setUpPages, hinit, ok_bind] at hrun
  obtain ⟨s₁, hcheck, -⟩ := bind_eq_ok.mp hrun
  have hbig : kernWindow < i386DetectMemory h → kernWindow ∈ allocatable h := by
    intro hbig
    refine mem_usablePages.mpr ⟨hbig, usable_iff.mpr ?_⟩
    rw [kernWindow]
    omega
  obtain ⟨hw, -, -, p, hpU, hext⟩ := hpool.of_checkPageFreeList hbig hcheck
  refine ⟨hw, ?_⟩
  obtain ⟨hpn, hu⟩ := mem_usablePages.mp hpU
  have hpn' : p < i386DetectMemory h := hpn
  have hw' : i386DetectMemory h ≤ kernWindow := hw
  have hu' : Usable (kernelEndPage h) p := hu
  rw [usable_iff] at hu'
  rw [kernWindow] at hw'
  rw [BitVec.le_def, toNat_page2pa (by omega), show extphysmem.toNat = 256 * 4096 by decide] at hext
  omega

/-! ## The regions -/

/-- The lowest page of the stack of CPU `i`. -/
def stackVa (i : ℕ) : Word :=
  kstacktop - BitVec.ofNat 32 kstksize - BitVec.ofNat 32 (i * (kstksize + kstkgap))

/-- The stack of CPU `i` in `percpu_kstacks`. -/
def stackAt (h : Hardware) (i : ℕ) : Word := h.percpuKstacks + BitVec.ofNat 32 (i * kstksize)

/-- The entries `E` with the stacks of the first `n` processors. -/
def stackEntries (h : Hardware) (E : ℕ → Word) : ℕ → ℕ → Word
  | 0 => E
  | n + 1 => overlay (stackEntries h E n) (pgnum (stackVa n)) 8 (stackAt h n - kernbase) pteW

/-- The entries before `mem_init_mp`. -/
def regionEntries (h : Hardware) : ℕ → Word :=
  overlay (overlay (overlay (overlay (fun _ => 0#32)
    (pgnum upages) 1024 (pagesVa h - kernbase) (pteU ||| pteP))
    (pgnum uenvs) 1024 (envsVa h - kernbase) (pteU ||| pteP))
    (pgnum (stackVa 0)) 8 (h.bootstack - kernbase) pteW)
    (pgnum kernbase) 65536 0#32 pteW

/-- **The entries of the kernel's tables.** -/
def kernEntries (h : Hardware) : ℕ → Word := stackEntries h (regionEntries h) ncpu

theorem toNat_stackVa {i : ℕ} (hi : i < ncpu) :
    (stackVa i).toNat = 0xF0000000 - 0x8000 - i * 0x10000 := by
  rw [ncpu] at hi
  interval_cases i <;> decide

theorem pgnum_stackVa {i : ℕ} (hi : i < ncpu) : pgnum (stackVa i) = 983040 - 8 - i * 16 := by
  have hto := toNat_stackVa hi
  rw [pgnum_eq, hto]
  rw [ncpu] at hi
  omega

/-- One region, whose pages all lie above `UTOP`. -/
theorem Booting.region (hb : Booting U s l E) (hU : U.Nodup) (h68 : 68 < U.length) (va : Word)
    {size : Word} {n v : ℕ} (hn : regionPages size = n) (hv : va.toNat = v * 4096) (hlt : v + n ≤ 2 ^ 20)
    (hi : 955 * 1024 ≤ v) (hself : v + n ≤ 957 * 1024 ∨ 958 * 1024 ≤ v) (pa perm : Word) :
    ∃ s' l', s.bootMapRegion s.kernPgdir va size pa perm = .ok s' ∧ Adds s s' ∧
      Booting U s' l' (overlay E (pgnum va) n pa perm) := by
  have hpg : pgnum va = v := by
    rw [pgnum_eq, hv]
    omega
  obtain ⟨s', l', hrun, hstill, hb'⟩ := hb.bootMapRegion hU h68 va size
    (by rw [hn, hv, pgsize]; omega)
    (by
      intro k hk
      rw [hn] at hk
      rw [hpg, kernIndex_iff, nptentries]
      omega) pa perm
  rw [hn] at hb'
  exact ⟨s', l', hrun, hstill, hb'⟩

theorem Booting.stack (hb : Booting U s l E) (hU : U.Nodup) (h68 : 68 < U.length) {i : ℕ}
    (hi : i < ncpu) (pa : Word) :
    ∃ s' l', s.bootMapRegion s.kernPgdir (stackVa i) (BitVec.ofNat 32 kstksize) pa pteW = .ok s' ∧
      Adds s s' ∧ Booting U s' l' (overlay E (pgnum (stackVa i)) 8 pa pteW) := by
  have hto := toNat_stackVa hi
  have hi' := hi
  rw [ncpu] at hi'
  have hpages : regionPages (BitVec.ofNat 32 kstksize) = 8 := by decide
  exact hb.region (v := 983040 - 8 - i * 16) hU h68 _ hpages (by omega) (by omega) (by omega)
    (by omega) pa pteW

/-- **`mem_init_mp`**, if it returns. -/
theorem Booting.of_memInitMp (hb : Booting U s l E) (hU : U.Nodup) (h68 : 68 < U.length)
    (hrun : s.memInitMp h = .ok s') :
    Adds s s' ∧ ∃ l', Booting U s' l' (stackEntries h E ncpu) := by
  refine foldlM_range_invariant (I := fun n x => Adds s x ∧
    ∃ m, Booting U x m (stackEntries h E n)) ⟨.refl s, l, hb⟩ ?_ hrun
  rintro n hn x x' ⟨hstill, m, hx⟩ hround
  obtain ⟨pa, hpa, hround⟩ := bind_eq_ok.mp hround
  obtain ⟨-, rfl⟩ := paddr_eq_ok.mp hpa
  obtain ⟨x'', m', hmap, hstill', hx'⟩ := hx.stack hU h68 hn (stackAt h n - kernbase)
  have hsame : x'' = x' := Except.ok.inj (hmap.symm.trans hround)
  subst hsame
  exact ⟨hstill.trans hstill', m', hx'⟩

theorem Booting.memInitMp (hb : Booting U s l E) (hU : U.Nodup) (h68 : 68 < U.length)
    (hst : ∀ i < ncpu, 0xF0000000 ≤ (stackAt h i).toNat) :
    ∃ s' l', s.memInitMp h = .ok s' ∧ Adds s s' ∧ Booting U s' l' (stackEntries h E ncpu) := by
  have hloop : ∃ s', s.memInitMp h = .ok s' ∧ Adds s s' ∧
      ∃ m, Booting U s' m (stackEntries h E ncpu) := by
    refine foldlM_range_ok (I := fun n x => Adds s x ∧ ∃ m, Booting U x m (stackEntries h E n))
      ⟨.refl s, l, hb⟩ ?_
    rintro n hn x ⟨hstill, m, hx⟩
    obtain ⟨x', m', hmap, hstill', hx'⟩ := hx.stack hU h68 hn (stackAt h n - kernbase)
    refine ⟨x', ?_, hstill.trans hstill', m', hx'⟩
    have hpa : paddr (stackAt h n) = .ok (stackAt h n - kernbase) := paddr_eq_ok.mpr ⟨hst n hn, rfl⟩
    show (paddr (stackAt h n) >>= _) = _
    rw [hpa, ok_bind]
    exact hmap
  obtain ⟨s', hrun, hstill, m, hb'⟩ := hloop
  exact ⟨s', m, hrun, hstill, hb'⟩

/-- The four regions of `mem_init`, one after the other. -/
theorem Booting.regions (hb : Booting U s l fun _ => 0#32) (hU : U.Nodup) (h68 : 68 < U.length)
    (h : Hardware) : ∃ s₁ s₂ s₃ s₄ l',
      s.bootMapRegion s.kernPgdir upages (BitVec.ofNat 32 ptsize) (pagesVa h - kernbase)
        (pteU ||| pteP) = .ok s₁ ∧
      s₁.bootMapRegion s₁.kernPgdir uenvs (BitVec.ofNat 32 ptsize) (envsVa h - kernbase)
        (pteU ||| pteP) = .ok s₂ ∧
      s₂.bootMapRegion s₂.kernPgdir (stackVa 0) (BitVec.ofNat 32 kstksize)
        (h.bootstack - kernbase) pteW = .ok s₃ ∧
      s₃.bootMapRegion s₃.kernPgdir kernbase (BitVec.allOnes 32 - kernbase) 0#32 pteW = .ok s₄ ∧
      Adds s s₄ ∧ Booting U s₄ l' (regionEntries h) := by
  have hpt : regionPages (BitVec.ofNat 32 ptsize) = 1024 := by decide
  have hall : regionPages (BitVec.allOnes 32 - kernbase) = 65536 := by decide
  obtain ⟨s₁, l₁, hrun₁, hst₁, hb₁⟩ := hb.region (v := 956 * 1024) hU h68 upages hpt
    (by decide) (by omega) (by omega) (by omega) (pagesVa h - kernbase)
    (pteU ||| pteP)
  obtain ⟨s₂, l₂, hrun₂, hst₂, hb₂⟩ := hb₁.region (v := 955 * 1024) hU h68 uenvs hpt
    (by decide) (by omega) (by omega) (by omega) (envsVa h - kernbase) (pteU ||| pteP)
  obtain ⟨s₃, l₃, hrun₃, hst₃, hb₃⟩ := hb₂.stack hU h68 (i := 0) (by decide) (h.bootstack - kernbase)
  obtain ⟨s₄, l₄, hrun₄, hst₄, hb₄⟩ := hb₃.region (v := 960 * 1024) hU h68 kernbase hall
    (by decide) (by omega) (by omega) (by omega) 0#32 pteW
  exact ⟨s₁, s₂, s₃, s₄, l₄, hrun₁, hrun₂, hrun₃, hrun₄,
    ((hst₁.trans hst₂).trans hst₃).trans hst₄, hb₄⟩

theorem stackVa_zero : stackVa 0 = kstacktop - BitVec.ofNat 32 kstksize := by decide

/-- **The mappings above `UTOP`**, if they are made. -/
theorem Booting.of_setUpTables (hb : Booting U s l fun _ => 0#32) (hU : U.Nodup)
    (h68 : 68 < U.length) (hrun : setUpTables h s = .ok s') :
    Adds s s' ∧ ∃ l', Booting U s' l' (kernEntries h) := by
  obtain ⟨s₁, s₂, s₃, s₄, l', hrun₁, hrun₂, hrun₃, hrun₄, hstill, hb₄⟩ := hb.regions hU h68 h
  rw [stackVa_zero] at hrun₃
  unfold setUpTables at hrun
  obtain ⟨pa, hpa, hr⟩ := bind_eq_ok.mp hrun
  obtain ⟨-, rfl⟩ := paddr_eq_ok.mp hpa
  rw [hrun₁, ok_bind] at hr
  obtain ⟨pa, hpa, hr⟩ := bind_eq_ok.mp hr
  obtain ⟨-, rfl⟩ := paddr_eq_ok.mp hpa
  rw [hrun₂, ok_bind] at hr
  obtain ⟨pa, hpa, hr⟩ := bind_eq_ok.mp hr
  obtain ⟨-, rfl⟩ := paddr_eq_ok.mp hpa
  rw [hrun₃, ok_bind, hrun₄, ok_bind] at hr
  obtain ⟨hstill', l'', hb'⟩ := hb₄.of_memInitMp hU h68 hr
  exact ⟨hstill.trans hstill', l'', hb'⟩

/-- They are made if the arrays and the stacks have addresses above `KERNBASE`. -/
theorem Booting.setUpTables (hb : Booting U s l fun _ => 0#32) (hU : U.Nodup)
    (h68 : 68 < U.length) (hp : Placed h) (hboot : 0xF0000000 ≤ h.bootstack.toNat)
    (hst : ∀ i < ncpu, 0xF0000000 ≤ (stackAt h i).toNat) :
    ∃ s' l', setUpTables h s = .ok s' ∧ Adds s s' ∧ Booting U s' l' (kernEntries h) := by
  obtain ⟨s₁, s₂, s₃, s₄, l₄, hrun₁, hrun₂, hrun₃, hrun₄, hstill, hb₄⟩ := hb.regions hU h68 h
  obtain ⟨s', l', hmp, hstill', hb'⟩ := hb₄.memInitMp hU h68 hst
  refine ⟨s', l', ?_, hstill.trans hstill', hb'⟩
  have hk := hp.kern
  have hpg := hp.pages
  have hen := hp.envs
  have p₁ : paddr (pagesVa h) = .ok (pagesVa h - kernbase) := paddr_eq_ok.mpr ⟨by omega, rfl⟩
  have p₂ : paddr (envsVa h) = .ok (envsVa h - kernbase) := paddr_eq_ok.mpr ⟨by omega, rfl⟩
  have p₃ : paddr h.bootstack = .ok (h.bootstack - kernbase) := paddr_eq_ok.mpr ⟨hboot, rfl⟩
  rw [stackVa_zero] at hrun₃
  unfold Kernel.setUpTables
  rw [p₁, ok_bind, hrun₁, ok_bind, p₂, ok_bind, hrun₂, ok_bind, p₃, ok_bind, hrun₃, ok_bind, hrun₄,
    ok_bind]
  exact hmp

end Kernel
end PmakeOs
