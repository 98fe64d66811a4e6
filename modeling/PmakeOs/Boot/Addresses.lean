import PmakeOs.Boot.Accepts

/-!
# Addresses of physical memory

Two computations with kernel addresses that nothing checks.

* `boot_alloc` moves a cursor up from the end of the kernel.  It wraps at the end of the
  address space, and there is no comparison with the memory that the machine has, although
  the comment asks for a panic.  `bootAlloc_served` says for which requests this does not
  matter.
* `page2kva` adds `KERNBASE` to the address of a page.  The sum wraps for a page above the
  256 megabytes from `KERNBASE` to the end of the address space, and `i386_detect_memory`
  counts such pages if the machine has them (`pages_addressable`).
-/

namespace PmakeOs

/-! ## `boot_alloc` -/

/-- The end of the last page that holds one of `n` bytes. -/
def pageCeil (n : ℕ) : ℕ := (n + 4095) / 4096 * 4096

theorem toNat_roundup_mod (a : Word) :
    (roundup a (BitVec.ofNat 32 pgsize)).toNat = pageCeil a.toNat % 2 ^ 32 := by
  have ha := a.isLt
  rw [pageCeil]
  by_cases h : a.toNat + 4095 < 2 ^ 32
  · rw [toNat_roundup h]
    omega
  · have hpg : (BitVec.ofNat 32 pgsize).toNat = 4096 := by decide
    have hsum : (a + BitVec.ofNat 32 pgsize - 1).toNat = a.toNat + 4095 - 2 ^ 32 := by
      rw [BitVec.toNat_sub, BitVec.toNat_add, hpg, show (1 : Word).toNat = 1 by decide]
      omega
    rw [roundup, toNat_rounddown, hsum, hpg]
    omega

/-- `if (!nextfree) nextfree = ROUNDUP((char *) end, PGSIZE)` -/
def startNextfree (kernelEnd nextfree : Word) : Word :=
  if nextfree = 0#32 then roundup kernelEnd (BitVec.ofNat 32 pgsize) else nextfree

/-- What a result of `boot_alloc(n)` should be, after other chunks (their sizes and
addresses) have been handed out. -/
structure Serves (kernelEnd : Word) (npages : ℕ) (earlier : List (Word × Word)) (n r : Word) :
    Prop where
  aligned : r.toNat % pgsize = 0
  /-- The bytes lie behind the kernel, in memory that the machine has. -/
  inside : ∀ i < n.toNat, kernelEnd.toNat ≤ r.toNat + i ∧ kernbase.toNat ≤ r.toNat + i ∧
    r.toNat + i < kernbase.toNat + npages * pgsize ∧ r.toNat + i < 2 ^ 32
  disjoint : ∀ c ∈ earlier, ∀ i < n.toNat, ∀ j < c.1.toNat, r.toNat + i ≠ c.2.toNat + j

/-- Every call of `boot_alloc` in a sequence serves its request.  No call panics, so a
request that cannot be met fails this. -/
def AllServed (kernelEnd : Word) (npages : ℕ) :
    Word → List (Word × Word) → List Word → Prop
  | _, _, [] => True
  | nextfree, earlier, n :: ns =>
    let (r, nextfree) := bootAlloc (startNextfree kernelEnd nextfree) n
    Serves kernelEnd npages earlier n r ∧
      AllServed kernelEnd npages nextfree ((n, r) :: earlier) ns

/-- The end of the memory that has kernel addresses. -/
def memoryEnd (npages : ℕ) : ℕ := min (kernbase.toNat + npages * pgsize) (2 ^ 32)

variable {kernelEnd nextfree n : Word} {npages c : ℕ} {earlier : List (Word × Word)}

/-- The cursor stands at `c`, and chunks up to there have been handed out. -/
structure Cursor (kernelEnd nextfree : Word) (earlier : List (Word × Word)) (c : ℕ) : Prop where
  aligned : c % 4096 = 0
  ge : pageCeil kernelEnd.toNat ≤ c
  le : c ≤ 2 ^ 32
  /-- At the end of the address space, the cursor wraps, and starts again. -/
  start : (startNextfree kernelEnd nextfree).toNat =
    if c < 2 ^ 32 then c else pageCeil kernelEnd.toNat % 2 ^ 32
  below : ∀ e ∈ earlier, 0 < e.1.toNat → e.2.toNat + e.1.toNat ≤ c
  /-- If anything has been handed out, then the first page. -/
  first : pageCeil kernelEnd.toNat < c →
    ∃ e ∈ earlier, 0 < e.1.toNat ∧ e.2.toNat = pageCeil kernelEnd.toNat

theorem cursor_start (kernelEnd : Word) :
    Cursor kernelEnd 0#32 [] (pageCeil kernelEnd.toNat) := by
  have hlt := kernelEnd.isLt
  have hle : pageCeil kernelEnd.toNat ≤ 2 ^ 32 := by
    rw [pageCeil]
    omega
  refine ⟨by rw [pageCeil]; omega, le_rfl, hle, ?_, by simp, fun h => absurd h (lt_irrefl _)⟩
  rw [startNextfree, if_pos rfl, toNat_roundup_mod]
  split <;> omega

/-- The cursor after a call, from the sum that is rounded. -/
theorem startNextfree_roundup {a : Word} {c' : ℕ} (hpos : 0 < c') (hle : c' ≤ 2 ^ 32) (ha : pageCeil a.toNat % 2 ^ 32 = c' % 2 ^ 32) :
    (startNextfree kernelEnd (roundup a (BitVec.ofNat 32 pgsize))).toNat =
      if c' < 2 ^ 32 then c' else pageCeil kernelEnd.toNat % 2 ^ 32 := by
  have hr := toNat_roundup_mod a
  rw [ha] at hr
  rw [startNextfree]
  by_cases hlt : c' < 2 ^ 32
  · rw [if_neg, if_pos hlt, hr, Nat.mod_eq_of_lt hlt]
    intro h0
    rw [h0, Nat.mod_eq_of_lt hlt] at hr
    exact absurd hr (by simp; omega)
  · rw [if_neg hlt, if_pos, toNat_roundup_mod]
    apply BitVec.eq_of_toNat_eq
    rw [hr, show c' = 2 ^ 32 by omega]
    rfl

theorem startNextfree_startNextfree :
    startNextfree kernelEnd (startNextfree kernelEnd nextfree) =
      startNextfree kernelEnd nextfree := by
  unfold startNextfree
  by_cases h : nextfree = 0#32
  · rw [if_pos h]
    split <;> rfl
  · rw [if_neg h, if_neg h]

theorem roundup_of_aligned {a : Word} (h : a.toNat % 4096 = 0) :
    roundup a (BitVec.ofNat 32 pgsize) = a := by
  have ha := a.isLt
  apply BitVec.eq_of_toNat_eq
  rw [toNat_roundup_mod, pageCeil]
  omega

theorem Cursor.aligned_start (h : Cursor kernelEnd nextfree earlier c) :
    (startNextfree kernelEnd nextfree).toNat % 4096 = 0 := by
  have hc := h.aligned
  rw [h.start]
  split
  · exact hc
  · rw [pageCeil]
    omega

/-- A request of no bytes does not move the cursor. -/
theorem Cursor.zero (h : Cursor kernelEnd nextfree earlier c) (r : Word) :
    Cursor kernelEnd (bootAlloc (startNextfree kernelEnd nextfree) 0#32).2 ((0#32, r) :: earlier)
      c := by
  have hnext : (bootAlloc (startNextfree kernelEnd nextfree) 0#32).2 =
      startNextfree kernelEnd nextfree := by
    rw [bootAlloc, BitVec.add_zero, roundup_of_aligned h.aligned_start]
  rw [hnext]
  refine ⟨h.aligned, h.ge, h.le, by rw [startNextfree_startNextfree, h.start], ?_, fun hlt => ?_⟩
  · intro e he hpos
    rcases List.mem_cons.mp he with rfl | he
    · exact absurd hpos (by simp)
    · exact h.below e he hpos
  · obtain ⟨e, he, hpos, heq⟩ := h.first hlt
    exact ⟨e, List.mem_cons_of_mem _ he, hpos, heq⟩

/-- A request that fits moves it to the end of its last page. -/
theorem Cursor.step (h : Cursor kernelEnd nextfree earlier c) (hend : kernbase ≤ kernelEnd)
    (hn : 0 < n.toNat) (hfit : c + pageCeil n.toNat ≤ 2 ^ 32) :
    (startNextfree kernelEnd nextfree).toNat = c ∧
      Cursor kernelEnd (bootAlloc (startNextfree kernelEnd nextfree) n).2
        ((n, startNextfree kernelEnd nextfree) :: earlier) (c + pageCeil n.toNat) := by
  have hc := h.aligned
  have hge := h.ge
  have hpos : 0 < pageCeil n.toNat := by
    rw [pageCeil]
    omega
  have hlow : 0 < pageCeil kernelEnd.toNat := by
    rw [BitVec.le_def, show kernbase.toNat = 0xF0000000 by decide] at hend
    rw [pageCeil]
    omega
  have hstart : (startNextfree kernelEnd nextfree).toNat = c := by
    rw [h.start, if_pos (by omega)]
  have hsum : pageCeil (startNextfree kernelEnd nextfree + n).toNat % 2 ^ 32 =
      (c + pageCeil n.toNat) % 2 ^ 32 := by
    rw [BitVec.toNat_add, hstart]
    unfold pageCeil at hfit ⊢
    omega
  refine ⟨hstart, ?_, by omega, hfit, startNextfree_roundup (by omega) hfit hsum, ?_, ?_⟩
  · rw [pageCeil]
    omega
  · intro e he hpos'
    rcases List.mem_cons.mp he with rfl | he
    · dsimp only
      rw [hstart, pageCeil]
      omega
    · exact (h.below e he hpos').trans (by omega)
  · intro _
    rcases eq_or_lt_of_le hge with heq | hlt
    · exact ⟨_, List.mem_cons_self, hn, by rw [heq]; exact hstart⟩
    · obtain ⟨e, he, hpos', heq⟩ := h.first hlt
      exact ⟨e, List.mem_cons_of_mem _ he, hpos', heq⟩

/-- A request that does not fit is not served. -/
theorem Cursor.not_serves (h : Cursor kernelEnd nextfree earlier c) (hn : 0 < n.toNat) (hfit : memoryEnd npages < c + pageCeil n.toNat) :
    ¬ Serves kernelEnd npages earlier n (startNextfree kernelEnd nextfree) := by
  intro hs
  have hc := h.aligned
  have hge := h.ge
  have hle := h.le
  have hstart := h.start
  by_cases hlt : c < 2 ^ 32
  · -- the last byte lies behind the end of memory
    rw [if_pos hlt] at hstart
    obtain ⟨-, -, h₁, h₂⟩ := hs.inside (n.toNat - 1) (by omega)
    rw [hstart, show kernbase.toNat = 0xF0000000 by decide, pgsize] at h₁
    rw [hstart] at h₂
    rw [memoryEnd, show kernbase.toNat = 0xF0000000 by decide, pgsize, pageCeil] at hfit
    omega
  · rw [if_neg hlt] at hstart
    rcases eq_or_lt_of_le hge with heq | hlt'
    · -- the kernel itself reaches the end of the address space
      obtain ⟨-, h₁, -, -⟩ := hs.inside 0 hn
      rw [hstart, heq, show c = 2 ^ 32 by omega, show kernbase.toNat = 0xF0000000 by decide] at h₁
      omega
    · -- the cursor has started again, where the first chunk is
      obtain ⟨e, he, hpos, heq⟩ := h.first hlt'
      refine hs.disjoint e he 0 hn 0 hpos ?_
      rw [hstart, heq, Nat.mod_eq_of_lt (by omega)]

theorem Cursor.serves (h : Cursor kernelEnd nextfree earlier c) (hend : kernbase ≤ kernelEnd)
    (hstart : (startNextfree kernelEnd nextfree).toNat = c)
    (hfit : c + pageCeil n.toNat ≤ memoryEnd npages) :
    Serves kernelEnd npages earlier n (startNextfree kernelEnd nextfree) := by
  have hge := h.ge
  refine ⟨by rw [pgsize]; exact h.aligned_start, fun i hi => ?_, fun e he i _ j hj => ?_⟩
  · rw [BitVec.le_def] at hend
    rw [hstart]
    rw [memoryEnd] at hfit
    unfold pageCeil at hge hfit
    omega
  · have hle := h.below e he (by omega)
    rw [hstart]
    omega

theorem Cursor.allServed_iff (h : Cursor kernelEnd nextfree earlier c)
    (hend : kernbase ≤ kernelEnd) (ns : List Word) :
    AllServed kernelEnd npages nextfree earlier ns ↔
      (∀ n ∈ ns, n = 0#32) ∨ c + (ns.map fun n => pageCeil n.toNat).sum ≤ memoryEnd npages := by
  induction ns generalizing nextfree earlier c with
  | nil => simp [AllServed]
  | cons n ns ih =>
    show Serves kernelEnd npages earlier n (startNextfree kernelEnd nextfree) ∧
      AllServed kernelEnd npages (bootAlloc (startNextfree kernelEnd nextfree) n).2
        ((n, startNextfree kernelEnd nextfree) :: earlier) ns ↔ _
    rw [List.map_cons, List.sum_cons]
    by_cases hn : n = 0#32
    · subst hn
      rw [ih (h.zero _)]
      have hserves : Serves kernelEnd npages earlier 0#32 (startNextfree kernelEnd nextfree) :=
        ⟨by rw [pgsize]; exact h.aligned_start, fun i hi => absurd hi (by simp),
          fun _ _ i hi => absurd hi (by simp)⟩
      have hceil : pageCeil (0#32 : Word).toNat = 0 := by decide
      rw [hceil, Nat.zero_add]
      simp [hserves]
    · have hpos : 0 < n.toNat := by
        rw [Nat.pos_iff_ne_zero]
        exact fun h0 => hn (BitVec.eq_of_toNat_eq h0)
      have hall : ¬ ∀ m ∈ n :: ns, m = 0#32 := fun h0 => hn (h0 n List.mem_cons_self)
      by_cases hfit : c + pageCeil n.toNat ≤ memoryEnd npages
      · obtain ⟨hstart, hnext⟩ := h.step hend hpos (hfit.trans (min_le_right _ _))
        have hserves := h.serves hend hstart hfit
        rw [ih hnext]
        constructor
        · rintro ⟨-, hz | hle⟩
          · have hsum : (ns.map fun n => pageCeil n.toNat).sum = 0 := by
              refine List.sum_eq_zero fun x hx => ?_
              obtain ⟨m, hm, rfl⟩ := List.mem_map.mp hx
              rw [hz m hm]
              decide
            exact Or.inr (by omega)
          · exact Or.inr (by omega)
        · intro hr
          have hle := hr.resolve_left hall
          exact ⟨hserves, Or.inr (by omega)⟩
      · refine ⟨fun hs => absurd hs.1 (h.not_serves hpos (by omega)), fun hr => ?_⟩
        have hle := hr.resolve_left hall
        omega

/-- **When `boot_alloc` serves a sequence of requests.**  It never panics, so this has to
be all of them. -/
theorem bootAlloc_served (hend : kernbase ≤ kernelEnd) (npages : ℕ) (ns : List Word) :
    AllServed kernelEnd npages 0#32 [] ns ↔ (∀ n ∈ ns, n = 0#32) ∨
      pageCeil kernelEnd.toNat + (ns.map fun n => pageCeil n.toNat).sum ≤ memoryEnd npages :=
  (cursor_start kernelEnd).allServed_iff hend ns

/-- The three requests of `mem_init` on a machine with 64 megabytes. -/
theorem bootAlloc_served_machine64 : kernbase ≤ Kernel.machine64.kernelEnd ∧
    AllServed Kernel.machine64.kernelEnd (i386DetectMemory Kernel.machine64) 0#32 []
      [4096#32, BitVec.ofNat 32 (sizeofPageInfo * i386DetectMemory Kernel.machine64),
        BitVec.ofNat 32 (Kernel.nenv * sizeofEnv)] :=
  ⟨by decide, (bootAlloc_served (by decide) _ _).mpr (Or.inr (by decide))⟩

/-- A request of four gigabytes, less a byte, returns an address. -/
theorem not_bootAlloc_served : ¬ ∀ (kernelEnd : Word) (npages : ℕ) (ns : List Word),
    kernbase ≤ kernelEnd → AllServed kernelEnd npages 0#32 [] ns := by
  intro h
  have hserved := h 0xF0160000#32 16384 [0xFFFFFFFF#32] (by decide)
  obtain ⟨-, -, hlt, -⟩ := hserved.1.inside 0xFFFFFFFE (by decide)
  revert hlt
  decide

/-! ## Pages and their addresses -/

/-- `KADDR`, as an address. -/
def kaddrVa (npages : ℕ) (pa : Word) : Except Panic Word :=
  if npages ≤ pgnum pa then .error .kaddr else .ok (pa + kernbase)

/-- `page2kva`, as an address. -/
def page2kvaVa (npages : ℕ) (pp : ℕ) : Except Panic Word := kaddrVa npages (page2pa pp)

/-- The pages of a machine and their addresses in the kernel. -/
structure Addressable (npages : ℕ) : Prop where
  above : ∀ pp < npages, ∃ va, page2kvaVa npages pp = .ok va ∧ kernbase ≤ va ∧
    paddr va = .ok (page2pa pp)
  distinct : ∀ pp < npages, ∀ qq < npages, page2kvaVa npages pp = page2kvaVa npages qq → pp = qq
  back : ∀ (s : Kernel) (pp : ℕ), s.npages = npages → pp < npages →
    s.pa2page (page2pa pp) = .ok pp

theorem toNat_page2pa_add {pp : ℕ} (h : pp < 65536) :
    (page2pa pp + kernbase).toNat = kernbase.toNat + pp * 4096 := by
  have hpa := toNat_page2pa (show pp < 2 ^ 20 by omega)
  rw [BitVec.toNat_add, hpa, show kernbase.toNat = 0xF0000000 by decide]
  omega

theorem page2kvaVa_eq {pp : ℕ} (hn : pp < npages) (h : pp < 65536) :
    page2kvaVa npages pp = .ok (page2pa pp + kernbase) := by
  rw [page2kvaVa, kaddrVa, pgnum_page2pa (by omega), if_neg (Nat.not_le.mpr hn)]

/-- Memory beyond 256 megabytes has no kernel addresses. -/
theorem addressable_iff : Addressable npages ↔ npages ≤ 65536 := by
  constructor
  · intro h
    by_contra hlt
    obtain ⟨va, hva, hle, -⟩ := h.above 65536 (by omega)
    have hkva : page2kvaVa npages 65536 = .ok 0#32 := by
      rw [page2kvaVa, kaddrVa, pgnum_page2pa (by omega), if_neg hlt]
      decide
    obtain rfl : 0#32 = va := Except.ok.inj (hkva.symm.trans hva)
    exact absurd hle (by decide)
  · intro h
    refine ⟨fun pp hpp => ?_, fun pp hpp qq hqq heq => ?_, fun s pp hs hpp => ?_⟩
    · have hva := toNat_page2pa_add (show pp < 65536 by omega)
      refine ⟨_, page2kvaVa_eq hpp (by omega), ?_, ?_⟩
      · rw [BitVec.le_def, hva]
        omega
      · rw [paddr, if_neg, BitVec.add_sub_cancel]
        rw [BitVec.lt_def, hva]
        omega
    · rw [page2kvaVa_eq hpp (by omega), page2kvaVa_eq hqq (by omega)] at heq
      have hnat := congrArg BitVec.toNat (Except.ok.inj heq)
      rw [toNat_page2pa_add (by omega), toNat_page2pa_add (by omega)] at hnat
      omega
    · have hpg := pgnum_page2pa (show pp < 2 ^ 20 by omega)
      rw [Kernel.pa2page_of_lt (by rw [hpg, hs]; exact hpp), hpg]

/-- **On which machines every page has a kernel address.**  These are the machines with at
most 240 megabytes above the first 16. -/
theorem pages_addressable (h : Hardware) :
    Addressable (i386DetectMemory h) ↔ h.ext16mem.toNat ≤ 3840 := by
  have hext := h.extmem.isLt
  have hbase := h.basemem.isLt
  rw [addressable_iff, i386DetectMemory, pgsize]
  split_ifs <;> omega

/-- Half a gigabyte of memory. -/
theorem not_pages_addressable : ¬ ∀ h : Hardware, Addressable (i386DetectMemory h) := by
  intro h
  have hlt := addressable_iff.mp (h { Kernel.machine64 with ext16mem := 7936#16 })
  revert hlt
  decide

/-- The model's `KADDR` is the frame of that address, and stops where the address wraps. -/
theorem Kernel.kaddr_eq (s : Kernel) (pa : Word) : s.kaddr pa = (do
    let va ← kaddrVa s.npages pa
    if va < kernbase then .error .kernelFault else return pgnum (va - kernbase)) := by
  rw [Kernel.kaddr, kaddrVa]
  split
  · rfl
  · rw [Kernel.ok_bind]
    have hpa := pa.isLt
    have hwrap : pa + kernbase < kernbase ↔ kernWindow ≤ pgnum pa := by
      rw [BitVec.lt_def, BitVec.toNat_add, pgnum_eq, kernWindow,
        show kernbase.toNat = 0xF0000000 by decide]
      omega
    by_cases h : kernWindow ≤ pgnum pa
    · rw [if_pos h, if_pos (hwrap.mpr h)]
    · rw [if_neg h, if_neg (mt hwrap.mp h), BitVec.add_sub_cancel]
      rfl

end PmakeOs
