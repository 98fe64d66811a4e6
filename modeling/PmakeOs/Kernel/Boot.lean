import PmakeOs.Kernel.Env

/-!
# `kern/pmap.c`: setting up memory

`mem_init` and what it calls: the boot allocator, `page_init`, `boot_map_region`,
`mmio_map_region`, and the self tests `check_page_free_list`, `check_page_alloc`,
`check_page`, `check_kern_pgdir` and `check_page_installed_pgdir`.  The tests are
part of the model.  They stop the kernel if they fail, so they decide which
machines are accepted, and they leave traces: the order of the free list, and a
page table for the device window that is never given back.

* `Hardware` is what `mem_init` finds: the sizes in the CMOS, the addresses that
  the linker chose, and whatever memory holds.
* The static variables `nextfree` of `boot_alloc` and `base` of `mmio_map_region`
  are arguments and results.
* The arrays `pages` and `envs` are fields of the state, so only the extent of
  their `memset` is checked here.  Until `kern_pgdir` is loaded the kernel runs on
  `entry_pgdir`, which maps the first four megabytes and nothing else.
* A loop along the free list takes at most `npages` rounds, which is enough for a
  list without repetitions.
-/

namespace PmakeOs

/-- `NCPU` -/
def ncpu : ℕ := 8

/-- `IOPHYSMEM` -/
def iophysmem : Word := 0x0A0000#32

/-- `EXTPHYSMEM` -/
def extphysmem : Word := 0x100000#32

/-- `MPENTRY_PADDR` -/
def mpentryPaddr : Word := 0x7000#32

/-- `sizeof(struct PageInfo)` -/
def sizeofPageInfo : ℕ := 8

/-- `sizeof(struct Env)` -/
def sizeofEnv : ℕ := 124

/-- What `mem_init` finds. -/
structure Hardware where
  /-- Base memory in kilobytes, `NVRAM_BASELO`. -/
  basemem : BitVec 16
  /-- Extended memory in kilobytes, `NVRAM_EXTLO`. -/
  extmem : BitVec 16
  /-- Memory above 16 MB in units of 64 kilobytes, `NVRAM_EXT16LO`. -/
  ext16mem : BitVec 16
  /-- The linker's `end`. -/
  kernelEnd : Word
  bootstack : Word
  percpuKstacks : Word
  /-- The frame of `entry_pgdir`. -/
  entryPgdir : ℕ
  phys : Phys
  /-- `kern/kernel.ld` places the kernel at `0xF0100000`. -/
  linked : 0xF0100000#32 ≤ kernelEnd

/-- `i386_detect_memory`: the number of pages. -/
def i386DetectMemory (h : Hardware) : ℕ :=
  let ext16mem := h.ext16mem.toNat * 64
  let totalmem :=
    if ext16mem ≠ 0 then 16 * 1024 + ext16mem
    else if h.extmem.toNat ≠ 0 then 1 * 1024 + h.extmem.toNat
    else h.basemem.toNat
  totalmem / (pgsize / 1024)

/-- `boot_alloc`: the chunk, and the new `nextfree`. -/
def bootAlloc (nextfree n : Word) : Word × Word :=
  (nextfree, roundup (nextfree + n) (BitVec.ofNat 32 pgsize))

/-- `PADDR` -/
def paddr (kva : Word) : Except Panic Word :=
  if kva < kernbase then .error .paddr else .ok (kva - kernbase)

/-- The range is mapped by `entry_pgdir`, at its physical address or above
`KERNBASE`. -/
def entryMapped (va : Word) (n : ℕ) : Except Panic Unit :=
  if va.toNat + n ≤ ptsize ∨ kernbase ≤ va ∧ va.toNat + n ≤ kernbase.toNat + ptsize then .ok ()
  else .error .kernelFault

namespace Kernel

/-- The state in which the kernel starts: its variables are zero. -/
def powerOn (h : Hardware) : Kernel :=
  { npages := i386DetectMemory h
    pages := fun _ => ⟨none, 0#16⟩
    pageFreeList := none
    phys := h.phys
    kernPgdir := 0
    envs := fun _ => ⟨⟨⟨0, 0, 0, 0, 0, 0, 0, 0⟩, 0, 0, 0, 0, 0, 0, 0, 0, 0⟩, none, 0, 0, .free, 0, 0,
      none, 0, false, 0, 0, 0, 0⟩
    envFreeList := none
    cpus := fun _ => ⟨.unused, none, false, h.entryPgdir, []⟩
    cpunum := 0
    kernelLock := none
    userMemCheckAddr := 0
    log := [] }

/-- `assert` -/
def assert (c : Prop) [Decidable c] : Except Panic Unit :=
  if c then .ok () else .error .assertion

/-- `memset` of the first `n` words of a frame to a pattern. -/
def fillFrame (s : Kernel) (f n : ℕ) (w : Word) : Kernel :=
  { s with phys := fun f' i' => if f' = f ∧ i' < n then w else s.phys f' i' }

/-! ## Pages -/

/-- One round of the loop of `page_init`. -/
def pageInitSlot (kernelEndPage : ℕ) (s : Kernel) (i : ℕ) : Kernel :=
  if i = 0 then s.setPage i ⟨none, 1#16⟩
  else if pgnum iophysmem ≤ i ∧ i < kernelEndPage then s.setPage i ⟨none, 1#16⟩
  else if i = pgnum mpentryPaddr then s.setPage i ⟨none, 1#16⟩
  else { s.setPage i ⟨s.pageFreeList, 0#16⟩ with pageFreeList := some i }

/-- `page_init` -/
def pageInit (s : Kernel) (nextfree : Word) : Except Panic Kernel := do
  let pa ← paddr (bootAlloc nextfree 0#32).1
  return (List.range s.npages).foldl (pageInitSlot (pgnum pa)) s

/-- The pages that a loop along the list from `pp` visits. -/
def pagesFrom (s : Kernel) : ℕ → Option ℕ → List ℕ
  | 0, _ => []
  | _ + 1, none => []
  | fuel + 1, some pp => pp :: s.pagesFrom fuel (s.pages pp).ppLink

/-- The pages that a loop along `page_free_list` visits. -/
def freePages (s : Kernel) : List ℕ := s.pagesFrom s.npages s.pageFreeList

/-- The variables of the loop that moves low pages to the front: the local list
heads, and for each list the place where its next page is stored, which is the head
(`none`) or the link of a page. -/
structure Relink where
  kernel : Kernel
  pp1 : Option ℕ
  pp2 : Option ℕ
  tp1 : Option ℕ
  tp2 : Option ℕ

/-- `*tp[0] = v` -/
def Relink.store1 (r : Relink) (v : Option ℕ) : Relink :=
  match r.tp1 with
  | none => { r with pp1 := v }
  | some q => { r with kernel := r.kernel.setPage q { r.kernel.pages q with ppLink := v } }

/-- `*tp[1] = v` -/
def Relink.store2 (r : Relink) (v : Option ℕ) : Relink :=
  match r.tp2 with
  | none => { r with pp2 := v }
  | some q => { r with kernel := r.kernel.setPage q { r.kernel.pages q with ppLink := v } }

/-- The loop of `check_page_free_list` that sorts the pages by address. -/
def relinkLoop (pdxLimit : ℕ) : ℕ → Option ℕ → Relink → Relink
  | 0, _, r => r
  | _ + 1, none, r => r
  | fuel + 1, some pp, r =>
    let r := if pdxLimit ≤ pdx (page2pa pp) then { r.store2 (some pp) with tp2 := some pp }
      else { r.store1 (some pp) with tp1 := some pp }
    relinkLoop pdxLimit fuel (r.kernel.pages pp).ppLink r

/-- Low pages first. -/
def relinkFreeList (s : Kernel) (pdxLimit : ℕ) : Kernel :=
  let r := relinkLoop pdxLimit s.npages s.pageFreeList ⟨s, none, none, none, none⟩
  let r := r.store2 none
  let r := r.store1 r.pp2
  { r.kernel with pageFreeList := r.pp1 }

/-- The checks of one page in `check_page_free_list`. -/
def checkFreePage (s : Kernel) (firstFreePage : Word) (pp : ℕ) : Except Panic Unit := do
  assert (pp < s.npages)
  assert (page2pa pp ≠ 0#32)
  assert (page2pa pp ≠ iophysmem)
  assert (page2pa pp ≠ extphysmem - BitVec.ofNat 32 pgsize)
  assert (page2pa pp ≠ extphysmem)
  if extphysmem ≤ page2pa pp then
    let f ← s.page2kva pp
    assert (firstFreePage ≤ page2pa f + kernbase)
  assert (page2pa pp ≠ mpentryPaddr)

/-- `check_page_free_list` -/
def checkPageFreeList (s : Kernel) (nextfree : Word) (onlyLowMemory : Bool) :
    Except Panic Kernel := do
  let pdxLimit := if onlyLowMemory then 1 else npdentries
  if s.pageFreeList = none then .error .nullFreeList
  else
    let s := if onlyLowMemory then s.relinkFreeList pdxLimit else s
    let s ← s.freePages.foldlM (fun s pp => do
      if pdx (page2pa pp) < pdxLimit then
        let f ← s.page2kva pp
        return s.fillFrame f 32 0x97979797#32
      else return s) s
    let firstFreePage := (bootAlloc nextfree 0#32).1
    s.freePages.forM (s.checkFreePage firstFreePage)
    assert (0 < s.freePages.countP fun pp => page2pa pp < extphysmem)
    assert (0 < s.freePages.countP fun pp => ¬ page2pa pp < extphysmem)
    return s

/-- `assert((pp = page_alloc(flags)))` -/
def mustAlloc (s : Kernel) (flags : Word) : Except Panic (ℕ × Kernel) := do
  match ← s.pageAlloc flags with
  | (none, _) => .error .assertion
  | (some pp, s) => return (pp, s)

/-- `assert(!page_alloc(0))` -/
def mustNotAlloc (s : Kernel) : Except Panic Kernel := do
  match ← s.pageAlloc 0#32 with
  | (none, s) => return s
  | (some _, _) => .error .assertion

/-- `check_page_alloc` -/
def checkPageAlloc (s : Kernel) : Except Panic Kernel := do
  let nfree := s.freePages.length
  let (pp0, s) ← s.mustAlloc 0#32
  let (pp1, s) ← s.mustAlloc 0#32
  let (pp2, s) ← s.mustAlloc 0#32
  assert (pp1 ≠ pp0)
  assert (pp2 ≠ pp1 ∧ pp2 ≠ pp0)
  assert (page2pa pp0 < BitVec.ofNat 32 (s.npages * pgsize))
  assert (page2pa pp1 < BitVec.ofNat 32 (s.npages * pgsize))
  assert (page2pa pp2 < BitVec.ofNat 32 (s.npages * pgsize))
  -- temporarily steal the rest of the free pages
  let fl := s.pageFreeList
  let s := { s with pageFreeList := none }
  let s ← s.mustNotAlloc
  -- free and re-allocate
  let s ← s.pageFree pp0
  let s ← s.pageFree pp1
  let s ← s.pageFree pp2
  let (pp0, s) ← s.mustAlloc 0#32
  let (pp1, s) ← s.mustAlloc 0#32
  let (pp2, s) ← s.mustAlloc 0#32
  assert (pp1 ≠ pp0)
  assert (pp2 ≠ pp1 ∧ pp2 ≠ pp0)
  let s ← s.mustNotAlloc
  -- test flags
  let f ← s.page2kva pp0
  let s := s.fillFrame f 1024 0x01010101#32
  let s ← s.pageFree pp0
  let (pp, s) ← s.mustAlloc allocZero
  assert (pp0 = pp)
  let c ← s.page2kva pp
  (List.range 1024).forM fun i => assert (s.phys c i = 0#32)
  -- give the free list back, and free the pages we took
  let s := { s with pageFreeList := fl }
  let s ← s.pageFree pp0
  let s ← s.pageFree pp1
  let s ← s.pageFree pp2
  assert (s.freePages.length = nfree)
  return s

/-! ## Static mappings -/

/-- One round of the loop of `boot_map_region`. -/
def bootMapPage (d : ℕ) (va pa perm : Word) (s : Kernel) (i : ℕ) : Except Panic Kernel := do
  match ← s.pgdirWalk d (va + BitVec.ofNat 32 (i * pgsize)) true with
  | (none, _) => .error .bootMapRegion
  | (some (t, j), s) =>
    return s.setWord t j (pa + BitVec.ofNat 32 (i * pgsize) ||| pteP ||| perm)

/-- `boot_map_region` -/
def bootMapRegion (s : Kernel) (d : ℕ) (va size pa perm : Word) : Except Panic Kernel :=
  let pgs := size.toNat / pgsize
  let pgs := if size.toNat % pgsize ≠ 0 then pgs + 1 else pgs
  (List.range pgs).foldlM (bootMapPage d va pa perm) s

/-- `mmio_map_region`: the address of the region, and the new `base`. -/
def mmioMapRegion (s : Kernel) (base pa size : Word) : Except Panic (Word × Word × Kernel) := do
  let size := roundup (pa + size) (BitVec.ofNat 32 pgsize)
  let pa := rounddown pa (BitVec.ofNat 32 pgsize)
  let size := size - pa
  if mmiolim ≤ base + size then .error .mmioMapRegion
  else
    let s ← s.bootMapRegion s.kernPgdir base size pa (ptePcd ||| ptePwt ||| pteW)
    return (base, base + size, s)

/-- `mem_init_mp` -/
def memInitMp (s : Kernel) (h : Hardware) : Except Panic Kernel :=
  (List.range ncpu).foldlM (fun s i => do
    let pa ← paddr (h.percpuKstacks + BitVec.ofNat 32 (i * kstksize))
    s.bootMapRegion s.kernPgdir
      (kstacktop - BitVec.ofNat 32 kstksize - BitVec.ofNat 32 (i * (kstksize + kstkgap)))
      (BitVec.ofNat 32 kstksize) pa pteW) s

/-! ## Tests of the tables -/

/-- `*pgdir_walk(pgdir, va, 0)`, as a place. -/
def entryAt (s : Kernel) (d : ℕ) (va : Word) : Except Panic (ℕ × ℕ) := do
  match ← s.pgdirWalk d va false with
  | (none, _) => .error .kernelFault
  | (some x, _) => return x

/-- `assert(page_insert(pgdir, pp, va, perm) == 0)` -/
def mustInsert (s : Kernel) (d pp : ℕ) (va perm : Word) : Except Panic Kernel := do
  let (r, s) ← s.pageInsert d pp va perm
  assert (r = 0)
  return s

/-- `assert(page_insert(pgdir, pp, va, perm) < 0)` -/
def mustNotInsert (s : Kernel) (d pp : ℕ) (va perm : Word) : Except Panic Kernel := do
  let (r, s) ← s.pageInsert d pp va perm
  assert (r < 0)
  return s

/-- `assert(check_va2pa(pgdir, va) == pa)` -/
def checkVa (s : Kernel) (d : ℕ) (va pa : Word) : Except Panic Unit := do
  let r ← s.checkVa2pa d va
  assert (r = pa)

/-- `assert(pp->pp_ref == n)` -/
def checkRef (s : Kernel) (pp : ℕ) (n : BitVec 16) : Except Panic Unit :=
  assert ((s.pages pp).ppRef = n)

/-- `pp->pp_ref = 0` -/
def clearRef (s : Kernel) (pp : ℕ) : Kernel := s.setPage pp { s.pages pp with ppRef := 0#16 }

/-- The addresses that `check_page` uses. -/
def va0 : Word := 0#32
def va1 : Word := BitVec.ofNat 32 pgsize
def vaT : Word := BitVec.ofNat 32 ptsize
def vaT1 : Word := BitVec.ofNat 32 (pgsize * npdentries + pgsize)

/-- The part of `check_page` in which pages are mapped. -/
def checkPageMap (s : Kernel) (pp0 pp1 pp2 : ℕ) : Except Panic Kernel := do
  let d := s.kernPgdir
  -- there is no page at address 0, and no free memory for a page table
  let r ← s.pageLookup d va0
  assert (r = none)
  let s ← s.mustNotInsert d pp1 va0 pteW
  -- free pp0 and try again: pp0 should be used for the page table
  let s ← s.pageFree pp0
  let s ← s.mustInsert d pp1 va0 pteW
  assert (pteAddr (s.phys d 0) = page2pa pp0)
  s.checkVa d va0 (page2pa pp1)
  s.checkRef pp1 1#16
  s.checkRef pp0 1#16
  -- pp2 at PGSIZE, twice
  let s ← s.mustInsert d pp2 va1 pteW
  s.checkVa d va1 (page2pa pp2)
  s.checkRef pp2 1#16
  let s ← s.mustNotAlloc
  let s ← s.mustInsert d pp2 va1 pteW
  s.checkVa d va1 (page2pa pp2)
  s.checkRef pp2 1#16
  let s ← s.mustNotAlloc
  let ptep ← s.kaddr (pteAddr (s.phys d (pdx va1)))
  let x ← s.pgdirWalk d va1 false
  assert (x.1 = some (ptep, ptx va1))
  -- change permissions
  let s ← s.mustInsert d pp2 va1 (pteW ||| pteU)
  s.checkVa d va1 (page2pa pp2)
  s.checkRef pp2 1#16
  let x ← s.entryAt d va1
  assert (Has (s.phys x.1 x.2) pteU)
  assert (Has (s.phys d 0) pteU)
  -- remap with fewer permissions
  let s ← s.mustInsert d pp2 va1 pteW
  let x ← s.entryAt d va1
  assert (Has (s.phys x.1 x.2) pteW)
  assert (¬ Has (s.phys x.1 x.2) pteU)
  -- no page for the table of PTSIZE
  let s ← s.mustNotInsert d pp0 vaT pteW
  -- pp1 at PGSIZE, replacing pp2
  let s ← s.mustInsert d pp1 va1 pteW
  let x ← s.entryAt d va1
  assert (¬ Has (s.phys x.1 x.2) pteU)
  s.checkVa d va0 (page2pa pp1)
  s.checkVa d va1 (page2pa pp1)
  s.checkRef pp1 2#16
  s.checkRef pp2 0#16
  let (pp, s) ← s.mustAlloc 0#32
  assert (pp = pp2)
  -- unmap pp1 at 0, and re-insert it at PGSIZE
  let s ← s.pageRemove d va0
  s.checkVa d va0 (BitVec.allOnes 32)
  s.checkVa d va1 (page2pa pp1)
  s.checkRef pp1 1#16
  s.checkRef pp2 0#16
  let s ← s.mustInsert d pp1 va1 0#32
  assert ((s.pages pp1).ppRef ≠ 0#16)
  assert ((s.pages pp1).ppLink = none)
  -- unmapping pp1 at PGSIZE should free it
  let s ← s.pageRemove d va1
  s.checkVa d va0 (BitVec.allOnes 32)
  s.checkVa d va1 (BitVec.allOnes 32)
  s.checkRef pp1 0#16
  s.checkRef pp2 0#16
  let (pp, s) ← s.mustAlloc 0#32
  assert (pp = pp1)
  s.mustNotAlloc

/-- The part of `check_page` that is about new page tables. -/
def checkPageTables (s : Kernel) (pp0 : ℕ) : Except Panic Kernel := do
  let d := s.kernPgdir
  -- forcibly take pp0 back
  assert (pteAddr (s.phys d 0) = page2pa pp0)
  let s := s.setWord d 0 0#32
  s.checkRef pp0 1#16
  let s := s.clearRef pp0
  -- pointer arithmetic in pgdir_walk
  let s ← s.pageFree pp0
  let (ptep, s) ← s.pgdirWalk d vaT1 true
  let ptep1 ← s.kaddr (pteAddr (s.phys d (pdx vaT1)))
  assert (ptep = some (ptep1, ptx vaT1))
  let s := s.setWord d (pdx vaT1) 0#32
  let s := s.clearRef pp0
  -- new page tables are cleared
  let f ← s.page2kva pp0
  let s := s.fillFrame f 1024 (BitVec.allOnes 32)
  let s ← s.pageFree pp0
  let (_, s) ← s.pgdirWalk d va0 true
  let ptep ← s.page2kva pp0
  (List.range nptentries).forM fun i => assert (¬ Has (s.phys ptep i) pteP)
  let s := s.setWord d 0 0#32
  return s.clearRef pp0

/-- The part of `check_page` about `mmio_map_region`, with the new `base`. -/
def checkMmio (s : Kernel) (base : Word) : Except Panic (Word × Kernel) := do
  let d := s.kernPgdir
  let (mm1, base, s) ← s.mmioMapRegion base 0#32 4097#32
  let (mm2, base, s) ← s.mmioMapRegion base 0#32 4096#32
  -- in the right region, page-aligned, and disjoint
  assert (mmiobase ≤ mm1 ∧ mm1 + 8192#32 < mmiolim)
  assert (mmiobase ≤ mm2 ∧ mm2 + 8192#32 < mmiolim)
  assert (mm1 % BitVec.ofNat 32 pgsize = 0#32 ∧ mm2 % BitVec.ofNat 32 pgsize = 0#32)
  assert (mm1 + 8192#32 ≤ mm2)
  -- page mappings
  s.checkVa d mm1 0#32
  s.checkVa d (mm1 + BitVec.ofNat 32 pgsize) (BitVec.ofNat 32 pgsize)
  s.checkVa d mm2 0#32
  s.checkVa d (mm2 + BitVec.ofNat 32 pgsize) (BitVec.allOnes 32)
  -- permissions
  let x ← s.entryAt d mm1
  assert (Has (s.phys x.1 x.2) (pteW ||| ptePwt ||| ptePcd))
  assert (¬ Has (s.phys x.1 x.2) pteU)
  -- clear the mappings
  let s := s.setWord x.1 x.2 0#32
  let x ← s.entryAt d (mm1 + BitVec.ofNat 32 pgsize)
  let s := s.setWord x.1 x.2 0#32
  let x ← s.entryAt d mm2
  return (base, s.setWord x.1 x.2 0#32)

/-- `check_page`, with the `base` of `mmio_map_region`. -/
def checkPage (s : Kernel) (base : Word) : Except Panic (Word × Kernel) := do
  let (pp0, s) ← s.mustAlloc 0#32
  let (pp1, s) ← s.mustAlloc 0#32
  let (pp2, s) ← s.mustAlloc 0#32
  assert (pp1 ≠ pp0)
  assert (pp2 ≠ pp1 ∧ pp2 ≠ pp0)
  -- temporarily steal the rest of the free pages
  let fl := s.pageFreeList
  let s := { s with pageFreeList := none }
  let s ← s.mustNotAlloc
  let s ← s.checkPageMap pp0 pp1 pp2
  let s ← s.checkPageTables pp0
  -- give the free list back, and free the pages we took
  let s := { s with pageFreeList := fl }
  let s ← s.pageFree pp0
  let s ← s.pageFree pp1
  let s ← s.pageFree pp2
  s.checkMmio base

/-- Check `n` bytes of consecutive pages, `va + i` at `pa + i`. -/
def checkRange (s : Kernel) (n : Word) (va pa : Word) : Except Panic Unit :=
  (List.range (n.toNat / pgsize)).forM fun k =>
    s.checkVa s.kernPgdir (va + BitVec.ofNat 32 (k * pgsize)) (pa + BitVec.ofNat 32 (k * pgsize))

/-- One case of the switch in `check_kern_pgdir`. -/
def checkKernPde (s : Kernel) (i : ℕ) : Except Panic Unit := do
  let pde := s.phys s.kernPgdir i
  if i = pdx uvpt ∨ i = pdx (kstacktop - 1#32) ∨ i = pdx upages ∨ i = pdx uenvs ∨
      i = pdx mmiobase then
    assert (Has pde pteP)
  else if pdx kernbase ≤ i then
    assert (Has pde pteP)
    assert (Has pde pteW)
  else
    assert (pde = 0#32)

/-- `check_kern_pgdir` -/
def checkKernPgdir (s : Kernel) (h : Hardware) (pages envs : Word) : Except Panic Unit := do
  let d := s.kernPgdir
  let pa ← paddr pages
  s.checkRange (roundup (BitVec.ofNat 32 (s.npages * sizeofPageInfo)) (BitVec.ofNat 32 pgsize))
    upages pa
  let pa ← paddr envs
  s.checkRange (roundup (BitVec.ofNat 32 (nenv * sizeofEnv)) (BitVec.ofNat 32 pgsize)) uenvs pa
  s.checkRange (BitVec.ofNat 32 (s.npages * pgsize)) kernbase 0#32
  (List.range ncpu).forM fun n => do
    let base := kstacktop - BitVec.ofNat 32 ((kstksize + kstkgap) * (n + 1))
    let pa ← paddr (h.percpuKstacks + BitVec.ofNat 32 (n * kstksize))
    s.checkRange (BitVec.ofNat 32 kstksize) (base + BitVec.ofNat 32 kstkgap) pa
    (List.range (kstkgap / pgsize)).forM fun k =>
      s.checkVa d (base + BitVec.ofNat 32 (k * pgsize)) (BitVec.allOnes 32)
  (List.range npdentries).forM s.checkKernPde

/-- A kernel access through the loaded directory.  A store needs the write right,
since `CR0_WP` is set. -/
def kernelAccess (s : Kernel) (va : Word) (write : Bool) : Except Panic ℕ :=
  match mmuWalk s.phys s.thiscpu.cr3 (pgnum va) with
  | none => .error .kernelFault
  | some t => if write ∧ ¬ t.write then .error .kernelFault else .ok t.ppn

/-- `check_page_installed_pgdir` -/
def checkPageInstalledPgdir (s : Kernel) : Except Panic Kernel := do
  let d := s.kernPgdir
  let (pp0, s) ← s.mustAlloc 0#32
  let (pp1, s) ← s.mustAlloc 0#32
  let (pp2, s) ← s.mustAlloc 0#32
  let s ← s.pageFree pp0
  let f ← s.page2kva pp1
  let s := s.fillFrame f 1024 0x01010101#32
  let f ← s.page2kva pp2
  let s := s.fillFrame f 1024 0x02020202#32
  let (_, s) ← s.pageInsert d pp1 va1 pteW
  s.checkRef pp1 1#16
  let f ← s.kernelAccess va1 false
  assert (s.phys f 0 = 0x01010101#32)
  let (_, s) ← s.pageInsert d pp2 va1 pteW
  let f ← s.kernelAccess va1 false
  assert (s.phys f 0 = 0x02020202#32)
  s.checkRef pp2 1#16
  s.checkRef pp1 0#16
  let f ← s.kernelAccess va1 true
  let s := s.setWord f 0 0x03030303#32
  let f ← s.page2kva pp2
  assert (s.phys f 0 = 0x03030303#32)
  let s ← s.pageRemove d va1
  s.checkRef pp2 0#16
  -- forcibly take pp0 back
  assert (pteAddr (s.phys d 0) = page2pa pp0)
  let s := s.setWord d 0 0#32
  s.checkRef pp0 1#16
  let s := s.clearRef pp0
  s.pageFree pp0

/-! ## `mem_init` -/

/-- `boot_alloc(PGSIZE)`, the first call: `kern_pgdir` and the next free address. -/
def allocKernPgdir (h : Hardware) : Word × Word :=
  bootAlloc (roundup h.kernelEnd (BitVec.ofNat 32 pgsize)) (BitVec.ofNat 32 pgsize)

/-- The second call: `pages` and the next free address. -/
def allocPages (h : Hardware) : Word × Word :=
  bootAlloc (allocKernPgdir h).2 (BitVec.ofNat 32 (sizeofPageInfo * i386DetectMemory h))

/-- The third call: `envs` and the next free address. -/
def allocEnvs (h : Hardware) : Word × Word :=
  bootAlloc (allocPages h).2 (BitVec.ofNat 32 (nenv * sizeofEnv))

/-- The address of `kern_pgdir`. -/
def kernPgdirVa (h : Hardware) : Word := (allocKernPgdir h).1

/-- The address of `pages`. -/
def pagesVa (h : Hardware) : Word := (allocPages h).1

/-- The address of `envs`. -/
def envsVa (h : Hardware) : Word := (allocEnvs h).1

/-- `nextfree` after the three calls. -/
def firstFree (h : Hardware) : Word := (allocEnvs h).2

/-- The frame of `kern_pgdir`. -/
def kernFrame (h : Hardware) : ℕ := pgnum (kernPgdirVa h - kernbase)

/-- `kern_pgdir` is cleared, and made its own table at `UVPT`. -/
def early (h : Hardware) : Kernel :=
  ({ powerOn h with kernPgdir := kernFrame h }.zeroFrame (kernFrame h)).setWord (kernFrame h)
    (pdx uvpt) (kernPgdirVa h - kernbase ||| pteU ||| pteP)

/-- `mem_init` from `page_init` to `check_page`. -/
def setUpPages (h : Hardware) : Except Panic Kernel := do
  let s ← (early h).pageInit (firstFree h)
  let s ← s.checkPageFreeList (firstFree h) true
  let s ← s.checkPageAlloc
  let (_, s) ← s.checkPage mmiobase
  return s

/-- The mappings above `UTOP`. -/
def setUpTables (h : Hardware) (s : Kernel) : Except Panic Kernel := do
  let pa ← paddr (pagesVa h)
  let s ← s.bootMapRegion s.kernPgdir upages (BitVec.ofNat 32 ptsize) pa (pteU ||| pteP)
  let pa ← paddr (envsVa h)
  let s ← s.bootMapRegion s.kernPgdir uenvs (BitVec.ofNat 32 ptsize) pa (pteU ||| pteP)
  let pa ← paddr h.bootstack
  let s ← s.bootMapRegion s.kernPgdir (kstacktop - BitVec.ofNat 32 kstksize)
    (BitVec.ofNat 32 kstksize) pa pteW
  let s ← s.bootMapRegion s.kernPgdir kernbase (BitVec.allOnes 32 - kernbase) 0#32 pteW
  s.memInitMp h

/-- The tests at the end of `mem_init`, the last two on the new tables. -/
def finish (h : Hardware) (s : Kernel) : Except Panic Kernel := do
  s.checkKernPgdir h (pagesVa h) (envsVa h)
  let s ← (s.lcr3 s.kernPgdir).checkPageFreeList (firstFree h) false
  s.checkPageInstalledPgdir

/-- `mem_init`: the extents of the three `memset` calls, and `PADDR(kern_pgdir)`, are
checked before the arrays are used. -/
def memInit (h : Hardware) : Except Panic Kernel := do
  entryMapped (kernPgdirVa h) pgsize
  let _ ← paddr (kernPgdirVa h)
  entryMapped (pagesVa h) (sizeofPageInfo * i386DetectMemory h)
  entryMapped (envsVa h) (nenv * sizeofEnv)
  let s ← setUpPages h
  let s ← setUpTables h s
  finish h s

/-- `i386_init` up to the environments: `mem_init`, then `env_init`. -/
def bootUp (h : Hardware) : Except Panic Kernel := do
  let s ← memInit h
  return s.envInit

end Kernel
end PmakeOs
