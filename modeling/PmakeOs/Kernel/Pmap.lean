import PmakeOs.Kernel.State

/-!
# `kern/pmap.c`: pages and page tables

The page allocator (`page_alloc`, `page_free`, `page_decref`), the two-level
tables (`pgdir_walk`, `page_insert`, `page_lookup`, `page_remove`,
`tlb_invalidate`) and the check of user pointers (`user_mem_check`), each as the
source computes it.

A function that can reach a `panic` returns in `Except Panic`.  `KADDR` and
`pa2page` panic on a frame number that is not below `npages`.  A frame at or
above `kernWindow` has no address in the window, since `pa + KERNBASE` wraps;
the model stops there too.  Messages printed with `cprintf` are left out.
-/

namespace PmakeOs
namespace Kernel

/-- `KADDR`: the frame that a kernel pointer to `pa` points into. -/
def kaddr (s : Kernel) (pa : Word) : Except Panic ℕ :=
  if s.npages ≤ pgnum pa then .error .kaddr
  else if kernWindow ≤ pgnum pa then .error .kernelFault
  else .ok (pgnum pa)

def pa2page (s : Kernel) (pa : Word) : Except Panic ℕ :=
  if s.npages ≤ pgnum pa then .error .pa2page else .ok (pgnum pa)

def page2kva (s : Kernel) (pp : ℕ) : Except Panic ℕ := s.kaddr (page2pa pp)

/-- `ALLOC_ZERO` -/
def allocZero : Word := 1#32

/-- `page_alloc`.  The reference count is left to the caller. -/
def pageAlloc (s : Kernel) (allocFlags : Word) : Except Panic (Option ℕ × Kernel) :=
  match s.pageFreeList with
  | none => .ok (none, s)
  | some ret => do
    let s := { s with pageFreeList := (s.pages ret).ppLink }
    let s := s.setPage ret { s.pages ret with ppLink := none }
    if Has allocFlags allocZero then
      let f ← s.page2kva ret
      return (some ret, s.zeroFrame f)
    else
      return (some ret, s)

/-- `page_free` -/
def pageFree (s : Kernel) (pp : ℕ) : Except Panic Kernel :=
  if (s.pages pp).ppRef ≠ 0#16 ∨ (s.pages pp).ppLink ≠ none then .error .pageFree
  else
    let s := s.setPage pp { s.pages pp with ppLink := s.pageFreeList }
    .ok { s with pageFreeList := some pp }

/-- `page_decref`.  The count is decremented in sixteen bits. -/
def pageDecref (s : Kernel) (pp : ℕ) : Except Panic Kernel :=
  let s := s.setPage pp { s.pages pp with ppRef := (s.pages pp).ppRef - 1#16 }
  if (s.pages pp).ppRef = 0#16 then s.pageFree pp else .ok s

/-- `pgdir_walk`.  A `pte_t *` is a frame and an index into it. -/
def pgdirWalk (s : Kernel) (d : ℕ) (va : Word) (create : Bool) :
    Except Panic (Option (ℕ × ℕ) × Kernel) := do
  if ¬ Has (s.phys d (pdx va)) pteP then
    if create then
      match ← s.pageAlloc allocZero with
      | (none, s) => return (none, s)
      | (some pp, s) =>
        let s := s.incRef pp
        let s := s.setWord d (pdx va) (page2pa pp ||| pteP ||| pteU ||| pteW)
        let s := s.note (.table d (pdx va) pp)
        let t ← s.kaddr (pteAddr (s.phys d (pdx va)))
        return (some (t, ptx va), s)
    else
      return (none, s)
  else
    let t ← s.kaddr (pteAddr (s.phys d (pdx va)))
    return (some (t, ptx va), s)

/-- The C operator `!`. -/
def lnot (w : Word) : Word := if w = 0#32 then 1#32 else 0#32

/-- `page_lookup`, with the entry it stores through `pte_store`.  The test
`!(*pte) & PTE_P` negates the whole entry before the mask is applied. -/
def pageLookup (s : Kernel) (d : ℕ) (va : Word) : Except Panic (Option (ℕ × (ℕ × ℕ))) := do
  match ← s.pgdirWalk d va false with
  | (none, _) => return none
  | (some (t, j), s) =>
    if Has (lnot (s.phys t j)) pteP then return none
    let pp ← s.pa2page (pteAddr (s.phys t j))
    return some (pp, (t, j))

/-- `tlb_invalidate`: flush the entry only if the tables being edited are the
ones this processor uses. -/
def tlbInvalidate (s : Kernel) (d : ℕ) (va : Word) : Kernel :=
  match s.curenv with
  | none => s.invlpg va
  | some e => if (s.envs e).envPgdir = some d then s.invlpg va else s

/-- `page_remove` -/
def pageRemove (s : Kernel) (d : ℕ) (va : Word) : Except Panic Kernel := do
  match ← s.pageLookup d va with
  | none => return s
  | some (pp, (t, j)) =>
    let s ← s.pageDecref pp
    let s := s.setWord t j 0#32
    return s.tlbInvalidate d va

/-- `page_insert`.  The count of `pp` goes up before the old page is removed, and
`perm` is or-ed into the table entry and into the directory entry. -/
def pageInsert (s : Kernel) (d pp : ℕ) (va perm : Word) : Except Panic (ℤ × Kernel) := do
  match ← s.pgdirWalk d va true with
  | (none, s) => return (-eNoMem, s)
  | (some (t, j), s) =>
    let s := s.incRef pp
    let s ← (if Has (s.phys t j) pteP then s.pageRemove d va else .ok s)
    let s := s.setWord t j (page2pa pp ||| perm ||| pteP)
    let s := s.setWord d (pdx va) (s.phys d (pdx va) ||| perm)
    return (0, s.note (.insert d (pgnum va) pp))

/-- `check_va2pa`, the reference walker. -/
def checkVa2pa (s : Kernel) (d : ℕ) (va : Word) : Except Panic Word := do
  if ¬ Has (s.phys d (pdx va)) pteP then return BitVec.allOnes 32
  let p ← s.kaddr (pteAddr (s.phys d (pdx va)))
  if ¬ Has (s.phys p (ptx va)) pteP then return BitVec.allOnes 32
  return pteAddr (s.phys p (ptx va))

/-- The loop of `user_mem_check` over the pages from `i` up to `stop`.  The first
argument bounds the iterations; `2 ^ 20` pages are all there are. -/
def userMemCheckLoop (s : Kernel) (d : ℕ) (va stop perm : Word) :
    ℕ → Word → Except Panic (ℤ × Kernel)
  | 0, _ => .ok (0, s)
  | fuel + 1, i =>
    if i < stop then do
      let (pte, s) ← s.pgdirWalk d i false
      let bad := match pte with
        | none => true
        | some (t, j) => decide (ulim ≤ i ∨ ¬ Has (s.phys t j) pteP ∨ s.phys t j &&& perm ≠ perm)
      if bad then
        return (-eFault, { s with userMemCheckAddr := if i < va then va else i })
      else
        s.userMemCheckLoop d va stop perm fuel (i + BitVec.ofNat 32 pgsize)
    else .ok (0, s)

/-- `user_mem_check` -/
def userMemCheck (s : Kernel) (e : ℕ) (va len perm : Word) : Except Panic (ℤ × Kernel) := do
  let start := rounddown va (BitVec.ofNat 32 pgsize)
  let stop := roundup (va + len) (BitVec.ofNat 32 pgsize)
  if start < stop then
    let d ← deref (s.envs e).envPgdir
    s.userMemCheckLoop d va stop perm (2 ^ 20) start
  else
    return (0, s)

end Kernel
end PmakeOs
