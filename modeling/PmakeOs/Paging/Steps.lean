import PmakeOs.Kernel.Pmap
import Mathlib.Tactic.Common

/-!
# What the functions of `kern/pmap.c` do, one case at a time

Each function of the page allocator and of the two-level tables, evaluated under
the conditions that select one of its paths.  Everything later about page tables
goes through these equations, and none of it unfolds a function of
`Kernel.Pmap` again.

The states that the paths end in have names, so that an invariant can be proved
about each of them once:

* `takePage s p` --- the head `p` of the free list, taken and cleared;
* `addTable s d i p` --- the same, with `p` entered as table `i` of `d`;
* `dropRef s q` --- one reference less, and `q` freed if it was the last;
* `unmapEntry s d va t j q` --- `page_remove` of an entry that maps `q`;
* `storeEntry s d va t j pp perm` --- the last stores of `page_insert`.

A successful `page_insert` is `addTable` if the table is missing, then `incRef`,
then `unmapEntry` if the entry was in use, then `storeEntry`.
-/

namespace PmakeOs
namespace Kernel

variable {s : Kernel} {d t j p q : ℕ} {va perm w : Word}

/-- The link map of the free list. -/
def links (s : Kernel) (p : ℕ) : Option ℕ := (s.pages p).ppLink

/-! ## The named states -/

/-- The head of the free list, taken and cleared. -/
def takePage (s : Kernel) (p : ℕ) : Kernel :=
  let s := { s with pageFreeList := (s.pages p).ppLink }
  (s.setPage p { s.pages p with ppLink := none }).zeroFrame p

/-- A fresh page entered as table `i` of directory `d`. -/
def addTable (s : Kernel) (d i p : ℕ) : Kernel :=
  (((s.takePage p).incRef p).setWord d i (page2pa p ||| pteP ||| pteU ||| pteW)).note
    (.table d i p)

/-- A page pushed on the free list. -/
def pushFree (s : Kernel) (p : ℕ) : Kernel :=
  { s.setPage p { s.pages p with ppLink := s.pageFreeList } with pageFreeList := some p }

/-- The page with one reference less, before any freeing. -/
def decRef (s : Kernel) (q : ℕ) : Kernel :=
  s.setPage q { s.pages q with ppRef := (s.pages q).ppRef - 1#16 }

/-- `page_decref`, when it does not panic. -/
def dropRef (s : Kernel) (q : ℕ) : Kernel :=
  if (s.pages q).ppRef = 1#16 then (s.decRef q).pushFree q else s.decRef q

/-- `page_remove` of an entry that maps `q`. -/
def unmapEntry (s : Kernel) (d : ℕ) (va : Word) (t j q : ℕ) : Kernel :=
  ((s.dropRef q).setWord t j 0#32).tlbInvalidate d va

/-- The stores that end `page_insert`. -/
def storeEntry (s : Kernel) (d : ℕ) (va : Word) (t j pp : ℕ) (perm : Word) : Kernel :=
  let s := s.setWord t j (page2pa pp ||| perm ||| pteP)
  (s.setWord d (pdx va) (s.phys d (pdx va) ||| perm)).note (.insert d (pgnum va) pp)

/-! ## Addresses of frames -/

theorem kaddr_of_lt {pa : Word} (h : pgnum pa < s.npages) (hw : pgnum pa < kernWindow) :
    s.kaddr pa = .ok (pgnum pa) := by
  rw [kaddr, if_neg (Nat.not_le.mpr h), if_neg (Nat.not_le.mpr hw)]

theorem pa2page_of_lt {pa : Word} (h : pgnum pa < s.npages) : s.pa2page pa = .ok (pgnum pa) := by
  rw [pa2page, if_neg (Nat.not_le.mpr h)]

theorem page2kva_of_lt (h : p < s.npages) (hw : p < kernWindow) : s.page2kva p = .ok p := by
  have hpg : pgnum (page2pa p) = p := by
    refine pgnum_page2pa ?_
    rw [kernWindow] at hw
    omega
  rw [page2kva, kaddr_of_lt (by rw [hpg]; exact h) (by rw [hpg]; exact hw), hpg]

/-! ## Entries -/

/-- The entry that `pgdir_walk` stores for a new table points to it. -/
theorem frame_tableEntry (hp : p < kernWindow) :
    frame (page2pa p ||| pteP ||| pteU ||| pteW) = p := by
  rw [kernWindow] at hp
  rw [frame_or_of_lt _ (by decide), frame_or_of_lt _ (by decide), frame_or_of_lt _ (by decide),
    frame_page2pa (by omega)]

theorem has_tableEntry_pteP (p : ℕ) : Has (page2pa p ||| pteP ||| pteU ||| pteW) pteP := by
  have h : Has pteP pteP := by decide
  simp [h]

/-- The entry that `page_insert` stores is present. -/
theorem has_entry_pteP (p : ℕ) (perm : Word) : Has (page2pa p ||| perm ||| pteP) pteP := by
  have h : Has pteP pteP := by decide
  simp [h]

/-- It has the flags of `perm`. -/
theorem has_entry {f : Word} (h : Has perm f) : Has (page2pa pp ||| perm ||| pteP) f :=
  (has_or _ _ _).mpr (Or.inl ((has_or _ _ _).mpr (Or.inr h)))

/-- It has no other flag than those of `perm` and `PTE_P`. -/
theorem not_has_entry {f : Word} (hf : f.toNat < 2 ^ 12) (h : ¬ Has perm f) (hP : ¬ Has pteP f) :
    ¬ Has (page2pa pp ||| perm ||| pteP) f := by
  rw [has_or, has_or]
  exact not_or.mpr ⟨not_or.mpr ⟨not_has_page2pa pp hf, h⟩, hP⟩

/-- It points to the page as long as `perm` stays below the frame number. -/
theorem frame_entry (hp : p < kernWindow) (hperm : perm.toNat < 2 ^ 12) :
    frame (page2pa p ||| perm ||| pteP) = p := by
  rw [kernWindow] at hp
  rw [frame_or_of_lt _ (by decide), frame_or_of_lt _ hperm, frame_page2pa (by omega)]

/-! ## The allocator -/

theorem pageAlloc_of_nil (h : s.pageFreeList = none) (fl : Word) :
    s.pageAlloc fl = .ok (none, s) := by
  rw [pageAlloc, h]

theorem pageAlloc_of_cons (h : s.pageFreeList = some p) (hp : p < s.npages)
    (hw : p < kernWindow) : s.pageAlloc allocZero = .ok (some p, s.takePage p) := by
  have hz : Has allocZero allocZero := by decide
  have hkva : ∀ s' : Kernel, s'.npages = s.npages → s'.page2kva p = .ok p := by
    intro s' hs'
    exact page2kva_of_lt (by rw [hs']; exact hp) hw
  have hrun : ∀ s' : Kernel, s'.npages = s.npages →
      (do let f ← s'.page2kva p; pure (some p, s'.zeroFrame f) : Except Panic _) =
        .ok (some p, s'.zeroFrame p) := by
    intro s' hs'
    rw [hkva s' hs']
    rfl
  rw [pageAlloc, h]
  simp only [if_pos hz]
  exact hrun _ rfl

theorem pageFree_of_ok (href : (s.pages p).ppRef = 0#16) (hlink : s.links p = none) :
    s.pageFree p = .ok (s.pushFree p) := by
  have hlink' : (s.pages p).ppLink = none := hlink
  rw [pageFree, if_neg (by simp [href, hlink'])]
  rfl

theorem pageDecref_of_link (hlink : s.links q = none) : s.pageDecref q = .ok (s.dropRef q) := by
  have hzero : (s.pages q).ppRef - 1#16 = 0#16 ↔ (s.pages q).ppRef = 1#16 := by
    constructor
    · intro h
      exact BitVec.sub_eq_iff_eq_add.mp h
    · intro h
      rw [h]
      rfl
  have hpage : ((s.decRef q).pages q).ppRef = (s.pages q).ppRef - 1#16 := by
    simp [decRef, setPage]
  have hlink' : (s.decRef q).links q = none := by
    simpa [decRef, setPage, links] using hlink
  show (if ((s.decRef q).pages q).ppRef = 0#16 then (s.decRef q).pageFree q
    else .ok (s.decRef q)) = _
  rw [dropRef]
  by_cases h : (s.pages q).ppRef = 1#16
  · have h0 : ((s.decRef q).pages q).ppRef = 0#16 := by rw [hpage]; exact hzero.mpr h
    rw [if_pos h0, if_pos h, pageFree_of_ok h0 hlink']
  · have h0 : ((s.decRef q).pages q).ppRef ≠ 0#16 := by rw [hpage]; exact mt hzero.mp h
    rw [if_neg h0, if_neg h]

/-! ## The walk -/

theorem pgdirWalk_of_present (h : Has (s.phys d (pdx va)) pteP)
    (hlt : frame (s.phys d (pdx va)) < s.npages) (hw : s.npages ≤ kernWindow) (create : Bool) :
    s.pgdirWalk d va create = .ok (some (frame (s.phys d (pdx va)), ptx va), s) := by
  have hk : s.kaddr (pteAddr (s.phys d (pdx va))) = .ok (frame (s.phys d (pdx va))) :=
    kaddr_of_lt hlt (lt_of_lt_of_le hlt hw)
  rw [pgdirWalk, if_neg (not_not_intro h), hk]
  rfl

theorem pgdirWalk_of_absent (h : ¬ Has (s.phys d (pdx va)) pteP) :
    s.pgdirWalk d va false = .ok (none, s) := by
  rw [pgdirWalk, if_pos h]
  rfl

theorem pgdirWalk_of_noMem (h : ¬ Has (s.phys d (pdx va)) pteP) (hl : s.pageFreeList = none) :
    s.pgdirWalk d va true = .ok (none, s) := by
  rw [pgdirWalk, if_pos h, pageAlloc_of_nil hl]
  rfl

theorem pgdirWalk_of_alloc (h : ¬ Has (s.phys d (pdx va)) pteP) (hl : s.pageFreeList = some p)
    (hp : p < s.npages) (hw : s.npages ≤ kernWindow) :
    s.pgdirWalk d va true = .ok (some (p, ptx va), s.addTable d (pdx va) p) := by
  have hpw : p < kernWindow := lt_of_lt_of_le hp hw
  have hword : (s.addTable d (pdx va) p).phys d (pdx va) =
      page2pa p ||| pteP ||| pteU ||| pteW := by
    simp [addTable, setWord, note]
  have hk : (s.addTable d (pdx va) p).kaddr
      (pteAddr ((s.addTable d (pdx va) p).phys d (pdx va))) = .ok p := by
    have hpg : pgnum (pteAddr ((s.addTable d (pdx va) p).phys d (pdx va))) = p := by
      rw [hword]
      exact frame_tableEntry hpw
    rw [kaddr_of_lt (by rw [hpg]; exact hp) (by rw [hpg]; exact hpw), hpg]
  rw [pgdirWalk, if_pos h, pageAlloc_of_cons hl hp hpw]
  show ((s.addTable d (pdx va) p).kaddr (pteAddr ((s.addTable d (pdx va) p).phys d (pdx va)))
    >>= fun t => pure (some (t, ptx va), s.addTable d (pdx va) p)) = _
  rw [hk]
  rfl

/-! ## Lookup and removal -/

theorem has_lnot_iff (w : Word) : Has (lnot w) pteP ↔ w = 0#32 := by
  unfold lnot
  by_cases h : w = 0#32
  · simp only [h, iff_true]
    decide
  · simp only [h, iff_false]
    decide

theorem pageLookup_of_absent (h : ¬ Has (s.phys d (pdx va)) pteP) :
    s.pageLookup d va = .ok none := by
  rw [pageLookup, pgdirWalk_of_absent h]
  rfl

theorem pageLookup_of_zero (h : Has (s.phys d (pdx va)) pteP)
    (hlt : frame (s.phys d (pdx va)) < s.npages) (hw : s.npages ≤ kernWindow)
    (h0 : s.phys (frame (s.phys d (pdx va))) (ptx va) = 0#32) :
    s.pageLookup d va = .ok none := by
  rw [pageLookup, pgdirWalk_of_present h hlt hw]
  show (if Has (lnot (s.phys (frame (s.phys d (pdx va))) (ptx va))) pteP then _ else _) = _
  rw [if_pos ((has_lnot_iff _).mpr h0)]
  rfl

theorem pageLookup_of_mapped (h : Has (s.phys d (pdx va)) pteP)
    (ht : frame (s.phys d (pdx va)) = t) (htlt : t < s.npages) (hw : s.npages ≤ kernWindow)
    (hp : s.phys t (ptx va) ≠ 0#32) (hq : frame (s.phys t (ptx va)) = q) (hqlt : q < s.npages) :
    s.pageLookup d va = .ok (some (q, (t, ptx va))) := by
  have hpa : s.pa2page (pteAddr (s.phys t (ptx va))) = .ok q := by
    have hpg : pgnum (pteAddr (s.phys t (ptx va))) = q := hq
    rw [pa2page_of_lt (by rw [hpg]; exact hqlt), hpg]
  rw [pageLookup, pgdirWalk_of_present h (by rw [ht]; exact htlt) hw, ht]
  show (if Has (lnot (s.phys t (ptx va))) pteP then _ else _) = _
  rw [if_neg (mt (has_lnot_iff _).mp hp)]
  show (s.pa2page (pteAddr (s.phys t (ptx va))) >>= _) = _
  rw [hpa]
  rfl

theorem pageRemove_of_lookup_none (h : s.pageLookup d va = .ok none) :
    s.pageRemove d va = .ok s := by
  rw [pageRemove, h]
  rfl

theorem pageRemove_of_lookup_some (h : s.pageLookup d va = .ok (some (q, (t, j))))
    (hlink : s.links q = none) : s.pageRemove d va = .ok (s.unmapEntry d va t j q) := by
  rw [pageRemove, h]
  show (s.pageDecref q >>= _) = _
  rw [pageDecref_of_link hlink]
  rfl

/-! ## Insertion -/

theorem pageInsert_of_noMem (h : ¬ Has (s.phys d (pdx va)) pteP) (hl : s.pageFreeList = none)
    (pp : ℕ) : s.pageInsert d pp va perm = .ok (-eNoMem, s) := by
  rw [pageInsert, pgdirWalk_of_noMem h hl]
  rfl

/-- `page_insert` past the walk: the table entry was not in use. -/
theorem pageInsert_of_unused {s' : Kernel} {pp : ℕ}
    (hwalk : s.pgdirWalk d va true = .ok (some (t, j), s')) (hnp : ¬ Has (s'.phys t j) pteP) :
    s.pageInsert d pp va perm = .ok (0, (s'.incRef pp).storeEntry d va t j pp perm) := by
  have hnp' : ¬ Has ((s'.incRef pp).phys t j) pteP := hnp
  rw [pageInsert, hwalk]
  show ((if Has ((s'.incRef pp).phys t j) pteP then (s'.incRef pp).pageRemove d va
    else .ok (s'.incRef pp)) >>= _) = _
  rw [if_neg hnp']
  rfl

/-- `page_insert` past the walk: the old page is removed first. -/
theorem pageInsert_of_used {s' s'' : Kernel} {pp : ℕ}
    (hwalk : s.pgdirWalk d va true = .ok (some (t, j), s')) (hp : Has (s'.phys t j) pteP)
    (hrem : (s'.incRef pp).pageRemove d va = .ok s'') :
    s.pageInsert d pp va perm = .ok (0, s''.storeEntry d va t j pp perm) := by
  have hp' : Has ((s'.incRef pp).phys t j) pteP := hp
  rw [pageInsert, hwalk]
  show ((if Has ((s'.incRef pp).phys t j) pteP then (s'.incRef pp).pageRemove d va
    else .ok (s'.incRef pp)) >>= _) = _
  rw [if_pos hp', hrem]
  rfl

end Kernel
end PmakeOs
