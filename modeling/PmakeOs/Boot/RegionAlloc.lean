import PmakeOs.Kernel.Load
import PmakeOs.Lib.Offset
import PmakeOs.Trap.PageFault
import PmakeOs.Space.Handlers
import Mathlib.Data.Finset.Card
import Mathlib.Order.Interval.Finset.Nat

/-!
# `region_alloc`

`Loaded d l M F x m` describes a directory `d` while it is filled: the user pages in `M` are
mapped, page `v` to the frame `F v`; these frames and those of the tables are pairwise
different and were on the free list `l`, of which `m` is left.  One round of `region_alloc`
adds a page and perhaps a table (`Loaded.added`), and a store through the directory changes
one byte of one frame (`Loaded.poke`); neither changes what another page holds.

The pages that are needed are counted exactly: `framesNeeded M` is one for each page and one
for each table.
-/

namespace PmakeOs

open Lib

namespace Kernel

variable {s x y : Kernel} {d e p t v n : ℕ} {l m m' : List ℕ} {M : Finset ℕ} {F : ℕ → ℕ}
  {va stop a : Word}

/-! ## One round of `region_alloc` -/

/-- The head of the free list, taken and not cleared. -/
def popPage (s : Kernel) (p : ℕ) : Kernel :=
  let s := { s with pageFreeList := (s.pages p).ppLink }
  s.setPage p { s.pages p with ppLink := none }

theorem pageAlloc_of_head (h : s.pageFreeList = some p) :
    s.pageAlloc 0#32 = .ok (some p, s.popPage p) := by
  have hz : ¬ Has 0#32 allocZero := not_has_zero _
  rw [pageAlloc, h]
  simp only [if_neg hz]
  rfl

theorem threads_popPage (h : Threads s.links s.pageFreeList (p :: m)) :
    Threads (s.popPage p).links (s.popPage p).pageFreeList m := by
  rw [h.head_eq, List.head?_cons] at h
  obtain ⟨l', hl', hpop⟩ := h.pop
  obtain ⟨-, rfl⟩ := List.cons.inj hl'
  show Threads (Kernel.links (setPage _ _ _)) _ _
  rw [links_setPage]
  exact hpop

theorem regionAllocLoop_round {s₁ s₂ : Kernel} {fuel : ℕ} (hva : va < stop)
    (halloc : s.pageAlloc 0#32 = .ok (some p, s₁)) (hd : (s₁.envs e).envPgdir = some d)
    (hins : s₁.pageInsert d p va (pteW ||| pteU) = .ok (0, s₂)) :
    regionAllocLoop e stop (fuel + 1) va s =
      regionAllocLoop e stop fuel (va + BitVec.ofNat 32 pgsize) s₂ := by
  rw [regionAllocLoop, if_pos hva, halloc, ok_bind]
  simp only [hd, deref_some, ok_bind, hins]
  rw [if_neg (by decide)]

/-- What a round does: page `p` of the free list is mapped at `va`, in the table `t`. -/
structure Added (x y : Kernel) (d : ℕ) (m m' : List ℕ) (va : Word) (p t : ℕ) : Prop where
  only : MemoryOnly x y
  list : Threads y.links y.pageFreeList m'
  present : Has (y.phys d (pdx va)) pteP
  user : Has (y.phys d (pdx va)) pteU
  write : Has (y.phys d (pdx va)) pteW
  frame : frame (y.phys d (pdx va)) = t
  dir : ∀ i ≠ pdx va, y.phys d i = x.phys d i
  entry : y.phys t (ptx va) = page2pa p ||| (pteW ||| pteU) ||| pteP
  table : ∀ j ≠ ptx va, y.phys t j = if Has (x.phys d (pdx va)) pteP then x.phys t j else 0#32
  other : ∀ f, f ≠ d → f ≠ t → y.phys f = x.phys f
  /-- The table was there, or it is the next page of the free list. -/
  taken : (Has (x.phys d (pdx va)) pteP ∧ PmakeOs.frame (x.phys d (pdx va)) = t ∧ m = p :: m') ∨
    ¬ Has (x.phys d (pdx va)) pteP ∧ m = p :: t :: m'

/-- A round that finds the table. -/
theorem added_of_present (hlist : Threads x.links x.pageFreeList (p :: m))
    (hw : x.npages ≤ kernWindow) (hp : Has (x.phys d (pdx va)) pteP)
    (hlt : frame (x.phys d (pdx va)) < x.npages) (hne : frame (x.phys d (pdx va)) ≠ d)
    (hno : ¬ Has (x.phys (frame (x.phys d (pdx va))) (ptx va)) pteP) :
    ∃ y, (x.popPage p).pageInsert d p va (pteW ||| pteU) = .ok (0, y) ∧
      Added x y d (p :: m) m va p (frame (x.phys d (pdx va))) := by
  have hwalk : (x.popPage p).pgdirWalk d va true =
      .ok (some (frame (x.phys d (pdx va)), ptx va), x.popPage p) :=
    pgdirWalk_of_present (s := x.popPage p) hp hlt hw true
  have hins : (x.popPage p).pageInsert d p va (pteW ||| pteU) =
      .ok (0, ((x.popPage p).incRef p).storeEntry d va (frame (x.phys d (pdx va))) (ptx va) p
        (pteW ||| pteU)) := pageInsert_of_unused hwalk hno
  have hhead : x.pageFreeList = some p := hlist.head_eq
  have hphys : ∀ f k, (((x.popPage p).incRef p).storeEntry d va (frame (x.phys d (pdx va))) (ptx va)
      p (pteW ||| pteU)).phys f k = if f = d ∧ k = pdx va then x.phys d (pdx va) ||| (pteW ||| pteU)
        else if f = frame (x.phys d (pdx va)) ∧ k = ptx va then page2pa p ||| (pteW ||| pteU) ||| pteP
        else x.phys f k :=
    phys_storeEntry ((x.popPage p).incRef p) p (pteW ||| pteU) hne
  refine ⟨_, hins, ?_⟩
  have hpde : (((x.popPage p).incRef p).storeEntry d va (frame (x.phys d (pdx va))) (ptx va) p
      (pteW ||| pteU)).phys d (pdx va) = x.phys d (pdx va) ||| (pteW ||| pteU) := by
    rw [hphys, if_pos ⟨rfl, rfl⟩]
  have hWU : Has (pteW ||| pteU) pteU ∧ Has (pteW ||| pteU) pteW := by decide
  refine ⟨(memoryOnly_of_pageAlloc (pageAlloc_of_head hhead)).trans (memoryOnly_of_pageInsert hins),
    ?_, ?_, ?_, ?_, ?_, fun i hi => ?_, ?_, fun j hj => ?_, fun f hfd hft => ?_,
    Or.inl ⟨hp, rfl, rfl⟩⟩
  · show Threads ((x.popPage p).incRef p).links _ _
    rw [links_incRef]
    exact threads_popPage hlist
  · rw [hpde, has_or]
    exact Or.inl hp
  · rw [hpde, has_or]
    exact Or.inr hWU.1
  · rw [hpde, has_or]
    exact Or.inr hWU.2
  · rw [hpde, frame_or_of_lt _ (by decide)]
  · rw [hphys, if_neg (fun h => hi h.2), if_neg (fun h => hne h.1.symm)]
  · rw [hphys, if_neg (fun h => hne h.1), if_pos ⟨rfl, rfl⟩]
  · rw [hphys, if_neg (fun h => hne h.1), if_neg (fun h => hj h.2), if_pos hp]
  · funext k
    rw [hphys, if_neg (fun h => hfd h.1), if_neg (fun h => hft h.1)]

/-- A round that adds the table. -/
theorem added_of_absent (hlist : Threads x.links x.pageFreeList (p :: t :: m))
    (hw : x.npages ≤ kernWindow) (hno : ¬ Has (x.phys d (pdx va)) pteP) (hlt : t < x.npages)
    (hne : t ≠ d) :
    ∃ y, (x.popPage p).pageInsert d p va (pteW ||| pteU) = .ok (0, y) ∧
      Added x y d (p :: t :: m) m va p t := by
  have hlist₁ := threads_popPage hlist
  have hhead : x.pageFreeList = some p := hlist.head_eq
  have hhead₁ : (x.popPage p).pageFreeList = some t := hlist₁.head_eq
  have hwalk : (x.popPage p).pgdirWalk d va true =
      .ok (some (t, ptx va), (x.popPage p).addTable d (pdx va) t) :=
    pgdirWalk_of_alloc hno hhead₁ hlt hw
  have hadd : ∀ f k, ((x.popPage p).addTable d (pdx va) t).phys f k =
      if f = d ∧ k = pdx va then page2pa t ||| pteP ||| pteU ||| pteW
      else if f = t then 0#32 else x.phys f k := fun _ _ => rfl
  have hunused : ¬ Has (((x.popPage p).addTable d (pdx va) t).phys t (ptx va)) pteP := by
    rw [hadd, if_neg (fun h => hne h.1), if_pos rfl]
    exact not_has_zero _
  have hins : (x.popPage p).pageInsert d p va (pteW ||| pteU) =
      .ok (0, (((x.popPage p).addTable d (pdx va) t).incRef p).storeEntry d va t (ptx va) p
        (pteW ||| pteU)) := pageInsert_of_unused hwalk hunused
  have hphys : ∀ f k, ((((x.popPage p).addTable d (pdx va) t).incRef p).storeEntry d va t (ptx va)
      p (pteW ||| pteU)).phys f k = if f = d ∧ k = pdx va then
          ((x.popPage p).addTable d (pdx va) t).phys d (pdx va) ||| (pteW ||| pteU)
        else if f = t ∧ k = ptx va then page2pa p ||| (pteW ||| pteU) ||| pteP
        else ((x.popPage p).addTable d (pdx va) t).phys f k :=
    phys_storeEntry (((x.popPage p).addTable d (pdx va) t).incRef p) p (pteW ||| pteU) hne
  have hpde : ((((x.popPage p).addTable d (pdx va) t).incRef p).storeEntry d va t (ptx va) p
      (pteW ||| pteU)).phys d (pdx va) =
        page2pa t ||| pteP ||| pteU ||| pteW ||| (pteW ||| pteU) := by
    rw [hphys, if_pos ⟨rfl, rfl⟩, hadd, if_pos ⟨rfl, rfl⟩]
  have hWU : Has (pteW ||| pteU) pteU ∧ Has (pteW ||| pteU) pteW := by decide
  refine ⟨_, hins, (memoryOnly_of_pageAlloc (pageAlloc_of_head hhead)).trans
    (memoryOnly_of_pageInsert hins), ?_, ?_, ?_, ?_, ?_, fun i hi => ?_, ?_, fun j hj => ?_,
    fun f hfd hft => ?_, Or.inr ⟨hno, rfl⟩⟩
  · rw [hhead₁] at hlist₁
    obtain ⟨l', hl', hpop⟩ := hlist₁.pop
    obtain ⟨-, rfl⟩ := List.cons.inj hl'
    show Threads (((x.popPage p).takePage t).incRef t |>.incRef p).links _ _
    rw [links_incRef, links_incRef, links_takePage]
    exact hpop
  · rw [hpde, has_or]
    exact Or.inl (has_tableEntry_pteP t)
  · rw [hpde, has_or]
    exact Or.inr hWU.1
  · rw [hpde, has_or]
    exact Or.inr hWU.2
  · rw [hpde, frame_or_of_lt _ (by decide), frame_tableEntry (lt_of_lt_of_le hlt hw)]
  · rw [hphys, if_neg (fun h => hi h.2), if_neg (fun h => hne h.1.symm), hadd,
      if_neg (fun h => hi h.2), if_neg hne.symm]
  · rw [hphys, if_neg (fun h => hne h.1), if_pos ⟨rfl, rfl⟩]
  · rw [hphys, if_neg (fun h => hne h.1), if_neg (fun h => hj h.2), hadd,
      if_neg (fun h => hne h.1), if_pos rfl, if_neg hno]
  · funext k
    rw [hphys, if_neg (fun h => hfd h.1), if_neg (fun h => hft h.1), hadd, if_neg (fun h => hfd h.1),
      if_neg hft]

/-! ## The directory while it is filled -/

/-- A directory without user pages, and the free list. -/
structure Fresh (s : Kernel) (d : ℕ) (l : List ℕ) : Prop where
  /-- All of memory has kernel addresses; `check_page_free_list` asserts it. -/
  window : s.npages ≤ kernWindow
  list : Threads s.links s.pageFreeList l
  lt : ∀ p ∈ l, p < s.npages
  dir : d ∉ l
  empty : ∀ i < pdx utop, ¬ Has (s.phys d i) pteP

/-- The pages of the free list that user pages need, with their tables. -/
def framesNeeded (M : Finset ℕ) : ℕ := M.card + (M.image (· / nptentries)).card

theorem framesNeeded_mono {M' : Finset ℕ} (h : M ⊆ M') : framesNeeded M ≤ framesNeeded M' :=
  Nat.add_le_add (Finset.card_le_card h) (Finset.card_le_card (Finset.image_subset_image h))

/-- The entry of page `v`. -/
def loadedEntry (M : Finset ℕ) (F : ℕ → ℕ) (v : ℕ) : Word :=
  if v ∈ M then page2pa (F v) ||| (pteW ||| pteU) ||| pteP else 0#32

theorem loadedEntry_insert (M : Finset ℕ) (F : ℕ → ℕ) (v p : ℕ) :
    loadedEntry (insert v M) (Function.update F v p) v =
      page2pa p ||| (pteW ||| pteU) ||| pteP := by
  rw [loadedEntry, if_pos (Finset.mem_insert_self _ _), Function.update_self]

theorem loadedEntry_insert_of_ne {u : ℕ} (h : u ≠ v) :
    loadedEntry (insert v M) (Function.update F v p) u = loadedEntry M F u := by
  simp only [loadedEntry, Finset.mem_insert, h, false_or, Function.update_of_ne h]

/-- The pages of `M` are mapped, page `v` to the frame `F v`, and of the free list `l` there
is `m` left. -/
structure Loaded (d : ℕ) (l : List ℕ) (M : Finset ℕ) (F : ℕ → ℕ) (x : Kernel) (m : List ℕ) :
    Prop where
  window : x.npages ≤ kernWindow
  lt : ∀ p ∈ l, p < x.npages
  dir : d ∉ l
  list : Threads x.links x.pageFreeList m
  sub : ∀ p ∈ m, p ∈ l
  user : ∀ v ∈ M, v < upn
  present : ∀ i < pdx utop, Has (x.phys d i) pteP ↔ i ∈ M.image (· / nptentries)
  rights : ∀ i < pdx utop, Has (x.phys d i) pteP →
    Has (x.phys d i) pteU ∧ Has (x.phys d i) pteW
  table : ∀ i < pdx utop, Has (x.phys d i) pteP → frame (x.phys d i) ∈ l ∧ frame (x.phys d i) ∉ m
  table_inj : ∀ i < pdx utop, ∀ i' < pdx utop, Has (x.phys d i) pteP → Has (x.phys d i') pteP →
    frame (x.phys d i) = frame (x.phys d i') → i = i'
  entry : ∀ i < pdx utop, Has (x.phys d i) pteP → ∀ j < nptentries,
    x.phys (frame (x.phys d i)) j = loadedEntry M F (i * nptentries + j)
  page : ∀ v ∈ M, F v ∈ l ∧ F v ∉ m
  page_inj : ∀ v ∈ M, ∀ v' ∈ M, F v = F v' → v = v'
  apart : ∀ v ∈ M, ∀ i < pdx utop, Has (x.phys d i) pteP → F v ≠ frame (x.phys d i)
  count : l.length = m.length + framesNeeded M

theorem Fresh.loaded (h : Fresh s d l) : Loaded d l ∅ F s l := by
  refine ⟨h.window, h.lt, h.dir, h.list, fun _ hp => hp, fun v hv => ?_, fun i hi => ?_,
    fun i hi hp => absurd hp (h.empty i hi), fun i hi hp => absurd hp (h.empty i hi),
    fun i hi _ _ hp => absurd hp (h.empty i hi), fun i hi hp => absurd hp (h.empty i hi),
    fun v hv => ?_, fun v hv => ?_, fun v hv => ?_, rfl⟩
  · exact absurd hv (Finset.notMem_empty v)
  · exact iff_of_false (h.empty i hi) (Finset.notMem_empty i)
  · exact absurd hv (Finset.notMem_empty v)
  · exact absurd hv (Finset.notMem_empty v)
  · exact absurd hv (Finset.notMem_empty v)

theorem pgnum_lt_upn_iff (va : Word) : pgnum va < upn ↔ pdx va < pdx utop := by
  rw [pgnum_eq, upn_eq, pdx_utop, pdx_eq]
  omega

/-- The frames that a round takes are new. -/
structure Takes (x : Kernel) (d : ℕ) (l : List ℕ) (M : Finset ℕ) (F : ℕ → ℕ) (m m' : List ℕ)
    (i p t : ℕ) : Prop where
  page : p ∈ l ∧ p ∈ m ∧ p ∉ m'
  table : t ∈ l ∧ t ∉ m'
  ne : p ≠ t
  sub : ∀ q ∈ m', q ∈ m
  table_ne : ∀ i' < pdx utop, i' ≠ i → Has (x.phys d i') pteP → frame (x.phys d i') ≠ t
  page_ne : ∀ v ∈ M, F v ≠ t

theorem Loaded.takes (h : Loaded d l M F x m) (hi : pdx va < pdx utop)
    (ha : Added x y d m m' va p t) : Takes x d l M F m m' (pdx va) p t := by
  have hnd := h.list.nodup
  rcases ha.taken with ⟨hp, rfl, rfl⟩ | ⟨hno, rfl⟩
  · obtain ⟨hpm, -⟩ := List.nodup_cons.mp hnd
    obtain ⟨htl, htm⟩ := h.table _ hi hp
    refine ⟨⟨h.sub p List.mem_cons_self, List.mem_cons_self, hpm⟩,
      ⟨htl, fun h0 => htm (List.mem_cons_of_mem _ h0)⟩, ?_, fun q hq => List.mem_cons_of_mem _ hq,
      fun i' hi' hne hp' h0 => hne (h.table_inj i' hi' _ hi hp' hp h0),
      fun v hv => h.apart v hv _ hi hp⟩
    rintro rfl
    exact htm List.mem_cons_self
  · obtain ⟨hpm, hnd'⟩ := List.nodup_cons.mp hnd
    obtain ⟨htm, -⟩ := List.nodup_cons.mp hnd'
    have htmem : t ∈ p :: t :: m' := List.mem_cons_of_mem _ List.mem_cons_self
    refine ⟨⟨h.sub p List.mem_cons_self, List.mem_cons_self,
      fun h0 => hpm (List.mem_cons_of_mem _ h0)⟩, ⟨h.sub t htmem, htm⟩, ?_,
      fun q hq => List.mem_cons_of_mem _ (List.mem_cons_of_mem _ hq),
      fun i' hi' _ hp' h0 => (h.table i' hi' hp').2 (by rw [h0]; exact htmem),
      fun v hv h0 => (h.page v hv).2 (by rw [h0]; exact htmem)⟩
    rintro rfl
    exact hpm List.mem_cons_self

/-- The table of the new page: its own entry, and those of the pages before. -/
theorem Loaded.entry_added (h : Loaded d l M F x m) (hi : pdx va < pdx utop)
    (ha : Added x y d m m' va p t) {j : ℕ} (hj : j < nptentries) :
    y.phys t j = loadedEntry (insert (pgnum va) M) (Function.update F (pgnum va) p)
      (pdx va * nptentries + j) := by
  rcases eq_or_ne j (ptx va) with rfl | hne
  · rw [← pgnum_eq_pdx_ptx, loadedEntry_insert, ha.entry]
  · have hidx : pdx va * nptentries + j ≠ pgnum va := by
      rw [pgnum_eq_pdx_ptx]
      omega
    rw [ha.table j hne, loadedEntry_insert_of_ne hidx]
    by_cases hp : Has (x.phys d (pdx va)) pteP
    · rcases ha.taken with ⟨-, rfl, -⟩ | ⟨hno, -⟩
      · rw [if_pos hp, h.entry _ hi hp j hj]
      · exact absurd hp hno
    · -- without a table there were no pages of it
      rw [if_neg hp, loadedEntry, if_neg]
      intro hmem
      refine hp ((h.present _ hi).mpr (Finset.mem_image.mpr ⟨_, hmem, ?_⟩))
      rw [nptentries] at hj ⊢
      omega

/-- **One more page.** -/
theorem Loaded.added (h : Loaded d l M F x m) (hi : pdx va < pdx utop) (hv : pgnum va ∉ M)
    (ha : Added x y d m m' va p t) :
    Loaded d l (insert (pgnum va) M) (Function.update F (pgnum va) p) y m' := by
  have hk := h.takes hi ha
  have hnd := ha.only.npages
  have himage : (insert (pgnum va) M).image (· / nptentries) =
      insert (pdx va) (M.image (· / nptentries)) := by
    rw [Finset.image_insert, pgnum_div]
  have hold : ∀ v ∈ M, Function.update F (pgnum va) p v = F v := by
    intro v hvM
    refine Function.update_of_ne ?_ _ _
    rintro rfl
    exact hv hvM
  refine ⟨hnd.symm ▸ h.window, fun q hq => hnd.symm ▸ h.lt q hq, h.dir, ha.list,
    fun q hq => h.sub q (hk.sub q hq), fun v hvM => ?_, fun i hi' => ?_, fun i hi' hp => ?_,
    fun i hi' hp => ?_, fun i hi₁ i' hi₂ hp hp' hf => ?_, fun i hi' hp j hj => ?_, fun v hvM => ?_,
    fun v hvM v' hvM' hf => ?_, fun v hvM i hi' hp => ?_, ?_⟩
  · rcases Finset.mem_insert.mp hvM with rfl | hvM
    · exact (pgnum_lt_upn_iff va).mpr hi
    · exact h.user v hvM
  · rw [himage, Finset.mem_insert]
    rcases eq_or_ne i (pdx va) with rfl | hne
    · exact iff_of_true ha.present (Or.inl rfl)
    · rw [ha.dir i hne, h.present i hi', or_iff_right hne]
  · rcases eq_or_ne i (pdx va) with rfl | hne
    · exact ⟨ha.user, ha.write⟩
    · rw [ha.dir i hne] at hp ⊢
      exact h.rights i hi' hp
  · rcases eq_or_ne i (pdx va) with rfl | hne
    · rw [ha.frame]
      exact hk.table
    · rw [ha.dir i hne] at hp ⊢
      exact ⟨(h.table i hi' hp).1, fun h0 => (h.table i hi' hp).2 (hk.sub _ h0)⟩
  · rcases eq_or_ne i (pdx va) with rfl | hne
    · rcases eq_or_ne i' (pdx va) with rfl | hne'
      · rfl
      · rw [ha.dir i' hne'] at hp' hf
        rw [ha.frame] at hf
        exact absurd hf.symm (hk.table_ne i' hi₂ hne' hp')
    · rw [ha.dir i hne] at hp hf
      rcases eq_or_ne i' (pdx va) with rfl | hne'
      · rw [ha.frame] at hf
        exact absurd hf (hk.table_ne i hi₁ hne hp)
      · rw [ha.dir i' hne'] at hp' hf
        exact h.table_inj i hi₁ i' hi₂ hp hp' hf
  · rcases eq_or_ne i (pdx va) with rfl | hne
    · rw [ha.frame]
      exact h.entry_added hi ha hj
    · rw [ha.dir i hne] at hp ⊢
      have hidx : i * nptentries + j ≠ pgnum va := by
        intro h0
        refine hne ?_
        rw [← pgnum_div, ← h0]
        rw [nptentries] at hj ⊢
        omega
      have hfd : frame (x.phys d i) ≠ d := fun h0 => h.dir (h0 ▸ (h.table i hi' hp).1)
      rw [ha.other _ hfd (hk.table_ne i hi' hne hp), h.entry i hi' hp j hj,
        loadedEntry_insert_of_ne hidx]
  · rcases Finset.mem_insert.mp hvM with rfl | hvM
    · rw [Function.update_self]
      exact ⟨hk.page.1, hk.page.2.2⟩
    · rw [hold v hvM]
      exact ⟨(h.page v hvM).1, fun h0 => (h.page v hvM).2 (hk.sub _ h0)⟩
  · rcases Finset.mem_insert.mp hvM with rfl | hvM
    · rcases Finset.mem_insert.mp hvM' with rfl | hvM'
      · rfl
      · rw [Function.update_self, hold v' hvM'] at hf
        exact absurd (hf ▸ hk.page.2.1) (h.page v' hvM').2
    · rw [hold v hvM] at hf
      rcases Finset.mem_insert.mp hvM' with rfl | hvM'
      · rw [Function.update_self] at hf
        exact absurd (hf ▸ hk.page.2.1) (h.page v hvM).2
      · rw [hold v' hvM'] at hf
        exact h.page_inj v hvM v' hvM' hf
  · rcases eq_or_ne i (pdx va) with rfl | hne
    · rw [ha.frame]
      rcases Finset.mem_insert.mp hvM with rfl | hvM
      · rw [Function.update_self]
        exact hk.ne
      · rw [hold v hvM]
        exact hk.page_ne v hvM
    · rw [ha.dir i hne] at hp ⊢
      rcases Finset.mem_insert.mp hvM with rfl | hvM
      · rw [Function.update_self]
        intro h0
        exact (h.table i hi' hp).2 (h0 ▸ hk.page.2.1)
      · rw [hold v hvM]
        exact h.apart v hvM i hi' hp
  · have hcount := h.count
    rw [framesNeeded] at hcount
    rw [framesNeeded, himage, Finset.card_insert_of_notMem hv]
    rcases ha.taken with ⟨hp, -, rfl⟩ | ⟨hno, rfl⟩
    · rw [Finset.insert_eq_of_mem ((h.present _ hi).mp hp)]
      rw [List.length_cons] at hcount
      omega
    · rw [Finset.card_insert_of_notMem fun h0 => hno ((h.present _ hi).mpr h0)]
      rw [List.length_cons, List.length_cons] at hcount
      omega

/-- The pages that are mapped keep what they hold. -/
theorem Loaded.phys_added (h : Loaded d l M F x m) (hi : pdx va < pdx utop)
    (ha : Added x y d m m' va p t) (hv : v ∈ M) : y.phys (F v) = x.phys (F v) := by
  refine ha.other _ ?_ ((h.takes hi ha).page_ne v hv)
  intro h0
  exact h.dir (h0 ▸ (h.page v hv).1)

/-- A page can be added as long as the list is long enough. -/
theorem Loaded.exists_added (h : Loaded d l M F x m) (hi : pdx va < pdx utop) (hv : pgnum va ∉ M)
    (hroom : framesNeeded (insert (pgnum va) M) ≤ l.length) :
    ∃ y p t m', x.pageAlloc 0#32 = .ok (some p, x.popPage p) ∧
      (x.popPage p).pageInsert d p va (pteW ||| pteU) = .ok (0, y) ∧ Added x y d m m' va p t := by
  have hcount := h.count
  rw [framesNeeded] at hcount
  rw [framesNeeded, Finset.image_insert, pgnum_div, Finset.card_insert_of_notMem hv] at hroom
  cases m with
  | nil =>
    have hle := Finset.card_le_card (Finset.subset_insert (pdx va) (M.image (· / nptentries)))
    rw [List.length_nil] at hcount
    omega
  | cons p m =>
    have halloc : x.pageAlloc 0#32 = .ok (some p, x.popPage p) := pageAlloc_of_head h.list.head_eq
    by_cases hp : Has (x.phys d (pdx va)) pteP
    · obtain ⟨htl, -⟩ := h.table _ hi hp
      have hunused : ¬ Has (x.phys (frame (x.phys d (pdx va))) (ptx va)) pteP := by
        rw [h.entry _ hi hp _ (ptx_lt va), ← pgnum_eq_pdx_ptx, loadedEntry, if_neg hv]
        exact not_has_zero _
      obtain ⟨y, hins, ha⟩ := added_of_present h.list h.window hp (h.lt _ htl)
        (fun h0 => h.dir (h0 ▸ htl)) hunused
      exact ⟨y, p, _, m, halloc, hins, ha⟩
    · rw [Finset.card_insert_of_notMem fun h0 => hp ((h.present _ hi).mpr h0)] at hroom
      cases m with
      | nil =>
        rw [List.length_cons, List.length_nil] at hcount
        omega
      | cons t m =>
        have htl := h.sub t (List.mem_cons_of_mem _ List.mem_cons_self)
        obtain ⟨y, hins, ha⟩ := added_of_absent h.list h.window hp (h.lt t htl)
          fun h0 => h.dir (h0 ▸ htl)
        exact ⟨y, p, t, m, halloc, hins, ha⟩

/-! ## `region_alloc` -/

/-- The byte at `a`, if its page is mapped by `F`. -/
def loadedByte (x : Kernel) (F : ℕ → ℕ) (a : Word) : BitVec 8 :=
  physByte x.phys (F (pgnum a)) (a.toNat % pgsize)

/-- The pages of `M` hold what they held, and the kernel's part of the directory is as it
was. -/
structure Spared (d : ℕ) (M : Finset ℕ) (F F' : ℕ → ℕ) (x y : Kernel) : Prop where
  only : MemoryOnly x y
  upper : ∀ i, pdx utop ≤ i → y.phys d i = x.phys d i
  byte : ∀ a, pgnum a ∈ M → loadedByte y F' a = loadedByte x F a

theorem Spared.refl (d : ℕ) (M : Finset ℕ) (F : ℕ → ℕ) (x : Kernel) : Spared d M F F x x :=
  ⟨.refl x, fun _ _ => rfl, fun _ _ => rfl⟩

theorem Spared.trans {M' : Finset ℕ} {F' F'' : ℕ → ℕ} {z : Kernel} (h : Spared d M F F' x y)
    (h' : Spared d M' F' F'' y z) (hM : M ⊆ M') : Spared d M F F'' x z :=
  ⟨h.only.trans h'.only, fun i hi => (h'.upper i hi).trans (h.upper i hi),
    fun a ha => (h'.byte a (hM ha)).trans (h.byte a ha)⟩

theorem Spared.cr3 {F' : ℕ → ℕ} (h : Spared d M F F' x y) : y.thiscpu.cr3 = x.thiscpu.cr3 := by
  obtain ⟨tlb, htlb⟩ := h.only.cpu x.cpunum
  rw [thiscpu, h.only.cpunum, htlb]
  rfl

theorem Loaded.spared (h : Loaded d l M F x m) (hi : pdx va < pdx utop) (hv : pgnum va ∉ M)
    (ha : Added x y d m m' va p t) : Spared d M F (Function.update F (pgnum va) p) x y := by
  refine ⟨ha.only, fun i hlo => ha.dir i (by omega), fun a haM => ?_⟩
  have hne : pgnum a ≠ pgnum va := by
    intro h0
    exact hv (h0 ▸ haM)
  unfold loadedByte physByte
  rw [Function.update_of_ne hne, h.phys_added hi ha haM]

theorem insert_union_Ico (M : Finset ℕ) {a b : ℕ} (hab : a < b) :
    insert a M ∪ Finset.Ico (a + 1) b = M ∪ Finset.Ico a b := by
  ext v
  simp only [Finset.mem_union, Finset.mem_insert, Finset.mem_Ico]
  constructor
  · rintro ((rfl | h) | h)
    · exact Or.inr ⟨le_rfl, hab⟩
    · exact Or.inl h
    · exact Or.inr ⟨by omega, h.2⟩
  · rintro (h | h)
    · exact Or.inl (Or.inr h)
    · rcases eq_or_ne v a with rfl | hne
      · exact Or.inl (Or.inl rfl)
      · exact Or.inr ⟨by omega, h.2⟩

/-- **The loop of `region_alloc`** over the pages from `a` up to `b`. -/
theorem Loaded.regionAllocLoop {a b fuel : ℕ} (h : Loaded d l M F x m)
    (hd : (x.envs e).envPgdir = some d) (hva : va.toNat = 4096 * a) (hstop : stop.toNat = 4096 * b)
    (hb : b ≤ upn) (hfuel : b - a ≤ fuel) (hnew : ∀ v ∈ Finset.Ico a b, v ∉ M)
    (hroom : framesNeeded (M ∪ Finset.Ico a b) ≤ l.length) :
    ∃ y F' m', regionAllocLoop e stop fuel va x = .ok y ∧
      Loaded d l (M ∪ Finset.Ico a b) F' y m' ∧ Spared d M F F' x y := by
  induction fuel generalizing a va x m M F with
  | zero =>
    rw [Finset.Ico_eq_empty (by omega), Finset.union_empty]
    exact ⟨x, F, m, rfl, h, .refl d M F x⟩
  | succ fuel ih =>
    by_cases hab : a < b
    · have hlt : va < stop := by
        rw [BitVec.lt_def]
        omega
      have hpg : pgnum va = a := pgnum_page hva
      have hi : pdx va < pdx utop := (pgnum_lt_upn_iff va).mp (by omega)
      have hv : pgnum va ∉ M := by
        rw [hpg]
        exact hnew a (Finset.mem_Ico.mpr ⟨le_rfl, hab⟩)
      have hunion := insert_union_Ico M hab
      have hroom₁ : framesNeeded (insert (pgnum va) M) ≤ l.length := by
        rw [hpg]
        refine (framesNeeded_mono ?_).trans hroom
        rw [← hunion]
        exact Finset.subset_union_left
      obtain ⟨y, p, t, m₁, halloc, hins, ha⟩ := h.exists_added hi hv hroom₁
      have hy := h.added hi hv ha
      have hsp := h.spared hi hv ha
      rw [hpg] at hy hsp
      have hdy : (y.envs e).envPgdir = some d := by
        rw [hsp.only.envs]
        exact hd
      have hnew₁ : ∀ v ∈ Finset.Ico (a + 1) b, v ∉ insert a M := by
        intro v hvI hvM
        obtain ⟨hle, hvb⟩ := Finset.mem_Ico.mp hvI
        rcases Finset.mem_insert.mp hvM with rfl | hvM
        · omega
        · exact hnew v (Finset.mem_Ico.mpr ⟨by omega, hvb⟩) hvM
      obtain ⟨z, F', m', hrun, hz, hsp'⟩ := ih hy hdy (page_add_pgsize hva hstop hlt) (by omega)
        hnew₁ (by rw [hunion]; exact hroom)
      rw [hunion] at hz
      refine ⟨z, F', m', ?_, hz, hsp.trans hsp' (Finset.subset_insert a M)⟩
      rw [regionAllocLoop_round hlt halloc hd hins]
      exact hrun
    · rw [Finset.Ico_eq_empty (by omega), Finset.union_empty]
      refine ⟨x, F, m, ?_, h, .refl d M F x⟩
      rw [Kernel.regionAllocLoop, if_neg]
      rw [BitVec.lt_def]
      omega

/-- The pages of a region, between the two addresses that `region_alloc` rounds to. -/
def regionPageSet (va len : Word) : Finset ℕ :=
  Finset.Ico (pgnum (rounddown va (BitVec.ofNat 32 pgsize)))
    (pgnum (roundup (va + len) (BitVec.ofNat 32 pgsize)))

theorem regionPageSet_eq (va len : Word) (hfit : va.toNat + len.toNat + 4095 < 2 ^ 32) :
    regionPageSet va len =
      Finset.Ico (va.toNat / 4096) ((va.toNat + len.toNat + 4095) / 4096) := by
  have hpg : (BitVec.ofNat 32 pgsize).toNat = 4096 := by decide
  have hsum : (va + len).toNat = va.toNat + len.toNat := by
    rw [BitVec.toNat_add, Nat.mod_eq_of_lt (by omega)]
  rw [regionPageSet, pgnum_eq, pgnum_eq, toNat_rounddown, hpg, toNat_roundup (by omega), hsum]
  congr 1 <;> omega

/-- The page of a byte of the region. -/
theorem mem_regionPageSet {len : Word} (hfit : va.toNat + len.toNat + 4095 < 2 ^ 32) {i : ℕ}
    (hi : i < len.toNat) : pgnum (va + BitVec.ofNat 32 i) ∈ regionPageSet va len := by
  rw [regionPageSet_eq va len hfit, Finset.mem_Ico, pgnum_eq,
    toNat_add_ofNat (by omega)]
  omega

/-- **`region_alloc`** maps the pages of its region. -/
theorem Loaded.regionAlloc {len : Word} (h : Loaded d l M F x m)
    (hd : (x.envs e).envPgdir = some d) (hfit : va.toNat + len.toNat ≤ utop.toNat)
    (hnew : Disjoint (regionPageSet va len) M)
    (hroom : framesNeeded (M ∪ regionPageSet va len) ≤ l.length) :
    ∃ y F' m', x.regionAlloc e va len = .ok y ∧
      Loaded d l (M ∪ regionPageSet va len) F' y m' ∧ Spared d M F F' x y := by
  have hut := toNat_utop
  have hpg : (BitVec.ofNat 32 pgsize).toNat = 4096 := by decide
  have hsum : (va + len).toNat = va.toNat + len.toNat := by
    rw [BitVec.toNat_add, Nat.mod_eq_of_lt (by omega)]
  have hset := regionPageSet_eq va len (by omega)
  rw [hset] at hnew hroom ⊢
  refine h.regionAllocLoop hd ?_ ?_ ?_ ?_ ?_ hroom
  · rw [toNat_rounddown, hpg]
    omega
  · rw [toNat_roundup (by omega), hsum]
    omega
  · rw [upn_eq]
    omega
  · omega
  · exact fun v hv hvM => Finset.disjoint_left.mp hnew hv hvM

/-! ## `memset` and `memcpy` -/

theorem Loaded.lt_window (h : Loaded d l M F x m) (hv : v ∈ M) : F v < kernWindow :=
  lt_of_lt_of_le (h.lt _ (h.page v hv).1) h.window

/-- **The entries of the user pages.** -/
theorem Loaded.userPte_eq (h : Loaded d l M F x m) (hv : v < upn) :
    userPte x.phys d v =
      if v ∈ M then some (page2pa (F v) ||| (pteW ||| pteU) ||| pteP) else none := by
  have hi := index_lt hv
  have hidx : v / nptentries * nptentries + v % nptentries = v := Nat.div_add_mod' v nptentries
  unfold userPte
  dsimp only
  by_cases hp : Has (x.phys d (v / nptentries)) pteP
  · rw [h.entry _ hi hp _ (Nat.mod_lt _ (by decide)), hidx, loadedEntry]
    by_cases hM : v ∈ M
    · rw [if_pos hM, if_pos hM, if_pos ⟨hp, has_entry_pteP _ _⟩]
    · rw [if_neg hM, if_neg hM, if_neg (fun h0 => not_has_zero _ h0.2)]
  · rw [if_neg (fun h0 => hp h0.1), if_neg]
    exact fun hM => hp ((h.present _ hi).mpr (Finset.mem_image_of_mem _ hM))

/-- The processor's translation of a user page. -/
theorem Loaded.mmuWalk_eq (h : Loaded d l M F x m) (hv : v ∈ M) :
    mmuWalk x.phys d v = some ⟨F v, true, true⟩ := by
  have hlt := h.user v hv
  have hi := index_lt hlt
  have hp : Has (x.phys d (v / nptentries)) pteP :=
    (h.present _ hi).mpr (Finset.mem_image_of_mem _ hv)
  obtain ⟨hU, hW⟩ := h.rights _ hi hp
  have hbits : Has (pteW ||| pteU) pteU ∧ Has (pteW ||| pteU) pteW := by decide
  rw [Kernel.mmuWalk_eq, h.userPte_eq hlt, if_pos hv, Option.map_some,
    frame_entry (h.lt_window hv) (by decide)]
  simp [hU, hW, hbits.1, hbits.2]

theorem Loaded.byteAt_eq (h : Loaded d l M F x m) (ha : pgnum a ∈ M) :
    byteAt x.phys d a = some (loadedByte x F a) :=
  byteAt_of_place (place_of_walk (h.mmuWalk_eq ha))

/-- The frames of the pages hold nothing of the directory and its tables. -/
theorem Loaded.withPage {f : ℕ → ℕ → Word} (h : Loaded d l M F x m) (hv : v ∈ M)
    (hf : ∀ g ≠ F v, f g = x.phys g) : Loaded d l M F { x with phys := f } m := by
  have hd : f d = x.phys d := hf d fun h0 => h.dir (h0 ▸ (h.page v hv).1)
  refine ⟨h.window, h.lt, h.dir, h.list, h.sub, h.user, ?_, ?_, ?_, ?_, ?_, h.page, h.page_inj, ?_,
    h.count⟩
  all_goals dsimp only
  all_goals rw [hd]
  · exact h.present
  · exact h.rights
  · exact h.table
  · exact h.table_inj
  · intro i hi hp j hj
    rw [hf _ (h.apart v hv i hi hp).symm]
    exact h.entry i hi hp j hj
  · exact h.apart

/-- **A store** changes the byte it is made to and no other. -/
theorem Loaded.poke (h : Loaded d l M F x m) (hcr3 : x.thiscpu.cr3 = d) (ha : pgnum a ∈ M)
    (b : BitVec 8) :
    ∃ y, x.pokeByte a b = .ok y ∧ Loaded d l M F y m ∧ Spared d ∅ F F x y ∧
      ∀ a', pgnum a' ∈ M → loadedByte y F a' = if a' = a then b else loadedByte x F a' := by
  have hwalk : mmuWalk x.phys x.thiscpu.cr3 (pgnum a) = some ⟨F (pgnum a), true, true⟩ := by
    rw [hcr3]
    exact h.mmuWalk_eq ha
  have hother : ∀ g ≠ F (pgnum a),
      putByte x.phys (F (pgnum a), a.toNat % pgsize) b g = x.phys g := fun g hg =>
    putByte_of_ne _ _ hg
  refine ⟨_, pokeByte_eq hwalk rfl b, h.withPage ha hother,
    ⟨.of_cpus rfl rfl rfl rfl rfl rfl rfl rfl, fun i _ => ?_, fun a' ha' => ?_⟩, fun a' ha' => ?_⟩
  · exact congrFun (hother d fun h0 => h.dir (h0 ▸ (h.page _ ha).1)) i
  · exact absurd ha' (Finset.notMem_empty _)
  have hplace : (F (pgnum a'), a'.toNat % pgsize) = (F (pgnum a), a.toNat % pgsize) ↔ a' = a := by
    constructor
    · intro h0
      obtain ⟨hF, hoff⟩ := Prod.mk.inj h0
      have hpg := h.page_inj _ ha' _ ha hF
      apply BitVec.eq_of_toNat_eq
      rw [pgnum_eq, pgnum_eq] at hpg
      rw [pgsize] at hoff
      omega
    · rintro rfl
      rfl
  unfold loadedByte
  rw [physByte_putByte]
  by_cases heq : a' = a
  · rw [if_pos (hplace.mpr heq), if_pos heq]
  · rw [if_neg (mt hplace.mp heq), if_neg heq]

/-- **A range of stores** through the directory that is loaded. -/
theorem Loaded.pokeBytes (h : Loaded d l M F x m) (hcr3 : x.thiscpu.cr3 = d)
    (hfit : va.toNat + n ≤ 2 ^ 32) (hin : ∀ k < n, pgnum (va + BitVec.ofNat 32 k) ∈ M)
    (b : ℕ → BitVec 8) :
    ∃ y, x.pokeBytes va n b = .ok y ∧ Loaded d l M F y m ∧ Spared d ∅ F F x y ∧
      ∀ a, pgnum a ∈ M → loadedByte y F a =
        if va.toNat ≤ a.toNat ∧ a.toNat < va.toNat + n then b (a.toNat - va.toNat)
        else loadedByte x F a := by
  have hva := va.isLt
  refine foldlM_range_ok (I := fun k y => Loaded d l M F y m ∧ Spared d ∅ F F x y ∧
    ∀ a, pgnum a ∈ M → loadedByte y F a =
      if va.toNat ≤ a.toNat ∧ a.toNat < va.toNat + k then b (a.toNat - va.toNat)
      else loadedByte x F a) ⟨h, .refl d ∅ F x, fun a _ => ?_⟩ ?_
  · rw [if_neg (by omega)]
  · rintro k hk y ⟨hy, hsp, hbyte⟩
    obtain ⟨z, hrun, hz, hsp', hbyte'⟩ := hy.poke (hsp.cr3.trans hcr3) (hin k hk) (b k)
    refine ⟨z, hrun, hz, hsp.trans hsp' (Finset.Subset.refl _), fun a ha => ?_⟩
    have hak : (va + BitVec.ofNat 32 k).toNat = va.toNat + k := toNat_add_ofNat (by omega)
    rw [hbyte' a ha, hbyte a ha]
    by_cases heq : a = va + BitVec.ofNat 32 k
    · rw [if_pos heq, if_pos (by rw [heq, hak]; omega), heq, hak, Nat.add_sub_cancel_left]
    · have hne : a.toNat ≠ va.toNat + k := by
        rw [← hak]
        exact mt BitVec.eq_of_toNat_eq heq
      rw [if_neg heq]
      by_cases hin' : va.toNat ≤ a.toNat ∧ a.toNat < va.toNat + k
      · rw [if_pos hin', if_pos (by omega)]
      · rw [if_neg hin', if_neg (by omega)]

end Kernel
end PmakeOs
