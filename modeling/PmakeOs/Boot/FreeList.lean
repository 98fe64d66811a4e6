import PmakeOs.Boot.Accepts

/-!
# The page allocator on its own

What `page_init` puts on the free list, and what `page_free` notices.

* The comment in `page_init` gives base memory as `[PGSIZE, npages_basemem * PGSIZE)`, but
  the loop does not look at `npages_basemem`: it takes every page below the device hole.
  The two agree if base memory reaches up to the hole (`pageInit_freshList`).
* `page_free` recognises a page on the free list by its link.  The last page on the list
  has none, so freeing it again succeeds, and closes the list to a cycle.  It is the only
  page for which this happens (`doubleFree_detected`).
* `check_page_free_list` moves the pages that the first page table maps to the front.  It
  partitions the list, and loses no page (`checkPageFreeList_lowFirst`).
-/

namespace PmakeOs

open Lib

/-- `npages_basemem`, as `i386_detect_memory` sets it. -/
def npagesBasemem (h : Hardware) : ℕ := h.basemem.toNat / (pgsize / 1024)

namespace Kernel

variable {s s' : Kernel} {l : List ℕ} {p pp k nb : ℕ} {nextfree pa : Word}

/-! ## `page_init` -/

/-- The pages that are free according to the comment in `page_init`. -/
def InitiallyFree (npagesBasemem kernelEndPage npages p : ℕ) : Prop :=
  (1 ≤ p ∧ p < npagesBasemem ∧ p ≠ pgnum mpentryPaddr) ∨ kernelEndPage ≤ p ∧ p < npages

/-- The free list as the comment describes it. -/
structure FreshList (npagesBasemem kernelEndPage : ℕ) (s : Kernel) : Prop where
  list : ∃ l, Threads s.links s.pageFreeList l ∧ l.Nodup ∧
    ∀ p, p ∈ l ↔ InitiallyFree npagesBasemem kernelEndPage s.npages p
  free : ∀ p, InitiallyFree npagesBasemem kernelEndPage s.npages p → (s.pages p).ppRef = 0#16
  used : ∀ p < s.npages, ¬ InitiallyFree npagesBasemem kernelEndPage s.npages p →
    (s.pages p).ppRef = 1#16 ∧ (s.pages p).ppLink = none

/-- `page_init`, with the counts of the pages that are not free. -/
theorem pageInit_pool (hl : s.pageFreeList = none) (hpg : ∀ p, s.links p = none)
    (hpa : paddr nextfree = .ok pa) :
    ∃ s', s.pageInit nextfree = .ok s' ∧ s'.npages = s.npages ∧
      Pool s' (usablePages (pgnum pa) s.npages) ∧
      ∀ p < s.npages, ¬ Usable (pgnum pa) p → (s'.pages p).ppRef = 1#16 := by
  obtain ⟨pages, heq, hthreads, hnone, hzero, hone⟩ := pageInit_loop (pgnum pa) hl hpg s.npages
  refine ⟨{ s with pages := pages, pageFreeList := _ }, ?_, rfl,
    ⟨hthreads, hnone, hzero, fun p hp => (mem_usablePages.mp hp).1⟩, hone⟩
  rw [pageInit]
  show (paddr nextfree >>= _) = _
  rw [hpa, ok_bind, heq]
  rfl

/-- The comment and the loop agree on a page, if base memory reaches up to the hole. -/
theorem initiallyFree_iff (hk : 256 ≤ k) (hkn : k ≤ s.npages) :
    InitiallyFree 160 k s.npages p ↔ p ∈ usablePages k s.npages := by
  rw [mem_usablePages, usable_iff, InitiallyFree, pgnum_mpentryPaddr]
  omega

/-- **What `page_init` makes.**  It is what its comment says exactly if base memory reaches
up to the device hole. -/
theorem pageInit_freshList (hl : s.pageFreeList = none) (hpg : ∀ p, s.links p = none)
    (hpa : paddr nextfree = .ok pa) (hnb : 8 ≤ nb) (hnb' : nb ≤ pgnum iophysmem)
    (hk : pgnum extphysmem ≤ pgnum pa) (hkn : pgnum pa ≤ s.npages) :
    (∃ s', s.pageInit nextfree = .ok s' ∧ FreshList nb (pgnum pa) s') ↔
      nb = pgnum iophysmem := by
  obtain ⟨s', hrun, hn, hpool, hone⟩ := pageInit_pool hl hpg hpa
  rw [pgnum_iophysmem] at hnb' ⊢
  rw [show pgnum extphysmem = 256 by decide] at hk
  constructor
  · rintro ⟨s'', hrun', hfresh⟩
    obtain rfl : s' = s'' := Except.ok.inj (hrun.symm.trans hrun')
    obtain ⟨l, hlist, -, hmem⟩ := hfresh.list
    by_contra hne
    -- page 159 is on the list
    have hin : 159 ∈ l := by
      rw [hlist.unique hpool.list, mem_usablePages, usable_iff]
      omega
    rw [hmem, InitiallyFree, hn] at hin
    omega
  · rintro rfl
    refine ⟨s', hrun, ⟨_, hpool.list, hpool.nodup, fun p => ?_⟩, fun p hp => ?_, fun p hp hnot => ?_⟩
    · rw [hn, initiallyFree_iff hk hkn]
    · rw [hn, initiallyFree_iff hk hkn] at hp
      exact hpool.ref p hp
    · rw [hn, initiallyFree_iff hk hkn] at hnot
      rw [hn] at hp
      refine ⟨hone p hp fun hu => hnot (mem_usablePages.mpr ⟨hp, hu⟩), hpool.link p hnot⟩

/-- A machine with a kilobyte of firmware data below the hole, as many have. -/
def machine639 : Hardware := { machine64 with basemem := 639#16 }

theorem pageInit_freshList_machine64 : npagesBasemem machine64 = 160 ∧
    ∃ s', (powerOn machine64).pageInit 0xF0200000#32 = .ok s' ∧
      FreshList (npagesBasemem machine64) (pgnum 0x200000#32) s' := by
  have hnb : npagesBasemem machine64 = 160 := by decide
  refine ⟨hnb, ?_⟩
  rw [hnb]
  have hpa : paddr 0xF0200000#32 = .ok 0x200000#32 := by decide
  exact (pageInit_freshList rfl (fun _ => rfl) hpa (by decide) (by decide) (by decide)
    (by decide)).mpr pgnum_iophysmem.symm

/-- The last whole page below the hole is free although firmware uses the rest of it. -/
theorem not_pageInit_freshList : ¬ ∀ (h : Hardware) (nextfree pa : Word),
    paddr nextfree = .ok pa → 8 ≤ npagesBasemem h → npagesBasemem h ≤ pgnum iophysmem →
    pgnum extphysmem ≤ pgnum pa → pgnum pa ≤ (powerOn h).npages →
    ∃ s', (powerOn h).pageInit nextfree = .ok s' ∧ FreshList (npagesBasemem h) (pgnum pa) s' := by
  intro h
  have hpa : paddr 0xF0200000#32 = .ok 0x200000#32 := by decide
  obtain ⟨s', hrun, hfresh⟩ := h machine639 0xF0200000#32 0x200000#32 hpa (by decide) (by decide)
    (by decide) (by decide)
  obtain ⟨s'', hrun', hn, hpool, -⟩ := pageInit_pool (s := powerOn machine639) rfl (fun _ => rfl) hpa
  obtain rfl : s' = s'' := Except.ok.inj (hrun.symm.trans hrun')
  obtain ⟨l, hlist, -, hmem⟩ := hfresh.list
  have hin : 159 ∈ l := by
    rw [hlist.unique hpool.list, mem_usablePages]
    decide
  have hnb : npagesBasemem machine639 = 159 := by decide
  have hk : pgnum 0x200000#32 = 512 := by decide
  rw [hmem, InitiallyFree, hnb, hk] at hin
  omega

/-! ## Freeing twice -/

/-- The page is on the free list. -/
def InFreeList (s : Kernel) (pp : ℕ) : Prop := Linked s.links s.pageFreeList pp

/-- The page is the last one on the free list. -/
def LastFree (s : Kernel) (pp : ℕ) : Prop := s.InFreeList pp ∧ (s.pages pp).ppLink = none

/-- Following the links ends, without a page twice. -/
def Acyclic (s : Kernel) : Prop := ∃ l, Threads s.links s.pageFreeList l ∧ l.Nodup

/-- States that `page_alloc` and `page_free` lead to after `page_init`, where every call
of `page_free` meets the condition. -/
inductive PoolRun (free : Kernel → ℕ → Prop) : Kernel → Prop
  | pageInit {s s' : Kernel} {nextfree : Word} : s.pageFreeList = none → (∀ p, s.links p = none) →
      s.pageInit nextfree = .ok s' → PoolRun free s'
  | pageAlloc {s s' : Kernel} {allocFlags : Word} {r : Option ℕ} : PoolRun free s →
      s.pageAlloc allocFlags = .ok (r, s') → PoolRun free s'
  | pageFree {s s' : Kernel} {pp : ℕ} : PoolRun free s → pp < s.npages → free s pp →
      s.pageFree pp = .ok s' → PoolRun free s'

/-- A call of `page_free` for a page on the list panics, and a call that returns leaves a
list without a cycle. -/
def Detects (s : Kernel) (pp : ℕ) : Prop :=
  (s.InFreeList pp → ∃ e, s.pageFree pp = .error e) ∧
    ∀ s', s.pageFree pp = .ok s' → s'.Acyclic

theorem Pool.inFreeList_iff (h : Pool s l) : s.InFreeList pp ↔ pp ∈ l := h.list.linked_iff

theorem Pool.acyclic (h : Pool s l) : s.Acyclic := ⟨l, h.list, h.nodup⟩

/-- **What `page_alloc` can do** to the list. -/
theorem Pool.of_pageAlloc (h : Pool s l) {allocFlags : Word} {r : Option ℕ}
    (hrun : s.pageAlloc allocFlags = .ok (r, s')) : ∃ l', Pool s' l' := by
  unfold Kernel.pageAlloc at hrun
  split at hrun
  · obtain ⟨-, rfl⟩ := Prod.mk.inj (Except.ok.inj hrun)
    exact ⟨l, h⟩
  · rename_i p hp
    have hlist := h.list
    rw [hp] at hlist
    obtain ⟨l', rfl, hpop⟩ := hlist.pop
    have hnd := List.nodup_cons.mp h.nodup
    -- the list after the page has been taken, whatever the frames hold
    have hpool : ∀ m, Pool { (({ s with pageFreeList := (s.pages p).ppLink } : Kernel).setPage p
        { s.pages p with ppLink := none }) with phys := m } l' := by
      intro m
      refine ⟨?_, fun q hq => ?_, fun q hq => ?_, fun q hq => h.lt q (List.mem_cons_of_mem _ hq)⟩
      · show Threads (({ s with pageFreeList := (s.pages p).ppLink } : Kernel).setPage p
          { s.pages p with ppLink := none }).links (s.links p) l'
        rw [links_setPage]
        exact hpop
      · show (({ s with pageFreeList := (s.pages p).ppLink } : Kernel).setPage p
          { s.pages p with ppLink := none }).links q = none
        rw [links_setPage]
        rcases eq_or_ne q p with rfl | hqp
        · rw [Function.update_self]
        · rw [Function.update_of_ne hqp]
          exact h.link q (by simp [hqp, hq])
      · have hqp : q ≠ p := by
          rintro rfl
          exact hnd.1 hq
        show (Function.update s.pages p _ q).ppRef = 0#16
        rw [Function.update_of_ne hqp]
        exact h.ref q (List.mem_cons_of_mem _ hq)
    split at hrun
    · obtain ⟨f, -, hrun⟩ := bind_eq_ok.mp hrun
      obtain ⟨-, rfl⟩ := Prod.mk.inj (Except.ok.inj hrun)
      exact ⟨l', hpool _⟩
    · obtain ⟨-, rfl⟩ := Prod.mk.inj (Except.ok.inj hrun)
      exact ⟨l', hpool _⟩

/-- `page_free` of a page that is not on the list. -/
theorem Pool.pushFree (h : Pool s l) (hpp : pp < s.npages) (hmem : pp ∉ l)
    (href : (s.pages pp).ppRef = 0#16) : Pool (s.pushFree pp) (pp :: l) := by
  refine ⟨?_, fun q hq => ?_, fun q hq => ?_, fun q hq => ?_⟩
  · rw [links_pushFree]
    exact h.list.push hmem
  · rw [List.mem_cons, not_or] at hq
    rw [links_pushFree, Function.update_of_ne hq.1]
    exact h.link q hq.2
  · show (Function.update s.pages pp _ q).ppRef = 0#16
    rcases eq_or_ne q pp with rfl | hne
    · rw [Function.update_self]
      exact href
    · rw [Function.update_of_ne hne]
      exact h.ref q ((List.mem_cons.mp hq).resolve_left hne)
  · rcases List.mem_cons.mp hq with rfl | hq
    · exact hpp
    · exact h.lt q hq

/-- The two tests of `page_free`, passed. -/
theorem of_pageFree_ok (hrun : s.pageFree pp = .ok s') :
    (s.pages pp).ppRef = 0#16 ∧ (s.pages pp).ppLink = none ∧ s' = s.pushFree pp := by
  unfold Kernel.pageFree at hrun
  split at hrun
  · cases hrun
  · rename_i hnot
    push Not at hnot
    exact ⟨hnot.1, hnot.2, (Except.ok.inj hrun).symm⟩

theorem Pool.of_pageFree (h : Pool s l) (hpp : pp < s.npages) (hlast : ¬ s.LastFree pp)
    (hrun : s.pageFree pp = .ok s') : Pool s' (pp :: l) := by
  obtain ⟨href, hlink, rfl⟩ := of_pageFree_ok hrun
  exact h.pushFree hpp (fun hmem => hlast ⟨h.inFreeList_iff.mpr hmem, hlink⟩) href

theorem PoolRun.pool (h : PoolRun (fun s pp => ¬ s.LastFree pp) s) : ∃ l, Pool s l := by
  induction h with
  | @pageInit s s' nextfree hl hpg hrun =>
    cases hpa : paddr nextfree with
    | error e =>
      have herr : s.pageInit nextfree = .error e := by
        show (paddr nextfree >>= _) = _
        rw [hpa]
        rfl
      rw [herr] at hrun
      cases hrun
    | ok pa =>
      obtain ⟨s'', hrun', -, hpool, -⟩ := pageInit_pool hl hpg hpa
      obtain rfl : s' = s'' := Except.ok.inj (hrun.symm.trans hrun')
      exact ⟨_, hpool⟩
  | pageAlloc _ hrun ih =>
    obtain ⟨l, hpool⟩ := ih
    exact hpool.of_pageAlloc hrun
  | pageFree _ hpp hlast hrun ih =>
    obtain ⟨l, hpool⟩ := ih
    exact ⟨_, hpool.of_pageFree hpp hlast hrun⟩

/-- **The last page closes the list to a cycle.** -/
theorem not_acyclic_pushFree (h : s.InFreeList pp) : ¬ (s.pushFree pp).Acyclic := by
  rintro ⟨l', hthreads, -⟩
  refine Threads.not_linked (a := pp) (l := l') hthreads ?_
  rw [links_pushFree, Function.update_self]
  exact Linked.update h

/-- **Which double frees are detected**, after any calls of `page_alloc` and `page_free`
among which there was no free of the last page of the list. -/
theorem doubleFree_detected (h : PoolRun (fun s pp => ¬ s.LastFree pp) s) :
    s.Acyclic ∧ (∀ pp < s.npages, s.Detects pp ↔ ¬ s.LastFree pp) ∧
      ∀ pp, s.LastFree pp → ∃ s', s.pageFree pp = .ok s' ∧ ¬ s'.Acyclic := by
  obtain ⟨l, hpool⟩ := h.pool
  have hok : ∀ pp, s.LastFree pp → s.pageFree pp = .ok (s.pushFree pp) := fun pp hlast =>
    pageFree_of_ok (hpool.ref pp (hpool.inFreeList_iff.mp hlast.1)) hlast.2
  refine ⟨hpool.acyclic, fun pp hpp => ⟨fun hdet hlast => ?_, fun hlast => ⟨fun hon => ?_, ?_⟩⟩,
    fun pp hlast => ⟨_, hok pp hlast, not_acyclic_pushFree hlast.1⟩⟩
  · obtain ⟨e, herr⟩ := hdet.1 hlast.1
    rw [hok pp hlast] at herr
    cases herr
  · cases hrun : s.pageFree pp with
    | error e => exact ⟨e, rfl⟩
    | ok s' => exact absurd ⟨hon, (of_pageFree_ok hrun).2.1⟩ hlast
  · intro s' hrun
    exact (hpool.of_pageFree hpp hlast hrun).acyclic

theorem usablePages_machine64 :
    usablePages 512 16384 = 16383 :: 16382 :: usablePages 512 16382 := by
  rw [usablePages_succ, if_pos (by decide), usablePages_succ, if_pos (by decide)]

/-- The first page of the list is allocated and freed.  Freed again, it is found. -/
theorem doubleFree_detected_machine64 : ∃ s₁ s₂ s₃,
    (powerOn machine64).pageInit 0xF0200000#32 = .ok s₁ ∧
    s₁.pageAlloc allocZero = .ok (some 16383, s₂) ∧ s₂.pageFree 16383 = .ok s₃ ∧ s₃.Acyclic ∧
    ∃ e, s₃.pageFree 16383 = .error e := by
  have hpa : paddr 0xF0200000#32 = .ok 0x200000#32 := by decide
  obtain ⟨s₁, hinit, hn, hpool, -⟩ := pageInit_pool (s := powerOn machine64) rfl (fun _ => rfl) hpa
  have hnp : s₁.npages = 16384 := hn.trans (by decide)
  rw [show (powerOn machine64).npages = 16384 by decide, show pgnum 0x200000#32 = 512 by decide,
    usablePages_machine64] at hpool
  obtain ⟨hhead, hnext⟩ : s₁.pageFreeList = some 16383 ∧ s₁.links 16383 = some 16382 := by
    have hlist := hpool.list
    generalize usablePages 512 16382 = l, s₁.pageFreeList = head at hlist
    cases hlist with
    | cons ht =>
      generalize s₁.links 16383 = next at ht ⊢
      cases ht
      exact ⟨rfl, rfl⟩
  have halloc := pageAlloc_of_cons hhead (by omega) (show 16383 < kernWindow by decide)
  -- the page is off the list while it is in use
  have hoff : ¬ (s₁.takePage 16383).InFreeList 16383 := by
    have hlist := hpool.list
    rw [hhead] at hlist
    obtain ⟨l, hl, hpop⟩ := hlist.pop
    have hlinks : (s₁.takePage 16383).links = Function.update s₁.links 16383 none :=
      links_setPage ..
    show ¬ Linked (s₁.takePage 16383).links (s₁.links 16383) 16383
    rw [hlinks, hpop.linked_iff]
    have hnd := hpool.nodup
    rw [hl] at hnd
    exact (List.nodup_cons.mp hnd).1
  have hfree : (s₁.takePage 16383).pageFree 16383 = .ok ((s₁.takePage 16383).pushFree 16383) := by
    refine pageFree_of_ok ?_ ?_
    · simpa [takePage, setPage, zeroFrame] using hpool.ref 16383 List.mem_cons_self
    · simp [takePage, setPage, zeroFrame, links]
  have hrun : PoolRun (fun s pp => ¬ s.LastFree pp) ((s₁.takePage 16383).pushFree 16383) :=
    .pageFree (.pageAlloc (.pageInit rfl (fun _ => rfl) hinit) halloc)
      (show 16383 < s₁.npages by omega) (fun h0 => hoff h0.1) hfree
  have hlast : ¬ ((s₁.takePage 16383).pushFree 16383).LastFree 16383 := by
    rintro ⟨-, h0⟩
    have hlink : ((s₁.takePage 16383).pushFree 16383).links 16383 = s₁.links 16383 := by
      rw [links_pushFree, Function.update_self]
      rfl
    cases h0.symm.trans (hlink.trans hnext)
  obtain ⟨hacyclic, hdetect, -⟩ := doubleFree_detected hrun
  exact ⟨s₁, _, _, hinit, halloc, hfree, hacyclic,
    ((hdetect 16383 (show 16383 < s₁.npages by omega)).mpr hlast).1 .head⟩

/-- Right after `page_init`, page 1 is the last page on the list, and can be freed again. -/
theorem not_doubleFree_detected : ¬ ∀ s, PoolRun (fun _ _ => True) s → ∀ pp, s.InFreeList pp →
    ∃ e, s.pageFree pp = .error e := by
  intro h
  have hpa : paddr 0xF0200000#32 = .ok 0x200000#32 := by decide
  obtain ⟨s, hrun, -, hpool, -⟩ := pageInit_pool (s := powerOn machine64) rfl (fun _ => rfl) hpa
  have hmem : 1 ∈ usablePages (pgnum 0x200000#32) (powerOn machine64).npages := by
    rw [mem_usablePages]
    decide
  have hlast : (usablePages (pgnum 0x200000#32) (powerOn machine64).npages).getLast? = some 1 := by
    rw [usablePages, List.getLast?_reverse, List.head?_filter, List.find?_range_eq_some]
    exact ⟨by decide, List.mem_range.mpr (by decide), by decide⟩
  have hlink : s.links 1 = none := hpool.list.link_of_getLast? hlast
  obtain ⟨e, herr⟩ := h s (.pageInit rfl (fun _ => rfl) hrun) 1 (hpool.inFreeList_iff.mpr hmem)
  rw [pageFree_of_ok (hpool.ref 1 hmem) hlink] at herr
  cases herr

/-! ## Low pages first -/

/-- The stable partition of the pages: first those with a physical address below 4 MB. -/
def lowFirst (l : List ℕ) : List ℕ :=
  (l.filter fun p => page2pa p < 0x400000#32) ++ l.filter fun p => ¬ page2pa p < 0x400000#32

/-- The first entry of a page directory maps the first 4 MB. -/
theorem pdx_lt_one_iff (pa : Word) : pdx pa < 1 ↔ pa < 0x400000#32 := by
  rw [pdx_eq, BitVec.lt_def, show (0x400000#32).toNat = 2 ^ 22 by decide]
  omega

theorem filter_pdx_append (l : List ℕ) : (l.filter fun p => pdx (page2pa p) < 1) ++
    (l.filter fun p => ¬ pdx (page2pa p) < 1) = lowFirst l := by
  simp only [pdx_lt_one_iff, lowFirst]

theorem lowFirst_perm (l : List ℕ) : (lowFirst l).Perm l := by
  simp only [lowFirst, decide_not]
  exact List.filter_append_perm (fun p => decide (page2pa p < 0x400000#32)) l

/-- **What `check_page_free_list(1)` makes of the list.**  It is partitioned, with every page
once and a null pointer at the end, and nothing but the links of its pages has changed.  The
checks that follow leave the list as it is. -/
theorem checkPageFreeList_lowFirst (h : Threads s.links s.pageFreeList l)
    (hlt : ∀ p ∈ l, p < s.npages) :
    Threads (s.relinkFreeList 1).links (s.relinkFreeList 1).pageFreeList (lowFirst l) ∧
      (lowFirst l).Nodup ∧ (lowFirst l).Perm l ∧
      (∀ p, p ∉ l → (s.relinkFreeList 1).links p = s.links p) ∧
      (∀ p, ((s.relinkFreeList 1).pages p).ppRef = (s.pages p).ppRef) ∧
      (∃ pages pageFreeList, s.relinkFreeList 1 =
        { s with pages := pages, pageFreeList := pageFreeList }) ∧
      ∀ nextfree s', s.checkPageFreeList nextfree true = .ok s' →
        Threads s'.links s'.pageFreeList (lowFirst l) := by
  obtain ⟨pages, pfl, heq, hall, hoff, href⟩ := relinkFreeList_threads h hlt 1
  rw [filter_pdx_append] at hall
  have hlist : Threads (s.relinkFreeList 1).links (s.relinkFreeList 1).pageFreeList
      (lowFirst l) := by
    rw [heq]
    exact hall
  refine ⟨hlist, hall.nodup, lowFirst_perm l, fun p hp => ?_, fun p => ?_, ⟨pages, pfl, heq⟩,
    fun nf s' hrun => ?_⟩
  · rw [heq]
    exact hoff p hp
  · rw [heq]
    exact href p
  · have hne : s.pageFreeList ≠ none := by
      intro h0
      rw [Kernel.checkPageFreeList, if_pos h0] at hrun
      cases hrun
    rw [checkPageFreeList_eq hne] at hrun
    obtain ⟨s₁, hmark, hrun⟩ := bind_eq_ok.mp hrun
    obtain ⟨m, rfl⟩ := phys_of_foldlM_markFree hmark
    obtain ⟨-, -, hrun⟩ := bind_eq_ok.mp hrun
    obtain ⟨-, -, hrun⟩ := bind_eq_ok.mp hrun
    obtain ⟨-, -, hrun⟩ := bind_eq_ok.mp hrun
    obtain rfl := Except.ok.inj hrun
    exact hlist

/-- Four free pages, of which the second and the last are low. -/
def scattered : Kernel :=
  { powerOn machine64 with
    pageFreeList := some 1500
    pages := fun p =>
      ⟨if p = 1500 then some 3 else if p = 3 then some 2000 else if p = 2000 then some 7 else none,
        0#16⟩ }

theorem scattered_threads : Threads scattered.links scattered.pageFreeList [1500, 3, 2000, 7] :=
  .cons (.cons (.cons (.cons .nil)))

theorem checkPageFreeList_lowFirst_scattered :
    Threads scattered.links scattered.pageFreeList [1500, 3, 2000, 7] ∧
      Threads (scattered.relinkFreeList 1).links (scattered.relinkFreeList 1).pageFreeList
        [3, 7, 1500, 2000] ∧
      ∀ nextfree s', scattered.checkPageFreeList nextfree true = .ok s' →
        Threads s'.links s'.pageFreeList [3, 7, 1500, 2000] := by
  have hlow : lowFirst [1500, 3, 2000, 7] = [3, 7, 1500, 2000] := by decide
  obtain ⟨hlist, -, -, -, -, -, hcheck⟩ :=
    checkPageFreeList_lowFirst scattered_threads fun p hp => (by decide : ∀ p ∈ [1500, 3, 2000, 7],
      p < scattered.npages) p hp
  rw [hlow] at hlist hcheck
  exact ⟨scattered_threads, hlist, hcheck⟩

end Kernel
end PmakeOs
