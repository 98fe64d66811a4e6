import PmakeOs.Kernel.Boot
import PmakeOs.Paging.Preserve
import PmakeOs.Lib.Loop

/-!
# The free pages during boot

While memory is set up, the state of the page allocator is a list: `Pool s l` says
that the free list is `l`, in this order, that the pages on it have no references,
and that no other page has a link.

Every self test ends in a state that differs from the one it found in the order of
the list and in what the free pages hold: that is `Tested`.  This module shows it for
`check_page_free_list` and `check_page_alloc`, after `page_init` has made the first
list.
-/

namespace PmakeOs

open Lib

namespace Kernel

variable {s s' s'' : Kernel} {l l' l'' : List ℕ} {p q : ℕ} {w : Word}

/-- The free list is `l`. -/
structure Pool (s : Kernel) (l : List ℕ) : Prop where
  list : Threads s.links s.pageFreeList l
  link : ∀ p, p ∉ l → s.links p = none
  ref : ∀ p ∈ l, (s.pages p).ppRef = 0#16
  lt : ∀ p ∈ l, p < s.npages

/-- What the tests of `mem_init` do not change at all. -/
structure Still (s s' : Kernel) : Prop where
  npages : s'.npages = s.npages
  kernPgdir : s'.kernPgdir = s.kernPgdir
  envs : s'.envs = s.envs
  envFreeList : s'.envFreeList = s.envFreeList
  cpunum : s'.cpunum = s.cpunum
  cr3 : ∀ c, (s'.cpus c).cr3 = (s.cpus c).cr3

theorem Still.refl (s : Kernel) : Still s s := ⟨rfl, rfl, rfl, rfl, rfl, fun _ => rfl⟩

theorem Still.trans (h : Still s s') (h' : Still s' s'') : Still s s'' :=
  ⟨h'.npages.trans h.npages, h'.kernPgdir.trans h.kernPgdir, h'.envs.trans h.envs,
    h'.envFreeList.trans h.envFreeList, h'.cpunum.trans h.cpunum,
    fun c => (h'.cr3 c).trans (h.cr3 c)⟩

/-- **What a self test leaves behind.**  The list has the same pages, and nothing but
these pages has been written. -/
structure Tested (s s' : Kernel) (l l' : List ℕ) : Prop where
  pool : Pool s' l'
  perm : l'.Perm l
  ref : ∀ p, p ∉ l → (s'.pages p).ppRef = (s.pages p).ppRef
  phys : ∀ f, f ∉ l → s'.phys f = s.phys f
  still : Still s s'

theorem Tested.trans (h : Tested s s' l l') (h' : Tested s' s'' l' l'') : Tested s s'' l l'' := by
  have hmem : ∀ {x}, x ∉ l → x ∉ l' := fun hx hx' => hx (h.perm.mem_iff.mp hx')
  exact ⟨h'.pool, h'.perm.trans h.perm, fun p hp => (h'.ref p (hmem hp)).trans (h.ref p hp),
    fun f hf => (h'.phys f (hmem hf)).trans (h.phys f hf), h.still.trans h'.still⟩

/-! ## Walking along the list -/

theorem Pool.nodup (h : Pool s l) : l.Nodup := h.list.nodup

theorem length_le_npages (h : Threads s.links s.pageFreeList l) (hlt : ∀ p ∈ l, p < s.npages) :
    l.length ≤ s.npages := by
  have hsub : l ⊆ List.range s.npages := fun p hp => List.mem_range.mpr (hlt p hp)
  have hle := (h.nodup.subperm hsub).length_le
  rwa [List.length_range] at hle

theorem Pool.length_le (h : Pool s l) : l.length ≤ s.npages := length_le_npages h.list h.lt

theorem pagesFrom_eq {h : Option ℕ} (t : Threads s.links h l) :
    ∀ {fuel}, l.length ≤ fuel → s.pagesFrom fuel h = l := by
  induction t with
  | nil =>
    intro fuel _
    cases fuel <;> rfl
  | @cons a l t ih =>
    intro fuel hle
    cases fuel with
    | zero => simp at hle
    | succ fuel =>
      rw [List.length_cons] at hle
      show a :: s.pagesFrom fuel (s.links a) = _
      rw [ih (by omega)]

theorem Pool.freePages_eq (h : Pool s l) : s.freePages = l := pagesFrom_eq h.list h.length_le

/-- Writing to frames leaves the list alone. -/
theorem Pool.phys (h : Pool s l) (m : Phys) : Pool { s with phys := m } l :=
  ⟨h.list, h.link, h.ref, h.lt⟩

/-! ## `page_init` -/

/-- The pages that `page_init` puts on the free list. -/
def Usable (kernelEndPage p : ℕ) : Prop :=
  p ≠ 0 ∧ ¬ (pgnum iophysmem ≤ p ∧ p < kernelEndPage) ∧ p ≠ pgnum mpentryPaddr

instance (k p : ℕ) : Decidable (Usable k p) := inferInstanceAs (Decidable (_ ∧ _))

theorem pgnum_iophysmem : pgnum iophysmem = 160 := by decide

theorem pgnum_mpentryPaddr : pgnum mpentryPaddr = 7 := by decide

theorem usable_iff {k p : ℕ} : Usable k p ↔ p ≠ 0 ∧ p ≠ 7 ∧ (p < 160 ∨ k ≤ p) := by
  rw [Usable, pgnum_iophysmem, pgnum_mpentryPaddr]
  omega

/-- The free list of `page_init`: the last usable page first. -/
def usablePages (k n : ℕ) : List ℕ := ((List.range n).filter fun p => Usable k p).reverse

theorem mem_usablePages {k n p : ℕ} : p ∈ usablePages k n ↔ p < n ∧ Usable k p := by
  simp [usablePages]

theorem usablePages_succ (k n : ℕ) : usablePages k (n + 1) =
    if Usable k n then n :: usablePages k n else usablePages k n := by
  rw [usablePages, List.range_succ, List.filter_append, List.reverse_append]
  by_cases h : Usable k n
  · simp [h, usablePages]
  · simp [h, usablePages]

theorem pageInitSlot_of_usable {k i : ℕ} (h : Usable k i) :
    pageInitSlot k s i = { s.setPage i ⟨s.pageFreeList, 0#16⟩ with pageFreeList := some i } := by
  obtain ⟨h0, hhole, hmp⟩ := h
  rw [pageInitSlot, if_neg h0, if_neg hhole, if_neg hmp]

theorem pageInitSlot_of_not {k i : ℕ} (h : ¬ Usable k i) :
    pageInitSlot k s i = s.setPage i ⟨none, 1#16⟩ := by
  unfold pageInitSlot
  split
  · rfl
  rename_i h0
  split
  · rfl
  rename_i hhole
  split
  · rfl
  rename_i hmp
  exact absurd ⟨h0, hhole, hmp⟩ h

/-- The loop of `page_init`, from an allocator without pages. -/
theorem pageInit_loop (k : ℕ) (hl : s.pageFreeList = none) (hpg : ∀ p, s.links p = none) :
    ∀ n, ∃ pages, (List.range n).foldl (pageInitSlot k) s =
        { s with pages := pages, pageFreeList := (usablePages k n).head? } ∧
      Threads (fun p => (pages p).ppLink) (usablePages k n).head? (usablePages k n) ∧
      (∀ p, p ∉ usablePages k n → (pages p).ppLink = none) ∧
      (∀ p ∈ usablePages k n, (pages p).ppRef = 0#16) ∧
      ∀ p < n, ¬ Usable k p → (pages p).ppRef = 1#16 := by
  intro n
  induction n with
  | zero =>
    refine ⟨s.pages, ?_, .nil, fun p _ => hpg p, by simp [usablePages], by simp⟩
    show s = _
    rw [show (usablePages k 0).head? = s.pageFreeList by rw [hl]; rfl]
  | succ n ih =>
    obtain ⟨pages, heq, hthreads, hnone, hzero, hone⟩ := ih
    rw [List.range_succ, List.foldl_append, heq, usablePages_succ]
    have hn : n ∉ usablePages k n := fun hm => Nat.lt_irrefl n (mem_usablePages.mp hm).1
    have hne : ∀ p ∈ usablePages k n, p ≠ n := by
      rintro p hp rfl
      exact hn hp
    show ∃ pages', pageInitSlot k _ n = _ ∧ _
    by_cases hu : Usable k n
    · rw [pageInitSlot_of_usable hu, if_pos hu]
      have hlink : (fun p => (Function.update pages n ⟨(usablePages k n).head?, 0#16⟩ p).ppLink) =
          Function.update (fun p => (pages p).ppLink) n (usablePages k n).head? := by
        funext p
        rcases eq_or_ne p n with rfl | hp
        · rw [Function.update_self, Function.update_self]
        · rw [Function.update_of_ne hp, Function.update_of_ne hp]
      refine ⟨Function.update pages n ⟨(usablePages k n).head?, 0#16⟩, rfl, ?_, ?_, ?_, ?_⟩
      · rw [hlink]
        exact hthreads.push hn
      · intro p hp
        rw [List.mem_cons, not_or] at hp
        rw [Function.update_of_ne hp.1]
        exact hnone p hp.2
      · intro p hp
        rcases List.mem_cons.mp hp with rfl | hp
        · rw [Function.update_self]
        · rw [Function.update_of_ne (hne p hp)]
          exact hzero p hp
      · intro p hp hnu
        rcases eq_or_ne p n with rfl | hpn
        · exact absurd hu hnu
        · rw [Function.update_of_ne hpn]
          exact hone p (by omega) hnu
    · rw [pageInitSlot_of_not hu, if_neg hu]
      have hoff : ∀ p ∈ usablePages k n, Function.update pages n ⟨none, 1#16⟩ p = pages p :=
        fun p hp => Function.update_of_ne (hne p hp) _ _
      refine ⟨Function.update pages n ⟨none, 1#16⟩, rfl, ?_, ?_, ?_, ?_⟩
      · refine hthreads.frame fun p hp => ?_
        show (Function.update pages n ⟨none, 1#16⟩ p).ppLink = _
        rw [hoff p hp]
      · intro p hp
        rcases eq_or_ne p n with rfl | hpn
        · rw [Function.update_self]
        · rw [Function.update_of_ne hpn]
          exact hnone p hp
      · intro p hp
        rw [hoff p hp]
        exact hzero p hp
      · intro p hp hnu
        rcases eq_or_ne p n with rfl | hpn
        · rw [Function.update_self]
        · rw [Function.update_of_ne hpn]
          exact hone p (by omega) hnu

/-- **`page_init`.** -/
theorem pageInit_ok (nextfree : Word) {pa : Word} (hl : s.pageFreeList = none)
    (hpg : ∀ p, s.links p = none) (hpa : paddr nextfree = .ok pa) :
    ∃ pages pageFreeList, s.pageInit nextfree =
        .ok { s with pages := pages, pageFreeList := pageFreeList } ∧
      Pool { s with pages := pages, pageFreeList := pageFreeList }
        (usablePages (pgnum pa) s.npages) := by
  obtain ⟨pages, heq, hthreads, hnone, hzero, -⟩ := pageInit_loop (pgnum pa) hl hpg s.npages
  refine ⟨pages, _, ?_, hthreads, hnone, hzero, fun p hp => (mem_usablePages.mp hp).1⟩
  rw [pageInit]
  show (paddr nextfree >>= _) = _
  rw [hpa, ok_bind, heq]
  rfl

/-! ## Low pages first -/

/-- The loop that moves low pages to the front, in the middle of its work: the two
lists built so far, and the pages still to come. -/
structure Relinking (s : Kernel) (r : Relink) (low high : List ℕ) (pp : Option ℕ)
    (todo : List ℕ) : Prop where
  first : Open r.kernel.links r.pp1 r.tp1 low
  second : Open r.kernel.links r.pp2 r.tp2 high
  pending : Threads r.kernel.links pp todo
  low_high : ∀ p ∈ low, p ∉ high
  low_todo : ∀ p ∈ low, p ∉ todo
  high_todo : ∀ p ∈ high, p ∉ todo
  link : ∀ p, p ∉ low → p ∉ high → r.kernel.links p = s.links p
  ref : ∀ p, (r.kernel.pages p).ppRef = (s.pages p).ppRef
  rest : r.kernel = { s with pages := r.kernel.pages }

theorem Relink.links_store1 (r : Relink) (v : Option ℕ) :
    (r.store1 v).kernel.links = (writeEnd r.kernel.links r.pp1 r.tp1 v).1 ∧
      (r.store1 v).pp1 = (writeEnd r.kernel.links r.pp1 r.tp1 v).2 := by
  unfold Relink.store1 writeEnd
  cases r.tp1 with
  | none => exact ⟨rfl, rfl⟩
  | some q => exact ⟨links_setPage _ _ _, rfl⟩

theorem Relink.links_store2 (r : Relink) (v : Option ℕ) :
    (r.store2 v).kernel.links = (writeEnd r.kernel.links r.pp2 r.tp2 v).1 ∧
      (r.store2 v).pp2 = (writeEnd r.kernel.links r.pp2 r.tp2 v).2 := by
  unfold Relink.store2 writeEnd
  cases r.tp2 with
  | none => exact ⟨rfl, rfl⟩
  | some q => exact ⟨links_setPage _ _ _, rfl⟩

theorem ppRef_setLink (s : Kernel) (q : ℕ) (v : Option ℕ) (p : ℕ) :
    ((s.setPage q { s.pages q with ppLink := v }).pages p).ppRef = (s.pages p).ppRef := by
  rcases eq_or_ne p q with rfl | hp
  · simp [setPage]
  · simp [setPage, hp]

/-- A store moves links and nothing else. -/
theorem Relink.rest_store1 (r : Relink) (v : Option ℕ) :
    (∀ p, ((r.store1 v).kernel.pages p).ppRef = (r.kernel.pages p).ppRef) ∧
      (r.store1 v).kernel = { r.kernel with pages := (r.store1 v).kernel.pages } ∧
      (r.store1 v).pp2 = r.pp2 ∧ (r.store1 v).tp2 = r.tp2 := by
  unfold Relink.store1
  cases r.tp1 with
  | none => exact ⟨fun _ => rfl, rfl, rfl, rfl⟩
  | some q => exact ⟨ppRef_setLink _ _ _, rfl, rfl, rfl⟩

theorem Relink.rest_store2 (r : Relink) (v : Option ℕ) :
    (∀ p, ((r.store2 v).kernel.pages p).ppRef = (r.kernel.pages p).ppRef) ∧
      (r.store2 v).kernel = { r.kernel with pages := (r.store2 v).kernel.pages } ∧
      (r.store2 v).pp1 = r.pp1 ∧ (r.store2 v).tp1 = r.tp1 := by
  unfold Relink.store2
  cases r.tp2 with
  | none => exact ⟨fun _ => rfl, rfl, rfl, rfl⟩
  | some q => exact ⟨ppRef_setLink _ _ _, rfl, rfl, rfl⟩

/-- A low page goes to the end of the first list. -/
theorem Relinking.low {r : Relink} {low high todo : List ℕ} {pp : ℕ}
    (h : Relinking s r low high (some pp) (pp :: todo)) :
    Relinking s { r.store1 (some pp) with tp1 := some pp } (low ++ [pp]) high
      ((r.store1 (some pp)).kernel.pages pp).ppLink todo := by
  obtain ⟨hlinks, hhead⟩ := r.links_store1 (some pp)
  obtain ⟨href, hrest, hpp2, htp2⟩ := r.rest_store1 (some pp)
  have hpl : pp ∉ low := fun h0 => h.low_todo pp h0 List.mem_cons_self
  have hph : pp ∉ high := fun h0 => h.high_todo pp h0 List.mem_cons_self
  have hnd := List.nodup_cons.mp h.pending.nodup
  have hoff : ∀ b, b ∉ low → (r.store1 (some pp)).kernel.links b = r.kernel.links b := by
    intro b hb
    rw [hlinks, writeEnd_of_notMem h.first hb]
  constructor
  · show Open (r.store1 (some pp)).kernel.links (r.store1 (some pp)).pp1 (some pp) _
    rw [hlinks, hhead]
    exact h.first.append hpl
  · show Open (r.store1 (some pp)).kernel.links (r.store1 (some pp)).pp2
      (r.store1 (some pp)).tp2 high
    rw [hpp2, htp2]
    exact h.second.frame fun b hb => hoff b fun h0 => h.low_high b h0 hb
  · obtain ⟨m, hm, ht⟩ := h.pending.exists_cons
    obtain ⟨-, rfl⟩ := List.cons.inj hm
    show Threads (r.store1 (some pp)).kernel.links ((r.store1 (some pp)).kernel.links pp) todo
    rw [hoff pp hpl]
    exact ht.frame fun b hb => hoff b fun h0 => h.low_todo b h0 (List.mem_cons_of_mem _ hb)
  · intro p hp
    rcases List.mem_append.mp hp with hp | hp
    · exact h.low_high p hp
    · rw [List.mem_singleton.mp hp]
      exact hph
  · intro p hp
    rcases List.mem_append.mp hp with hp | hp
    · exact fun h0 => h.low_todo p hp (List.mem_cons_of_mem _ h0)
    · rw [List.mem_singleton.mp hp]
      exact hnd.1
  · exact fun p hp h0 => h.high_todo p hp (List.mem_cons_of_mem _ h0)
  · intro p hp hp'
    have hpl' : p ∉ low := fun h0 => hp (List.mem_append_left _ h0)
    exact (hoff p hpl').trans (h.link p hpl' hp')
  · exact fun p => (href p).trans (h.ref p)
  · show (r.store1 (some pp)).kernel = _
    rw [hrest, h.rest]

/-- A high page goes to the end of the second list. -/
theorem Relinking.high {r : Relink} {low high todo : List ℕ} {pp : ℕ}
    (h : Relinking s r low high (some pp) (pp :: todo)) :
    Relinking s { r.store2 (some pp) with tp2 := some pp } low (high ++ [pp])
      ((r.store2 (some pp)).kernel.pages pp).ppLink todo := by
  obtain ⟨hlinks, hhead⟩ := r.links_store2 (some pp)
  obtain ⟨href, hrest, hpp1, htp1⟩ := r.rest_store2 (some pp)
  have hpl : pp ∉ low := fun h0 => h.low_todo pp h0 List.mem_cons_self
  have hph : pp ∉ high := fun h0 => h.high_todo pp h0 List.mem_cons_self
  have hnd := List.nodup_cons.mp h.pending.nodup
  have hoff : ∀ b, b ∉ high → (r.store2 (some pp)).kernel.links b = r.kernel.links b := by
    intro b hb
    rw [hlinks, writeEnd_of_notMem h.second hb]
  constructor
  · show Open (r.store2 (some pp)).kernel.links (r.store2 (some pp)).pp1
      (r.store2 (some pp)).tp1 low
    rw [hpp1, htp1]
    exact h.first.frame fun b hb => hoff b (h.low_high b hb)
  · show Open (r.store2 (some pp)).kernel.links (r.store2 (some pp)).pp2 (some pp) _
    rw [hlinks, hhead]
    exact h.second.append hph
  · obtain ⟨m, hm, ht⟩ := h.pending.exists_cons
    obtain ⟨-, rfl⟩ := List.cons.inj hm
    show Threads (r.store2 (some pp)).kernel.links ((r.store2 (some pp)).kernel.links pp) todo
    rw [hoff pp hph]
    exact ht.frame fun b hb => hoff b fun h0 => h.high_todo b h0 (List.mem_cons_of_mem _ hb)
  · intro p hp hp'
    rcases List.mem_append.mp hp' with hp' | hp'
    · exact h.low_high p hp hp'
    · rw [List.mem_singleton.mp hp'] at hp
      exact hpl hp
  · exact fun p hp h0 => h.low_todo p hp (List.mem_cons_of_mem _ h0)
  · intro p hp
    rcases List.mem_append.mp hp with hp | hp
    · exact fun h0 => h.high_todo p hp (List.mem_cons_of_mem _ h0)
    · rw [List.mem_singleton.mp hp]
      exact hnd.1
  · intro p hp hp'
    have hph' : p ∉ high := fun h0 => hp' (List.mem_append_left _ h0)
    exact (hoff p hph').trans (h.link p hp hph')
  · exact fun p => (href p).trans (h.ref p)
  · show (r.store2 (some pp)).kernel = _
    rw [hrest, h.rest]

/-- **The loop sorts the pages into the two lists.** -/
theorem Relinking.loop (limit : ℕ) : ∀ (todo : List ℕ) {low high : List ℕ} {r : Relink}
    {pp : Option ℕ} {fuel : ℕ}, Relinking s r low high pp todo → todo.length ≤ fuel →
    Relinking s (relinkLoop limit fuel pp r)
      (low ++ todo.filter fun p => pdx (page2pa p) < limit)
      (high ++ todo.filter fun p => ¬ pdx (page2pa p) < limit) none [] := by
  intro todo
  induction todo with
  | nil =>
    intro low high r pp fuel h _
    obtain rfl : pp = none := h.pending.head_eq
    have hstop : relinkLoop limit fuel none r = r := by cases fuel <;> rfl
    simpa [hstop] using h
  | cons a todo ih =>
    intro low high r pp fuel h hle
    obtain rfl : pp = some a := h.pending.head_eq
    cases fuel with
    | zero => simp at hle
    | succ fuel =>
      rw [List.length_cons] at hle
      rw [relinkLoop]
      by_cases hlt : pdx (page2pa a) < limit
      · have h' := ih h.low (show todo.length ≤ fuel by omega)
        simpa [hlt, Nat.not_le.mpr hlt] using h'
      · have h' := ih h.high (show todo.length ≤ fuel by omega)
        simpa [hlt, Nat.not_lt.mp hlt] using h'

/-- **Low pages are moved to the front**, each kind in the order it had. -/
theorem relinkFreeList_threads (h : Threads s.links s.pageFreeList l) (hlt : ∀ p ∈ l, p < s.npages)
    (limit : ℕ) :
    ∃ pages pageFreeList, s.relinkFreeList limit =
        { s with pages := pages, pageFreeList := pageFreeList } ∧
      Threads ({ s with pages := pages } : Kernel).links pageFreeList
        ((l.filter fun p => pdx (page2pa p) < limit) ++
          l.filter fun p => ¬ pdx (page2pa p) < limit) ∧
      (∀ p, p ∉ l → ({ s with pages := pages } : Kernel).links p = s.links p) ∧
      ∀ p, (pages p).ppRef = (s.pages p).ppRef := by
  have hstart : Relinking s ⟨s, none, none, none, none⟩ [] [] s.pageFreeList l :=
    ⟨rfl, rfl, h, by simp, by simp, by simp, fun _ _ _ => rfl, fun _ => rfl, rfl⟩
  have hend := hstart.loop limit l (length_le_npages h hlt)
  rw [List.nil_append, List.nil_append] at hend
  unfold Kernel.relinkFreeList
  generalize relinkLoop limit s.npages s.pageFreeList ⟨s, none, none, none, none⟩ = r at hend
  obtain ⟨hlinks₂, hhead₂⟩ := r.links_store2 none
  obtain ⟨href₂, hrest₂, hpp1, htp1⟩ := r.rest_store2 none
  obtain ⟨hlinks₁, hhead₁⟩ := (r.store2 none).links_store1 (r.store2 none).pp2
  obtain ⟨href₁, hrest₁, -, -⟩ := (r.store2 none).rest_store1 (r.store2 none).pp2
  have hlow : ∀ p ∈ l.filter (fun p => pdx (page2pa p) < limit), p ∉
      l.filter fun p => ¬ pdx (page2pa p) < limit := hend.low_high
  -- the second list ends, and the first goes on with it
  have hsecond : Threads (r.store2 none).kernel.links (r.store2 none).pp2
      (l.filter fun p => ¬ pdx (page2pa p) < limit) := by
    rw [hlinks₂, hhead₂]
    have hclose := hend.second.close .nil (by simp)
    rwa [List.append_nil] at hclose
  have hfirst : Open (r.store2 none).kernel.links (r.store2 none).pp1 (r.store2 none).tp1
      (l.filter fun p => pdx (page2pa p) < limit) := by
    rw [hpp1, htp1, hlinks₂]
    exact hend.first.frame fun b hb => writeEnd_of_notMem hend.second (hlow b hb)
  have hall := hfirst.close hsecond fun b hb hb' => hlow b hb' hb
  rw [← hlinks₁, ← hhead₁] at hall
  refine ⟨((r.store2 none).store1 (r.store2 none).pp2).kernel.pages, _, ?_, hall, ?_, ?_⟩
  · show ({ ((r.store2 none).store1 (r.store2 none).pp2).kernel with pageFreeList := _ } :
      Kernel) = _
    rw [hrest₁, hrest₂, hend.rest]
  · intro p hpl
    have hp₁ : p ∉ l.filter fun p => pdx (page2pa p) < limit :=
      fun h0 => hpl (List.mem_filter.mp h0).1
    have hp₂ : p ∉ l.filter fun p => ¬ pdx (page2pa p) < limit :=
      fun h0 => hpl (List.mem_filter.mp h0).1
    show ((r.store2 none).store1 (r.store2 none).pp2).kernel.links p = s.links p
    rw [hlinks₁, writeEnd_of_notMem hfirst hp₁, hlinks₂, writeEnd_of_notMem hend.second hp₂,
      hend.link p hp₁ hp₂]
  · exact fun p => (href₁ p).trans ((href₂ p).trans (hend.ref p))

theorem Pool.relinkFreeList (h : Pool s l) (limit : ℕ) :
    ∃ pages pageFreeList, s.relinkFreeList limit =
        { s with pages := pages, pageFreeList := pageFreeList } ∧
      Pool { s with pages := pages, pageFreeList := pageFreeList }
        ((l.filter fun p => pdx (page2pa p) < limit) ++
          l.filter fun p => ¬ pdx (page2pa p) < limit) ∧
      ∀ p, (pages p).ppRef = (s.pages p).ppRef := by
  obtain ⟨pages, pfl, heq, hall, hoff, href⟩ := relinkFreeList_threads h.list h.lt limit
  have hmem : ∀ p, p ∈ ((l.filter fun p => pdx (page2pa p) < limit) ++
      l.filter fun p => ¬ pdx (page2pa p) < limit) ↔ p ∈ l := by
    intro p
    rw [List.mem_append, List.mem_filter, List.mem_filter]
    simp only [decide_eq_true_eq]
    tauto
  refine ⟨pages, pfl, heq, ⟨hall, fun p hp => ?_, fun p hp => ?_, fun p hp => ?_⟩, href⟩
  · have hpl : p ∉ l := mt (hmem p).mpr hp
    exact (hoff p hpl).trans (h.link p hpl)
  · exact (href p).trans (h.ref p ((hmem p).mp hp))
  · exact h.lt p ((hmem p).mp hp)

/-! ## `check_page_free_list` -/

/-- What `check_page_free_list` asks of a page. -/
structure PassesCheck (firstFreePage : Word) (p : ℕ) : Prop where
  ne_zero : page2pa p ≠ 0#32
  ne_io : page2pa p ≠ iophysmem
  ne_io_end : page2pa p ≠ extphysmem - BitVec.ofNat 32 pgsize
  ne_ext : page2pa p ≠ extphysmem
  kernel : extphysmem ≤ page2pa p → firstFreePage ≤ page2pa p + kernbase
  ne_mpentry : page2pa p ≠ mpentryPaddr

theorem assert_eq_ok {c : Prop} [Decidable c] {u : Unit} : assert c = .ok u ↔ c := by
  unfold assert
  split
  · simp [*]
  · simp [*]

@[simp] theorem assert_of {c : Prop} [Decidable c] (h : c) : assert c = .ok () :=
  assert_eq_ok.mpr h

/-- The check of a page that has an address in the window. -/
theorem checkFreePage_eq_ok {nf : Word} (hp : p < s.npages) (hw : p < kernWindow) :
    s.checkFreePage nf p = .ok () ↔ PassesCheck nf p := by
  have hkva : s.page2kva p = .ok p := page2kva_of_lt hp hw
  unfold checkFreePage
  constructor
  · intro h
    obtain ⟨_, -, h⟩ := bind_eq_ok.mp h
    obtain ⟨_, h1, h⟩ := bind_eq_ok.mp h
    obtain ⟨_, h2, h⟩ := bind_eq_ok.mp h
    obtain ⟨_, h3, h⟩ := bind_eq_ok.mp h
    obtain ⟨_, h4, h⟩ := bind_eq_ok.mp h
    refine ⟨assert_eq_ok.mp h1, assert_eq_ok.mp h2, assert_eq_ok.mp h3, assert_eq_ok.mp h4,
      fun hext => ?_, ?_⟩
    · rw [if_pos hext, hkva, ok_bind] at h
      obtain ⟨_, h5, -⟩ := bind_eq_ok.mp h
      exact assert_eq_ok.mp h5
    · by_cases hext : extphysmem ≤ page2pa p
      · rw [if_pos hext, hkva, ok_bind] at h
        obtain ⟨_, -, h6⟩ := bind_eq_ok.mp h
        exact assert_eq_ok.mp h6
      · rw [if_neg hext] at h
        exact assert_eq_ok.mp h
  · intro h
    rw [assert_of hp, assert_of h.ne_zero, assert_of h.ne_io, assert_of h.ne_io_end,
      assert_of h.ne_ext, hkva, assert_of h.ne_mpentry]
    by_cases hext : extphysmem ≤ page2pa p
    · rw [if_pos hext]
      show (assert (nf ≤ page2pa p + kernbase) >>= fun _ => _) = _
      rw [assert_of (h.kernel hext)]
      rfl
    · rw [if_neg hext]
      rfl

theorem forM_eq_ok {α : Type} {f : α → Except Panic Unit} {l : List α} :
    l.forM f = .ok () ↔ ∀ a ∈ l, f a = .ok () := by
  induction l with
  | nil => exact ⟨fun _ _ h => (nomatch h), fun _ => rfl⟩
  | cons a l ih =>
    show (f a >>= fun _ => l.forM f) = .ok () ↔ _
    rw [bind_eq_ok, List.forall_mem_cons, ← ih]
    constructor
    · rintro ⟨⟨⟩, ha, hl⟩
      exact ⟨ha, hl⟩
    · rintro ⟨ha, hl⟩
      exact ⟨(), ha, hl⟩

/-- The loop that marks the free pages. -/
def markFree (limit : ℕ) (s : Kernel) (pp : ℕ) : Except Panic Kernel := do
  if pdx (page2pa pp) < limit then
    let f ← s.page2kva pp
    return s.fillFrame f 32 0x97979797#32
  else return s

theorem foldlM_markFree (limit : ℕ) (hw : s.npages ≤ kernWindow) : ∀ (l : List ℕ) (m : Phys),
    (∀ p ∈ l, p < s.npages) → ∃ m', l.foldlM (markFree limit) { s with phys := m } =
      .ok { s with phys := m' } ∧ ∀ f, f ∉ l → m' f = m f := by
  intro l
  induction l with
  | nil => exact fun m _ => ⟨m, rfl, fun _ _ => rfl⟩
  | cons a l ih =>
    intro m hlt
    have ha := hlt a List.mem_cons_self
    have hround : ∃ m₁, markFree limit { s with phys := m } a = .ok { s with phys := m₁ } ∧
        ∀ f, f ≠ a → m₁ f = m f := by
      unfold markFree
      by_cases hlow : pdx (page2pa a) < limit
      · have hkva : ({ s with phys := m } : Kernel).page2kva a = .ok a :=
          page2kva_of_lt ha (lt_of_lt_of_le ha hw)
        rw [if_pos hlow, hkva]
        refine ⟨_, rfl, fun f hf => ?_⟩
        funext i
        simp [hf]
      · rw [if_neg hlow]
        exact ⟨m, rfl, fun _ _ => rfl⟩
    obtain ⟨m₁, hrun₁, hm₁⟩ := hround
    obtain ⟨m₂, hrun₂, hm₂⟩ := ih m₁ fun p hp => hlt p (List.mem_cons_of_mem a hp)
    refine ⟨m₂, ?_, fun f hf => ?_⟩
    · rw [List.foldlM_cons, hrun₁, ok_bind, hrun₂]
    · rw [List.mem_cons, not_or] at hf
      rw [hm₂ f hf.2, hm₁ f hf.1]

/-- Marking writes to frames only. -/
theorem phys_of_foldlM_markFree {limit : ℕ} (h : l.foldlM (markFree limit) s = .ok s') :
    ∃ m, s' = { s with phys := m } := by
  refine foldlM_invariant (P := fun x => ∃ m, x = { s with phys := m }) ?_ _ ⟨s.phys, rfl⟩ h
  rintro _ p x' ⟨m, rfl⟩ hround
  unfold markFree at hround
  split at hround
  · obtain ⟨f, -, hround⟩ := bind_eq_ok.mp hround
    obtain rfl := Except.ok.inj hround
    exact ⟨_, rfl⟩
  · obtain rfl := Except.ok.inj hround
    exact ⟨m, rfl⟩

/-- The first part of `check_page_free_list`, which may move pages. -/
def arrange (s : Kernel) (low : Bool) : Kernel := if low then s.relinkFreeList 1 else s

theorem Pool.arrange (h : Pool s l) (low : Bool) : ∃ l' pages pageFreeList,
    s.arrange low = { s with pages := pages, pageFreeList := pageFreeList } ∧
      Pool { s with pages := pages, pageFreeList := pageFreeList } l' ∧ l'.Perm l ∧
      ∀ p, (pages p).ppRef = (s.pages p).ppRef := by
  cases low with
  | false => exact ⟨l, s.pages, s.pageFreeList, rfl, h, .refl l, fun _ => rfl⟩
  | true =>
    obtain ⟨pages, pfl, heq, hpool, href⟩ := h.relinkFreeList 1
    refine ⟨_, pages, pfl, heq, hpool, ?_, href⟩
    simpa using List.filter_append_perm (fun p => decide (pdx (page2pa p) < 1)) l

/-- `check_page_free_list` as its parts. -/
theorem checkPageFreeList_eq (hne : s.pageFreeList ≠ none) (nf : Word) (low : Bool) :
    s.checkPageFreeList nf low = (do
      let s₁ ← (s.arrange low).freePages.foldlM
        (markFree (if low then 1 else npdentries)) (s.arrange low)
      s₁.freePages.forM (s₁.checkFreePage nf)
      assert (0 < s₁.freePages.countP fun pp => page2pa pp < extphysmem)
      assert (0 < s₁.freePages.countP fun pp => ¬ page2pa pp < extphysmem)
      return s₁) := by
  unfold checkPageFreeList Kernel.arrange
  cases low <;> simp only [if_neg hne] <;> rfl

/-- **`check_page_free_list` succeeds** on a list of pages that pass, with a page on
either side of the device hole. -/
theorem Pool.checkPageFreeList (h : Pool s l) (hw : s.npages ≤ kernWindow) (nf : Word)
    (hpass : ∀ p ∈ l, PassesCheck nf p) (hlow : ∃ p ∈ l, page2pa p < extphysmem)
    (hhigh : ∃ p ∈ l, extphysmem ≤ page2pa p) (low : Bool) :
    ∃ s' l', s.checkPageFreeList nf low = .ok s' ∧ Tested s s' l l' := by
  obtain ⟨l', pages, pfl, heq, hpool, hperm, href⟩ := h.arrange low
  have hne : s.pageFreeList ≠ none := by
    obtain ⟨p, hp, -⟩ := hlow
    rw [h.list.head_eq]
    cases l with
    | nil => simp at hp
    | cons a l => simp
  obtain ⟨m, hrun, hm⟩ := foldlM_markFree (s := { s with pages := pages, pageFreeList := pfl })
    (if low then 1 else npdentries) hw l' s.phys hpool.lt
  have hpool' := hpool.phys m
  have hcount : ∀ {P : ℕ → Prop} [DecidablePred P], (∃ p ∈ l, P p) →
      0 < l'.countP fun p => P p := by
    rintro P _ ⟨p, hp, hP⟩
    exact List.countP_pos_iff.mpr ⟨p, hperm.mem_iff.mpr hp, by simpa using hP⟩
  refine ⟨{ s with pages := pages, pageFreeList := pfl, phys := m }, l', ?_, hpool', hperm,
    fun p _ => href p, fun f hf => hm f fun h0 => hf (hperm.mem_iff.mp h0),
    ⟨rfl, rfl, rfl, rfl, rfl, fun _ => rfl⟩⟩
  rw [checkPageFreeList_eq hne, heq, hpool.freePages_eq, hrun, ok_bind]
  have hfree : ({ s with pages := pages, pageFreeList := pfl, phys := m } : Kernel).freePages = l' :=
    hpool'.freePages_eq
  rw [hfree, forM_eq_ok.mpr, ok_bind, assert_of (hcount hlow), ok_bind,
    assert_of (hcount (by simpa using hhigh))]
  · rfl
  · intro p hp
    have hlt := hpool'.lt p hp
    exact (checkFreePage_eq_ok hlt (lt_of_lt_of_le hlt hw)).mpr (hpass p (hperm.mem_iff.mp hp))

/-- **What `check_page_free_list` has seen if it returns.**  A list that has page
`kernWindow`, if there is such a page, does not pass: that page has no address. -/
theorem Pool.of_checkPageFreeList (h : Pool s l) {nf : Word} {low : Bool}
    (hbig : kernWindow < s.npages → kernWindow ∈ l) (hrun : s.checkPageFreeList nf low = .ok s') :
    s.npages ≤ kernWindow ∧ (∀ p ∈ l, PassesCheck nf p) ∧ (∃ p ∈ l, page2pa p < extphysmem) ∧
      ∃ p ∈ l, extphysmem ≤ page2pa p := by
  obtain ⟨l', pages, pfl, heq, hpool, hperm, -⟩ := h.arrange low
  have hne : s.pageFreeList ≠ none := by
    intro h0
    rw [Kernel.checkPageFreeList, if_pos h0] at hrun
    cases hrun
  rw [checkPageFreeList_eq hne, heq] at hrun
  obtain ⟨s₁, hmark, hrun⟩ := bind_eq_ok.mp hrun
  obtain ⟨m, rfl⟩ := phys_of_foldlM_markFree hmark
  have hfree := (hpool.phys m).freePages_eq
  simp only at hfree
  rw [hfree] at hrun
  obtain ⟨⟨⟩, hchecks, hrun⟩ := bind_eq_ok.mp hrun
  rw [forM_eq_ok] at hchecks
  obtain ⟨⟨⟩, hbase, hrun⟩ := bind_eq_ok.mp hrun
  obtain ⟨⟨⟩, hext, -⟩ := bind_eq_ok.mp hrun
  have hw : s.npages ≤ kernWindow := by
    by_contra hlt
    have hmem := hbig (Nat.not_le.mp hlt)
    have hcheck := hchecks kernWindow (hperm.mem_iff.mpr hmem)
    have hkva : ({ s with pages := pages, pageFreeList := pfl, phys := m } : Kernel).page2kva
        kernWindow = .error .kernelFault := by
      have hpg : pgnum (page2pa kernWindow) = kernWindow := by decide
      rw [page2kva, kaddr, hpg, if_neg (Nat.not_le.mpr (Nat.not_le.mp hlt)), if_pos (Nat.le_refl _)]
    unfold checkFreePage at hcheck
    have hge : extphysmem ≤ page2pa kernWindow := by decide
    obtain ⟨_, -, hcheck⟩ := bind_eq_ok.mp hcheck
    obtain ⟨_, -, hcheck⟩ := bind_eq_ok.mp hcheck
    obtain ⟨_, -, hcheck⟩ := bind_eq_ok.mp hcheck
    obtain ⟨_, -, hcheck⟩ := bind_eq_ok.mp hcheck
    obtain ⟨_, -, hcheck⟩ := bind_eq_ok.mp hcheck
    rw [if_pos hge, hkva] at hcheck
    cases hcheck
  refine ⟨hw, fun p hp => ?_, ?_, ?_⟩
  · have hlt := h.lt p hp
    exact (checkFreePage_eq_ok (s := { s with pages := pages, pageFreeList := pfl, phys := m })
      hlt (lt_of_lt_of_le hlt hw)).mp (hchecks p (hperm.mem_iff.mpr hp))
  · obtain ⟨p, hp, hlt⟩ := List.countP_pos_iff.mp (assert_eq_ok.mp hbase)
    exact ⟨p, hperm.mem_iff.mp hp, by simpa using hlt⟩
  · obtain ⟨p, hp, hlt⟩ := List.countP_pos_iff.mp (assert_eq_ok.mp hext)
    exact ⟨p, hperm.mem_iff.mp hp, by simpa using hlt⟩

end Kernel
end PmakeOs
