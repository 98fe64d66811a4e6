import PmakeOs.Space.Escalation

/-!
# An error leaves no trace

A call that returns a negative value has changed nothing.  Most errors are found before
anything is written.  The exception is a `sys_page_alloc` that gets its page and then no page
for a table: the page goes back to the list it came from, and since the list was empty behind
it, the list is the same list again; but the page has been cleared.

So the memory that is not on the free list, the counters, the two free lists in their order,
and the environments are what they were (`Undone`).

The exception is reached: an environment that maps page after page comes to the last one, and a
page at the top of its address space then needs a table (`undone_of_reached_lastPage`).
-/

namespace PmakeOs

open Lib

namespace Kernel

variable {s s' : Kernel} {ρ : ℕ → Role} {h : Hardware} {l : List ℕ} {c d p : ℕ} {r : ℤ}
  {envid va perm : Word} {x : Syscall}

/-- The calls that are undone if they fail. -/
def Syscall.isUndone : Syscall → Bool
  | .pageAlloc .. | .pageMap .. | .pageUnmap .. | .exofork => true
  | .envSetStatus .. | .envSetPgfaultUpcall .. => true
  | _ => false

/-- Nothing has changed but the contents of free pages. -/
structure Undone (s s' : Kernel) (l : List ℕ) : Prop where
  npages : s'.npages = s.npages
  kernPgdir : s'.kernPgdir = s.kernPgdir
  pages : s'.pages = s.pages
  pageFreeList : s'.pageFreeList = s.pageFreeList
  envs : s'.envs = s.envs
  envFreeList : s'.envFreeList = s.envFreeList
  phys : ∀ f, f ∉ l → s'.phys f = s.phys f

theorem Undone.refl (s : Kernel) (l : List ℕ) : Undone s s l :=
  ⟨rfl, rfl, rfl, rfl, rfl, rfl, fun _ _ => rfl⟩

/-- The free list is the same list. -/
theorem Undone.threads (hu : Undone s s' l) (hl : Threads s.links s.pageFreeList l) :
    Threads s'.links s'.pageFreeList l := by
  rw [hu.pageFreeList]
  refine hl.frame fun q _ => ?_
  rw [links, links, hu.pages]

/-! ## Page tables -/

theorem eq_of_pgdirWalk_none {create : Bool} (hrun : s.pgdirWalk d va create = .ok (none, s')) :
    s' = s := by
  unfold pgdirWalk at hrun
  split at hrun
  · split at hrun
    · obtain ⟨⟨o, s₁⟩, halloc, hr⟩ := bind_eq_ok.mp hrun
      cases o with
      | none =>
        obtain ⟨-, rfl⟩ := Prod.mk.inj (Except.ok.inj hr)
        exact eq_of_pageAlloc_none halloc
      | some q =>
        obtain ⟨t, -, hr'⟩ := bind_eq_ok.mp hr
        exact nomatch (Prod.mk.inj (Except.ok.inj hr')).1
    · exact (Prod.mk.inj (Except.ok.inj hrun)).2.symm
  · obtain ⟨t, -, hr⟩ := bind_eq_ok.mp hrun
    exact nomatch (Prod.mk.inj (Except.ok.inj hr)).1

/-- `page_insert` fails before it has written anything. -/
theorem eq_of_pageInsert {pp : ℕ} (hrun : s.pageInsert d pp va perm = .ok (r, s')) (hr : r ≠ 0) :
    s' = s := by
  unfold pageInsert at hrun
  obtain ⟨⟨o, s₁⟩, hwalk, hrest⟩ := bind_eq_ok.mp hrun
  cases o with
  | none =>
    obtain ⟨-, rfl⟩ := Prod.mk.inj (Except.ok.inj hrest)
    exact eq_of_pgdirWalk_none hwalk
  | some q =>
    obtain ⟨s₂, -, hrest'⟩ := bind_eq_ok.mp hrest
    exact absurd (Prod.mk.inj (Except.ok.inj hrest')).1.symm hr

/-! ## The calls -/

/-- A page that is taken from the free list and freed again. -/
theorem undone_of_pageFree (hl : Threads s.links s.pageFreeList l) (hp : s.pageFreeList = some p)
    (ev : Event) (hrun : ((s.takePage p).note ev).pageFree p = .ok s') : Undone s s' l := by
  unfold pageFree at hrun
  split at hrun
  · cases hrun
  obtain rfl := Except.ok.inj hrun
  refine ⟨rfl, rfl, ?_, hp.symm, rfl, rfl, fun f hf => ?_⟩
  · simp [Kernel.note, Kernel.takePage, setPage, zeroFrame]
  · have hfp : f ≠ p := by
      rintro rfl
      refine hf ?_
      rw [hp] at hl
      obtain ⟨l', rfl, -⟩ := hl.exists_cons
      exact List.mem_cons_self
    funext k
    simp [Kernel.note, Kernel.takePage, setPage, zeroFrame, hfp]

theorem undone_of_sysPageAlloc (hs : Settled s ρ) (hl : Threads s.links s.pageFreeList l)
    (hrun : s.sysPageAlloc envid va perm = .ok (r, s')) (hneg : r < 0) : Undone s s' l := by
  rcases sysPageAlloc_outcome hrun with ⟨-, rfl⟩ |
    ⟨e, d, p, s₁, ret, s₂, -, -, -, -, halloc, -, hins, ⟨-, rfl, -⟩ | ⟨hret, -, hpf⟩⟩
  · exact .refl s' l
  · exact absurd hneg (lt_irrefl 0)
  · obtain ⟨hp, rfl⟩ := hs.ledger.typed.eq_of_pageAlloc halloc
    obtain rfl := eq_of_pageInsert hins hret
    exact undone_of_pageFree hl hp _ hpf

theorem eq_of_sysPageMap {srcenvid srcva dstenvid dstva : Word}
    (hrun : s.sysPageMap srcenvid srcva dstenvid dstva perm = .ok (r, s')) (hneg : r < 0) :
    s' = s := by
  rcases sysPageMap_outcome hrun with ⟨-, rfl⟩ |
    ⟨_, _, _, _, _, _, _, -, -, -, -, -, -, -, -, -, -, -, hins⟩
  · rfl
  · exact eq_of_pageInsert hins hneg.ne

theorem eq_of_sysPageUnmap (hrun : s.sysPageUnmap envid va = .ok (r, s')) (hneg : r < 0) :
    s' = s := by
  rcases sysPageUnmap_outcome hrun with ⟨-, rfl⟩ | ⟨_, _, -, -, -, -, -, rfl⟩
  · rfl
  · exact absurd hneg (lt_irrefl 0)

theorem eq_of_sysEnvSetStatus {status : Word}
    (hrun : s.sysEnvSetStatus envid status = .ok (r, s')) (hneg : r < 0) : s' = s := by
  unfold sysEnvSetStatus at hrun
  split at hrun
  · exact (Prod.mk.inj (Except.ok.inj hrun)).2.symm
  obtain ⟨⟨ret, oe⟩, -, hrun₁⟩ := bind_eq_ok.mp hrun
  dsimp only at hrun₁
  split at hrun₁
  · exact (Prod.mk.inj (Except.ok.inj hrun₁)).2.symm
  obtain ⟨e, -, hrun₂⟩ := bind_eq_ok.mp hrun₁
  obtain ⟨rfl, -⟩ := Prod.mk.inj (Except.ok.inj hrun₂)
  exact absurd hneg (lt_irrefl 0)

theorem eq_of_sysEnvSetPgfaultUpcall {func : Word}
    (hrun : s.sysEnvSetPgfaultUpcall envid func = .ok (r, s')) (hneg : r < 0) : s' = s := by
  unfold sysEnvSetPgfaultUpcall at hrun
  obtain ⟨⟨ret, oe⟩, -, hrun₁⟩ := bind_eq_ok.mp hrun
  dsimp only at hrun₁
  split at hrun₁
  · exact (Prod.mk.inj (Except.ok.inj hrun₁)).2.symm
  obtain ⟨e, -, hrun₂⟩ := bind_eq_ok.mp hrun₁
  obtain ⟨rfl, -⟩ := Prod.mk.inj (Except.ok.inj hrun₂)
  exact absurd hneg (lt_irrefl 0)

/-- An id is never negative, so `sys_exofork` has failed in `env_alloc`. -/
theorem eq_of_sysExofork (hs : Settled s ρ) (hrun : s.sysExofork = .ok (r, s')) (hneg : r < 0) :
    s' = s := by
  unfold sysExofork at hrun
  obtain ⟨c, -, hrun₁⟩ := bind_eq_ok.mp hrun
  rcases hs.envAlloc (Q := fun _ => True) (s.envs c).envId with ⟨ret, hret, hno⟩ |
    ⟨e, p, he, -, hok, -, -⟩
  · rw [hno, ok_bind] at hrun₁
    dsimp only at hrun₁
    rw [if_pos hret] at hrun₁
    exact (Prod.mk.inj (Except.ok.inj hrun₁)).2.symm
  · rw [hok, ok_bind] at hrun₁
    dsimp only at hrun₁
    rw [if_neg (lt_irrefl 0), deref_some, ok_bind] at hrun₁
    obtain ⟨rfl, -⟩ := Prod.mk.inj (Except.ok.inj hrun₁)
    obtain ⟨helt, -⟩ := hs.layout.not_live_of_head he
    have hpos := (nextEnvId_pos (s.envs e).envId helt).1
    have hid : ((s.openEnv e p (s.envs c).envId).envs e).envId = nextEnvId (s.envs e).envId e := by
      simp [Kernel.openEnv, setEnv, Kernel.note, setWord, copyFrame, Kernel.incRef, Kernel.takePage,
        setPage, zeroFrame]
    simp only [setEnv, Function.update_self] at hneg
    rw [hid] at hneg
    omega

/-- **A call that fails is undone**, from a sound state. -/
theorem Sound.undone (hs : Settled s ρ) (hl : Threads s.links s.pageFreeList l)
    (hx : x.isUndone = true) (hrun : s.handle x = .ok (.ret r, s')) (hneg : r < 0) :
    Undone s s' l := by
  have hret : ∀ {y : Except Panic (ℤ × Kernel)}, returning y = .ok (.ret r, s') →
      y = .ok (r, s') := by
    intro y hy
    cases y with
    | error e => cases hy
    | ok q =>
      obtain ⟨hr, rfl⟩ := Prod.mk.inj (Except.ok.inj hy)
      rw [Flow.ret.injEq] at hr
      rw [← hr]
  have hsame : s' = s → Undone s s' l := by
    rintro rfl
    exact .refl s' l
  cases x with
  | pageAlloc envid va perm => exact undone_of_sysPageAlloc hs hl (hret hrun) hneg
  | pageMap srcenvid srcva dstenvid dstva perm => exact hsame (eq_of_sysPageMap (hret hrun) hneg)
  | pageUnmap envid va => exact hsame (eq_of_sysPageUnmap (hret hrun) hneg)
  | exofork => exact hsame (eq_of_sysExofork hs (hret hrun) hneg)
  | envSetStatus envid status => exact hsame (eq_of_sysEnvSetStatus (hret hrun) hneg)
  | envSetPgfaultUpcall envid func =>
    exact hsame (eq_of_sysEnvSetPgfaultUpcall (hret hrun) hneg)
  | _ => cases hx

/-- **A call that fails is undone**, in every state that is reached. -/
theorem undone_of_reached (hr : Reached h s) (hx : x.isUndone = true)
    (hrun : (s.setCurenv (some c)).handle x = .ok (.ret r, s')) (hneg : r < 0) :
    ∃ l, Threads s.links s.pageFreeList l ∧ Threads s'.links s'.pageFreeList l ∧
      Undone s s' l := by
  obtain ⟨ρ, hs, -⟩ := hr.settled
  obtain ⟨l, hl, -⟩ := hs.ledger.typed.free.list
  have hq : Settled (s.setCurenv (some c)) ρ ∧
      Effects (fun _ => True) (s, ρ) (s.setCurenv (some c), ρ) :=
    hs.quiet rfl rfl rfl rfl rfl ⟨fun _ => Iff.rfl, fun _ => rfl, fun _ => rfl, rfl⟩ rfl
  have hu := hq.1.undone hl hx hrun hneg
  have hu' : Undone s s' l := ⟨hu.npages, hu.kernPgdir, hu.pages, hu.pageFreeList, hu.envs,
    hu.envFreeList, hu.phys⟩
  exact ⟨l, hl, hu'.threads hl, hu'⟩

/-! ## The last page

An environment can map page after page until one free page is left, with no table for the top of
its address space.  Page `1` is kept for the case that two are left. -/

/-- Environment `e` has mapped pages below page `m`, each of them once, and the pages of `F` are
left. -/
structure Spending (s : Kernel) (ρ : ℕ → Role) (e d m : ℕ) (F : Finset ℕ) : Prop where
  reached : Reached machine64 s
  settled : Settled s ρ
  dir : dirsOf s e = some d
  above : ∀ v, m ≤ v → entryOf s.phys (dirsOf s) (e, v) = none
  once : ∀ q, refCount s.phys (dirsOf s) q ≤ 1
  last : ¬ Has (s.phys d (pdx utop - 1)) pteP
  free : ∀ f, f ∈ F ↔ ρ f = .free

variable {e m v : ℕ} {F : Finset ℕ}

/-- **One page more**, below page `m + 1`. -/
theorem Spending.spend (h : Spending s ρ e d m F) (hv : v < (pdx utop - 1) * nptentries)
    (hvm : v ≤ m) (hnone : entryOf s.phys (dirsOf s) (e, v) = none) (hF : 2 ≤ F.card) :
    ∃ s' ρ' p t, Spending s' ρ' e d (m + 1) ((F.erase p).filter fun f => f ≠ t ∨ ρ' f = .free) ∧
      p ∈ F ∧ (Has (s.phys d (v / nptentries)) pteP → t ∉ F) ∧
      (∀ i, Has (s.phys d i) pteP → Has (s'.phys d i) pteP) ∧
      entryOf s'.phys (dirsOf s') = Function.update (entryOf s.phys (dirsOf s)) (e, v)
        (some (page2pa p ||| readWrite ||| pteP)) := by
  have hupn : v < upn := hv.trans (by decide)
  have hlow : readWrite.toNat < 2 ^ 12 := by decide
  obtain ⟨q, hq, r, hr, hqr⟩ := Finset.one_lt_card.mp (show 1 < F.card by omega)
  obtain ⟨p, s', ρ', hrun, ht⟩ := (h.settled.setCurenv (some e)).sysPageAlloc_takes
    (envid2env_zero s e true) h.dir (pageVa_lt hupn) (not_unaligned_pageVa hupn)
    (show readWrite &&& (pteU ||| pteP) = pteU ||| pteP by decide) hlow
    (by rw [pgnum_pageVa hupn]; exact hnone) ((h.free q).mp hq) ((h.free r).mp hr) hqr
  have hcall : s.exec (.call e (.pageAlloc 0#32 (pageVa v) readWrite)) = .ok s' := by
    rw [exec, handle, returning_ok hrun]
    rfl
  have hfree := h.settled.ledger.typed.free.role_of_head ht.head
  have hent : entryOf s'.phys (dirsOf s') = Function.update (entryOf s.phys (dirsOf s)) (e, v)
      (some (page2pa p ||| readWrite ||| pteP)) := by
    rw [ht.entries, pgnum_pageVa hupn]
    rfl
  refine ⟨s', ρ', p, frame (s'.phys d (pdx (pageVa v))), ⟨?_, ht.settled, ?_, fun v' hv' => ?_,
    fun q => ?_, ?_, fun f => ?_⟩, (h.free p).mpr hfree, fun hp => ?_, fun i hi => ?_, hent⟩
  · exact .op h.reached
      (show Issuable s (.call e (.pageAlloc 0#32 (pageVa v) readWrite)) from
        ⟨live_of_dirsOf h.dir, rfl⟩)
      ⟨show readWrite &&& ~~~ pteSyscall = 0#32 by decide,
        uncrowded_of_refCount_le h.settled h.once⟩ hcall
  · rw [ht.memory.sameSlots.dirsOf]
    exact h.dir
  · have hne : (e, v') ≠ (e, v) := fun h0 => by
      have hvv := (Prod.mk.inj h0).2
      omega
    rw [hent, Function.update_of_ne hne]
    exact h.above v' (by omega)
  · by_cases hqp : q = p
    · have hzero := h.settled.ledger.typed.tree.refCount_eq_zero (q := p) (by rw [hfree]; simp)
      have hle := refCount_le_succ hent p
      rw [hqp]
      omega
    · refine (refCount_le_of_other hent ?_).trans (h.once q)
      rw [Option.map_some, frame_entry ht.window hlow]
      exact fun h0 => hqp (Option.some.inj h0).symm
  · rw [ht.dir _ ?_]
    · exact h.last
    · rw [pdx_pageVa hupn]
      exact (Nat.div_lt_of_lt_mul (by rwa [Nat.mul_comm])).ne'
  · rw [Finset.mem_filter, Finset.mem_erase, h.free]
    constructor
    · rintro ⟨⟨hfp, hf⟩, hft | hft⟩
      · exact ht.kept f hf hfp hft
      · exact hft
    · intro hf
      exact ⟨⟨(ht.free f hf).2, (ht.free f hf).1⟩, Or.inr hf⟩
  · rw [h.free]
    refine ht.table ?_
    rw [pdx_pageVa hupn]
    exact hp
  · by_cases hiv : i = v / nptentries
    · -- the table is there: the page is mapped
      have hw : entryOf s'.phys (dirsOf s') (e, v) = _ :=
        (congrFun hent (e, v)).trans (Function.update_self (e, v) _ _)
      obtain ⟨-, d', hd', hp, -⟩ := exists_of_entryOf hw
      rw [ht.memory.sameSlots.dirsOf] at hd'
      obtain rfl := Option.some.inj (h.dir.symm.trans hd')
      rw [hiv]
      exact hp
    · rw [ht.dir i (by rw [pdx_pageVa hupn]; exact hiv)]
      exact hi

theorem Spending.card_le (h : Spending s ρ e d m F) : F.card ≤ kernWindow := by
  have hsub : F ⊆ Finset.range kernWindow := fun f hf =>
    Finset.mem_range.mpr (h.settled.ledger.typed.lt_kernWindow (by rw [(h.free f).mp hf]; simp))
  simpa using Finset.card_le_card hsub

/-- What is left after one page more. -/
theorem card_spent {p t : ℕ} (hp : p ∈ F) (P : ℕ → Prop) [DecidablePred P] :
    ((F.erase p).filter fun f => f ≠ t ∨ P f).card < F.card ∧
      F.card ≤ ((F.erase p).filter fun f => f ≠ t ∨ P f).card + 2 := by
  have herase := Finset.card_erase_of_mem hp
  have hpos := Finset.card_pos.mpr ⟨p, hp⟩
  have hle := Finset.card_filter_le (F.erase p) fun f => f ≠ t ∨ P f
  have hsub : (F.erase p).erase t ⊆ (F.erase p).filter fun f => f ≠ t ∨ P f := fun f hf =>
    Finset.mem_filter.mpr ⟨Finset.mem_of_mem_erase hf, Or.inl (Finset.ne_of_mem_erase hf)⟩
  have hge := Finset.card_le_card hsub
  have hpred := Finset.pred_card_le_card_erase (s := F.erase p) (a := t)
  omega

/-- **Down to the last page.** -/
theorem Spending.lastPage (h : Spending s ρ e d m F) (hfirst : Has (s.phys d 0) pteP)
    (hgap : entryOf s.phys (dirsOf s) (e, 1) = none) (hm : 2 ≤ m) (hF : 1 ≤ F.card)
    (hroom : m + F.card ≤ (pdx utop - 1) * nptentries) :
    ∃ s' ρ' m' p, Spending s' ρ' e d m' {p} := by
  induction hn : F.card using Nat.strong_induction_on generalizing s ρ m F with
  | _ n ih =>
    rcases Nat.lt_or_ge n 2 with hlt | hge
    · obtain ⟨p, rfl⟩ := Finset.card_eq_one.mp (show F.card = 1 by omega)
      exact ⟨s, ρ, m, p, h⟩
    rcases Nat.lt_or_ge n 3 with hlt | hge'
    · -- two pages are left, and the first table is there
      obtain ⟨s', ρ', p, t, h', hp, ht, -, -⟩ :=
        h.spend (v := 1) (by decide) (by omega) hgap (by omega)
      have hcard : ((F.erase p).filter fun f => f ≠ t ∨ ρ' f = .free).card = 1 := by
        rw [Finset.filter_true_of_mem fun f hf => Or.inl ?_, Finset.card_erase_of_mem hp]
        · omega
        · rintro rfl
          exact ht hfirst (Finset.mem_of_mem_erase hf)
      obtain ⟨f, hf⟩ := Finset.card_eq_one.mp hcard
      rw [hf] at h'
      exact ⟨s', ρ', m + 1, f, h'⟩
    · obtain ⟨s', ρ', p, t, h', hp, -, hkeep, hent⟩ :=
        h.spend (v := m) (by omega) le_rfl (h.above m le_rfl) (by omega)
      obtain ⟨hless, hleft⟩ := card_spent (t := t) hp fun f => ρ' f = .free
      refine ih _ (by omega) h' (hkeep 0 hfirst) ?_ (by omega) (by omega) (by omega) rfl
      · rw [hent, Function.update_of_ne fun h0 => (show (1 : ℕ) ≠ m by omega) (Prod.mk.inj h0).2]
        exact hgap

/-- The address of the first page that the last table below `UTOP` is for. -/
def lastVa : Word := utop - BitVec.ofNat 32 ptsize

/-- With one page left, the free list is that page. -/
theorem Spending.list_eq {p : ℕ} (h : Spending s ρ e d m {p}) :
    s.pageFreeList = some p ∧ s.links p = none ∧ (s.pages p).ppRef = 0#16 := by
  have hfree := (h.free p).mp (Finset.mem_singleton_self p)
  obtain ⟨q, hq⟩ := h.settled.ledger.typed.free.exists_head hfree
  obtain rfl : q = p := Finset.mem_singleton.mp
    ((h.free q).mpr (h.settled.ledger.typed.free.role_of_head hq))
  refine ⟨hq, ?_, ?_⟩
  · obtain ⟨l, hl, hmem⟩ := h.settled.ledger.typed.free.list
    rw [hq] at hl
    obtain ⟨l', rfl, hl'⟩ := hl.exists_cons
    cases hnext : s.links q with
    | none => rfl
    | some r =>
      have hr : r ∈ l' := hl'.linked_iff.mp (by rw [hnext]; exact .head)
      have hrq : r = q := Finset.mem_singleton.mp
        ((h.free r).mpr ((hmem r).mp (List.mem_cons_of_mem q hr)))
      rw [hrq] at hnext
      exact absurd (by rw [hnext]; exact .head) hl.not_linked
  · rw [h.settled.ledger.count (by rw [hfree]; simp), hfree,
      h.settled.ledger.typed.tree.refCount_eq_zero (q := q) (by rw [hfree]; simp)]
    rfl

/-- **With one page left**, a page that needs a table cannot be mapped. -/
theorem Spending.fails {p : ℕ} (h : Spending s ρ e d m {p}) :
    s.pageFreeList = some p ∧ ∃ s', (s.setCurenv (some e)).handle
      (.pageAlloc 0#32 lastVa readWrite) = .ok (.ret (-eNoMem), s') := by
  have hfree := (h.free p).mp (Finset.mem_singleton_self p)
  obtain ⟨hq, hlink, href⟩ := h.list_eq
  have hqlt := h.settled.ledger.typed.lt (p := p) (by rw [hfree]; simp)
  have hqw := hqlt.trans_le h.settled.ledger.typed.window
  have hdq : d ≠ p := by
    rintro rfl
    rw [h.settled.ledger.typed.tree.dir.mp h.dir] at hfree
    cases hfree
  have hlast : ¬ Has ((((s.setCurenv (some e)).takePage p).note (.userPage p)).phys d
      (pdx lastVa)) pteP := by
    rw [show pdx lastVa = pdx utop - 1 by decide]
    simpa [Kernel.note, Kernel.takePage, setPage, zeroFrame, setCurenv, setCpu, hdq] using h.last
  have hins : (((s.setCurenv (some e)).takePage p).note (.userPage p)).pageInsert d p lastVa
      readWrite = .ok (-eNoMem, _) := pageInsert_of_noMem hlast hlink p
  have hput : (((s.setCurenv (some e)).takePage p).note (.userPage p)).pageFree p = .ok _ :=
    pageFree_of_ok (by simpa [Kernel.note, Kernel.takePage, setPage, zeroFrame, setCurenv, setCpu]
      using href) (by simp [links, Kernel.note, Kernel.takePage, setPage, zeroFrame])
  refine ⟨hq, (((s.setCurenv (some e)).takePage p).note (.userPage p)).pushFree p,
    returning_ok (r := -eNoMem) ?_⟩
  unfold Kernel.sysPageAlloc
  rw [envid2env_zero s e true, ok_bind]
  simp only [ne_eq, not_true_eq_false, if_false]
  rw [if_neg (show ¬ (utop ≤ lastVa ∨ Unaligned lastVa) by decide), if_neg (by decide),
    pageAlloc_of_cons (s := s.setCurenv (some e)) hq hqlt hqw, ok_bind]
  show (deref (some e) >>= fun e => _) = _
  rw [deref_some, ok_bind]
  show (deref (s.envs e).envPgdir >>= fun d => _) = _
  rw [pgdir_of_dirsOf h.dir, deref_some, ok_bind, hins, ok_bind]
  show ((((s.setCurenv (some e)).takePage p).note (.userPage p)).pageFree p >>= fun s => _) = _
  rw [hput]
  rfl

/-- The call that gets the last page, and no page for a table, on a machine with 64 MB. -/
theorem undone_of_reached_lastPage : ∃ s s' e p l, Reached machine64 s ∧
    s.pageFreeList = some p ∧ (s.setCurenv (some e)).handle
      (.pageAlloc 0#32 lastVa readWrite) = .ok (.ret (-eNoMem), s') ∧
    Threads s.links s.pageFreeList l ∧ Undone s s' l := by
  obtain ⟨s₀, hboot⟩ := machine64_boots
  obtain ⟨s₁, e, d, ρ, spare, hexec, hfirst, hcard⟩ := firstEnv_of_bootUp hboot
  have hlen := length_allocatable_machine64
  obtain ⟨ρ₀, hset₀, -, -⟩ := settled_of_bootUp hboot
  have hreach : Reached machine64 s₁ :=
    .op (.boot hboot) (show Issuable s₀ (.envAlloc 0#32) from trivial)
      ⟨by decide, uncrowded_of_no_entry hset₀ (no_entry_of_bootUp hboot)⟩ hexec
  obtain ⟨l, -, hmem⟩ := hfirst.settled.ledger.typed.free.list
  have hstart : Spending s₁ ρ e d 1 l.toFinset := by
    refine ⟨hreach, hfirst.settled, hfirst.dir, fun v _ => hfirst.entries _,
      refCount_le_one (y := (e, 0)) fun z w hz => ?_, hfirst.empty _ (by decide), fun f => ?_⟩
    · exact nomatch (hfirst.entries z).symm.trans hz
    · rw [List.mem_toFinset, hmem]
  have hmany : spare.card ≤ l.toFinset.card :=
    Finset.card_le_card fun f hf => (hstart.free f).mpr (hfirst.free f hf)
  obtain ⟨s₂, ρ₂, p, t, h₂, hp, -, -, hent⟩ :=
    hstart.spend (v := 0) (by decide) (by decide) (hfirst.entries _) (by omega)
  -- the first table has come with the first page
  have hfirstTable : Has (s₂.phys d 0) pteP := by
    have hw : entryOf s₂.phys (dirsOf s₂) (e, 0) = _ :=
      (congrFun hent (e, 0)).trans (Function.update_self (e, 0) _ _)
    obtain ⟨-, d', hd', hpres, -⟩ := exists_of_entryOf hw
    obtain rfl := Option.some.inj (h₂.dir.symm.trans hd')
    exact hpres
  have hgap : entryOf s₂.phys (dirsOf s₂) (e, 1) = none := by
    rw [hent, Function.update_of_ne fun h0 => (show (1 : ℕ) ≠ 0 by decide) (Prod.mk.inj h0).2]
    exact hfirst.entries _
  obtain ⟨hless, hleft⟩ := card_spent (t := t) hp fun f => ρ₂ f = .free
  have hroom : 2 + kernWindow ≤ (pdx utop - 1) * nptentries := by decide
  have hbound := h₂.card_le
  obtain ⟨s, ρ', m, q, hend⟩ := h₂.lastPage hfirstTable hgap le_rfl (by omega) (by omega)
  obtain ⟨hq, s', hrun⟩ := hend.fails
  obtain ⟨l', hl', -, hu⟩ := undone_of_reached hend.reached rfl hrun (by decide)
  exact ⟨s, s', e, q, l', hend.reached, hq, hrun, hl', hu⟩

end Kernel
end PmakeOs
