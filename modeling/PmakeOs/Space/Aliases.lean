import PmakeOs.Boot.FreeList
import PmakeOs.Space.Isolation

/-!
# A page that is mapped too often

`pp_ref` has sixteen bits, and an address space has room for more mappings of one page than
that.  `FreeUnmapped s` says that no page on the free list is mapped.  Runs keep it as long as
no mapping of a page with 65536 mappings or more is taken down (`freeUnmapped_of_run`).

The rest of the module is a run that does otherwise.  The first environment allocates a page,
maps it at 65536 further addresses, and unmaps it at the first: the counter goes from one to
zero, and the page is freed with 65536 mappings left (`not_freeUnmapped`).  By induction on
the number of mappings (`Aliased`), the run needs 65 tables and a page.
-/

namespace PmakeOs

open Lib

namespace Kernel

variable {s s' s₀ : Kernel} {ρ ρ' : ℕ → Role} {pend : ℕ → Prop} {h : Hardware}
  {e d p q k pp : ℕ} {va perm : Word} {spare : Finset ℕ}

/-- A page that a live environment has mapped below `UTOP` is not on the free list, and
`page_alloc` does not return it. -/
def FreeUnmapped (s : Kernel) : Prop :=
  ∀ e d vpn w, Live s e → (s.envs e).envPgdir = some d → vpn < upn →
    userPte s.phys d vpn = some w → ¬ s.InFreeList (frame w) ∧
      ∀ flags s', s.pageAlloc flags ≠ .ok (some (frame w), s')

/-- The operation has no stray bit in `perm`. -/
def Within (op : MemOp) : Prop := op.perm &&& ~~~ pteSyscall = 0#32

/-- The operation is within `PTE_SYSCALL`, and takes down no mapping of a page whose count has
wrapped. -/
def Counted (s : Kernel) (op : MemOp) : Prop :=
  Within op ∧ ∀ e va, Touches s op e va → Droppable s e va

/-- `page_alloc` returns the head of the list. -/
theorem head_of_pageAlloc {flags : Word} (hrun : s.pageAlloc flags = .ok (some p, s')) :
    s.pageFreeList = some p := by
  unfold pageAlloc at hrun
  split at hrun
  · exact nomatch (Prod.mk.inj (Except.ok.inj hrun)).1
  · rename_i ret hret
    rw [hret]
    dsimp only at hrun
    split at hrun
    · obtain ⟨f, -, hr⟩ := bind_eq_ok.mp hrun
      exact (Prod.mk.inj (Except.ok.inj hr)).1
    · exact (Prod.mk.inj (Except.ok.inj hrun)).1

theorem Sound.freeUnmapped (hs : Settled s ρ) : FreeUnmapped s := by
  intro e d vpn w hlive hpd hvpn hw
  have hentry := entryOf_of_userPte (dirsOf_of_pgdir hlive hpd) hvpn hw
  have hdata := hs.ledger.typed.tree.role_of_entryOf hentry
  have hfree := hs.ledger.typed.free
  refine ⟨fun hin => ?_, fun flags s' hrun => ?_⟩
  · obtain ⟨l, hl, hmem⟩ := hfree.list
    rw [(hmem _).mp (hl.linked_iff.mp hin)] at hdata
    cases hdata
  · rw [hfree.role_of_head (head_of_pageAlloc hrun)] at hdata
    cases hdata

/-- **No mapped page is freed**, as long as counts that have wrapped are not decremented. -/
theorem freeUnmapped_of_run (hboot : bootUp h = .ok s₀) (hrun : Run Counted s₀ s) :
    FreeUnmapped s := by
  obtain ⟨ρ₀, hset, hlog, -⟩ := settled_of_bootUp hboot
  obtain ⟨ρ, hk⟩ := hrun.kept (fun _ _ hK => toNat_lt_of_syscall hK.1) (fun _ _ hK => hK.2) hset hlog
  exact hk.settled.freeUnmapped

/-! ## Insertion with pages to spare -/

/-- `page_insert` at a page that is not mapped, when there is a free page. -/
theorem Sound.pageInsert_spare (hs : Sound s ρ pend) (hd : dirsOf s e = some d) (hva : va < utop)
    (hpp : ρ pp = .data) (hperm : perm.toNat < 2 ^ 12)
    (hnone : entryOf s.phys (dirsOf s) (e, pgnum va) = none) (hq : ρ q = .free) :
    ∃ s' ρ', s.pageInsert d pp va perm = .ok (0, s') ∧ Sound s' ρ' (fun q => pend q ∧ q ≠ pp) ∧
      MemoryOnly s s' ∧ Inserted s s' (dirsOf s) ρ ρ' e d va pp perm := by
  have hlt : ∀ w, entryOf s.phys (dirsOf s) (e, pgnum va) = some w →
      refCount s.phys (dirsOf s) (frame w) + 0 < 2 ^ 16 := by
    intro w hw
    rw [hnone] at hw
    cases hw
  rcases hs.ledger.pageInsert hd hva hpp hperm hlt with ⟨-, hl, -⟩ | ⟨s', ρ', hrun, hled, hins⟩
  · obtain ⟨p, hp⟩ := hs.ledger.typed.free.exists_head hq
    rw [hl] at hp
    cases hp
  · have hm := memoryOnly_of_pageInsert hrun
    have he : Effect (fun _ => True) (s, ρ) (s', ρ') :=
      .insert hd hva hpp hperm hm hins fun _ => trivial
    rw [← hm.sameSlots.dirsOf] at hled
    exact ⟨s', ρ', hrun, hs.step he hled, hm, hins⟩

/-- A free page stays free, unless it has become the table. -/
theorem Inserted.free (hins : Inserted s s' (dirsOf s) ρ ρ' e d va pp perm)
    (hs' : Sound s' ρ' pend) (hd : dirsOf s' e = some d) (hq : ρ q = .free)
    (hne : q ≠ frame (s'.phys d (pdx va))) : ρ' q = .free := by
  rcases hins.role q with hr | ⟨-, hr⟩ | ⟨hr, -, -⟩
  · rw [hr]
    exact hq
  · obtain ⟨d', hd', -, -, hf⟩ := hs'.ledger.typed.tree.table_back hr
    rw [hd] at hd'
    obtain rfl := Option.some.inj hd'
    exact absurd hf.symm hne
  · rw [hq] at hr
    cases hr

/-- The table is no free page, if it was there before. -/
theorem Inserted.table_of_present (hins : Inserted s s' (dirsOf s) ρ ρ' e d va pp perm)
    (hs : Sound s ρ pend) (hd : dirsOf s e = some d) (hva : va < utop) (hperm : perm.toNat < 2 ^ 12)
    (hp : Has (s.phys d (pdx va)) pteP) : ρ (frame (s'.phys d (pdx va))) ≠ .free := by
  obtain ⟨t, -, hpde, -⟩ := hins.pde
  rw [hpde, if_pos hp, frame_or_of_lt _ hperm,
    hs.ledger.typed.tree.table hd ((lt_utop_iff va).mp hva) hp]
  exact nofun

/-! ## Counting -/

section Count

variable {m m' : Phys} {dirs dirs' : ℕ → Option ℕ} {x : ℕ × ℕ} {o : Option Word}

/-- One mapping more is one reference more to its page. -/
theorem refCount_le_of_update (h : entryOf m' dirs' = Function.update (entryOf m dirs) x o)
    (q : ℕ) : refCount m' dirs' q ≤ refCount m dirs q + if o.map frame = some q then 1 else 0 := by
  by_cases hx : x ∈ userPages
  · have hmove := occurrences_add_of_eq_off (f := fun y => (entryOf m' dirs' y).map frame)
      (g := fun y => (entryOf m dirs y).map frame) (k := q) hx fun y _ hne => by
        rw [h, Function.update_of_ne hne]
    rw [h, Function.update_self] at hmove
    rw [refCount, refCount, h]
    omega
  · refine (le_of_eq ?_).trans (Nat.le_add_right _ _)
    refine occurrences_congr fun y hy => ?_
    have hne : y ≠ x := by
      rintro rfl
      exact hx hy
    rw [h, Function.update_of_ne hne]

/-- Other pages have no reference more. -/
theorem refCount_le_of_other (h : entryOf m' dirs' = Function.update (entryOf m dirs) x o)
    (ho : o.map frame ≠ some q) : refCount m' dirs' q ≤ refCount m dirs q := by
  have hle := refCount_le_of_update h q
  rwa [if_neg ho, Nat.add_zero] at hle

theorem refCount_le_succ (h : entryOf m' dirs' = Function.update (entryOf m dirs) x o) (q : ℕ) :
    refCount m' dirs' q ≤ refCount m dirs q + 1 := by
  refine (refCount_le_of_update h q).trans (Nat.add_le_add_left ?_ _)
  split <;> omega

end Count

/-- Environment `e` has got frame `p` of the free list at `va`, where nothing was mapped, and
perhaps a table for it. -/
structure TakesHead (s : Kernel) (ρ : ℕ → Role) (s' : Kernel) (ρ' : ℕ → Role) (e d p : ℕ)
    (va perm : Word) : Prop where
  head : s.pageFreeList = some p
  window : p < kernWindow
  settled : Settled s' ρ'
  memory : MemoryOnly s s'
  entries : entryOf s'.phys (dirsOf s') = Function.update (entryOf s.phys (dirsOf s))
    (e, pgnum va) (some (page2pa p ||| perm ||| pteP))
  kept : ∀ f, ρ f = .free → f ≠ p → f ≠ frame (s'.phys d (pdx va)) → ρ' f = .free
  free : ∀ f, ρ' f = .free → ρ f = .free ∧ f ≠ p
  table : Has (s.phys d (pdx va)) pteP → ρ (frame (s'.phys d (pdx va))) ≠ .free
  dir : ∀ i, i ≠ pdx va → s'.phys d i = s.phys d i

/-- Page `p` has been taken, and goes in where nothing was mapped: no page is freed. -/
theorem Inserted.free_before {s₁ : Kernel} {f : ℕ} (hs : Settled s ρ) (hs' : Sound s' ρ' pend)
    (hent : entryOf s₁.phys (dirsOf s₁) = entryOf s.phys (dirsOf s))
    (hdirs : dirsOf s' = dirsOf s₁)
    (hins : Inserted s₁ s' (dirsOf s₁) (Function.update ρ p .data) ρ' e d va p perm)
    (hnone : entryOf s.phys (dirsOf s) (e, pgnum va) = none) (hf : ρ' f = .free) :
    ρ f = .free ∧ f ≠ p := by
  have hold : Function.update ρ p .data f = .free := by
    rcases hins.role f with h0 | ⟨h0, -⟩ | ⟨h0, -, hfp⟩
    · rw [← h0]
      exact hf
    · exact h0
    · -- a page that was in use is mapped still
      rw [Function.update_of_ne hfp] at h0
      have hpos := (hs.ledger.used h0).resolve_right id
      rw [Nat.add_zero] at hpos
      obtain ⟨y, -, hy⟩ := occurrences_pos_iff.mp hpos
      obtain ⟨w, hw, rfl⟩ := Option.map_eq_some_iff.mp hy
      have hye : y ≠ (e, pgnum va) := by
        rintro rfl
        rw [hnone] at hw
        cases hw
      have hw' : entryOf s'.phys (dirsOf s') y = some w := by
        rw [hdirs, hins.entries, Function.update_of_ne hye, hent]
        exact hw
      have hdata := hs'.ledger.typed.tree.role_of_entryOf hw'
      rw [hf] at hdata
      cases hdata
  have hfp : f ≠ p := by
    rintro rfl
    rw [Function.update_self] at hold
    cases hold
  rw [Function.update_of_ne hfp] at hold
  exact ⟨hold, hfp⟩

/-- A table that was there is no page that was free, and not the page that has been taken. -/
theorem Inserted.table_before (hs : Sound s (Function.update ρ p .data) pend)
    (hd : dirsOf s e = some d) (hva : va < utop) (hperm : perm.toNat < 2 ^ 12)
    (hins : Inserted s s' (dirsOf s) (Function.update ρ p .data) ρ' e d va p perm)
    (hpres : Has (s.phys d (pdx va)) pteP) : ρ (frame (s'.phys d (pdx va))) ≠ .free := by
  intro htab
  rcases eq_or_ne (frame (s'.phys d (pdx va))) p with h0 | h0
  · obtain ⟨t', ht', hpde, -⟩ := hins.pde
    have htrole := hs.ledger.typed.tree.table hd ((lt_utop_iff va).mp hva) hpres
    rw [hpde, if_pos hpres, frame_or_of_lt _ hperm] at h0
    rw [h0, Function.update_self] at htrole
    cases htrole
  · have hold := hins.table_of_present hs hd hva hperm hpres
    rw [Function.update_of_ne h0] at hold
    exact hold htab

/-- **`sys_page_alloc` with pages to spare**, where nothing is mapped. -/
theorem Sound.sysPageAlloc_takes {envid : Word} {r : ℕ} (hs : Settled s ρ)
    (henv : s.envid2env envid true = .ok (0, some e)) (hd : dirsOf s e = some d) (hva : va < utop)
    (hal : ¬ Unaligned va)
    (hbits : perm &&& (pteU ||| pteP) = pteU ||| pteP) (hperm : perm.toNat < 2 ^ 12)
    (hnone : entryOf s.phys (dirsOf s) (e, pgnum va) = none) (hq : ρ q = .free) (hr : ρ r = .free)
    (hqr : q ≠ r) :
    ∃ p s' ρ', s.sysPageAlloc envid va perm = .ok (0, s') ∧ TakesHead s ρ s' ρ' e d p va perm := by
  obtain ⟨p, hl⟩ := hs.ledger.typed.free.exists_head hq
  have hfree := hs.ledger.typed.free.role_of_head hl
  have hplt := hs.ledger.typed.lt (p := p) (by rw [hfree]; simp)
  have hpw : p < kernWindow := lt_of_lt_of_le hplt hs.ledger.typed.window
  have hpd : (s.envs e).envPgdir = some d := pgdir_of_dirsOf hd
  have hdp : d ≠ p := by
    rintro rfl
    rw [hs.ledger.typed.tree.dir.mp hd] at hfree
    cases hfree
  obtain ⟨h₁, -⟩ := hs.takeUserPage (Q := fun _ => True) hl
  have halloc : s.pageAlloc allocZero = .ok (some p, s.takePage p) := pageAlloc_of_cons hl hplt hpw
  have hm₁ : MemoryOnly s ((s.takePage p).note (.userPage p)) :=
    (memoryOnly_of_pageAlloc halloc).trans (.note _ rfl)
  have hdir₁ : ∀ i, ((s.takePage p).note (.userPage p)).phys d i = s.phys d i := fun i => by
    simp [Kernel.note, Kernel.takePage, setPage, zeroFrame, hdp]
  generalize hs₁ : (s.takePage p).note (.userPage p) = s₁ at h₁ hm₁ hdir₁
  have hdirs₁ : dirsOf s₁ = dirsOf s := hm₁.sameSlots.dirsOf
  have hent₁ : entryOf s₁.phys (dirsOf s₁) = entryOf s.phys (dirsOf s) := by
    rw [hdirs₁, ← hs₁]
    exact hs.ledger.typed.tree.entryOf_takePage hfree
  have hd₁ : dirsOf s₁ e = some d := by
    rw [hdirs₁]
    exact hd
  -- another page is left for the table
  obtain ⟨t, ht, htp⟩ : ∃ t, ρ t = .free ∧ t ≠ p := by
    rcases eq_or_ne q p with rfl | hne
    · exact ⟨r, hr, hqr.symm⟩
    · exact ⟨q, hq, hne⟩
  obtain ⟨s', ρ', hins, hs', hm, hinserted⟩ := h₁.pageInsert_spare (e := e) (d := d)
    hd₁ hva (Function.update_self p .data ρ) hperm
    (by rw [hent₁]; exact hnone) (q := t) (by rw [Function.update_of_ne htp]; exact ht)
  have hd' : dirsOf s' e = some d := by
    rw [hm.sameSlots.dirsOf]
    exact hd₁
  have hset : Settled s' ρ' := ⟨hs'.ledger.mono fun f _ h0 => h0.1.elim id h0.2, hs'.layout⟩
  have hdirs' : dirsOf s' = dirsOf s₁ := hm.sameSlots.dirsOf
  refine ⟨p, s', ρ', ?_, hl, hpw, hset, hm₁.trans hm, ?_, fun f hf hfp hft => ?_,
    fun f hf => hinserted.free_before hs hs' hent₁ hdirs' hnone hf,
    fun hpres => hinserted.table_before h₁ hd₁ hva hperm (by rw [hdir₁]; exact hpres),
    fun i hi => ?_⟩
  · unfold Kernel.sysPageAlloc
    rw [henv, ok_bind]
    simp only [ne_eq, not_true_eq_false, if_false]
    rw [if_neg (not_or.mpr ⟨BitVec.not_le.mpr hva, hal⟩), if_neg (not_not.mpr hbits), halloc, ok_bind]
    show (deref (some e) >>= fun e => _) = _
    rw [deref_some, ok_bind]
    show (deref (s.envs e).envPgdir >>= fun d => _) = _
    rw [hpd, deref_some, ok_bind, hs₁, hins, ok_bind]
    rfl
  · rw [hdirs', ← hent₁]
    exact hinserted.entries
  · exact hinserted.free hs' hd' (by rw [Function.update_of_ne hfp]; exact hf) hft
  · have hrole : Function.update ρ p .data d = .dir e := by
      rw [Function.update_of_ne hdp]
      exact hs.ledger.typed.tree.dir.mp hd
    rw [← hdir₁, hinserted.phys d i (by rw [hrole]; exact fun h0 => by cases h0)
      (fun i => by rw [hrole]; exact fun h0 => by cases h0) fun h0 => hi h0.2]

/-- The call, by what it keeps. -/
theorem Sound.sysPageAlloc_spare {envid : Word} {r : ℕ} (hs : Settled s ρ)
    (henv : s.envid2env envid true = .ok (0, some e)) (hd : dirsOf s e = some d) (hva : va < utop)
    (hal : ¬ Unaligned va)
    (hbits : perm &&& (pteU ||| pteP) = pteU ||| pteP) (hperm : perm.toNat < 2 ^ 12)
    (hnone : entryOf s.phys (dirsOf s) (e, pgnum va) = none) (hq : ρ q = .free) (hr : ρ r = .free)
    (hqr : q ≠ r) :
    ∃ p s' ρ', s.sysPageAlloc envid va perm = .ok (0, s') ∧ p < kernWindow ∧ Settled s' ρ' ∧
      MemoryOnly s s' ∧ entryOf s'.phys (dirsOf s') = Function.update (entryOf s.phys (dirsOf s))
        (e, pgnum va) (some (page2pa p ||| perm ||| pteP)) ∧
      ∀ f, ρ f = .free → f ≠ p → f ≠ frame (s'.phys d (pdx va)) → ρ' f = .free := by
  obtain ⟨p, s', ρ', hrun, ht⟩ :=
    hs.sysPageAlloc_takes henv hd hva hal hbits hperm hnone hq hr hqr
  exact ⟨p, s', ρ', hrun, ht.window, ht.settled, ht.memory, ht.entries, ht.kept⟩

/-- **`sys_page_map` of a page that is mapped.**  What is left to check is the right to write. -/
theorem Sound.sysPageMap_eq {srcenvid srcva dstenvid dstva w : Word} {se sd : ℕ}
    (hs : Sound s ρ pend) (hsrc : s.envid2env srcenvid true = .ok (0, some se))
    (hdst : s.envid2env dstenvid true = .ok (0, some e))
    (hsd : dirsOf s se = some sd) (hd : dirsOf s e = some d) (hsva : srcva < utop)
    (hsal : ¬ Unaligned srcva) (hva : dstva < utop) (hal : ¬ Unaligned dstva)
    (hbits : perm &&& (pteU ||| pteP) = pteU ||| pteP)
    (hw : entryOf s.phys (dirsOf s) (se, pgnum srcva) = some w) :
    s.sysPageMap srcenvid srcva dstenvid dstva perm =
      if ¬ Has w pteW ∧ Has perm pteW then .ok (-eInval, s)
      else s.pageInsert d (frame w) dstva perm := by
  have hspd : (s.envs se).envPgdir = some sd := pgdir_of_dirsOf hsd
  have hpd : (s.envs e).envPgdir = some d := pgdir_of_dirsOf hd
  rcases hs.ledger.typed.pageLookup hsd hsva with ⟨h0, -⟩ |
    ⟨t, w', -, -, -, hpte, -, -, hw', hlook⟩
  · rw [h0] at hw
    cases hw
  obtain rfl := Option.some.inj (hw'.symm.trans hw)
  have haddr : ¬ (utop ≤ srcva ∨ utop ≤ dstva ∨ Unaligned srcva ∨ Unaligned dstva) := by
    rintro (h0 | h0 | h0 | h0)
    · exact absurd hsva (BitVec.not_lt.mpr h0)
    · exact absurd hva (BitVec.not_lt.mpr h0)
    · exact hsal h0
    · exact hal h0
  unfold Kernel.sysPageMap
  rw [hsrc, ok_bind]
  simp only [ne_eq, not_true_eq_false, if_false]
  rw [hdst, ok_bind]
  simp only [not_true_eq_false, if_false]
  rw [if_neg haddr, deref_some, ok_bind, hspd, deref_some, ok_bind, hlook, ok_bind]
  dsimp only
  rw [if_neg (not_not.mpr hbits), hpte]
  refine if_congr Iff.rfl rfl ?_
  rw [deref_some, ok_bind, hpd, deref_some, ok_bind]

/-- **`sys_page_map` with a page to spare**, to where nothing is mapped. -/
theorem Sound.sysPageMap_spare {srcenvid srcva dstenvid dstva w : Word} {se sd : ℕ}
    (hs : Settled s ρ) (hsrc : s.envid2env srcenvid true = .ok (0, some se))
    (hdst : s.envid2env dstenvid true = .ok (0, some e))
    (hsd : dirsOf s se = some sd) (hd : dirsOf s e = some d) (hsva : srcva < utop)
    (hsal : ¬ Unaligned srcva) (hva : dstva < utop) (hal : ¬ Unaligned dstva)
    (hbits : perm &&& (pteU ||| pteP) = pteU ||| pteP) (hperm : perm.toNat < 2 ^ 12)
    (hw : entryOf s.phys (dirsOf s) (se, pgnum srcva) = some w) (hW : Has perm pteW → Has w pteW)
    (hnone : entryOf s.phys (dirsOf s) (e, pgnum dstva) = none) (hq : ρ q = .free) :
    ∃ s' ρ', s.sysPageMap srcenvid srcva dstenvid dstva perm = .ok (0, s') ∧ Settled s' ρ' ∧
      MemoryOnly s s' ∧ Inserted s s' (dirsOf s) ρ ρ' e d dstva (frame w) perm := by
  have hdata : ρ (frame w) = .data := hs.ledger.typed.tree.role_of_entryOf hw
  obtain ⟨s', ρ', hins, hs', hm, hinserted⟩ := hs.pageInsert_spare hd hva hdata hperm hnone hq
  refine ⟨s', ρ', ?_, ⟨hs'.ledger.mono fun f _ h0 => h0.1, hs'.layout⟩, hm, hinserted⟩
  rw [hs.sysPageMap_eq hsrc hdst hsd hd hsva hsal hva hal hbits hw,
    if_neg fun h0 => h0.1 (hW h0.2)]
  exact hins

/-! ## The run -/

/-- The address of page `k`. -/
def pageVa (k : ℕ) : Word := BitVec.ofNat 32 (k * pgsize)

/-- The rights of all the mappings. -/
def readOnly : Word := pteU ||| pteP

/-- Environment `e` has mapped page `p` at the first `k + 1` pages, and there is nothing else
mapped.  The pages in `spare` are free. -/
structure Aliased (s : Kernel) (e d p k : ℕ) (ρ : ℕ → Role) (spare : Finset ℕ) : Prop where
  settled : Settled s ρ
  live : Live s e
  dir : dirsOf s e = some d
  page : p < kernWindow
  entries : ∀ x, entryOf s.phys (dirsOf s) x =
    if x.1 = e ∧ x.2 ≤ k then some (page2pa p ||| readOnly ||| pteP) else none
  free : ∀ q ∈ spare, ρ q = .free
  card : 70 ≤ spare.card + k / 1024

section PageVa

variable (hk : k < upn)

include hk

theorem toNat_pageVa : (pageVa k).toNat = k * 4096 := by
  rw [upn_eq] at hk
  rw [pageVa, BitVec.toNat_ofNat, pgsize]
  omega

theorem pageVa_lt : pageVa k < utop := by
  rw [BitVec.lt_def, toNat_pageVa hk, show utop.toNat = 955 * 1024 * 4096 by decide]
  rw [upn_eq] at hk
  omega

theorem pgnum_pageVa : pgnum (pageVa k) = k := by
  rw [pgnum_eq, toNat_pageVa hk]
  omega

theorem not_unaligned_pageVa : ¬ Unaligned (pageVa k) := by
  have hpg : (BitVec.ofNat 32 pgsize).toNat = 4096 := by decide
  refine not_not.mpr (BitVec.eq_of_toNat_eq ?_)
  rw [toNat_rounddown, hpg, toNat_pageVa hk]
  omega

theorem pdx_pageVa : pdx (pageVa k) = k / 1024 := by
  have hdiv := pgnum_div (pageVa k)
  rw [pgnum_pageVa hk, nptentries] at hdiv
  exact hdiv.symm

end PageVa

theorem toNat_readOnly : readOnly.toNat < 2 ^ 12 := by decide

theorem envid2env_zero (s : Kernel) (e : ℕ) (checkperm : Bool) :
    (s.setCurenv (some e)).envid2env 0#32 checkperm = .ok (0, some e) := by
  unfold envid2env
  rw [if_pos rfl, curenv_setCurenv]
  rfl

/-- The caller's state is sound. -/
theorem Sound.setCurenv (hs : Sound s ρ pend) (o : Option ℕ) : Sound (s.setCurenv o) ρ pend := by
  have hquiet : Sound (s.setCurenv o) ρ pend ∧ Effects (fun _ => True) (s, ρ) (s.setCurenv o, ρ) :=
    hs.quiet rfl rfl rfl rfl rfl ⟨fun _ => Iff.rfl, fun _ => rfl, fun _ => rfl, rfl⟩ rfl
  exact hquiet.1

/-- **One more mapping.** -/
theorem Aliased.step (ha : Aliased s e d p k ρ spare) (hk : k + 1 < upn) (hk' : k / 1024 < 70) :
    ∃ s' ρ' spare', s.exec (.call e (.pageMap 0#32 (pageVa 0) 0#32 (pageVa (k + 1)) readOnly)) =
      .ok s' ∧ Aliased s' e d p (k + 1) ρ' spare' := by
  have hs := ha.settled.setCurenv (some e)
  have hupn : 0 < upn := by
    rw [upn_eq]
    omega
  have hcard := ha.card
  obtain ⟨q, hq⟩ := Finset.card_pos.mp (show 0 < spare.card by omega)
  -- the source is mapped, and the destination is not
  have hsrc := ha.entries (e, 0)
  rw [if_pos ⟨rfl, Nat.zero_le k⟩] at hsrc
  have hdst := ha.entries (e, k + 1)
  rw [if_neg (by omega)] at hdst
  have henv := envid2env_zero s e true
  obtain ⟨s', ρ', hrun, hs', hm, hinserted⟩ := hs.sysPageMap_spare henv henv
    ha.dir ha.dir (pageVa_lt hupn) (not_unaligned_pageVa hupn) (pageVa_lt hk)
    (not_unaligned_pageVa hk) (show readOnly &&& (pteU ||| pteP) = pteU ||| pteP by decide)
    toNat_readOnly (by rw [pgnum_pageVa hupn]; exact hsrc) (fun h0 => absurd h0 (by decide))
    (by rw [pgnum_pageVa hk]; exact hdst) (ha.free q hq)
  rw [frame_entry ha.page toNat_readOnly] at hinserted
  have hdirs : dirsOf s' = dirsOf s := hm.sameSlots.dirsOf
  have hd' : dirsOf s' e = some d := by
    rw [hdirs]
    exact ha.dir
  refine ⟨s', ρ', spare.erase (frame (s'.phys d (pdx (pageVa (k + 1))))), ?_, ?_⟩
  · rw [exec, handle, returning_ok hrun]
    rfl
  refine ⟨hs', ?_, hd', ha.page, fun x => ?_, fun q hq => ?_, ?_⟩
  · exact live_of_dirsOf hd'
  · have hent : entryOf s'.phys (dirsOf s') = Function.update (entryOf s.phys (dirsOf s))
        (e, pgnum (pageVa (k + 1))) (some (page2pa p ||| readOnly ||| pteP)) := by
      rw [hdirs]
      exact hinserted.entries
    rw [hent, pgnum_pageVa hk, Function.update_apply, ha.entries x]
    by_cases hx : x = (e, k + 1)
    · rw [if_pos hx, hx, if_pos ⟨rfl, le_rfl⟩]
    · rw [if_neg hx]
      have hiff : x.1 = e ∧ x.2 ≤ k ↔ x.1 = e ∧ x.2 ≤ k + 1 := by
        refine and_congr_right fun h1 => ⟨fun h2 => by omega, fun h2 => ?_⟩
        have hne : x.2 ≠ k + 1 := fun h3 => hx (Prod.ext h1 h3)
        omega
      simp only [hiff]
  · rw [Finset.mem_erase] at hq
    exact hinserted.free hs' hd' (ha.free q hq.2) hq.1
  · -- a table is made every 1024 pages
    rcases Nat.eq_zero_or_pos ((k + 1) % 1024) with hmod | hmod
    · have hpred := Finset.pred_card_le_card_erase (s := spare)
        (a := frame (s'.phys d (pdx (pageVa (k + 1)))))
      omega
    · have hsame : (k + 1) / 1024 = k / 1024 := by omega
      have hkentry := ha.entries (e, k)
      rw [if_pos ⟨rfl, le_rfl⟩] at hkentry
      obtain ⟨-, d', hd₀, hpres, -⟩ := exists_of_entryOf hkentry
      rw [ha.dir] at hd₀
      obtain rfl := Option.some.inj hd₀
      rw [nptentries, ← hsame, ← pdx_pageVa hk] at hpres
      have htable := hinserted.table_of_present hs ha.dir (pageVa_lt hk) toNat_readOnly hpres
      rw [Finset.erase_eq_of_notMem fun h0 => htable (ha.free _ h0)]
      omega

/-- **The first mapping.** -/
theorem FirstEnv.firstAlias (hf : FirstEnv s e d ρ spare) (hcard : 72 ≤ spare.card) :
    ∃ p s' ρ' spare', s.exec (.call e (.pageAlloc 0#32 (pageVa 0) readOnly)) = .ok s' ∧
      Aliased s' e d p 0 ρ' spare' := by
  have hupn : 0 < upn := by
    rw [upn_eq]
    omega
  have hs := hf.settled.setCurenv (some e)
  obtain ⟨q, hq, r, hr, hqr⟩ := Finset.one_lt_card.mp (show 1 < spare.card by omega)
  obtain ⟨p, s', ρ', hrun, hpw, hs', hm, hent, hfree⟩ := hs.sysPageAlloc_spare
    (envid2env_zero s e true) hf.dir (pageVa_lt hupn) (not_unaligned_pageVa hupn)
    (show readOnly &&& (pteU ||| pteP) = pteU ||| pteP by decide) toNat_readOnly (hf.entries _)
    (hf.free q hq) (hf.free r hr) hqr
  have hd' : dirsOf s' e = some d := by
    rw [hm.sameSlots.dirsOf]
    exact hf.dir
  refine ⟨p, s', ρ', (spare.erase p).erase (frame (s'.phys d (pdx (pageVa 0)))), ?_, hs',
    live_of_dirsOf hd', hd', hpw, fun x => ?_, fun f hf' => ?_, ?_⟩
  · rw [exec, handle, returning_ok hrun]
    rfl
  · rw [hent, pgnum_pageVa hupn, Function.update_apply]
    have hiff : x = (e, 0) ↔ x.1 = e ∧ x.2 ≤ 0 := by
      rw [Prod.ext_iff, Nat.le_zero]
    have hnone : entryOf (s.setCurenv (some e)).phys (dirsOf (s.setCurenv (some e))) x = none :=
      hf.entries x
    simp only [hiff, hnone]
  · rw [Finset.mem_erase, Finset.mem_erase] at hf'
    exact hfree f (hf.free f hf'.2.2) hf'.2.1 hf'.1
  · have hcard₁ := Finset.pred_card_le_card_erase (s := spare) (a := p)
    have hcard₂ := Finset.pred_card_le_card_erase (s := spare.erase p)
      (a := frame (s'.phys d (pdx (pageVa 0))))
    omega

theorem Run.call {K : Kernel → MemOp → Prop} {x : Syscall} (hrun : Run K s₀ s) (hlive : Live s e)
    (hx : x.isSpace = true) (hK : K s (.call e x)) (hexec : s.exec (.call e x) = .ok s') :
    Run K s₀ s' :=
  .tail hrun ⟨.call e x, ⟨hlive, hx⟩, hK, hexec⟩

/-- The operations have no stray bit in `perm`. -/
theorem FirstEnv.aliases (hf : FirstEnv s e d ρ spare) (hcard : 72 ≤ spare.card) :
    ∃ p, ∀ k, k ≤ 65536 → ∃ s' ρ' spare', Run (fun _ op => Within op) s s' ∧
      Aliased s' e d p k ρ' spare' := by
  obtain ⟨p, s₁, ρ₁, spare₁, hexec, h₁⟩ := hf.firstAlias hcard
  have hwithin : Within (.call e (.pageAlloc 0#32 (pageVa 0) readOnly)) :=
    show readOnly &&& ~~~ pteSyscall = 0#32 by decide
  refine ⟨p, fun k => ?_⟩
  induction k with
  | zero => exact fun _ => ⟨s₁, ρ₁, spare₁, .call .refl hf.live rfl hwithin hexec, h₁⟩
  | succ k ih =>
    intro hk
    obtain ⟨s', ρ', spare', hrun, ha⟩ := ih (by omega)
    obtain ⟨s'', ρ'', spare'', hexec', ha'⟩ := ha.step (by rw [upn_eq]; omega) (by omega)
    have hwithin' : Within (.call e (.pageMap 0#32 (pageVa 0) 0#32 (pageVa (k + 1)) readOnly)) :=
      show readOnly &&& ~~~ pteSyscall = 0#32 by decide
    exact ⟨s'', ρ'', spare'', hrun.call ha.live rfl hwithin' hexec', ha'⟩

/-- The number of mappings. -/
theorem Aliased.refCount_eq (ha : Aliased s e d p k ρ spare) (hk : k < upn) :
    refCount s.phys (dirsOf s) p = k + 1 := by
  have helt := ha.settled.ledger.typed.tree.owner_lt ha.dir
  have hset : (userPages.filter fun x => (entryOf s.phys (dirsOf s) x).map frame = some p) =
      {e} ×ˢ Finset.range (k + 1) := by
    ext x
    rw [Finset.mem_filter, mem_userPages, Finset.mem_product, Finset.mem_singleton,
      Finset.mem_range, ha.entries x]
    by_cases hx : x.1 = e ∧ x.2 ≤ k
    · rw [if_pos hx, Option.map_some, frame_entry ha.page toNat_readOnly, hx.1]
      simp only [helt, and_true, true_and]
      omega
    · rw [if_neg hx]
      refine iff_of_false (fun h0 => nomatch h0.2) fun h0 => hx ⟨h0.1, ?_⟩
      omega
  rw [refCount, occurrences, hset, Finset.card_product, Finset.card_singleton, Finset.card_range,
    Nat.one_mul]

/-- A machine with 64 MB has pages for the tables. -/
theorem length_allocatable_machine64 : 141 ≤ (allocatable machine64).length := by
  have hnd : (List.range' 8 150).Nodup := List.nodup_range'
  have hn : i386DetectMemory machine64 = 16384 := by decide
  have hsub : List.range' 8 150 ⊆ allocatable machine64 := by
    intro p hp
    rw [List.mem_range'_1] at hp
    rw [allocatable, mem_usablePages, usable_iff, hn]
    omega
  have hle := (hnd.subperm hsub).length_le
  rw [List.length_range'] at hle
  omega

/-- The first environment maps its page at a second address. -/
theorem freeUnmapped_of_run_twoPages : ∃ s₀ s, bootUp machine64 = .ok s₀ ∧ Run Counted s₀ s ∧
    FreeUnmapped s := by
  obtain ⟨s₀, hboot⟩ := machine64_boots
  obtain ⟨s, e, d, ρ, spare, hexec, hfirst, hcard⟩ := firstEnv_of_bootUp hboot
  have hlen := length_allocatable_machine64
  obtain ⟨p, s₁, ρ₁, spare₁, halloc, h₁⟩ := hfirst.firstAlias (by omega)
  obtain ⟨s₂, ρ₂, spare₂, hmap, h₂⟩ := h₁.step (by rw [upn_eq]; omega) (by omega)
  have hopen : Counted s₀ (.envAlloc 0#32) :=
    ⟨show 0#32 &&& ~~~ pteSyscall = 0#32 by decide, nofun⟩
  have hpage : Counted s (.call e (.pageAlloc 0#32 (pageVa 0) readOnly)) := by
    refine ⟨show readOnly &&& ~~~ pteSyscall = 0#32 by decide, fun e' va _ w hw => ?_⟩
    rw [hfirst.entries] at hw
    cases hw
  have halias : Counted s₁ (.call e (.pageMap 0#32 (pageVa 0) 0#32 (pageVa 1) readOnly)) := by
    refine ⟨show readOnly &&& ~~~ pteSyscall = 0#32 by decide, fun e' va _ w hw => ?_⟩
    rw [h₁.entries] at hw
    split at hw
    · obtain rfl := Option.some.inj hw
      rw [frame_entry h₁.page toNat_readOnly, h₁.refCount_eq (by rw [upn_eq]; omega)]
      omega
    · cases hw
  have hrun₀ : Run Counted s₀ s := .single ⟨.envAlloc 0#32, trivial, hopen, hexec⟩
  have hrun₁ : Run Counted s₀ s₁ := hrun₀.call hfirst.live rfl hpage halloc
  have hrun₂ : Run Counted s₀ s₂ := hrun₁.call h₁.live rfl halias hmap
  exact ⟨s₀, s₂, hboot, hrun₂, freeUnmapped_of_run hboot hrun₂⟩

theorem rest_tlbInvalidate (s : Kernel) (d : ℕ) (va : Word) :
    (s.tlbInvalidate d va).pageFreeList = s.pageFreeList ∧ (s.tlbInvalidate d va).envs = s.envs := by
  unfold Kernel.tlbInvalidate
  split
  · exact ⟨rfl, rfl⟩
  · split
    · exact ⟨rfl, rfl⟩
    · exact ⟨rfl, rfl⟩

/-- **The counter has wrapped.**  Unmapping one of 65537 mappings frees the page. -/
theorem Aliased.unmap (ha : Aliased s e d p 65536 ρ spare) :
    ∃ s' w, s.exec (.call e (.pageUnmap 0#32 (pageVa 0))) = .ok s' ∧ s'.pageFreeList = some p ∧
      s'.envs = s.envs ∧ userPte s'.phys d 1 = some w ∧ frame w = p := by
  have hs := ha.settled.setCurenv (some e)
  have hupn : 0 < upn := by
    rw [upn_eq]
    omega
  have hpd : (s.envs e).envPgdir = some d := pgdir_of_dirsOf ha.dir
  have hsrc := ha.entries (e, 0)
  rw [if_pos ⟨rfl, Nat.zero_le _⟩] at hsrc
  have hcases := hs.ledger.typed.pageLookup (e := e) ha.dir (pageVa_lt hupn)
  rw [pgnum_pageVa hupn] at hcases
  rcases hcases with ⟨h0, -⟩ | ⟨t, w, hpres, ht, htab, -, -, hdata, hw, hlook⟩
  · exact nomatch h0.symm.trans hsrc
  obtain rfl := Option.some.inj (hw.symm.trans hsrc)
  rw [frame_entry ha.page toNat_readOnly] at hlook hdata
  -- the count of 65537 mappings is one
  have href : (s.pages p).ppRef = 1#16 := by
    have hcount := ha.settled.ledger.count (q := p) (by rw [hdata]; simp)
    rw [ha.refCount_eq (by rw [upn_eq]; omega), hdata, Role.own_data] at hcount
    rw [hcount]
    decide
  have hlink : s.links p = none := ha.settled.ledger.typed.free.link (by rw [hdata]; simp)
  have hremove := pageRemove_of_lookup_some hlook hlink
  have hdrop : (s.setCurenv (some e)).dropRef p = ((s.setCurenv (some e)).decRef p).pushFree p :=
    if_pos href
  refine ⟨(s.setCurenv (some e)).unmapEntry d (pageVa 0) t (ptx (pageVa 0)) p,
    page2pa p ||| readOnly ||| pteP, ?_, ?_, ?_, ?_, frame_entry ha.page toNat_readOnly⟩
  · have hrun : (s.setCurenv (some e)).sysPageUnmap 0#32 (pageVa 0) =
        .ok (0, (s.setCurenv (some e)).unmapEntry d (pageVa 0) t (ptx (pageVa 0)) p) := by
      unfold Kernel.sysPageUnmap
      rw [envid2env_zero, ok_bind]
      simp only [ne_eq, not_true_eq_false, if_false]
      rw [if_neg (not_or.mpr ⟨BitVec.not_le.mpr (pageVa_lt hupn), not_unaligned_pageVa hupn⟩),
        deref_some, ok_bind]
      show (deref (s.envs e).envPgdir >>= fun d => _) = _
      rw [hpd, deref_some, ok_bind, hremove, ok_bind]
      rfl
    rw [exec, handle, returning_ok hrun]
    rfl
  · rw [unmapEntry, (rest_tlbInvalidate _ d _).1]
    show ((s.setCurenv (some e)).dropRef p).pageFreeList = _
    rw [hdrop]
    rfl
  · rw [unmapEntry, (rest_tlbInvalidate _ d _).2]
    show ((s.setCurenv (some e)).dropRef p).envs = _
    rw [hdrop]
    rfl
  · -- the entry of the next page is in the same table
    have hone := ha.entries (e, 1)
    rw [if_pos ⟨rfl, by omega⟩] at hone
    obtain ⟨-, d', hd', hpres', hentry, hwp⟩ := exists_of_entryOf hone
    rw [ha.dir] at hd'
    obtain rfl := Option.some.inj hd'
    have hindex : pdx (pageVa 0) = 0 ∧ ptx (pageVa 0) = 0 := by decide
    rw [hindex.1] at ht
    have ht' : frame (s.phys d 0) = t := ht
    have htd : d ≠ t := ne_of_role ρ (by
      rw [htab, ha.settled.ledger.typed.tree.dir.mp ha.dir]
      simp)
    have hphys : ∀ f i, ¬ (f = t ∧ i = 0) → ((s.setCurenv (some e)).unmapEntry d (pageVa 0) t
        (ptx (pageVa 0)) p).phys f i = s.phys f i := by
      intro f i hfi
      rw [unmapEntry, phys_tlbInvalidate, hdrop, hindex.2]
      show (if f = t ∧ i = 0 then 0#32 else s.phys f i) = _
      exact if_neg hfi
    have hzero : 1 / nptentries = 0 ∧ 1 % nptentries = 1 := by decide
    rw [hzero.1] at hpres' hentry
    rw [hzero.2, ht'] at hentry
    unfold userPte
    dsimp only
    rw [hzero.1, hzero.2, hphys d 0 (fun h0 => htd h0.1), ht', hphys t 1 (by omega), hentry,
      if_pos ⟨hpres', hwp⟩]

/-- **A page that is freed while it is mapped.** -/
theorem not_freeUnmapped : ¬ ∀ (h : Hardware) (s₀ s : Kernel), bootUp h = .ok s₀ →
    Run (fun _ op => Within op) s₀ s → FreeUnmapped s := by
  intro hall
  obtain ⟨s₀, hboot⟩ := machine64_boots
  obtain ⟨s, e, d, ρ, spare, hexec, hfirst, hcard⟩ := firstEnv_of_bootUp hboot
  have hlen := length_allocatable_machine64
  obtain ⟨p, hruns⟩ := hfirst.aliases (by omega)
  obtain ⟨s₁, ρ₁, spare₁, hrun, ha⟩ := hruns 65536 le_rfl
  obtain ⟨s₂, w, hunmap, hhead, henvs, hw, hframe⟩ := ha.unmap
  have hwithin : Within (.envAlloc 0#32) := show 0#32 &&& ~~~ pteSyscall = 0#32 by decide
  have hwithin' : Within (.call e (.pageUnmap 0#32 (pageVa 0))) :=
    show 0#32 &&& ~~~ pteSyscall = 0#32 by decide
  have hfirstRun : Run (fun _ op => Within op) s₀ s :=
    .single ⟨.envAlloc 0#32, trivial, hwithin, hexec⟩
  have hruns₁ : Run (fun _ op => Within op) s₀ s₁ := hfirstRun.trans hrun
  have hall' := hall _ s₀ s₂ hboot (hruns₁.call ha.live rfl hwithin' hunmap)
  have hpd : (s₁.envs e).envPgdir = some d := pgdir_of_dirsOf ha.dir
  have hno := (hall' e d 1 w (by rw [Live, henvs]; exact ha.live) (by rw [henvs]; exact hpd)
    (by rw [upn_eq]; omega) hw).1
  rw [hframe] at hno
  refine hno ?_
  rw [InFreeList, hhead]
  exact .head

end Kernel
end PmakeOs
