import PmakeOs.Space.Reachable

/-!
# What user entries may point to

`page_insert` or-s `perm` into the table entry and into the directory entry, and the handlers
check that `PTE_U` and `PTE_P` are set in it, but not that nothing else is.  The comment above
`sys_page_alloc` says that no bits may be set but those of `PTE_SYSCALL`.

`Isolated h s` is what isolation asks of the tables: an entry points to the page that
`page_insert` was given there, and this page was handed out for user data; a directory entry
points to the page that `pgdir_walk` took for the table.  Runs keep it if no operation has a
bit of `perm` above the flags, and none takes down a mapping whose count has wrapped
(`isolated_of_run`).  One call with a bit above the flags breaks it (`not_isolated`).
-/

namespace PmakeOs

open Lib

namespace Kernel

variable {s s' s₀ : Kernel} {ρ : ℕ → Role} {h : Hardware} {c e d p q vpn : ℕ} {w va perm : Word}

/-- Frame `f` holds a directory or a table. -/
def IsPaging (s : Kernel) (f : ℕ) : Prop :=
  f = s.kernPgdir ∨ IsKernTable s f ∨ IsEnvPgdir s f ∨ tableRefs s f ≠ 0

/-- What isolation asks of the tables of live environments. -/
structure Isolated (h : Hardware) (s : Kernel) : Prop where
  /-- An entry points to a page of the allocator, which is not page zero, a page of the I/O
  hole or of the kernel, and which is what `page_insert` was given. -/
  entry : ∀ {e d vpn w}, Live s e → (s.envs e).envPgdir = some d → vpn < upn →
    userPte s.phys d vpn = some w → frame w ∈ allocatable h ∧
      lastHandout s.log (frame w) = some (.userPage (frame w)) ∧
      lastInsert s.log d vpn = some (frame w) ∧ ¬ IsPaging s (frame w)
  table : ∀ {e d i}, Live s e → (s.envs e).envPgdir = some d → i < pdx utop →
    Has (s.phys d i) pteP → lastTable s.log d i = some (frame (s.phys d i))

/-- The operation has no bit of `perm` above the flags, and takes down no mapping of a page
whose count has wrapped. -/
def Harmless (s : Kernel) (op : MemOp) : Prop :=
  op.perm.toNat < 2 ^ 12 ∧ ∀ e va, Touches s op e va → Droppable s e va

theorem entryOf_of_userPte (hd : dirsOf s e = some d) (hvpn : vpn < upn)
    (hw : userPte s.phys d vpn = some w) : entryOf s.phys (dirsOf s) (e, vpn) = some w := by
  rw [entryOf, if_pos hvpn, hd]
  exact hw

/-- A data frame is neither a directory nor a table. -/
theorem Sound.not_isPaging (hs : Settled s ρ) (hq : ρ q = .data) : ¬ IsPaging s q := by
  rintro (rfl | hkern | hdir | htab)
  · rw [hs.layout.kern] at hq
    cases hq
  · rw [hs.isKernTable_iff, hq] at hkern
    cases hkern
  · obtain ⟨e, he⟩ := hs.isEnvPgdir_iff.mp hdir
    rw [hq] at he
    cases he
  · exact htab (hs.tableRefs_eq_zero fun e i h0 => nomatch hq.symm.trans h0)

theorem Sound.isolated (hs : Settled s ρ) (hl : Logged s ρ)
    (hres : ∀ f, ρ f = .reserved ↔ f ∉ allocatable h) : Isolated h s := by
  refine ⟨fun {e d vpn w} hlive hpd hvpn hw => ?_, fun hlive hpd hi hp => ?_⟩
  · have hd := dirsOf_of_pgdir hlive hpd
    have hentry := entryOf_of_userPte hd hvpn hw
    have hdata := hs.ledger.typed.tree.role_of_entryOf hentry
    refine ⟨?_, hl.data hdata, hl.entry hd hentry, hs.not_isPaging hdata⟩
    by_contra hno
    rw [(hres _).mpr hno] at hdata
    cases hdata
  · exact hl.table (dirsOf_of_pgdir hlive hpd) hi hp

/-- **Runs of harmless operations keep the tables isolated.** -/
theorem isolated_of_run (hboot : bootUp h = .ok s₀) (hrun : Run Harmless s₀ s) : Isolated h s := by
  obtain ⟨ρ₀, hset, hlog, hres⟩ := settled_of_bootUp hboot
  obtain ⟨ρ, hk⟩ := hrun.kept (fun _ _ hK => hK.1) (fun _ _ hK => hK.2) hset hlog
  exact hk.settled.isolated hk.logged fun f => (hk.reserved f).trans (hres f)

/-! ## A stray bit -/

theorem FreeTyped.exists_head (ht : FreeTyped s ρ) (hq : ρ q = .free) :
    ∃ p, s.pageFreeList = some p := by
  obtain ⟨l, hl, hmem⟩ := ht.list
  have hql := (hmem q).mpr hq
  rw [hl.head_eq]
  cases l with
  | nil => exact absurd hql List.not_mem_nil
  | cons p l => exact ⟨p, rfl⟩

/-- The state after `sys_page_alloc` has taken page `p` for the data and page `t` for the
table. -/
def allocInto (s : Kernel) (c d p t : ℕ) (va perm : Word) : Kernel :=
  (((((s.setCurenv (some c)).takePage p).note (.userPage p)).addTable d (pdx va) t).incRef
    p).storeEntry d va t (ptx va) p perm

/-- **`sys_page_alloc` into a table that is not there yet**: it takes a page for the data and a
page for the table, whatever bits `perm` has. -/
theorem Sound.exec_pageAlloc (perm : Word) (hs : Settled s ρ) (hd : dirsOf s c = some d)
    (hva : va < utop) (hal : ¬ Unaligned va) (hperm : perm &&& (pteU ||| pteP) = pteU ||| pteP)
    (hno : ¬ Has (s.phys d (pdx va)) pteP) {q r : ℕ} (hq : ρ q = .free) (hr : ρ r = .free)
    (hqr : q ≠ r) : ∃ p t, s.pageFreeList = some p ∧ ρ t = .free ∧ t ≠ p ∧
      s.exec (.call c (.pageAlloc 0#32 va perm)) = .ok (s.allocInto c d p t va perm) := by
  obtain ⟨p, hl⟩ := hs.ledger.typed.free.exists_head hq
  have hfree := hs.ledger.typed.free.role_of_head hl
  have hplt := hs.ledger.typed.lt (p := p) (by rw [hfree]; simp)
  have hw := hs.ledger.typed.window
  have hpd : (s.envs c).envPgdir = some d := pgdir_of_dirsOf hd
  have hdir := hs.ledger.typed.tree.dir.mp hd
  have hdp : d ≠ p := ne_of_role ρ (by rw [hdir, hfree]; simp)
  -- one of the two pages is left for the table
  have hled := (hs.ledger.takePage hl).note (.userPage p)
  obtain ⟨t₀, ht₀, ht₀p⟩ : ∃ t, ρ t = .free ∧ t ≠ p := by
    rcases eq_or_ne q p with rfl | hne
    · exact ⟨r, hr, hqr.symm⟩
    · exact ⟨q, hq, hne⟩
  obtain ⟨t, hlt⟩ := hled.typed.free.exists_head (q := t₀) (by rw [Function.update_of_ne ht₀p]; exact ht₀)
  have htrole := hled.typed.free.role_of_head hlt
  have htp : t ≠ p := by
    rintro rfl
    rw [Function.update_self] at htrole
    cases htrole
  rw [Function.update_of_ne htp] at htrole
  have htlt := hs.ledger.typed.lt (p := t) (by rw [htrole]; simp)
  refine ⟨p, t, hl, htrole, htp, ?_⟩
  have htd : t ≠ d := ne_of_role ρ (by rw [hdir, htrole]; simp)
  have henv : (s.setCurenv (some c)).envid2env 0#32 true = .ok (0, some c) := by
    unfold envid2env
    rw [if_pos rfl, curenv_setCurenv]
    rfl
  have halloc : (s.setCurenv (some c)).pageAlloc allocZero =
      .ok (some p, (s.setCurenv (some c)).takePage p) :=
    pageAlloc_of_cons hl hplt (lt_of_lt_of_le hplt hw)
  have hwalk : (((s.setCurenv (some c)).takePage p).note (.userPage p)).pgdirWalk d va true =
      .ok (some (t, ptx va), (((s.setCurenv (some c)).takePage p).note (.userPage p)).addTable d
        (pdx va) t) := by
    refine pgdirWalk_of_alloc ?_ hlt htlt hw
    simpa [Kernel.takePage, Kernel.note, zeroFrame, setPage, setCurenv, setCpu, hdp] using hno
  have hzero : ¬ Has (((((s.setCurenv (some c)).takePage p).note (.userPage p)).addTable d (pdx va)
      t).phys t (ptx va)) pteP := by
    have hword : ((((s.setCurenv (some c)).takePage p).note (.userPage p)).addTable d (pdx va)
        t).phys t (ptx va) = 0#32 := by
      simp [addTable, Kernel.takePage, Kernel.incRef, Kernel.note, zeroFrame, setPage, setWord, htd]
    rw [hword]
    exact not_has_zero _
  have hins : (((s.setCurenv (some c)).takePage p).note (.userPage p)).pageInsert d p va perm =
      .ok (0, s.allocInto c d p t va perm) := pageInsert_of_unused hwalk hzero
  have hrun : (s.setCurenv (some c)).sysPageAlloc 0#32 va perm =
      .ok (0, s.allocInto c d p t va perm) := by
    unfold Kernel.sysPageAlloc
    rw [henv, ok_bind]
    simp only [ne_eq, not_true_eq_false, if_false]
    rw [if_neg (not_or.mpr ⟨BitVec.not_le.mpr hva, hal⟩), if_neg (not_not.mpr hperm), halloc, ok_bind]
    show (deref (some c) >>= fun e => _) = _
    rw [deref_some, ok_bind]
    show (deref (s.envs c).envPgdir >>= fun d => _) = _
    rw [hpd, deref_some, ok_bind, hins, ok_bind]
    rfl
  rw [Kernel.exec, Kernel.handle, returning_ok hrun]
  rfl

/-- The directory entry afterwards, and what the log says about it. -/
theorem pde_allocInto {t : ℕ} (htd : t ≠ d) (s : Kernel) (c p : ℕ) (va perm : Word) :
    (s.allocInto c d p t va perm).phys d (pdx va) =
        page2pa t ||| pteP ||| pteU ||| pteW ||| perm ∧
      lastTable (s.allocInto c d p t va perm).log d (pdx va) = some t := by
  constructor
  · simp [allocInto, Kernel.storeEntry, addTable, Kernel.takePage, Kernel.incRef, Kernel.note,
      zeroFrame, setPage, setWord, htd.symm]
  · simp [allocInto, Kernel.storeEntry, addTable, Kernel.takePage, Kernel.incRef, Kernel.note,
      zeroFrame, setPage, setWord, setCurenv, setCpu, lastTable, Event.tableAt, List.findSome?_cons]

/-! ## The first environment -/

/-- What `env_alloc` leaves when it is called right after boot: an empty address space, and
free pages. -/
structure FirstEnv (s : Kernel) (e d : ℕ) (ρ : ℕ → Role) (spare : Finset ℕ) : Prop where
  settled : Settled s ρ
  live : Live s e
  dir : dirsOf s e = some d
  empty : ∀ i < pdx utop, ¬ Has (s.phys d i) pteP
  entries : ∀ x, entryOf s.phys (dirsOf s) x = none
  free : ∀ p ∈ spare, ρ p = .free

/-- All pages of the allocator are free after boot, but for the tables of `kern_pgdir`. -/
theorem spare_of_bootUp (hboot : bootUp h = .ok s) (hset : Settled s ρ) :
    ∃ spare : Finset ℕ, (allocatable h).length ≤ spare.card + 68 ∧ ∀ p ∈ spare, ρ p = .free := by
  unfold bootUp at hboot
  obtain ⟨s₁, hmem, hr⟩ := bind_eq_ok.mp hboot
  obtain rfl := Except.ok.inj hr
  obtain ⟨-, -, -, -, l, hb, -⟩ := booting_of_memInit hmem
  have heq := envInit_eq s₁
  obtain ⟨l', hl', hfree⟩ := hset.ledger.typed.free.list
  have hlist : Threads s₁.envInit.links s₁.envInit.pageFreeList l := by
    rw [heq]
    exact hb.pool.list
  refine ⟨l.toFinset, ?_, fun p hp => ?_⟩
  · rw [List.toFinset_card_of_nodup hb.pool.nodup]
    exact hb.length_le (nodup_usablePages _ _)
  · rw [List.mem_toFinset] at hp
    exact (hfree p).mp (hl'.linked_iff.mp (hlist.linked_iff.mpr hp))

theorem firstEnv_of_bootUp (hboot : bootUp h = .ok s₀) :
    ∃ s e d ρ spare, s₀.exec (.envAlloc 0#32) = .ok s ∧ FirstEnv s e d ρ spare ∧
      (allocatable h).length ≤ spare.card + 69 := by
  obtain ⟨ρ, hset, -, -⟩ := settled_of_bootUp hboot
  obtain ⟨e, p, he, hl⟩ := free_of_bootUp hboot
  obtain ⟨hset', -⟩ := hset.openEnv (Q := fun _ => True) he hl 0#32
  obtain ⟨spare, hcard, hspare⟩ := spare_of_bootUp hboot hset
  have hfree := hset.ledger.typed.free.role_of_head hl
  have hpk : p ≠ s₀.kernPgdir := hset.layout.ne_kernPgdir (by rw [hfree]; simp)
  refine ⟨s₀.openEnv e p 0#32, e, p, Function.update ρ p (.dir e), spare.erase p, ?_,
    ⟨hset', (live_openEnv s₀ e p 0#32 e).mpr (Or.inl rfl), ?_, fun i hi => ?_, fun x => ?_,
      fun q hq => ?_⟩, ?_⟩
  · rw [exec, hset.envAlloc_of_free he hl]
    rfl
  · rw [dirsOf_openEnv, Function.update_self]
  · have hne : i ≠ pdx uvpt := by
      rintro rfl
      exact absurd hi (by decide)
    rw [openEnv_phys s₀ e 0#32 hpk, if_pos rfl, if_neg hne]
    exact hset.layout.low hi
  · rw [entryOf_openEnv hset he hl]
    exact no_entry_of_bootUp hboot x
  · rw [Finset.mem_erase] at hq
    rw [Function.update_of_ne hq.1]
    exact hspare q hq.2
  · have := Finset.pred_card_le_card_erase (s := spare) (a := p)
    omega

/-- The first environment maps a page at address zero. -/
theorem isolated_of_run_firstPage : ∃ s₀ s e d p t, bootUp machine64 = .ok s₀ ∧
    s₀.exec (.envAlloc 0#32) = .ok s ∧
    Run Harmless s₀ (s.allocInto e d p t 0#32 (pteU ||| pteP)) ∧
    Isolated machine64 (s.allocInto e d p t 0#32 (pteU ||| pteP)) := by
  obtain ⟨s₀, hboot⟩ := machine64_boots
  obtain ⟨s, e, d, ρ, spare, hexec, hfirst, hcard⟩ := firstEnv_of_bootUp hboot
  have h90 : 90 < (allocatable machine64).length := length_usablePages (by decide)
  obtain ⟨q, hq, r, hr, hqr⟩ := Finset.one_lt_card.mp (show 1 < spare.card by omega)
  obtain ⟨p, t, -, -, -, hexec'⟩ := hfirst.settled.exec_pageAlloc (pteU ||| pteP)
    hfirst.dir (show 0#32 < utop by decide) (by decide) (by decide) (hfirst.empty _ (by decide))
    (hfirst.free q hq) (hfirst.free r hr) hqr
  have hboots : Harmless s₀ (.envAlloc 0#32) := ⟨by decide, nofun⟩
  have hmaps : Harmless s (.call e (.pageAlloc 0#32 0#32 (pteU ||| pteP))) := by
    refine ⟨show (pteU ||| pteP).toNat < 2 ^ 12 by decide, fun e' va _ w hw => ?_⟩
    rw [hfirst.entries] at hw
    cases hw
  have hrun : Run Harmless s₀ (s.allocInto e d p t 0#32 (pteU ||| pteP)) :=
    .tail (.single ⟨.envAlloc 0#32, trivial, hboots, hexec⟩)
      ⟨.call e (.pageAlloc 0#32 0#32 (pteU ||| pteP)), ⟨hfirst.live, rfl⟩, hmaps, hexec'⟩
  exact ⟨s₀, s, e, d, p, t, hboot, hexec, hrun, isolated_of_run hboot hrun⟩

/-- **A call with stray bits.**  The first environment maps a page at address zero, and the
directory entry points to the last frame there could be. -/
theorem not_isolated : ¬ ∀ (h : Hardware) (s₀ s : Kernel), bootUp h = .ok s₀ →
    Run (fun _ _ => True) s₀ s → Isolated h s := by
  intro hall
  obtain ⟨s₀, hboot⟩ := machine64_boots
  obtain ⟨s, e, d, ρ, spare, hexec, hfirst, hcard⟩ := firstEnv_of_bootUp hboot
  have h90 : 90 < (allocatable machine64).length := length_usablePages (by decide)
  obtain ⟨q, hq, r, hr, hqr⟩ := Finset.one_lt_card.mp (show 1 < spare.card by omega)
  obtain ⟨p, t, -, ht, -, hexec'⟩ := hfirst.settled.exec_pageAlloc 0xFFFFF007#32
    hfirst.dir (show 0#32 < utop by decide) (by decide) (by decide) (hfirst.empty _ (by decide))
    (hfirst.free q hq) (hfirst.free r hr) hqr
  have htyped := hfirst.settled.ledger.typed
  have htd : t ≠ d := ne_of_role ρ (by rw [ht, htyped.tree.dir.mp hfirst.dir]; simp)
  have htw : t < kernWindow := htyped.lt_kernWindow (by rw [ht]; simp)
  obtain ⟨hpde, hlog⟩ := pde_allocInto htd s e p 0#32 0xFFFFF007#32
  have hrun : Run (fun _ _ => True) s₀ (s.allocInto e d p t 0#32 0xFFFFF007#32) :=
    .tail (.single ⟨.envAlloc 0#32, trivial, trivial, hexec⟩)
      ⟨.call e (.pageAlloc 0#32 0#32 0xFFFFF007#32), ⟨hfirst.live, rfl⟩, trivial, hexec'⟩
  have hpd : (s.envs e).envPgdir = some d := pgdir_of_dirsOf hfirst.dir
  have hpres : Has ((s.allocInto e d p t 0#32 0xFFFFF007#32).phys d (pdx 0#32)) pteP := by
    have hP : Has 0xFFFFF007#32 pteP := by decide
    rw [hpde]
    simp [hP]
  -- the frame number in the entry is not that of the table
  have htable := (hall _ s₀ _ hboot hrun).table (e := e) hfirst.live hpd (by decide) hpres
  rw [hlog, hpde, Option.some.injEq, frame_eq, BitVec.toNat_or] at htable
  have hge : (0xFFFFF007#32 : Word).toNat ≤
      (page2pa t ||| pteP ||| pteU ||| pteW).toNat ||| (0xFFFFF007#32 : Word).toNat :=
    Nat.right_le_or
  have hval : (0xFFFFF007#32 : Word).toNat = 0xFFFFF007 := by decide
  rw [kernWindow] at htw
  omega

end Kernel
end PmakeOs
