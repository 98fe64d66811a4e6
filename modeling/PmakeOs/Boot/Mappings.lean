import PmakeOs.Boot.Accepts
import PmakeOs.Paging.Refinement

/-!
# `boot_map_region` on any directory

The kernel calls `boot_map_region` with `kern_pgdir`, but what it does to a directory does
not depend on that: `PrivateTables s d l` asks that every table of `d` is a page of its
own, and that the free list is `l`.  One round adds a table if there is none and stores an
entry (`PrivateTables.addTable`, `PrivateTables.setEntry`), and the loop is followed with
`Mapping`: which pages are mapped so far, which tables are new.

The addresses wrap.  A region may reach the end of the address space, as the one at
`KERNBASE` does, and go on at its beginning.

The directory shows its tables in the window at `UVPT`.  When a table is added, its page
appears there: this is the one translation outside the region that changes.
-/

namespace PmakeOs

open Lib

namespace Kernel

variable {s s' x : Kernel} {d p i j k n : ℕ} {l l' : List ℕ} {w va pa perm size : Word}

/-- The translation of a virtual page: the frame, and the flags of the entry. -/
def translation (m : Phys) (d vpn : ℕ) : Option (ℕ × Word) :=
  (userPte m d vpn).map fun w => (frame w, pteFlags w)

/-- Every table of `d` is a page of its own, but for the directory at `UVPT`. -/
structure PrivateTables (s : Kernel) (d : ℕ) (l : List ℕ) : Prop where
  /-- All of memory has kernel addresses; `check_page_free_list` asserts it. -/
  window : s.npages ≤ kernWindow
  list : Threads s.links s.pageFreeList l
  lt : ∀ p ∈ l, p < s.npages
  dir : d ∉ l
  self : Has (s.phys d (pdx uvpt)) pteP → frame (s.phys d (pdx uvpt)) = d
  table : ∀ i < npdentries, i ≠ pdx uvpt → Has (s.phys d i) pteP →
    frame (s.phys d i) < s.npages ∧ frame (s.phys d i) ≠ d ∧ frame (s.phys d i) ∉ l
  inj : ∀ i < npdentries, ∀ i' < npdentries, i ≠ pdx uvpt → i' ≠ pdx uvpt →
    Has (s.phys d i) pteP → Has (s.phys d i') pteP → frame (s.phys d i) = frame (s.phys d i') →
      i = i'

/-- The tables of `kern_pgdir` are such while memory is set up. -/
theorem Booting.privateTables {U : List ℕ} {E : ℕ → Word} (h : Booting U s l E) :
    PrivateTables s s.kernPgdir l := by
  have hkern : ∀ i < npdentries, i ≠ pdx uvpt → Has (s.phys s.kernPgdir i) pteP → KernIndex i := by
    intro i hi hu hp
    refine ⟨?_, hi, hu⟩
    by_contra hlt
    rw [h.dir.low i (Nat.not_le.mp hlt)] at hp
    exact not_has_zero _ hp
  refine ⟨h.window, h.pool.list, h.pool.lt, fun h0 => h.kern (h.sub _ h0), fun _ => h.dir.self.frame,
    fun i hi hu hp => ?_, fun i hi i' hi' hu hu' hp hp' hf => ?_⟩
  · have hik := hkern i hi hu hp
    obtain ⟨-, -, hU, hl, -⟩ := h.dir.of_present hik hp
    exact ⟨h.lt _ hU, h.table_ne hik hp, hl⟩
  · exact h.dir.inj i i' (hkern i hi hu hp) (hkern i' hi' hu' hp') hp hp' hf

/-! ## A store into a table -/

theorem phys_setEntry (h : PrivateTables s d l) (hi : i < npdentries) (hu : i ≠ pdx uvpt)
    (hp : Has (s.phys d i) pteP) : (s.setWord (frame (s.phys d i)) j w).phys d = s.phys d := by
  have hne := (h.table i hi hu hp).2.1
  funext k
  simp [setWord, hne.symm]

theorem PrivateTables.setEntry (h : PrivateTables s d l) (hi : i < npdentries)
    (hu : i ≠ pdx uvpt) (hp : Has (s.phys d i) pteP) :
    PrivateTables (s.setWord (frame (s.phys d i)) j w) d l := by
  have hD := phys_setEntry (j := j) (w := w) h hi hu hp
  refine ⟨h.window, h.list, h.lt, h.dir, ?_, ?_, ?_⟩
  · rw [hD]
    exact h.self
  · rw [hD]
    exact h.table
  · rw [hD]
    exact h.inj

/-- It is seen at one virtual page. -/
theorem PrivateTables.userPte_setEntry (h : PrivateTables s d l) (hi : i < npdentries)
    (hu : i ≠ pdx uvpt) (hp : Has (s.phys d i) pteP) (hj : j < nptentries) (hw : Has w pteP)
    {vpn : ℕ} (hlt : vpn < 2 ^ 20) :
    userPte (s.setWord (frame (s.phys d i)) j w).phys d vpn =
      if vpn = i * nptentries + j then some w else userPte s.phys d vpn := by
  have hD := phys_setEntry (j := j) (w := w) h hi hu hp
  have hne := (h.table i hi hu hp).2.1
  unfold userPte
  rw [hD]
  by_cases hvpn : vpn = i * nptentries + j
  · have hdiv : vpn / nptentries = i := by
      rw [nptentries] at hj hvpn ⊢
      omega
    have hmod : vpn % nptentries = j := by
      rw [nptentries] at hj hvpn ⊢
      omega
    have hword : (s.setWord (frame (s.phys d i)) j w).phys (frame (s.phys d i)) j = w := by
      simp [setWord]
    dsimp only
    rw [if_pos hvpn, hdiv, hmod, hword, if_pos ⟨hp, hw⟩]
  · rw [if_neg hvpn]
    by_cases hp' : Has (s.phys d (vpn / nptentries)) pteP
    · have hoff : ¬ (frame (s.phys d (vpn / nptentries)) = frame (s.phys d i) ∧
          vpn % nptentries = j) := by
        rintro ⟨hf, hmod⟩
        by_cases hu' : vpn / nptentries = pdx uvpt
        · rw [hu'] at hf hp'
          rw [h.self hp'] at hf
          exact hne hf.symm
        · have heq := h.inj _ (by rw [nptentries, npdentries]; omega) _ hi hu' hu hp' hp hf
          rw [nptentries] at hvpn heq hmod
          omega
      have hword : (s.setWord (frame (s.phys d i)) j w).phys (frame (s.phys d (vpn / nptentries)))
          (vpn % nptentries) = s.phys (frame (s.phys d (vpn / nptentries))) (vpn % nptentries) := by
        simp [setWord, hoff]
      dsimp only
      rw [hword]
    · dsimp only
      rw [if_neg (fun h0 => hp' h0.1), if_neg (fun h0 => hp' h0.1)]

/-! ## A new table -/

/-- The words of memory after a page of the free list has become a table. -/
theorem addTable_phys (s : Kernel) (d i p f k : ℕ) : (s.addTable d i p).phys f k =
    if f = d ∧ k = i then page2pa p ||| pteP ||| pteU ||| pteW
    else if f = p then 0#32 else s.phys f k := rfl

theorem addTable_phys_dir (hpd : p ≠ d) : (s.addTable d i p).phys d =
    Function.update (s.phys d) i (page2pa p ||| pteP ||| pteU ||| pteW) := by
  funext k
  rw [addTable_phys, Function.update_apply]
  by_cases hk : k = i
  · simp [hk]
  · simp [hk, hpd.symm]

theorem PrivateTables.addTable (h : PrivateTables s d (p :: l)) (hi : i < npdentries)
    (hu : i ≠ pdx uvpt) (hno : ¬ Has (s.phys d i) pteP) :
    PrivateTables (s.addTable d i p) d l := by
  have hp : p < s.npages := h.lt p List.mem_cons_self
  have hpd : p ≠ d := by
    rintro rfl
    exact h.dir List.mem_cons_self
  have hnd := List.nodup_cons.mp h.list.nodup
  have hlead := leadsTo_tableEntry (lt_of_lt_of_le hp h.window)
  have hD := addTable_phys_dir (s := s) (i := i) hpd
  have hfr : ∀ k < npdentries, k ≠ pdx uvpt → Has (s.phys d k) pteP → frame (s.phys d k) ≠ p := by
    intro k hk hku hkp h0
    obtain ⟨-, -, hnl⟩ := h.table k hk hku hkp
    rw [h0] at hnl
    exact hnl List.mem_cons_self
  refine ⟨h.window, ?_, fun q hq => h.lt q (List.mem_cons_of_mem _ hq),
    fun h0 => h.dir (List.mem_cons_of_mem _ h0), ?_, ?_, ?_⟩
  · have hlist := h.list
    rw [hlist.head_eq, List.head?_cons] at hlist
    obtain ⟨l', hl', hpop⟩ := hlist.pop
    obtain ⟨-, rfl⟩ := List.cons.inj hl'
    show Threads ((s.takePage p).incRef p).links _ _
    rw [links_incRef, links_takePage]
    exact hpop
  · rw [hD, Function.update_of_ne hu.symm]
    exact h.self
  · intro k hk hku hkp
    rw [hD] at hkp ⊢
    rcases eq_or_ne k i with rfl | hki
    · rw [Function.update_self, hlead.frame]
      exact ⟨hp, hpd, hnd.1⟩
    · rw [Function.update_of_ne hki] at hkp ⊢
      obtain ⟨h₁, h₂, h₃⟩ := h.table k hk hku hkp
      exact ⟨h₁, h₂, fun h0 => h₃ (List.mem_cons_of_mem _ h0)⟩
  · intro k hk k' hk' hku hku' hkp hkp' hf
    rw [hD] at hkp hkp' hf
    rcases eq_or_ne k i with rfl | hki
    · rcases eq_or_ne k' k with rfl | hki'
      · rfl
      · rw [Function.update_of_ne hki'] at hkp' hf
        rw [Function.update_self, hlead.frame] at hf
        exact absurd hf.symm (hfr k' hk' hku' hkp')
    · rw [Function.update_of_ne hki] at hkp hf
      rcases eq_or_ne k' i with rfl | hki'
      · rw [Function.update_self, hlead.frame] at hf
        exact absurd hf (hfr k hk hku hkp)
      · rw [Function.update_of_ne hki'] at hkp' hf
        exact h.inj k hk k' hk' hku hku' hkp hkp' hf

/-- It is empty, so nothing is seen of it but in the window at `UVPT`. -/
theorem PrivateTables.userPte_addTable (h : PrivateTables s d (p :: l))
    (hno : ¬ Has (s.phys d i) pteP) {vpn : ℕ} (hlt : vpn < 2 ^ 20)
    (hvpn : vpn ≠ pdx uvpt * nptentries + i) :
    userPte (s.addTable d i p).phys d vpn = userPte s.phys d vpn := by
  have hp : p < s.npages := h.lt p List.mem_cons_self
  have hpd : p ≠ d := by
    rintro rfl
    exact h.dir List.mem_cons_self
  have hlead := leadsTo_tableEntry (lt_of_lt_of_le hp h.window)
  unfold userPte
  rw [addTable_phys_dir hpd]
  dsimp only
  by_cases hdi : vpn / nptentries = i
  · -- the new table is empty
    have hword : (s.addTable d i p).phys p (vpn % nptentries) = 0#32 := by
      rw [addTable_phys, if_neg (fun h0 => hpd h0.1), if_pos rfl]
    rw [hdi, Function.update_self, hlead.frame, hword, if_neg (fun h0 => not_has_zero _ h0.2),
      if_neg (fun h0 => hno h0.1)]
  · rw [Function.update_of_ne hdi]
    by_cases hp' : Has (s.phys d (vpn / nptentries)) pteP
    · have hword : (s.addTable d i p).phys (frame (s.phys d (vpn / nptentries)))
          (vpn % nptentries) = s.phys (frame (s.phys d (vpn / nptentries))) (vpn % nptentries) := by
        rw [addTable_phys]
        by_cases hu' : vpn / nptentries = pdx uvpt
        · rw [hu'] at hp' ⊢
          rw [h.self hp', if_neg, if_neg hpd.symm]
          rintro ⟨-, hmod⟩
          rw [nptentries] at hvpn hu' hmod
          omega
        · obtain ⟨-, h₂, h₃⟩ := h.table _ (by rw [nptentries, npdentries]; omega) hu' hp'
          rw [if_neg (fun h0 => h₂ h0.1), if_neg]
          intro h0
          rw [h0] at h₃
          exact h₃ List.mem_cons_self
      rw [hword]
    · rw [if_neg (fun h0 => hp' h0.1), if_neg (fun h0 => hp' h0.1)]

/-! ## One round -/

/-- What a round does to table `i` of `d`, storing `w` for the virtual page `vpn`. -/
structure Stores (s x : Kernel) (d : ℕ) (l m : List ℕ) (i vpn : ℕ) (w : Word) : Prop where
  tables : PrivateTables x d m
  npages : x.npages = s.npages
  kernPgdir : x.kernPgdir = s.kernPgdir
  dir : ∀ k ≠ i, x.phys d k = s.phys d k
  /-- The table was there, or a page of the free list has become the table. -/
  table : (Has (s.phys d i) pteP ∧ x.phys d i = s.phys d i ∧ m = l ∧
      ∀ q, (x.pages q).ppRef = (s.pages q).ppRef) ∨
    ¬ Has (s.phys d i) pteP ∧ ∃ p, l = p :: m ∧ Has (x.phys d i) pteP ∧ frame (x.phys d i) = p ∧
      ∀ q ≠ p, (x.pages q).ppRef = (s.pages q).ppRef
  entry : ∀ v < 2 ^ 20, v / nptentries ≠ pdx uvpt →
    userPte x.phys d v = if v = vpn then some w else userPte s.phys d v

theorem Stores.present {vpn : ℕ} (h : Stores s x d l l' i vpn w) : Has (x.phys d i) pteP := by
  rcases h.table with ⟨hp, heq, -⟩ | ⟨-, p, -, hp, -⟩
  · rw [heq]
    exact hp
  · exact hp

/-- The entry of round `k`. -/
theorem has_regionEntry (pa perm : Word) : Has (pa ||| pteP ||| perm) pteP := by
  have hp : Has pteP pteP := by decide
  simp [hp]

theorem PrivateTables.bootMapPage_of_present (h : PrivateTables s d l)
    (hu : pdx (va + BitVec.ofNat 32 (k * pgsize)) ≠ pdx uvpt)
    (hp : Has (s.phys d (pdx (va + BitVec.ofNat 32 (k * pgsize)))) pteP) (pa perm : Word) :
    ∃ x, bootMapPage d va pa perm s k = .ok x ∧
      Stores s x d l l (pdx (va + BitVec.ofNat 32 (k * pgsize)))
        (pgnum (va + BitVec.ofNat 32 (k * pgsize)))
        (pa + BitVec.ofNat 32 (k * pgsize) ||| pteP ||| perm) := by
  unfold Kernel.bootMapPage
  have hw := has_regionEntry (pa + BitVec.ofNat 32 (k * pgsize)) perm
  generalize pa + BitVec.ofNat 32 (k * pgsize) ||| pteP ||| perm = w at hw ⊢
  generalize va + BitVec.ofNat 32 (k * pgsize) = va' at hu hp ⊢
  obtain ⟨hlt, hne, -⟩ := h.table _ (pdx_lt va') hu hp
  rw [pgdirWalk_of_present hp hlt h.window]
  refine ⟨_, rfl, h.setEntry (pdx_lt va') hu hp, rfl, rfl, fun k _ => ?_,
    Or.inl ⟨hp, ?_, rfl, fun _ => rfl⟩, fun v hv _ => ?_⟩
  · rw [phys_setEntry h (pdx_lt va') hu hp]
  · rw [phys_setEntry h (pdx_lt va') hu hp]
  · rw [h.userPte_setEntry (pdx_lt va') hu hp (ptx_lt va') hw hv, pgnum_eq_pdx_ptx]

theorem PrivateTables.bootMapPage_of_absent (h : PrivateTables s d (p :: l))
    (hu : pdx (va + BitVec.ofNat 32 (k * pgsize)) ≠ pdx uvpt)
    (hno : ¬ Has (s.phys d (pdx (va + BitVec.ofNat 32 (k * pgsize)))) pteP) (pa perm : Word) :
    ∃ x, bootMapPage d va pa perm s k = .ok x ∧
      Stores s x d (p :: l) l (pdx (va + BitVec.ofNat 32 (k * pgsize)))
        (pgnum (va + BitVec.ofNat 32 (k * pgsize)))
        (pa + BitVec.ofNat 32 (k * pgsize) ||| pteP ||| perm) := by
  unfold Kernel.bootMapPage
  have hw := has_regionEntry (pa + BitVec.ofNat 32 (k * pgsize)) perm
  generalize pa + BitVec.ofNat 32 (k * pgsize) ||| pteP ||| perm = w at hw ⊢
  generalize va + BitVec.ofNat 32 (k * pgsize) = va' at hu hno ⊢
  have hp : p < s.npages := h.lt p List.mem_cons_self
  have hpd : p ≠ d := by
    rintro rfl
    exact h.dir List.mem_cons_self
  have hlead := leadsTo_tableEntry (lt_of_lt_of_le hp h.window)
  have hhead : s.pageFreeList = some p := h.list.head_eq
  have h' := h.addTable (pdx_lt va') hu hno
  have hD := addTable_phys_dir (s := s) (i := pdx va') hpd
  have hword : (s.addTable d (pdx va') p).phys d (pdx va') = page2pa p ||| pteP ||| pteU ||| pteW := by
    rw [hD, Function.update_self]
  have hpres : Has ((s.addTable d (pdx va') p).phys d (pdx va')) pteP := by
    rw [hword]
    exact hlead.present
  have hf : frame ((s.addTable d (pdx va') p).phys d (pdx va')) = p := by
    rw [hword, hlead.frame]
  rw [pgdirWalk_of_alloc hno hhead hp h.window]
  have hset := h'.setEntry (j := ptx va') (w := w) (pdx_lt va') hu hpres
  have hdir := phys_setEntry (j := ptx va') (w := w) h' (pdx_lt va') hu hpres
  rw [hf] at hset hdir
  refine ⟨_, rfl, hset, rfl, rfl, fun k hk => ?_, Or.inr ⟨hno, p, rfl, ?_, ?_, fun q hq => ?_⟩,
    fun v hv hvu => ?_⟩
  · rw [hdir, hD, Function.update_of_ne hk]
  · rw [hdir]
    exact hpres
  · rw [hdir, hf]
  · simp [Kernel.addTable, Kernel.note, setWord, Kernel.incRef, Kernel.takePage, setPage,
      zeroFrame, hq]
  · have hentry := h'.userPte_setEntry (pdx_lt va') hu hpres (ptx_lt va') hw hv
    rw [hf] at hentry
    rw [hentry, pgnum_eq_pdx_ptx, h.userPte_addTable hno hv]
    rintro rfl
    have hi := pdx_lt va'
    rw [nptentries] at hvu
    rw [npdentries] at hi
    omega

/-- Without a page for the table, the round panics. -/
theorem PrivateTables.bootMapPage_of_noMem (h : PrivateTables s d [])
    (hno : ¬ Has (s.phys d (pdx (va + BitVec.ofNat 32 (k * pgsize)))) pteP) (pa perm : Word) :
    bootMapPage d va pa perm s k = .error .bootMapRegion := by
  unfold Kernel.bootMapPage
  rw [pgdirWalk_of_noMem hno h.list.head_eq]
  rfl

/-! ## The loop -/

theorem pgnum_add_mod (va : Word) (k : ℕ) :
    pgnum (va + BitVec.ofNat 32 (k * pgsize)) = (pgnum va + k) % 2 ^ 20 := by
  rw [pgsize, pgnum_eq, pgnum_eq, BitVec.toNat_add, BitVec.toNat_ofNat]
  omega

theorem regionPages_le (size : Word) : regionPages size ≤ 2 ^ 20 := by
  have hs := size.isLt
  rw [regionPages, pgsize]
  split_ifs <;> omega

open Classical in
/-- The tables that have been added. -/
noncomputable def newTables (s x : Kernel) (d : ℕ) : Finset ℕ :=
  (Finset.range npdentries).filter fun i => ¬ Has (s.phys d i) pteP ∧ Has (x.phys d i) pteP

/-- After `n` rounds from `s` with the free list `l`. -/
structure Mapping (s : Kernel) (d : ℕ) (l : List ℕ) (va pa perm : Word) (n : ℕ) (x : Kernel)
    (m : List ℕ) : Prop where
  tables : PrivateTables x d m
  npages : x.npages = s.npages
  kernPgdir : x.kernPgdir = s.kernPgdir
  kept : ∀ i, Has (s.phys d i) pteP → x.phys d i = s.phys d i
  same : ∀ i, (∀ k < n, pdx (va + BitVec.ofNat 32 (k * pgsize)) ≠ i) → x.phys d i = s.phys d i
  count : l.length = m.length + (newTables s x d).card
  mapped : ∀ k < n, userPte x.phys d (pgnum (va + BitVec.ofNat 32 (k * pgsize))) =
    some (pa + BitVec.ofNat 32 (k * pgsize) ||| pteP ||| perm)
  other : ∀ v < 2 ^ 20, v / nptentries ≠ pdx uvpt →
    (∀ k < n, v ≠ pgnum (va + BitVec.ofNat 32 (k * pgsize))) →
      userPte x.phys d v = userPte s.phys d v
  ref : ∀ p, (x.pages p).ppRef ≠ (s.pages p).ppRef →
    ∃ i ∈ newTables s x d, frame (x.phys d i) = p ∧ p ∈ l ∧ p ∉ m
  sub : ∀ p ∈ m, p ∈ l

theorem mem_newTables : i ∈ newTables s x d ↔
    i < npdentries ∧ ¬ Has (s.phys d i) pteP ∧ Has (x.phys d i) pteP := by
  rw [newTables, Finset.mem_filter, Finset.mem_range]

theorem Mapping.zero (h : PrivateTables s d l) (va pa perm : Word) :
    Mapping s d l va pa perm 0 s l := by
  have hnew : newTables s s d = ∅ := by
    ext i
    rw [mem_newTables]
    simp
  refine ⟨h, rfl, rfl, fun _ _ => rfl, fun _ _ => rfl, ?_, fun k hk => ?_, fun _ _ _ _ => rfl,
    fun p hp => absurd rfl hp, fun _ hp => hp⟩
  · rw [hnew, Finset.card_empty, Nat.add_zero]
  · omega

/-- A table that is added in this round. -/
theorem newTables_of_table {m m' : List ℕ} {y : Kernel} {vpn : ℕ} (h : Mapping s d l va pa perm n x m)
    (hst : Stores x y d m m' i vpn w) (hi : i < npdentries) :
    (Has (x.phys d i) pteP → newTables s y d = newTables s x d) ∧
      (¬ Has (x.phys d i) pteP → i ∉ newTables s x d ∧
        newTables s y d = insert i (newTables s x d)) := by
  have hpres := hst.present
  constructor
  · intro hp
    have hsame : y.phys d i = x.phys d i := by
      rcases hst.table with ⟨-, heq, -⟩ | ⟨hno, -⟩
      · exact heq
      · exact absurd hp hno
    ext k
    rw [mem_newTables, mem_newTables]
    rcases eq_or_ne k i with rfl | hk
    · rw [hsame]
    · rw [hst.dir k hk]
  · intro hno
    have hnos : ¬ Has (s.phys d i) pteP := by
      intro hs
      rw [h.kept i hs] at hno
      exact hno hs
    refine ⟨fun hmem => hno (mem_newTables.mp hmem).2.2, ?_⟩
    ext k
    rw [Finset.mem_insert, mem_newTables, mem_newTables]
    rcases eq_or_ne k i with rfl | hk
    · simp [hnos, hpres, hi]
    · rw [hst.dir k hk]
      simp [hk]

/-- **One more round.** -/
theorem Mapping.step {m m' : List ℕ} {y : Kernel} (h : Mapping s d l va pa perm n x m)
    (hst : Stores x y d m m' (pdx (va + BitVec.ofNat 32 (n * pgsize)))
      (pgnum (va + BitVec.ofNat 32 (n * pgsize)))
      (pa + BitVec.ofNat 32 (n * pgsize) ||| pteP ||| perm)) (hn : n < 2 ^ 20)
    (hu : ∀ k < n + 1, pdx (va + BitVec.ofNat 32 (k * pgsize)) ≠ pdx uvpt) :
    Mapping s d l va pa perm (n + 1) y m' := by
  obtain ⟨hold, hnew⟩ := newTables_of_table h hst (pdx_lt _)
  have hpg := pgnum_add_mod va
  refine ⟨hst.tables, hst.npages.trans h.npages, hst.kernPgdir.trans h.kernPgdir, ?_, ?_, ?_, ?_,
    ?_, ?_, ?_⟩
  · intro i hi
    rcases eq_or_ne i (pdx (va + BitVec.ofNat 32 (n * pgsize))) with rfl | hne
    · rcases hst.table with ⟨-, heq, -⟩ | ⟨hno, -⟩
      · exact heq.trans (h.kept _ hi)
      · rw [h.kept _ hi] at hno
        exact absurd hi hno
    · exact (hst.dir i hne).trans (h.kept i hi)
  · intro i hi
    exact (hst.dir i (hi n (Nat.lt_succ_self n)).symm).trans
      (h.same i fun k hk => hi k (Nat.lt_succ_of_lt hk))
  · have hcount := h.count
    rcases hst.table with ⟨hp, -, rfl, -⟩ | ⟨hno, p, rfl, -⟩
    · rw [hold hp]
      exact hcount
    · obtain ⟨hni, heq⟩ := hnew hno
      rw [heq, Finset.card_insert_of_notMem hni]
      rw [List.length_cons] at hcount
      omega
  · intro k hk
    have hv : pgnum (va + BitVec.ofNat 32 (k * pgsize)) < 2 ^ 20 := by
      rw [hpg]
      omega
    rw [hst.entry _ hv (by rw [pgnum_div]; exact hu k hk)]
    rcases Nat.lt_succ_iff_lt_or_eq.mp hk with hlt | rfl
    · rw [if_neg, h.mapped k hlt]
      rw [hpg, hpg]
      omega
    · rw [if_pos rfl]
  · intro v hv hvu hne
    rw [hst.entry v hv hvu, if_neg (hne n (Nat.lt_succ_self n))]
    exact h.other v hv hvu fun k hk => hne k (Nat.lt_succ_of_lt hk)
  · intro p hp
    rcases hst.table with ⟨hpr, hsame, rfl, href⟩ | ⟨hno, q, rfl, hpr, hf, href⟩
    · rw [href] at hp
      obtain ⟨i, hi, hfi, hpl⟩ := h.ref p hp
      refine ⟨i, by rw [hold hpr]; exact hi, ?_, hpl⟩
      rcases eq_or_ne i (pdx (va + BitVec.ofNat 32 (n * pgsize))) with rfl | hne
      · rw [hsame]
        exact hfi
      · rw [hst.dir i hne]
        exact hfi
    · obtain ⟨hni, heq⟩ := hnew hno
      rcases eq_or_ne p q with rfl | hpq
      · exact ⟨_, by rw [heq]; exact Finset.mem_insert_self _ _, hf, h.sub p List.mem_cons_self,
          (List.nodup_cons.mp h.tables.list.nodup).1⟩
      · rw [href p hpq] at hp
        obtain ⟨i, hi, hfi, hpl, hpm⟩ := h.ref p hp
        have hne : i ≠ pdx (va + BitVec.ofNat 32 (n * pgsize)) := by
          rintro rfl
          exact hni hi
        refine ⟨i, by rw [heq]; exact Finset.mem_insert_of_mem hi, ?_, hpl, fun h0 => hpm ?_⟩
        · rw [hst.dir i hne]
          exact hfi
        · exact List.mem_cons_of_mem _ h0
  · intro p hp
    rcases hst.table with ⟨-, -, rfl, -⟩ | ⟨-, q, rfl, -⟩
    · exact h.sub p hp
    · exact h.sub p (List.mem_cons_of_mem _ hp)

/-- A region that returns has been mapped. -/
theorem PrivateTables.of_bootMapRegion (h : PrivateTables s d l)
    (hu : ∀ k < regionPages size, pdx (va + BitVec.ofNat 32 (k * pgsize)) ≠ pdx uvpt)
    (hrun : s.bootMapRegion d va size pa perm = .ok s') :
    ∃ m, Mapping s d l va pa perm (regionPages size) s' m := by
  have hle := regionPages_le size
  refine foldlM_range_invariant (I := fun k x => ∃ m, Mapping s d l va pa perm k x m)
    ⟨l, .zero h va pa perm⟩ ?_ hrun
  rintro k hk x x' ⟨m, hx⟩ hround
  have hu' : ∀ k' < k + 1, pdx (va + BitVec.ofNat 32 (k' * pgsize)) ≠ pdx uvpt :=
    fun k' hk' => hu k' (by omega)
  have huk := hu k hk
  by_cases hp : Has (x.phys d (pdx (va + BitVec.ofNat 32 (k * pgsize)))) pteP
  · obtain ⟨y, hrun', hst⟩ := hx.tables.bootMapPage_of_present huk hp pa perm
    obtain rfl : y = x' := Except.ok.inj (hrun'.symm.trans hround)
    exact ⟨m, hx.step hst (by omega) hu'⟩
  · cases m with
    | nil =>
      rw [hx.tables.bootMapPage_of_noMem hp] at hround
      cases hround
    | cons p m =>
      obtain ⟨y, hrun', hst⟩ := hx.tables.bootMapPage_of_absent huk hp pa perm
      obtain rfl : y = x' := Except.ok.inj (hrun'.symm.trans hround)
      exact ⟨m, hx.step hst (by omega) hu'⟩

/-- A round takes at most one page. -/
theorem Mapping.length_le {m : List ℕ} (h : Mapping s d l va pa perm n x m) :
    l.length ≤ m.length + n := by
  have hsub : newTables s x d ⊆
      (Finset.range n).image fun k => pdx (va + BitVec.ofNat 32 (k * pgsize)) := by
    intro i hi
    obtain ⟨-, hno, hp⟩ := mem_newTables.mp hi
    by_contra hnone
    rw [Finset.mem_image] at hnone
    push Not at hnone
    refine hno ?_
    rw [← h.same i fun k hk => hnone k (Finset.mem_range.mpr hk)]
    exact hp
  have hcard := (Finset.card_le_card hsub).trans Finset.card_image_le
  rw [Finset.card_range] at hcard
  rw [h.count]
  exact Nat.add_le_add_left hcard _

open Classical in
/-- The tables that a region needs and that are not there. -/
noncomputable def missingTables (s : Kernel) (d : ℕ) (va size : Word) : Finset ℕ :=
  ((Finset.range (regionPages size)).image fun k =>
    pdx (va + BitVec.ofNat 32 (k * pgsize))).filter fun i => ¬ Has (s.phys d i) pteP

/-- It returns if there is a page for every table that is missing. -/
theorem PrivateTables.bootMapRegion_ok (h : PrivateTables s d l)
    (hu : ∀ k < regionPages size, pdx (va + BitVec.ofNat 32 (k * pgsize)) ≠ pdx uvpt)
    (hfree : (missingTables s d va size).card ≤ l.length) (pa perm : Word) :
    ∃ s' m, s.bootMapRegion d va size pa perm = .ok s' ∧
      Mapping s d l va pa perm (regionPages size) s' m := by
  have hle := regionPages_le size
  have hloop := foldlM_range_ok (f := bootMapPage d va pa perm) (n := regionPages size) (a := s)
    (I := fun k x => ∃ m, Mapping s d l va pa perm k x m) ⟨l, .zero h va pa perm⟩ ?_
  · obtain ⟨s', hrun, m, hm⟩ := hloop
    exact ⟨s', m, hrun, hm⟩
  rintro k hk x ⟨m, hx⟩
  have hu' : ∀ k' < k + 1, pdx (va + BitVec.ofNat 32 (k' * pgsize)) ≠ pdx uvpt :=
    fun k' hk' => hu k' (by omega)
  have huk := hu k hk
  by_cases hp : Has (x.phys d (pdx (va + BitVec.ofNat 32 (k * pgsize)))) pteP
  · obtain ⟨y, hrun, hst⟩ := hx.tables.bootMapPage_of_present huk hp pa perm
    exact ⟨y, hrun, m, hx.step hst (by omega) hu'⟩
  · -- the new tables and this one are among the missing ones
    have hsub : insert (pdx (va + BitVec.ofNat 32 (k * pgsize))) (newTables s x d) ⊆
        missingTables s d va size := by
      intro i hi
      rw [missingTables, Finset.mem_filter, Finset.mem_image]
      rcases Finset.mem_insert.mp hi with rfl | hi
      · refine ⟨⟨k, Finset.mem_range.mpr hk, rfl⟩, fun hs => hp ?_⟩
        rw [hx.kept _ hs]
        exact hs
      · obtain ⟨-, hno, hpi⟩ := mem_newTables.mp hi
        refine ⟨?_, hno⟩
        by_contra hnone
        push Not at hnone
        refine hno ?_
        rw [← hx.same i fun k' hk' => hnone k' (Finset.mem_range.mpr (by omega))]
        exact hpi
    have hcard := Finset.card_le_card hsub
    rw [Finset.card_insert_of_notMem (fun h0 => hp (mem_newTables.mp h0).2.2)] at hcard
    have hcount := hx.count
    cases m with
    | nil =>
      rw [List.length_nil] at hcount
      omega
    | cons p m =>
      obtain ⟨y, hrun, hst⟩ := hx.tables.bootMapPage_of_absent huk hp pa perm
      exact ⟨y, hrun, m, hx.step hst (by omega) hu'⟩

/-! ## The translations -/

/-- The window at `UVPT` shows the entries of the directory. -/
theorem PrivateTables.userPte_uvpt (h : PrivateTables s d l) (hi : i < nptentries) :
    userPte s.phys d (pdx uvpt * nptentries + i) =
      if Has (s.phys d (pdx uvpt)) pteP ∧ Has (s.phys d i) pteP then some (s.phys d i)
      else none := by
  have hdiv : (pdx uvpt * nptentries + i) / nptentries = pdx uvpt := by
    rw [nptentries] at hi ⊢
    omega
  have hmod : (pdx uvpt * nptentries + i) % nptentries = i := by
    rw [nptentries] at hi ⊢
    omega
  unfold userPte
  rw [hdiv, hmod]
  by_cases hp : Has (s.phys d (pdx uvpt)) pteP
  · dsimp only
    rw [h.self hp]
  · rw [if_neg (fun h0 => hp h0.1), if_neg (fun h0 => hp h0.1)]

/-- Nothing else is seen there. -/
theorem Mapping.userPte_uvpt {m : List ℕ} (h : PrivateTables s d l)
    (hx : Mapping s d l va pa perm n x m)
    (hu : ∀ k < n, pdx (va + BitVec.ofNat 32 (k * pgsize)) ≠ pdx uvpt) (hi : i < nptentries)
    (hnew : i ∉ newTables s x d) :
    userPte x.phys d (pdx uvpt * nptentries + i) = userPte s.phys d (pdx uvpt * nptentries + i) := by
  rw [h.userPte_uvpt hi, hx.tables.userPte_uvpt hi, hx.same _ hu]
  by_cases hp : Has (s.phys d i) pteP
  · rw [hx.kept i hp]
  · have hp' : ¬ Has (x.phys d i) pteP := fun h0 => hnew (mem_newTables.mpr ⟨hi, hp, h0⟩)
    rw [if_neg (fun h0 => hp' h0.2), if_neg (fun h0 => hp h0.2)]

/-- What `boot_map_region` does to the directory `d`. -/
structure MapsRegion (s s' : Kernel) (d : ℕ) (l : List ℕ) (va size pa perm : Word) : Prop where
  mapped : ∀ k < regionPages size,
    translation s'.phys d (pgnum (va + BitVec.ofNat 32 (k * pgsize))) =
      some (pgnum (pa + BitVec.ofNat 32 (k * pgsize)), perm ||| pteP)
  /-- No other page changes, but for those that show a new table. -/
  other : ∀ v < 2 ^ 20, (∀ k < regionPages size, v ≠ pgnum (va + BitVec.ofNat 32 (k * pgsize))) →
    translation s'.phys d v = translation s.phys d v ∨
      ∃ i ∈ newTables s s' d, v = pdx uvpt * nptentries + i
  /-- Only the pages that have become tables are counted. -/
  ref : ∀ p, (s'.pages p).ppRef ≠ (s.pages p).ppRef →
    ∃ i ∈ newTables s s' d, frame (s'.phys d i) = p ∧ p ∈ l

theorem frame_regionEntry (pa : Word) (hperm : perm.toNat < 2 ^ 12) :
    frame (pa ||| pteP ||| perm) = pgnum pa := by
  rw [frame_or_of_lt _ hperm, frame_or_of_lt _ (by decide), frame_eq, pgnum_eq]

theorem pteFlags_regionEntry (hpa : pa.toNat % 4096 = 0) (hperm : perm.toNat < 2 ^ 12) :
    pteFlags (pa ||| pteP ||| perm) = perm ||| pteP := by
  have hzero : pteFlags pa = 0#32 := by
    apply BitVec.eq_of_toNat_eq
    rw [toNat_pteFlags]
    exact hpa
  rw [pteFlags_or, pteFlags_or, hzero, pteFlags_of_lt hperm,
    pteFlags_of_lt (show pteP.toNat < 2 ^ 12 by decide), BitVec.zero_or, BitVec.or_comm]

theorem Mapping.mapsRegion {m : List ℕ} (h : PrivateTables s d l)
    (hx : Mapping s d l va pa perm (regionPages size) x m)
    (hu : ∀ k < regionPages size, pdx (va + BitVec.ofNat 32 (k * pgsize)) ≠ pdx uvpt)
    (hpa : pa.toNat % pgsize = 0) (hperm : perm.toNat < 2 ^ 12) :
    MapsRegion s x d l va size pa perm := by
  refine ⟨fun k hk => ?_, fun v hv hne => ?_, fun p hp => ?_⟩
  · have hpak : (pa + BitVec.ofNat 32 (k * pgsize)).toNat % 4096 = 0 := by
      rw [pgsize] at hpa ⊢
      rw [BitVec.toNat_add, BitVec.toNat_ofNat]
      omega
    rw [translation, hx.mapped k hk, Option.map_some, frame_regionEntry _ hperm,
      pteFlags_regionEntry hpak hperm]
  · by_cases hvu : v / nptentries = pdx uvpt
    · have hi : v % nptentries < nptentries := Nat.mod_lt _ (by decide)
      have hvi : v = pdx uvpt * nptentries + v % nptentries := by
        rw [← hvu, Nat.div_add_mod']
      by_cases hnew : v % nptentries ∈ newTables s x d
      · exact Or.inr ⟨_, hnew, hvi⟩
      · left
        rw [hvi, translation, translation, hx.userPte_uvpt h hu hi hnew]
    · left
      rw [translation, translation, hx.other v hv hvu hne]
  · obtain ⟨i, hi, hf, hl, -⟩ := hx.ref p hp
    exact ⟨i, hi, hf, hl⟩

/-- **`boot_map_region`.** -/
theorem bootMapRegion_maps (h : PrivateTables s d l) (hpa : pa.toNat % pgsize = 0)
    (hperm : perm.toNat < 2 ^ 12)
    (hu : ∀ k < regionPages size, pdx (va + BitVec.ofNat 32 (k * pgsize)) ≠ pdx uvpt)
    (hfree : (missingTables s d va size).card ≤ l.length) :
    ∃ s', s.bootMapRegion d va size pa perm = .ok s' ∧ MapsRegion s s' d l va size pa perm := by
  obtain ⟨s', m, hrun, hm⟩ := h.bootMapRegion_ok hu hfree pa perm
  exact ⟨s', hrun, hm.mapsRegion h hu hpa hperm⟩

/-- A directory in frame 1 with nothing but its own entry, and two free pages. -/
def bareDir : Kernel :=
  { powerOn machine64 with
    pages := fun p => if p = 2 then ⟨some 3, 0#16⟩ else ⟨none, 0#16⟩
    pageFreeList := some 2
    kernPgdir := 1
    phys := fun f i => if f = 1 ∧ i = pdx uvpt then 0x1005#32 else 0#32 }

theorem privateTables_bareDir : PrivateTables bareDir 1 [2, 3] := by
  have habsent : ∀ i, i ≠ pdx uvpt → ¬ Has (bareDir.phys 1 i) pteP := by
    intro i hi
    have h0 : bareDir.phys 1 i = 0#32 := if_neg fun h => hi h.2
    rw [h0]
    exact not_has_zero _
  refine ⟨by decide, .cons (.cons .nil), ?_, by decide, fun _ => by decide, ?_, ?_⟩
  · intro p hp
    have hn : bareDir.npages = 16384 := by decide
    rw [hn]
    simp only [List.mem_cons, List.not_mem_nil, or_false] at hp
    omega
  · exact fun i _ hi hp => absurd hp (habsent i hi)
  · exact fun i _ i' _ hi _ hp => absurd hp (habsent i hi)

theorem card_missingTables_bareDir :
    (missingTables bareDir 1 0xFFFFF000#32 8192#32).card ≤ [2, 3].length := by
  refine (Finset.card_filter_le _ _).trans (Finset.card_image_le.trans ?_)
  rw [Finset.card_range]
  decide

/-- The last page of the address space, and the first. -/
theorem bootMapRegion_maps_bareDir : PrivateTables bareDir 1 [2, 3] ∧
    ∃ s', bareDir.bootMapRegion 1 0xFFFFF000#32 8192#32 0xFFFFF000#32 pteW = .ok s' ∧
      MapsRegion bareDir s' 1 [2, 3] 0xFFFFF000#32 8192#32 0xFFFFF000#32 pteW :=
  ⟨privateTables_bareDir, bootMapRegion_maps privateTables_bareDir (by decide) (by decide)
    (by decide) card_missingTables_bareDir⟩

/-- A new table appears at `UVPT`. -/
theorem not_bootMapRegion_maps : ¬ ∀ (s : Kernel) (d : ℕ) (l : List ℕ) (va size pa perm : Word),
    PrivateTables s d l → va.toNat % pgsize = 0 → pa.toNat % pgsize = 0 → perm.toNat < 2 ^ 12 →
    (∀ k < regionPages size, pdx (va + BitVec.ofNat 32 (k * pgsize)) ≠ pdx uvpt) →
    (missingTables s d va size).card ≤ l.length →
    ∃ s', s.bootMapRegion d va size pa perm = .ok s' ∧ ∀ v < 2 ^ 20,
      (∀ k < regionPages size, v ≠ pgnum (va + BitVec.ofNat 32 (k * pgsize))) →
        translation s'.phys d v = translation s.phys d v := by
  intro h
  have hu : ∀ k < regionPages 8192#32,
      pdx (0xFFFFF000#32 + BitVec.ofNat 32 (k * pgsize)) ≠ pdx uvpt := by decide
  obtain ⟨s', hrun, hother⟩ := h bareDir 1 [2, 3] 0xFFFFF000#32 8192#32 0xFFFFF000#32 pteW
    privateTables_bareDir (by decide) (by decide) (by decide) hu card_missingTables_bareDir
  obtain ⟨s'', m, hrun', hm⟩ := privateTables_bareDir.bootMapRegion_ok hu
    card_missingTables_bareDir 0xFFFFF000#32 pteW
  obtain rfl : s' = s'' := Except.ok.inj (hrun.symm.trans hrun')
  -- table 0 is there now
  have hpres : Has (s'.phys 1 0) pteP := by
    have hmapped := hm.mapped 1 (by decide)
    by_contra hno
    have hnone : userPte s'.phys 1 0 = none := if_neg fun h0 => hno h0.1
    rw [show pgnum (0xFFFFF000#32 + BitVec.ofNat 32 (1 * pgsize)) = 0 by decide, hnone] at hmapped
    cases hmapped
  have hself : Has (s'.phys 1 (pdx uvpt)) pteP := by
    rw [hm.same _ hu]
    decide
  have hsame := hother (pdx uvpt * nptentries + 0) (by decide) (by decide)
  have hbefore : userPte bareDir.phys 1 (pdx uvpt * nptentries + 0) = none := by decide
  rw [translation, translation, hm.tables.userPte_uvpt (by decide), if_pos ⟨hself, hpres⟩,
    hbefore] at hsame
  cases hsame

end Kernel
end PmakeOs
