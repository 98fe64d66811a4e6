import PmakeOs.Boot.Checks
import Mathlib.Data.Finset.Card
import Mathlib.Data.Finset.Image

/-!
# The tables of `kern_pgdir`

`boot_map_region` writes entries of `kern_pgdir` above `UTOP`, and takes a page from the
free list for every table it needs.  `Booting U s l E` describes a state on the way:

* `U` are the pages of the allocator, `l` those that are still free, and every other page
  of `U` is a table of `kern_pgdir`, entered once and with one reference;
* `E` gives the entry of each virtual page above `UTOP`, zero if it has none.

One round of the loop changes `E` at one page, so a region overlays it with a run of
consecutive entries.  There are 68 tables to fill at most, so the free list does not
run out if `U` has more pages than that.
-/

namespace PmakeOs

open Lib

namespace Kernel

variable {s s' : Kernel} {U l : List ℕ} {E : ℕ → Word} {p i j k : ℕ} {w va pa perm : Word}

/-- The directory entries that the kernel fills: those above `UTOP`, but for the entry of
the directory itself. -/
def KernIndex (i : ℕ) : Prop := pdx utop ≤ i ∧ i < npdentries ∧ i ≠ pdx uvpt

instance (i : ℕ) : Decidable (KernIndex i) := inferInstanceAs (Decidable (_ ∧ _))

theorem kernIndex_iff : KernIndex i ↔ 955 ≤ i ∧ i < 1024 ∧ i ≠ 957 := by
  rw [KernIndex, pdx_utop, pdx_uvpt, npdentries]

/-- The words `D` of `kern_pgdir`, while the pages of `U` that are not on the free list
`l` serve as its tables. -/
structure KernDir (U l : List ℕ) (ref : ℕ → BitVec 16) (d : ℕ) (D : ℕ → Word) : Prop where
  low : ∀ i < pdx utop, D i = 0#32
  self : LeadsTo (D (pdx uvpt)) d
  table : ∀ i, KernIndex i → D i = 0#32 ∨ LeadsTo (D i) (frame (D i)) ∧ Has (D i) pteW ∧
    frame (D i) ∈ U ∧ frame (D i) ∉ l ∧ ref (frame (D i)) = 1#16
  inj : ∀ i i', KernIndex i → KernIndex i' → Has (D i) pteP → Has (D i') pteP →
    frame (D i) = frame (D i') → i = i'
  cover : ∀ p ∈ U, p ∉ l → ∃ i, KernIndex i ∧ Has (D i) pteP ∧ frame (D i) = p

structure Booting (U : List ℕ) (s : Kernel) (l : List ℕ) (E : ℕ → Word) : Prop where
  pool : Pool s l
  window : s.npages ≤ kernWindow
  lt : ∀ p ∈ U, p < s.npages
  sub : ∀ p ∈ l, p ∈ U
  kern : s.kernPgdir ∉ U
  dir : KernDir U l (fun p => (s.pages p).ppRef) s.kernPgdir (s.phys s.kernPgdir)
  entry : ∀ i j, KernIndex i → j < nptentries → Has (s.phys s.kernPgdir i) pteP →
    s.phys (frame (s.phys s.kernPgdir i)) j = E (i * nptentries + j)
  absent : ∀ i j, KernIndex i → j < nptentries → ¬ Has (s.phys s.kernPgdir i) pteP →
    E (i * nptentries + j) = 0#32

/-- The entries with a run of `n` pages from page `v` on mapped to `pa` and following. -/
def overlay (E : ℕ → Word) (v n : ℕ) (pa perm : Word) (x : ℕ) : Word :=
  if v ≤ x ∧ x < v + n then pa + BitVec.ofNat 32 ((x - v) * pgsize) ||| pteP ||| perm else E x

/-! ## The free list does not run out -/

/-- The pages that are not free are tables, and there are 68 of these at most. -/
theorem Booting.length_le (h : Booting U s l E) (hU : U.Nodup) : U.length ≤ l.length + 68 := by
  have hsub : U.toFinset ⊆ l.toFinset ∪ (((Finset.range 1024).filter KernIndex).image fun i =>
      frame (s.phys s.kernPgdir i)) := by
    intro p hp
    rw [List.mem_toFinset] at hp
    rw [Finset.mem_union, List.mem_toFinset, Finset.mem_image]
    by_cases hl : p ∈ l
    · exact Or.inl hl
    · obtain ⟨i, hi, -, hf⟩ := h.dir.cover p hp hl
      refine Or.inr ⟨i, ?_, hf⟩
      rw [Finset.mem_filter, Finset.mem_range]
      exact ⟨(kernIndex_iff.mp hi).2.1, hi⟩
  have hindex : ((Finset.range 1024).filter KernIndex).card = 68 := by decide +kernel
  have hle := (Finset.card_le_card hsub).trans (Finset.card_union_le _ _)
  have himage := Finset.card_image_le (s := (Finset.range 1024).filter KernIndex)
    (f := fun i => frame (s.phys s.kernPgdir i))
  rw [List.toFinset_card_of_nodup hU, List.toFinset_card_of_nodup h.pool.nodup] at hle
  omega

theorem Booting.pageFreeList (h : Booting U s l E) (hU : U.Nodup) (h68 : 68 < U.length) :
    ∃ p l', l = p :: l' ∧ s.pageFreeList = some p := by
  have hlen := h.length_le hU
  cases l with
  | nil =>
    rw [List.length_nil] at hlen
    omega
  | cons p l' => exact ⟨p, l', rfl, h.pool.list.head_eq⟩

/-! ## One page -/

/-- A table that is there. -/
theorem KernDir.of_present {ref : ℕ → BitVec 16} {d : ℕ} {D : ℕ → Word}
    (h : KernDir U l ref d D) (hi : KernIndex i) (hp : Has (D i) pteP) :
    LeadsTo (D i) (frame (D i)) ∧ Has (D i) pteW ∧ frame (D i) ∈ U ∧ frame (D i) ∉ l ∧
      ref (frame (D i)) = 1#16 := by
  refine (h.table i hi).resolve_left fun h0 => ?_
  rw [h0] at hp
  exact not_has_zero _ hp

/-- A store into a table that is there. -/
theorem Booting.setEntry (h : Booting U s l E) (hi : KernIndex i) (hj : j < nptentries)
    (hp : Has (s.phys s.kernPgdir i) pteP) :
    Booting U (s.setWord (frame (s.phys s.kernPgdir i)) j w) l
      (Function.update E (i * nptentries + j) w) := by
  obtain ⟨-, -, htab, -, -⟩ := h.dir.of_present hi hp
  have hne : s.kernPgdir ≠ frame (s.phys s.kernPgdir i) := by
    intro h0
    rw [← h0] at htab
    exact h.kern htab
  have hdir : (s.setWord (frame (s.phys s.kernPgdir i)) j w).phys s.kernPgdir =
      s.phys s.kernPgdir := by
    funext k
    simp [setWord, hne]
  refine ⟨h.pool.phys _, h.window, h.lt, h.sub, h.kern, ?_, ?_, ?_⟩
  · show KernDir U l (fun p => (s.pages p).ppRef) s.kernPgdir _
    rw [show (s.setWord _ j w).kernPgdir = s.kernPgdir from rfl, hdir]
    exact h.dir
  · intro k k' hk hk'
    rw [show (s.setWord _ j w).kernPgdir = s.kernPgdir from rfl, hdir]
    intro hkp
    by_cases hx : k = i ∧ k' = j
    · obtain ⟨rfl, rfl⟩ := hx
      rw [Function.update_self]
      simp [setWord]
    · have hno : k * nptentries + k' ≠ i * nptentries + j := by
        rw [nptentries] at hj hk' ⊢
        omega
      rw [Function.update_of_ne hno, ← h.entry k k' hk hk' hkp]
      have hoff : ¬ (frame (s.phys s.kernPgdir k) = frame (s.phys s.kernPgdir i) ∧ k' = j) := by
        rintro ⟨hf, rfl⟩
        exact hx ⟨h.dir.inj k i hk hi hkp hp hf, rfl⟩
      simp [setWord, hoff]
  · intro k k' hk hk'
    rw [show (s.setWord _ j w).kernPgdir = s.kernPgdir from rfl, hdir]
    intro hkp
    have hki : k ≠ i := by
      rintro rfl
      exact hkp hp
    have hno : k * nptentries + k' ≠ i * nptentries + j := by
      rw [nptentries] at hj hk' ⊢
      omega
    rw [Function.update_of_ne hno]
    exact h.absent k k' hk hk' hkp

/-- A page of the free list becomes a table. -/
theorem Booting.addTable (h : Booting U s (p :: l) E) (hi : KernIndex i)
    (hno : ¬ Has (s.phys s.kernPgdir i) pteP) :
    Booting U (s.addTable s.kernPgdir i p) l E := by
  have hpU : p ∈ U := h.sub p List.mem_cons_self
  have hpw : p < kernWindow := lt_of_lt_of_le (h.lt p hpU) h.window
  have hpk : p ≠ s.kernPgdir := by
    rintro rfl
    exact h.kern hpU
  have hnd := List.nodup_cons.mp h.pool.nodup
  have hpages : ∀ q, ((s.addTable s.kernPgdir i p).pages q).ppRef =
      if q = p then 1#16 else (s.pages q).ppRef := by
    intro q
    rcases eq_or_ne q p with rfl | hq
    · have h0 := h.pool.ref q List.mem_cons_self
      simp [Kernel.addTable, Kernel.note, setWord, Kernel.incRef, Kernel.takePage, setPage,
        zeroFrame, h0]
    · simp [Kernel.addTable, Kernel.note, setWord, Kernel.incRef, Kernel.takePage, setPage,
        zeroFrame, hq]
  have hlinks : (s.addTable s.kernPgdir i p).links = Function.update s.links p none := by
    show ((s.takePage p).incRef p).links = _
    rw [links_incRef, links_takePage]
  have hword : ∀ f k, (s.addTable s.kernPgdir i p).phys f k =
      if f = s.kernPgdir ∧ k = i then page2pa p ||| pteP ||| pteU ||| pteW
      else if f = p then 0#32 else s.phys f k := fun f k => rfl
  have hD : (s.addTable s.kernPgdir i p).phys s.kernPgdir =
      Function.update (s.phys s.kernPgdir) i (page2pa p ||| pteP ||| pteU ||| pteW) := by
    funext k
    rw [hword, Function.update_apply]
    by_cases hk : k = i
    · simp [hk]
    · simp [hk, hpk.symm]
  have hlead := leadsTo_tableEntry hpw
  have hW : Has (page2pa p ||| pteP ||| pteU ||| pteW) pteW := by
    have hw : Has pteW pteW := by decide
    simp [hw]
  have hlt : ∀ q ∈ l, q ≠ p := by
    rintro q hq rfl
    exact hnd.1 hq
  have hfr : ∀ k, KernIndex k → Has (s.phys s.kernPgdir k) pteP →
      frame (s.phys s.kernPgdir k) ≠ p := by
    intro k hk hkp h0
    obtain ⟨-, -, -, hnl, -⟩ := h.dir.of_present hk hkp
    rw [h0] at hnl
    exact hnl List.mem_cons_self
  refine ⟨⟨?_, fun q hq => ?_, fun q hq => ?_, fun q hq => ?_⟩, h.window, h.lt,
    fun q hq => h.sub q (List.mem_cons_of_mem p hq), h.kern, ?_, ?_, ?_⟩
  · have hlist := h.pool.list
    have hhead : s.pageFreeList = some p := hlist.head_eq
    rw [hhead] at hlist
    obtain ⟨l', hl', hpop⟩ := hlist.pop
    obtain ⟨-, rfl⟩ := List.cons.inj hl'
    rw [hlinks]
    exact hpop
  · rw [hlinks]
    rcases eq_or_ne q p with rfl | hqp
    · rw [Function.update_self]
    · rw [Function.update_of_ne hqp]
      refine h.pool.link q ?_
      rw [List.mem_cons, not_or]
      exact ⟨hqp, hq⟩
  · rw [hpages, if_neg (hlt q hq)]
    exact h.pool.ref q (List.mem_cons_of_mem p hq)
  · exact h.pool.lt q (List.mem_cons_of_mem p hq)
  · rw [show (s.addTable s.kernPgdir i p).kernPgdir = s.kernPgdir from rfl, hD]
    have hdi := kernIndex_iff.mp hi
    refine ⟨fun k hk => ?_, ?_, fun k hk => ?_, fun k k' hk hk' hkp hkp' hf => ?_, fun q hq hql => ?_⟩
    · rw [pdx_utop] at hk
      rw [Function.update_of_ne (by omega)]
      exact h.dir.low k (by rw [pdx_utop]; exact hk)
    · rw [Function.update_of_ne (by rw [pdx_uvpt]; omega)]
      exact h.dir.self
    · rcases eq_or_ne k i with rfl | hki
      · right
        rw [Function.update_self, hlead.frame]
        exact ⟨hlead, hW, hpU, hnd.1, by rw [hpages, if_pos rfl]⟩
      · rw [Function.update_of_ne hki]
        rcases h.dir.table k hk with h0 | ⟨hl', hw', hU', hn', hr'⟩
        · exact Or.inl h0
        · have hkp' := hfr k hk hl'.present
          refine Or.inr ⟨hl', hw', hU', fun h0 => hn' (List.mem_cons_of_mem p h0), ?_⟩
          rw [hpages, if_neg hkp']
          exact hr'
    · rcases eq_or_ne k i with rfl | hki
      · rcases eq_or_ne k' k with rfl | hki'
        · rfl
        · rw [Function.update_self, hlead.frame, Function.update_of_ne hki'] at hf
          rw [Function.update_of_ne hki'] at hkp'
          exact absurd hf.symm (hfr k' hk' hkp')
      · rw [Function.update_of_ne hki] at hkp hf
        rcases eq_or_ne k' i with rfl | hki'
        · rw [Function.update_self, hlead.frame] at hf
          exact absurd hf (hfr k hk hkp)
        · rw [Function.update_of_ne hki'] at hkp' hf
          exact h.dir.inj k k' hk hk' hkp hkp' hf
    · rcases eq_or_ne q p with rfl | hqp
      · refine ⟨i, hi, ?_, ?_⟩
        · rw [Function.update_self]
          exact hlead.present
        · rw [Function.update_self, hlead.frame]
      · obtain ⟨k, hk, hkp, hkf⟩ := h.dir.cover q hq (by
          rw [List.mem_cons, not_or]
          exact ⟨hqp, hql⟩)
        have hki : k ≠ i := by
          rintro rfl
          exact hno hkp
        exact ⟨k, hk, by rw [Function.update_of_ne hki]; exact hkp,
          by rw [Function.update_of_ne hki]; exact hkf⟩
  · intro k k' hk hk'
    rw [show (s.addTable s.kernPgdir i p).kernPgdir = s.kernPgdir from rfl, hD]
    intro hkp
    rcases eq_or_ne k i with rfl | hki
    · rw [Function.update_self, hlead.frame, hword, if_neg (fun h0 => hpk h0.1), if_pos rfl]
      exact (h.absent k k' hk hk' hno).symm
    · rw [Function.update_of_ne hki] at hkp ⊢
      have hfk : frame (s.phys s.kernPgdir k) ≠ s.kernPgdir := by
        obtain ⟨-, -, hU', -, -⟩ := h.dir.of_present hk hkp
        intro h0
        rw [h0] at hU'
        exact h.kern hU'
      rw [hword, if_neg (fun h0 => hfk h0.1), if_neg (hfr k hk hkp)]
      exact h.entry k k' hk hk' hkp
  · intro k k' hk hk'
    rw [show (s.addTable s.kernPgdir i p).kernPgdir = s.kernPgdir from rfl, hD]
    intro hkp
    have hki : k ≠ i := by
      rintro rfl
      rw [Function.update_self] at hkp
      exact hkp hlead.present
    rw [Function.update_of_ne hki] at hkp
    exact h.absent k k' hk hk' hkp

/-- Nothing but memory changes, and the tables of `kern_pgdir` stay. -/
structure Adds (s s' : Kernel) : Prop where
  still : Still s s'
  tables : ∀ i, Has (s.phys s.kernPgdir i) pteP → Has (s'.phys s'.kernPgdir i) pteP

theorem Adds.refl (s : Kernel) : Adds s s := ⟨.refl s, fun _ h => h⟩

theorem Adds.trans {s'' : Kernel} (h : Adds s s') (h' : Adds s' s'') : Adds s s'' :=
  ⟨h.still.trans h'.still, fun i hp => h'.tables i (h.tables i hp)⟩

/-- A store into a frame that is not `kern_pgdir`. -/
theorem Adds.setWord {f : ℕ} (hf : f ≠ s.kernPgdir) (j : ℕ) (w : Word) :
    Adds s (s.setWord f j w) := by
  refine ⟨⟨rfl, rfl, rfl, rfl, rfl, fun _ => rfl⟩, fun i hp => ?_⟩
  have hsame : (s.setWord f j w).phys s.kernPgdir i = s.phys s.kernPgdir i := by
    simp [Kernel.setWord, hf.symm]
  show Has ((s.setWord f j w).phys s.kernPgdir i) pteP
  rw [hsame]
  exact hp

/-- The tables lie in pages of the allocator. -/
theorem Booting.table_ne (h : Booting U s l E) (hi : KernIndex i)
    (hp : Has (s.phys s.kernPgdir i) pteP) : frame (s.phys s.kernPgdir i) ≠ s.kernPgdir := by
  obtain ⟨-, -, hf, -, -⟩ := h.dir.of_present hi hp
  intro h0
  rw [h0] at hf
  exact h.kern hf

theorem Adds.addTable (hpk : p ≠ s.kernPgdir) (i : ℕ) : Adds s (s.addTable s.kernPgdir i p) := by
  refine ⟨⟨rfl, rfl, rfl, rfl, rfl, fun _ => rfl⟩, fun k hp => ?_⟩
  show Has (if s.kernPgdir = s.kernPgdir ∧ k = i then page2pa p ||| pteP ||| pteU ||| pteW
    else if s.kernPgdir = p then 0#32 else s.phys s.kernPgdir k) pteP
  split_ifs with h1 h2
  · exact has_tableEntry_pteP p
  · exact absurd h2.symm hpk
  · exact hp

/-- **One round of `boot_map_region`.** -/
theorem Booting.bootMapPage (h : Booting U s l E) (hU : U.Nodup) (h68 : 68 < U.length)
    (va : Word) (hi : KernIndex (pdx (va + BitVec.ofNat 32 (k * pgsize)))) (pa perm : Word) :
    ∃ s' l', bootMapPage s.kernPgdir va pa perm s k = .ok s' ∧ Adds s s' ∧
      Booting U s' l' (Function.update E (pgnum (va + BitVec.ofNat 32 (k * pgsize)))
        (pa + BitVec.ofNat 32 (k * pgsize) ||| pteP ||| perm)) := by
  unfold Kernel.bootMapPage
  generalize va + BitVec.ofNat 32 (k * pgsize) = va' at hi
  rw [pgnum_eq_pdx_ptx]
  by_cases hp : Has (s.phys s.kernPgdir (pdx va')) pteP
  · obtain ⟨-, -, hf, -, -⟩ := h.dir.of_present hi hp
    rw [pgdirWalk_of_present hp (h.lt _ hf) h.window]
    exact ⟨_, l, rfl, .setWord (h.table_ne hi hp) _ _, h.setEntry hi (ptx_lt va') hp⟩
  · obtain ⟨p, l', rfl, hhead⟩ := h.pageFreeList hU h68
    have hpU := h.sub p List.mem_cons_self
    have h' := h.addTable hi hp
    have hD : (s.addTable s.kernPgdir (pdx va') p).phys s.kernPgdir (pdx va') =
        page2pa p ||| pteP ||| pteU ||| pteW := by
      simp [Kernel.addTable, setWord, Kernel.note]
    have hf : frame ((s.addTable s.kernPgdir (pdx va') p).phys s.kernPgdir (pdx va')) = p := by
      rw [hD]
      exact frame_tableEntry (lt_of_lt_of_le (h.lt p hpU) h.window)
    have h'' := h'.setEntry (w := pa + BitVec.ofNat 32 (k * pgsize) ||| pteP ||| perm) hi
      (ptx_lt va') (by
        show Has ((s.addTable s.kernPgdir (pdx va') p).phys s.kernPgdir (pdx va')) pteP
        rw [hD]
        exact has_tableEntry_pteP p)
    rw [show (s.addTable s.kernPgdir (pdx va') p).kernPgdir = s.kernPgdir from rfl, hf] at h''
    rw [pgdirWalk_of_alloc hp hhead (h.lt p hpU) h.window]
    have hpk : p ≠ s.kernPgdir := by
      rintro rfl
      exact h.kern hpU
    have hset := Adds.setWord (s := s.addTable s.kernPgdir (pdx va') p) hpk (ptx va')
      (pa + BitVec.ofNat 32 (k * pgsize) ||| pteP ||| perm)
    exact ⟨_, l', rfl, (Adds.addTable hpk _).trans hset, h''⟩

/-! ## Regions -/

theorem overlay_zero (E : ℕ → Word) (v : ℕ) (pa perm : Word) : overlay E v 0 pa perm = E := by
  funext x
  rw [overlay, if_neg (by omega)]

theorem overlay_succ (E : ℕ → Word) (v n : ℕ) (pa perm : Word) :
    Function.update (overlay E v n pa perm) (v + n)
      (pa + BitVec.ofNat 32 (n * pgsize) ||| pteP ||| perm) = overlay E v (n + 1) pa perm := by
  funext x
  rw [Function.update_apply, overlay, overlay]
  by_cases hx : x = v + n
  · rw [if_pos hx, if_pos (by omega), hx, Nat.add_sub_cancel_left]
  · rw [if_neg hx]
    by_cases hin : v ≤ x ∧ x < v + n
    · rw [if_pos hin, if_pos (by omega)]
    · rw [if_neg hin, if_neg (by omega)]

theorem pgnum_add (va : Word) (hle : va.toNat + k * pgsize < 2 ^ 32) :
    pgnum (va + BitVec.ofNat 32 (k * pgsize)) = pgnum va + k := by
  rw [pgsize] at hle ⊢
  rw [pgnum_eq, pgnum_eq, BitVec.toNat_add, BitVec.toNat_ofNat]
  omega

/-- The number of rounds of `boot_map_region`. -/
def regionPages (size : Word) : ℕ :=
  if size.toNat % pgsize ≠ 0 then size.toNat / pgsize + 1 else size.toNat / pgsize

/-- **`boot_map_region` overlays the entries**, and it does not run out of pages. -/
theorem Booting.bootMapRegion (h : Booting U s l E) (hU : U.Nodup) (h68 : 68 < U.length)
    (va size : Word) (hlt : va.toNat + regionPages size * pgsize ≤ 2 ^ 32)
    (hi : ∀ k < regionPages size, KernIndex ((pgnum va + k) / nptentries)) (pa perm : Word) :
    ∃ s' l', s.bootMapRegion s.kernPgdir va size pa perm = .ok s' ∧ Adds s s' ∧
      Booting U s' l' (overlay E (pgnum va) (regionPages size) pa perm) := by
  have hloop := foldlM_range_ok (f := Kernel.bootMapPage s.kernPgdir va pa perm) (a := s)
    (n := regionPages size)
    (I := fun k x => Adds s x ∧ ∃ m, Booting U x m (overlay E (pgnum va) k pa perm))
    ⟨.refl s, l, by rw [overlay_zero]; exact h⟩ (by
      rintro k hk x ⟨hstill, m, hx⟩
      have hk' : va.toNat + k * pgsize < 2 ^ 32 := by
        rw [pgsize] at hlt ⊢
        omega
      have hpg := pgnum_add va hk'
      obtain ⟨x', m', hrun, hstill', hx'⟩ := hx.bootMapPage (k := k) hU h68 va (by
        rw [← pgnum_div, hpg]
        exact hi k hk) pa perm
      rw [hstill.still.kernPgdir] at hrun
      rw [hpg, overlay_succ] at hx'
      exact ⟨x', hrun, hstill.trans hstill', m', hx'⟩)
  obtain ⟨s', hrun, hstill, l', h'⟩ := hloop
  exact ⟨s', l', hrun, hstill, h'⟩

/-! ## Reading the tables -/

/-- An entry that is not zero is in a table that is there. -/
theorem Booting.present_of_entry (h : Booting U s l E) (hi : KernIndex (pdx va))
    (hne : E (pgnum va) ≠ 0#32) : Has (s.phys s.kernPgdir (pdx va)) pteP := by
  by_contra hp
  rw [pgnum_eq_pdx_ptx] at hne
  exact hne (h.absent _ _ hi (ptx_lt va) hp)

theorem Booting.checkVa2pa (h : Booting U s l E) (hi : KernIndex (pdx va)) :
    s.checkVa2pa s.kernPgdir va = .ok (if Has (E (pgnum va)) pteP then pteAddr (E (pgnum va))
      else BitVec.allOnes 32) := by
  rw [pgnum_eq_pdx_ptx]
  unfold Kernel.checkVa2pa
  by_cases hp : Has (s.phys s.kernPgdir (pdx va)) pteP
  · obtain ⟨-, -, hf, -, -⟩ := h.dir.of_present hi hp
    have hpg : pgnum (pteAddr (s.phys s.kernPgdir (pdx va))) =
        frame (s.phys s.kernPgdir (pdx va)) := rfl
    have hlt := h.lt _ hf
    rw [if_neg (not_not_intro hp), kaddr_of_lt (by rw [hpg]; exact hlt)
      (by rw [hpg]; exact lt_of_lt_of_le hlt h.window), ok_bind, hpg,
      h.entry _ _ hi (ptx_lt va) hp]
    by_cases hin : Has (E (pdx va * nptentries + ptx va)) pteP
    · rw [if_neg (not_not_intro hin), if_pos hin]
      rfl
    · rw [if_pos hin, if_neg hin]
      rfl
  · rw [if_pos hp, h.absent _ _ hi (ptx_lt va) hp, if_neg (not_has_zero _)]
    rfl

/-- The place of an entry that is not zero, what is there, and what clearing it does. -/
theorem Booting.entryAt (h : Booting U s l E) (hi : KernIndex (pdx va))
    (hne : E (pgnum va) ≠ 0#32) :
    ∃ x, s.entryAt s.kernPgdir va = .ok x ∧ s.phys x.1 x.2 = E (pgnum va) ∧
      Adds s (s.setWord x.1 x.2 0#32) ∧ Booting U (s.setWord x.1 x.2 0#32) l (Function.update E (pgnum va) 0#32) := by
  have hp := h.present_of_entry hi hne
  obtain ⟨-, -, hf, -, -⟩ := h.dir.of_present hi hp
  refine ⟨(frame (s.phys s.kernPgdir (pdx va)), ptx va), ?_, ?_, .setWord (h.table_ne hi hp) _ _, ?_⟩
  · rw [Kernel.entryAt, pgdirWalk_of_present hp (h.lt _ hf) h.window]
    rfl
  · rw [h.entry _ _ hi (ptx_lt va) hp, pgnum_eq_pdx_ptx]
  · have h' := h.setEntry (w := 0#32) hi (ptx_lt va) hp
    rw [pgnum_eq_pdx_ptx]
    exact h'

/-- The entries matter only above `UTOP`. -/
theorem Booting.congr {E' : ℕ → Word} (h : Booting U s l E) (hE : ∀ x, E x = E' x) :
    Booting U s l E' := by
  rwa [← funext hE]

/-- A self test does not see the tables. -/
theorem Booting.tested {l' : List ℕ} (h : Booting U s l E) (ht : Tested s s' l l') :
    Booting U s' l' E := by
  have hmem : ∀ {x}, x ∈ l' ↔ x ∈ l := ht.perm.mem_iff
  have hD : s'.phys s'.kernPgdir = s.phys s.kernPgdir := by
    rw [ht.still.kernPgdir]
    exact ht.phys _ fun h0 => h.kern (h.sub _ h0)
  refine ⟨ht.pool, ?_, ?_, fun p hp => h.sub p (hmem.mp hp), ?_, ?_, ?_, ?_⟩
  · rw [ht.still.npages]
    exact h.window
  · rw [ht.still.npages]
    exact h.lt
  · rw [ht.still.kernPgdir]
    exact h.kern
  · rw [hD, ht.still.kernPgdir]
    refine ⟨h.dir.low, h.dir.self, fun i hi => ?_, h.dir.inj, fun p hp hl => ?_⟩
    · rcases h.dir.table i hi with h0 | ⟨hl, hw, hU, hn, hr⟩
      · exact Or.inl h0
      · exact Or.inr ⟨hl, hw, hU, fun h0 => hn (hmem.mp h0), (ht.ref _ hn).trans hr⟩
    · exact h.dir.cover p hp fun h0 => hl (hmem.mpr h0)
  · intro i j hi hj
    rw [hD]
    intro hp
    obtain ⟨-, -, -, hn, -⟩ := h.dir.of_present hi hp
    rw [ht.phys _ hn]
    exact h.entry i j hi hj hp
  · rw [hD]
    exact h.absent

/-! ## The device window -/

/-- The rights of a device mapping. -/
def mmioPerm : Word := ptePcd ||| ptePwt ||| pteW

theorem Booting.mmioMapRegion (h : Booting U s l E) (hU : U.Nodup) (h68 : 68 < U.length)
    (base size : Word) {n : ℕ} (hn : n ≤ 2)
    (hsize : roundup (0#32 + size) (BitVec.ofNat 32 pgsize) = BitVec.ofNat 32 (n * pgsize))
    (hbase : base = mmiobase ∨ base = mmiobase + 8192#32) :
    ∃ s' l', s.mmioMapRegion base 0#32 size = .ok (base, base + BitVec.ofNat 32 (n * pgsize), s') ∧
      Adds s s' ∧ Booting U s' l' (overlay E (pgnum base) n 0#32 mmioPerm) := by
  have hround : rounddown 0#32 (BitVec.ofNat 32 pgsize) = 0#32 := by decide
  have hpages : regionPages (BitVec.ofNat 32 (n * pgsize)) = n := by
    rw [regionPages, BitVec.toNat_ofNat, pgsize]
    split <;> omega
  have hto : base.toNat = 958 * 2 ^ 22 ∨ base.toNat = 958 * 2 ^ 22 + 8192 := by
    rcases hbase with rfl | rfl
    · exact Or.inl (by decide)
    · exact Or.inr (by decide)
  have hpg : pgnum base = 958 * 1024 ∨ pgnum base = 958 * 1024 + 2 := by
    rw [pgnum_eq]
    omega
  obtain ⟨s', l', hrun, hstill, h'⟩ := h.bootMapRegion hU h68 base
    (BitVec.ofNat 32 (n * pgsize)) (by rw [hpages, pgsize]; omega)
    (by
      intro k hk
      rw [hpages] at hk
      rw [kernIndex_iff, nptentries]
      omega) 0#32 mmioPerm
  rw [hpages] at h'
  refine ⟨s', l', ?_, hstill, h'⟩
  have hlim : ¬ mmiolim ≤ base + BitVec.ofNat 32 (n * pgsize) := by
    have hm : mmiolim.toNat = 959 * 2 ^ 22 := by decide
    rw [BitVec.le_def, BitVec.toNat_add, BitVec.toNat_ofNat, hm, pgsize]
    omega
  unfold Kernel.mmioMapRegion
  simp only [hsize, hround, BitVec.sub_zero, if_neg hlim]
  show (s.bootMapRegion s.kernPgdir base (BitVec.ofNat 32 (n * pgsize)) 0#32 mmioPerm >>= _) = _
  rw [hrun]
  rfl

/-- The entries while `check_page` looks at the device window. -/
def mmioEntries : ℕ → Word :=
  overlay (overlay (fun _ => 0#32) (pgnum mmiobase) 2 0#32 mmioPerm)
    (pgnum (mmiobase + 8192#32)) 1 0#32 mmioPerm

theorem mmioEntries_first : mmioEntries (pgnum mmiobase) = 0x1B#32 := by decide

theorem mmioEntries_second :
    mmioEntries (pgnum (mmiobase + BitVec.ofNat 32 pgsize)) = 0x101B#32 := by decide

theorem mmioEntries_third : mmioEntries (pgnum (mmiobase + 8192#32)) = 0x1B#32 := by decide

theorem mmioEntries_fourth :
    mmioEntries (pgnum (mmiobase + 8192#32 + BitVec.ofNat 32 pgsize)) = 0#32 := by decide

/-- Nothing else is mapped. -/
theorem mmioEntries_of_ne {x : ℕ} (h₁ : x ≠ pgnum mmiobase)
    (h₂ : x ≠ pgnum (mmiobase + BitVec.ofNat 32 pgsize)) (h₃ : x ≠ pgnum (mmiobase + 8192#32)) :
    mmioEntries x = 0#32 := by
  have e₁ : pgnum mmiobase = 980992 := by decide
  have e₂ : pgnum (mmiobase + BitVec.ofNat 32 pgsize) = 980993 := by decide
  have e₃ : pgnum (mmiobase + 8192#32) = 980994 := by decide
  rw [e₁] at h₁
  rw [e₂] at h₂
  rw [e₃] at h₃
  rw [mmioEntries, overlay, overlay, e₁, e₃, if_neg (by omega), if_neg (by omega)]

/-- **The part of `check_page` about `mmio_map_region`.**  The table stays, and is empty
again. -/
theorem Booting.checkMmio (h : Booting U s l fun _ => 0#32) (hU : U.Nodup) (h68 : 68 < U.length) :
    ∃ s' l', s.checkMmio mmiobase = .ok (mmiobase + 12288#32, s') ∧ Still s s' ∧
      Has (s'.phys s'.kernPgdir (pdx mmiobase)) pteP ∧ Booting U s' l' fun _ => 0#32 := by
  obtain ⟨s₁, l₁, hrun₁, hstill₁, h₁⟩ := h.mmioMapRegion hU h68 mmiobase 4097#32
    (n := 2) (by omega) (by decide) (Or.inl rfl)
  obtain ⟨s₂, l₂, hrun₂, hstill₂, h₂⟩ := h₁.mmioMapRegion hU h68 (mmiobase + 8192#32)
    4096#32 (n := 1) (by omega) (by decide) (Or.inr rfl)
  have hb : mmiobase + BitVec.ofNat 32 (2 * pgsize) = mmiobase + 8192#32 := by decide
  have hb' : mmiobase + 8192#32 + BitVec.ofNat 32 (1 * pgsize) = mmiobase + 12288#32 := by decide
  rw [hb] at hrun₁
  rw [hb'] at hrun₂
  replace h₂ : Booting U s₂ l₂ mmioEntries := h₂
  have hkd : s₂.kernPgdir = s.kernPgdir := hstill₂.still.kernPgdir.trans hstill₁.still.kernPgdir
  have i₁ : KernIndex (pdx mmiobase) := by decide
  have i₂ : KernIndex (pdx (mmiobase + BitVec.ofNat 32 pgsize)) := by decide
  have i₃ : KernIndex (pdx (mmiobase + 8192#32)) := by decide
  have i₄ : KernIndex (pdx (mmiobase + 8192#32 + BitVec.ofNat 32 pgsize)) := by decide
  -- what the test reads
  have c₁ := h₂.checkVa2pa i₁
  have c₂ := h₂.checkVa2pa i₂
  have c₃ := h₂.checkVa2pa i₃
  have c₄ := h₂.checkVa2pa i₄
  rw [mmioEntries_first, if_pos (by decide)] at c₁
  rw [mmioEntries_second, if_pos (by decide)] at c₂
  rw [mmioEntries_third, if_pos (by decide)] at c₃
  rw [mmioEntries_fourth, if_neg (by decide)] at c₄
  have v₁ : s₂.checkVa s.kernPgdir mmiobase 0#32 = .ok () := checkVa_of (by rw [← hkd]; exact c₁)
  have v₂ : s₂.checkVa s.kernPgdir (mmiobase + BitVec.ofNat 32 pgsize) (BitVec.ofNat 32 pgsize) =
      .ok () := checkVa_of (by rw [← hkd]; exact c₂)
  have v₃ : s₂.checkVa s.kernPgdir (mmiobase + 8192#32) 0#32 = .ok () :=
    checkVa_of (by rw [← hkd]; exact c₃)
  have v₄ : s₂.checkVa s.kernPgdir (mmiobase + 8192#32 + BitVec.ofNat 32 pgsize)
      (BitVec.allOnes 32) = .ok () := checkVa_of (by rw [← hkd]; exact c₄)
  -- the entries are cleared, one after the other
  have e₁₂ : pgnum (mmiobase + BitVec.ofNat 32 pgsize) ≠ pgnum mmiobase := by decide
  have e₁₃ : pgnum (mmiobase + 8192#32) ≠ pgnum mmiobase := by decide
  have e₂₃ : pgnum (mmiobase + 8192#32) ≠ pgnum (mmiobase + BitVec.ofNat 32 pgsize) := by decide
  have n₁ : mmioEntries (pgnum mmiobase) ≠ 0#32 := by
    rw [mmioEntries_first]
    decide
  have n₂ : Function.update mmioEntries (pgnum mmiobase) 0#32
      (pgnum (mmiobase + BitVec.ofNat 32 pgsize)) ≠ 0#32 := by
    rw [Function.update_of_ne e₁₂, mmioEntries_second]
    decide
  have n₃ : Function.update (Function.update mmioEntries (pgnum mmiobase) 0#32)
      (pgnum (mmiobase + BitVec.ofNat 32 pgsize)) 0#32 (pgnum (mmiobase + 8192#32)) ≠ 0#32 := by
    rw [Function.update_of_ne e₂₃, Function.update_of_ne e₁₃, mmioEntries_third]
    decide
  obtain ⟨x₁, a₁, e₁, hadd₁, h₃⟩ := h₂.entryAt i₁ n₁
  obtain ⟨x₂, a₂, -, hadd₂, h₄⟩ := h₃.entryAt i₂ n₂
  obtain ⟨x₃, a₃, -, hadd₃, h₅⟩ := h₄.entryAt i₃ n₃
  have hadds := (hadd₁.trans hadd₂).trans hadd₃
  have hk : ∀ {f k : ℕ} {x : Word} {t : Kernel}, (t.setWord f k x).kernPgdir = t.kernPgdir := rfl
  rw [hkd] at a₁
  rw [hk, hkd] at a₂
  rw [hk, hk, hkd] at a₃
  rw [mmioEntries_first] at e₁
  have p₁ : Has (s₂.phys x₁.1 x₁.2) (pteW ||| ptePwt ||| ptePcd) := by
    rw [e₁]
    decide
  have p₂ : ¬ Has (s₂.phys x₁.1 x₁.2) pteU := by
    rw [e₁]
    decide
  refine ⟨_, l₂, ?_, ((hstill₁.trans hstill₂).trans hadds).still,
    hadds.tables _ (h₂.present_of_entry i₁ n₁), h₅.congr fun x => ?_⟩
  · unfold Kernel.checkMmio
    rw [hrun₁, ok_bind]
    dsimp only
    rw [hrun₂, ok_bind]
    dsimp only
    rw [assert_of (by decide), ok_bind, assert_of (by decide), ok_bind, assert_of (by decide),
      ok_bind, assert_of (by decide), ok_bind, v₁, ok_bind, v₂, ok_bind, v₃, ok_bind, v₄, ok_bind,
      a₁, ok_bind, assert_of p₁, ok_bind, assert_of p₂, ok_bind, a₂, ok_bind, a₃, ok_bind]
    rfl
  · simp only [Function.update_apply]
    split_ifs with h3 h2 h1
    · rfl
    · rfl
    · rfl
    · exact mmioEntries_of_ne h1 h2 h3

end Kernel
end PmakeOs
