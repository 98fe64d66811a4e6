import PmakeOs.Paging.Operations
import PmakeOs.Kernel.Local

/-!
# A page directory refines a finite map

Seen from outside, the user half of a page directory is a finite map from virtual
page numbers to pairs of a page and its flags.  `tableMap` reads that map off the
two levels, and this file compares the four operations of `kern/pmap.c` with the
four operations on the map: `page_insert` updates it at one point, `page_remove`
deletes a point, `page_lookup` looks a point up, and so does the reference walker
`check_va2pa`.

The representation invariant is `WellFormed`: a present directory entry below
`UTOP` points to a table of its own, and a table entry is zero or present.  The
pages that the entries map must not be tables themselves, or removing a mapping
could free a table, and must be counted at least once for each mapping, or
removing one mapping could free a page that another still shows; the second part
is `Covers`.

The processor sees more of an update than its point: `page_insert` adds `perm` to the
directory entry too, and at `UVPT` the directory itself is one of the tables.
`OthersKept` says what that does to the other pages.

A well-formed directory is one address space, so it is typed by the family with
one owner, and everything follows from the operations on ledgers.
-/

namespace PmakeOs

open Lib

namespace Kernel

variable {s s' : Kernel} {ρ ρ' : ℕ → Role} {due : ℕ → ℕ} {pend : ℕ → Prop} {d pp : ℕ}
  {va perm : Word}

/-! ## The map and the invariant -/

/-- The flags of an entry: its low twelve bits. -/
def pteFlags (w : Word) : Word := w &&& 0xFFF#32

/-- The finite map that the user half of directory `d` represents. -/
def tableMap (m : Phys) (d vpn : ℕ) : Option (ℕ × Word) :=
  if vpn < upn then (userPte m d vpn).map fun w => (frame w, pteFlags w) else none

/-- The page is on `page_free_list`. -/
def OnFreeList (s : Kernel) (p : ℕ) : Prop := ∃ l, Threads s.links s.pageFreeList l ∧ p ∈ l

/-- An entry of `d` points to the page. -/
def IsTable (s : Kernel) (d p : ℕ) : Prop :=
  ∃ i < npdentries, Has (s.phys d i) pteP ∧ frame (s.phys d i) = p

/-- The page is allocated, and is neither the directory nor a table. -/
structure Plain (s : Kernel) (d p : ℕ) : Prop where
  lt : p < s.npages
  ne_dir : p ≠ d
  not_table : ¬ IsTable s d p
  not_free : ¬ OnFreeList s p

/-- **The directory is well formed.** -/
structure WellFormed (s : Kernel) (d : ℕ) : Prop where
  /-- Every page has an address above `KERNBASE`. -/
  window : s.npages ≤ kernWindow
  /-- The free list ends, its pages exist, and no other page has a link. -/
  freeList : ∃ l, Threads s.links s.pageFreeList l ∧ (∀ p ∈ l, p < s.npages) ∧
    ∀ p, p ∉ l → s.links p = none
  /-- The directory is an allocated page. -/
  dir : d < s.npages ∧ ¬ OnFreeList s d
  /-- A present directory entry points to an allocated page other than the
  directory. -/
  table : ∀ {i}, i < pdx utop → Has (s.phys d i) pteP →
    frame (s.phys d i) < s.npages ∧ frame (s.phys d i) ≠ d ∧ ¬ OnFreeList s (frame (s.phys d i))
  /-- No other directory entry points to the table. -/
  table_inj : ∀ {i i'}, i < pdx utop → i' < npdentries → Has (s.phys d i) pteP →
    Has (s.phys d i') pteP → frame (s.phys d i) = frame (s.phys d i') → i = i'
  /-- The directory entries above `UTOP` point to allocated pages. -/
  kernel : ∀ {i}, pdx utop ≤ i → i < npdentries → Has (s.phys d i) pteP →
    frame (s.phys d i) < s.npages ∧ ¬ OnFreeList s (frame (s.phys d i))
  /-- A table entry is zero, or is present and maps a plain page. -/
  entry : ∀ {i j}, i < pdx utop → Has (s.phys d i) pteP → j < nptentries →
    s.phys (frame (s.phys d i)) j = 0#32 ∨ Has (s.phys (frame (s.phys d i)) j) pteP ∧
      Plain s d (frame (s.phys (frame (s.phys d i)) j))

/-- The family of address spaces that consists of `d`. -/
def alone (d : ℕ) (e : ℕ) : Option ℕ := if e = 0 then some d else none

/-- Every page is counted at least once for each of its mappings in `d`. -/
def Covers (s : Kernel) (d : ℕ) : Prop :=
  ∀ q, Plain s d q → refCount s.phys (alone d) q ≤ (s.pages q).ppRef.toNat

/-! ## Flags -/

theorem toNat_pteFlags (w : Word) : (pteFlags w).toNat = w.toNat % 2 ^ 12 :=
  toNat_and_mask w (show 12 ≤ 32 by decide)

theorem pteFlags_page2pa (p : ℕ) : pteFlags (page2pa p) = 0#32 := by
  have h := not_has_page2pa p (show (0xFFF#32).toNat < 2 ^ 12 by decide)
  exact not_not.mp h

theorem pteFlags_of_lt {w : Word} (h : w.toNat < 2 ^ 12) : pteFlags w = w := by
  apply BitVec.eq_of_toNat_eq
  rw [toNat_pteFlags, Nat.mod_eq_of_lt h]

theorem pteFlags_or (a b : Word) : pteFlags (a ||| b) = pteFlags a ||| pteFlags b := by
  unfold pteFlags
  rw [BitVec.and_or_distrib_right]

/-- The flags of the entry that `page_insert` stores. -/
theorem pteFlags_entry (pp : ℕ) (hperm : perm.toNat < 2 ^ 12) :
    pteFlags (page2pa pp ||| perm ||| pteP) = perm ||| pteP := by
  rw [pteFlags_or, pteFlags_or, pteFlags_page2pa, pteFlags_of_lt hperm,
    pteFlags_of_lt (show pteP.toNat < 2 ^ 12 by decide), BitVec.zero_or]

/-! ## The typing of a well-formed directory -/

theorem alone_eq_some {e d' : ℕ} : alone d e = some d' ↔ e = 0 ∧ d' = d := by
  unfold alone
  by_cases he : e = 0
  · simp [he, eq_comm]
  · simp [he]

/-- The map, entry by entry. -/
theorem tableMap_eq (m : Phys) (d vpn : ℕ) :
    tableMap m d vpn = (entryOf m (alone d) (0, vpn)).map fun w => (frame w, pteFlags w) := by
  unfold tableMap entryOf alone
  by_cases h : vpn < upn
  · simp [h]
  · simp [h]

theorem pdx_utop_lt : pdx utop < npdentries := by decide

/-- The page is one of the tables of the user half of `d`. -/
def IsUserTable (s : Kernel) (d p : ℕ) : Prop :=
  ∃ i < pdx utop, Has (s.phys d i) pteP ∧ frame (s.phys d i) = p

theorem IsUserTable.isTable {p : ℕ} (h : IsUserTable s d p) : IsTable s d p := by
  obtain ⟨i, hi, hp, hf⟩ := h
  exact ⟨i, hi.trans pdx_utop_lt, hp, hf⟩

open Classical in
/-- The roles of the frames, read off a well-formed directory. -/
noncomputable def roles (s : Kernel) (d f : ℕ) : Role :=
  if OnFreeList s f then .free
  else if f = d then .dir 0
  else if h : IsUserTable s d f then .table 0 h.choose
  else if IsTable s d f then .kern
  else if f < s.npages then .data
  else .reserved

theorem roles_eq_free {f : ℕ} : roles s d f = .free ↔ OnFreeList s f := by
  unfold roles
  split_ifs <;> simp_all

theorem roles_eq_dir {f e : ℕ} (h : WellFormed s d) : roles s d f = .dir e ↔ e = 0 ∧ f = d := by
  unfold roles
  split_ifs with h1 h2
  · simp only [false_iff]
    rintro ⟨-, rfl⟩
    exact h.dir.2 h1
  · simp only [Role.dir.injEq, h2, and_true]
    exact eq_comm
  · simp [h2]
  · simp [h2]
  · simp [h2]
  · simp [h2]

theorem roles_eq_table {i f e : ℕ} (h : WellFormed s d) : roles s d f = .table e i ↔
    e = 0 ∧ i < pdx utop ∧ Has (s.phys d i) pteP ∧ frame (s.phys d i) = f := by
  constructor
  · intro hr
    unfold roles at hr
    split_ifs at hr with h1 h2 h3
    obtain ⟨rfl, rfl⟩ := Role.table.inj hr
    exact ⟨rfl, h3.choose_spec⟩
  · rintro ⟨rfl, hi, hp, rfl⟩
    obtain ⟨-, hne, hfree⟩ := h.table hi hp
    have hex : IsUserTable s d (frame (s.phys d i)) := ⟨i, hi, hp, rfl⟩
    have hch := hex.choose_spec
    unfold roles
    rw [if_neg hfree, if_neg hne, dif_pos hex]
    rw [h.table_inj hch.1 (hi.trans pdx_utop_lt) hch.2.1 hp hch.2.2]

theorem isTable_of_roles {f : ℕ} (hr : roles s d f = .kern) : IsTable s d f := by
  unfold roles at hr
  split_ifs at hr with h1 h2 h3 h4
  exact h4

theorem roles_eq_data {f : ℕ} : roles s d f = .data ↔ Plain s d f := by
  constructor
  · intro hr
    unfold roles at hr
    split_ifs at hr with h1 h2 h3 h4 h5
    exact ⟨h5, h2, h4, h1⟩
  · intro h
    unfold roles
    rw [if_neg h.not_free, if_neg h.ne_dir, dif_neg fun h0 => h.not_table h0.isTable,
      if_neg h.not_table, if_pos h.lt]

theorem OnFreeList.iff_mem {l : List ℕ} (ht : Threads s.links s.pageFreeList l) {p : ℕ} :
    OnFreeList s p ↔ p ∈ l := by
  constructor
  · rintro ⟨l', ht', hp⟩
    rwa [ht.unique ht']
  · exact fun hp => ⟨l, ht, hp⟩

/-- **A well-formed directory is typed.** -/
theorem WellFormed.typed (h : WellFormed s d) : Typed s (alone d) (roles s d) := by
  obtain ⟨l, ht, hlt, hlink⟩ := h.freeList
  refine ⟨h.window, fun {p} hp => ?_, ⟨⟨l, ht, fun p => ?_⟩, fun {p} hp => ?_⟩, ?_⟩
  · unfold roles at hp
    split_ifs at hp with h1 h2 h3 h4 h5
    · exact hlt p ((OnFreeList.iff_mem ht).mp h1)
    · rw [h2]
      exact h.dir.1
    · obtain ⟨i, hi, hpr, rfl⟩ := h3
      exact (h.table hi hpr).1
    · obtain ⟨i, hi, hpr, rfl⟩ := h4
      have hle : pdx utop ≤ i := by
        by_contra hlow
        exact h3 ⟨i, not_le.mp hlow, hpr, rfl⟩
      exact (h.kernel hle hi hpr).1
    · exact h5
    · exact absurd rfl hp
  · rw [roles_eq_free, OnFreeList.iff_mem ht]
  · refine hlink p fun hmem => hp ?_
    rw [roles_eq_free, OnFreeList.iff_mem ht]
    exact hmem
  · constructor
    · intro e d' hd'
      obtain ⟨rfl, -⟩ := alone_eq_some.mp hd'
      decide
    · intro e d'
      rw [alone_eq_some, roles_eq_dir h]
    · intro e d' i hd' hi hp
      obtain ⟨rfl, rfl⟩ := alone_eq_some.mp hd'
      exact (roles_eq_table h).mpr ⟨rfl, hi, hp, rfl⟩
    · intro e i t hr
      obtain ⟨rfl, hi, hp, hf⟩ := (roles_eq_table h).mp hr
      exact ⟨d, alone_eq_some.mpr ⟨rfl, rfl⟩, hi, hp, hf⟩
    · intro e i t j hr hj
      obtain ⟨rfl, hi, hp, rfl⟩ := (roles_eq_table h).mp hr
      exact (h.entry hi hp hj).imp id fun h' => ⟨h'.1, roles_eq_data.mpr h'.2⟩

/-- The entries of `d` above `UTOP` point to `d` itself and to the tables of the kernel. -/
structure KernelHalf (s : Kernel) (d : ℕ) (ρ : ℕ → Role) : Prop where
  points : ∀ {i}, pdx utop ≤ i → i < npdentries → Has (s.phys d i) pteP →
    frame (s.phys d i) = d ∨ ρ (frame (s.phys d i)) = .kern
  back : ∀ {f}, ρ f = .kern → IsTable s d f

theorem WellFormed.kernelHalf (h : WellFormed s d) : KernelHalf s d (roles s d) := by
  refine ⟨fun {i} hi hlt hp => ?_, isTable_of_roles⟩
  have htab : IsTable s d (frame (s.phys d i)) := ⟨i, hlt, hp, rfl⟩
  have huser : ¬ IsUserTable s d (frame (s.phys d i)) := by
    rintro ⟨i', hi', hp', hf⟩
    have heq := h.table_inj hi' hlt hp' hp hf
    omega
  unfold roles
  rw [if_neg (h.kernel hi hlt hp).2, dif_neg huser, if_pos htab]
  split_ifs with hd
  · exact Or.inl hd
  · exact Or.inr rfl

/-- The kernel half stays what it is when its words and its tables do. -/
theorem KernelHalf.congr (h : KernelHalf s d ρ)
    (hdir : ∀ i, pdx utop ≤ i → s'.phys d i = s.phys d i)
    (hlow : ∀ i < pdx utop, Has (s.phys d i) pteP → ρ (frame (s.phys d i)) ≠ .kern)
    (hkern : ∀ f, ρ' f = .kern ↔ ρ f = .kern) : KernelHalf s' d ρ' := by
  refine ⟨fun {i} hi hlt hp => ?_, fun {f} hf => ?_⟩
  · rw [hdir i hi] at hp ⊢
    exact (h.points hi hlt hp).imp id (hkern _).mpr
  · obtain ⟨i, hi, hp, rfl⟩ := h.back ((hkern f).mp hf)
    have hle : pdx utop ≤ i := by
      by_contra hlt
      exact hlow i (not_le.mp hlt) hp ((hkern _).mp hf)
    exact ⟨i, hi, by rw [hdir i hle]; exact hp, by rw [hdir i hle]⟩

/-- In a typed state with one owner, the frames of `d` are what their roles say. -/
theorem Typed.plain (h : Typed s (alone d) ρ) (hk : KernelHalf s d ρ) {q : ℕ} (hq : ρ q = .data) :
    Plain s d q := by
  have hd : ρ d = .dir 0 := h.tree.dir.mp (alone_eq_some.mpr ⟨rfl, rfl⟩)
  refine ⟨h.lt (by rw [hq]; simp), ?_, ?_, ?_⟩
  · exact ne_of_role ρ (by rw [hq, hd]; simp)
  · rintro ⟨i, hi, hp, rfl⟩
    rcases Nat.lt_or_ge i (pdx utop) with hlt | hge
    · rw [h.tree.table (alone_eq_some.mpr ⟨rfl, rfl⟩) hlt hp] at hq
      cases hq
    · rcases hk.points hge hi hp with h0 | h0
      · rw [h0, hd] at hq
        cases hq
      · rw [h0] at hq
        cases hq
  · rintro ⟨l, ht, hmem⟩
    obtain ⟨l', ht', hl'⟩ := h.free.list
    rw [ht.unique ht', hl', hq] at hmem
    cases hmem

theorem Typed.not_onFreeList (h : Typed s (alone d) ρ) {q : ℕ} (hq : ρ q ≠ .free) :
    ¬ OnFreeList s q := by
  rintro ⟨l, ht, hmem⟩
  obtain ⟨l', ht', hl'⟩ := h.free.list
  rw [ht.unique ht', hl'] at hmem
  exact hq hmem

/-- **A typed state with one owner has a well-formed directory.** -/
theorem Typed.wellFormed (h : Typed s (alone d) ρ) (hk : KernelHalf s d ρ) : WellFormed s d := by
  have hd : alone d 0 = some d := alone_eq_some.mpr ⟨rfl, rfl⟩
  have hdir := h.tree.dir.mp hd
  have hhigh : ∀ {i}, pdx utop ≤ i → i < npdentries → Has (s.phys d i) pteP →
      ρ (frame (s.phys d i)) = .dir 0 ∨ ρ (frame (s.phys d i)) = .kern := by
    intro i hi hlt hp
    rcases hk.points hi hlt hp with h0 | h0
    · rw [h0]
      exact Or.inl hdir
    · exact Or.inr h0
  constructor
  · exact h.window
  · obtain ⟨l, ht, hl⟩ := h.free.list
    refine ⟨l, ht, fun p hp => ?_, fun p hp => ?_⟩
    · exact h.lt (by rw [(hl p).mp hp]; simp)
    · exact h.free.link fun h0 => hp ((hl p).mpr h0)
  · exact ⟨h.lt (by rw [hdir]; simp), h.not_onFreeList (by rw [hdir]; simp)⟩
  · intro i hi hp
    have htab := h.tree.table hd hi hp
    refine ⟨h.lt (by rw [htab]; simp), ne_of_role ρ (by rw [htab, hdir]; simp), ?_⟩
    exact h.not_onFreeList (by rw [htab]; simp)
  · intro i i' hi hi' hp hp' hff
    have htab := h.tree.table hd hi hp
    rcases Nat.lt_or_ge i' (pdx utop) with hlt | hge
    · rw [hff, h.tree.table hd hlt hp'] at htab
      exact (Role.table.inj htab).2.symm
    · -- a table of the kernel half has another role
      rw [hff] at htab
      rcases hhigh hge hi' hp' with h0 | h0
      · rw [h0] at htab
        cases htab
      · rw [h0] at htab
        cases htab
  · intro i hi hlt hp
    rcases hhigh hi hlt hp with h0 | h0
    · exact ⟨h.lt (by rw [h0]; simp), h.not_onFreeList (by rw [h0]; simp)⟩
    · exact ⟨h.lt (by rw [h0]; simp), h.not_onFreeList (by rw [h0]; simp)⟩
  · intro i j hi hp hj
    exact (h.tree.entry (h.tree.table hd hi hp) hj).imp id fun h' => ⟨h'.1, h.plain hk h'.2⟩

/-! ## The ledger of a well-formed directory -/

/-- The pointers to a page that the directory does not account for. -/
noncomputable def surplus (s : Kernel) (d q : ℕ) : ℕ :=
  ((s.pages q).ppRef.toNat + 2 ^ 16 - (roles s d q).own) % 2 ^ 16 - refCount s.phys (alone d) q

theorem own_le_one (r : Role) : r.own ≤ 1 := by
  cases r <;> simp [Role.own]

theorem WellFormed.refCount_le (h : WellFormed s d) (hc : Covers s d) (q : ℕ) :
    refCount s.phys (alone d) q ≤
      ((s.pages q).ppRef.toNat + 2 ^ 16 - (roles s d q).own) % 2 ^ 16 := by
  by_cases hq : roles s d q = .data
  · have hle := hc q (roles_eq_data.mp hq)
    have hlt := (s.pages q).ppRef.isLt
    rw [hq, Role.own_data]
    omega
  · rw [h.typed.tree.refCount_eq_zero hq]
    exact Nat.zero_le _

theorem WellFormed.ledger (h : WellFormed s d) (hc : Covers s d) :
    Ledger s (alone d) (roles s d) (surplus s d) (fun _ => True) := by
  refine ⟨h.typed, fun {q} _ => ?_, fun _ => Or.inr trivial⟩
  have hle := h.refCount_le hc q
  have hown := own_le_one (roles s d q)
  have hlt := (s.pages q).ppRef.isLt
  apply BitVec.eq_of_toNat_eq
  rw [BitVec.toNat_ofNat, surplus]
  omega

theorem WellFormed.total_lt (h : WellFormed s d) (hc : Covers s d) (q : ℕ) :
    refCount s.phys (alone d) q + surplus s d q < 2 ^ 16 := by
  have hle := h.refCount_le hc q
  rw [surplus]
  omega

theorem Typed.role_of_plain (h : Typed s (alone d) ρ) (hk : KernelHalf s d ρ) {q : ℕ}
    (hq : Plain s d q) (hr : ρ q ≠ .reserved) : ρ q = .data := by
  cases hρ : ρ q with
  | reserved => exact absurd hρ hr
  | kern => exact absurd (hk.back hρ) hq.not_table
  | free =>
    obtain ⟨l, ht, hl⟩ := h.free.list
    exact absurd ⟨l, ht, (hl q).mpr hρ⟩ hq.not_free
  | dir e => exact absurd (alone_eq_some.mp (h.tree.dir.mpr hρ)).2 hq.ne_dir
  | table e i =>
    obtain ⟨d', hd', hi, hp, hf⟩ := h.tree.table_back hρ
    obtain ⟨rfl, rfl⟩ := alone_eq_some.mp hd'
    exact absurd ⟨i, hi.trans pdx_utop_lt, hp, hf⟩ hq.not_table
  | data => rfl

theorem roles_ne_reserved {f : ℕ} (hf : f < s.npages) : roles s d f ≠ .reserved := by
  unfold roles
  split_ifs <;> simp

/-- The counts still cover the mappings after an operation that left a ledger. -/
theorem Ledger.covers (h : Ledger s' (alone d) ρ' (surplus s d) pend) (hk : KernelHalf s' d ρ')
    (hn : s'.npages = s.npages) (hrole : ∀ f, ρ' f = roles s d f ∨ ρ' f ≠ .reserved)
    (hlt : ∀ q, refCount s'.phys (alone d) q + surplus s d q < 2 ^ 16) : Covers s' d := by
  intro q hq
  have hqlt : q < s.npages := by rw [← hn]; exact hq.lt
  have hdata : ρ' q = .data := by
    refine h.typed.role_of_plain hk hq ?_
    rcases hrole q with hr | hr
    · rw [hr]
      exact roles_ne_reserved hqlt
    · exact hr
  have hlt' := hlt q
  rw [h.count (by rw [hdata]; simp), hdata, Role.own_data, Nat.add_zero, BitVec.toNat_ofNat,
    Nat.mod_eq_of_lt hlt']
  omega

/-! ## The walk of the processor -/

/-- The walk of the processor, in terms of the present entry. -/
theorem mmuWalk_eq (m : Phys) (d vpn : ℕ) :
    mmuWalk m d vpn = (userPte m d vpn).map fun w =>
      ⟨frame w, decide (Has (m d (vpn / nptentries)) pteU ∧ Has w pteU),
        decide (Has (m d (vpn / nptentries)) pteW ∧ Has w pteW)⟩ := by
  simp only [mmuWalk, userPte]
  split_ifs with h
  · rfl
  · rfl

theorem userPte_eq_entryOf {m : Phys} {vpn : ℕ} (h : vpn < upn) :
    userPte m d vpn = entryOf m (alone d) (0, vpn) := by
  simp [entryOf, alone, h]

theorem pde_of_userPte {m : Phys} {vpn : ℕ} {w : Word} (h : userPte m d vpn = some w) :
    Has (m d (vpn / nptentries)) pteP := by
  by_contra hp
  simp [userPte, hp] at h

/-- The walk of a user page, if its directory entry had the flags `more` too. -/
def mmuWalkWith (m : Phys) (d vpn : ℕ) (more : Word) : Option Translation :=
  let pde := m d (vpn / nptentries) ||| more
  (userPte m d vpn).map fun w =>
    ⟨frame w, decide (Has pde pteU ∧ Has w pteU), decide (Has pde pteW ∧ Has w pteW)⟩

/-- What the processor sees of the pages other than the page of `va`, when `perm` has been added
to the directory entry of `va`. -/
structure OthersKept (s s' : Kernel) (d : ℕ) (va perm : Word) : Prop where
  /-- A user page of another table keeps its translation, and one of the same table keeps its
  frame and gets the rights that its directory entry and `perm` grant together. -/
  user : ∀ vpn, vpn < upn → vpn ≠ pgnum va → mmuWalk s'.phys d vpn =
    if vpn / nptentries = pdx va then mmuWalkWith s.phys d vpn perm else mmuWalk s.phys d vpn
  /-- A page above `UTOP` keeps its translation, but for the page through which the table of
  `va` is seen, where the directory is one of its own tables. -/
  kernel : ∀ vpn, upn ≤ vpn → vpn < npdentries * nptentries →
    ¬ (Has (s.phys d (vpn / nptentries)) pteP ∧ frame (s.phys d (vpn / nptentries)) = d ∧
      vpn % nptentries = pdx va) →
    mmuWalk s'.phys d vpn = mmuWalk s.phys d vpn

theorem le_index {vpn : ℕ} (h : upn ≤ vpn) : pdx utop ≤ vpn / nptentries := by
  rw [upn_eq] at h
  rw [pdx_utop, nptentries]
  omega

/-- A translation is kept when the words it is read from are. -/
theorem mmuWalk_congr {m m' : Phys} {vpn : ℕ}
    (hd : m' d (vpn / nptentries) = m d (vpn / nptentries))
    (ht : m' (frame (m d (vpn / nptentries))) (vpn % nptentries) =
      m (frame (m d (vpn / nptentries))) (vpn % nptentries)) :
    mmuWalk m' d vpn = mmuWalk m d vpn := by
  unfold mmuWalk
  simp only [hd, ht]

/-- The pages above `UTOP` are translated as before, if the directory is changed only below
it, and only in the words through which other frames than `f` are not seen. -/
theorem KernelHalf.mmuWalk_eq (h : KernelHalf s d ρ) {vpn : ℕ} (hle : upn ≤ vpn)
    (hlt : vpn < npdentries * nptentries) (hdir : ∀ i, pdx utop ≤ i → s'.phys d i = s.phys d i)
    (hkern : ∀ f k, ρ f = .kern → s'.phys f k = s.phys f k)
    (hself : Has (s.phys d (vpn / nptentries)) pteP → frame (s.phys d (vpn / nptentries)) = d →
      s'.phys d (vpn % nptentries) = s.phys d (vpn % nptentries)) :
    mmuWalk s'.phys d vpn = mmuWalk s.phys d vpn := by
  have hpde := hdir _ (le_index hle)
  by_cases hp : Has (s.phys d (vpn / nptentries)) pteP
  · refine mmuWalk_congr hpde ?_
    rcases h.points (le_index hle) (Nat.div_lt_of_lt_mul (by rwa [Nat.mul_comm])) hp with h0 | h0
    · rw [h0]
      exact hself hp h0
    · exact hkern _ _ h0
  · unfold mmuWalk
    simp only [hpde, hp, false_and, if_false]

/-! ## The operations -/

/-- **`page_lookup` is lookup, and agrees with `check_va2pa`.** -/
theorem WellFormed.pageLookup (h : WellFormed s d) (hva : va < utop) :
    ∃ o, s.pageLookup d va = .ok o ∧
      (o.map fun r => (r.1, pteFlags (s.phys r.2.1 r.2.2))) = tableMap s.phys d (pgnum va) ∧
      s.checkVa2pa d va = .ok (o.elim (BitVec.allOnes 32) fun r => page2pa r.1) := by
  have hd : alone d 0 = some d := alone_eq_some.mpr ⟨rfl, rfl⟩
  have hk : Has (s.phys d (pdx va)) pteP → s.kaddr (pteAddr (s.phys d (pdx va))) =
      .ok (frame (s.phys d (pdx va))) := by
    intro hp
    have hlt := (h.table ((lt_utop_iff va).mp hva) hp).1
    exact kaddr_of_lt hlt (lt_of_lt_of_le hlt h.window)
  rcases h.typed.pageLookup hd hva with ⟨hnone, hlook⟩ |
    ⟨t, w, hp, ht, -, hw, hpr, hdata, hsome, hlook⟩
  · refine ⟨none, hlook, by rw [tableMap_eq, hnone]; rfl, ?_⟩
    unfold checkVa2pa
    by_cases hp : Has (s.phys d (pdx va)) pteP
    · rw [entryOf_pgnum_of_present s.phys hd hva hp] at hnone
      have hnp : ¬ Has (s.phys (frame (s.phys d (pdx va))) (ptx va)) pteP := by
        intro hpr
        rw [if_pos hpr] at hnone
        cases hnone
      rw [if_neg (not_not_intro hp), hk hp]
      show (if ¬ Has (s.phys (frame (s.phys d (pdx va))) (ptx va)) pteP then _ else _) = _
      rw [if_pos hnp]
      rfl
    · rw [if_pos hp]
      rfl
  · subst hw
    refine ⟨_, hlook, by rw [tableMap_eq, hsome]; rfl, ?_⟩
    have haddr : pteAddr (s.phys t (ptx va)) = page2pa (frame (s.phys t (ptx va))) := by
      apply BitVec.eq_of_toNat_eq
      have hm : (pteAddr (s.phys t (ptx va))).toNat / 2 ^ 12 =
          (s.phys t (ptx va)).toNat / 2 ^ 12 := toNat_and_not_mask_div _ 12
      have hz : (pteAddr (s.phys t (ptx va))).toNat % 2 ^ 12 = 0 := by
        rw [← toNat_pteFlags, pteFlags, pteAddr, BitVec.and_assoc]
        simp
      rw [toNat_page2pa (frame_lt _), frame_eq]
      omega
    unfold checkVa2pa
    rw [if_neg (not_not_intro hp), hk hp, ht]
    show (if ¬ Has (s.phys t (ptx va)) pteP then _ else _) = _
    rw [if_neg (not_not_intro hpr), haddr]
    rfl

/-- One entry is written, and the map is updated there. -/
theorem tableMap_of_entries {m m' : Phys} {o : Option Word}
    (he : entryOf m' (alone d) = Function.update (entryOf m (alone d)) (0, pgnum va) o) :
    tableMap m' d =
      Function.update (tableMap m d) (pgnum va) (o.map fun w => (frame w, pteFlags w)) := by
  funext vpn
  rw [tableMap_eq, he]
  by_cases hv : vpn = pgnum va
  · subst hv
    rw [Function.update_self, Function.update_self]
  · rw [Function.update_of_ne hv, Function.update_of_ne (fun h0 => hv (Prod.mk.inj h0).2),
      tableMap_eq]

theorem userPte_of_entries {m m' : Phys} {o : Option Word} {vpn : ℕ}
    (he : entryOf m' (alone d) = Function.update (entryOf m (alone d)) (0, pgnum va) o)
    (hv : vpn < upn) (hne : vpn ≠ pgnum va) : userPte m' d vpn = userPte m d vpn := by
  rw [userPte_eq_entryOf hv, userPte_eq_entryOf hv, he,
    Function.update_of_ne (fun h0 => hne (Prod.mk.inj h0).2)]

theorem mem_userPages_alone (hva : va < utop) : ((0, pgnum va) : ℕ × ℕ) ∈ userPages := by
  rw [mem_userPages]
  exact ⟨show 0 < nenv by decide, pgnum_lt_upn hva⟩

/-- **`page_remove` is deletion**, and nothing else changes for the processor. -/
theorem WellFormed.pageRemove (h : WellFormed s d) (hc : Covers s d) (hva : va < utop) :
    ∃ s', s.pageRemove d va = .ok s' ∧
      tableMap s'.phys d = Function.update (tableMap s.phys d) (pgnum va) none ∧
      (tableMap s.phys d (pgnum va) = none → s' = s) ∧
      (∀ vpn < npdentries * nptentries, vpn ≠ pgnum va →
        mmuWalk s'.phys d vpn = mmuWalk s.phys d vpn) ∧
      WellFormed s' d ∧ Covers s' d := by
  have hd : alone d 0 = some d := alone_eq_some.mpr ⟨rfl, rfl⟩
  have hdir := h.typed.tree.dir.mp hd
  have hlt := h.total_lt hc
  obtain ⟨s', ρ', hrun, hled, hrem⟩ := (h.ledger hc).pageRemove hd hva (fun w _ => (hlt (frame w)).le)
  have hdirs : ∀ i, s'.phys d i = s.phys d i := fun i =>
    hrem.phys d i (fun i' hi' => by rw [hdir] at hi'; exact nomatch hi')
  have hkern : KernelHalf s' d ρ' := by
    refine h.kernelHalf.congr (fun i _ => hdirs i) (fun i hi hp => ?_) fun f => ?_
    · rw [h.typed.tree.table hd hi hp]
      exact nofun
    · rcases hrem.role f with hr | ⟨hr, hr', -⟩
      · rw [hr]
      · simp [hr, hr']
  refine ⟨s', hrun, tableMap_of_entries hrem.entries, fun hnone => ?_, fun vpn hvpn hne => ?_,
    hled.typed.wellFormed hkern, ?_⟩
  · -- nothing is mapped, so the lookup finds nothing
    obtain ⟨o, hlook, ho, -⟩ := h.pageLookup hva
    rw [hnone, Option.map_eq_none_iff] at ho
    subst ho
    rw [pageRemove_of_lookup_none hlook] at hrun
    exact (Except.ok.inj hrun).symm
  · rcases Nat.lt_or_ge vpn upn with hlow | hhigh
    · rw [mmuWalk_eq, mmuWalk_eq, userPte_of_entries hrem.entries hlow hne]
      simp only [hdirs]
    · refine h.kernelHalf.mmuWalk_eq hhigh hvpn (fun i _ => hdirs i) (fun f k hf => ?_)
        fun _ _ => hdirs _
      exact hrem.phys f k fun i => by rw [hf]; simp
  · refine hled.covers hkern (memoryOnly_of_pageRemove hrun).npages (fun f => ?_) (fun q => ?_)
    · exact (hrem.role f).imp id fun hr => by rw [hr.2.1]; simp
    · have hmove := refCount_update (mem_userPages_alone hva) hrem.entries q
      have hq := hlt q
      simp only [Option.map_none, reduceCtorEq, if_false] at hmove
      omega

/-- The other user pages after an insertion, by the directory entry that it leaves. -/
theorem mmuWalk_of_pde {m m' : Phys} {vpn : ℕ} {more : Word}
    (hpte : userPte m' d vpn = userPte m d vpn)
    (hpde : Has (m d (vpn / nptentries)) pteP →
      m' d (vpn / nptentries) = m d (vpn / nptentries) ||| more) :
    mmuWalk m' d vpn = mmuWalkWith m d vpn more := by
  rw [mmuWalk_eq, mmuWalkWith, hpte]
  cases hu : userPte m d vpn with
  | none => rfl
  | some w => rw [hpde (pde_of_userPte hu)]

section Inserted

variable (h : WellFormed s d) (hva : va < utop)
  (hins : Inserted s s' (alone d) (roles s d) ρ' 0 d va pp perm)
include h hins

theorem WellFormed.dir_of_inserted {i : ℕ} (hi : i ≠ pdx va) : s'.phys d i = s.phys d i := by
  have hdir : roles s d d = .dir 0 := h.typed.tree.dir.mp (alone_eq_some.mpr ⟨rfl, rfl⟩)
  exact hins.phys d i (by rw [hdir]; simp) (fun i' => by rw [hdir]; simp) fun h0 => hi h0.2

include hva

theorem WellFormed.high_of_inserted {i : ℕ} (hi : pdx utop ≤ i) : s'.phys d i = s.phys d i := by
  refine h.dir_of_inserted hins ?_
  have := (lt_utop_iff va).mp hva
  omega

theorem WellFormed.kernelHalf_of_inserted : KernelHalf s' d ρ' := by
  refine h.kernelHalf.congr (fun i => h.high_of_inserted hva hins) (fun i hi hp => ?_) fun f => ?_
  · rw [h.typed.tree.table (alone_eq_some.mpr ⟨rfl, rfl⟩) hi hp]
    exact fun h0 => by cases h0
  · rcases hins.role f with hr | ⟨hr, hr'⟩ | ⟨hr, hr', -⟩
    · rw [hr]
    · simp [hr, hr']
    · simp [hr, hr']

/-- **What the processor sees of the other pages.** -/
theorem WellFormed.othersKept : OthersKept s s' d va perm := by
  have hdir : roles s d d = .dir 0 := h.typed.tree.dir.mp (alone_eq_some.mpr ⟨rfl, rfl⟩)
  obtain ⟨t, -, hpde, -⟩ := hins.pde
  refine ⟨fun vpn hv hne => ?_, fun vpn hle hv hne => ?_⟩
  · have hpte := userPte_of_entries hins.entries hv hne
    split
    · rename_i hix
      refine mmuWalk_of_pde hpte fun hp => ?_
      rw [hix] at hp ⊢
      rw [hpde, if_pos hp]
    · rename_i hix
      rw [mmuWalk_eq, mmuWalk_eq, hpte, h.dir_of_inserted hins hix]
  · refine h.kernelHalf.mmuWalk_eq hle hv (fun i => h.high_of_inserted hva hins)
      (fun f k hf => ?_) fun hp h0 => ?_
    · refine hins.phys f k (by rw [hf]; simp) (fun i => by rw [hf]; simp) ?_
      rintro ⟨rfl, -⟩
      rw [hdir] at hf
      cases hf
    · exact h.dir_of_inserted hins fun hix => hne ⟨hp, h0, hix⟩

end Inserted

/-- The rights of a page that has been inserted: the directory entry has every flag of `perm`, so
the table entry decides. -/
theorem Inserted.rights (hins : Inserted s s' (alone d) ρ ρ' 0 d va pp perm) (hva : va < utop)
    (hpp : pp < kernWindow) (hperm : perm.toNat < 2 ^ 12) :
    mmuWalk s'.phys d (pgnum va) =
      some ⟨pp, decide (Has perm pteU), decide (Has perm pteW)⟩ := by
  have hpte : userPte s'.phys d (pgnum va) = some (page2pa pp ||| perm ||| pteP) := by
    rw [userPte_eq_entryOf (pgnum_lt_upn hva), hins.entries, Function.update_self]
  obtain ⟨t, -, hpde, -⟩ := hins.pde
  have hnoP : ∀ f, f.toNat < 2 ^ 12 → (Has (page2pa pp ||| perm ||| pteP) f ↔
      Has perm f ∨ Has pteP f) := by
    intro f hf
    have h0 := not_has_page2pa pp hf
    simp [h0]
  have hU : ¬ Has pteP pteU := by decide
  have hW : ¬ Has pteP pteW := by decide
  rw [mmuWalk_eq, hpte, Option.map_some, pgnum_div, hpde, frame_entry hpp hperm]
  simp only [has_or, hnoP pteU (by decide), hnoP pteW (by decide), hU, hW, or_false]
  congr 2
  · simp only [decide_eq_decide, and_iff_right_iff_imp]
    exact Or.inr
  · simp only [decide_eq_decide, and_iff_right_iff_imp]
    exact Or.inr

/-- The counts after an insertion, if that of the page was below its maximum. -/
theorem WellFormed.covers_of_inserted (h : WellFormed s d) (hc : Covers s d) (hva : va < utop)
    (hpp : Plain s d pp) (hperm : perm.toNat < 2 ^ 12)
    (hins : Inserted s s' (alone d) (roles s d) ρ' 0 d va pp perm)
    (hled : Ledger s' (alone d) ρ' (surplus s d) pend)
    (hn : s'.npages = s.npages) (hmax : (s.pages pp).ppRef ≠ BitVec.allOnes 16) :
    Covers s' d := by
  have hlt := h.total_lt hc
  refine hled.covers (h.kernelHalf_of_inserted hva hins) hn (fun f => ?_) (fun q => ?_)
  · rcases hins.role f with hr | ⟨-, hr⟩ | ⟨-, hr, -⟩
    · exact Or.inl hr
    · exact Or.inr (by rw [hr]; simp)
    · exact Or.inr (by rw [hr]; simp)
  · have hmove := refCount_update (mem_userPages_alone hva) hins.entries q
    have hq := hlt q
    rw [Option.map_some, frame_entry (lt_of_lt_of_le hpp.lt h.window) hperm] at hmove
    by_cases hqp : pp = q
    · subst hqp
      have hle := hc pp hpp
      have htop := (s.pages pp).ppRef.isLt
      have hne : (s.pages pp).ppRef.toNat ≠ 2 ^ 16 - 1 := fun h0 =>
        hmax (BitVec.eq_of_toNat_eq (by rw [h0]; rfl))
      have hsur : surplus s d pp = (s.pages pp).ppRef.toNat - refCount s.phys (alone d) pp := by
        rw [surplus, roles_eq_data.mpr hpp, Role.own_data]
        omega
      rw [if_pos rfl] at hmove
      omega
    · rw [if_neg (fun h0 => hqp (Option.some.inj h0))] at hmove
      omega

/-- **`page_insert` is update.** -/
theorem WellFormed.pageInsert (h : WellFormed s d) (hc : Covers s d) (hva : va < utop)
    (hpp : Plain s d pp) (hperm : perm.toNat < 2 ^ 12) :
    s.pageInsert d pp va perm = .ok (-eNoMem, s) ∨
    ∃ s', s.pageInsert d pp va perm = .ok (0, s') ∧
      tableMap s'.phys d =
        Function.update (tableMap s.phys d) (pgnum va) (some (pp, perm ||| pteP)) ∧
      mmuWalk s'.phys d (pgnum va) =
        some ⟨pp, decide (Has perm pteU), decide (Has perm pteW)⟩ ∧
      OthersKept s s' d va perm ∧ WellFormed s' d ∧
      ((s.pages pp).ppRef ≠ BitVec.allOnes 16 → Covers s' d) := by
  have hlt := h.total_lt hc
  have hppw : pp < kernWindow := lt_of_lt_of_le hpp.lt h.window
  rcases (h.ledger hc).pageInsert (alone_eq_some.mpr ⟨rfl, rfl⟩) hva (roles_eq_data.mpr hpp) hperm
      (fun w _ => hlt (frame w)) with ⟨-, -, hrun⟩ | ⟨s', ρ', hrun, hled, hins⟩
  · exact Or.inl hrun
  refine Or.inr ⟨s', hrun, ?_, hins.rights hva hppw hperm, h.othersKept hva hins,
    hled.typed.wellFormed (h.kernelHalf_of_inserted hva hins),
    h.covers_of_inserted hc hva hpp hperm hins hled (memoryOnly_of_pageInsert hrun).npages⟩
  rw [tableMap_of_entries hins.entries, Option.map_some, frame_entry hppw hperm,
    pteFlags_entry pp hperm]

/-- **The two-level table refines a finite map.**  For a well-formed directory whose mappings
are counted, and any address below `UTOP`, aligned or not: `page_insert` of a plain page either
fails for want of memory and changes nothing, or updates the map at the page of the address,
gives exactly the rights of `perm` there, and keeps the other translations but for what
`OthersKept` says; `page_remove` deletes that point, does nothing if it is not mapped, and keeps
the other translations; `page_lookup` reads the map and agrees with `check_va2pa`.  Every one of
them leaves the directory well formed. -/
theorem pageTable_refines_map (h : WellFormed s d) (hc : Covers s d) (hva : va < utop) :
    (∀ pp perm, Plain s d pp → perm.toNat < 2 ^ 12 →
      s.pageInsert d pp va perm = .ok (-eNoMem, s) ∨
      ∃ s', s.pageInsert d pp va perm = .ok (0, s') ∧
        tableMap s'.phys d =
          Function.update (tableMap s.phys d) (pgnum va) (some (pp, perm ||| pteP)) ∧
        mmuWalk s'.phys d (pgnum va) =
          some ⟨pp, decide (Has perm pteU), decide (Has perm pteW)⟩ ∧
        OthersKept s s' d va perm ∧ WellFormed s' d ∧
        ((s.pages pp).ppRef ≠ BitVec.allOnes 16 → Covers s' d)) ∧
    (∃ s', s.pageRemove d va = .ok s' ∧
      tableMap s'.phys d = Function.update (tableMap s.phys d) (pgnum va) none ∧
      (tableMap s.phys d (pgnum va) = none → s' = s) ∧
      (∀ vpn < npdentries * nptentries, vpn ≠ pgnum va →
        mmuWalk s'.phys d vpn = mmuWalk s.phys d vpn) ∧
      WellFormed s' d ∧ Covers s' d) ∧
    (∃ o, s.pageLookup d va = .ok o ∧
      (o.map fun r => (r.1, pteFlags (s.phys r.2.1 r.2.2))) = tableMap s.phys d (pgnum va) ∧
      s.checkVa2pa d va = .ok (o.elim (BitVec.allOnes 32) fun r => page2pa r.1)) :=
  ⟨fun _ _ hpp hperm => h.pageInsert hc hva hpp hperm, h.pageRemove hc hva, h.pageLookup hva⟩

/-! ## Small directories -/

/-- Frame 1 is a directory that shows itself at `UVPT`.  Its first entry, with the flags `pde`,
points to frame 3, whose first `n` entries map frame 2, which is counted once; frame 4 is free. -/
def small (pde : Word) (n : ℕ) : Kernel where
  npages := 5
  pages p := ⟨none, if p = 2 then 1#16 else 0#16⟩
  pageFreeList := some 4
  phys f k :=
    if f = 1 then
      if k = 0 then page2pa 3 ||| pde ||| pteP
      else if k = pdx uvpt then page2pa 1 ||| pteU ||| pteP else 0#32
    else if f = 3 ∧ k < n then page2pa 2 ||| (pteU ||| pteW) ||| pteP
    else 0#32
  kernPgdir := 0
  envs _ := ⟨default, none, 0, 0, .free, 0, 0, none, 0, false, 0, 0, 0, 0⟩
  envFreeList := none
  cpus _ := ⟨.started, none, false, 0, []⟩
  cpunum := 0
  kernelLock := some 0
  userMemCheckAddr := 0
  log := []

section Small

variable {pde : Word} {n p i j : ℕ}

theorem small_dir (hpde : pde.toNat < 2 ^ 12) (h : Has ((small pde n).phys 1 i) pteP) :
    i = 0 ∧ frame ((small pde n).phys 1 i) = 3 ∨
      i = pdx uvpt ∧ frame ((small pde n).phys 1 i) = 1 := by
  simp only [small, if_true] at h ⊢
  split_ifs at h ⊢ with h0 h1
  · exact Or.inl ⟨h0, frame_entry (by decide) hpde⟩
  · exact Or.inr ⟨h1, frame_entry (by decide) (by decide)⟩
  · exact absurd h (not_has_zero _)

theorem small_table (n : ℕ) : (small pde n).phys 3 j =
    if j < n then page2pa 2 ||| (pteU ||| pteW) ||| pteP else 0#32 := by
  simp [small]

theorem frame_small (hpde : pde.toNat < 2 ^ 12) : frame ((small pde n).phys 1 0) = 3 :=
  frame_entry (by decide) hpde

theorem small_onFreeList : OnFreeList (small pde n) p ↔ p = 4 := by
  have ht : Threads (small pde n).links (small pde n).pageFreeList [4] := .cons .nil
  rw [OnFreeList.iff_mem ht, List.mem_singleton]

theorem small_isTable (hpde : pde.toNat < 2 ^ 12) (h : IsTable (small pde n) 1 p) :
    p = 3 ∨ p = 1 := by
  obtain ⟨i, -, hp, rfl⟩ := h
  exact (small_dir hpde hp).imp And.right And.right

theorem small_plain (hpde : pde.toNat < 2 ^ 12) : Plain (small pde n) 1 2 := by
  refine ⟨show 2 < 5 by decide, by decide, fun h0 => ?_, fun h0 => ?_⟩
  · rcases small_isTable hpde h0 with h | h
    · exact absurd h (by decide)
    · exact absurd h (by decide)
  · exact absurd (small_onFreeList.mp h0) (by decide)

theorem small_wellFormed (hpde : pde.toNat < 2 ^ 12) : WellFormed (small pde n) 1 := by
  have hfree : ∀ f, f = 3 ∨ f = 1 → f < (small pde n).npages ∧ ¬ OnFreeList (small pde n) f := by
    rintro f (rfl | rfl)
    · exact ⟨show 3 < 5 by decide, fun h0 => absurd (small_onFreeList.mp h0) (by decide)⟩
    · exact ⟨show 1 < 5 by decide, fun h0 => absurd (small_onFreeList.mp h0) (by decide)⟩
  have huser : ∀ {i}, i < pdx utop → Has ((small pde n).phys 1 i) pteP →
      i = 0 ∧ frame ((small pde n).phys 1 i) = 3 := by
    intro i hi hp
    refine (small_dir hpde hp).resolve_right fun h0 => ?_
    rw [h0.1] at hi
    exact absurd hi (by decide)
  constructor
  · exact show 5 ≤ kernWindow by decide
  · exact ⟨[4], .cons .nil, show ∀ p ∈ [4], p < 5 by decide, fun _ _ => rfl⟩
  · exact hfree 1 (Or.inr rfl)
  · intro i hi hp
    obtain ⟨-, hf⟩ := huser hi hp
    rw [hf]
    exact ⟨(hfree 3 (Or.inl rfl)).1, by decide, (hfree 3 (Or.inl rfl)).2⟩
  · intro i i' hi _ hp hp' hff
    obtain ⟨rfl, hf⟩ := huser hi hp
    rcases small_dir hpde hp' with ⟨h0, -⟩ | ⟨-, hf'⟩
    · exact h0.symm
    · rw [hf, hf'] at hff
      exact absurd hff (by decide)
  · intro i _ _ hp
    exact hfree _ ((small_dir hpde hp).imp And.right And.right)
  · intro i j hi hp _
    rw [(huser hi hp).2, small_table]
    split_ifs with hj
    · refine Or.inr ⟨(has_or _ _ _).mpr (Or.inr (by decide)), ?_⟩
      rw [frame_entry (by decide) (by decide)]
      exact small_plain hpde
    · exact Or.inl rfl

theorem small_entryOf (hpde : pde.toNat < 2 ^ 12) {x : ℕ × ℕ} {w : Word}
    (h : entryOf (small pde 1).phys (alone 1) x = some w) : x = (0, 0) ∧ frame w = 2 := by
  obtain ⟨e, vpn⟩ := x
  obtain ⟨hlt, d, hd, hp, hw, hpr⟩ := exists_of_entryOf h
  obtain ⟨rfl, rfl⟩ := alone_eq_some.mp hd
  have hi : vpn / nptentries = 0 := by
    rcases small_dir hpde hp with ⟨h0, -⟩ | ⟨h0, -⟩
    · exact h0
    · have hlt := index_lt hlt
      rw [h0] at hlt
      exact absurd hlt (by decide)
  rw [hi, frame_small hpde, small_table] at hw
  split_ifs at hw with hj
  · refine ⟨Prod.ext rfl ?_, ?_⟩
    · show vpn = 0
      rw [← pageNo_div_add_mod vpn, hi]
      omega
    · rw [← hw, frame_entry (by decide) (by decide)]
  · rw [← hw] at hpr
    exact absurd hpr (not_has_zero _)

theorem small_covers (hpde : pde.toNat < 2 ^ 12) : Covers (small pde 1) 1 := by
  intro q _
  by_cases hq : q = 2
  · subst hq
    refine Finset.card_le_one.mpr fun x hx y hy => ?_
    obtain ⟨-, hx⟩ := Finset.mem_filter.mp hx
    obtain ⟨-, hy⟩ := Finset.mem_filter.mp hy
    obtain ⟨w, hw, -⟩ := Option.map_eq_some_iff.mp hx
    obtain ⟨v, hv, -⟩ := Option.map_eq_some_iff.mp hy
    rw [(small_entryOf hpde hw).1, (small_entryOf hpde hv).1]
  · have h0 : refCount (small pde 1).phys (alone 1) q = 0 := by
      refine occurrences_eq_zero_iff.mpr fun x _ hx => hq ?_
      obtain ⟨w, hw, hwq⟩ := Option.map_eq_some_iff.mp hx
      rw [← hwq]
      exact (small_entryOf hpde hw).2
    rw [h0]
    exact Nat.zero_le _

end Small

/-- The refinement where one page is mapped: the page is moved, by inserting it at another
address of the same table and removing it from the first. -/
theorem pageTable_refines_map_oneMapping :
    WellFormed (small 6#32 1) 1 ∧ Covers (small 6#32 1) 1 ∧ 0x1004#32 < utop ∧
      Plain (small 6#32 1) 1 2 ∧
      ((small 6#32 1).pageInsert 1 2 0x1004#32 7#32 = .ok (-eNoMem, small 6#32 1) ∨
        ∃ s', (small 6#32 1).pageInsert 1 2 0x1004#32 7#32 = .ok (0, s') ∧
          tableMap s'.phys 1 =
            Function.update (tableMap (small 6#32 1).phys 1) 1 (some (2, 7#32)) ∧
          WellFormed s' 1) ∧
      ∃ s', (small 6#32 1).pageRemove 1 0#32 = .ok s' ∧
        tableMap s'.phys 1 = Function.update (tableMap (small 6#32 1).phys 1) 0 none := by
  have hpde : (6#32 : Word).toNat < 2 ^ 12 := by decide
  refine ⟨small_wellFormed hpde, small_covers hpde, by decide, small_plain hpde, ?_, ?_⟩
  · have hins := (pageTable_refines_map (small_wellFormed hpde) (small_covers hpde)
      (show 0x1004#32 < utop by decide)).1 2 7#32 (small_plain hpde) (by decide)
    refine hins.imp id ?_
    rintro ⟨s', hrun, hmap, -, -, hwf, -⟩
    exact ⟨s', hrun, hmap, hwf⟩
  · obtain ⟨s', hrun, hmap, -⟩ := (pageTable_refines_map (small_wellFormed hpde)
      (small_covers hpde) (show 0#32 < utop by decide)).2.1
    exact ⟨s', hrun, hmap⟩

theorem exists_of_toOption {α β : Type} {x : Except Panic α} {f : α → β} {b : β}
    (h : x.toOption.map f = some b) : ∃ a, x = .ok a ∧ f a = b := by
  cases x with
  | error => cases h
  | ok a => exact ⟨a, rfl, Option.some.inj h⟩

/-- **Other translations may change.**  An insertion gives its rights to the directory entry, and
so to a page of the same table that the entry kept from being written; it shows the new table at
`UVPT`; and a removal of one of two mappings of a page that is counted once leaves the other
one to a page on the free list. -/
theorem not_pageTable_refines_map :
    (WellFormed (small 0#32 1) 1 ∧ Covers (small 0#32 1) 1 ∧ Plain (small 0#32 1) 1 2) ∧
    (∃ s', (small 0#32 1).pageInsert 1 2 0x1000#32 7#32 = .ok (0, s') ∧
      mmuWalk s'.phys 1 0 ≠ mmuWalk (small 0#32 1).phys 1 0) ∧
    (∃ s', (small 0#32 1).pageInsert 1 2 0x400000#32 7#32 = .ok (0, s') ∧
      mmuWalk s'.phys 1 (pgnum uvpt + 1) ≠ mmuWalk (small 0#32 1).phys 1 (pgnum uvpt + 1)) ∧
    WellFormed (small 6#32 2) 1 ∧
    ∃ s', (small 6#32 2).pageRemove 1 0#32 = .ok s' ∧ ¬ WellFormed s' 1 := by
  refine ⟨⟨small_wellFormed (by decide), small_covers (by decide), small_plain (by decide)⟩,
    ?_, ?_, small_wellFormed (by decide), ?_⟩
  · obtain ⟨⟨r, s'⟩, hrun, h⟩ := exists_of_toOption
      (x := (small 0#32 1).pageInsert 1 2 0x1000#32 7#32) (b := (0, some ⟨2, true, true⟩))
      (f := fun r => (r.1, mmuWalk r.2.phys 1 0)) (by decide +kernel)
    obtain ⟨rfl, hwalk⟩ := Prod.mk.inj h
    exact ⟨s', hrun, by rw [hwalk]; decide +kernel⟩
  · obtain ⟨⟨r, s'⟩, hrun, h⟩ := exists_of_toOption
      (x := (small 0#32 1).pageInsert 1 2 0x400000#32 7#32) (b := (0, some ⟨4, true, false⟩))
      (f := fun r => (r.1, mmuWalk r.2.phys 1 (pgnum uvpt + 1))) (by decide +kernel)
    obtain ⟨rfl, hwalk⟩ := Prod.mk.inj h
    exact ⟨s', hrun, by rw [hwalk]; decide +kernel⟩
  · obtain ⟨s', hrun, h⟩ := exists_of_toOption (x := (small 6#32 2).pageRemove 1 0#32)
      (f := fun s => (s.pageFreeList, s.links 2, s.links 4, s.phys 1 0, s.phys 3 1))
      (b := (some 2, some 4, none, 0x3007#32, 0x2007#32)) (by decide +kernel)
    simp only [Prod.mk.injEq] at h
    obtain ⟨hhead, h2, h4, hdir, hpte⟩ := h
    refine ⟨s', hrun, fun hw => ?_⟩
    have hP : Has (s'.phys 1 0) pteP := by
      rw [hdir]
      decide
    have hentry := hw.entry (i := 0) (j := 1) (by decide) hP (by decide)
    rw [hdir, show frame 0x3007#32 = 3 by decide, hpte] at hentry
    obtain ⟨-, hplain⟩ := hentry.resolve_left (by decide)
    refine hplain.not_free ⟨[2, 4], ?_, by decide⟩
    rw [hhead]
    refine .cons ?_
    rw [h2]
    refine .cons ?_
    rw [h4]
    exact .nil

end Kernel
end PmakeOs
