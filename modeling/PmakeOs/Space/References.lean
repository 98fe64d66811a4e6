import PmakeOs.Space.Runs

/-!
# The references to a page

`references s p` is the number that `pp_ref` is supposed to be: the entries of user
tables that map `p`, the directory entries that use it as a table, and one more if
it is a directory or a table of the kernel's directory.  The last three are what
the ledger calls `Role.own`, and in a sound state the two counts agree.

It follows that in a sound state whose counters have not wrapped, `pp_ref` is that
number, and the free list holds exactly the pages of the allocator that nothing
refers to.
-/

namespace PmakeOs

open Lib

namespace Kernel

variable {s : Kernel} {ρ : ℕ → Role} {p : ℕ}

/-- The table that directory entry `x.2` of environment `x.1` points to. -/
def tableOf (s : Kernel) (x : ℕ × ℕ) : Option ℕ :=
  (dirsOf s x.1).bind fun d => if Has (s.phys d x.2) pteP then some (frame (s.phys d x.2)) else none

/-- The directory entries below `UTOP`, of every environment. -/
def userPdes : Finset (ℕ × ℕ) := Finset.range nenv ×ˢ Finset.range (pdx utop)

theorem mem_userPdes {x : ℕ × ℕ} : x ∈ userPdes ↔ x.1 < nenv ∧ x.2 < pdx utop := by
  rw [userPdes, Finset.mem_product, Finset.mem_range, Finset.mem_range]

attribute [irreducible] userPdes

/-- The present directory entries below `UTOP` that point to `p`. -/
def tableRefs (s : Kernel) (p : ℕ) : ℕ := occurrences userPdes s.tableOf p

/-- `p` is a page table of `kern_pgdir`, which is not a table of its own. -/
def IsKernTable (s : Kernel) (p : ℕ) : Prop :=
  ∃ i < npdentries, i ≠ pdx uvpt ∧ Has (s.phys s.kernPgdir i) pteP ∧
    frame (s.phys s.kernPgdir i) = p

/-- `p` is the directory of a live environment. -/
def IsEnvPgdir (s : Kernel) (p : ℕ) : Prop := ∃ e < nenv, dirsOf s e = some p

instance (s : Kernel) (p : ℕ) : Decidable (IsKernTable s p) :=
  inferInstanceAs (Decidable (∃ i < npdentries, _))

instance (s : Kernel) (p : ℕ) : Decidable (IsEnvPgdir s p) :=
  inferInstanceAs (Decidable (∃ e < nenv, _))

/-- **The number of references to page `p`.** -/
def references (s : Kernel) (p : ℕ) : ℕ :=
  refCount s.phys (dirsOf s) p + tableRefs s p + (if IsEnvPgdir s p then 1 else 0) +
    if IsKernTable s p then 1 else 0

/-! ## The references that the role of a page implies -/

theorem tableOf_eq_some {x : ℕ × ℕ} : s.tableOf x = some p ↔ ∃ d, dirsOf s x.1 = some d ∧
    Has (s.phys d x.2) pteP ∧ frame (s.phys d x.2) = p := by
  unfold tableOf
  cases hd : dirsOf s x.1 with
  | none => simp
  | some d =>
    by_cases hp : Has (s.phys d x.2) pteP
    · simp [hp]
    · simp [hp]

/-- A directory entry points to a frame whose role names that entry. -/
theorem Sound.tableOf_iff {pend : ℕ → Prop} (h : Sound s ρ pend) {x : ℕ × ℕ}
    (hx : x ∈ userPdes) : s.tableOf x = some p ↔ ρ p = .table x.1 x.2 := by
  rw [tableOf_eq_some]
  constructor
  · rintro ⟨d, hd, hp, rfl⟩
    exact h.ledger.typed.tree.table hd (mem_userPdes.mp hx).2 hp
  · intro hr
    obtain ⟨d, hd, -, hp, hf⟩ := h.ledger.typed.tree.table_back hr
    exact ⟨d, hd, hp, hf⟩

/-- A table is entered in one place. -/
theorem Sound.tableRefs_eq_one {pend : ℕ → Prop} (h : Sound s ρ pend) {e i : ℕ}
    (hr : ρ p = .table e i) : tableRefs s p = 1 := by
  obtain ⟨d, hd, hi, -, -⟩ := h.ledger.typed.tree.table_back hr
  have hmem : (e, i) ∈ userPdes := mem_userPdes.mpr ⟨h.ledger.typed.tree.owner_lt hd, hi⟩
  rw [tableRefs, occurrences, Finset.card_eq_one]
  refine ⟨(e, i), ?_⟩
  ext x
  rw [Finset.mem_filter, Finset.mem_singleton]
  constructor
  · rintro ⟨hx, hx'⟩
    rw [h.tableOf_iff hx, hr] at hx'
    obtain ⟨h1, h2⟩ := Role.table.inj hx'
    exact Prod.ext h1.symm h2.symm
  · rintro rfl
    exact ⟨hmem, (h.tableOf_iff hmem).mpr hr⟩

theorem Sound.tableRefs_eq_zero {pend : ℕ → Prop} (h : Sound s ρ pend)
    (hr : ∀ e i, ρ p ≠ .table e i) : tableRefs s p = 0 := by
  refine occurrences_eq_zero_iff.mpr fun x hx hx' => ?_
  exact hr x.1 x.2 ((h.tableOf_iff hx).mp hx')

theorem Sound.isEnvPgdir_iff {pend : ℕ → Prop} (h : Sound s ρ pend) :
    IsEnvPgdir s p ↔ ∃ e, ρ p = .dir e := by
  constructor
  · rintro ⟨e, -, hd⟩
    exact ⟨e, h.ledger.typed.tree.dir.mp hd⟩
  · rintro ⟨e, hr⟩
    have hd := h.ledger.typed.tree.dir.mpr hr
    exact ⟨e, h.ledger.typed.tree.owner_lt hd, hd⟩

theorem Sound.isKernTable_iff {pend : ℕ → Prop} (h : Sound s ρ pend) :
    IsKernTable s p ↔ ρ p = .kern := by
  constructor
  · rintro ⟨i, hi, hne, hp, rfl⟩
    refine (h.layout.high (Nat.not_lt.mp fun hlo => h.layout.low hlo hp) hi hne hp).1
  · intro hr
    obtain ⟨i, -, hi, hne, hp, hf⟩ := h.layout.high_back hr
    exact ⟨i, hi, hne, hp, hf⟩

/-- **The references are those of the ledger.** -/
theorem Sound.references_eq {pend : ℕ → Prop} (h : Sound s ρ pend) (p : ℕ) :
    references s p = refCount s.phys (dirsOf s) p + (ρ p).own := by
  have hdir := h.isEnvPgdir_iff (p := p)
  have hkern := h.isKernTable_iff (p := p)
  rw [references]
  cases hr : ρ p with
  | table e i =>
    have hd : ¬ IsEnvPgdir s p := by simp [hdir, hr]
    have hk : ¬ IsKernTable s p := by simp [hkern, hr]
    simp [h.tableRefs_eq_one hr, hd, hk]
  | dir e =>
    have hd : IsEnvPgdir s p := hdir.mpr ⟨e, hr⟩
    have hk : ¬ IsKernTable s p := by simp [hkern, hr]
    simp [h.tableRefs_eq_zero (p := p) (by rw [hr]; simp), hd, hk]
  | kern =>
    have hd : ¬ IsEnvPgdir s p := by simp [hdir, hr]
    simp [h.tableRefs_eq_zero (p := p) (by rw [hr]; simp), hd, hkern.mpr hr]
  | _ =>
    have hd : ¬ IsEnvPgdir s p := by simp [hdir, hr]
    have hk : ¬ IsKernTable s p := by simp [hkern, hr]
    simp [h.tableRefs_eq_zero (p := p) (by rw [hr]; simp), hd, hk, Role.own]

/-! ## The counts and the free list -/

/-- In a state whose counters have not wrapped, the counter is the number of
references. -/
theorem Sound.ppRef_eq_references {pend : ℕ → Prop} (h : Sound s ρ pend) (hp : ρ p ≠ .reserved)
    (hlt : references s p < 2 ^ 16) : (s.pages p).ppRef.toNat = references s p := by
  have hcount := h.ledger.count hp
  rw [Nat.add_zero, ← h.references_eq p] at hcount
  rw [hcount, BitVec.toNat_ofNat, Nat.mod_eq_of_lt hlt]

/-- A page of the allocator is free exactly when nothing refers to it. -/
theorem Sound.role_free_iff (h : Settled s ρ) :
    ρ p = .free ↔ ρ p ≠ .reserved ∧ references s p = 0 := by
  rw [h.references_eq p]
  constructor
  · intro hr
    rw [hr, h.ledger.typed.tree.refCount_eq_zero (by rw [hr]; simp)]
    exact ⟨by simp, rfl⟩
  · rintro ⟨hres, hzero⟩
    cases hr : ρ p with
    | free => rfl
    | reserved => exact absurd hr hres
    | data =>
      have hused := (h.ledger.used hr).resolve_right id
      rw [hr] at hzero
      omega
    | kern => simp [hr] at hzero
    | dir e => simp [hr] at hzero
    | table e i => simp [hr] at hzero

/-- **The free list of a sound state**: it ends, no page is on it twice, and it
holds the pages of the allocator without references. -/
theorem Sound.freeList (h : Settled s ρ) :
    ∃ l, Threads s.links s.pageFreeList l ∧ l.Nodup ∧
      ∀ p, p ∈ l ↔ ρ p ≠ .reserved ∧ references s p = 0 := by
  obtain ⟨l, ht, hl⟩ := h.ledger.typed.free.list
  exact ⟨l, ht, ht.nodup, fun p => (hl p).trans h.role_free_iff⟩

end Kernel
end PmakeOs
