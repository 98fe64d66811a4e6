import PmakeOs.Paging.Steps
import PmakeOs.Kernel.Env
import PmakeOs.Lib.LinkedList
import PmakeOs.Lib.Occurrences

/-!
# Typing the frames of memory

Page tables are pointers into pages that are themselves mapped, counted, freed
and reused, so nothing can be said about one table without knowing what every
other frame is used for.  The bookkeeping device is a *typing*: a map `ρ` that
gives each frame one `Role`.  A frame has one role, so two frames of different
roles are different frames, and that one remark replaces every argument that
this table is not that directory, or that a page on the free list is not mapped.

A typing is relative to a family `dirs` of address spaces, `dirs e` being the
directory of owner `e` if it has one.  The family is a parameter: the environment
table is one choice, a single directory on its own is another.

* `Tree m dirs ρ` --- the part about memory: directories point to tables, tables
  to data frames.
* `FreeTyped s ρ` --- the part about the free list.
* `Typed s dirs ρ` --- the state is typed by `ρ`.
* `entryOf m dirs (e, vpn)` --- the present entry of a user page of an owner: the
  partial map that the tables of the family represent together.
* `refCount m dirs q` --- how many user pages that map sends to frame `q`.

The section on writes says what each store of `Paging.Steps` does to `entryOf`:
a store into a table changes it at one point, and the other stores do not
change it at all.
-/

namespace PmakeOs

open Lib

/-- What a frame is used for. -/
inductive Role where
  /-- Not managed by the allocator: page zero, devices, the kernel image. -/
  | reserved
  | free
  /-- A table of the kernel's own directory. -/
  | kern
  /-- The directory of an owner. -/
  | dir (e : ℕ)
  /-- Table `i` of an owner. -/
  | table (e i : ℕ)
  | data
  deriving DecidableEq

/-- The frame is a directory or a table of some owner. -/
def Role.IsNode : Role → Prop
  | .dir _ | .table _ _ => True
  | _ => False

@[simp] theorem Role.isNode_dir (e : ℕ) : Role.IsNode (.dir e) := trivial

@[simp] theorem Role.isNode_table (e i : ℕ) : Role.IsNode (.table e i) := trivial

namespace Kernel

/-- The number of virtual pages below `UTOP`. -/
def upn : ℕ := pdx utop * nptentries

/-- The present table entry for virtual page `vpn`, if both levels are present. -/
def userPte (m : Phys) (d vpn : ℕ) : Option Word :=
  let pde := m d (vpn / nptentries)
  let pte := m (frame pde) (vpn % nptentries)
  if Has pde pteP ∧ Has pte pteP then some pte else none

/-- The present entry for a user page of an owner. -/
def entryOf (m : Phys) (dirs : ℕ → Option ℕ) (x : ℕ × ℕ) : Option Word :=
  if x.2 < upn then (dirs x.1).bind fun d => userPte m d x.2 else none

/-- The user pages of every owner. -/
def userPages : Finset (ℕ × ℕ) := Finset.range nenv ×ˢ Finset.range upn

/-- The number of user pages whose entry points to frame `q`. -/
def refCount (m : Phys) (dirs : ℕ → Option ℕ) (q : ℕ) : ℕ :=
  occurrences userPages (fun x => (entryOf m dirs x).map frame) q

/-- The frames of the tables of `dirs`, typed: what directories and tables point
to.  Every entry of a table is zero or is present and points to a data frame. -/
structure Tree (m : Phys) (dirs : ℕ → Option ℕ) (ρ : ℕ → Role) : Prop where
  owner_lt : ∀ {e d}, dirs e = some d → e < nenv
  dir : ∀ {e d}, dirs e = some d ↔ ρ d = .dir e
  table : ∀ {e d i}, dirs e = some d → i < pdx utop → Has (m d i) pteP →
    ρ (frame (m d i)) = .table e i
  table_back : ∀ {e i t}, ρ t = .table e i → ∃ d, dirs e = some d ∧ i < pdx utop ∧
    Has (m d i) pteP ∧ frame (m d i) = t
  entry : ∀ {e i t j}, ρ t = .table e i → j < nptentries →
    m t j = 0#32 ∨ Has (m t j) pteP ∧ ρ (frame (m t j)) = .data

/-- The free list threads the frames whose role is free, and no other frame has a
link. -/
structure FreeTyped (s : Kernel) (ρ : ℕ → Role) : Prop where
  list : ∃ l, Threads s.links s.pageFreeList l ∧ ∀ p, p ∈ l ↔ ρ p = .free
  link : ∀ {p}, ρ p ≠ .free → s.links p = none

/-- **The state is typed by `ρ`.** -/
structure Typed (s : Kernel) (dirs : ℕ → Option ℕ) (ρ : ℕ → Role) : Prop where
  window : s.npages ≤ kernWindow
  lt : ∀ {p}, ρ p ≠ .reserved → p < s.npages
  free : FreeTyped s ρ
  tree : Tree s.phys dirs ρ

/-! ## Page numbers -/

theorem upn_eq : upn = 955 * 1024 := by
  rw [upn, pdx_utop, nptentries]

theorem index_lt {vpn : ℕ} (h : vpn < upn) : vpn / nptentries < pdx utop := by
  rw [upn_eq] at h
  rw [pdx_utop, nptentries]
  omega

theorem pageNo_lt {i j : ℕ} (hi : i < pdx utop) (hj : j < nptentries) :
    i * nptentries + j < upn := by
  rw [pdx_utop] at hi
  rw [nptentries] at hj ⊢
  rw [upn_eq]
  omega

theorem pageNo_div {i j : ℕ} (hj : j < nptentries) : (i * nptentries + j) / nptentries = i := by
  rw [nptentries] at hj ⊢
  omega

theorem pageNo_mod {i j : ℕ} (hj : j < nptentries) : (i * nptentries + j) % nptentries = j := by
  rw [nptentries] at hj ⊢
  omega

theorem pageNo_div_add_mod (vpn : ℕ) : vpn / nptentries * nptentries + vpn % nptentries = vpn := by
  rw [nptentries]
  omega

theorem mod_lt_nptentries (vpn : ℕ) : vpn % nptentries < nptentries := by
  rw [nptentries]
  omega

theorem pgnum_lt_upn {va : Word} (h : va < utop) : pgnum va < upn := by
  rw [pgnum_eq_pdx_ptx]
  exact pageNo_lt ((lt_utop_iff va).mp h) (ptx_lt va)

theorem mem_userPages {x : ℕ × ℕ} : x ∈ userPages ↔ x.1 < nenv ∧ x.2 < upn := by
  rw [userPages, Finset.mem_product, Finset.mem_range, Finset.mem_range]

-- two finite ranges, of which one is long: nothing should ever enumerate it
attribute [irreducible] userPages

/-! ## The map of a typed state -/

variable {s s' : Kernel} {dirs : ℕ → Option ℕ} {ρ : ℕ → Role} {e d i j t p q : ℕ}
  {w : Word} {m m' : Phys}

theorem ne_of_role (ρ : ℕ → Role) {a b : ℕ} (h : ρ a ≠ ρ b) : a ≠ b := by
  rintro rfl
  exact h rfl

/-- The map at a user page whose table is present. -/
theorem entryOf_of_present (m : Phys) (hd : dirs e = some d) (hi : i < pdx utop)
    (hp : Has (m d i) pteP) (hj : j < nptentries) :
    entryOf m dirs (e, i * nptentries + j) =
      if Has (m (frame (m d i)) j) pteP then some (m (frame (m d i)) j) else none := by
  have hlt := pageNo_lt hi hj
  simp [entryOf, hlt, hd, userPte, pageNo_div hj, pageNo_mod hj, hp]

theorem entryOf_of_absent (m : Phys) (hd : dirs e = some d)
    (hp : ¬ Has (m d i) pteP) (hj : j < nptentries) :
    entryOf m dirs (e, i * nptentries + j) = none := by
  simp [entryOf, hd, userPte, pageNo_div hj, hp]

/-- Where the map is defined, there is a directory, a table and an entry. -/
theorem exists_of_entryOf {vpn : ℕ} (h : entryOf m dirs (e, vpn) = some w) :
    vpn < upn ∧ ∃ d, dirs e = some d ∧ Has (m d (vpn / nptentries)) pteP ∧
      m (frame (m d (vpn / nptentries))) (vpn % nptentries) = w ∧ Has w pteP := by
  by_cases hlt : vpn < upn
  · refine ⟨hlt, ?_⟩
    cases hd : dirs e with
    | none => simp [entryOf, hd] at h
    | some d =>
      by_cases hp : Has (m d (vpn / nptentries)) pteP ∧
          Has (m (frame (m d (vpn / nptentries))) (vpn % nptentries)) pteP
      · have hw : m (frame (m d (vpn / nptentries))) (vpn % nptentries) = w := by
          simpa [entryOf, hd, hlt, userPte, hp] using h
        exact ⟨d, rfl, hp.1, hw, hw ▸ hp.2⟩
      · simp [entryOf, hd, userPte, hp] at h
  · simp [entryOf, hlt] at h

/-- **An entry of the map points to a data frame.** -/
theorem Tree.role_of_entryOf (h : Tree m dirs ρ) {vpn : ℕ}
    (he : entryOf m dirs (e, vpn) = some w) : ρ (frame w) = .data := by
  obtain ⟨hlt, d, hd, hpde, hw, hwp⟩ := exists_of_entryOf he
  have htab := h.table hd (index_lt hlt) hpde
  rcases h.entry htab (mod_lt_nptentries vpn) with h0 | ⟨-, hdata⟩
  · rw [hw] at h0
    rw [h0] at hwp
    exact absurd hwp (not_has_zero _)
  · rw [hw] at hdata
    exact hdata

/-- A frame that is not a data frame is counted nowhere. -/
theorem Tree.refCount_eq_zero (h : Tree m dirs ρ) (hq : ρ q ≠ .data) :
    refCount m dirs q = 0 := by
  refine occurrences_eq_zero_iff.mpr fun x _ hx => hq ?_
  obtain ⟨w, hw, hwq⟩ := Option.map_eq_some_iff.mp hx
  rw [← hwq]
  exact h.role_of_entryOf hw

/-- Two memories that agree on directories and on the tables in use represent
the same map. -/
theorem entryOf_congr
    (hdir : ∀ e d i, dirs e = some d → i < pdx utop →
      (Has (m' d i) pteP ↔ Has (m d i) pteP) ∧ frame (m' d i) = frame (m d i))
    (htab : ∀ e d i j, dirs e = some d → i < pdx utop → Has (m d i) pteP → j < nptentries →
      m' (frame (m d i)) j = m (frame (m d i)) j) :
    entryOf m' dirs = entryOf m dirs := by
  funext x
  obtain ⟨e, vpn⟩ := x
  by_cases hlt : vpn < upn
  · cases hd : dirs e with
    | none => simp [entryOf, hd]
    | some d =>
      obtain ⟨hpres, hframe⟩ := hdir e d (vpn / nptentries) hd (index_lt hlt)
      by_cases hp : Has (m d (vpn / nptentries)) pteP
      · have hword := htab e d _ _ hd (index_lt hlt) hp (mod_lt_nptentries vpn)
        simp [entryOf, hd, hlt, userPte, hpres, hp, hframe, hword]
      · simp [entryOf, hd, hlt, userPte, hpres, hp]
  · simp [entryOf, hlt]

theorem refCount_of_entryOf_eq {dirs' : ℕ → Option ℕ} (h : entryOf m' dirs' = entryOf m dirs) :
    refCount m' dirs' = refCount m dirs := by
  funext q
  rw [refCount, refCount, h]

/-- **A change of the map at one point moves one pointer.** -/
theorem refCount_update {dirs' : ℕ → Option ℕ} {x : ℕ × ℕ} {o : Option Word} (hx : x ∈ userPages)
    (h : entryOf m' dirs' = Function.update (entryOf m dirs) x o) (q : ℕ) :
    refCount m' dirs' q + (if (entryOf m dirs x).map frame = some q then 1 else 0) =
      refCount m dirs q + (if o.map frame = some q then 1 else 0) := by
  have hocc := occurrences_add_of_eq_off (k := q) hx
    (f := fun y => (entryOf m' dirs' y).map frame) (g := fun y => (entryOf m dirs y).map frame)
    (fun y _ hy => by rw [h, Function.update_of_ne hy])
  simp only [h, Function.update_self] at hocc
  simp only [refCount, h]
  exact hocc

/-! ## Writes -/

/-- A store into a table changes the map at one point. -/
theorem Tree.entryOf_setTable (h : Tree s.phys dirs ρ) (ht : ρ t = .table e i) (hj : j < nptentries)
    (w : Word) :
    entryOf (s.setWord t j w).phys dirs =
      Function.update (entryOf s.phys dirs) (e, i * nptentries + j)
        (if Has w pteP then some w else none) := by
  obtain ⟨d, hd, hi, hpde, hfr⟩ := h.table_back ht
  have hdirs : ∀ e' d' i', dirs e' = some d' → (s.setWord t j w).phys d' i' = s.phys d' i' := by
    intro e' d' i' hd'
    have hne : d' ≠ t := ne_of_role ρ (by rw [h.dir.mp hd', ht]; simp)
    simp [setWord, hne]
  funext x
  obtain ⟨e', vpn⟩ := x
  by_cases hx : (e', vpn) = (e, i * nptentries + j)
  · obtain ⟨rfl, rfl⟩ := Prod.mk.inj hx
    rw [Function.update_self]
    have hpde' : Has ((s.setWord t j w).phys d i) pteP := by rw [hdirs _ d i hd]; exact hpde
    rw [entryOf_of_present _ hd hi hpde' hj, hdirs _ d i hd, hfr]
    simp [setWord]
  · rw [Function.update_of_ne hx]
    by_cases hlt : vpn < upn
    · cases hd' : dirs e' with
      | none => simp [entryOf, hd']
      | some d' =>
        have hwd := hdirs e' d' (vpn / nptentries) hd'
        by_cases hp' : Has (s.phys d' (vpn / nptentries)) pteP
        · have htab := h.table hd' (index_lt hlt) hp'
          -- the entry lies in another table, or at another index of this one
          have hword : (s.setWord t j w).phys (frame (s.phys d' (vpn / nptentries)))
              (vpn % nptentries) =
              s.phys (frame (s.phys d' (vpn / nptentries))) (vpn % nptentries) := by
            have hne : ¬ (frame (s.phys d' (vpn / nptentries)) = t ∧ vpn % nptentries = j) := by
              rintro ⟨hf, hm⟩
              rw [hf, ht] at htab
              obtain ⟨he, hi'⟩ := Role.table.inj htab
              refine hx (Prod.ext he.symm ?_)
              show vpn = i * nptentries + j
              rw [← pageNo_div_add_mod vpn, hi', hm]
            simp [setWord, hne]
          simp only [entryOf, hlt, if_true, hd', Option.bind_some, userPte, hwd, hword]
        · simp [entryOf, hlt, hd', userPte, hwd, hp']
    · simp [entryOf, hlt]

end Kernel
end PmakeOs
