import PmakeOs.Paging.Ledger

/-!
# The walk, `page_remove` and `page_insert` on accounted states

From any state with a ledger the three operations of `kern/pmap.c` on user
addresses do not panic, end in a state with a ledger, and change the map
`entryOf` at one point or not at all.  What else they may have done is said by a
record for each: `Walked`, `Removed`, `Inserted`.  In every one of them memory
changes only in frames that were free, in tables of the owner, and in one entry
of its directory; `Edit` is that common part, and it composes.

The bound on the counters is the only condition on the state besides the ledger:
below `2 ^ 16` for a `page_insert` that replaces a mapping, which counts up before
it counts down, and at most `2 ^ 16` for `page_remove` in the middle of it.
-/

namespace PmakeOs

open Lib

/-- The roles that an operation on owner `e` may give to frames or take away. -/
def Role.Loose (e : ℕ) : Role → Prop
  | .free | .data => True
  | .table e' _ => e' = e
  | _ => False

namespace Kernel

variable {s s' : Kernel} {dirs : ℕ → Option ℕ} {ρ ρ' ρ'' : ℕ → Role} {due : ℕ → ℕ}
  {pend : ℕ → Prop} {e d i j t p q : ℕ} {va perm w : Word} {m m' m'' : Phys}

/-! ## What an operation on one owner leaves alone -/

/-- Everything outside the reach of an operation on owner `e` is as before: the
reserved frames, the kernel's tables, the other owners, and the part of the
directory of `e` at and above `UTOP`. -/
structure Edit (e : ℕ) (m m' : Phys) (ρ ρ' : ℕ → Role) : Prop where
  role : ∀ {f}, ¬ (ρ f).Loose e → ρ' f = ρ f
  loose : ∀ {f}, (ρ f).Loose e → (ρ' f).Loose e
  phys : ∀ {f k}, ¬ (ρ f).Loose e → ¬ (ρ f = .dir e ∧ k < pdx utop) → m' f k = m f k

theorem Edit.refl (e : ℕ) (m : Phys) (ρ : ℕ → Role) : Edit e m m ρ ρ :=
  ⟨fun _ => rfl, fun h => h, fun _ _ => rfl⟩

theorem Edit.trans (h : Edit e m m' ρ ρ') (h' : Edit e m' m'' ρ' ρ'') : Edit e m m'' ρ ρ'' := by
  constructor
  · intro f hf
    rw [h'.role (by rw [h.role hf]; exact hf), h.role hf]
  · exact fun hf => h'.loose (h.loose hf)
  · intro f k hf hk
    have hr := h.role hf
    rw [h'.phys (by rw [hr]; exact hf) (by rw [hr]; exact hk), h.phys hf hk]

/-! ## The walk -/

/-- What `pgdir_walk` with `create` has done when it returns entry `(t, PTX va)`. -/
structure Walked (s s' : Kernel) (dirs : ℕ → Option ℕ) (ρ ρ' : ℕ → Role) (e d i t : ℕ) :
    Prop where
  present : Has (s'.phys d i) pteP
  frame_eq : frame (s'.phys d i) = t
  table : ρ' t = .table e i
  role : ∀ f, ρ' f = ρ f ∨ ρ f = .free ∧ ρ' f = .table e i
  phys : ∀ f k, ρ f ≠ .free → ¬ (f = d ∧ k = i) → s'.phys f k = s.phys f k
  pde : s'.phys d i =
    if Has (s.phys d i) pteP then s.phys d i else page2pa t ||| pteP ||| pteU ||| pteW
  entries : entryOf s'.phys dirs = entryOf s.phys dirs
  log : s'.log = if Has (s.phys d i) pteP then s.log else .table d i t :: s.log

theorem Typed.lt_kernWindow (h : Typed s dirs ρ) (hp : ρ p ≠ .reserved) : p < kernWindow :=
  lt_of_lt_of_le (h.lt hp) h.window

/-- A page taken off the list and entered as a table. -/
theorem Ledger.addTable (h : Ledger s dirs ρ due pend) (hd : dirs e = some d) (hi : i < pdx utop)
    (habs : ¬ Has (s.phys d i) pteP) (hl : s.pageFreeList = some p) :
    Ledger (s.addTable d i p) dirs (Function.update ρ p (.table e i)) due pend ∧
      Walked s (s.addTable d i p) dirs ρ (Function.update ρ p (.table e i)) e d i p := by
  have hfree := h.typed.free.role_of_head hl
  have hpw : p < kernWindow := h.typed.lt_kernWindow (by rw [hfree]; simp)
  have hdp : d ≠ p := ne_of_role ρ (by rw [h.typed.tree.dir.mp hd, hfree]; simp)
  have h₁ := h.takePage hl
  have h₂ := h₁.incRef p
  have hphys : ∀ f k, f ≠ p → ((s.takePage p).incRef p).phys f k = s.phys f k := by
    intro f k hf
    simp [Kernel.incRef, Kernel.takePage, setPage, zeroFrame, hf]
  have hz : ∀ k, ((s.takePage p).incRef p).phys p k = 0#32 := by
    intro k
    simp [Kernel.incRef, Kernel.takePage, setPage, zeroFrame]
  have habs' : ¬ Has (((s.takePage p).incRef p).phys d i) pteP := by
    rw [hphys d i hdp]
    exact habs
  have hentry₂ : entryOf ((s.takePage p).incRef p).phys dirs = entryOf s.phys dirs :=
    h.typed.tree.entryOf_takePage hfree
  have hc : refCount ((s.takePage p).incRef p).phys dirs p = 0 := by
    rw [refCount_of_entryOf_eq hentry₂]
    exact h.typed.tree.refCount_eq_zero (by rw [hfree]; simp)
  have h₃ := h₂.enterTable hd hi habs' (Function.update_self p .data ρ) hc hz
    (has_tableEntry_pteP p) (frame_tableEntry hpw) (Function.update_self p (due p + 1) due)
    (fun q hq => (Function.update_of_ne hq _ _).symm)
  rw [Function.update_idem] at h₃
  refine ⟨(h₃.note (.table d i p)).mono fun q hq hpend => ?_, ?_⟩
  · rcases hpend with hpend | rfl
    · exact hpend
    · rw [Function.update_self] at hq
      cases hq
  · have hset : (s.addTable d i p).phys d i = page2pa p ||| pteP ||| pteU ||| pteW := by
      simp [Kernel.addTable, Kernel.note, setWord]
    constructor
    · rw [hset]
      exact has_tableEntry_pteP p
    · rw [hset]
      exact frame_tableEntry hpw
    · exact Function.update_self _ _ _
    · intro f
      by_cases hfp : f = p
      · subst hfp
        exact Or.inr ⟨hfree, Function.update_self _ _ _⟩
      · exact Or.inl (Function.update_of_ne hfp _ _)
    · intro f k hf hfk
      have hfp : f ≠ p := by
        rintro rfl
        exact hf hfree
      show (((s.takePage p).incRef p).setWord d i _).phys f k = _
      rw [← hphys f k hfp]
      simp [setWord, hfk]
    · rw [hset, if_neg habs]
    · rw [← hentry₂]
      exact h₂.typed.tree.entryOf_enterTable hd habs' (Function.update_self p .data ρ) hz
        (frame_tableEntry hpw)
    · rw [if_neg habs]
      rfl

/-- **The walk that creates.**  It fails only when the table is missing and no
page is left, and then nothing has changed. -/
theorem Ledger.pgdirWalk (h : Ledger s dirs ρ due pend) (hd : dirs e = some d) (hva : va < utop) :
    (¬ Has (s.phys d (pdx va)) pteP ∧ s.pageFreeList = none ∧
      s.pgdirWalk d va true = .ok (none, s)) ∨
    ∃ s' ρ' t, s.pgdirWalk d va true = .ok (some (t, ptx va), s') ∧
      Ledger s' dirs ρ' due pend ∧ Walked s s' dirs ρ ρ' e d (pdx va) t := by
  have hi := (lt_utop_iff va).mp hva
  by_cases hp : Has (s.phys d (pdx va)) pteP
  · have htab := h.typed.tree.table hd hi hp
    refine Or.inr ⟨s, ρ, frame (s.phys d (pdx va)), ?_, h, ?_⟩
    · exact pgdirWalk_of_present hp (h.typed.lt (by rw [htab]; simp)) h.typed.window true
    · exact ⟨hp, rfl, htab, fun _ => Or.inl rfl, fun _ _ _ _ => rfl, by rw [if_pos hp], rfl,
        by rw [if_pos hp]⟩
  · cases hl : s.pageFreeList with
    | none => exact Or.inl ⟨hp, rfl, pgdirWalk_of_noMem hp hl⟩
    | some p =>
      have hfree := h.typed.free.role_of_head hl
      obtain ⟨hled, hwalk⟩ := h.addTable hd hi hp hl
      refine Or.inr ⟨s.addTable d (pdx va) p, _, p, ?_, hled, hwalk⟩
      exact pgdirWalk_of_alloc hp hl (h.typed.lt (by rw [hfree]; simp)) h.typed.window

/-! ## Lookup -/

/-- The map at the page of an address. -/
theorem entryOf_pgnum_of_present (m : Phys) (hd : dirs e = some d) (hva : va < utop)
    (hp : Has (m d (pdx va)) pteP) :
    entryOf m dirs (e, pgnum va) =
      if Has (m (frame (m d (pdx va))) (ptx va)) pteP then
        some (m (frame (m d (pdx va))) (ptx va)) else none := by
  rw [pgnum_eq_pdx_ptx]
  exact entryOf_of_present m hd ((lt_utop_iff va).mp hva) hp (ptx_lt va)

theorem entryOf_pgnum_of_absent (m : Phys) (hd : dirs e = some d)
    (hp : ¬ Has (m d (pdx va)) pteP) : entryOf m dirs (e, pgnum va) = none := by
  rw [pgnum_eq_pdx_ptx]
  exact entryOf_of_absent m hd hp (ptx_lt va)

/-- **`page_lookup` reads the map.**  The entry it stores through `pte_store` is
the one that the map reports. -/
theorem Typed.pageLookup (h : Typed s dirs ρ) (hd : dirs e = some d) (hva : va < utop) :
    (entryOf s.phys dirs (e, pgnum va) = none ∧ s.pageLookup d va = .ok none) ∨
    ∃ t w, Has (s.phys d (pdx va)) pteP ∧ frame (s.phys d (pdx va)) = t ∧
      ρ t = .table e (pdx va) ∧ s.phys t (ptx va) = w ∧ Has w pteP ∧ ρ (frame w) = .data ∧
      entryOf s.phys dirs (e, pgnum va) = some w ∧
      s.pageLookup d va = .ok (some (frame w, (t, ptx va))) := by
  have hi := (lt_utop_iff va).mp hva
  by_cases hp : Has (s.phys d (pdx va)) pteP
  · have htab := h.tree.table hd hi hp
    have htlt := h.lt (p := frame (s.phys d (pdx va))) (by rw [htab]; simp)
    have hat := entryOf_pgnum_of_present s.phys hd hva hp
    rcases h.tree.entry htab (ptx_lt va) with h0 | ⟨hpr, hdata⟩
    · refine Or.inl ⟨?_, pageLookup_of_zero hp htlt h.window h0⟩
      rw [hat, h0, if_neg (not_has_zero _)]
    · refine Or.inr ⟨_, _, hp, rfl, htab, rfl, hpr, hdata, ?_, ?_⟩
      · rw [hat, if_pos hpr]
      · refine pageLookup_of_mapped hp rfl htlt h.window ?_ rfl (h.lt (by rw [hdata]; simp))
        intro h0
        rw [h0] at hpr
        exact not_has_zero _ hpr
  · exact Or.inl ⟨entryOf_pgnum_of_absent s.phys hd hp, pageLookup_of_absent hp⟩

/-- What `page_lookup` found. -/
theorem Typed.of_pageLookup {pp t j : ℕ} (h : Typed s dirs ρ) (hd : dirs e = some d)
    (hva : va < utop) (hrun : s.pageLookup d va = .ok (some (pp, (t, j)))) :
    ∃ w, pp = frame w ∧ s.phys t j = w ∧ ρ (frame w) = .data ∧
      entryOf s.phys dirs (e, pgnum va) = some w := by
  rcases h.pageLookup hd hva with ⟨-, hnone⟩ | ⟨t', w, -, -, -, hpte, -, hdata, hentry, hsome⟩
  · rw [hnone] at hrun
    cases hrun
  · obtain ⟨rfl, h0⟩ := Prod.mk.inj (Option.some.inj (Except.ok.inj (hsome.symm.trans hrun)))
    obtain ⟨rfl, rfl⟩ := Prod.mk.inj h0
    exact ⟨w, rfl, hpte, hdata, hentry⟩

/-! ## Removal -/

/-- What `page_remove` has done. -/
structure Removed (s s' : Kernel) (dirs : ℕ → Option ℕ) (ρ ρ' : ℕ → Role) (due : ℕ → ℕ)
    (e vpn : ℕ) : Prop where
  role : ∀ f, ρ' f = ρ f ∨ ρ f = .data ∧ ρ' f = .free ∧ due f = 0
  phys : ∀ f k, (∀ i, ρ f ≠ .table e i) → s'.phys f k = s.phys f k
  entries : entryOf s'.phys dirs = Function.update (entryOf s.phys dirs) (e, vpn) none
  log : s'.log = s.log

theorem Removed.edit (h : Removed s s' dirs ρ ρ' due e i) : Edit e s.phys s'.phys ρ ρ' := by
  constructor
  · intro f hf
    rcases h.role f with hr | ⟨hr, -, -⟩
    · exact hr
    · rw [hr] at hf
      exact absurd trivial hf
  · intro f hf
    rcases h.role f with hr | ⟨-, hr, -⟩
    · rw [hr]
      exact hf
    · rw [hr]
      exact trivial
  · intro f k hf _
    refine h.phys f k fun i' hi' => hf ?_
    rw [hi']
    rfl

/-- The order of the two stores of `page_remove` does not matter. -/
theorem unmapEntry_eq (s : Kernel) (d : ℕ) (va : Word) (t j q : ℕ) :
    s.unmapEntry d va t j q = ((s.setWord t j 0#32).dropRef q).tlbInvalidate d va := by
  have hcomm : (s.dropRef q).setWord t j 0#32 = (s.setWord t j 0#32).dropRef q := by
    have hpages : (s.setWord t j 0#32).pages = s.pages := rfl
    unfold Kernel.dropRef
    rw [hpages]
    by_cases h1 : (s.pages q).ppRef = 1#16
    · rw [if_pos h1, if_pos h1]
      rfl
    · rw [if_neg h1, if_neg h1]
      rfl
  rw [unmapEntry, hcomm]

theorem phys_dropRef (s : Kernel) (q : ℕ) : (s.dropRef q).phys = s.phys := by
  unfold Kernel.dropRef
  split <;> rfl

theorem log_dropRef (s : Kernel) (q : ℕ) : (s.dropRef q).log = s.log := by
  unfold Kernel.dropRef
  split <;> rfl

theorem phys_tlbInvalidate (s : Kernel) (d : ℕ) (va : Word) :
    (s.tlbInvalidate d va).phys = s.phys := by
  unfold Kernel.tlbInvalidate
  split
  · rfl
  · split <;> rfl

theorem log_tlbInvalidate (s : Kernel) (d : ℕ) (va : Word) :
    (s.tlbInvalidate d va).log = s.log := by
  unfold Kernel.tlbInvalidate
  split
  · rfl
  · split <;> rfl

theorem phys_unmapEntry (s : Kernel) (d : ℕ) (va : Word) (t j q : ℕ) :
    (s.unmapEntry d va t j q).phys = (s.setWord t j 0#32).phys := by
  rw [unmapEntry_eq, phys_tlbInvalidate, phys_dropRef]

/-- An entry cleared, and the pointer it held dropped. -/
theorem Ledger.unmapEntry (h : Ledger s dirs ρ due pend) (ht : ρ t = .table e i)
    (hj : j < nptentries) (hpr : Has (s.phys t j) pteP) (hq : frame (s.phys t j) = q)
    (hle : refCount s.phys dirs q + due q ≤ 2 ^ 16) (va : Word) :
    ∃ ρ', Ledger (s.unmapEntry d va t j q) dirs ρ' due pend ∧
      Removed s (s.unmapEntry d va t j q) dirs ρ ρ' due e (i * nptentries + j) := by
  have hat := h.typed.tree.entryOf_of_table ht hj hpr
  have hdata : ρ q = .data := by
    rw [← hq]
    exact h.typed.tree.role_of_entryOf hat
  -- the pointer is counted as due while the entry no longer holds it
  have h₁ : Ledger (s.setWord t j 0#32) dirs ρ (Function.update due q (due q + 1)) pend := by
    refine h.setTable ht hj (Or.inl rfl) fun x => ?_
    rw [if_neg (fun h0 => not_has_zero _ h0.1), hq]
    by_cases hxq : x = q
    · subst hxq
      rw [Function.update_self, if_pos ⟨hpr, rfl⟩]
    · rw [Function.update_of_ne hxq, if_neg (fun h0 => hxq h0.2.symm)]
  have hcount : refCount (s.setWord t j 0#32).phys dirs q + Function.update due q (due q + 1) q =
      refCount s.phys dirs q + due q := by
    have hmove := h.typed.tree.refCount_setTable ht hj 0#32 q
    rw [if_pos ⟨hpr, hq⟩, if_neg (fun h0 => not_has_zero _ h0.1)] at hmove
    rw [Function.update_self]
    omega
  have hoff : ∀ x, x ≠ q → due x = Function.update due q (due q + 1) x :=
    fun x hx => (Function.update_of_ne hx _ _).symm
  have h₂ := h₁.dropRef hdata (by rw [hcount]; exact hle) (Function.update_self q _ due) hoff
  have h₃ := h₂.tlbInvalidate d va
  rw [← unmapEntry_eq] at h₃
  refine ⟨_, h₃, ?_⟩
  constructor
  · intro f
    unfold dropRole
    by_cases h1 : refCount (s.setWord t j 0#32).phys dirs q +
        Function.update due q (due q + 1) q = 1
    · rw [if_pos h1]
      by_cases hfq : f = q
      · subst hfq
        rw [Function.update_self] at h1
        exact Or.inr ⟨hdata, Function.update_self _ _ _, by omega⟩
      · exact Or.inl (Function.update_of_ne hfq _ _)
    · rw [if_neg h1]
      exact Or.inl rfl
  · intro f k hf
    have hft : f ≠ t := by
      rintro rfl
      exact hf i ht
    rw [phys_unmapEntry]
    simp [setWord, hft]
  · rw [phys_unmapEntry, h.typed.tree.entryOf_setTable ht hj, if_neg (not_has_zero _)]
  · rw [unmapEntry_eq, log_tlbInvalidate, log_dropRef]
    rfl

/-- **`page_remove` deletes.** -/
theorem Ledger.pageRemove (h : Ledger s dirs ρ due pend) (hd : dirs e = some d) (hva : va < utop)
    (hle : ∀ w, entryOf s.phys dirs (e, pgnum va) = some w →
      refCount s.phys dirs (frame w) + due (frame w) ≤ 2 ^ 16) :
    ∃ s' ρ', s.pageRemove d va = .ok s' ∧ Ledger s' dirs ρ' due pend ∧
      Removed s s' dirs ρ ρ' due e (pgnum va) := by
  rcases h.typed.pageLookup hd hva with ⟨hnone, hlook⟩ |
    ⟨t, w, -, -, htab, hw, hpr, hdata, hent, hlook⟩
  · refine ⟨s, ρ, pageRemove_of_lookup_none hlook, h, fun _ => Or.inl rfl, fun _ _ _ => rfl, ?_,
      rfl⟩
    rw [← hnone, Function.update_eq_self]
  · have hlink := h.typed.free.link (p := frame w) (by rw [hdata]; simp)
    subst hw
    obtain ⟨ρ', hled, hrem⟩ := h.unmapEntry (d := d) htab (ptx_lt va) hpr rfl (hle _ hent) va
    refine ⟨_, ρ', pageRemove_of_lookup_some hlook hlink, hled, ?_⟩
    rw [pgnum_eq_pdx_ptx]
    exact hrem

/-! ## Insertion -/

/-- What `page_insert` has done when it returns 0. -/
structure Inserted (s s' : Kernel) (dirs : ℕ → Option ℕ) (ρ ρ' : ℕ → Role) (e d : ℕ) (va : Word)
    (pp : ℕ) (perm : Word) : Prop where
  role : ∀ f, ρ' f = ρ f ∨ ρ f = .free ∧ ρ' f = .table e (pdx va) ∨
    ρ f = .data ∧ ρ' f = .free ∧ f ≠ pp
  phys : ∀ f k, ρ f ≠ .free → (∀ i, ρ f ≠ .table e i) → ¬ (f = d ∧ k = pdx va) →
    s'.phys f k = s.phys f k
  pde : ∃ t, ρ' t = .table e (pdx va) ∧ s'.phys d (pdx va) =
    (if Has (s.phys d (pdx va)) pteP then s.phys d (pdx va)
      else page2pa t ||| pteP ||| pteU ||| pteW) ||| perm ∧
    s'.log = .insert d (pgnum va) pp ::
      if Has (s.phys d (pdx va)) pteP then s.log else .table d (pdx va) t :: s.log
  entries : entryOf s'.phys dirs =
    Function.update (entryOf s.phys dirs) (e, pgnum va) (some (page2pa pp ||| perm ||| pteP))

theorem Inserted.edit {pp : ℕ} (h : Inserted s s' dirs ρ ρ' e d va pp perm) (hva : va < utop)
    (hd : ρ d = .dir e) : Edit e s.phys s'.phys ρ ρ' := by
  constructor
  · intro f hf
    rcases h.role f with hr | ⟨hr, -⟩ | ⟨hr, -⟩
    · exact hr
    · rw [hr] at hf
      exact absurd trivial hf
    · rw [hr] at hf
      exact absurd trivial hf
  · intro f hf
    rcases h.role f with hr | ⟨-, hr⟩ | ⟨-, hr, -⟩
    · rw [hr]
      exact hf
    · rw [hr]
      rfl
    · rw [hr]
      exact trivial
  · intro f k hf hk
    refine h.phys f k (fun h0 => hf ?_) (fun i' hi' => hf ?_) ?_
    · rw [h0]
      exact trivial
    · rw [hi']
      rfl
    · rintro ⟨rfl, rfl⟩
      exact hk ⟨hd, (lt_utop_iff va).mp hva⟩

theorem phys_storeEntry (s : Kernel) {d : ℕ} {va : Word} {t j : ℕ} (pp : ℕ) (perm : Word)
    (htd : t ≠ d) (f k : ℕ) :
    (s.storeEntry d va t j pp perm).phys f k =
      if f = d ∧ k = pdx va then s.phys d (pdx va) ||| perm
      else if f = t ∧ k = j then page2pa pp ||| perm ||| pteP else s.phys f k := by
  by_cases h1 : f = d ∧ k = pdx va
  · simp [storeEntry, Kernel.note, setWord, h1, htd.symm]
  · by_cases h2 : f = t ∧ k = j
    · rw [if_neg h1, if_pos h2]
      obtain ⟨rfl, rfl⟩ := h2
      simp [storeEntry, Kernel.note, setWord, htd]
    · simp [storeEntry, Kernel.note, setWord, h1, h2]

/-- The stores that end `page_insert`, into an entry that is not in use: the
pointer that was announced by the count is now in the table. -/
theorem Ledger.storeEntry {pp : ℕ} (h : Ledger s dirs ρ (Function.update due pp (due pp + 1)) pend)
    (hd : dirs e = some d) (hp : Has (s.phys d (pdx va)) pteP)
    (ht : ρ t = .table e (pdx va)) (hnp : ¬ Has (s.phys t (ptx va)) pteP)
    (hpp : ρ pp = .data) (hperm : perm.toNat < 2 ^ 12) :
    Ledger (s.storeEntry d va t (ptx va) pp perm) dirs ρ due (fun q => pend q ∧ q ≠ pp) ∧
      entryOf (s.storeEntry d va t (ptx va) pp perm).phys dirs =
        Function.update (entryOf s.phys dirs) (e, pgnum va)
          (some (page2pa pp ||| perm ||| pteP)) := by
  have hppw : pp < kernWindow := h.typed.lt_kernWindow (by rw [hpp]; simp)
  have hpr := has_entry_pteP pp perm
  have hfr := frame_entry hppw hperm
  have htd : d ≠ t := ne_of_role ρ (by rw [ht, h.typed.tree.dir.mp hd]; simp)
  have h₁ : Ledger (s.setWord t (ptx va) (page2pa pp ||| perm ||| pteP)) dirs ρ due pend := by
    refine h.setTable ht (ptx_lt va) (Or.inr ⟨hpr, by rw [hfr]; exact hpp⟩) fun x => ?_
    have hold : ¬ (Has (s.phys t (ptx va)) pteP ∧ frame (s.phys t (ptx va)) = x) :=
      fun h0 => hnp h0.1
    rw [hfr, if_neg hold]
    by_cases hx : x = pp
    · subst hx
      rw [Function.update_self, if_pos ⟨hpr, rfl⟩]
    · rw [Function.update_of_ne hx, if_neg (fun h0 => hx h0.2.symm)]
  have hp₁ : Has ((s.setWord t (ptx va) (page2pa pp ||| perm ||| pteP)).phys d (pdx va)) pteP := by
    simpa [setWord, htd] using hp
  have hent : entryOf (s.storeEntry d va t (ptx va) pp perm).phys dirs =
      Function.update (entryOf s.phys dirs) (e, pgnum va)
        (some (page2pa pp ||| perm ||| pteP)) := by
    have hor := h₁.typed.tree.entryOf_orDir hd hp₁ hperm
    rw [h.typed.tree.entryOf_setTable ht (ptx_lt va), if_pos hpr, ← pgnum_eq_pdx_ptx] at hor
    exact hor
  have h₂ := (h₁.orDir hd hp₁ hperm).note (.insert d (pgnum va) pp)
  refine ⟨⟨h₂.typed, h₂.count, fun {q} hq => ?_⟩, hent⟩
  by_cases hqpp : q = pp
  · subst hqpp
    -- the page is mapped at `va`, so it is counted
    refine Or.inl (Nat.add_pos_left ?_ _)
    have hpos : 0 < refCount (s.storeEntry d va t (ptx va) q perm).phys dirs q := by
      obtain ⟨d₀, hd₀, hi, -, -⟩ := h.typed.tree.table_back ht
      refine occurrences_pos_iff.mpr ⟨(e, pgnum va), ?_, ?_⟩
      · rw [mem_userPages, pgnum_eq_pdx_ptx]
        exact ⟨h.typed.tree.owner_lt hd, pageNo_lt hi (ptx_lt va)⟩
      · rw [hent, Function.update_self, Option.map_some, hfr]
    exact hpos
  · exact (h₂.used hq).imp id fun hpd => ⟨hpd, hqpp⟩

/-- **`page_insert` updates.**  It fails only when the table is missing and no
page is left, and then nothing has changed. -/
theorem Ledger.pageInsert {pp : ℕ} (h : Ledger s dirs ρ due pend) (hd : dirs e = some d)
    (hva : va < utop) (hpp : ρ pp = .data) (hperm : perm.toNat < 2 ^ 12)
    (hlt : ∀ w, entryOf s.phys dirs (e, pgnum va) = some w →
      refCount s.phys dirs (frame w) + due (frame w) < 2 ^ 16) :
    (¬ Has (s.phys d (pdx va)) pteP ∧ s.pageFreeList = none ∧
      s.pageInsert d pp va perm = .ok (-eNoMem, s)) ∨
    ∃ s' ρ', s.pageInsert d pp va perm = .ok (0, s') ∧
      Ledger s' dirs ρ' due (fun q => pend q ∧ q ≠ pp) ∧
      Inserted s s' dirs ρ ρ' e d va pp perm := by
  rcases h.pgdirWalk hd hva with ⟨hp, hl, -⟩ | ⟨s₁, ρ₁, t, hwalk, h₁, hw⟩
  · exact Or.inl ⟨hp, hl, pageInsert_of_noMem hp hl pp⟩
  have hpp₁ : ρ₁ pp = .data := by
    rcases hw.role pp with hr | ⟨hr, -⟩
    · rw [hr]
      exact hpp
    · rw [hpp] at hr
      cases hr
  have hdir₁ := h₁.typed.tree.dir.mp hd
  have htd : t ≠ d := ne_of_role ρ₁ (by rw [hw.table, hdir₁]; simp)
  have h₂ := h₁.incRef pp
  have hcount₂ : refCount (s₁.incRef pp).phys dirs = refCount s.phys dirs :=
    refCount_of_entryOf_eq hw.entries
  -- the entry is in use: `page_remove` comes first, and it leaves `pp` a data frame
  have hrem : ∃ s₃ ρ₃, Ledger s₃ dirs ρ₃ (Function.update due pp (due pp + 1)) pend ∧
      ¬ Has (s₃.phys t (ptx va)) pteP ∧
      Removed (s₁.incRef pp) s₃ dirs ρ₁ ρ₃ (Function.update due pp (due pp + 1)) e (pgnum va) ∧
      s.pageInsert d pp va perm = .ok (0, s₃.storeEntry d va t (ptx va) pp perm) := by
    have hat : entryOf s.phys dirs (e, pgnum va) =
        if Has (s₁.phys t (ptx va)) pteP then some (s₁.phys t (ptx va)) else none := by
      rw [← hw.entries, entryOf_pgnum_of_present s₁.phys hd hva hw.present, hw.frame_eq]
    by_cases hused : Has (s₁.phys t (ptx va)) pteP
    · obtain ⟨s₃, ρ₃, hrun, h₃, hr₃⟩ := h₂.pageRemove hd hva (fun w hw' => by
        have hent₂ : entryOf (s₁.incRef pp).phys dirs = entryOf s.phys dirs := hw.entries
        have hq := hlt w (by rw [← hent₂]; exact hw')
        rw [hcount₂]
        by_cases hqp : frame w = pp
        · rw [hqp] at hq ⊢
          rw [Function.update_self]
          omega
        · rw [Function.update_of_ne hqp]
          omega)
      refine ⟨s₃, ρ₃, h₃, fun hpr => ?_, hr₃, pageInsert_of_used hwalk hused hrun⟩
      have hpde₃ : s₃.phys d (pdx va) = s₁.phys d (pdx va) :=
        hr₃.phys d (pdx va) (fun i hi => by rw [hdir₁] at hi; exact nomatch hi)
      have hent := congrFun hr₃.entries (e, pgnum va)
      rw [Function.update_self, entryOf_pgnum_of_present _ hd hva (by rw [hpde₃]; exact hw.present),
        hpde₃, hw.frame_eq, if_pos hpr] at hent
      cases hent
    · refine ⟨s₁.incRef pp, ρ₁, h₂, hused, ⟨fun _ => Or.inl rfl, fun _ _ _ => rfl, ?_, rfl⟩,
        pageInsert_of_unused hwalk hused⟩
      rw [if_neg hused, ← hw.entries] at hat
      have hnone : entryOf (s₁.incRef pp).phys dirs (e, pgnum va) = none := hat
      rw [← hnone, Function.update_eq_self]
  obtain ⟨s₃, ρ₃, h₃, hnp, hr₃, hrun⟩ := hrem
  have hkeep : ∀ f, ρ₁ f ≠ .data → ρ₃ f = ρ₁ f := fun f hf =>
    (hr₃.role f).resolve_right fun h0 => hf h0.1
  have hpp₃ : ρ₃ pp = .data := by
    rcases hr₃.role pp with hr | ⟨-, -, h0⟩
    · rw [hr]
      exact hpp₁
    · rw [Function.update_self] at h0
      omega
  have ht₃ : ρ₃ t = .table e (pdx va) := by rw [hkeep t (by rw [hw.table]; simp)]; exact hw.table
  have hpde₃ : s₃.phys d (pdx va) = s₁.phys d (pdx va) :=
    hr₃.phys d (pdx va) (fun i hi => by rw [hdir₁] at hi; exact nomatch hi)
  obtain ⟨h₄, hent⟩ := h₃.storeEntry hd (by rw [hpde₃]; exact hw.present) ht₃ hnp
    hpp₃ hperm
  refine Or.inr ⟨_, ρ₃, hrun, h₄, ?_⟩
  constructor
  · intro f
    rcases hr₃.role f with hr | ⟨hdata, hfree, hdue⟩
    · rcases hw.role f with hr₁ | ⟨hf, hr₁⟩
      · exact Or.inl (hr.trans hr₁)
      · exact Or.inr (Or.inl ⟨hf, hr.trans hr₁⟩)
    · have hfpp : f ≠ pp := by
        rintro rfl
        rw [Function.update_self] at hdue
        omega
      rcases hw.role f with hr₁ | ⟨-, hr₁⟩
      · exact Or.inr (Or.inr ⟨hr₁.symm.trans hdata, hfree, hfpp⟩)
      · rw [hdata] at hr₁
        cases hr₁
  · intro f k hfree htab hfd
    have hr₁ : ρ₁ f = ρ f := (hw.role f).resolve_right fun h0 => hfree h0.1
    have hft : f ≠ t := by
      rintro rfl
      exact htab (pdx va) (hr₁.symm.trans hw.table)
    rw [phys_storeEntry s₃ pp perm htd, if_neg hfd, if_neg (fun h0 => hft h0.1),
      hr₃.phys f k (fun i => by rw [hr₁]; exact htab i)]
    exact hw.phys f k hfree hfd
  · refine ⟨t, ht₃, ?_, ?_⟩
    · rw [phys_storeEntry s₃ pp perm htd, if_pos ⟨rfl, rfl⟩, hpde₃, hw.pde]
    · show Event.insert d (pgnum va) pp :: s₃.log = _
      rw [hr₃.log]
      exact congrArg _ hw.log
  · rw [hent, hr₃.entries, Function.update_idem]
    exact congrArg (fun g => Function.update g _ _) hw.entries

end Kernel
end PmakeOs
