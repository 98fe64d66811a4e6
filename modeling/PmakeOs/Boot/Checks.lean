import PmakeOs.Boot.Trial

/-!
# `check_page` and `check_page_installed_pgdir`

The two tests map and unmap three pages at addresses `0` and `PGSIZE` of `kern_pgdir`.
Here they are run on the view of `Boot.Trial`.  `trial l ra rb rc w x₀ x₁` is the view
in the middle of a test: the free list is `l`, the three pages have `ra`, `rb` and `rc`
references, the directory entry is `w`, and the two table entries are `x₀` and `x₁`.
-/

namespace PmakeOs

open Lib

/-- `PTE_ADDR` is the address of the frame. -/
theorem pteAddr_eq (w : Word) : pteAddr w = page2pa (frame w) := by
  have hframe : BitVec.ofNat 32 (frame w) = w >>> 12 := by
    rw [frame_eq, ← Nat.shiftRight_eq_div_pow, ← BitVec.toNat_ushiftRight, BitVec.ofNat_toNat,
      BitVec.setWidth_eq]
  rw [page2pa, hframe, pteAddr]
  apply BitVec.eq_of_getLsbD_eq
  intro i hi
  have hmask : (0xFFF#32 : Word).getLsbD i = decide (i < 12) := by
    have hall : ∀ k < 32, (0xFFF#32 : Word).getLsbD k = decide (k < 12) := by decide
    exact hall i hi
  rw [BitVec.getLsbD_and, BitVec.getLsbD_not, hmask, BitVec.getLsbD_shiftLeft,
    BitVec.getLsbD_ushiftRight]
  by_cases h : i < 12
  · simp [h]
  · have hadd : 12 + (i - 12) = i := by omega
    simp [h, hi, hadd]

namespace Kernel

variable {s₀ s s' : Kernel} {a b c p q i j : ℕ} {rest l : List ℕ} {v : View} {w va perm : Word}

theorem pdx_va0 : pdx va0 = 0 := by decide
theorem ptx_va0 : ptx va0 = 0 := by decide
theorem pdx_va1 : pdx va1 = 0 := by decide
theorem ptx_va1 : ptx va1 = 1 := by decide
theorem pdx_vaT : pdx vaT = 1 := by decide
theorem pdx_vaT1 : pdx vaT1 = 1 := by decide

/-- The view in the middle of a test. -/
def trial (s₀ : Kernel) (a b c : ℕ) (l : List ℕ) (ra rb rc : BitVec 16) (w x₀ x₁ : Word) : View :=
  { list := l
    ref := fun p => if p = a then ra else if p = b then rb else if p = c then rc
      else (s₀.pages p).ppRef
    pde := fun i => if i = 0 then w else s₀.phys s₀.kernPgdir i
    pte := fun j => if j = 0 then x₀ else if j = 1 then x₁ else 0#32
    mem := s₀.phys }

section View

variable (s₀ : Kernel) (a b c : ℕ) (l : List ℕ) (ra rb rc : BitVec 16) (w x₀ x₁ : Word)

theorem trial_pde_va0 : (trial s₀ a b c l ra rb rc w x₀ x₁).pde (pdx va0) = w := by
  simp [trial, pdx_va0]

theorem trial_pde_va1 : (trial s₀ a b c l ra rb rc w x₀ x₁).pde (pdx va1) = w := by
  simp [trial, pdx_va1]

theorem trial_pte_va0 : (trial s₀ a b c l ra rb rc w x₀ x₁).pte (ptx va0) = x₀ := by
  simp [trial, ptx_va0]

theorem trial_pte_va1 : (trial s₀ a b c l ra rb rc w x₀ x₁).pte (ptx va1) = x₁ := by
  simp [trial, ptx_va1]

theorem trial_ref_a : (trial s₀ a b c l ra rb rc w x₀ x₁).ref a = ra := if_pos rfl

theorem trial_ref_b (h : a ≠ b) : (trial s₀ a b c l ra rb rc w x₀ x₁).ref b = rb := by
  simp [trial, h.symm]

theorem trial_ref_c (h : a ≠ c) (h' : b ≠ c) :
    (trial s₀ a b c l ra rb rc w x₀ x₁).ref c = rc := by
  simp [trial, h.symm, h'.symm]

end View

/-- The directory entry leads to table `a`. -/
structure LeadsTo (w : Word) (a : ℕ) : Prop where
  present : Has w pteP
  user : Has w pteU
  frame : frame w = a

theorem LeadsTo.or (h : LeadsTo w a) (hperm : perm.toNat < 2 ^ 12) : LeadsTo (w ||| perm) a :=
  ⟨(has_or _ _ _).mpr (Or.inl h.present), (has_or _ _ _).mpr (Or.inl h.user),
    (frame_or_of_lt w hperm).trans h.frame⟩

theorem leadsTo_tableEntry (ha : a < kernWindow) :
    LeadsTo (page2pa a ||| pteP ||| pteU ||| pteW) a := by
  have hu : Has pteU pteU := by decide
  exact ⟨has_tableEntry_pteP a, by simp [hu], frame_tableEntry ha⟩

theorem Sees.cast {v' : View} (h : Sees s₀ a b c s v) (hl : v.list = v'.list)
    (hr : ∀ p, v.ref p = v'.ref p) (hd : ∀ i, v.pde i = v'.pde i) (ht : ∀ j, v.pte j = v'.pte j)
    (hm : v.mem = v'.mem) : Sees s₀ a b c s v' := by
  refine ⟨?_, ?_, h.rest, fun p => (h.ref p).trans (hr p), fun i => (h.pde i).trans (hd i),
    fun j => (h.pte j).trans (ht j), fun f hf hk => by rw [← hm]; exact h.phys f hf hk, h.still⟩
  · rw [← hl]; exact h.list
  · rw [← hl]; exact h.held

section Steps

variable {ra rb rc : BitVec 16} {x₀ x₁ : Word}

/-- `page_insert` of the page that is already there, at `PGSIZE`: only the rights
change. -/
theorem Sees.insertSame (hb : Bench s₀ a b c rest) (perm : Word)
    (h : Sees s₀ a b c s (trial s₀ a b c [] 1#16 1#16 1#16 w x₀ x₁)) (hw : LeadsTo w a)
    (hin : Has x₁ pteP) (hx : frame x₁ = c) :
    ∃ s', s.pageInsert s₀.kernPgdir c va1 perm = .ok (0, s') ∧ Sees s₀ a b c s'
      (trial s₀ a b c [] 1#16 1#16 1#16 (w ||| perm) x₀ (page2pa c ||| perm ||| pteP)) := by
  have hac := hb.ne_ac
  have hbc := hb.ne_bc
  obtain ⟨s', hrun, h'⟩ := h.insertUsed hb va1 perm (q := c)
    (by simpa [pdx_va1, trial] using hw.present) (by simpa [pdx_va1, trial] using hw.frame)
    (by simpa [ptx_va1, trial] using hin) (by simpa [ptx_va1, trial] using hx)
    (Or.inr (Or.inr rfl)) (by simp [trial]) c
  refine ⟨s', hrun, h'.cast ?_ (fun p => ?_) (fun i => ?_) (fun j => ?_) rfl⟩
  · simp [View.enter, View.clear, View.drop, View.inc, trial, hac.symm, hbc.symm]
  · simp only [View.enter, View.clear, View.drop, View.inc, trial, Function.update_apply]
    split_ifs <;> simp_all
  · simp only [View.enter, View.clear, View.drop, View.inc, trial, Function.update_apply, pdx_va1]
    split_ifs <;> simp_all
  · simp only [View.enter, View.clear, View.drop, View.inc, trial, Function.update_apply, ptx_va1]
    split_ifs <;> simp_all

/-- The first `page_insert`: page `a` becomes the table. -/
theorem Sees.insertFirst (hb : Bench s₀ a b c rest) {ref : ℕ → BitVec 16} {pte : ℕ → Word}
    (h : Sees s₀ a b c s ⟨[a], ref, s₀.phys s₀.kernPgdir, pte, s₀.phys⟩)
    (hr : ∀ p, ref p = (s₀.pages p).ppRef) (h0 : s₀.phys s₀.kernPgdir 0 = 0#32) :
    ∃ s' w, s.pageInsert s₀.kernPgdir b va0 pteW = .ok (0, s') ∧ LeadsTo w a ∧ Sees s₀ a b c s'
      (trial s₀ a b c [] 1#16 1#16 0#16 w (page2pa b ||| pteW ||| pteP) 0#32) := by
  have hab := hb.ne_ab
  have hzero : ∀ p, p = a ∨ p = b ∨ p = c → ref p = 0#16 := fun p hp => (hr p).trans (hb.ref hp)
  obtain ⟨s', hrun, h'⟩ := h.insertNew hb va0 pteW (l := []) rfl
    (by simp [pdx_va0, h0]) b
  have hperm : pteW.toNat < 2 ^ 12 := by decide
  refine ⟨s', _, hrun, (leadsTo_tableEntry (h.lt_kernWindow hb (Or.inl rfl))).or hperm,
    h'.cast ?_ (fun p => ?_) (fun i => ?_) (fun j => ?_) rfl⟩
  · simp [View.enter, View.table, View.inc, trial]
  · have ha := hzero a (Or.inl rfl)
    have hb' := hzero b (Or.inr (Or.inl rfl))
    have hc := hzero c (Or.inr (Or.inr rfl))
    simp only [View.enter, View.table, View.inc, trial, Function.update_apply]
    split_ifs <;> simp_all
  · simp only [View.enter, View.table, View.inc, trial, Function.update_apply, pdx_va0]
    split_ifs <;> simp_all
  · simp only [View.enter, View.table, View.inc, trial, Function.update_apply, ptx_va0]
    split_ifs <;> simp_all

/-- `page_insert` of page `c` at `PGSIZE`, which is empty. -/
theorem Sees.insertSecond (hb : Bench s₀ a b c rest) (perm : Word)
    (h : Sees s₀ a b c s (trial s₀ a b c [] 1#16 1#16 0#16 w x₀ 0#32)) (hw : LeadsTo w a) :
    ∃ s', s.pageInsert s₀.kernPgdir c va1 perm = .ok (0, s') ∧ Sees s₀ a b c s'
      (trial s₀ a b c [] 1#16 1#16 1#16 (w ||| perm) x₀ (page2pa c ||| perm ||| pteP)) := by
  have hac := hb.ne_ac
  have hbc := hb.ne_bc
  obtain ⟨s', hrun, h'⟩ := h.insertUnused hb va1 perm
    (by simpa [pdx_va1, trial] using hw.present) (by simpa [pdx_va1, trial] using hw.frame)
    (by simp [ptx_va1, trial]) c
  refine ⟨s', hrun, h'.cast rfl (fun p => ?_) (fun i => ?_) (fun j => ?_) rfl⟩
  · simp only [View.enter, View.inc, trial, Function.update_apply]
    split_ifs <;> simp_all
  · simp only [View.enter, View.inc, trial, Function.update_apply, pdx_va1]
    split_ifs <;> simp_all
  · simp only [View.enter, View.inc, trial, Function.update_apply, ptx_va1]
    split_ifs <;> simp_all

/-- `page_insert` of page `b` at `PGSIZE`, in place of `c`, which is freed. -/
theorem Sees.insertInstead (hb : Bench s₀ a b c rest) (perm : Word)
    (h : Sees s₀ a b c s (trial s₀ a b c [] 1#16 1#16 1#16 w x₀ x₁)) (hw : LeadsTo w a)
    (hin : Has x₁ pteP) (hx : frame x₁ = c) :
    ∃ s', s.pageInsert s₀.kernPgdir b va1 perm = .ok (0, s') ∧ Sees s₀ a b c s'
      (trial s₀ a b c [c] 1#16 2#16 0#16 (w ||| perm) x₀ (page2pa b ||| perm ||| pteP)) := by
  have hab := hb.ne_ab
  have hac := hb.ne_ac
  have hbc := hb.ne_bc
  obtain ⟨s', hrun, h'⟩ := h.insertUsed hb va1 perm (q := c)
    (by simpa [pdx_va1, trial] using hw.present) (by simpa [pdx_va1, trial] using hw.frame)
    (by simpa [ptx_va1, trial] using hin) (by simpa [ptx_va1, trial] using hx)
    (Or.inr (Or.inr rfl)) (by simp [trial]) b
  refine ⟨s', hrun, h'.cast ?_ (fun p => ?_) (fun i => ?_) (fun j => ?_) rfl⟩
  · simp [View.enter, View.clear, View.drop, View.inc, trial, hac.symm, hbc.symm]
  · simp only [View.enter, View.clear, View.drop, View.inc, trial, Function.update_apply]
    split_ifs <;> simp_all
  · simp only [View.enter, View.clear, View.drop, View.inc, trial, Function.update_apply, pdx_va1]
    split_ifs <;> simp_all
  · simp only [View.enter, View.clear, View.drop, View.inc, trial, Function.update_apply, ptx_va1]
    split_ifs <;> simp_all

/-- `page_insert` of page `b` at `PGSIZE`, where it is its only mapping. -/
theorem Sees.insertAgain (hb : Bench s₀ a b c rest) (perm : Word)
    (h : Sees s₀ a b c s (trial s₀ a b c [] 1#16 1#16 0#16 w x₀ x₁)) (hw : LeadsTo w a)
    (hin : Has x₁ pteP) (hx : frame x₁ = b) :
    ∃ s', s.pageInsert s₀.kernPgdir b va1 perm = .ok (0, s') ∧ Sees s₀ a b c s'
      (trial s₀ a b c [] 1#16 1#16 0#16 (w ||| perm) x₀ (page2pa b ||| perm ||| pteP)) := by
  have hab := hb.ne_ab
  obtain ⟨s', hrun, h'⟩ := h.insertUsed hb va1 perm (q := b)
    (by simpa [pdx_va1, trial] using hw.present) (by simpa [pdx_va1, trial] using hw.frame)
    (by simpa [ptx_va1, trial] using hin) (by simpa [ptx_va1, trial] using hx)
    (Or.inr (Or.inl rfl)) (by simp [trial]) b
  refine ⟨s', hrun, h'.cast ?_ (fun p => ?_) (fun i => ?_) (fun j => ?_) rfl⟩
  · simp [View.enter, View.clear, View.drop, View.inc, trial, hab.symm]
  · simp only [View.enter, View.clear, View.drop, View.inc, trial, Function.update_apply]
    split_ifs <;> simp_all
  · simp only [View.enter, View.clear, View.drop, View.inc, trial, Function.update_apply, pdx_va1]
    split_ifs <;> simp_all
  · simp only [View.enter, View.clear, View.drop, View.inc, trial, Function.update_apply, ptx_va1]
    split_ifs <;> simp_all

/-- `page_remove` at address 0, where page `b` is mapped as it is elsewhere. -/
theorem Sees.removeFirst (hb : Bench s₀ a b c rest)
    (h : Sees s₀ a b c s (trial s₀ a b c [] 1#16 2#16 0#16 w x₀ x₁)) (hw : LeadsTo w a)
    (hin : Has x₀ pteP) (hx : frame x₀ = b) :
    ∃ s', s.pageRemove s₀.kernPgdir va0 = .ok s' ∧ Sees s₀ a b c s'
      (trial s₀ a b c [] 1#16 1#16 0#16 w 0#32 x₁) := by
  have hab := hb.ne_ab
  have hne : x₀ ≠ 0#32 := by
    rintro rfl
    exact not_has_zero _ hin
  obtain ⟨s', hrun, h'⟩ := h.pageRemove hb va0 (q := b)
    (by simpa [pdx_va0, trial] using hw.present) (by simpa [pdx_va0, trial] using hw.frame)
    (by simpa [ptx_va0, trial] using hne) (by simpa [ptx_va0, trial] using hx)
    (Or.inr (Or.inl rfl)) (by simp [trial])
  refine ⟨s', hrun, h'.cast ?_ (fun p => ?_) (fun i => rfl) (fun j => ?_) rfl⟩
  · simp [View.clear, View.drop, trial, hab.symm]
  · simp only [View.clear, View.drop, trial, Function.update_apply]
    split_ifs <;> simp_all
  · simp only [View.clear, View.drop, trial, Function.update_apply, ptx_va0]
    split_ifs <;> simp_all

/-- `page_remove` at `PGSIZE`, of the last mapping of page `b`, which is freed. -/
theorem Sees.removeLast (hb : Bench s₀ a b c rest)
    (h : Sees s₀ a b c s (trial s₀ a b c [] 1#16 1#16 0#16 w x₀ x₁)) (hw : LeadsTo w a)
    (hin : Has x₁ pteP) (hx : frame x₁ = b) :
    ∃ s', s.pageRemove s₀.kernPgdir va1 = .ok s' ∧ Sees s₀ a b c s'
      (trial s₀ a b c [b] 1#16 0#16 0#16 w x₀ 0#32) := by
  have hab := hb.ne_ab
  have hne : x₁ ≠ 0#32 := by
    rintro rfl
    exact not_has_zero _ hin
  obtain ⟨s', hrun, h'⟩ := h.pageRemove hb va1 (q := b)
    (by simpa [pdx_va1, trial] using hw.present) (by simpa [pdx_va1, trial] using hw.frame)
    (by simpa [ptx_va1, trial] using hne) (by simpa [ptx_va1, trial] using hx)
    (Or.inr (Or.inl rfl)) (by simp [trial])
  refine ⟨s', hrun, h'.cast ?_ (fun p => ?_) (fun i => rfl) (fun j => ?_) rfl⟩
  · simp [View.clear, View.drop, trial, hab.symm]
  · simp only [View.clear, View.drop, trial, Function.update_apply]
    split_ifs <;> simp_all
  · simp only [View.clear, View.drop, trial, Function.update_apply, ptx_va1]
    split_ifs <;> simp_all

/-! ### The assertions -/

theorem mustInsert_of {pp : ℕ} {d : ℕ} (h : s.pageInsert d pp va perm = .ok (0, s')) :
    s.mustInsert d pp va perm = .ok s' := by
  rw [Kernel.mustInsert, h]
  rfl

theorem mustNotInsert_of {pp : ℕ} {d : ℕ} (h : s.pageInsert d pp va perm = .ok (-eNoMem, s')) :
    s.mustNotInsert d pp va perm = .ok s' := by
  rw [Kernel.mustNotInsert, h]
  rfl

theorem checkVa_of {d : ℕ} {pa : Word} (h : s.checkVa2pa d va = .ok pa) :
    s.checkVa d va pa = .ok () := by
  rw [checkVa, h]
  exact assert_of rfl

theorem pteAddr_entry {pp : ℕ} (hpp : pp < kernWindow) (hperm : perm.toNat < 2 ^ 12) :
    pteAddr (page2pa pp ||| perm ||| pteP) = page2pa pp := by
  rw [pteAddr_eq, frame_entry hpp hperm]

/-- Address 0, at which page `pp` is mapped. -/
theorem Sees.checkMapped0 (hb : Bench s₀ a b c rest) {pp : ℕ}
    (h : Sees s₀ a b c s (trial s₀ a b c l ra rb rc w (page2pa pp ||| perm ||| pteP) x₁))
    (hw : LeadsTo w a) (hT : pp = a ∨ pp = b ∨ pp = c) (hperm : perm.toNat < 2 ^ 12) :
    s.checkVa s₀.kernPgdir va0 (page2pa pp) = .ok () := by
  refine checkVa_of ?_
  rw [h.checkVa2pa hb (by rw [trial_pde_va0]; exact hw.present)
    (by rw [trial_pde_va0]; exact hw.frame), trial_pte_va0, if_pos (has_entry_pteP pp perm),
    pteAddr_entry (h.lt_kernWindow hb hT) hperm]

/-- Address `PGSIZE`, at which page `pp` is mapped. -/
theorem Sees.checkMapped1 (hb : Bench s₀ a b c rest) {pp : ℕ}
    (h : Sees s₀ a b c s (trial s₀ a b c l ra rb rc w x₀ (page2pa pp ||| perm ||| pteP)))
    (hw : LeadsTo w a) (hT : pp = a ∨ pp = b ∨ pp = c) (hperm : perm.toNat < 2 ^ 12) :
    s.checkVa s₀.kernPgdir va1 (page2pa pp) = .ok () := by
  refine checkVa_of ?_
  rw [h.checkVa2pa hb (by rw [trial_pde_va1]; exact hw.present)
    (by rw [trial_pde_va1]; exact hw.frame), trial_pte_va1, if_pos (has_entry_pteP pp perm),
    pteAddr_entry (h.lt_kernWindow hb hT) hperm]

/-- Address 0, at which nothing is mapped. -/
theorem Sees.checkUnmapped0 (hb : Bench s₀ a b c rest)
    (h : Sees s₀ a b c s (trial s₀ a b c l ra rb rc w 0#32 x₁)) (hw : LeadsTo w a) :
    s.checkVa s₀.kernPgdir va0 (BitVec.allOnes 32) = .ok () := by
  refine checkVa_of ?_
  rw [h.checkVa2pa hb (by rw [trial_pde_va0]; exact hw.present)
    (by rw [trial_pde_va0]; exact hw.frame), trial_pte_va0, if_neg (not_has_zero _)]

/-- Address `PGSIZE`, at which nothing is mapped. -/
theorem Sees.checkUnmapped1 (hb : Bench s₀ a b c rest)
    (h : Sees s₀ a b c s (trial s₀ a b c l ra rb rc w x₀ 0#32)) (hw : LeadsTo w a) :
    s.checkVa s₀.kernPgdir va1 (BitVec.allOnes 32) = .ok () := by
  refine checkVa_of ?_
  rw [h.checkVa2pa hb (by rw [trial_pde_va1]; exact hw.present)
    (by rw [trial_pde_va1]; exact hw.frame), trial_pte_va1, if_neg (not_has_zero _)]

/-- The place of the entry for `PGSIZE`, and what is there. -/
theorem Sees.entryAt1 (hb : Bench s₀ a b c rest)
    (h : Sees s₀ a b c s (trial s₀ a b c l ra rb rc w x₀ x₁)) (hw : LeadsTo w a) :
    s.entryAt s₀.kernPgdir va1 = .ok (a, ptx va1) ∧ s.phys a (ptx va1) = x₁ := by
  refine ⟨?_, by rw [h.pte, trial_pte_va1]⟩
  rw [Kernel.entryAt, h.walk hb va1 (by rw [trial_pde_va1]; exact hw.present)
    (by rw [trial_pde_va1]; exact hw.frame)]
  rfl

/-- The directory entry. -/
theorem Sees.pde0 (h : Sees s₀ a b c s (trial s₀ a b c l ra rb rc w x₀ x₁)) :
    s.phys s₀.kernPgdir 0 = w := by
  rw [h.pde]
  simp [trial]

theorem Sees.checkRef (h : Sees s₀ a b c s v) {r : BitVec 16} (hr : v.ref p = r) :
    s.checkRef p r = .ok () :=
  assert_of ((h.ref p).trans hr)

theorem not_has_pteU_entry (pp : ℕ) : ¬ Has (page2pa pp ||| pteW ||| pteP) pteU := by
  have h1 := not_has_page2pa pp (f := pteU) (by decide)
  have h2 : ¬ Has pteW pteU := by decide
  have h3 : ¬ Has pteP pteU := by decide
  simp [h1, h2, h3]

end Steps

/-- **The mapping part of `check_page`.** -/
theorem Bench.checkPageMap (hb : Bench s₀ a b c rest) {ref : ℕ → BitVec 16} {pte : ℕ → Word}
    (h : Sees s₀ a b c s ⟨[], ref, s₀.phys s₀.kernPgdir, pte, s₀.phys⟩)
    (hr : ∀ p, ref p = (s₀.pages p).ppRef) (h0 : s₀.phys s₀.kernPgdir 0 = 0#32)
    (h1 : s₀.phys s₀.kernPgdir 1 = 0#32) :
    ∃ s' w, s.checkPageMap a b c = .ok s' ∧ LeadsTo w a ∧
      Sees s₀ a b c s' (trial s₀ a b c [] 1#16 0#16 0#16 w 0#32 0#32) := by
  have hA : a = a ∨ a = b ∨ a = c := Or.inl rfl
  have hB : b = a ∨ b = b ∨ b = c := Or.inr (Or.inl rfl)
  have hC : c = a ∨ c = b ∨ c = c := Or.inr (Or.inr rfl)
  have hab := hb.ne_ab
  have hac := hb.ne_ac
  have hbc := hb.ne_bc
  have hW : pteW.toNat < 2 ^ 12 := by decide
  have hbw := h.lt_kernWindow hb hB
  have hcw := h.lt_kernWindow hb hC
  have hkd : s.kernPgdir = s₀.kernPgdir := h.still.kernPgdir
  have hno0 : ¬ Has (s₀.phys s₀.kernPgdir (pdx va0)) pteP := by
    rw [pdx_va0, h0]
    exact not_has_zero _
  have hlook : s.pageLookup s₀.kernPgdir va0 = .ok none :=
    pageLookup_of_absent (by rw [h.pde]; exact hno0)
  -- the operations, one after the other
  have hins₀ := h.insertNoMem va0 pteW rfl hno0 b
  obtain ⟨s₁, hfree, h₁⟩ := h.pageFree hA (by simp) ((hr a).trans (hb.ref hA))
  obtain ⟨s₂, w₂, hins₂, hw₂, h₂⟩ := h₁.insertFirst hb hr h0
  obtain ⟨s₃, hins₃, h₃⟩ := h₂.insertSecond hb pteW hw₂
  have hw₃ := hw₂.or hW
  obtain ⟨s₄, hins₄, h₄⟩ := h₃.insertSame hb pteW hw₃ (has_entry_pteP c _)
    (frame_entry hcw hW)
  have hw₄ := hw₃.or hW
  obtain ⟨s₅, hins₅, h₅⟩ := h₄.insertSame hb (pteW ||| pteU) hw₄ (has_entry_pteP c _)
    (frame_entry hcw hW)
  have hWU : (pteW ||| pteU).toNat < 2 ^ 12 := by decide
  have hw₅ := hw₄.or hWU
  obtain ⟨s₆, hins₆, h₆⟩ := h₅.insertSame hb pteW hw₅ (has_entry_pteP c _)
    (frame_entry hcw hWU)
  have hw₆ := hw₅.or hW
  have hins₇ := h₆.insertNoMem vaT pteW rfl
    (by simp [pdx_vaT, trial, h1]) a
  obtain ⟨s₈, hins₈, h₈⟩ := h₆.insertInstead hb pteW hw₆ (has_entry_pteP c _)
    (frame_entry hcw hW)
  have hw₈ := hw₆.or hW
  obtain ⟨s₉, halloc₉, h₉⟩ := h₈.mustAlloc hC (l := []) rfl
  obtain ⟨s₁₀, hrem₁₀, h₁₀⟩ := Sees.removeFirst hb h₉ hw₈ (has_entry_pteP b _) (frame_entry hbw hW)
  obtain ⟨s₁₁, hins₁₁, h₁₁⟩ := h₁₀.insertAgain hb 0#32 hw₈ (has_entry_pteP b _)
    (frame_entry hbw hW)
  have hZ : (0#32 : Word).toNat < 2 ^ 12 := by decide
  have hw₁₁ := hw₈.or hZ
  obtain ⟨s₁₂, hrem₁₂, h₁₂⟩ := h₁₁.removeLast hb hw₁₁ (has_entry_pteP b _) (frame_entry hbw hZ)
  obtain ⟨s₁₃, halloc₁₃, h₁₃⟩ := h₁₂.mustAlloc hB (l := []) rfl
  refine ⟨s₁₃, _, ?_, hw₁₁, h₁₃⟩
  -- the run
  have hcheckA : pteAddr (s₂.phys s₀.kernPgdir 0) = page2pa a := by
    rw [h₂.pde0, pteAddr_eq, hw₂.frame]
  have hk₄ : s₄.kaddr (pteAddr (s₄.phys s₀.kernPgdir (pdx va1))) = .ok a := by
    have hpg : pgnum (pteAddr (s₄.phys s₀.kernPgdir (pdx va1))) = a := by
      rw [h₄.pde, trial_pde_va1]
      exact hw₄.frame
    rw [kaddr_of_lt (by rw [hpg]; exact h₄.lt hb hA) (by rw [hpg]; exact h₄.lt_kernWindow hb hA),
      hpg]
  have hwalk₄ := h₄.walk hb va1 (by rw [trial_pde_va1]; exact hw₄.present)
    (by rw [trial_pde_va1]; exact hw₄.frame) false
  obtain ⟨hat₅, hx₅⟩ := h₅.entryAt1 hb hw₅
  obtain ⟨hat₆, hx₆⟩ := h₆.entryAt1 hb hw₆
  obtain ⟨hat₈, hx₈⟩ := h₈.entryAt1 hb hw₈
  have hU₅ : Has (s₅.phys a (ptx va1)) pteU := by
    have hu : Has pteU pteU := by decide
    rw [hx₅]
    simp [hu]
  have hD₅ : Has (s₅.phys s₀.kernPgdir 0) pteU := by
    rw [h₅.pde0]
    exact hw₅.user
  have hW₆ : Has (s₆.phys a (ptx va1)) pteW := by
    have hw : Has pteW pteW := by decide
    rw [hx₆]
    simp [hw]
  have hU₆ : ¬ Has (s₆.phys a (ptx va1)) pteU := by
    rw [hx₆]
    exact not_has_pteU_entry c
  have hU₈ : ¬ Has (s₈.phys a (ptx va1)) pteU := by
    rw [hx₈]
    exact not_has_pteU_entry b
  have href₁₁ : (s₁₁.pages b).ppRef ≠ 0#16 := by
    rw [h₁₁.ref, trial_ref_b _ _ _ _ _ _ _ _ _ _ _ hab]
    decide
  have hlink₁₁ : (s₁₁.pages b).ppLink = none := h₁₁.held b hB (by simp [trial])
  unfold Kernel.checkPageMap
  simp only [hkd]
  rw [hlook, ok_bind, assert_of rfl, ok_bind, mustNotInsert_of hins₀, ok_bind, hfree, ok_bind,
    mustInsert_of hins₂, ok_bind, assert_of hcheckA, ok_bind, h₂.checkMapped0 hb hw₂ hB hW, ok_bind,
    h₂.checkRef (trial_ref_b _ _ _ _ _ _ _ _ _ _ _ hab), ok_bind,
    h₂.checkRef (trial_ref_a _ _ _ _ _ _ _ _ _ _ _), ok_bind]
  rw [mustInsert_of hins₃, ok_bind, h₃.checkMapped1 hb hw₃ hC hW, ok_bind,
    h₃.checkRef (trial_ref_c _ _ _ _ _ _ _ _ _ _ _ hac hbc), ok_bind, h₃.mustNotAlloc rfl, ok_bind,
    mustInsert_of hins₄, ok_bind, h₄.checkMapped1 hb hw₄ hC hW, ok_bind,
    h₄.checkRef (trial_ref_c _ _ _ _ _ _ _ _ _ _ _ hac hbc), ok_bind, h₄.mustNotAlloc rfl, ok_bind,
    hk₄, ok_bind, hwalk₄, ok_bind, assert_of rfl, ok_bind]
  rw [mustInsert_of hins₅, ok_bind, h₅.checkMapped1 hb hw₅ hC hWU, ok_bind,
    h₅.checkRef (trial_ref_c _ _ _ _ _ _ _ _ _ _ _ hac hbc), ok_bind, hat₅, ok_bind, assert_of hU₅,
    ok_bind, assert_of hD₅, ok_bind, mustInsert_of hins₆, ok_bind, hat₆, ok_bind, assert_of hW₆,
    ok_bind, assert_of hU₆, ok_bind, mustNotInsert_of hins₇, ok_bind]
  rw [mustInsert_of hins₈, ok_bind, hat₈, ok_bind, assert_of hU₈, ok_bind,
    h₈.checkMapped0 hb hw₈ hB hW, ok_bind, h₈.checkMapped1 hb hw₈ hB hW, ok_bind,
    h₈.checkRef (trial_ref_b _ _ _ _ _ _ _ _ _ _ _ hab), ok_bind,
    h₈.checkRef (trial_ref_c _ _ _ _ _ _ _ _ _ _ _ hac hbc), ok_bind, halloc₉]
  simp only [ok_bind]
  rw [assert_of trivial, ok_bind, hrem₁₀, ok_bind, h₁₀.checkUnmapped0 hb hw₈, ok_bind,
    h₁₀.checkMapped1 hb hw₈ hB hW, ok_bind,
    h₁₀.checkRef (trial_ref_b _ _ _ _ _ _ _ _ _ _ _ hab), ok_bind,
    h₁₀.checkRef (trial_ref_c _ _ _ _ _ _ _ _ _ _ _ hac hbc), ok_bind, mustInsert_of hins₁₁, ok_bind,
    assert_of href₁₁, ok_bind, assert_of hlink₁₁, ok_bind, hrem₁₂, ok_bind,
    h₁₂.checkUnmapped0 hb hw₁₁, ok_bind, h₁₂.checkUnmapped1 hb hw₁₁, ok_bind,
    h₁₂.checkRef (trial_ref_b _ _ _ _ _ _ _ _ _ _ _ hab), ok_bind,
    h₁₂.checkRef (trial_ref_c _ _ _ _ _ _ _ _ _ _ _ hac hbc), ok_bind, halloc₁₃]
  simp only [ok_bind]
  rw [assert_of trivial, ok_bind, h₁₃.mustNotAlloc rfl]

/-- **The part of `check_page` about new tables.**  The directory is as it was. -/
theorem Bench.checkPageTables (hb : Bench s₀ a b c rest) {x₀ x₁ : Word}
    (h : Sees s₀ a b c s (trial s₀ a b c [] 1#16 0#16 0#16 w x₀ x₁)) (hw : LeadsTo w a)
    (h0 : s₀.phys s₀.kernPgdir 0 = 0#32) (h1 : s₀.phys s₀.kernPgdir 1 = 0#32) :
    ∃ s' pte, s.checkPageTables a = .ok s' ∧ Sees s₀ a b c s'
      ⟨[], fun p => (s₀.pages p).ppRef, s₀.phys s₀.kernPgdir, pte, s₀.phys⟩ := by
  have hA : a = a ∨ a = b ∨ a = c := Or.inl rfl
  have hkd : s.kernPgdir = s₀.kernPgdir := h.still.kernPgdir
  have haw := h.lt_kernWindow hb hA
  -- the table is taken back
  have h₁ := (h.setPde hb 0 0#32).setRef a 0#16
  obtain ⟨s₂, hfree₂, h₂⟩ := h₁.pageFree hA (by simp [trial]) (by simp)
  -- it is used at the second directory entry, and taken back
  obtain ⟨s₃, hwalk₃, h₃⟩ := h₂.walkNew hb vaT1 (l := []) rfl
    (by simp [pdx_vaT1, trial, h1])
  have h₄ := (h₃.setPde hb (pdx vaT1) 0#32).setRef a 0#16
  have h₅ : Sees s₀ a b c (((s₃.setWord s₀.kernPgdir (pdx vaT1) 0#32).clearRef a).fillFrame a 1024
      (BitVec.allOnes 32)) _ := h₄.fillTable hb (m := fun f i => if f = a ∧ i < 1024 then
        BitVec.allOnes 32 else ((s₃.setWord s₀.kernPgdir (pdx vaT1) 0#32).clearRef a).phys f i) (by
    intro f hf
    funext i
    simp [hf, clearRef, setPage])
  obtain ⟨s₆, hfree₆, h₆⟩ := h₅.pageFree hA (by simp [View.table]) (by simp)
  -- and once more at the first
  obtain ⟨s₇, hwalk₇, h₇⟩ := h₆.walkNew hb va0 (l := []) rfl
    (by simp [pdx_va0, pdx_vaT1, View.table, trial])
  have h₈ := (h₇.setPde hb 0 0#32).setRef a 0#16
  have hzero : ∀ i ∈ List.range nptentries, assert (¬ Has (s₇.phys a i) pteP) = .ok () := by
    intro i _
    refine assert_of ?_
    rw [h₇.pte]
    exact not_has_zero _
  refine ⟨(s₇.setWord s₀.kernPgdir 0 0#32).clearRef a, _, ?_,
    h₈.cast rfl (fun p => ?_) (fun i => ?_) (fun j => rfl) rfl⟩
  · have hcheckA : pteAddr (s.phys s₀.kernPgdir 0) = page2pa a := by
      rw [h.pde0, pteAddr_eq, hw.frame]
    have hpde₃ : s₃.phys s₀.kernPgdir (pdx vaT1) = page2pa a ||| pteP ||| pteU ||| pteW := by
      rw [h₃.pde]
      simp [View.table]
    have hk₃ : s₃.kaddr (pteAddr (s₃.phys s₀.kernPgdir (pdx vaT1))) = .ok a := by
      have hpg : pgnum (pteAddr (s₃.phys s₀.kernPgdir (pdx vaT1))) = a := by
        rw [hpde₃]
        exact frame_tableEntry haw
      rw [kaddr_of_lt (by rw [hpg]; exact h₃.lt hb hA) (by rw [hpg]; exact haw), hpg]
    have href : (s.setWord s₀.kernPgdir 0 0#32).checkRef a 1#16 = .ok () :=
      assert_of ((h.ref a).trans (trial_ref_a _ _ _ _ _ _ _ _ _ _ _))
    have hkva₄ : ((s₃.setWord s₀.kernPgdir (pdx vaT1) 0#32).clearRef a).page2kva a = .ok a :=
      h₄.page2kva hb hA
    unfold Kernel.checkPageTables
    simp only [hkd]
    rw [assert_of hcheckA, ok_bind, href, ok_bind]
    rw [show (s.setWord s₀.kernPgdir 0 0#32).clearRef a = (s.setWord s₀.kernPgdir 0 0#32).setPage a
      { (s.setWord s₀.kernPgdir 0 0#32).pages a with ppRef := 0#16 } from rfl, hfree₂, ok_bind,
      hwalk₃]
    simp only [ok_bind]
    rw [hk₃, ok_bind, assert_of rfl, ok_bind, hkva₄, ok_bind, hfree₆, ok_bind, hwalk₇]
    simp only [ok_bind]
    rw [h₇.page2kva hb hA, ok_bind, forM_eq_ok.mpr hzero, ok_bind]
    rfl
  · have ha := hb.ref (p := a) hA
    have hb' := hb.ref (p := b) (Or.inr (Or.inl rfl))
    have hc := hb.ref (p := c) (Or.inr (Or.inr rfl))
    simp only [View.table, trial, Function.update_apply]
    split_ifs <;> simp_all
  · simp only [View.table, trial, Function.update_apply, pdx_va0, pdx_vaT1]
    split_ifs <;> simp_all

/-! ## With the directory loaded -/

/-- The view of `check_page_installed_pgdir`, which also looks at what the pages hold. -/
def installed (s₀ : Kernel) (a b c : ℕ) (l : List ℕ) (ra rb rc : BitVec 16) (w x₁ : Word)
    (m : Phys) : View :=
  { trial s₀ a b c l ra rb rc w 0#32 x₁ with mem := m }

section Installed

variable {m : Phys} {x₁ : Word} {ra rb rc : BitVec 16}

theorem installed_ref_a : (installed s₀ a b c l ra rb rc w x₁ m).ref a = ra := by
  simp [installed, trial]

theorem installed_ref_b (h : a ≠ b) : (installed s₀ a b c l ra rb rc w x₁ m).ref b = rb := by
  simp [installed, trial, h.symm]

theorem installed_ref_c (h : a ≠ c) (h' : b ≠ c) :
    (installed s₀ a b c l ra rb rc w x₁ m).ref c = rc := by
  simp [installed, trial, h.symm, h'.symm]

theorem Sees.insertInstalled (hb : Bench s₀ a b c rest) {pte : ℕ → Word}
    (h : Sees s₀ a b c s ⟨a :: rest, fun p => (s₀.pages p).ppRef, s₀.phys s₀.kernPgdir, pte, m⟩)
    (h0 : s₀.phys s₀.kernPgdir 0 = 0#32) :
    ∃ s' w, s.pageInsert s₀.kernPgdir b va1 pteW = .ok (0, s') ∧ LeadsTo w a ∧ Has w pteW ∧
      Sees s₀ a b c s' (installed s₀ a b c rest 1#16 1#16 0#16 w
        (page2pa b ||| pteW ||| pteP) m) := by
  have hab := hb.ne_ab
  have ha := hb.ref (p := a) (Or.inl rfl)
  have hb' := hb.ref (p := b) (Or.inr (Or.inl rfl))
  have hc := hb.ref (p := c) (Or.inr (Or.inr rfl))
  have hW : Has pteW pteW := by decide
  obtain ⟨s', hrun, h'⟩ := h.insertNew hb va1 pteW (l := rest) rfl
    (by simp [pdx_va1, h0]) b
  have hperm : pteW.toNat < 2 ^ 12 := by decide
  refine ⟨s', _, hrun, (leadsTo_tableEntry (h.lt_kernWindow hb (Or.inl rfl))).or hperm,
    (has_or _ _ _).mpr (Or.inr hW),
    h'.cast rfl (fun p => ?_) (fun i => ?_) (fun j => ?_) rfl⟩
  · simp only [View.enter, View.table, View.inc, installed, trial, Function.update_apply]
    split_ifs <;> simp_all
  · simp only [View.enter, View.table, View.inc, installed, trial, Function.update_apply, pdx_va1]
    split_ifs <;> simp_all
  · simp only [View.enter, View.table, View.inc, installed, trial, Function.update_apply, ptx_va1]
    split_ifs <;> simp_all

/-- Page `c` takes the place of `b`, which is freed. -/
theorem Sees.replaceInstalled (hb : Bench s₀ a b c rest)
    (h : Sees s₀ a b c s (installed s₀ a b c rest 1#16 1#16 0#16 w x₁ m)) (hw : LeadsTo w a)
    (hin : Has x₁ pteP) (hx : frame x₁ = b) :
    ∃ s', s.pageInsert s₀.kernPgdir c va1 pteW = .ok (0, s') ∧
      Sees s₀ a b c s' (installed s₀ a b c (b :: rest) 1#16 0#16 1#16 (w ||| pteW)
        (page2pa c ||| pteW ||| pteP) m) := by
  have hab := hb.ne_ab
  have hac := hb.ne_ac
  have hbc := hb.ne_bc
  obtain ⟨s', hrun, h'⟩ := h.insertUsed hb va1 pteW (q := b)
    (by simpa [pdx_va1, installed, trial] using hw.present)
    (by simpa [pdx_va1, installed, trial] using hw.frame)
    (by simpa [ptx_va1, installed, trial] using hin)
    (by simpa [ptx_va1, installed, trial] using hx)
    (Or.inr (Or.inl rfl)) (by simpa [installed, trial] using hb.not_mem_rest.2.1) c
  refine ⟨s', hrun, h'.cast ?_ (fun p => ?_) (fun i => ?_) (fun j => ?_) rfl⟩
  · simp [View.enter, View.clear, View.drop, View.inc, installed, trial, hab.symm, hbc]
  · simp only [View.enter, View.clear, View.drop, View.inc, installed, trial, Function.update_apply]
    split_ifs <;> simp_all
  · simp only [View.enter, View.clear, View.drop, View.inc, installed, trial, Function.update_apply,
      pdx_va1]
    split_ifs <;> simp_all
  · simp only [View.enter, View.clear, View.drop, View.inc, installed, trial, Function.update_apply,
      ptx_va1]
    split_ifs <;> simp_all

/-- The last mapping goes, and with it page `c`. -/
theorem Sees.removeInstalled (hb : Bench s₀ a b c rest)
    (h : Sees s₀ a b c s (installed s₀ a b c (b :: rest) 1#16 0#16 1#16 w x₁ m))
    (hw : LeadsTo w a) (hin : Has x₁ pteP) (hx : frame x₁ = c) :
    ∃ s', s.pageRemove s₀.kernPgdir va1 = .ok s' ∧
      Sees s₀ a b c s' (installed s₀ a b c (c :: b :: rest) 1#16 0#16 0#16 w 0#32 m) := by
  have hac := hb.ne_ac
  have hbc := hb.ne_bc
  have hne : x₁ ≠ 0#32 := by
    rintro rfl
    exact not_has_zero _ hin
  obtain ⟨s', hrun, h'⟩ := h.pageRemove hb va1 (q := c)
    (by simpa [pdx_va1, installed, trial] using hw.present)
    (by simpa [pdx_va1, installed, trial] using hw.frame)
    (by simpa [ptx_va1, installed, trial] using hne)
    (by simpa [ptx_va1, installed, trial] using hx)
    (Or.inr (Or.inr rfl)) (by simpa [installed, trial, hbc.symm] using hb.not_mem_rest.2.2)
  refine ⟨s', hrun, h'.cast ?_ (fun p => ?_) (fun i => rfl) (fun j => ?_) rfl⟩
  · simp [View.clear, View.drop, installed, trial, hac.symm, hbc.symm]
  · simp only [View.clear, View.drop, installed, trial, Function.update_apply]
    split_ifs <;> simp_all
  · simp only [View.clear, View.drop, installed, trial, Function.update_apply, ptx_va1]
    split_ifs <;> simp_all

/-- An access through `PGSIZE` reaches the page that is mapped there. -/
theorem Sees.kernelAccess (hcr : s₀.thiscpu.cr3 = s₀.kernPgdir)
    (h : Sees s₀ a b c s (installed s₀ a b c l ra rb rc w x₁ m)) (hw : LeadsTo w a)
    (hW : Has w pteW) (hin : Has x₁ pteP) (hxW : Has x₁ pteW) (hx : frame x₁ = q) (write : Bool) :
    s.kernelAccess va1 write = .ok q := by
  have hcr' : s.thiscpu.cr3 = s₀.kernPgdir := by
    rw [← hcr, thiscpu, thiscpu, h.still.cpunum, h.still.cr3]
  have hpde : s.phys s₀.kernPgdir 0 = w := by
    rw [h.pde]
    simp [installed, trial]
  have hpte : s.phys a 1 = x₁ := by
    rw [h.pte]
    simp [installed, trial]
  have hpg : pgnum va1 = 1 := by decide
  have hwalk : mmuWalk s.phys s₀.kernPgdir 1 =
      some ⟨q, decide (Has w pteU ∧ Has x₁ pteU), true⟩ := by
    have hdiv : 1 / nptentries = 0 := by decide
    have hmod : 1 % nptentries = 1 := by decide
    unfold mmuWalk
    simp only [hdiv, hmod, hpde, hw.frame, hpte]
    rw [if_pos ⟨hw.present, hin⟩, hx]
    simp [hW, hxW]
  rw [Kernel.kernelAccess, hcr', hpg, hwalk]
  simp

/-- **`check_page_installed_pgdir` succeeds.** -/
theorem Bench.checkPageInstalledPgdir (hb : Bench s₀ a b c rest)
    (hcr : s₀.thiscpu.cr3 = s₀.kernPgdir) (h0 : s₀.phys s₀.kernPgdir 0 = 0#32) :
    ∃ s, s₀.checkPageInstalledPgdir = .ok s ∧
      Tested s₀ s (a :: b :: c :: rest) (a :: c :: b :: rest) := by
  have hA : a = a ∨ a = b ∨ a = c := Or.inl rfl
  have hB : b = a ∨ b = b ∨ b = c := Or.inr (Or.inl rfl)
  have hC : c = a ∨ c = b ∨ c = c := Or.inr (Or.inr rfl)
  have hW : pteW.toNat < 2 ^ 12 := by decide
  have hWW : Has pteW pteW := by decide
  obtain ⟨ha, hbr, hc⟩ := hb.not_mem_rest
  have hka : c ≠ s₀.kernPgdir := hb.kern_ne hC
  have hkb : b ≠ s₀.kernPgdir := hb.kern_ne hB
  obtain ⟨s₁, s₂, s₃, hrun₁, hrun₂, hrun₃, h₃⟩ := hb.take
  obtain ⟨s₄, hfree₄, h₄⟩ := h₃.pageFree hA ha (hb.ref hA)
  -- the two pages are marked
  have hfill : ∀ {t : Kernel} {g n : ℕ} {x : Word} (f : ℕ), f ≠ g →
      (t.fillFrame g n x).phys f = t.phys f := by
    intro t g n x f hf
    funext i
    simp [fillFrame, hf]
  have h₅ : Sees s₀ a b c (s₄.fillFrame b 1024 0x01010101#32) _ :=
    h₄.setOther hb (Or.inl rfl) (fun f hf => hfill f hf)
  have h₆ : Sees s₀ a b c ((s₄.fillFrame b 1024 0x01010101#32).fillFrame c 1024 0x02020202#32) _ :=
    h₅.setOther hb (Or.inr rfl)
      (m := ((s₄.fillFrame b 1024 0x01010101#32).fillFrame c 1024 0x02020202#32).phys)
      (fun f hf => hfill f hf)
  generalize hs₆ : (s₄.fillFrame b 1024 0x01010101#32).fillFrame c 1024 0x02020202#32 = s₆ at h₆
  have hmb : s₆.phys b 0 = 0x01010101#32 := by
    rw [← hs₆]
    simp [fillFrame, hb.ne_bc]
  have hmc : s₆.phys c 0 = 0x02020202#32 := by
    rw [← hs₆]
    simp [fillFrame]
  -- they are mapped one after the other
  obtain ⟨s₇, w, hins₇, hw, hwW, h₇⟩ := h₆.insertInstalled hb h0
  have hbw := h₃.lt_kernWindow hb hB
  have hcw := h₃.lt_kernWindow hb hC
  have hacc₇ := h₇.kernelAccess hcr hw hwW (has_entry_pteP b _) (by simp [hWW])
    (frame_entry hbw hW) false
  obtain ⟨s₈, hins₈, h₈⟩ := h₇.replaceInstalled hb hw (has_entry_pteP b _) (frame_entry hbw hW)
  have hw₈ := hw.or hW
  have hwW₈ : Has (w ||| pteW) pteW := (has_or _ _ _).mpr (Or.inl hwW)
  have hacc₈ : ∀ write, s₈.kernelAccess va1 write = .ok c :=
    h₈.kernelAccess hcr hw₈ hwW₈ (has_entry_pteP c _) (by simp [hWW]) (frame_entry hcw hW)
  have h₉ : Sees s₀ a b c (s₈.setWord c 0 0x03030303#32) _ :=
    h₈.setOther hb (Or.inr rfl) (fun f hf => by
      funext i
      simp [hf])
  obtain ⟨s₁₀, hrem₁₀, h₁₀⟩ := Sees.removeInstalled hb h₉ hw₈ (has_entry_pteP c _)
    (frame_entry hcw hW)
  -- the table is taken back
  have h₁₁ := (h₁₀.setPde hb 0 0#32).setRef a 0#16
  obtain ⟨s₁₂, hfree₁₂, h₁₂⟩ := h₁₁.pageFree hA
    (by simp [installed, trial, hb.ne_ab, hb.ne_ac, ha]) (by simp)
  refine ⟨s₁₂, ?_, ?_⟩
  · have hword₇ : s₇.phys b 0 = 0x01010101#32 := by
      rw [h₇.phys b hb.ne_ab.symm hkb]
      exact hmb
    have hword₈ : s₈.phys c 0 = 0x02020202#32 := by
      rw [h₈.phys c hb.ne_ac.symm hka]
      exact hmc
    have hpde₁₀ : s₁₀.phys s₀.kernPgdir 0 = w ||| pteW := by
      rw [h₁₀.pde]
      simp [installed, trial]
    have href : (s₁₀.setWord s₀.kernPgdir 0 0#32).checkRef a 1#16 = .ok () :=
      assert_of ((h₁₀.ref a).trans (installed_ref_a))
    unfold Kernel.checkPageInstalledPgdir
    rw [hrun₁, ok_bind]
    dsimp only
    rw [hrun₂, ok_bind]
    dsimp only
    rw [hrun₃, ok_bind]
    dsimp only
    rw [hfree₄, ok_bind, h₄.page2kva hb hB, ok_bind, h₅.page2kva hb hC, ok_bind, hs₆, hins₇, ok_bind]
    dsimp only
    rw [h₇.checkRef (installed_ref_b hb.ne_ab), ok_bind, hacc₇, ok_bind,
      assert_of hword₇, ok_bind, hins₈, ok_bind]
    dsimp only
    rw [hacc₈, ok_bind, assert_of hword₈, ok_bind,
      h₈.checkRef (installed_ref_c hb.ne_ac hb.ne_bc), ok_bind,
      h₈.checkRef (installed_ref_b hb.ne_ab), ok_bind, hacc₈, ok_bind,
      h₉.page2kva hb hC, ok_bind, assert_of (by simp [setWord]), ok_bind, hrem₁₀, ok_bind,
      h₁₀.checkRef (installed_ref_c hb.ne_ac hb.ne_bc), ok_bind,
      assert_of (by rw [hpde₁₀, pteAddr_eq, hw₈.frame]), ok_bind, href, ok_bind]
    exact hfree₁₂
  · have hperm : (a :: c :: b :: rest).Perm (a :: b :: c :: rest) :=
      .cons a (.swap b c rest)
    refine h₁₂.tested hb hperm (fun p => ?_) ?_ (fun f hf hk => ?_)
    · have ra := hb.ref (p := a) hA
      have rb := hb.ref (p := b) hB
      have rc := hb.ref (p := c) hC
      simp only [installed, trial, Function.update_apply]
      split_ifs <;> simp_all
    · funext i
      simp only [installed, trial, Function.update_apply]
      split_ifs <;> simp_all
    · have hfa : f ≠ a := fun h1 => hf (Or.inl h1)
      have hfb : f ≠ b := fun h1 => hf (Or.inr (Or.inl h1))
      have hfc : f ≠ c := fun h1 => hf (Or.inr (Or.inr h1))
      have hset : (s₈.setWord c 0 0x03030303#32).phys f = s₈.phys f := by
        funext i
        simp [setWord, hfc]
      show (s₈.setWord c 0 0x03030303#32).phys f = s₀.phys f
      rw [hset, h₈.phys f hfa hk]
      show s₆.phys f = s₀.phys f
      rw [← hs₆, hfill f hfc, hfill f hfb, h₄.phys f hfa hk]

end Installed

end Kernel
end PmakeOs
