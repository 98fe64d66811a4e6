import PmakeOs.Space.TwoCpus
import PmakeOs.User.Faults

/-!
# A write to a page that is copy-on-write

`pgfault` maps the page a second time at `PFTEMP`, puts a new page in its place, copies it,
and unmaps it at `PFTEMP`.  What comes of it is a page that nobody else has mapped, with the
contents of the old one (`Caller.pgfault`).

* `load_eq`, `store_eq` --- loads and stores, by what is mapped;
* `movePage_ok` --- the copy;
* `Caller.storeCow` --- a store that returns has written to a frame that may be written, or
  that is new;
* `Caller.storeCow_writable`, `Caller.storeCow_cow` --- a store returns if the page may be
  written, or is copy-on-write, the program is armed and there are two free pages.
-/

namespace PmakeOs

open Lib Kernel

variable {s s' s₁ : Kernel} {ρ ρ' : ℕ → Role} {c d e f j k p q r : ℕ}
  {va err perm envid w w' x : Word} {tf : Trapframe}

namespace Kernel

/-- A page in use is mapped. -/
theorem Sound.exists_entry (hs : Settled s ρ) (hf : ρ f = .data) :
    ∃ y w, entryOf s.phys (dirsOf s) y = some w ∧ frame w = f := by
  have hpos := (hs.ledger.used hf).resolve_right id
  rw [Nat.add_zero] at hpos
  obtain ⟨y, -, hy⟩ := occurrences_pos_iff.mp hpos
  obtain ⟨w, hw, hwf⟩ := Option.map_eq_some_iff.mp hy
  exact ⟨y, w, hw, hwf⟩

/-- User pages hold no tables. -/
theorem aloof_setWord {y : ℕ × ℕ} (hw : entryOf s.phys (dirsOf s) y = some w) :
    Aloof s (s.setWord (frame w) j x) := by
  refine ⟨rfl, rfl, rfl, rfl, ⟨fun _ => Iff.rfl, fun _ => rfl, fun _ => rfl, rfl⟩, fun f hf => ?_⟩
  funext i
  have hne : f ≠ frame w := by
    rintro rfl
    exact hf y (by rw [hw, Option.map_some])
  exact if_neg fun h0 => hne h0.1

/-- `sys_page_alloc` for a page that is mapped needs no table. -/
theorem Sound.allocate_mapped (hs : Settled s ρ)
    (henv : s.envid2env envid true = .ok (0, some e)) (hd : dirsOf s e = some d) (hva : va < utop)
    (hal : ¬ Unaligned va) (hbits : perm &&& (pteU ||| pteP) = pteU ||| pteP)
    (hperm : perm.toNat < 2 ^ 12) (hw : entryOf s.phys (dirsOf s) (e, pgnum va) = some w)
    (hlt : refCount s.phys (dirsOf s) (frame w) < 2 ^ 16) (hq : ρ q = .free) :
    ∃ s', s.sysPageAlloc envid va perm = .ok (0, s') := by
  obtain ⟨p, hl⟩ := hs.ledger.typed.free.exists_head hq
  have hfree := hs.ledger.typed.free.role_of_head hl
  have hplt := hs.ledger.typed.lt (p := p) (by rw [hfree]; simp)
  have hpw : p < kernWindow := lt_of_lt_of_le hplt hs.ledger.typed.window
  have hpd : (s.envs e).envPgdir = some d := pgdir_of_dirsOf hd
  obtain ⟨h₁, -⟩ := hs.takeUserPage (Q := fun _ => True) hl
  have halloc : s.pageAlloc allocZero = .ok (some p, s.takePage p) := pageAlloc_of_cons hl hplt hpw
  have hm₁ : MemoryOnly s ((s.takePage p).note (.userPage p)) :=
    (memoryOnly_of_pageAlloc halloc).trans (.note _ rfl)
  generalize hs₁ : (s.takePage p).note (.userPage p) = s₁ at h₁ hm₁
  have hdirs₁ : dirsOf s₁ = dirsOf s := hm₁.sameSlots.dirsOf
  have hent₁ : entryOf s₁.phys (dirsOf s₁) = entryOf s.phys (dirsOf s) := by
    rw [hdirs₁, ← hs₁]
    exact hs.ledger.typed.tree.entryOf_takePage hfree
  have hd₁ : dirsOf s₁ e = some d := by
    rw [hdirs₁]
    exact hd
  have hw₁ := (congrFun hent₁ (e, pgnum va)).trans hw
  have hlt₁ : ∀ w', entryOf s₁.phys (dirsOf s₁) (e, pgnum va) = some w' →
      refCount s₁.phys (dirsOf s₁) (frame w') + 0 < 2 ^ 16 := by
    intro w' h0
    obtain rfl := Option.some.inj (hw₁.symm.trans h0)
    rw [refCount_of_entryOf_eq hent₁, Nat.add_zero]
    exact hlt
  obtain ⟨s', hins⟩ : ∃ s', s₁.pageInsert d p va perm = .ok (0, s') := by
    rcases h₁.ledger.pageInsert hd₁ hva (Function.update_self p .data ρ) hperm hlt₁ with
      ⟨hno, -⟩ | ⟨s', -, hins, -⟩
    · obtain ⟨-, d', hd', hp, -⟩ := exists_of_entryOf hw₁
      obtain rfl := Option.some.inj (hd₁.symm.trans hd')
      rw [pgnum_div] at hp
      exact absurd hp hno
    · exact ⟨s', hins⟩
  refine ⟨s', ?_⟩
  unfold Kernel.sysPageAlloc
  rw [henv, ok_bind]
  simp only [ne_eq, not_true_eq_false, if_false]
  rw [if_neg (not_or.mpr ⟨BitVec.not_le.mpr hva, hal⟩), if_neg (not_not.mpr hbits), halloc, ok_bind]
  show (deref (some e) >>= fun e => _) = _
  rw [deref_some, ok_bind]
  show (deref (s.envs e).envPgdir >>= fun d => _) = _
  rw [hpd, deref_some, ok_bind, hs₁, hins, ok_bind]
  rfl

end Kernel

namespace User

/-! ## Loads and stores -/

theorem load_eq (hs : Settled s ρ) (hd : dirsOf s c = some s.thiscpu.cr3)
    (hw : entryOf s.phys (dirsOf s) (c, pgnum va) = some w) :
    load s va = if Has w pteU then .ok (s.phys (frame w) (va.toNat % pgsize / 4))
      else .error .fault := by
  unfold load
  rw [hs.walk_of_entry hd hw]
  simp only [decide_eq_true_eq]

theorem load_none (hd : dirsOf s c = some s.thiscpu.cr3) (hk : pgnum va < upn)
    (hw : entryOf s.phys (dirsOf s) (c, pgnum va) = none) : load s va = .error .fault := by
  unfold load
  rw [walk_of_no_entry hd hk hw]

theorem store_eq (hs : Settled s ρ) (hd : dirsOf s c = some s.thiscpu.cr3)
    (hw : entryOf s.phys (dirsOf s) (c, pgnum va) = some w) :
    store s va x = if Has w pteU ∧ Has w pteW then
      .ok (s.setWord (frame w) (va.toNat % pgsize / 4) x) else .error .fault := by
  unfold store
  rw [hs.walk_of_entry hd hw]
  simp only [decide_eq_true_eq]

/-- A page that is not there or may not be written. -/
theorem store_fault (hs : Settled s ρ) (hd : dirsOf s c = some s.thiscpu.cr3) (hk : pgnum va < upn)
    (hno : ∀ w, entryOf s.phys (dirsOf s) (c, pgnum va) = some w → ¬ (Has w pteU ∧ Has w pteW)) :
    store s va x = .error .fault := by
  cases hw : entryOf s.phys (dirsOf s) (c, pgnum va) with
  | none =>
    unfold store
    rw [walk_of_no_entry hd hk hw]
  | some w => rw [store_eq hs hd hw, if_neg (hno w hw)]

/-! ## The copy -/

theorem toNat_wordVa (hk : k < upn) (hj : j < pgsize / 4) :
    (pageVa k + BitVec.ofNat 32 (4 * j)).toNat = k * 4096 + 4 * j := by
  rw [upn_eq] at hk
  have hj' : j < 1024 := hj
  rw [BitVec.toNat_add, toNat_pageVa (by rw [upn_eq]; omega), BitVec.toNat_ofNat]
  omega

theorem pgnum_wordVa (hk : k < upn) (hj : j < pgsize / 4) :
    pgnum (pageVa k + BitVec.ofNat 32 (4 * j)) = k := by
  have hj' : j < 1024 := hj
  rw [pgnum_eq, toNat_wordVa hk hj]
  omega

theorem offset_wordVa (hk : k < upn) (hj : j < pgsize / 4) :
    (pageVa k + BitVec.ofNat 32 (4 * j)).toNat % pgsize / 4 = j := by
  have hj' : j < 1024 := hj
  rw [toNat_wordVa hk hj, pgsize]
  omega

/-- A page that is mapped has been written to. -/
structure Writes (s : Kernel) (ρ : ℕ → Role) (s' : Kernel) : Prop where
  settled : Settled s' ρ
  memory : MemoryOnly s s'
  entries : entryOf s'.phys (dirsOf s') = entryOf s.phys (dirsOf s)

theorem Writes.refl (hs : Settled s ρ) : Writes s ρ s := ⟨hs, .refl s, rfl⟩

theorem Writes.setWord {y : ℕ × ℕ} (h : Writes s ρ s')
    (hw : entryOf s.phys (dirsOf s) y = some w) (j : ℕ) (x : Word) :
    Writes s ρ (s'.setWord (frame w) j x) := by
  rw [← h.entries] at hw
  have ha : Aloof s' (s'.setWord (frame w) j x) := aloof_setWord hw
  exact ⟨h.settled.aloof ha, h.memory.trans (.setWord s' _ _ _),
    (h.settled.entryOf_aloof ha).trans h.entries⟩

/-- The directory that is loaded stays loaded. -/
theorem loaded_of_memoryOnly (hd : dirsOf s c = some s.thiscpu.cr3) (hm : MemoryOnly s s') :
    dirsOf s' c = some s'.thiscpu.cr3 := by
  obtain ⟨tlb, htlb⟩ := hm.cpu s.cpunum
  have hcr : s'.thiscpu.cr3 = s.thiscpu.cr3 := by
    unfold thiscpu
    rw [hm.cpunum, htlb]
  rw [hm.sameSlots.dirsOf, hcr]
  exact hd

/-- **`memmove` of one page to another.** -/
theorem movePage_ok {a b : ℕ} (hs : Settled s ρ) (hd : dirsOf s c = some s.thiscpu.cr3)
    (ha : entryOf s.phys (dirsOf s) (c, a) = some w')
    (hb : entryOf s.phys (dirsOf s) (c, b) = some w)
    (hne : frame w' ≠ frame w) (hU : Has w pteU) (hU' : Has w' pteU) (hW' : Has w' pteW) :
    ∃ s', movePage s (pageVa a) (pageVa b) = .ok s' ∧ Writes s ρ s' ∧
      (∀ j < pgsize / 4, s'.phys (frame w') j = s.phys (frame w) j) ∧
      ∀ f j, f ≠ frame w' → s'.phys f j = s.phys f j := by
  obtain ⟨hak, -⟩ := exists_of_entryOf ha
  obtain ⟨hbk, -⟩ := exists_of_entryOf hb
  obtain ⟨s', hrun, hwr, hcopied, hother⟩ := foldlM_range_ok (n := pgsize / 4) (a := s)
    (f := fun s k => do
      let w ← load s (pageVa b + BitVec.ofNat 32 (4 * k))
      store s (pageVa a + BitVec.ofNat 32 (4 * k)) w)
    (I := fun k b => Writes s ρ b ∧ (∀ j < k, b.phys (frame w') j = s.phys (frame w) j) ∧
      ∀ f j, f ≠ frame w' → b.phys f j = s.phys f j)
    ⟨.refl hs, fun _ hj => absurd hj (Nat.not_lt_zero _), fun _ _ _ => rfl⟩
    (fun k hk s₁ ⟨hwr, hcopied, hother⟩ => by
      have hd₁ := loaded_of_memoryOnly hd hwr.memory
      have hb₁ := (congrFun hwr.entries (c, b)).trans hb
      have ha₁ := (congrFun hwr.entries (c, a)).trans ha
      rw [← pgnum_wordVa hbk hk] at hb₁
      rw [← pgnum_wordVa hak hk] at ha₁
      refine ⟨s₁.setWord (frame w') k (s₁.phys (frame w) k), ?_, hwr.setWord ha k _, fun j hj => ?_,
        fun f j hf => ?_⟩
      · rw [load_eq hwr.settled hd₁ hb₁, if_pos hU, ok_bind, store_eq hwr.settled hd₁ ha₁,
          if_pos ⟨hU', hW'⟩, offset_wordVa hak hk, offset_wordVa hbk hk]
      · rcases Nat.lt_succ_iff_lt_or_eq.mp hj with hlt | rfl
        · rw [← hcopied j hlt]
          exact if_neg fun h0 => (Nat.ne_of_lt hlt) h0.2
        · rw [← hother (frame w) j hne.symm]
          exact if_pos ⟨rfl, rfl⟩
      · rw [← hother f j hf]
        exact if_neg fun h0 => hf h0.1)
  exact ⟨s', hrun, hwr, hcopied, hother⟩

/-! ## `pgfault` -/

/-- The page below `PFTEMP + PGSIZE`. -/
def tempPage : ℕ := pgnum pftemp

theorem pageVa_tempPage : pageVa tempPage = pftemp := by decide

theorem tempPage_lt : tempPage < upn := by decide

theorem rounddown_eq_pageVa (va : Word) :
    rounddown va (BitVec.ofNat 32 pgsize) = pageVa (pgnum va) := by
  have hpg : (BitVec.ofNat 32 pgsize).toNat = 4096 := by decide
  have hlt := va.isLt
  refine BitVec.eq_of_toNat_eq ?_
  rw [toNat_rounddown, hpg, pageVa, BitVec.toNat_ofNat, pgnum_eq, pgsize]
  omega

/-- The entry of a page that is the program's own. -/
def ownEntry (p : ℕ) : Word := page2pa p ||| (pteP ||| pteU ||| pteW) ||| pteP

theorem has_ownEntry (p : ℕ) : Has (ownEntry p) pteU ∧ Has (ownEntry p) pteW := by
  have h : Has (pteP ||| pteU ||| pteW) pteU ∧ Has (pteP ||| pteU ||| pteW) pteW := by decide
  exact ⟨has_entry h.1, has_entry h.2⟩

/-- What `pgfault` does after its checks. -/
def replacePage (s : Kernel) (addr : Word) : Except Stop Kernel := do
  let s ← must s (.pageMap 0#32 addr 0#32 pftemp (pteU ||| pteP))
  let s ← must s (.pageAlloc 0#32 addr (pteP ||| pteU ||| pteW))
  let s ← movePage s addr pftemp
  must s (.pageUnmap 0#32 pftemp)

theorem of_pgfault (h : pgfault s va err = .ok s') : Has err fecWr ∧
    (∃ pte, uvptAt s (pgnum va) = .ok pte ∧ Has pte pteCow) ∧
      replacePage s (pageVa (pgnum va)) = .ok s' := by
  unfold pgfault at h
  split at h
  · cases h
  rename_i herr
  obtain ⟨pte, hpte, h⟩ := bind_eq_ok.mp h
  split at h
  · cases h
  rename_i hcow
  rw [← rounddown_eq_pageVa]
  exact ⟨not_not.mp herr, ⟨pte, hpte, not_not.mp hcow⟩, h⟩

theorem pgfault_eq (herr : Has err fecWr) (hpte : uvptAt s (pgnum va) = .ok w)
    (hcow : Has w pteCow) : pgfault s va err = replacePage s (pageVa (pgnum va)) := by
  unfold pgfault
  rw [if_neg (not_not.mpr herr), hpte, ← rounddown_eq_pageVa]
  show (if ¬ Has w pteCow then _ else _) = _
  rw [if_neg (not_not.mpr hcow)]
  rfl

/-- The entry at `PFTEMP`. -/
def tempEntry (w : Word) : Word := page2pa (frame w) ||| (pteU ||| pteP) ||| pteP

theorem frame_tempEntry (w : Word) : frame (tempEntry w) = frame w := frame_mapping w (by decide)

theorem frame_ownEntry (hp : p < kernWindow) : frame (ownEntry p) = p := frame_entry hp (by decide)

/-- After the first call: the page of the entry `w` is mapped at `PFTEMP` too. -/
structure Staged (s : Kernel) (ρ : ℕ → Role) (s₁ : Kernel) (ρ₁ : ℕ → Role) (c : ℕ) (w : Word) :
    Prop where
  retains : Retains s ρ s₁ ρ₁
  entries : entryOf s₁.phys (dirsOf s₁) =
    Function.update (entryOf s.phys (dirsOf s)) (c, tempPage) (some (tempEntry w))
  uses : ∃ t, ∀ f, ρ f = .free → f ≠ t → ρ₁ f = .free

/-- After the copy: frame `p` is in the place of the page, with the same contents. -/
structure Filled (s : Kernel) (ρ : ℕ → Role) (s₃ : Kernel) (ρ₃ : ℕ → Role) (c k p : ℕ) (w : Word) :
    Prop where
  settled : Settled s₃ ρ₃
  memory : MemoryOnly s s₃
  fresh : ρ p = .free
  window : p < kernWindow
  entries : entryOf s₃.phys (dirsOf s₃) = Function.update (Function.update
    (entryOf s.phys (dirsOf s)) (c, tempPage) (some (tempEntry w))) (c, k) (some (ownEntry p))
  light : ∀ q, refCount s₃.phys (dirsOf s₃) q < 2 ^ 16
  own : ρ₃ p = .data
  copied : ∀ j < pgsize / 4, s₃.phys p j = s.phys (frame w) j
  words : ∀ f, ρ f = .data → ρ₃ f = .data ∧ ∀ j, s₃.phys f j = s.phys f j

/-- Page `k` of environment `c` has become frame `p` of the free list, with the contents that
it had. -/
structure Replaces (s : Kernel) (ρ : ℕ → Role) (s' : Kernel) (ρ' : ℕ → Role) (c k p : ℕ)
    (w : Word) : Prop where
  settled : Settled s' ρ'
  memory : MemoryOnly s s'
  fresh : ρ p = .free
  window : p < kernWindow
  entries : entryOf s'.phys (dirsOf s') =
    Function.update (entryOf s.phys (dirsOf s)) (c, k) (some (ownEntry p))
  copied : ∀ j < pgsize / 4, s'.phys p j = s.phys (frame w) j
  words : ∀ f, ρ f = .data → ∀ j, s'.phys f j = s.phys f j

section Replace

variable {s₂ : Kernel} {ρ₁ ρ₂ : ℕ → Role} (hc : Caller s ρ c)
  (hw : entryOf s.phys (dirsOf s) (c, k) = some w) (hne : k ≠ tempPage)
  (htemp : entryOf s.phys (dirsOf s) (c, tempPage) = none)

include hc

theorem Caller.of_memoryOnly (hm : MemoryOnly s s₁) :
    s₁.curenv = some c ∧ dirsOf s₁ c = some s₁.thiscpu.cr3 :=
  ⟨hm.curenv.trans hc.curenv, loaded_of_memoryOnly hc.loaded hm⟩

include htemp in
/-- The first call fails only for want of memory. -/
theorem Caller.mapTemp (hw : entryOf s.phys (dirsOf s) (c, k) = some w) : s.pageFreeList = none ∧
      s.handle (.pageMap 0#32 (pageVa k) 0#32 pftemp (pteU ||| pteP)) = .ok (.ret (-eNoMem), s) ∨
    ∃ s₁ ρ₁, s.handle (.pageMap 0#32 (pageVa k) 0#32 pftemp (pteU ||| pteP)) = .ok (.ret 0, s₁) ∧
      Staged s ρ s₁ ρ₁ c w := by
  have hno : ¬ Has (pteU ||| pteP) pteW := by decide
  rw [← pageVa_tempPage]
  rcases hc.settled.mapPage hc.curenv hc.loaded (envid2env_self hc.curenv) hc.loaded
    (show (pteU ||| pteP) &&& (pteU ||| pteP) = pteU ||| pteP by decide)
    (show (pteU ||| pteP).toNat < 2 ^ 12 by decide) hw tempPage_lt
    (fun w' h0 => nomatch htemp.symm.trans h0) ((hc.light _).trans (by decide)) with
    ⟨-, hask, -⟩ | ⟨-, hnil | ⟨s₁, ρ₁, hcall, hret, hent, huse⟩⟩
  · exact absurd hask hno
  · exact Or.inl hnil
  · exact Or.inr ⟨s₁, ρ₁, hcall, hret, hent, huse.one⟩

theorem Staged.light (h : Staged s ρ s₁ ρ₁ c w) (q : ℕ) :
    refCount s₁.phys (dirsOf s₁) q + 1 < 2 ^ 16 := by
  have h1 := refCount_le_succ h.entries q
  have h2 := hc.light q
  omega

include hw hne htemp

/-- **The copy** of the page to the one that has come with the second call. -/
theorem Staged.fill (h : Staged s ρ s₁ ρ₁ c w)
    (hg : Gives s₁ ρ₁ s₂ ρ₂ c p (pageVa k) (pteP ||| pteU ||| pteW)) :
    ∃ s₃, movePage s₂ (pageVa k) pftemp = .ok s₃ ∧ Filled s ρ s₃ ρ₂ c k p w := by
  have hs := hc.settled
  obtain ⟨hk, -⟩ := exists_of_entryOf hw
  have hfree := h.retains.free p (h.retains.settled.ledger.typed.free.role_of_head hg.head)
  have hpw : p < kernWindow := hs.ledger.typed.lt_kernWindow (by rw [hfree]; simp)
  have hframe := frame_ownEntry hpw
  have hdata := hs.ledger.typed.tree.role_of_entryOf hw
  have hpne : ∀ f, ρ f = .data → f ≠ p := by
    rintro f hf rfl
    rw [hfree] at hf
    cases hf
  have hent₂ := hg.entries
  rw [pgnum_pageVa hk] at hent₂
  have hnew : entryOf s₂.phys (dirsOf s₂) (c, k) = some (ownEntry p) := by
    rw [hent₂, Function.update_self]
    rfl
  have htmp : entryOf s₂.phys (dirsOf s₂) (c, tempPage) = some (tempEntry w) := by
    rw [hent₂, Function.update_of_ne fun h0 => hne (Prod.mk.inj h0).2.symm, h.entries,
      Function.update_self]
  have hm₂ := h.retains.memory.trans hg.memory
  obtain ⟨s₃, hmove, hwr, hcopied, hother⟩ := movePage_ok hg.settled (hc.of_memoryOnly hm₂).2 hnew
    htmp (by rw [hframe, frame_tempEntry]; exact (hpne _ hdata).symm)
    (has_entry (by decide)) (has_ownEntry p).1 (has_ownEntry p).2
  rw [hframe] at hcopied hother
  rw [frame_tempEntry] at hcopied
  -- a page in use has stayed in use: it is mapped still, or at `PFTEMP`
  have hstay : ∀ f, ρ f = .data → ρ₂ f = .data := by
    intro f hf
    obtain ⟨y, w', hw', rfl⟩ := hs.exists_entry hf
    rcases eq_or_ne y (c, k) with rfl | hy
    · obtain rfl := Option.some.inj (hw.symm.trans hw')
      rw [← frame_tempEntry]
      exact hg.settled.ledger.typed.tree.role_of_entryOf htmp
    · have hyt : y ≠ (c, tempPage) := by
        rintro rfl
        exact nomatch htemp.symm.trans hw'
      have hw₂ : entryOf s₂.phys (dirsOf s₂) y = some w' := by
        rw [hent₂, Function.update_of_ne hy, h.entries, Function.update_of_ne hyt]
        exact hw'
      exact hg.settled.ledger.typed.tree.role_of_entryOf hw₂
  refine ⟨s₃, by rw [← pageVa_tempPage]; exact hmove, hwr.settled, hm₂.trans hwr.memory, hfree, hpw,
    ?_, fun q => ?_, ?_, fun j hj => ?_, fun f hf => ⟨hstay f hf, fun j => ?_⟩⟩
  · rw [hwr.entries, hent₂, h.entries]
    rfl
  · have heq : refCount s₃.phys (dirsOf s₃) q = refCount s₂.phys (dirsOf s₂) q :=
      congrFun (refCount_of_entryOf_eq hwr.entries) q
    have h1 := refCount_le_succ hent₂ q
    have h2 := h.light hc q
    omega
  · have h0 := hg.settled.ledger.typed.tree.role_of_entryOf hnew
    rwa [hframe] at h0
  · obtain ⟨hdata₁, hsame⟩ := h.retains.data _ hdata
    rw [hcopied j hj, hg.words _ hdata₁ j, hsame j]
  · obtain ⟨hdata₁, hsame⟩ := h.retains.data f hf
    rw [hother f j (hpne f hf), hg.words f hdata₁ j, hsame j]

/-- **`pgfault`**, if it returns. -/
theorem Caller.replacePage (hrun : User.replacePage s (pageVa k) = .ok s') :
    ∃ p ρ', Replaces s ρ s' ρ' c k p w := by
  unfold User.replacePage at hrun
  obtain ⟨s₁, hmap, hrun⟩ := bind_eq_ok.mp hrun
  obtain ⟨s₂, halloc, hrun⟩ := bind_eq_ok.mp hrun
  obtain ⟨s₃, hmove, hunmap⟩ := bind_eq_ok.mp hrun
  rcases hc.mapTemp htemp hw with ⟨-, hcall⟩ | ⟨s₁', ρ₁, hcall, hst⟩
  · obtain ⟨h0, -⟩ := Prod.mk.inj (Except.ok.inj (hcall.symm.trans (of_must hmap)))
    exact nomatch Flow.ret.inj h0
  obtain ⟨-, rfl⟩ := Prod.mk.inj (Except.ok.inj (hcall.symm.trans (of_must hmap)))
  obtain ⟨hcur₁, hload₁⟩ := hc.of_memoryOnly hst.retains.memory
  obtain ⟨e, p, ρ₂, he, hg⟩ := hst.retains.settled.allocated hcur₁ (live_of_dirsOf hload₁)
    (show (pteP ||| pteU ||| pteW).toNat < 2 ^ 12 by decide)
    (fun e _ w _ => Nat.lt_of_succ_lt (hst.light hc (frame w))) (of_must halloc)
  obtain rfl : c = e :=
    Option.some.inj (Prod.mk.inj (Except.ok.inj ((envid2env_self hcur₁).symm.trans he))).2
  obtain ⟨s₃', hmove', hfill⟩ := hst.fill hc hw hne htemp hg
  obtain rfl := Except.ok.inj (hmove'.symm.trans hmove)
  obtain ⟨hcur₃, hload₃⟩ := hc.of_memoryOnly hfill.memory
  rw [← pageVa_tempPage] at hunmap
  obtain ⟨e', ρ₄, he', ht⟩ := hfill.settled.unmapped hcur₃ (live_of_dirsOf hload₃)
    (fun e _ w _ => hfill.light (frame w)) (of_must hunmap)
  obtain rfl : c = e' :=
    Option.some.inj (Prod.mk.inj (Except.ok.inj ((envid2env_self hcur₃).symm.trans he'))).2
  refine ⟨p, ρ₄, ht.settled, hfill.memory.trans ht.memory, hfill.fresh, hfill.window, ?_,
    fun j hj => ?_, fun f hf j => ?_⟩
  · have hcomm : (c, k) ≠ (c, tempPage) := fun h0 => hne (Prod.mk.inj h0).2
    rw [ht.entries, hfill.entries, pgnum_pageVa tempPage_lt, Function.update_comm hcomm,
      Function.update_idem, ← htemp, Function.update_eq_self]
  · rw [ht.words p hfill.own j, hfill.copied j hj]
  · obtain ⟨hdata, hsame⟩ := hfill.words f hf
    rw [ht.words f hdata j, hsame j]

/-- **Two free pages are enough**: one may become the table for `PFTEMP`. -/
theorem Caller.replacePage_ok (hq : ρ q = .free) (hr : ρ r = .free) (hqr : q ≠ r) :
    ∃ s', User.replacePage s (pageVa k) = .ok s' := by
  obtain ⟨hk, -⟩ := exists_of_entryOf hw
  rcases hc.mapTemp htemp hw with ⟨hl, -⟩ | ⟨s₁, ρ₁, hcall, hst⟩
  · obtain ⟨p, hp⟩ := hc.settled.ledger.typed.free.exists_head hq
    exact nomatch hl.symm.trans hp
  obtain ⟨hcur₁, hload₁⟩ := hc.of_memoryOnly hst.retains.memory
  have hw₁ : entryOf s₁.phys (dirsOf s₁) (c, pgnum (pageVa k)) = some w := by
    rw [pgnum_pageVa hk, hst.entries, Function.update_of_ne fun h0 => hne (Prod.mk.inj h0).2]
    exact hw
  obtain ⟨t, ht⟩ := hst.uses
  obtain ⟨f, hf⟩ : ∃ f, ρ₁ f = .free := by
    rcases eq_or_ne q t with rfl | hqt
    · exact ⟨r, ht r hr hqr.symm⟩
    · exact ⟨q, ht q hq hqt⟩
  obtain ⟨s₂, hcall₂⟩ := hst.retains.settled.allocate_mapped (envid2env_self hcur₁) hload₁
    (pageVa_lt hk) (not_unaligned_pageVa hk)
    (show (pteP ||| pteU ||| pteW) &&& (pteU ||| pteP) = pteU ||| pteP by decide)
    (show (pteP ||| pteU ||| pteW).toNat < 2 ^ 12 by decide) hw₁
    (Nat.lt_of_succ_lt (hst.light hc _)) hf
  have hhandle : s₁.handle (.pageAlloc 0#32 (pageVa k) (pteP ||| pteU ||| pteW)) =
      .ok (.ret 0, s₂) := returning_ok hcall₂
  obtain ⟨e, p, ρ₂, he, hg⟩ := hst.retains.settled.allocated hcur₁ (live_of_dirsOf hload₁)
    (show (pteP ||| pteU ||| pteW).toNat < 2 ^ 12 by decide)
    (fun e _ w _ => Nat.lt_of_succ_lt (hst.light hc (frame w))) hhandle
  obtain rfl : c = e :=
    Option.some.inj (Prod.mk.inj (Except.ok.inj ((envid2env_self hcur₁).symm.trans he))).2
  obtain ⟨s₃, hmove, hfill⟩ := hst.fill hc hw hne htemp hg
  obtain ⟨hcur₃, hload₃⟩ := hc.of_memoryOnly hfill.memory
  obtain ⟨s₄, -, hunmap, -⟩ := hfill.settled.sysPageUnmap_removes (envid2env_self hcur₃) hload₃
    (pageVa_lt tempPage_lt) (not_unaligned_pageVa tempPage_lt) fun w _ => hfill.light (frame w)
  rw [pageVa_tempPage] at hunmap
  have hlast : s₃.handle (.pageUnmap 0#32 pftemp) = .ok (.ret 0, s₄) := returning_ok hunmap
  refine ⟨s₄, ?_⟩
  unfold User.replacePage
  rw [must_eq hcall, ok_bind, must_eq hhandle, ok_bind, hmove, ok_bind, must_eq hlast]

end Replace

/-- What a program maps elsewhere it has mapped. -/
theorem Caller.mapped_of_pageMap {perm dstva : Word} (hc : Caller s ρ c) (hk : k < upn)
    (hrun : must s (.pageMap 0#32 (pageVa k) 0#32 dstva perm) = .ok s') :
    ∃ w, entryOf s.phys (dirsOf s) (c, k) = some w := by
  obtain ⟨r, hr, hrun⟩ := exists_of_returning (of_must hrun)
  obtain rfl := Flow.ret.inj hr
  rcases sysPageMap_outcome hrun with ⟨h0, -⟩ | ⟨e, de, d, dd, pg, t, j, he, -, hsrc, -, -, -, hd,
    hlook, -⟩
  · exact absurd rfl h0
  obtain rfl : c = e :=
    Option.some.inj (Prod.mk.inj (Except.ok.inj ((envid2env_self hc.curenv).symm.trans he))).2
  have hd' := dirsOf_of_pgdir hc.live hd
  obtain ⟨w, -, -, -, hentry⟩ := hc.settled.ledger.typed.of_pageLookup hd' hsrc hlook
  rw [pgnum_pageVa hk] at hentry
  exact ⟨w, hentry⟩

/-- `pgfault` does not return for a page that is not mapped. -/
theorem Caller.mapped_of_pgfault (hc : Caller s ρ c) (hk : pgnum va < upn)
    (hrun : User.pgfault s va err = .ok s') :
    ∃ w, entryOf s.phys (dirsOf s) (c, pgnum va) = some w := by
  obtain ⟨-, -, hrun⟩ := of_pgfault hrun
  obtain ⟨s₁, hmap, -⟩ := bind_eq_ok.mp hrun
  exact hc.mapped_of_pageMap hk hmap

/-- **A store**, if it returns: the page may be written, or it was copy-on-write, the program was
armed, and the page is now another one. -/
theorem Caller.storeCow (hc : Caller s ρ c) (hk : pgnum va < upn)
    (htemp : entryOf s.phys (dirsOf s) (c, tempPage) = none)
    (hrun : User.storeCow s tf va x = .ok s') :
    ∃ w, entryOf s.phys (dirsOf s) (c, pgnum va) = some w ∧
      (Has w pteU ∧ Has w pteW ∧ s' = s.setWord (frame w) (va.toNat % pgsize / 4) x ∨
        ¬ (Has w pteU ∧ Has w pteW) ∧ Has w pteCow ∧ Armed s c tf ∧
          ∃ s₀ s₁ p ρ', Delivered s s₀ c ∧ Replaces s₀ ρ s₁ ρ' c (pgnum va) p w ∧
            s' = s₁.setWord p (va.toNat % pgsize / 4) x) := by
  have hs := hc.settled
  unfold User.storeCow at hrun
  by_cases hok : ∃ w, entryOf s.phys (dirsOf s) (c, pgnum va) = some w ∧ Has w pteU ∧ Has w pteW
  · obtain ⟨w, hw, hbits⟩ := hok
    rw [store_eq hs hc.loaded hw, if_pos hbits] at hrun
    exact ⟨w, hw, Or.inl ⟨hbits.1, hbits.2, (Except.ok.inj hrun).symm⟩⟩
  rw [store_fault hs hc.loaded hk fun w hw hbits => hok ⟨w, hw, hbits⟩] at hrun
  obtain ⟨s₀, hfault, hrun⟩ := bind_eq_ok.mp hrun
  obtain ⟨s₁, hhandler, hstore⟩ := bind_eq_ok.mp hrun
  obtain ⟨harmed, hdel⟩ := hc.writeFault hfault
  -- the handler runs with the same pages, but for the exception stack
  have hc₀ := hdel.caller hc
  have hent := hs.entryOf_aloof hdel.aloof
  obtain ⟨w, hw₀⟩ := hc₀.mapped_of_pgfault hk hhandler
  have hw := hw₀
  rw [hent] at hw
  rw [← hent] at htemp
  have hne : pgnum va ≠ tempPage := by
    intro h0
    rw [h0, htemp] at hw₀
    cases hw₀
  obtain ⟨-, ⟨pte, hpte, hcow⟩, hrepl⟩ := of_pgfault hhandler
  obtain rfl := Except.ok.inj ((uvptAt_of_entry hc₀.settled hc₀.loaded hw₀).symm.trans hpte)
  obtain ⟨p, ρ', hrep⟩ := hc₀.replacePage hw₀ hne htemp hrepl
  -- the store is made again, to the new page
  have hload := loaded_of_memoryOnly hc₀.loaded hrep.memory
  have hown : entryOf s₁.phys (dirsOf s₁) (c, pgnum va) = some (ownEntry p) := by
    rw [hrep.entries, Function.update_self]
  rw [store_eq hrep.settled hload hown, if_pos (has_ownEntry p),
    frame_ownEntry hrep.window] at hstore
  exact ⟨w, hw, Or.inr ⟨fun hbits => hok ⟨w, hw, hbits⟩, hcow, harmed, s₀, s₁, p, ρ', hdel, hrep,
    (Except.ok.inj hstore).symm⟩⟩

/-- A page that may be written is written to at once. -/
theorem Caller.storeCow_writable (hc : Caller s ρ c)
    (hw : entryOf s.phys (dirsOf s) (c, pgnum va) = some w) (hU : Has w pteU) (hW : Has w pteW)
    (tf : Trapframe) (x : Word) : User.storeCow s tf va x =
      .ok (s.setWord (frame w) (va.toNat % pgsize / 4) x) := by
  unfold User.storeCow
  rw [store_eq hc.settled hc.loaded hw, if_pos ⟨hU, hW⟩]

/-- **A store to a page that is copy-on-write** returns if the program is armed and there are
two free pages. -/
theorem Caller.storeCow_cow (hc : Caller s ρ c)
    (hw : entryOf s.phys (dirsOf s) (c, pgnum va) = some w) (hno : ¬ (Has w pteU ∧ Has w pteW))
    (hcow : Has w pteCow) (harmed : Armed s c tf) (huser : tf.tfCs &&& 3#16 ≠ 0#16)
    (htemp : entryOf s.phys (dirsOf s) (c, tempPage) = none) (hq : ρ q = .free) (hr : ρ r = .free)
    (hqr : q ≠ r) : ∃ s', User.storeCow s tf va x = .ok s' := by
  have hne : pgnum va ≠ tempPage := by
    intro h0
    rw [h0, htemp] at hw
    cases hw
  have herr : Has (writeErr s va) fecWr := by
    have h0 : Has (fecU ||| fecWr) fecWr := by decide
    exact (has_or _ _ _).mpr (Or.inl h0)
  obtain ⟨s₀, hfault⟩ := hc.writeFault_ok harmed huser va
  obtain ⟨-, hdel⟩ := hc.writeFault hfault
  have hc₀ := hdel.caller hc
  have hent := hc.settled.entryOf_aloof hdel.aloof
  have hw₀ := (congrFun hent _).trans hw
  obtain ⟨s₁, hrepl⟩ := hc₀.replacePage_ok hw₀ hne ((congrFun hent _).trans htemp) hq hr hqr
  obtain ⟨p, ρ', hrep⟩ := hc₀.replacePage hw₀ hne ((congrFun hent _).trans htemp) hrepl
  have hown : entryOf s₁.phys (dirsOf s₁) (c, pgnum va) = some (ownEntry p) := by
    rw [hrep.entries, Function.update_self]
  refine ⟨s₁.setWord (frame (ownEntry p)) (va.toNat % pgsize / 4) x, ?_⟩
  unfold User.storeCow
  rw [store_eq hc.settled hc.loaded hw, if_neg hno]
  dsimp only
  rw [hfault, ok_bind, pgfault_eq herr (uvptAt_of_entry hc₀.settled hc₀.loaded hw₀) hcow, hrepl,
    ok_bind, store_eq hrep.settled (loaded_of_memoryOnly hc₀.loaded hrep.memory) hown,
    if_pos (has_ownEntry p)]

end User
end PmakeOs
