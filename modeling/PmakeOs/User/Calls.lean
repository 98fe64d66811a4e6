import PmakeOs.Space.Aliases
import PmakeOs.Space.Passages
import PmakeOs.Space.Walks
import PmakeOs.User.Fork

/-!
# System calls of a program that runs alone

What the page tables show at `UVPT`, and what a call on pages leaves, for the program that
makes it.

* `Retains` --- the call frees no page and writes to no page that is mapped;
* `Sound.mapPage` --- `sys_page_map` of a page of the caller, which is one of three things;
* `Sound.allocated`, `Sound.unmapped` --- `sys_page_alloc` and `sys_page_unmap`, if they return
  zero.
-/

namespace PmakeOs

open Lib Kernel

variable {s s' s'' : Kernel} {ρ ρ' ρ'' : ℕ → Role} {c d e i j k l n pp q : ℕ} {va perm w : Word}
  {envid : Word} {x : ℕ × ℕ} {o : Option Word}

namespace User

/-! ## Reading the page tables -/

/-- A word that is shown can be loaded. -/
theorem load_of_shows {f : ℕ} (h : Shows s.phys s.thiscpu.cr3 va f j) :
    load s va = .ok (s.phys f j) := by
  unfold load
  rw [h.walk]
  dsimp only
  rw [if_pos rfl, h.offset, Nat.mul_div_cancel_left j (by decide)]

theorem uvpdAt_of_windowed (h : Windowed s s.thiscpu.cr3) (hi : i < npdentries) :
    uvpdAt s i = .ok (s.phys s.thiscpu.cr3 i) :=
  load_of_shows (h.dir i hi)

theorem uvptAt_of_windowed (h : Windowed s s.thiscpu.cr3) (hn : n < 2 ^ 20)
    (hp : Has (s.phys s.thiscpu.cr3 (n / nptentries)) pteP) :
    uvptAt s n = .ok (s.phys (frame (s.phys s.thiscpu.cr3 (n / nptentries))) (n % nptentries)) :=
  load_of_shows (h.table n hn hp)

/-- What a program finds of page `k`, if it is mapped. -/
theorem uvptAt_of_entry (hs : Settled s ρ) (hd : dirsOf s c = some s.thiscpu.cr3)
    (hw : entryOf s.phys (dirsOf s) (c, k) = some w) : uvptAt s k = .ok w := by
  obtain ⟨hk, d, hd', hp, hpte, -⟩ := exists_of_entryOf hw
  rw [hd] at hd'
  obtain rfl := Option.some.inj hd'
  rw [uvptAt_of_windowed (hs.windowed hd) (hk.trans (by decide)) hp, hpte]

end User

namespace Kernel

/-! ## What a call keeps -/

theorem SameSpaces.entries (h : SameSpaces s s') :
    entryOf s'.phys (dirsOf s') = entryOf s.phys (dirsOf s) := by
  rw [h.phys, h.slots.dirsOf]

/-- No page is freed, and the pages in use hold what they held. -/
structure Retains (s : Kernel) (ρ : ℕ → Role) (s' : Kernel) (ρ' : ℕ → Role) : Prop where
  settled : Settled s' ρ'
  memory : MemoryOnly s s'
  free : ∀ f, ρ' f = .free → ρ f = .free
  data : ∀ f, ρ f = .data → ρ' f = .data ∧ ∀ j, s'.phys f j = s.phys f j

theorem Retains.refl (hs : Settled s ρ) : Retains s ρ s ρ :=
  ⟨hs, .refl s, fun _ => id, fun _ hf => ⟨hf, fun _ => rfl⟩⟩

theorem Retains.trans (h : Retains s ρ s' ρ') (h' : Retains s' ρ' s'' ρ'') :
    Retains s ρ s'' ρ'' := by
  refine ⟨h'.settled, h.memory.trans h'.memory, fun f hf => h.free f (h'.free f hf),
    fun f hf => ?_⟩
  obtain ⟨hf', hw⟩ := h.data f hf
  obtain ⟨hf'', hw'⟩ := h'.data f hf'
  exact ⟨hf'', fun j => (hw' j).trans (hw j)⟩

/-- Once the free list is empty it stays empty. -/
theorem Retains.pageFreeList (h : Retains s ρ s' ρ') (hs : Settled s ρ)
    (hl : s.pageFreeList = none) : s'.pageFreeList = none := by
  cases hl' : s'.pageFreeList with
  | none => rfl
  | some q =>
    have hq := h.free q (h.settled.ledger.typed.free.role_of_head hl')
    obtain ⟨p, hp⟩ := hs.ledger.typed.free.exists_head hq
    rw [hl] at hp
    cases hp

/-- `page_insert` where nothing is mapped, or the page itself. -/
theorem Inserted.retains (hins : Inserted s s' (dirsOf s) ρ ρ' e d va pp perm)
    (hs : Settled s ρ) (hs' : Settled s' ρ') (hm : MemoryOnly s s') (hd : dirsOf s e = some d)
    (hold : ∀ w, entryOf s.phys (dirsOf s) (e, pgnum va) = some w → frame w = pp) :
    Retains s ρ s' ρ' := by
  have hdir := hs.ledger.typed.tree.dir.mp hd
  -- a page in use has an entry, and that entry is still there
  have hused : ∀ f, ρ f = .data → ρ' f ≠ .free := by
    intro f hf hfree
    rcases hins.role f with hr | ⟨hr, -⟩ | ⟨-, -, hne⟩
    · rw [hr, hf] at hfree
      cases hfree
    · rw [hf] at hr
      cases hr
    have hpos := (hs.ledger.used hf).resolve_right id
    rw [Nat.add_zero] at hpos
    obtain ⟨x, -, hx⟩ := occurrences_pos_iff.mp hpos
    obtain ⟨w, hw, rfl⟩ := Option.map_eq_some_iff.mp hx
    have hxne : x ≠ (e, pgnum va) := by
      rintro rfl
      exact hne (hold w hw)
    have hw' : entryOf s'.phys (dirsOf s') x = some w := by
      rw [hm.sameSlots.dirsOf, hins.entries, Function.update_of_ne hxne]
      exact hw
    have hdata := hs'.ledger.typed.tree.role_of_entryOf hw'
    rw [hfree] at hdata
    cases hdata
  refine ⟨hs', hm, fun f hf => ?_, fun f hf => ⟨?_, fun j => ?_⟩⟩
  · rcases hins.role f with hr | ⟨hr, hr'⟩ | ⟨hr, -, -⟩
    · rw [← hr]
      exact hf
    · exact hr
    · exact absurd hf (hused f hr)
  · rcases hins.role f with hr | ⟨hr, -⟩ | ⟨-, hr', -⟩
    · rw [hr]
      exact hf
    · rw [hf] at hr
      cases hr
    · exact absurd hr' (hused f hf)
  · refine hins.phys f j (by rw [hf]; exact nofun) (fun i => by rw [hf]; exact nofun) ?_
    rintro ⟨rfl, -⟩
    rw [hdir] at hf
    cases hf

/-- Zero names the caller. -/
theorem envid2env_self (hc : s.curenv = some c) : s.envid2env 0#32 true = .ok (0, some c) := by
  unfold Kernel.envid2env
  rw [if_pos rfl, hc]
  rfl

/-- At most one page of the free list is taken, and none unless `P`. -/
structure Uses (ρ ρ' : ℕ → Role) (P : Prop) : Prop where
  one : ∃ t, ∀ f, ρ f = .free → f ≠ t → ρ' f = .free
  none : ¬ P → ∀ f, ρ f = .free → ρ' f = .free

theorem Uses.refl (ρ : ℕ → Role) (P : Prop) : Uses ρ ρ P :=
  ⟨⟨0, fun _ hf _ => hf⟩, fun _ _ hf => hf⟩

/-- `page_insert` takes a page only for a table, which is there if something is mapped. -/
theorem Inserted.uses (hins : Inserted s s' (dirsOf s) ρ ρ' e d va pp perm)
    (hs : Settled s ρ) (hs' : Settled s' ρ') (hm : MemoryOnly s s') (hd : dirsOf s e = some d)
    (hva : va < utop) (hperm : perm.toNat < 2 ^ 12) :
    Uses ρ ρ' (entryOf s.phys (dirsOf s) (e, pgnum va) = none) := by
  have hd' : dirsOf s' e = some d := by
    rw [hm.sameSlots.dirsOf]
    exact hd
  refine ⟨⟨_, fun f hf hne => hins.free hs' hd' hf hne⟩, fun hsome f hf => ?_⟩
  obtain ⟨w, hw⟩ := Option.ne_none_iff_exists'.mp hsome
  obtain ⟨-, d₀, hd₀, hp, -⟩ := exists_of_entryOf hw
  rw [hd] at hd₀
  obtain rfl := Option.some.inj hd₀
  rw [pgnum_div] at hp
  refine hins.free hs' hd' hf ?_
  rintro rfl
  exact hins.table_of_present hs hd hva hperm hp hf

/-- What `sys_page_map` makes of page `k` of environment `c`, for page `l` of environment `e`:
`-E_INVAL` if the right to write is asked for and not there, `-E_NO_MEM` if a table is needed
and there is no page, and the mapping in all other cases. -/
theorem Sound.mapPage (hs : Settled s ρ) (hc : s.curenv = some c) (hd : dirsOf s c = some n)
    (henv : s.envid2env envid true = .ok (0, some e)) (he : dirsOf s e = some d)
    (hbits : perm &&& (pteU ||| pteP) = pteU ||| pteP) (hperm : perm.toNat < 2 ^ 12)
    (hw : entryOf s.phys (dirsOf s) (c, k) = some w) (hl : l < upn)
    (hold : ∀ w', entryOf s.phys (dirsOf s) (e, l) = some w' → frame w' = frame w)
    (hcount : refCount s.phys (dirsOf s) (frame w) < 2 ^ 16) :
    (¬ Has w pteW ∧ Has perm pteW ∧
      s.handle (.pageMap 0#32 (pageVa k) envid (pageVa l) perm) = .ok (.ret (-eInval), s)) ∨
    ((Has perm pteW → Has w pteW) ∧
      (s.pageFreeList = none ∧
        s.handle (.pageMap 0#32 (pageVa k) envid (pageVa l) perm) = .ok (.ret (-eNoMem), s) ∨
      ∃ s' ρ', s.handle (.pageMap 0#32 (pageVa k) envid (pageVa l) perm) = .ok (.ret 0, s') ∧
        Retains s ρ s' ρ' ∧ entryOf s'.phys (dirsOf s') = Function.update
          (entryOf s.phys (dirsOf s)) (e, l) (some (page2pa (frame w) ||| perm ||| pteP)) ∧
        Uses ρ ρ' (entryOf s.phys (dirsOf s) (e, l) = none))) := by
  obtain ⟨hk, -⟩ := exists_of_entryOf hw
  have hself := envid2env_self hc
  have hw' : entryOf s.phys (dirsOf s) (c, pgnum (pageVa k)) = some w := by
    rw [pgnum_pageVa hk]
    exact hw
  have hrun := hs.sysPageMap_eq hself henv hd he (pageVa_lt hk) (not_unaligned_pageVa hk)
    (pageVa_lt hl) (not_unaligned_pageVa hl) hbits hw'
  by_cases hW : ¬ Has w pteW ∧ Has perm pteW
  · rw [if_pos hW] at hrun
    exact Or.inl ⟨hW.1, hW.2, returning_ok hrun⟩
  rw [if_neg hW] at hrun
  refine Or.inr ⟨fun h0 => by_contra fun h1 => hW ⟨h1, h0⟩, ?_⟩
  have hdata := hs.ledger.typed.tree.role_of_entryOf hw
  have hlt : ∀ w', entryOf s.phys (dirsOf s) (e, pgnum (pageVa l)) = some w' →
      refCount s.phys (dirsOf s) (frame w') + 0 < 2 ^ 16 := by
    intro w' h0
    rw [pgnum_pageVa hl] at h0
    rw [Nat.add_zero, hold w' h0]
    exact hcount
  rcases hs.ledger.pageInsert he (pageVa_lt hl) hdata hperm hlt with ⟨-, hnil, hins⟩ |
    ⟨s', ρ', hins, hled, hinserted⟩
  · exact Or.inl ⟨hnil, returning_ok (hrun.trans hins)⟩
  · have hm := memoryOnly_of_pageInsert hins
    have heff : Effect (fun _ => True) (s, ρ) (s', ρ') :=
      .insert he (pageVa_lt hl) hdata hperm hm hinserted fun _ => trivial
    rw [← hm.sameSlots.dirsOf] at hled
    have hs' : Settled s' ρ' := hs.step heff (hled.mono fun q _ h0 => h0.1)
    refine Or.inr ⟨s', ρ', returning_ok (hrun.trans hins), ?_, ?_, ?_⟩
    · refine hinserted.retains hs hs' hm he fun w' h0 => hold w' ?_
      rwa [pgnum_pageVa hl] at h0
    · rw [hm.sameSlots.dirsOf, hinserted.entries, pgnum_pageVa hl]
    · have huse := hinserted.uses hs hs' hm he (pageVa_lt hl) hperm
      rwa [pgnum_pageVa hl] at huse

/-- Environment `e` gets page `p` of the free list at `va`, in the place of what it had there. -/
structure Gives (s : Kernel) (ρ : ℕ → Role) (s' : Kernel) (ρ' : ℕ → Role) (e p : ℕ)
    (va perm : Word) : Prop where
  settled : Settled s' ρ'
  memory : MemoryOnly s s'
  below : va < utop
  head : s.pageFreeList = some p
  entries : entryOf s'.phys (dirsOf s') = Function.update (entryOf s.phys (dirsOf s))
    (e, pgnum va) (some (page2pa p ||| perm ||| pteP))
  words : ∀ f, ρ f = .data → ∀ j, s'.phys f j = s.phys f j
  zero : ∀ j, s'.phys p j = 0#32

/-- **`sys_page_alloc`**, if it returns zero. -/
theorem Sound.allocated (hs : Settled s ρ) (hc : s.curenv = some c) (hlive : Live s c)
    (hperm : perm.toNat < 2 ^ 12)
    (hb : ∀ e, s.envid2env envid true = .ok (0, some e) → Droppable s e va)
    (hrun : s.handle (.pageAlloc envid va perm) = .ok (.ret 0, s')) :
    ∃ e p ρ', s.envid2env envid true = .ok (0, some e) ∧ Gives s ρ s' ρ' e p va perm := by
  obtain ⟨r, hr, hrun⟩ := exists_of_returning hrun
  obtain rfl := Flow.ret.inj hr
  rcases sysPageAlloc_outcome hrun with ⟨h0, -⟩ |
    ⟨e, d, p, s₁, ret', s₂, he, hva, -, -, halloc, hd, hins, hend⟩
  · exact absurd rfl h0
  obtain ⟨rfl, rfl⟩ : ret' = 0 ∧ s' = s₂ := by
    rcases hend with ⟨h0, -, h1⟩ | ⟨h0, h1, -⟩
    · exact ⟨h0, h1⟩
    · exact absurd h1.symm h0
  obtain ⟨hl, rfl⟩ := hs.ledger.typed.eq_of_pageAlloc halloc
  have hfree := hs.ledger.typed.free.role_of_head hl
  have hd' : dirsOf s e = some d := dirsOf_of_pgdir (granted_of_envid2env hc hlive he).1 hd
  obtain ⟨h₁, -⟩ := hs.takeUserPage (Q := fun _ => True) hl
  have hm₁ : MemoryOnly s ((s.takePage p).note (.userPage p)) :=
    (memoryOnly_of_pageAlloc halloc).trans (.note _ rfl)
  have hphys : ∀ f j, ((s.takePage p).note (.userPage p)).phys f j =
      if f = p then 0#32 else s.phys f j := fun _ _ => rfl
  have hent : entryOf ((s.takePage p).note (.userPage p)).phys (dirsOf s) =
      entryOf s.phys (dirsOf s) := hs.ledger.typed.tree.entryOf_takePage hfree
  generalize (s.takePage p).note (.userPage p) = s₁ at h₁ hm₁ hphys hent hins
  have hdirs : dirsOf s₁ = dirsOf s := hm₁.sameSlots.dirsOf
  have hlt : ∀ w', entryOf s₁.phys (dirsOf s₁) (e, pgnum va) = some w' →
      refCount s₁.phys (dirsOf s₁) (frame w') + 0 < 2 ^ 16 := by
    intro w' h0
    rw [hdirs, hent] at h0
    rw [Nat.add_zero, hdirs, refCount_of_entryOf_eq hent]
    exact hb e he w' h0
  have hdata : Function.update ρ p .data p = .data := Function.update_self p .data ρ
  rcases h₁.ledger.pageInsert (by rw [hdirs]; exact hd') hva hdata hperm hlt with
    ⟨-, -, hno⟩ | ⟨s₂, ρ', hins', hled, hinserted⟩
  · obtain ⟨h0, -⟩ := Prod.mk.inj (Except.ok.inj (hno.symm.trans hins))
    exact nomatch h0
  obtain ⟨-, rfl⟩ := Prod.mk.inj (Except.ok.inj (hins'.symm.trans hins))
  have hm := memoryOnly_of_pageInsert hins
  have heff : Effect (fun _ => True) (s₁, Function.update ρ p .data) (s₂, ρ') :=
    .insert (by rw [hdirs]; exact hd') hva hdata hperm hm hinserted fun _ => trivial
  rw [← hm.sameSlots.dirsOf] at hled
  have hs' : Settled s₂ ρ' := h₁.step heff (hled.mono fun q _ h0 => h0.1.elim id h0.2)
  -- the insertion writes to no data frame
  have hword : ∀ f, Function.update ρ p .data f = .data → ∀ j, s₂.phys f j = s₁.phys f j := by
    intro f hf j
    refine hinserted.phys f j (by rw [hf]; exact nofun) (fun i => by rw [hf]; exact nofun) ?_
    rintro ⟨rfl, -⟩
    rw [h₁.ledger.typed.tree.dir.mp (by rw [hdirs]; exact hd')] at hf
    cases hf
  refine ⟨e, p, ρ', he, hs', hm₁.trans hm, hva, hl, ?_, fun f hf j => ?_, fun j => ?_⟩
  · rw [hm.sameSlots.dirsOf, hinserted.entries, hdirs, hent]
  · have hfp : f ≠ p := by
      rintro rfl
      rw [hfree] at hf
      cases hf
    rw [hword f (by rw [Function.update_of_ne hfp]; exact hf) j, hphys, if_neg hfp]
  · rw [hword p hdata j, hphys, if_pos rfl]

/-- Page `va` of environment `e` is unmapped. -/
structure Unmaps (s : Kernel) (ρ : ℕ → Role) (s' : Kernel) (ρ' : ℕ → Role) (e : ℕ) (va : Word) :
    Prop where
  settled : Settled s' ρ'
  memory : MemoryOnly s s'
  entries : entryOf s'.phys (dirsOf s') = Function.update (entryOf s.phys (dirsOf s))
    (e, pgnum va) none
  words : ∀ f, ρ f = .data → ∀ j, s'.phys f j = s.phys f j

/-- **`sys_page_unmap`**, if it returns zero. -/
theorem Sound.unmapped (hs : Settled s ρ) (hc : s.curenv = some c) (hlive : Live s c)
    (hb : ∀ e, s.envid2env envid true = .ok (0, some e) → Droppable s e va)
    (hrun : s.handle (.pageUnmap envid va) = .ok (.ret 0, s')) :
    ∃ e ρ', s.envid2env envid true = .ok (0, some e) ∧ Unmaps s ρ s' ρ' e va := by
  obtain ⟨r, hr, hrun⟩ := exists_of_returning hrun
  obtain rfl := Flow.ret.inj hr
  rcases sysPageUnmap_outcome hrun with ⟨h0, -⟩ | ⟨e, d, he, hva, -, hd, hrem, -⟩
  · exact absurd rfl h0
  have hd' : dirsOf s e = some d := dirsOf_of_pgdir (granted_of_envid2env hc hlive he).1 hd
  obtain ⟨s₁, ρ', hrem', hs', hm, hremoved, -⟩ := hs.pageRemove (Q := fun _ => True) hd' hva
    (fun w hw => (hb e he w hw).le) fun _ => trivial
  obtain rfl := Except.ok.inj (hrem'.symm.trans hrem)
  refine ⟨e, ρ', he, hs', hm, ?_, fun f hf j => ?_⟩
  · rw [hm.sameSlots.dirsOf, hremoved.entries]
  · exact hremoved.phys f j fun i => by rw [hf]; exact nofun

end Kernel

namespace User

/-! ## Calls from user mode -/

theorem syscall_eq {y : Syscall} {r : ℤ} {check : Bool} (h : s.handle y = .ok (.ret r, s'))
    (hr : r ≤ 0) : syscall s check y = .ok (r, s') := by
  unfold syscall
  rw [h]
  exact if_neg fun h0 => not_lt.mpr hr h0.2

theorem of_syscall {y : Syscall} {r : ℤ} {check : Bool} (h : syscall s check y = .ok (r, s')) :
    s.handle y = .ok (.ret r, s') := by
  unfold syscall at h
  split at h
  · cases h
  · cases h
  · rename_i hy
    split at h
    · cases h
    · obtain ⟨rfl, rfl⟩ := Prod.mk.inj (Except.ok.inj h)
      exact hy

theorem must_eq {y : Syscall} (h : s.handle y = .ok (.ret 0, s')) : must s y = .ok s' := by
  unfold must
  rw [syscall_eq h le_rfl, ok_bind]
  rfl

theorem of_must {y : Syscall} (h : must s y = .ok s') : s.handle y = .ok (.ret 0, s') := by
  unfold must at h
  obtain ⟨⟨r, s₁⟩, hcall, h⟩ := bind_eq_ok.mp h
  have hy := of_syscall hcall
  dsimp only at h
  split at h
  · cases h
  · rename_i hr
    obtain rfl := Except.ok.inj h
    unfold syscall at hcall
    rw [hy] at hcall
    dsimp only at hcall
    split at hcall
    · cases hcall
    · rename_i hr'
      have hzero : r = 0 := by
        have hle : ¬ 0 < r := fun h0 => hr' ⟨rfl, h0⟩
        omega
      rw [hy, hzero]

end User
end PmakeOs
