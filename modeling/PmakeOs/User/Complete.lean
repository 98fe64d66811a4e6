import PmakeOs.User.Copies

/-!
# What `fork` leaves

`set_pgfault_handler` and `sys_exofork` come before the loop, and three calls for the child
after it.  All that they map are exception stacks (`Grants`), and none of them changes what is
mapped below `USTACKTOP`, or what it holds (`SamePages`).  The first of the calls after the loop
needs a page, so if `fork` returns the free list has not been empty, and no call of the loop has
failed for want of memory.

What then fails is the call for a page that is shared and read-only: it asks for the right to
write, and the result is dropped.  The child is without that page.
-/

namespace PmakeOs

open Lib Kernel

variable {s s' s₁ : Kernel} {ρ ρ' : ℕ → Role} {c e q v : ℕ} {perm va w envid : Word} {id : ℤ}

namespace User

/-- Below `USTACKTOP` the same is mapped, and it holds the same. -/
structure SamePages (s s' : Kernel) : Prop where
  entries : ∀ x, x.2 < ustackPages → entryOf s'.phys (dirsOf s') x = entryOf s.phys (dirsOf s) x
  words : ∀ x w, x.2 < ustackPages → entryOf s.phys (dirsOf s) x = some w →
    ∀ j, s'.phys (frame w) j = s.phys (frame w) j

theorem SamePages.trans (h : SamePages s s₁) (h' : SamePages s₁ s') : SamePages s s' := by
  refine ⟨fun x hx => (h'.entries x hx).trans (h.entries x hx), fun x w hx hw j => ?_⟩
  rw [h'.words x w hx ((h.entries x hx).trans hw) j, h.words x w hx hw j]

/-- The page below `UXSTACKTOP`. -/
def uxstackPage : ℕ := pgnum uxstackVa

/-- From `E` to `E'` some environment has got a page for its exception stack that was mapped
nowhere, or nothing has happened. -/
def Grants (E E' : ℕ × ℕ → Option Word) : Prop :=
  E' = E ∨ ∃ e w, Has w pteU ∧ ¬ Has w pteShare ∧ (∀ y w', E y = some w' → frame w' ≠ frame w) ∧
    E' = Function.update E (e, uxstackPage) (some w)

/-- The current environment is `c`, its directory is loaded, and no page has 32768 references or
more from page tables. -/
structure Caller (s : Kernel) (ρ : ℕ → Role) (c : ℕ) : Prop where
  settled : Settled s ρ
  curenv : s.curenv = some c
  loaded : dirsOf s c = some s.thiscpu.cr3
  light : ∀ q, refCount s.phys (dirsOf s) q < 2 ^ 15

theorem Caller.live (hc : Caller s ρ c) : Live s c := live_of_dirsOf hc.loaded

theorem Caller.droppable (hc : Caller s ρ c) (e : ℕ) (va : Word) : Droppable s e va :=
  fun w _ => (hc.light (frame w)).trans (by decide)

/-! ## Before the loop -/

/-- The address spaces are the same. -/
theorem SamePages.of_same (hsame : SameSpaces s s') : SamePages s s' :=
  ⟨fun x _ => congrFun hsame.entries x, fun x w _ _ j => by rw [hsame.phys]⟩

theorem Caller.of_same (hc : Caller s ρ c) (hsame : SameSpaces s s')
    (hcpu : s'.thiscpu = s.thiscpu) : Caller s' ρ c := by
  refine ⟨hc.settled.aloof hsame.aloof, ?_, ?_, ?_⟩
  · rw [← hc.curenv]
    exact congrArg CpuInfo.cpuEnv hcpu
  · rw [hsame.slots.dirsOf, hcpu]
    exact hc.loaded
  · rw [hsame.phys, hsame.slots.dirsOf]
    exact hc.light

theorem setPgfaultUpcall_same {func : Word} {r : ℤ}
    (hrun : s.handle (.envSetPgfaultUpcall envid func) = .ok (.ret r, s')) :
    SameSpaces s s' ∧ s'.thiscpu = s.thiscpu := by
  obtain ⟨r', -, hrun⟩ := exists_of_returning hrun
  refine ⟨sameSpaces_sysEnvSetPgfaultUpcall hrun, ?_⟩
  unfold sysEnvSetPgfaultUpcall at hrun
  obtain ⟨⟨ret, o⟩, -, hrun⟩ := bind_eq_ok.mp hrun
  simp only at hrun
  split at hrun
  · obtain ⟨-, rfl⟩ := Prod.mk.inj (Except.ok.inj hrun)
    rfl
  · obtain ⟨v, -, hrun⟩ := bind_eq_ok.mp hrun
    obtain ⟨-, rfl⟩ := Prod.mk.inj (Except.ok.inj hrun)
    rfl

theorem envSetStatus_same {status : Word} {r : ℤ} (hc : s.curenv = some c) (hlive : Live s c)
    (hrun : s.handle (.envSetStatus envid status) = .ok (.ret r, s')) :
    SameSpaces s s' ∧ s'.thiscpu = s.thiscpu := by
  obtain ⟨r', -, hrun⟩ := exists_of_returning hrun
  refine ⟨sameSpaces_sysEnvSetStatus hc hlive hrun, ?_⟩
  unfold sysEnvSetStatus at hrun
  split at hrun
  · obtain ⟨-, rfl⟩ := Prod.mk.inj (Except.ok.inj hrun)
    rfl
  rcases envid2env_cases hc hlive envid true with henv | ⟨v, henv, -⟩
  · rw [henv] at hrun
    obtain ⟨-, rfl⟩ := Prod.mk.inj (Except.ok.inj hrun)
    rfl
  · rw [henv] at hrun
    obtain ⟨-, rfl⟩ := Prod.mk.inj (Except.ok.inj hrun)
    rfl

/-- A page for the exception stack of some environment. -/
theorem samePages_of_gives {p : ℕ} (hg : Gives s ρ s' ρ' e p uxstackVa perm) (hs : Settled s ρ) :
    SamePages s s' := by
  refine ⟨fun x hx => ?_, fun x w _ hw j => hg.words _ (hs.ledger.typed.tree.role_of_entryOf hw) j⟩
  rw [hg.entries, Function.update_of_ne]
  rintro rfl
  exact absurd hx (show ¬ pgnum uxstackVa < ustackPages by decide)

theorem grants_of_gives {p : ℕ} (hg : Gives s ρ s' ρ' e p uxstackVa perm) (hs : Settled s ρ)
    (hperm : perm.toNat < 2 ^ 12) (hU : Has perm pteU) (hshare : ¬ Has perm pteShare) :
    Grants (entryOf s.phys (dirsOf s)) (entryOf s'.phys (dirsOf s')) := by
  have hfree := hs.ledger.typed.free.role_of_head hg.head
  have hpw : p < kernWindow := hs.ledger.typed.lt_kernWindow (by rw [hfree]; simp)
  refine Or.inr ⟨e, _, ?_, ?_, fun y w hw h0 => ?_, hg.entries⟩
  · exact has_entry hU
  · have hno : ¬ Has pteP pteShare := by decide
    exact not_has_entry (by decide) hshare hno
  · have hdata := hs.ledger.typed.tree.role_of_entryOf hw
    rw [h0, frame_entry hpw hperm, hfree] at hdata
    cases hdata

theorem Caller.given {p : ℕ} (hc : Caller s ρ c) (hperm : perm.toNat < 2 ^ 12)
    (hg : Gives s ρ s' ρ' e p va perm) : Caller s' ρ' c := by
  have hcr : s'.thiscpu.cr3 = s.thiscpu.cr3 := by
    obtain ⟨tlb, htlb⟩ := hg.memory.cpu s.cpunum
    unfold thiscpu
    rw [hg.memory.cpunum, htlb]
  have hdirs := hg.memory.sameSlots.dirsOf
  have hfree := hc.settled.ledger.typed.free.role_of_head hg.head
  have hpw : p < kernWindow := hc.settled.ledger.typed.lt_kernWindow (by rw [hfree]; simp)
  refine ⟨hg.settled, hg.memory.curenv.trans hc.curenv, ?_, fun q => ?_⟩
  · rw [hdirs, hcr]
    exact hc.loaded
  · by_cases hq : q = p
    · -- the new page has one reference
      have hzero := hc.settled.ledger.typed.tree.refCount_eq_zero (q := p) (by rw [hfree]; simp)
      have hle := refCount_le_succ hg.entries p
      rw [hq]
      omega
    · refine lt_of_le_of_lt (refCount_le_of_other hg.entries ?_) (hc.light q)
      rw [Option.map_some, frame_entry hpw hperm]
      exact fun h0 => hq (Option.some.inj h0).symm

/-- **`set_pgfault_handler`.** -/
theorem Caller.setPgfaultHandler {first : Bool} {upcall : Word} (hc : Caller s ρ c)
    (hrun : User.setPgfaultHandler s first upcall = .ok s') :
    ∃ ρ', Caller s' ρ' c ∧ SamePages s s' ∧
      Grants (entryOf s.phys (dirsOf s)) (entryOf s'.phys (dirsOf s')) := by
  unfold User.setPgfaultHandler at hrun
  cases first with
  | false =>
    obtain rfl := Except.ok.inj hrun
    exact ⟨ρ, hc, .of_same (.refl s), Or.inl rfl⟩
  | true =>
    rw [if_pos rfl] at hrun
    obtain ⟨⟨eid, s₁⟩, hid, hrun⟩ := bind_eq_ok.mp hrun
    obtain ⟨s₂, halloc, hup⟩ := bind_eq_ok.mp hrun
    obtain ⟨r, -, hget⟩ := exists_of_returning (of_syscall hid)
    unfold sysGetenvid at hget
    obtain ⟨_, -, hget⟩ := bind_eq_ok.mp hget
    obtain ⟨-, rfl⟩ := Prod.mk.inj (Except.ok.inj hget)
    have hperm : (pteU ||| pteP ||| pteW).toNat < 2 ^ 12 := by decide
    obtain ⟨e, p, ρ', -, hg⟩ := hc.settled.allocated hc.curenv hc.live hperm
      (fun e _ => hc.droppable e _) (of_must halloc)
    obtain ⟨hsame, hcpu⟩ := setPgfaultUpcall_same (of_must hup)
    refine ⟨ρ', (hc.given hperm hg).of_same hsame hcpu,
      (samePages_of_gives hg hc.settled).trans (.of_same hsame), ?_⟩
    rw [hsame.entries]
    exact grants_of_gives hg hc.settled hperm (by decide) (by decide)

/-- A parent may name its child. -/
theorem envid2env_child (hc : s.curenv = some c) (hlive : Live s e) (h0 : envid ≠ 0#32)
    (hx : envx envid = e) (hid : (s.envs e).envId = envid)
    (hpar : (s.envs e).envParentId = (s.envs c).envId) :
    s.envid2env envid true = .ok (0, some e) := by
  have hbad : ¬ ((s.envs e).envStatus = .free ∨ (s.envs e).envId ≠ envid) :=
    not_or.mpr ⟨hlive, not_not.mpr hid⟩
  unfold Kernel.envid2env
  rw [if_neg h0]
  simp only [hx, hc, if_neg hbad, deref_some, ok_bind, if_neg (not_not.mpr hpar)]
  split <;> rfl

/-- **`sys_exofork`**, if it returns a positive id: the child has it, and maps nothing. -/
theorem Caller.exofork (hc : Caller s ρ c) (hrun : s.handle .exofork = .ok (.ret id, s'))
    (hid : 0 < id) : ∃ e ρ', Caller s' ρ' c ∧ Family s' c e (BitVec.ofInt 32 id) ∧
      SamePages s s' ∧ entryOf s'.phys (dirsOf s') = entryOf s.phys (dirsOf s) ∧
      (∀ v, entryOf s'.phys (dirsOf s') (e, v) = none) ∧
      ∃ t, ∀ f, ρ f = .free → f ≠ t → ρ' f = .free := by
  have hs := hc.settled
  obtain ⟨r, hr, hrun⟩ := exists_of_returning hrun
  obtain rfl := Flow.ret.inj hr
  rcases hs.envAlloc (Q := fun _ => True) (s.envs c).envId with ⟨r, hneg, halloc⟩ |
    ⟨e, p, he, hl, -, hopen, -⟩
  · unfold Kernel.sysExofork at hrun
    rw [hc.curenv, deref_some, ok_bind, halloc, ok_bind] at hrun
    dsimp only at hrun
    rw [if_pos hneg] at hrun
    obtain ⟨rfl, -⟩ := Prod.mk.inj (Except.ok.inj hrun)
    omega
  rw [hs.sysExofork_of_free hc.curenv he hl] at hrun
  obtain ⟨hret, rfl⟩ := Prod.mk.inj (Except.ok.inj hrun)
  obtain ⟨helt, hnl⟩ := hs.layout.not_live_of_head he
  have hfree := hs.ledger.typed.free.role_of_head hl
  have hpk : p ≠ s.kernPgdir := hs.layout.ne_kernPgdir (by rw [hfree]; simp)
  have hne : e ≠ c := by
    rintro rfl
    exact hnl hc.live
  have hsame := sameSlots_fork s e p c (s.envs c).envId
  have hlive : Live (s.openEnv e p (s.envs c).envId) e := (live_openEnv s e p _ e).mpr (Or.inl rfl)
  have hset := (hopen.setEnv (Q := fun _ => True)
    (v := (Write.fork e c).value (s.openEnv e p (s.envs c).envId).envs) hlive
    (by simp [Write.value]) rfl rfl).1
  have hpar : (s.openEnv e p (s.envs c).envId).envs c = s.envs c :=
    openEnv_envs_of_ne s p _ hne.symm
  have hchild : ((s.openEnv e p (s.envs c).envId).envs e).envId = nextEnvId (s.envs e).envId e ∧
      ((s.openEnv e p (s.envs c).envId).envs e).envParentId = (s.envs c).envId := by
    simp [openEnv, Kernel.setEnv, Kernel.note, setWord, copyFrame, Kernel.incRef, Kernel.takePage,
      setPage, zeroFrame]
  have hphys := openEnv_phys s e (s.envs c).envId hpk
  have hent := entryOf_openEnv hs he hl (s.envs c).envId
  have hdirs := dirsOf_openEnv s e p (s.envs c).envId
  have hpos := nextEnvId_pos (s.envs e).envId helt
  rw [hchild.1] at hret
  have hword : BitVec.ofInt 32 id = nextEnvId (s.envs e).envId e := by
    rw [← hret, BitVec.ofInt_toInt]
  have hblank : ∀ v, entryOf s.phys (dirsOf s) (e, v) = none := by
    intro v
    cases hw : entryOf s.phys (dirsOf s) (e, v) with
    | none => rfl
    | some w =>
      obtain ⟨-, d, hd, -⟩ := exists_of_entryOf hw
      exact absurd (live_of_dirsOf hd) hnl
  rw [hword]
  generalize hs₁ : s.openEnv e p (s.envs c).envId = s₁ at *
  have hcpus : s₁.thiscpu = s.thiscpu := by
    rw [← hs₁]
    rfl
  have hcur : s₁.curenv = s.curenv := congrArg CpuInfo.cpuEnv hcpus
  refine ⟨e, _, ⟨hset, hcur.trans hc.curenv, ?_, ?_⟩, ⟨hcur.trans hc.curenv, ?_, ⟨p, ?_⟩, ?_, hne⟩,
    ⟨fun x _ => ?_, fun x w _ hw j => ?_⟩, ?_, fun v => ?_, p, fun f hf hfp => ?_⟩
  · rw [hsame.dirsOf, hdirs, Function.update_of_ne hne.symm]
    exact hc.loaded.trans (congrArg (fun v => some v.cr3) hcpus.symm)
  · rw [hsame.dirsOf]
    exact fun q => lt_of_eq_of_lt (congrFun (refCount_of_entryOf_eq hent) q) (hc.light q)
  · rw [hsame.dirsOf, hdirs, Function.update_of_ne hne.symm]
    exact hc.loaded.trans (congrArg (fun v => some v.cr3) hcpus.symm)
  · rw [hsame.dirsOf, hdirs, Function.update_self]
  · -- the child is in the slot that its id names, and its parent calls
    have hzero : nextEnvId (s.envs e).envId e ≠ 0#32 := by
      intro h0
      rw [h0] at hpos
      exact absurd hpos.1 (by decide)
    refine envid2env_child (hcur.trans hc.curenv) ?_ hzero (envx_of_mod hpos.2) ?_ ?_
    · simp [Live, Kernel.setEnv, Write.value]
    · simp [Kernel.setEnv, Write.value, hchild.1]
    · simp [Kernel.setEnv, Write.value, hchild.2, hne.symm, hpar]
  · rw [hsame.dirsOf]
    exact congrFun hent x
  · have hdata := hs.ledger.typed.tree.role_of_entryOf hw
    show s₁.phys (frame w) j = s.phys (frame w) j
    rw [hphys, if_neg]
    rintro rfl
    rw [hfree] at hdata
    cases hdata
  · rw [hsame.dirsOf]
    exact hent
  · rw [hsame.dirsOf]
    exact (congrFun hent (e, v)).trans (hblank v)
  · rw [Function.update_of_ne hfp]
    exact hf

/-! ## `fork` -/

/-- The entries after the loop of `fork`, if there was memory for all tables. -/
def forkEntries (E : ℕ × ℕ → Option Word) (c e : ℕ) (x : ℕ × ℕ) : Option Word :=
  if x.1 = e then if x.2 < ustackPages then (E (c, x.2)).bind copyOf else none
  else if x.1 = c ∧ x.2 < ustackPages then (E x).map keptOf
  else E x

theorem Copied.eq_forkEntries (h : Copied s s' c e ustackPages) (hne : e ≠ c)
    (hspare : s'.pageFreeList ≠ none) : entryOf s'.phys (dirsOf s') =
      forkEntries (entryOf s.phys (dirsOf s)) c e := by
  funext ⟨e', v⟩
  unfold forkEntries
  dsimp only
  by_cases he : e' = e
  · subst he
    rw [if_pos rfl]
    by_cases hv : v < ustackPages
    · rw [if_pos hv, h.filled hspare v hv]
    · rw [if_neg hv]
      exact (h.child v).resolve_right fun h0 => hv h0.1
  rw [if_neg he]
  by_cases hc : e' = c
  · subst hc
    simp only [true_and, h.parent v]
  · rw [if_neg fun h0 => hc h0.1]
    exact h.other _ hc he

/-- What `fork` does below `USTACKTOP`, in the parent `c`, its child `e` and the others. -/
structure Duplicates (s s' : Kernel) (c e : ℕ) : Prop where
  ne : e ≠ c
  entries : ∃ E, Grants (entryOf s.phys (dirsOf s)) E ∧
    Grants (forkEntries E c e) (entryOf s'.phys (dirsOf s'))
  child : ∀ v < ustackPages,
    entryOf s'.phys (dirsOf s') (e, v) = (entryOf s.phys (dirsOf s) (c, v)).bind copyOf
  parent : ∀ v < ustackPages,
    entryOf s'.phys (dirsOf s') (c, v) = (entryOf s.phys (dirsOf s) (c, v)).map keptOf
  other : ∀ x, x.2 < ustackPages → x.1 ≠ c → x.1 ≠ e →
    entryOf s'.phys (dirsOf s') x = entryOf s.phys (dirsOf s) x
  fresh : ∀ v < ustackPages, entryOf s.phys (dirsOf s) (e, v) = none
  words : ∀ x w, x.2 < ustackPages → entryOf s.phys (dirsOf s) x = some w →
    ∀ j, s'.phys (frame w) j = s.phys (frame w) j

/-- **`fork`**, if it returns a positive id. -/
theorem Caller.fork {first : Bool} {upcall : Word} (hc : Caller s ρ c)
    (hrun : User.fork s first upcall = .ok (id, s')) (hid : 0 < id) :
    ∃ ρ', Settled s' ρ' ∧ s'.curenv = some c ∧ dirsOf s' c = some s'.thiscpu.cr3 ∧
      Duplicates s s' c (envx (BitVec.ofInt 32 id)) := by
  unfold User.fork at hrun
  obtain ⟨s₁, hset, hrun⟩ := bind_eq_ok.mp hrun
  obtain ⟨⟨r, s₂⟩, hexo, hrun⟩ := bind_eq_ok.mp hrun
  dsimp only at hrun
  split at hrun
  · rename_i hzero
    obtain ⟨rfl, -⟩ := Prod.mk.inj (Except.ok.inj hrun)
    exact absurd hid (Int.lt_irrefl 0)
  split at hrun
  · cases hrun
  obtain ⟨s₃, hloop, hrun⟩ := bind_eq_ok.mp hrun
  obtain ⟨s₄, halloc, hrun⟩ := bind_eq_ok.mp hrun
  obtain ⟨⟨r₅, s₅⟩, hup, hrun⟩ := bind_eq_ok.mp hrun
  obtain ⟨s₆, hstat, hrun⟩ := bind_eq_ok.mp hrun
  obtain ⟨rfl, rfl⟩ := Prod.mk.inj (Except.ok.inj hrun)
  obtain ⟨ρ₁, hc₁, hpre, hgrant₁⟩ := hc.setPgfaultHandler hset
  obtain ⟨e, ρ₂, hc₂, hfam, hopen, hsame₂, hblank, -⟩ := hc₁.exofork (of_syscall hexo) hid
  obtain ⟨ρ₃, hret, hcop⟩ := hfam.loop hc₂.settled hblank hc₂.light hloop
  have hfam₃ := hfam.of_memoryOnly hret.memory
  have hlive₃ := live_of_dirsOf hfam₃.loaded
  -- the call for the exception stack of the child has found a page
  obtain ⟨e', p, ρ₄, -, hg⟩ := hret.settled.allocated hfam₃.curenv hlive₃ (by decide)
    (fun e _ w _ => by
      have h1 := hcop.refCount_le hc₂.settled (frame w)
      have h2 := hc₂.light (frame w)
      omega) (of_must halloc)
  have hspare : s₃.pageFreeList ≠ none := by
    rw [hg.head]
    exact nofun
  have hfam₄ := hfam₃.of_memoryOnly hg.memory
  obtain ⟨hsame₅, hcpu₅⟩ := setPgfaultUpcall_same (of_syscall hup)
  have hcur₅ : s₅.curenv = some c := (congrArg CpuInfo.cpuEnv hcpu₅).trans hfam₄.curenv
  have hlive₅ := (hsame₅.slots.live_iff c).mpr (live_of_dirsOf hfam₄.loaded)
  obtain ⟨hsame₆, hcpu₆⟩ := envSetStatus_same hcur₅ hlive₅ (of_must hstat)
  have hlast := ((samePages_of_gives hg hret.settled).trans (.of_same hsame₅)).trans
    (.of_same hsame₆)
  have hfirst := hpre.trans hopen
  -- the id of the child names its slot
  have hword : BitVec.ofInt 32 r ≠ 0#32 := by
    intro h0
    have hn := hfam.named
    rw [h0, envid2env_self hfam.curenv] at hn
    exact hfam.ne (Option.some.inj (Prod.mk.inj (Except.ok.inj hn)).2).symm
  obtain ⟨hslot, -⟩ := eq_envx_of_envid2env hword hfam.named
  rw [← hslot]
  have hcpu := hcpu₆.trans hcpu₅
  have hgrant₄ := grants_of_gives hg hret.settled (by decide) (by decide) (by decide)
  rw [hcop.eq_forkEntries hfam.ne hspare, hsame₂, ← hsame₅.entries, ← hsame₆.entries] at hgrant₄
  refine ⟨ρ₄, (hg.settled.aloof hsame₅.aloof).aloof hsame₆.aloof, ?_, ?_, hfam.ne,
    ⟨_, hgrant₁, hgrant₄⟩, fun v hv => ?_,
    fun v hv => ?_, fun x hx hxc hxe => ?_, fun v hv => ?_, fun x w hx hw j => ?_⟩
  · exact (congrArg CpuInfo.cpuEnv hcpu₆).trans hcur₅
  · rw [hsame₆.slots.dirsOf, hsame₅.slots.dirsOf, hcpu]
    exact hfam₄.loaded
  · rw [hlast.entries _ hv, hcop.filled hspare v hv, hfirst.entries _ hv]
  · rw [hlast.entries _ hv, hcop.parent v, if_pos hv, hfirst.entries _ hv]
  · rw [hlast.entries _ hx, hcop.other x hxc hxe, hfirst.entries _ hx]
  · rw [← hfirst.entries _ hv]
    exact hblank v
  · have hw₂ := (hfirst.entries x hx).trans hw
    obtain ⟨hdata, hsame⟩ := hret.data _ (hc₂.settled.ledger.typed.tree.role_of_entryOf hw₂)
    rw [hsame₆.phys, hsame₅.phys, hg.words _ hdata j, hsame j, hfirst.words x w hx hw j]

/-! ## Enough memory -/

/-- With a slot and a page `sys_exofork` returns a positive id. -/
theorem Caller.exofork_ok (hc : Caller s ρ c) (he : s.envFreeList = some e)
    (hq : ρ q = .free) : ∃ id s', s.handle .exofork = .ok (.ret id, s') ∧ 0 < id := by
  obtain ⟨p, hl⟩ := hc.settled.ledger.typed.free.exists_head hq
  obtain ⟨helt, -⟩ := hc.settled.layout.not_live_of_head he
  have hid : ((s.openEnv e p (s.envs c).envId).envs e).envId = nextEnvId (s.envs e).envId e := by
    simp [openEnv, Kernel.setEnv, Kernel.note, setWord, copyFrame, Kernel.incRef, Kernel.takePage,
      setPage, zeroFrame]
  refine ⟨_, _, returning_ok (hc.settled.sysExofork_of_free hc.curenv he hl), ?_⟩
  rw [hid]
  exact (nextEnvId_pos _ helt).1

theorem setPgfaultUpcall_ok (hx : s.envid2env envid true = .ok (0, some e)) (func : Word) :
    s.handle (.envSetPgfaultUpcall envid func) =
      .ok (.ret 0, s.setEnv e { s.envs e with envPgfaultUpcall := func }) := by
  refine returning_ok ?_
  unfold sysEnvSetPgfaultUpcall
  rw [hx]
  rfl

theorem envSetStatus_ok (hx : s.envid2env envid true = .ok (0, some e)) :
    s.handle (.envSetStatus envid EnvStatus.runnable.toWord) =
      .ok (.ret 0, s.setStatus e .runnable) := by
  refine returning_ok ?_
  unfold sysEnvSetStatus
  rw [if_neg fun h0 => h0.2 rfl, hx]
  rfl

/-- The upcall of an environment says nothing about its name. -/
theorem envid2env_setUpcall (s : Kernel) (e : ℕ) (func envid : Word) :
    (s.setEnv e { s.envs e with envPgfaultUpcall := func }).envid2env envid true =
      s.envid2env envid true := by
  have henv : ∀ e', ((s.setEnv e { s.envs e with envPgfaultUpcall := func }).envs e') =
      if e' = e then { s.envs e with envPgfaultUpcall := func } else s.envs e' :=
    Function.update_apply s.envs e _
  refine envid2env_congr (show (s.setEnv e _).curenv = s.curenv from rfl) (fun e' => ?_)
    (fun e' => ?_) (fun e' => ?_) envid true <;>
    · rw [henv]
      split
      · rename_i he
        rw [he]
      · rfl

/-- **`fork` returns** if there are a slot, a page for every page that is mapped below
`USTACKTOP`, and three more. -/
theorem Caller.fork_ok {e₀ : ℕ} (hc : Caller s ρ c) (he : s.envFreeList = some e₀)
    (hfree : Supply ρ ((mappedFrom s c 0).card + 3)) (upcall : Word) :
    ∃ id s', User.fork s false upcall = .ok (id, s') ∧ 0 < id := by
  obtain ⟨q, -, hq, -⟩ := (hfree.mono (Nat.le_add_left 2 ((mappedFrom s c 0).card + 1))).two
  obtain ⟨id, s₂, hexo, hid⟩ := hc.exofork_ok he hq
  obtain ⟨e, ρ₂, hc₂, hfam, -, hsame, hblank, huse⟩ := hc.exofork hexo hid
  have hmapped : mappedFrom s₂ c 0 = mappedFrom s c 0 := by
    unfold mappedFrom
    rw [hsame]
  obtain ⟨s₃, ρ₃, hloop, hret, hcop, hsup⟩ := hfam.loop_ok hc₂.settled hblank hc₂.light
    (by rw [hmapped]; exact hfree.use huse)
  have hfam₃ := hfam.of_memoryOnly hret.memory
  -- the exception stack of the child
  obtain ⟨d, hd⟩ := hfam₃.child
  have hnone : entryOf s₃.phys (dirsOf s₃) (e, pgnum uxstackVa) = none :=
    (hcop.child _).resolve_right fun h0 =>
      absurd h0.1 (show ¬ pgnum uxstackVa < ustackPages by decide)
  obtain ⟨f, r, hf, hr, hfr⟩ := hsup.two
  obtain ⟨p, s₄, ρ₄, halloc, -, -, hm₄, -⟩ := hret.settled.sysPageAlloc_spare hfam₃.named hd
    (show uxstackVa < utop by decide) (show ¬ Unaligned uxstackVa by decide)
    (show (pteP ||| pteW ||| pteU) &&& (pteU ||| pteP) = pteU ||| pteP by decide)
    (show (pteP ||| pteW ||| pteU).toNat < 2 ^ 12 by decide) hnone hf hr hfr
  have hcall₄ : s₃.handle (.pageAlloc (BitVec.ofInt 32 id) uxstackVa (pteP ||| pteW ||| pteU)) =
      .ok (.ret 0, s₄) := returning_ok halloc
  have hnamed := (hfam₃.of_memoryOnly hm₄).named
  have hnamed₅ := (envid2env_setUpcall s₄ e upcall (BitVec.ofInt 32 id)).trans hnamed
  refine ⟨id, (s₄.setEnv e { s₄.envs e with envPgfaultUpcall := upcall }).setStatus e .runnable, ?_,
    hid⟩
  have hcall₂ : syscall s false .exofork = .ok (id, s₂) := by
    unfold syscall
    rw [hexo]
    rfl
  have hpos : ¬ id = 0 ∧ ¬ id < 0 := by omega
  have hset : User.setPgfaultHandler s false upcall = .ok s := rfl
  unfold User.fork
  rw [hset, ok_bind, hcall₂, ok_bind]
  dsimp only
  rw [if_neg hpos.1, if_neg hpos.2, hloop]
  show (must s₃ _ >>= _) = _
  rw [must_eq hcall₄, ok_bind, syscall_eq (setPgfaultUpcall_ok hnamed upcall) le_rfl, ok_bind]
  dsimp only
  rw [must_eq (envSetStatus_ok hnamed₅)]
  rfl

end User
end PmakeOs
