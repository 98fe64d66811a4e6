import PmakeOs.User.Calls

/-!
# One page of `fork`

What `fork` reads at `UVPT` is the entry of the page, and what it does with the page is one
call of `sys_page_map` or two, from its own address space to the same address of the child or
of its own.

* `Family` --- what `fork` relies on throughout: who the caller and the child are, and that
  the directory of the caller is loaded;
* `copyOf`, `keptOf` --- what `duppage` makes of an entry, for the child and for the parent;
* `Family.forkPage` --- one round of the loop, whatever memory there is.
-/

namespace PmakeOs

open Lib Kernel

variable {s s' : Kernel} {ρ ρ' : ℕ → Role} {c e k : ℕ} {perm w : Word} {id : Word}

namespace User

/-! ## The loop reads the page tables -/

/-- A page that is not mapped is passed over. -/
theorem forkPage_of_none (hs : Settled s ρ) (hd : dirsOf s c = some s.thiscpu.cr3) (hk : k < upn)
    (hw : entryOf s.phys (dirsOf s) (c, k) = none) (envid : Word) :
    forkPage envid s k = .ok s := by
  have hwin := hs.windowed hd
  have hk' : k < 2 ^ 20 := hk.trans (by decide)
  have hi : k / nptentries < npdentries := by
    rw [nptentries, npdentries]
    omega
  rw [← userPte_eq hd hk, userPte] at hw
  unfold forkPage
  rw [uvpdAt_of_windowed hwin hi, ok_bind]
  by_cases hp : Has (s.phys s.thiscpu.cr3 (k / nptentries)) pteP
  · rw [if_pos hp, uvptAt_of_windowed hwin hk' hp, ok_bind, if_neg]
    · rfl
    · intro hq
      rw [if_pos ⟨hp, hq⟩] at hw
      cases hw
  · rw [if_neg hp]
    rfl

/-- A page that is mapped is duplicated, if user mode has access to it. -/
theorem forkPage_of_some (hs : Settled s ρ) (hd : dirsOf s c = some s.thiscpu.cr3)
    (hw : entryOf s.phys (dirsOf s) (c, k) = some w) (envid : Word) :
    forkPage envid s k = if Has w pteU then (duppage s envid k).map Prod.snd else .ok s := by
  have hpte := uvptAt_of_entry hs hd hw
  obtain ⟨hk, d, hd', hp, -, hq⟩ := exists_of_entryOf hw
  rw [hd] at hd'
  obtain rfl := Option.some.inj hd'
  have hi : k / nptentries < npdentries := by
    rw [upn_eq] at hk
    rw [nptentries, npdentries]
    omega
  unfold forkPage
  rw [uvpdAt_of_windowed (hs.windowed hd) hi, ok_bind, if_pos hp, hpte, ok_bind, if_pos hq, ok_bind]
  by_cases hu : Has w pteU
  · rw [if_pos hu, if_pos hu]
    cases duppage s envid k <;> rfl
  · rw [if_neg hu, if_neg hu]
    rfl

/-! ## What `duppage` makes of an entry -/

/-- The entry of a page that is copy-on-write. -/
def cowEntry (p : ℕ) : Word := page2pa p ||| (pteCow ||| pteU ||| pteP) ||| pteP

/-- What the child gets for the entry `w` of the parent. -/
def copyOf (w : Word) : Option Word :=
  if Has w pteU then
    if Has w pteShare then
      if Has w pteW then some (page2pa (frame w) ||| pteSyscall ||| pteP) else none
    else if Has w pteW ∨ Has w pteCow then some (cowEntry (frame w))
    else some (page2pa (frame w) ||| (pteU ||| pteP) ||| pteP)
  else none

/-- What the parent is left with. -/
def keptOf (w : Word) : Word :=
  if Has w pteU ∧ ¬ Has w pteShare ∧ (Has w pteW ∨ Has w pteCow) then cowEntry (frame w) else w

/-- Environment `c` runs `fork`, and its child `e` has the id `id`. -/
structure Family (s : Kernel) (c e : ℕ) (id : Word) : Prop where
  curenv : s.curenv = some c
  loaded : dirsOf s c = some s.thiscpu.cr3
  child : ∃ d, dirsOf s e = some d
  named : s.envid2env id true = .ok (0, some e)
  ne : e ≠ c

theorem Family.of_memoryOnly (h : Family s c e id) (hm : MemoryOnly s s') : Family s' c e id := by
  have hcr : s'.thiscpu.cr3 = s.thiscpu.cr3 := by
    obtain ⟨tlb, htlb⟩ := hm.cpu s.cpunum
    unfold thiscpu
    rw [hm.cpunum, htlb]
  have hdirs := hm.sameSlots.dirsOf
  refine ⟨hm.curenv.trans h.curenv, ?_, ?_, ?_, h.ne⟩
  · rw [hdirs, hcr]
    exact h.loaded
  · rw [hdirs]
    exact h.child
  · rw [← h.named]
    exact envid2env_congr hm.curenv (fun _ => by rw [hm.envs]) (fun _ => by rw [hm.envs])
      (fun _ => by rw [hm.envs]) id true

/-- What one round of the loop leaves: the child has the entry `o` for page `k`. -/
structure Forks (s : Kernel) (ρ : ℕ → Role) (s' : Kernel) (ρ' : ℕ → Role) (c e k : ℕ)
    (o : Option Word) : Prop where
  retains : Retains s ρ s' ρ'
  copy : o = (entryOf s.phys (dirsOf s) (c, k)).bind copyOf ∨ o = none ∧ s.pageFreeList = none
  entries : entryOf s'.phys (dirsOf s') = Function.update (Function.update
    (entryOf s.phys (dirsOf s)) (e, k) o) (c, k) ((entryOf s.phys (dirsOf s) (c, k)).map keptOf)
  uses : ∃ t, ∀ f, ρ f = .free → f ≠ t → ρ' f = .free

/-- Nothing is mapped. -/
theorem Forks.same (hs : Settled s ρ) {o : Option Word}
    (hblank : entryOf s.phys (dirsOf s) (e, k) = none)
    (hkept : (entryOf s.phys (dirsOf s) (c, k)).map keptOf = entryOf s.phys (dirsOf s) (c, k))
    (ho : o = none)
    (hcopy : o = (entryOf s.phys (dirsOf s) (c, k)).bind copyOf ∨ s.pageFreeList = none) :
    Forks s ρ s ρ c e k o := by
  subst ho
  refine ⟨.refl hs, hcopy.imp id fun hl => ⟨rfl, hl⟩, ?_, (Uses.refl ρ True).one⟩
  rw [hkept, ← hblank, Function.update_eq_self, Function.update_eq_self]

/-- The child gets a mapping, and the entry of the parent stays. -/
theorem Forks.one {w' : Word} (h : Retains s ρ s' ρ') (hne : e ≠ c)
    (hw : entryOf s.phys (dirsOf s) (c, k) = some w) (hcopy : copyOf w = some w')
    (hkept : keptOf w = w) (hent : entryOf s'.phys (dirsOf s') =
      Function.update (entryOf s.phys (dirsOf s)) (e, k) (some w'))
    (huse : ∃ t, ∀ f, ρ f = .free → f ≠ t → ρ' f = .free) :
    Forks s ρ s' ρ' c e k (some w') := by
  refine ⟨h, Or.inl ?_, ?_, huse⟩
  · rw [hw, Option.bind_some, hcopy]
  · have hcur : Function.update (entryOf s.phys (dirsOf s)) (e, k) (some w') (c, k) = some w := by
      rw [Function.update_of_ne fun h0 => hne (Prod.mk.inj h0).1.symm]
      exact hw
    rw [hent, hw, Option.map_some, hkept, ← hcur, Function.update_eq_self]

section Page

variable (hf : Family s c e id) (hs : Settled s ρ)
  (hblank : entryOf s.phys (dirsOf s) (e, k) = none)
  (hw : entryOf s.phys (dirsOf s) (c, k) = some w)
  (hcount : refCount s.phys (dirsOf s) (frame w) + 1 < 2 ^ 16)

include hf hs hblank hw hcount

/-- The branches of `duppage` with one call, of which the result is dropped. -/
theorem Family.duppageOne {r : ℤ} (hbits : perm &&& (pteU ||| pteP) = pteU ||| pteP)
    (hperm : perm.toNat < 2 ^ 12) (hkept : keptOf w = w)
    (hcopy : copyOf w = if ¬ Has w pteW ∧ Has perm pteW then none
      else some (page2pa (frame w) ||| perm ||| pteP))
    (hrun : syscall s true (.pageMap 0#32 (pageVa k) id (pageVa k) perm) = .ok (r, s')) :
    ∃ ρ' o, Forks s ρ s' ρ' c e k o := by
  obtain ⟨d, hd⟩ := hf.child
  obtain ⟨hk, -⟩ := exists_of_entryOf hw
  have hy := of_syscall hrun
  have hsame : (entryOf s.phys (dirsOf s) (c, k)).map keptOf =
      entryOf s.phys (dirsOf s) (c, k) := by
    rw [hw, Option.map_some, hkept]
  rcases hs.mapPage hf.curenv hf.loaded hf.named hd hbits hperm hw hk
    (fun w' h0 => nomatch hblank.symm.trans h0) (by omega) with
    ⟨hno, hask, hcall⟩ | ⟨hok, ⟨hl, hcall⟩ | ⟨s₁, ρ₁, hcall, hret, hent, huse⟩⟩
  · obtain ⟨-, rfl⟩ := Prod.mk.inj (Except.ok.inj (hcall.symm.trans hy))
    refine ⟨ρ, none, .same hs hblank hsame rfl (Or.inl ?_)⟩
    rw [hw, Option.bind_some, hcopy, if_pos ⟨hno, hask⟩]
  · obtain ⟨-, rfl⟩ := Prod.mk.inj (Except.ok.inj (hcall.symm.trans hy))
    exact ⟨ρ, none, .same hs hblank hsame rfl (Or.inr hl)⟩
  · obtain ⟨-, rfl⟩ := Prod.mk.inj (Except.ok.inj (hcall.symm.trans hy))
    refine ⟨ρ₁, _, .one hret hf.ne hw ?_ hkept hent huse.one⟩
    rw [hcopy, if_neg fun h0 => h0.1 (hok h0.2)]

/-- The branch with two calls, which panics if one of them fails. -/
theorem Family.duppageCow {s₁ : Kernel} (hkept : keptOf w = cowEntry (frame w))
    (hcopy : copyOf w = some (cowEntry (frame w)))
    (hrun : must s (.pageMap 0#32 (pageVa k) id (pageVa k) (pteCow ||| pteU ||| pteP)) = .ok s₁)
    (hrun' : must s₁ (.pageMap 0#32 (pageVa k) 0#32 (pageVa k) (pteCow ||| pteU ||| pteP)) =
      .ok s') : ∃ ρ' o, Forks s ρ s' ρ' c e k o := by
  have hbits : (pteCow ||| pteU ||| pteP) &&& (pteU ||| pteP) = pteU ||| pteP := by decide
  have hperm : (pteCow ||| pteU ||| pteP).toNat < 2 ^ 12 := by decide
  have hnoW : ¬ Has (pteCow ||| pteU ||| pteP) pteW := by decide
  obtain ⟨d, hd⟩ := hf.child
  obtain ⟨hk, -⟩ := exists_of_entryOf hw
  have hy := of_must hrun
  have hy' := of_must hrun'
  rcases hs.mapPage hf.curenv hf.loaded hf.named hd hbits hperm hw hk
    (fun w' h0 => nomatch hblank.symm.trans h0) (by omega) with
    ⟨-, hask, -⟩ | ⟨-, ⟨-, hcall⟩ | ⟨s₂, ρ₁, hcall, hret, hent, huse⟩⟩
  · exact absurd hask hnoW
  · obtain ⟨h0, -⟩ := Prod.mk.inj (Except.ok.inj (hcall.symm.trans hy))
    exact nomatch Flow.ret.inj h0
  obtain ⟨-, rfl⟩ := Prod.mk.inj (Except.ok.inj (hcall.symm.trans hy))
  -- the page of the parent, which is not yet copy-on-write
  have hf₁ := hf.of_memoryOnly hret.memory
  have hne : (c, k) ≠ (e, k) := fun h0 => hf.ne (Prod.mk.inj h0).1.symm
  have hw₁ : entryOf s₂.phys (dirsOf s₂) (c, k) = some w := by
    rw [hent, Function.update_of_ne hne]
    exact hw
  have hself := envid2env_self hf₁.curenv
  have hcount₁ := refCount_le_succ hent (frame w)
  rcases hret.settled.mapPage hf₁.curenv hf₁.loaded hself hf₁.loaded hbits hperm hw₁ hk
    (fun w' h0 => congrArg frame (Option.some.inj (h0.symm.trans hw₁))) (by omega) with
    ⟨-, hask, -⟩ | ⟨-, ⟨-, hcall'⟩ | ⟨s₃, ρ₂, hcall', hret', hent', huse'⟩⟩
  · exact absurd hask hnoW
  · obtain ⟨h0, -⟩ := Prod.mk.inj (Except.ok.inj (hcall'.symm.trans hy'))
    exact nomatch Flow.ret.inj h0
  obtain ⟨-, rfl⟩ := Prod.mk.inj (Except.ok.inj (hcall'.symm.trans hy'))
  refine ⟨ρ₂, some (cowEntry (frame w)), hret.trans hret', Or.inl ?_, ?_, ?_⟩
  · rw [hw, Option.bind_some, hcopy]
  · rw [hent', hent, hw, Option.map_some, hkept]
    rfl
  · obtain ⟨t, ht⟩ := huse.one
    refine ⟨t, fun f hf hft => huse'.none ?_ f (ht f hf hft)⟩
    rw [hw₁]
    exact nofun

/-- **`duppage`.** -/
theorem Family.duppage {r : ℤ} (hu : Has w pteU) (hrun : User.duppage s id k = .ok (r, s')) :
    ∃ ρ' o, Forks s ρ s' ρ' c e k o := by
  have hpte := uvptAt_of_entry hs hf.loaded hw
  unfold User.duppage at hrun
  rw [hpte] at hrun
  simp only [ok_bind] at hrun
  by_cases hsh : Has w pteShare
  · rw [if_pos hsh] at hrun
    obtain ⟨⟨r₁, s₁⟩, hcall, hend⟩ := bind_eq_ok.mp hrun
    obtain ⟨-, rfl⟩ := Prod.mk.inj (Except.ok.inj hend)
    have hW : Has pteSyscall pteW := by decide
    refine hf.duppageOne hs hblank hw hcount (by decide) (by decide) ?_ ?_ hcall
    · simp [keptOf, hsh]
    · by_cases hw' : Has w pteW <;> simp [copyOf, hu, hsh, hw', hW]
  rw [if_neg hsh] at hrun
  by_cases hcow : Has w pteW ∨ Has w pteCow
  · rw [if_pos hcow] at hrun
    obtain ⟨s₁, hcall, hrun⟩ := bind_eq_ok.mp hrun
    obtain ⟨s₂, hcall', hend⟩ := bind_eq_ok.mp hrun
    obtain ⟨-, rfl⟩ := Prod.mk.inj (Except.ok.inj hend)
    refine hf.duppageCow hs hblank hw hcount ?_ ?_ hcall hcall'
    · rw [keptOf, if_pos ⟨hu, hsh, hcow⟩]
    · rw [copyOf, if_pos hu, if_neg hsh, if_pos hcow]
  · rw [if_neg hcow] at hrun
    obtain ⟨⟨r₁, s₁⟩, hcall, hend⟩ := bind_eq_ok.mp hrun
    obtain ⟨-, rfl⟩ := Prod.mk.inj (Except.ok.inj hend)
    have hW : ¬ Has (pteU ||| pteP) pteW := by decide
    refine hf.duppageOne hs hblank hw hcount (by decide) (by decide) ?_ ?_ hcall
    · rw [keptOf, if_neg fun h0 => hcow h0.2.2]
    · rw [copyOf, if_pos hu, if_neg hsh, if_neg hcow, if_neg fun h0 => hW h0.2]

/-- The branches with one call return. -/
theorem Family.duppageOne_ok (hbits : perm &&& (pteU ||| pteP) = pteU ||| pteP)
    (hperm : perm.toNat < 2 ^ 12) :
    ∃ a, syscall s true (.pageMap 0#32 (pageVa k) id (pageVa k) perm) = .ok a := by
  obtain ⟨d, hd⟩ := hf.child
  obtain ⟨hk, -⟩ := exists_of_entryOf hw
  rcases hs.mapPage hf.curenv hf.loaded hf.named hd hbits hperm hw hk
    (fun w' h0 => nomatch hblank.symm.trans h0) (by omega) with
    ⟨-, -, hcall⟩ | ⟨-, ⟨-, hcall⟩ | ⟨s₁, ρ₁, hcall, -⟩⟩
  · exact ⟨_, syscall_eq hcall (by decide)⟩
  · exact ⟨_, syscall_eq hcall (by decide)⟩
  · exact ⟨_, syscall_eq hcall le_rfl⟩

/-- The branch with two calls returns if there are two free pages. -/
theorem Family.duppageCow_ok {q r : ℕ} (hq : ρ q = .free) (hr : ρ r = .free) (hqr : q ≠ r) :
    ∃ s₁ s', must s (.pageMap 0#32 (pageVa k) id (pageVa k) (pteCow ||| pteU ||| pteP)) = .ok s₁ ∧
      must s₁ (.pageMap 0#32 (pageVa k) 0#32 (pageVa k) (pteCow ||| pteU ||| pteP)) = .ok s' := by
  have hbits : (pteCow ||| pteU ||| pteP) &&& (pteU ||| pteP) = pteU ||| pteP := by decide
  have hperm : (pteCow ||| pteU ||| pteP).toNat < 2 ^ 12 := by decide
  have hnoW : ¬ Has (pteCow ||| pteU ||| pteP) pteW := by decide
  obtain ⟨d, hd⟩ := hf.child
  obtain ⟨hk, -⟩ := exists_of_entryOf hw
  rcases hs.mapPage hf.curenv hf.loaded hf.named hd hbits hperm hw hk
    (fun w' h0 => nomatch hblank.symm.trans h0) (by omega) with
    ⟨-, hask, -⟩ | ⟨-, ⟨hl, -⟩ | ⟨s₁, ρ₁, hcall, hret, hent, huse⟩⟩
  · exact absurd hask hnoW
  · obtain ⟨p, hp⟩ := hs.ledger.typed.free.exists_head hq
    exact nomatch hl.symm.trans hp
  have hf₁ := hf.of_memoryOnly hret.memory
  have hne : (c, k) ≠ (e, k) := fun h0 => hf.ne (Prod.mk.inj h0).1.symm
  have hw₁ : entryOf s₁.phys (dirsOf s₁) (c, k) = some w := by
    rw [hent, Function.update_of_ne hne]
    exact hw
  have hcount₁ := refCount_le_succ hent (frame w)
  -- one of the two pages is left
  obtain ⟨t, ht⟩ := huse.one
  obtain ⟨f, hfree⟩ : ∃ f, ρ₁ f = .free := by
    rcases eq_or_ne q t with rfl | hqt
    · exact ⟨r, ht r hr hqr.symm⟩
    · exact ⟨q, ht q hq hqt⟩
  rcases hret.settled.mapPage hf₁.curenv hf₁.loaded (envid2env_self hf₁.curenv) hf₁.loaded hbits
    hperm hw₁ hk (fun w' h0 => congrArg frame (Option.some.inj (h0.symm.trans hw₁))) (by omega) with
    ⟨-, hask, -⟩ | ⟨-, ⟨hl, -⟩ | ⟨s₂, ρ₂, hcall', -⟩⟩
  · exact absurd hask hnoW
  · obtain ⟨p, hp⟩ := hret.settled.ledger.typed.free.exists_head hfree
    exact nomatch hl.symm.trans hp
  · exact ⟨s₁, s₂, must_eq hcall, must_eq hcall'⟩

theorem Family.duppage_ok {q r : ℕ} (hq : ρ q = .free) (hr : ρ r = .free) (hqr : q ≠ r) :
    ∃ a, User.duppage s id k = .ok a := by
  have hpte := uvptAt_of_entry hs hf.loaded hw
  unfold User.duppage
  rw [hpte]
  simp only [ok_bind]
  by_cases hsh : Has w pteShare
  · rw [if_pos hsh]
    obtain ⟨a, ha⟩ := hf.duppageOne_ok hs hblank hw hcount
      (show pteSyscall &&& (pteU ||| pteP) = pteU ||| pteP by decide) (by decide)
    exact ⟨_, by rw [show BitVec.ofNat 32 (k * pgsize) = pageVa k from rfl, ha]; rfl⟩
  rw [if_neg hsh]
  by_cases hcow : Has w pteW ∨ Has w pteCow
  · rw [if_pos hcow]
    obtain ⟨s₁, s₂, h₁, h₂⟩ := hf.duppageCow_ok hs hblank hw hcount hq hr hqr
    exact ⟨_, by rw [show BitVec.ofNat 32 (k * pgsize) = pageVa k from rfl, h₁, ok_bind, h₂]; rfl⟩
  · rw [if_neg hcow]
    obtain ⟨a, ha⟩ := hf.duppageOne_ok hs hblank hw hcount
      (show (pteU ||| pteP) &&& (pteU ||| pteP) = pteU ||| pteP by decide) (by decide)
    exact ⟨_, by rw [show BitVec.ofNat 32 (k * pgsize) = pageVa k from rfl, ha]; rfl⟩

end Page

/-- **One round of the loop**, however much memory there is. -/
theorem Family.forkPage (hf : Family s c e id) (hs : Settled s ρ) (hk : k < upn)
    (hblank : entryOf s.phys (dirsOf s) (e, k) = none)
    (hcount : ∀ w, entryOf s.phys (dirsOf s) (c, k) = some w →
      refCount s.phys (dirsOf s) (frame w) + 1 < 2 ^ 16)
    (hrun : User.forkPage id s k = .ok s') : ∃ ρ' o, Forks s ρ s' ρ' c e k o := by
  cases hw : entryOf s.phys (dirsOf s) (c, k) with
  | none =>
    rw [forkPage_of_none hs hf.loaded hk hw] at hrun
    obtain rfl := Except.ok.inj hrun
    refine ⟨ρ, none, .same hs hblank ?_ rfl (Or.inl ?_)⟩
    · rw [hw]
      rfl
    · rw [hw]
      rfl
  | some w =>
    rw [forkPage_of_some hs hf.loaded hw] at hrun
    by_cases hu : Has w pteU
    · rw [if_pos hu] at hrun
      cases hdup : User.duppage s id k with
      | error p =>
        rw [hdup] at hrun
        cases hrun
      | ok a =>
        rw [hdup] at hrun
        obtain rfl := Except.ok.inj hrun
        exact hf.duppage hs hblank hw (hcount w hw) hu hdup
    · rw [if_neg hu] at hrun
      obtain rfl := Except.ok.inj hrun
      refine ⟨ρ, none, .same hs hblank ?_ rfl (Or.inl ?_)⟩
      · rw [hw, Option.map_some, keptOf, if_neg fun h0 => hu h0.1]
      · rw [hw, Option.bind_some, copyOf, if_neg hu]

/-- A round returns if there are two free pages. -/
theorem Family.forkPage_ok {q r : ℕ} (hf : Family s c e id) (hs : Settled s ρ) (hk : k < upn)
    (hblank : entryOf s.phys (dirsOf s) (e, k) = none)
    (hcount : ∀ w, entryOf s.phys (dirsOf s) (c, k) = some w →
      refCount s.phys (dirsOf s) (frame w) + 1 < 2 ^ 16)
    (hq : ρ q = .free) (hr : ρ r = .free) (hqr : q ≠ r) :
    ∃ s', User.forkPage id s k = .ok s' := by
  cases hw : entryOf s.phys (dirsOf s) (c, k) with
  | none => exact ⟨s, forkPage_of_none hs hf.loaded hk hw id⟩
  | some w =>
    rw [forkPage_of_some hs hf.loaded hw]
    by_cases hu : Has w pteU
    · obtain ⟨a, ha⟩ := hf.duppage_ok hs hblank hw (hcount w hw) hq hr hqr
      rw [if_pos hu, ha]
      exact ⟨a.2, rfl⟩
    · rw [if_neg hu]
      exact ⟨s, rfl⟩

end User
end PmakeOs
