import PmakeOs.Sched.Table
import PmakeOs.Space.Aliases
import PmakeOs.Space.Freeing

/-!
# Where write access comes from

An entry of a page table is written by `page_insert` only.  After a system call every entry was
there before, or points to a page that was free, or is a copy of an entry that the call has
looked up, with no more write access than that (`Source`).

Let `S` be a set of environments none of which maps page `p` for writing.  As long as `p` is not
free and every copy of a mapping of `p` into `S` is made by a member of `S` from a member of `S`,
none of them ever does (`not_writableIn_of_trace`).  That the copy is made by a member is not
enough: a parent may allocate a page in the address space of a child that is no member, and
then map it into its own (`not_copiedByMembers_enough`).
-/

namespace PmakeOs

open Lib

namespace Kernel

variable {s s' s₀ : Kernel} {ρ ρ' : ℕ → Role} {pend : ℕ → Prop} {h : Hardware} {S : Set Word}
  {c e r d p q pp : ℕ} {va perm : Word} {x : Syscall} {y : ℕ × ℕ} {w w' : Word}

/-- The entry is that of a page of an environment of `S` that may write to `p`. -/
def WritableIn (S : Set Word) (s : Kernel) (p : ℕ) : Prop :=
  ∃ e vpn w, (s.envs e).envId ∈ S ∧ entryOf s.phys (dirsOf s) (e, vpn) = some w ∧
    frame w = p ∧ Has w pteW

/-- The call maps, in the address space of `r`, the page that `e` has mapped with the
entry `w`. -/
inductive Shares (s : Kernel) : Syscall → ℕ → ℕ → Word → Prop
  | pageMap {e r : ℕ} {srcenvid srcva dstenvid dstva perm w : Word}
      (he : s.envid2env srcenvid true = .ok (0, some e))
      (hr : s.envid2env dstenvid true = .ok (0, some r))
      (hw : entryOf s.phys (dirsOf s) (e, pgnum srcva) = some w) :
      Shares s (.pageMap srcenvid srcva dstenvid dstva perm) e r w
  | ipcTrySend {e r : ℕ} {envid value srcva perm w : Word} {stale : Option Word}
      (he : s.curenv = some e) (hr : s.envid2env envid false = .ok (0, some r))
      (hw : entryOf s.phys (dirsOf s) (e, pgnum srcva) = some w) :
      Shares s (.ipcTrySend envid value srcva perm stale) e r w

/-- Where the entry `w'` at `y` comes from, when the call has returned. -/
inductive Source (s : Kernel) (x : Syscall) (y : ℕ × ℕ) (w' : Word) : Prop
  | kept (h : entryOf s.phys (dirsOf s) y = some w')
  | fresh (h : s.pageFreeList = some (frame w'))
  | shared {e : ℕ} {w : Word} (h : Shares s x e y.1 w) (hf : frame w' = frame w)
      (hW : Has w' pteW → Has w pteW)

/-! ## One call -/

/-- `page_insert` fails and does nothing, or writes one entry. -/
theorem Sound.entries_of_pageInsert {ret : ℤ} (hs : Sound s ρ pend) (hd : dirsOf s e = some d)
    (hva : va < utop) (hpp : ρ pp = .data) (hperm : perm.toNat < 2 ^ 12) (hb : Droppable s e va)
    (hrun : s.pageInsert d pp va perm = .ok (ret, s')) :
    ret ≠ 0 ∧ s' = s ∨ ret = 0 ∧ entryOf s'.phys (dirsOf s') =
      Function.update (entryOf s.phys (dirsOf s)) (e, pgnum va)
        (some (page2pa pp ||| perm ||| pteP)) := by
  have hm := memoryOnly_of_pageInsert hrun
  have hcount : ∀ w, entryOf s.phys (dirsOf s) (e, pgnum va) = some w →
      refCount s.phys (dirsOf s) (frame w) + 0 < 2 ^ 16 := by
    intro w hw
    rw [Nat.add_zero]
    exact hb w hw
  rcases hs.ledger.pageInsert hd hva hpp hperm hcount with ⟨-, -, hrun'⟩ | ⟨s₁, ρ₁, hrun', -, hins⟩
  · obtain ⟨rfl, rfl⟩ := Prod.mk.inj (Except.ok.inj (hrun'.symm.trans hrun))
    exact Or.inl ⟨by decide, rfl⟩
  · obtain ⟨rfl, rfl⟩ := Prod.mk.inj (Except.ok.inj (hrun'.symm.trans hrun))
    refine Or.inr ⟨rfl, ?_⟩
    rw [hm.sameSlots.dirsOf]
    exact hins.entries

/-- The entry that `page_insert` writes, and the page and the rights it gives. -/
theorem frame_and_write_of_entry (hp : p < kernWindow) (hperm : perm.toNat < 2 ^ 12) :
    frame (page2pa p ||| perm ||| pteP) = p ∧
      (Has (page2pa p ||| perm ||| pteP) pteW → Has perm pteW) := by
  refine ⟨frame_entry hp hperm, fun hW => ?_⟩
  rcases (has_or _ _ _).mp hW with hW' | hW'
  · rcases (has_or _ _ _).mp hW' with h0 | h0
    · exact absurd h0 (not_has_page2pa p (by decide))
    · exact h0
  · exact absurd hW' (by decide)

/-- **`sys_page_map`.** -/
theorem Sound.source_of_sysPageMap {srcenvid srcva dstenvid dstva : Word} {ret : ℤ}
    (h : Settled s ρ) (hc : s.curenv = some c) (hlive : Live s c) (hperm : perm.toNat < 2 ^ 12)
    (hb : ∀ e, s.envid2env dstenvid true = .ok (0, some e) → Droppable s e dstva)
    (hrun : s.sysPageMap srcenvid srcva dstenvid dstva perm = .ok (ret, s'))
    (hw' : entryOf s'.phys (dirsOf s') y = some w') :
    Source s (.pageMap srcenvid srcva dstenvid dstva perm) y w' := by
  rcases sysPageMap_outcome hrun with ⟨-, rfl⟩ | ⟨se, de, sd, dd, pg, t, j, hse, hde, hsrc, hdst,
    -, -, hsd, hlook, -, hright, hdd, hins⟩
  · exact .kept hw'
  have hsd' := dirsOf_of_pgdir (granted_of_envid2env hc hlive hse).1 hsd
  have hdd' := dirsOf_of_pgdir (granted_of_envid2env hc hlive hde).1 hdd
  obtain ⟨w, rfl, hpte, hdata, hentry⟩ := h.ledger.typed.of_pageLookup hsd' hsrc hlook
  have hwin : frame w < kernWindow := h.ledger.typed.lt_kernWindow (by rw [hdata]; simp)
  obtain ⟨hf, hW⟩ := frame_and_write_of_entry hwin hperm
  rcases h.entries_of_pageInsert hdd' hdst hdata hperm (hb de hde) hins with ⟨-, rfl⟩ | ⟨-, hent⟩
  · exact .kept hw'
  · rw [hent, Function.update_apply] at hw'
    split at hw'
    · rename_i hy
      obtain rfl := Option.some.inj hw'
      refine .shared (e := se) (w := w) ?_ hf fun h0 => ?_
      · rw [hy]
        exact .pageMap hse hde hentry
      · rw [← hpte]
        exact hright (hW h0)
    · exact .kept hw'

/-- **`sys_page_alloc`.** -/
theorem Sound.source_of_sysPageAlloc {envid : Word} {ret : ℤ} (h : Settled s ρ)
    (hc : s.curenv = some c) (hlive : Live s c) (hperm : perm.toNat < 2 ^ 12)
    (hb : ∀ e, s.envid2env envid true = .ok (0, some e) → Droppable s e va)
    (hrun : s.sysPageAlloc envid va perm = .ok (ret, s'))
    (hw' : entryOf s'.phys (dirsOf s') y = some w') : Source s (.pageAlloc envid va perm) y w' := by
  rcases sysPageAlloc_outcome hrun with ⟨-, rfl⟩ |
    ⟨e, d, p, s₁, ret', s₂, henv, hva, -, -, halloc, hd, hins, hend⟩
  · exact .kept hw'
  obtain ⟨hl, rfl⟩ := h.ledger.typed.eq_of_pageAlloc halloc
  have hd' : dirsOf s e = some d := dirsOf_of_pgdir (granted_of_envid2env hc hlive henv).1 hd
  have hfree := h.ledger.typed.free.role_of_head hl
  obtain ⟨h₁, -⟩ := h.takeUserPage (Q := fun _ => True) hl
  have hent₁ : entryOf ((s.takePage p).note (.userPage p)).phys (dirsOf s) =
      entryOf s.phys (dirsOf s) := h.ledger.typed.tree.entryOf_takePage hfree
  have hdirs : dirsOf ((s.takePage p).note (.userPage p)) = dirsOf s := rfl
  have hb₁ : Droppable ((s.takePage p).note (.userPage p)) e va := by
    intro w hw
    rw [hdirs, hent₁] at hw
    rw [hdirs, refCount_of_entryOf_eq hent₁]
    exact hb e henv w hw
  have hpw : p < kernWindow := h.ledger.typed.lt_kernWindow (by rw [hfree]; simp)
  obtain ⟨hf, -⟩ := frame_and_write_of_entry hpw hperm
  rcases h₁.entries_of_pageInsert hd' hva (Function.update_self p .data ρ) hperm hb₁ hins with
    ⟨hne, rfl⟩ | ⟨rfl, hent⟩
  · -- the page goes back, and no table has changed
    obtain ⟨-, -, hfr⟩ := hend.resolve_left fun h0 => hne h0.1
    have hm := memoryOnly_of_pageFree hfr
    rw [hm.sameSlots.dirsOf, phys_of_pageFree hfr, hdirs, hent₁] at hw'
    exact .kept hw'
  · obtain ⟨-, -, rfl⟩ := hend.resolve_right fun h0 => h0.1 rfl
    rw [hent, Function.update_apply, hdirs, hent₁] at hw'
    split at hw'
    · obtain rfl := Option.some.inj hw'
      exact .fresh (by rw [hf]; exact hl)
    · exact .kept hw'

/-- **`sys_page_unmap`.** -/
theorem Sound.source_of_sysPageUnmap {envid : Word} {ret : ℤ} (h : Settled s ρ)
    (hc : s.curenv = some c) (hlive : Live s c)
    (hb : ∀ e, s.envid2env envid true = .ok (0, some e) → Droppable s e va)
    (hrun : s.sysPageUnmap envid va = .ok (ret, s'))
    (hw' : entryOf s'.phys (dirsOf s') y = some w') : Source s (.pageUnmap envid va) y w' := by
  rcases sysPageUnmap_outcome hrun with ⟨-, rfl⟩ | ⟨e, d, henv, hva, -, hd, hrem, -⟩
  · exact .kept hw'
  have hd' := dirsOf_of_pgdir (granted_of_envid2env hc hlive henv).1 hd
  obtain ⟨s₁, ρ₁, hrem', -, hm, hremoved, -⟩ := h.pageRemove (Q := fun _ => True) hd' hva
    (fun w hw => (hb e henv w hw).le) fun _ => trivial
  obtain rfl := Except.ok.inj (hrem'.symm.trans hrem)
  rw [hm.sameSlots.dirsOf, hremoved.entries, Function.update_apply] at hw'
  split at hw'
  · cases hw'
  · exact .kept hw'

/-- **The page of a message.** -/
theorem Sound.source_of_ipcTransfer {envid value srcva : Word} {stale : Option Word} {ret : ℤ}
    (h : Settled s ρ) (hc : s.curenv = some c) (hlive : Live s c) (hlr : Live s r)
    (henv : s.envid2env envid false = .ok (0, some r)) (hperm : perm.toNat < 2 ^ 12)
    (hb : Droppable s r (s.envs r).envIpcDstva)
    (hrun : s.ipcTransfer c r srcva perm stale = .ok (ret, s'))
    (hw' : entryOf s'.phys (dirsOf s') y = some w') :
    Source s (.ipcTrySend envid value srcva perm stale) y w' := by
  rcases ipcTransfer_outcome hrun with ⟨-, rfl⟩ |
    ⟨sd, rd, pg, t, j, s₁, hsrc, -, hsd, hlook, -, hright, hdst, hrd, hins, hend⟩
  · exact .kept hw'
  have hsd' := dirsOf_of_pgdir hlive hsd
  have hrd' := dirsOf_of_pgdir hlr hrd
  obtain ⟨w, rfl, hpte, hdata, hentry⟩ := h.ledger.typed.of_pageLookup hsd' hsrc hlook
  have hwin : frame w < kernWindow := h.ledger.typed.lt_kernWindow (by rw [hdata]; simp)
  obtain ⟨hf, hW⟩ := frame_and_write_of_entry hwin hperm
  rcases h.entries_of_pageInsert hrd' hdst hdata hperm hb hins with ⟨hne, rfl⟩ | ⟨rfl, hent⟩
  · obtain ⟨-, rfl⟩ := hend.resolve_right fun h0 => hne h0.1
    exact .kept hw'
  · obtain ⟨-, rfl⟩ := hend.resolve_left fun h0 => h0.1 rfl
    have hslots : SameSlots s₁ (s₁.setEnv r { s₁.envs r with envIpcPerm := perm }) :=
      sameSlots_setEnv Iff.rfl rfl rfl
    rw [hslots.dirsOf] at hw'
    change entryOf s₁.phys (dirsOf s₁) y = some w' at hw'
    rw [hent, Function.update_apply] at hw'
    split at hw'
    · rename_i hy
      obtain rfl := Option.some.inj hw'
      refine .shared (e := c) (w := w) ?_ hf fun h0 => ?_
      · rw [hy]
        exact .ipcTrySend hc henv hentry
      · rw [← hpte]
        exact hright (hW h0)
    · exact .kept hw'

/-- **`sys_ipc_try_send`.** -/
theorem Sound.source_of_sysIpcTrySend {envid value srcva : Word} {stale : Option Word} {ret : ℤ}
    (h : Settled s ρ) (hc : s.curenv = some c) (hlive : Live s c) (hperm : perm.toNat < 2 ^ 12)
    (hb : ∀ r, s.envid2env envid false = .ok (0, some r) → Droppable s r (s.envs r).envIpcDstva)
    (hrun : s.sysIpcTrySend envid value srcva perm stale = .ok (ret, s'))
    (hw' : entryOf s'.phys (dirsOf s') y = some w') :
    Source s (.ipcTrySend envid value srcva perm stale) y w' := by
  rcases sysIpcTrySend_cases hrun with ⟨hret, hm⟩ | ⟨-, r, c', s₁, henv, hc', -, htr, rfl⟩
  · rw [hm.sameSlots.dirsOf, phys_of_sysIpcTrySend h.ledger.typed hc hlive hrun hret] at hw'
    exact .kept hw'
  · obtain rfl := Option.some.inj (hc.symm.trans hc')
    have hlr : Live s r := live_of_send hc hlive henv
    have hlr₁ : Live s₁ r := by
      rcases h.ipcTransfer (Q := fun _ => True) hlive hlr (hb r henv) hperm (fun _ _ => trivial)
        srcva stale with ⟨-, herr⟩ | ⟨_, _, _, hok, -, hslots, -⟩
      · rw [herr] at htr
        cases htr
      · obtain ⟨-, rfl⟩ := Prod.mk.inj (Except.ok.inj (hok.symm.trans htr))
        exact (hslots.live_iff r).mpr hlr
    have hslots : SameSlots s₁ (s₁.setEnv r ((Write.deliver r c value).value s₁.envs)) :=
      sameSlots_setEnv (iff_of_false (by simp [Write.value]) hlr₁) rfl rfl
    rw [hslots.dirsOf] at hw'
    exact h.source_of_ipcTransfer hc hlive hlr henv hperm (hb r henv) htr hw'

/-- **`env_alloc` maps nothing**, and leaves the ids of live environments alone. -/
theorem Sound.entries_openEnv (h : Settled s ρ) (he : s.envFreeList = some e)
    (hl : s.pageFreeList = some p) (parentId : Word)
    (hw' : entryOf (s.openEnv e p parentId).phys (dirsOf (s.openEnv e p parentId)) y = some w') :
    entryOf s.phys (dirsOf s) y = some w' ∧
      (s.openEnv e p parentId).envs y.1 = s.envs y.1 := by
  rw [entryOf_openEnv h he hl] at hw'
  obtain ⟨-, d, hd, -⟩ := exists_of_entryOf hw'
  obtain ⟨-, hnl⟩ := h.layout.not_live_of_head he
  refine ⟨hw', openEnv_envs_of_ne s p parentId ?_⟩
  rintro rfl
  exact hnl (live_of_dirsOf hd)

theorem envId_of_sysIpcTrySend {envid value srcva : Word} {stale : Option Word} {ret : ℤ}
    (hrun : s.sysIpcTrySend envid value srcva perm stale = .ok (ret, s')) (e : ℕ) :
    (s'.envs e).envId = (s.envs e).envId := by
  rcases sysIpcTrySend_cases hrun with ⟨-, hm⟩ | ⟨-, r, c, s₁, -, -, -, htr, rfl⟩
  · rw [hm.envs]
  have h₁ : ∀ e, (s₁.envs e).envId = (s.envs e).envId := by
    intro e
    rcases envs_of_ipcTransfer htr with ⟨h0, -⟩ | ⟨-, ⟨-, rfl⟩ | ⟨-, henvs, -⟩⟩
    · exact absurd rfl h0
    · rfl
    · rw [henvs]
      rcases eq_or_ne e r with rfl | hne
      · simp [Write.apply, Write.slot, Write.value]
      · rw [Write.apply_of_ne hne]
  rcases eq_or_ne e r with rfl | hne
  · rw [← h₁ e]
    simp [Kernel.setEnv, Write.value]
  · rw [← h₁ e]
    simp [Kernel.setEnv, hne]

/-- `sys_exofork` when slot `e` and page `p` are free. -/
theorem Sound.sysExofork_of_free (h : Settled s ρ) (hc : s.curenv = some c)
    (he : s.envFreeList = some e) (hl : s.pageFreeList = some p) :
    s.sysExofork = .ok (((s.openEnv e p (s.envs c).envId).envs e).envId.toInt,
      (s.openEnv e p (s.envs c).envId).setEnv e
        ((Write.fork e c).value (s.openEnv e p (s.envs c).envId).envs)) := by
  unfold Kernel.sysExofork
  rw [hc, deref_some, ok_bind, h.envAlloc_of_free he hl, ok_bind]
  generalize s.openEnv e p (s.envs c).envId = s₁
  simp only [Int.lt_irrefl, if_false, deref_some, ok_bind, Kernel.setEnv, Function.update_self]
  rfl

/-- The child is not running yet, and nothing else has changed. -/
theorem sameSlots_fork (s : Kernel) (e p c : ℕ) (parentId : Word) :
    SameSlots (s.openEnv e p parentId) ((s.openEnv e p parentId).setEnv e
      ((Write.fork e c).value (s.openEnv e p parentId).envs)) := by
  have hlive : Live (s.openEnv e p parentId) e := (live_openEnv s e p parentId e).mpr (Or.inl rfl)
  exact sameSlots_setEnv (iff_of_false (by simp [Write.value]) hlive) rfl rfl

/-- **`sys_exofork`.** -/
theorem Sound.source_of_sysExofork {ret : ℤ} (h : Settled s ρ) (hc : s.curenv = some c)
    (hrun : s.sysExofork = .ok (ret, s')) (hw' : entryOf s'.phys (dirsOf s') y = some w') :
    (s'.envs y.1).envId = (s.envs y.1).envId ∧ Source s .exofork y w' := by
  rcases h.envAlloc (Q := fun _ => True) (s.envs c).envId with ⟨r, hr, halloc⟩ |
    ⟨e, p, he, hl, -, -, -⟩
  · unfold Kernel.sysExofork at hrun
    rw [hc, deref_some, ok_bind, halloc, ok_bind] at hrun
    dsimp only at hrun
    rw [if_pos hr] at hrun
    obtain ⟨-, rfl⟩ := Prod.mk.inj (Except.ok.inj hrun)
    exact ⟨rfl, .kept hw'⟩
  · rw [h.sysExofork_of_free hc he hl] at hrun
    obtain ⟨-, rfl⟩ := Prod.mk.inj (Except.ok.inj hrun)
    rw [(sameSlots_fork s e p c (s.envs c).envId).dirsOf] at hw'
    obtain ⟨hkept, henvs⟩ := h.entries_openEnv he hl _ hw'
    refine ⟨?_, .kept hkept⟩
    obtain ⟨-, d, hd, -⟩ := exists_of_entryOf hkept
    have hne : y.1 ≠ e := by
      rintro rfl
      exact (h.layout.not_live_of_head he).2 (live_of_dirsOf hd)
    simp [Kernel.setEnv, hne, henvs]

/-- **The entries after a system call.** -/
theorem Sound.source_of_handle {fl : Flow} (h : Settled s ρ) (hc : s.curenv = some c)
    (hlive : Live s c) (hx : x.isSpace = true) (hperm : x.perm.toNat < 2 ^ 12)
    (hb : ∀ e va, Target s x e va → Droppable s e va) (hrun : s.handle x = .ok (fl, s'))
    (hw' : entryOf s'.phys (dirsOf s') y = some w') :
    (s'.envs y.1).envId = (s.envs y.1).envId ∧ Source s x y w' := by
  cases x with
  | pageAlloc envid va perm =>
    obtain ⟨ret, -, hrun⟩ := exists_of_returning hrun
    refine ⟨by rw [(memoryOnly_of_sysPageAlloc hrun).envs], ?_⟩
    exact h.source_of_sysPageAlloc hc hlive hperm (fun e henv => hb e va (.pageAlloc henv)) hrun hw'
  | pageMap srcenvid srcva dstenvid dstva perm =>
    obtain ⟨ret, -, hrun⟩ := exists_of_returning hrun
    refine ⟨by rw [(memoryOnly_of_sysPageMap hrun).envs], ?_⟩
    exact h.source_of_sysPageMap hc hlive hperm (fun e henv => hb e dstva (.pageMap henv)) hrun hw'
  | pageUnmap envid va =>
    obtain ⟨ret, -, hrun⟩ := exists_of_returning hrun
    refine ⟨by rw [(memoryOnly_of_sysPageUnmap hrun).envs], ?_⟩
    exact h.source_of_sysPageUnmap hc hlive (fun e henv => hb e va (.pageUnmap henv)) hrun hw'
  | ipcTrySend envid value srcva perm stale =>
    obtain ⟨ret, -, hrun⟩ := exists_of_returning hrun
    refine ⟨envId_of_sysIpcTrySend hrun y.1, ?_⟩
    exact h.source_of_sysIpcTrySend hc hlive hperm (fun r henv => hb r _ (.ipcTrySend henv)) hrun hw'
  | exofork =>
    obtain ⟨ret, -, hrun⟩ := exists_of_returning hrun
    exact h.source_of_sysExofork hc hrun hw'
  | _ => cases hx

/-! ## Runs -/

/-- Page `p` is not free, and only members of `S` map or send it to members of `S`. -/
def CopiedByMembers (S : Set Word) (p : ℕ) (s : Kernel) (op : MemOp) : Prop :=
  ¬ s.InFreeList p ∧ ∀ c x, op = .call c x → ∀ e r w, Shares (s.setCurenv (some c)) x e r w →
    frame w = p → (s.envs r).envId ∈ S → (s.envs c).envId ∈ S

/-- The copies that members of `S` make of `p`, for members of `S`, are copies of mappings of
members of `S`. -/
def CopiedFromMembers (S : Set Word) (p : ℕ) (s : Kernel) (op : MemOp) : Prop :=
  ∀ c x, op = .call c x → ∀ e r w, Shares (s.setCurenv (some c)) x e r w → frame w = p →
    (s.envs r).envId ∈ S → (s.envs c).envId ∈ S → (s.envs e).envId ∈ S

/-- One operation gives no member of `S` write access to `p`. -/
theorem Sound.not_writableIn_of_exec {op : MemOp} (h : Settled s ρ) (hop : Issuable s op)
    (hm : Modest s op) (hby : CopiedByMembers S p s op) (hfrom : CopiedFromMembers S p s op)
    (hrun : s.exec op = .ok s') (hno : ¬ WritableIn S s p) : ¬ WritableIn S s' p := by
  have hperm := toNat_lt_of_syscall hm.1
  rintro ⟨e, vpn, w', hS, hw', hf, hW⟩
  cases op with
  | envAlloc parentId =>
    rw [Kernel.exec] at hrun
    rcases h.envAlloc (Q := fun _ => True) parentId with ⟨r, -, halloc⟩ |
      ⟨e', p', he, hl, halloc, -, -⟩
    · rw [halloc] at hrun
      obtain rfl := Except.ok.inj hrun
      exact hno ⟨e, vpn, w', hS, hw', hf, hW⟩
    · rw [halloc] at hrun
      obtain rfl := Except.ok.inj hrun
      obtain ⟨hkept, henvs⟩ := h.entries_openEnv he hl parentId hw'
      exact hno ⟨e, vpn, w', by rw [← henvs]; exact hS, hkept, hf, hW⟩
  | envFree e' =>
    rw [Kernel.exec] at hrun
    obtain ⟨d, -, hd⟩ := h.layout.dirsOf_eq hop
    rw [h.entryOf_of_envFree hd hrun] at hw'
    split at hw'
    · cases hw'
    · rename_i hne
      rw [envs_of_envFree hrun, Write.apply_of_ne hne] at hS
      exact hno ⟨e, vpn, w', hS, hw', hf, hW⟩
  | call c x =>
    have hs := h.setCurenv (some c)
    cases hhandle : (s.setCurenv (some c)).handle x with
    | error err =>
      rw [Kernel.exec, hhandle] at hrun
      cases hrun
    | ok v =>
      obtain ⟨fl, s₁⟩ := v
      rw [Kernel.exec, hhandle] at hrun
      obtain rfl := Except.ok.inj hrun
      obtain ⟨hid, hsource⟩ := hs.source_of_handle (curenv_setCurenv s (some c)) hop.1 hop.2 hperm
        (fun e va _ => hm.2.bounded.droppable e va) hhandle hw'
      have hS' : (s.envs e).envId ∈ S := hid ▸ hS
      cases hsource with
      | kept hkept => exact hno ⟨e, vpn, w', hS', hkept, hf, hW⟩
      | fresh hl =>
        refine hby.1 ?_
        have hhead : s.pageFreeList = some (frame w') := hl
        rw [InFreeList, hhead, hf]
        exact .head
      | @shared se w hshare hfr hWr =>
        -- the copy was made from a member, which may write as well
        have hfw : frame w = p := hfr.symm.trans hf
        have hcS := hby.2 c x rfl se e w hshare hfw hS'
        have heS := hfrom c x rfl se e w hshare hfw hS' hcS
        cases hshare with
        | pageMap _ _ hw => exact hno ⟨se, _, w, heS, hw, hfw, hWr hW⟩
        | ipcTrySend _ _ hw => exact hno ⟨se, _, w, heS, hw, hfw, hWr hW⟩

/-- What happens beside the operations changes no entry. -/
theorem Sound.entryOf_aloof (h : Settled s ρ) (ha : Aloof s s') :
    entryOf s'.phys (dirsOf s') = entryOf s.phys (dirsOf s) := by
  rw [ha.slots.dirsOf]
  refine h.ledger.typed.tree.entryOf_retag fun f hf k => ?_
  rw [ha.words f]
  intro x hx
  obtain ⟨w, hw, rfl⟩ := Option.map_eq_some_iff.mp hx
  rw [h.ledger.typed.tree.role_of_entryOf hw] at hf
  exact hf

/-- A run of operations of the kind `K`, with anything between them that is not about address
spaces and leaves the ids alone: among it `sys_ipc_recv`, and the writes of the environments. -/
inductive Trace (K : Kernel → MemOp → Prop) : Kernel → Kernel → Prop
  | refl {s : Kernel} : Trace K s s
  | op {s s' s'' : Kernel} {op : MemOp} (ht : Trace K s s') (hop : Issuable s' op) (hK : K s' op)
      (hrun : s'.exec op = .ok s'') : Trace K s s''
  | other {s s' s'' : Kernel} (ht : Trace K s s') (ha : Aloof s' s'')
      (hid : ∀ e, (s''.envs e).envId = (s'.envs e).envId) : Trace K s s''

/-- What the members of `S` and the others may do. -/
def Guarded (S : Set Word) (p : ℕ) (s : Kernel) (op : MemOp) : Prop :=
  Modest s op ∧ CopiedByMembers S p s op ∧ CopiedFromMembers S p s op

theorem Trace.reached {K : Kernel → MemOp → Prop} (ht : Trace K s s')
    (hK : ∀ s op, K s op → Modest s op) (hr : Reached h s) : Reached h s' := by
  induction ht with
  | refl => exact hr
  | op _ hop hk hrun ih => exact .op ih hop (hK _ _ hk) hrun
  | other _ ha _ ih => exact .other ih ha

/-- **No write escalation.** -/
theorem not_writableIn_of_trace (hr : Reached h s) (ht : Trace (Guarded S p) s s')
    (hno : ¬ WritableIn S s p) : ¬ WritableIn S s' p := by
  induction ht with
  | refl => exact hno
  | op ht' hop hK hrun ih =>
    obtain ⟨ρ, hset, -⟩ := (ht'.reached (fun _ _ hk => hk.1) hr).settled
    exact hset.not_writableIn_of_exec hop hK.1 hK.2.1 hK.2.2 hrun ih
  | other ht' ha hid ih =>
    obtain ⟨ρ, hset, -⟩ := (ht'.reached (fun _ _ hk => hk.1) hr).settled
    rintro ⟨e, vpn, w, hS, hw, hf, hW⟩
    rw [hset.entryOf_aloof ha] at hw
    exact ih ⟨e, vpn, w, by rw [← hid e]; exact hS, hw, hf, hW⟩

/-! ## A page that is mapped twice -/

/-- A page that is mapped is not on the free list. -/
theorem Sound.not_inFreeList (h : Settled s ρ) (hw : entryOf s.phys (dirsOf s) y = some w) :
    ¬ s.InFreeList (frame w) := by
  intro hin
  obtain ⟨l, hl, hmem⟩ := h.ledger.typed.free.list
  have hdata := h.ledger.typed.tree.role_of_entryOf hw
  rw [(hmem _).mp (hl.linked_iff.mp hin)] at hdata
  cases hdata

/-- Few mappings crowd no page. -/
theorem uncrowded_of_refCount_le (h : Settled s ρ)
    (hle : ∀ q, refCount s.phys (dirsOf s) q ≤ 1) : Uncrowded s := by
  intro q
  have hq := hle q
  have hown : (ρ q).own ≤ 1 := by
    cases ρ q <;> simp [Role.own]
  rw [h.references_eq]
  omega

/-- With a single entry, a page has at most one mapping. -/
theorem refCount_le_one (hone : ∀ z w, entryOf s.phys (dirsOf s) z = some w → z = y) (q : ℕ) :
    refCount s.phys (dirsOf s) q ≤ 1 := by
  rw [refCount, occurrences, Finset.card_le_one]
  intro a ha b hb
  obtain ⟨w, hw, -⟩ := Option.map_eq_some_iff.mp (Finset.mem_filter.mp ha).2
  obtain ⟨w', hw', -⟩ := Option.map_eq_some_iff.mp (Finset.mem_filter.mp hb).2
  exact (hone a w hw).trans (hone b w' hw').symm

/-- The first environment maps its page a second time, for reading only. -/
theorem not_writableIn_of_trace_twoPages : ∃ s s' e p, Reached machine64 s ∧
    Trace (Guarded {(s.envs e).envId} p) s s' ∧ ¬ WritableIn {(s.envs e).envId} s p ∧
    entryOf s'.phys (dirsOf s') (e, 1) = some (page2pa p ||| readOnly ||| pteP) ∧
    ¬ WritableIn {(s.envs e).envId} s' p := by
  obtain ⟨s₀, hboot⟩ := machine64_boots
  obtain ⟨s, e, d, ρ, spare, hexec, hfirst, hcard⟩ := firstEnv_of_bootUp hboot
  have hlen := length_allocatable_machine64
  obtain ⟨p, s₁, ρ₁, spare₁, halloc, h₁⟩ := hfirst.firstAlias (by omega)
  obtain ⟨s₂, ρ₂, spare₂, hmap, h₂⟩ := h₁.step (by rw [upn_eq]; omega) (by omega)
  obtain ⟨ρ₀, hset₀, -, -⟩ := settled_of_bootUp hboot
  have hwithin : readOnly &&& ~~~ pteSyscall = 0#32 := by decide
  have hopen : Modest s₀ (.envAlloc 0#32) :=
    ⟨by decide, uncrowded_of_no_entry hset₀ (no_entry_of_bootUp hboot)⟩
  have hpage : Modest s (.call e (.pageAlloc 0#32 (pageVa 0) readOnly)) :=
    ⟨hwithin, uncrowded_of_no_entry hfirst.settled hfirst.entries⟩
  have hreach : Reached machine64 s₁ :=
    .op (.op (.boot hboot) (show Issuable s₀ (.envAlloc 0#32) from trivial) hopen hexec)
      (show Issuable s (.call e (.pageAlloc 0#32 (pageVa 0) readOnly)) from ⟨hfirst.live, rfl⟩)
      hpage halloc
  have hentry := h₁.entries (e, 0)
  rw [if_pos ⟨rfl, le_rfl⟩] at hentry
  have hone : ∀ z w, entryOf s₁.phys (dirsOf s₁) z = some w →
      z = (e, 0) ∧ w = page2pa p ||| readOnly ||| pteP := by
    intro z w hw
    rw [h₁.entries z] at hw
    split at hw
    · rename_i hz
      exact ⟨Prod.ext hz.1 (Nat.le_zero.mp hz.2), (Option.some.inj hw).symm⟩
    · cases hw
  have hnotfree : ¬ s₁.InFreeList p := by
    have h0 := h₁.settled.not_inFreeList hentry
    rwa [frame_entry h₁.page toNat_readOnly] at h0
  have hno : ¬ WritableIn {(s₁.envs e).envId} s₁ p := by
    rintro ⟨e', vpn, w, -, hw, -, hW⟩
    obtain ⟨-, rfl⟩ := hone _ _ hw
    exact absurd ((frame_and_write_of_entry h₁.page toNat_readOnly).2 hW) (by decide)
  have hcrowd : Uncrowded s₁ := uncrowded_of_refCount_le h₁.settled
    (refCount_le_one fun z w hw => (hone z w hw).1)
  have hguard : Guarded {(s₁.envs e).envId} p s₁
      (.call e (.pageMap 0#32 (pageVa 0) 0#32 (pageVa 1) readOnly)) := by
    refine ⟨⟨hwithin, hcrowd⟩, ⟨hnotfree, ?_⟩, ?_⟩
    · rintro c x hop e' r w - - -
      obtain ⟨rfl, -⟩ := MemOp.call.inj hop
      rfl
    · rintro c x hop e' r w hshare - - -
      obtain ⟨rfl, rfl⟩ := MemOp.call.inj hop
      cases hshare with
      | pageMap he _ _ =>
        rw [envid2env_zero] at he
        obtain rfl := Option.some.inj (Prod.mk.inj (Except.ok.inj he)).2
        rfl
  have htrace : Trace (Guarded {(s₁.envs e).envId} p) s₁ s₂ :=
    .op .refl (show Issuable s₁ (.call e (.pageMap 0#32 (pageVa 0) 0#32 (pageVa 1) readOnly)) from
      ⟨h₁.live, rfl⟩) hguard hmap
  have hmapped := h₂.entries (e, 1)
  rw [if_pos ⟨rfl, le_rfl⟩] at hmapped
  exact ⟨s₁, s₂, e, p, hreach, htrace, hno, hmapped, not_writableIn_of_trace hreach htrace hno⟩

/-! ## A page of a child -/

theorem not_live_of_bootUp (hboot : bootUp h = .ok s) (e : ℕ) : ¬ Live s e := by
  unfold bootUp at hboot
  obtain ⟨s₁, hmem, hr⟩ := bind_eq_ok.mp hboot
  obtain rfl := Except.ok.inj hr
  obtain ⟨-, -, -, hsame, -⟩ := booting_of_memInit hmem
  have hfree : ∀ e, (s₁.envs e).envStatus = .free := by
    intro e
    rw [hsame.envs]
    rfl
  obtain ⟨-, hfree', -⟩ := envInit_table hfree
  exact not_not.mpr (hfree' e)

/-- Right after `env_alloc`, the only live environment has the id of its slot, and there is a
free slot. -/
theorem slots_of_firstEnv {ρ : ℕ → Role} (hboot : bootUp h = .ok s₀)
    (hexec : s₀.exec (.envAlloc 0#32) = .ok s) (hset : Settled s ρ) (hlive : Live s e) :
    (s.envs e).envId.toNat % 1024 = e ∧ ∃ e', s.envFreeList = some e' := by
  obtain ⟨ρ₀, hset₀, -, -⟩ := settled_of_bootUp hboot
  obtain ⟨e₁, p, he, hl⟩ := free_of_bootUp hboot
  rw [exec, hset₀.envAlloc_of_free he hl] at hexec
  have hs : s₀.openEnv e₁ p 0#32 = s := Except.ok.inj hexec
  have honly : ∀ e', Live s e' → e' = e₁ := by
    intro e' h'
    rw [← hs] at h'
    exact ((live_openEnv s₀ e₁ p 0#32 e').mp h').resolve_right (not_live_of_bootUp hboot e')
  obtain rfl := honly e hlive
  constructor
  · have hid : (s.envs e).envId = nextEnvId (s₀.envs e).envId e := by
      rw [← hs]
      simp [openEnv, setEnv, Kernel.note, setWord, copyFrame, Kernel.incRef, Kernel.takePage,
        setPage, zeroFrame]
    rw [hid]
    exact (nextEnvId_pos _ (hset.layout.live hlive).1).2
  · -- a slot other than `e` is on the list
    obtain ⟨l, hthreads, hmem⟩ := hset.layout.slots
    have helt : e < nenv := (hset.layout.live hlive).1
    have hother : ∃ e', e' < nenv ∧ e' ≠ e := by
      rcases eq_or_ne e 0 with rfl | h0
      · exact ⟨1, by decide, by decide⟩
      · exact ⟨0, by decide, h0.symm⟩
    obtain ⟨e', he'lt, hne⟩ := hother
    have he' : e' ∈ l := (hmem e').mpr ⟨he'lt, fun h0 => hne (honly e' h0)⟩
    rw [hthreads.head_eq]
    cases l with
    | nil => cases he'
    | cons a l => exact ⟨a, rfl⟩

/-- Environment `e` has a child `c` with the id `id`, and nothing is mapped. -/
structure Forked (s : Kernel) (e c d dc : ℕ) (id : Word) (ρ : ℕ → Role) : Prop where
  settled : Settled s ρ
  parent : dirsOf s e = some d
  child : dirsOf s c = some dc
  ne : c ≠ e
  childId : (s.envs c).envId = id
  parentId : (s.envs c).envParentId = (s.envs e).envId
  id_ne : (s.envs e).envId ≠ id
  envx : envx id = c
  pos : id ≠ 0#32
  entries : ∀ x, entryOf s.phys (dirsOf s) x = none

/-- The parent may name the child. -/
theorem Forked.envid2env {dc : ℕ} {id : Word} (hf : Forked s e c d dc id ρ)
    (henvs : s'.envs = s.envs) :
    (s'.setCurenv (some e)).envid2env id true = .ok (0, some c) := by
  have hlive := live_of_dirsOf hf.child
  have hbad : ¬ (((s'.setCurenv (some e)).envs c).envStatus = .free ∨
      ((s'.setCurenv (some e)).envs c).envId ≠ id) := by
    show ¬ ((s'.envs c).envStatus = .free ∨ (s'.envs c).envId ≠ id)
    rw [henvs]
    exact not_or.mpr ⟨hlive, not_not.mpr hf.childId⟩
  have hparent : ¬ (((s'.setCurenv (some e)).envs c).envParentId ≠
      ((s'.setCurenv (some e)).envs e).envId) := by
    show ¬ ((s'.envs c).envParentId ≠ (s'.envs e).envId)
    rw [henvs]
    exact not_not.mpr hf.parentId
  unfold Kernel.envid2env
  rw [if_neg hf.pos]
  simp only [hf.envx, curenv_setCurenv, if_neg hbad, deref_some, ok_bind, if_neg hparent]
  split <;> rfl

/-- The first environment forks. -/
theorem FirstEnv.fork {spare : Finset ℕ} (hf : FirstEnv s e d ρ spare)
    (hid : (s.envs e).envId.toNat % 1024 = e) (hslot : s.envFreeList = some c)
    (hq : q ∈ spare) :
    ∃ s' dc id ρ', s.exec (.call e .exofork) = .ok s' ∧ Forked s' e c d dc id ρ' ∧
      ∀ f ∈ spare, f ≠ dc → ρ' f = .free := by
  have hs := hf.settled.setCurenv (some e)
  have hc := curenv_setCurenv s (some e)
  obtain ⟨p, hl⟩ := hs.ledger.typed.free.exists_head (hf.free q hq)
  obtain ⟨hopen, -⟩ := hs.openEnv (Q := fun _ => True) hslot hl (s.envs e).envId
  obtain ⟨hclt, hnl⟩ := hs.layout.not_live_of_head hslot
  have hne : c ≠ e := by
    rintro rfl
    exact hnl hf.live
  have hrun := hs.sysExofork_of_free hc hslot hl
  have hsame := sameSlots_fork (s.setCurenv (some e)) c p e (s.envs e).envId
  have hlive : Live ((s.setCurenv (some e)).openEnv c p (s.envs e).envId) c :=
    (live_openEnv _ c p _ c).mpr (Or.inl rfl)
  have hset := (hopen.setEnv (Q := fun _ => True) (v := (Write.fork c e).value
    ((s.setCurenv (some e)).openEnv c p (s.envs e).envId).envs) hlive (by simp [Write.value]) rfl
    rfl).1
  have hpar : ((s.setCurenv (some e)).openEnv c p (s.envs e).envId).envs e = s.envs e :=
    openEnv_envs_of_ne _ p _ hne.symm
  have hchild : (((s.setCurenv (some e)).openEnv c p (s.envs e).envId).envs c).envId =
        nextEnvId (s.envs c).envId c ∧
      (((s.setCurenv (some e)).openEnv c p (s.envs e).envId).envs c).envParentId =
        (s.envs e).envId := by
    simp [openEnv, Kernel.setEnv, Kernel.note, setWord, copyFrame, Kernel.incRef, Kernel.takePage,
      setPage, zeroFrame, Kernel.setCurenv, setCpu]
  have hpos := nextEnvId_pos (s.envs c).envId hclt
  refine ⟨_, p, nextEnvId (s.envs c).envId c, _, ?_, ⟨hset, ?_, ?_, hne, ?_, ?_, ?_, ?_, ?_, ?_⟩, ?_⟩
  · rw [exec, handle, returning_ok hrun]
    rfl
  · rw [hsame.dirsOf, dirsOf_openEnv, Function.update_of_ne hne.symm]
    exact hf.dir
  · rw [hsame.dirsOf, dirsOf_openEnv, Function.update_self]
  · simp [Kernel.setEnv, Write.value, hchild.1]
  · simp [Kernel.setEnv, Write.value, hchild.2, hne.symm, hpar]
  · simp only [Kernel.setEnv, Function.update_of_ne hne.symm, hpar]
    intro h0
    rw [h0, hpos.2] at hid
    exact hne hid
  · exact envx_of_mod hpos.2
  · intro h0
    have hlt := hpos.1
    rw [h0] at hlt
    exact absurd hlt (by decide)
  · intro x
    rw [hsame.dirsOf]
    show entryOf ((s.setCurenv (some e)).openEnv c p (s.envs e).envId).phys _ x = none
    rw [entryOf_openEnv hs hslot hl]
    exact hf.entries x
  · intro f hf' hfp
    rw [Function.update_of_ne hfp]
    exact hf.free f hf'

/-- The rights of the page of the child. -/
def readWrite : Word := pteU ||| pteP ||| pteW

theorem toNat_readWrite : readWrite.toNat < 2 ^ 12 := by decide

/-- The only mapping is that of page `p` by the child, at address zero and with write access. -/
structure Allotted (s : Kernel) (e c d dc p : ℕ) (id : Word) (ρ : ℕ → Role) : Prop where
  settled : Settled s ρ
  parent : dirsOf s e = some d
  child : dirsOf s c = some dc
  ne : c ≠ e
  childId : (s.envs c).envId = id
  id_ne : (s.envs e).envId ≠ id
  granted : (s.setCurenv (some e)).envid2env id true = .ok (0, some c)
  page : p < kernWindow
  entries : ∀ x, entryOf s.phys (dirsOf s) x =
    if x = (c, 0) then some (page2pa p ||| readWrite ||| pteP) else none
  spare : ∃ f, ρ f = .free

/-- The parent allocates a page for the child. -/
theorem Forked.allot {dc : ℕ} {id : Word} {spare : Finset ℕ} (hf : Forked s e c d dc id ρ)
    (hfree : ∀ f ∈ spare, ρ f = .free) (hcard : 3 ≤ spare.card) :
    ∃ s' p ρ', s.exec (.call e (.pageAlloc id (pageVa 0) readWrite)) = .ok s' ∧
      Allotted s' e c d dc p id ρ' := by
  have hupn : 0 < upn := by
    rw [upn_eq]
    omega
  obtain ⟨q, hq, r, hr, hqr⟩ := Finset.one_lt_card.mp (show 1 < spare.card by omega)
  obtain ⟨p, s', ρ', hrun, hpw, hs', hm, hent, hfree'⟩ :=
    (hf.settled.setCurenv (some e)).sysPageAlloc_spare (hf.envid2env rfl)
      hf.child (pageVa_lt hupn) (not_unaligned_pageVa hupn)
      (show readWrite &&& (pteU ||| pteP) = pteU ||| pteP by decide) toNat_readWrite (hf.entries _)
      (hfree q hq) (hfree r hr) hqr
  have henvs : s'.envs = s.envs := hm.envs
  have hdirs : dirsOf s' = dirsOf s := hm.sameSlots.dirsOf
  refine ⟨s', p, ρ', ?_, hs', ?_, ?_, hf.ne, ?_, ?_, hf.envid2env henvs, hpw, fun x => ?_, ?_⟩
  · rw [exec, handle, returning_ok hrun]
    rfl
  · rw [hdirs]
    exact hf.parent
  · rw [hdirs]
    exact hf.child
  · rw [henvs]
    exact hf.childId
  · rw [henvs]
    exact hf.id_ne
  · rw [hent, pgnum_pageVa hupn, Function.update_apply]
    show (if x = (c, 0) then _ else entryOf s.phys (dirsOf s) x) = _
    rw [hf.entries x]
  · have hcard₁ := Finset.pred_card_le_card_erase (s := spare) (a := p)
    have hcard₂ := Finset.pred_card_le_card_erase (s := spare.erase p)
      (a := frame (s'.phys dc (pdx (pageVa 0))))
    obtain ⟨f, hmem⟩ := Finset.card_pos.mp (show 0 < ((spare.erase p).erase
      (frame (s'.phys dc (pdx (pageVa 0))))).card by omega)
    rw [Finset.mem_erase, Finset.mem_erase] at hmem
    exact ⟨f, hfree' f (hfree f hmem.2.2) hmem.2.1 hmem.1⟩

/-- A machine with 64 MB reaches such a state. -/
theorem exists_allotted : ∃ s e c d dc p id ρ, Reached machine64 s ∧
    Allotted s e c d dc p id ρ := by
  obtain ⟨s₀, hboot⟩ := machine64_boots
  obtain ⟨s, e, d, ρ, spare, hexec, hfirst, hcard⟩ := firstEnv_of_bootUp hboot
  have hlen := length_allocatable_machine64
  obtain ⟨hid, c, hslot⟩ := slots_of_firstEnv hboot hexec hfirst.settled hfirst.live
  obtain ⟨q, hq⟩ := Finset.card_pos.mp (show 0 < spare.card by omega)
  obtain ⟨s₁, dc, id, ρ₁, hfork, hf, hfree₁⟩ := hfirst.fork hid hslot hq
  have hcard₁ := Finset.pred_card_le_card_erase (s := spare) (a := dc)
  have hspare : ∀ f ∈ spare.erase dc, ρ₁ f = .free := by
    intro f hf'
    rw [Finset.mem_erase] at hf'
    exact hfree₁ f hf'.2 hf'.1
  obtain ⟨s₂, p, ρ₂, halloc, h₂⟩ := hf.allot hspare (by omega)
  obtain ⟨ρ₀, hset₀, -, -⟩ := settled_of_bootUp hboot
  have hopen : Modest s₀ (.envAlloc 0#32) :=
    ⟨by decide, uncrowded_of_no_entry hset₀ (no_entry_of_bootUp hboot)⟩
  have hforks : Modest s (.call e .exofork) :=
    ⟨show 0#32 &&& ~~~ pteSyscall = 0#32 by decide,
      uncrowded_of_no_entry hfirst.settled hfirst.entries⟩
  have hallots : Modest s₁ (.call e (.pageAlloc id (pageVa 0) readWrite)) :=
    ⟨show readWrite &&& ~~~ pteSyscall = 0#32 by decide,
      uncrowded_of_no_entry hf.settled hf.entries⟩
  have hreach : Reached machine64 s :=
    .op (.boot hboot) (show Issuable s₀ (.envAlloc 0#32) from trivial) hopen hexec
  have hreach₁ : Reached machine64 s₁ :=
    .op hreach (show Issuable s (.call e .exofork) from ⟨hfirst.live, rfl⟩) hforks hfork
  have hreach₂ : Reached machine64 s₂ :=
    .op hreach₁ (show Issuable s₁ (.call e (.pageAlloc id (pageVa 0) readWrite)) from
      ⟨live_of_dirsOf hf.parent, rfl⟩) hallots halloc
  exact ⟨s₂, e, c, d, dc, p, id, ρ₂, hreach₂, h₂⟩

/-- The parent maps the page of the child at address zero of its own. -/
theorem Allotted.pull {dc : ℕ} {id : Word} (ha : Allotted s e c d dc p id ρ) :
    ∃ s', s.exec (.call e (.pageMap id (pageVa 0) 0#32 (pageVa 0) readWrite)) = .ok s' ∧
      s'.envs = s.envs ∧
      entryOf s'.phys (dirsOf s') (e, 0) = some (page2pa p ||| readWrite ||| pteP) := by
  have hupn : 0 < upn := by
    rw [upn_eq]
    omega
  have hsrc := ha.entries (c, 0)
  rw [if_pos rfl] at hsrc
  have hdst := ha.entries (e, 0)
  rw [if_neg fun h0 => ha.ne (Prod.ext_iff.mp h0).1.symm] at hdst
  obtain ⟨f, hfree⟩ := ha.spare
  obtain ⟨s', ρ', hrun, -, hm, hins⟩ := (ha.settled.setCurenv (some e)).sysPageMap_spare
    ha.granted (envid2env_zero s e true)
    ha.child ha.parent (pageVa_lt hupn) (not_unaligned_pageVa hupn) (pageVa_lt hupn)
    (not_unaligned_pageVa hupn) (show readWrite &&& (pteU ||| pteP) = pteU ||| pteP by decide)
    toNat_readWrite (by rw [pgnum_pageVa hupn]; exact hsrc)
    (fun _ => has_entry (by decide))
    (by rw [pgnum_pageVa hupn]; exact hdst) hfree
  rw [frame_entry ha.page toNat_readWrite] at hins
  refine ⟨s', ?_, hm.envs, ?_⟩
  · rw [exec, handle, returning_ok hrun]
    rfl
  · rw [hm.sameSlots.dirsOf, hins.entries, pgnum_pageVa hupn, Function.update_self]

/-- **That members make the copies is not enough.**  The first environment forks, allocates a
page for the child, and maps the page that it could not write to at an address of its own. -/
theorem not_copiedByMembers_enough : ¬ ∀ (h : Hardware) (S : Set Word) (p : ℕ) (s s' : Kernel),
    Reached h s → Trace (fun s op => Modest s op ∧ CopiedByMembers S p s op) s s' →
    ¬ WritableIn S s p → ¬ WritableIn S s' p := by
  intro hall
  obtain ⟨s, e, c, d, dc, p, id, ρ, hreach, ha⟩ := exists_allotted
  obtain ⟨s', hexec, henvs, hpulled⟩ := ha.pull
  have hone : ∀ z w, entryOf s.phys (dirsOf s) z = some w → z = (c, 0) := by
    intro z w hw
    rw [ha.entries z] at hw
    split at hw
    · assumption
    · cases hw
  have hchild := ha.entries (c, 0)
  rw [if_pos rfl] at hchild
  have hframe := frame_entry ha.page toNat_readWrite
  have hnotfree : ¬ s.InFreeList p := by
    have h0 := ha.settled.not_inFreeList hchild
    rwa [hframe] at h0
  have hcrowd : Uncrowded s := uncrowded_of_refCount_le ha.settled (refCount_le_one hone)
  have hK : Modest s (.call e (.pageMap id (pageVa 0) 0#32 (pageVa 0) readWrite)) ∧
      CopiedByMembers {(s.envs e).envId} p s
        (.call e (.pageMap id (pageVa 0) 0#32 (pageVa 0) readWrite)) := by
    refine ⟨⟨show readWrite &&& ~~~ pteSyscall = 0#32 by decide, hcrowd⟩, hnotfree, ?_⟩
    rintro c' x hop e' r w - - -
    obtain ⟨rfl, -⟩ := MemOp.call.inj hop
    rfl
  refine hall machine64 {(s.envs e).envId} p s s' hreach
    (.op .refl (show Issuable s (.call e (.pageMap id (pageVa 0) 0#32 (pageVa 0) readWrite)) from
      ⟨live_of_dirsOf ha.parent, rfl⟩) hK hexec) ?_ ?_
  · -- the only mapping is that of the child, which is no member
    rintro ⟨e', vpn, w, hS, hw, -, -⟩
    obtain ⟨rfl, -⟩ := Prod.mk.inj (hone _ _ hw)
    exact ha.id_ne (hS.symm.trans ha.childId)
  · refine ⟨e, 0, _, ?_, hpulled, hframe, ?_⟩
    · rw [henvs]
      rfl
    · exact has_entry (by decide)

end Kernel
end PmakeOs
