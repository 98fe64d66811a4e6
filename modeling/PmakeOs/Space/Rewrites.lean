import PmakeOs.Space.Passages
import PmakeOs.Space.Walks

/-!
# The page that a call rewrites

A call whose checks pass leaves one page of one environment with a new translation, or with
none (`Rewrites`); `env_free` does away with a whole address space (`Frees`).  Everything else
that a kernel entry does to address spaces leaves what a processor finds there as it is.

* `Sound.keeps_of_handle` --- one call;
* `Sound.entry` --- one entry, which also leaves a sound state.
-/

namespace PmakeOs

open Lib

namespace Kernel

variable {s s' : Kernel} {ρ : ℕ → Role} {pend W : ℕ → Prop} {C : ℕ → ℕ → Prop}
  {c d e r p pp : ℕ} {va perm : Word} {x : Entry} {y : Syscall} {fl : Flow}

/-- The checks of the call pass, and page `va` of environment `e` is left with the
translation `o`, if the page is present. -/
inductive Rewrites (s : Kernel) : Syscall → ℕ → Word → Option Translation → Prop
  | pageAlloc {e p : ℕ} {envid va perm : Word} (he : s.envid2env envid true = .ok (0, some e))
      (hva : va < utop) (hal : ¬ Unaligned va) (hperm : perm &&& (pteU ||| pteP) = pteU ||| pteP)
      (hl : s.pageFreeList = some p) :
      Rewrites s (.pageAlloc envid va perm) e va (some (translationOf p perm))
  | pageMap {r e : ℕ} {srcenvid srcva dstenvid dstva perm w : Word}
      (hr : s.envid2env srcenvid true = .ok (0, some r))
      (he : s.envid2env dstenvid true = .ok (0, some e)) (hsva : srcva < utop)
      (hdva : dstva < utop) (hsal : ¬ Unaligned srcva) (hdal : ¬ Unaligned dstva)
      (hw : entryOf s.phys (dirsOf s) (r, pgnum srcva) = some w)
      (hperm : perm &&& (pteU ||| pteP) = pteU ||| pteP) (hright : Has perm pteW → Has w pteW) :
      Rewrites s (.pageMap srcenvid srcva dstenvid dstva perm) e dstva
        (some (translationOf (frame w) perm))
  | pageUnmap {e : ℕ} {envid va : Word} (he : s.envid2env envid true = .ok (0, some e))
      (hva : va < utop) (hal : ¬ Unaligned va) : Rewrites s (.pageUnmap envid va) e va none
  | ipcTrySend {e r : ℕ} {envid value srcva perm w : Word} {stale : Option Word}
      (hc : s.curenv = some r) (he : s.envid2env envid false = .ok (0, some e))
      (hrecv : (s.envs e).envIpcRecving = true) (hsva : srcva < utop) (hsal : ¬ Unaligned srcva)
      (hdva : (s.envs e).envIpcDstva < utop)
      (hw : entryOf s.phys (dirsOf s) (r, pgnum srcva) = some w)
      (hperm : w &&& perm &&& 7#32 = perm &&& 7#32) (hright : Has perm pteW → Has w pteW) :
      Rewrites s (.ipcTrySend envid value srcva perm stale) e (s.envs e).envIpcDstva
        (some (translationOf (frame w) perm))

/-- No page in `C` of an environment in `W` gets another translation. -/
def Undisturbed (W : ℕ → Prop) (C : ℕ → ℕ → Prop) (s : Kernel) (y : Syscall) : Prop :=
  ∀ e va o, Rewrites s y e va o → W e → C e (pgnum va) → ∀ d t, dirsOf s e = some d →
    mmuWalk s.phys d (pgnum va) = some t → o = some t

/-! ## One call -/

theorem Sound.keeps_of_pageInsert {ret : ℤ} (hs : Sound s ρ pend) (hd : dirsOf s e = some d)
    (hva : va < utop) (hpp : ρ pp = .data) (hperm : perm.toNat < 2 ^ 12) (hb : Droppable s e va)
    (hrun : s.pageInsert d pp va perm = .ok (ret, s'))
    (hW : W e → C e (pgnum va) → ∀ t, mmuWalk s.phys d (pgnum va) = some t →
      t = translationOf pp perm) : Keeps W C s s' := by
  have hm := memoryOnly_of_pageInsert hrun
  have hcount : ∀ w, entryOf s.phys (dirsOf s) (e, pgnum va) = some w →
      refCount s.phys (dirsOf s) (frame w) + 0 < 2 ^ 16 := by
    intro w hw
    rw [Nat.add_zero]
    exact hb w hw
  rcases hs.ledger.pageInsert hd hva hpp hperm hcount with ⟨-, -, hrun'⟩ | ⟨s₁, ρ₁, hrun', -, hins⟩
  · obtain ⟨-, rfl⟩ := Prod.mk.inj (Except.ok.inj (hrun'.symm.trans hrun))
    exact .refl s
  · obtain ⟨-, rfl⟩ := Prod.mk.inj (Except.ok.inj (hrun'.symm.trans hrun))
    have hpw : pp < kernWindow := hs.ledger.typed.lt_kernWindow (by rw [hpp]; simp)
    exact hins.keeps hs hd hva hpw hperm hm hW

/-- **`sys_page_map`.** -/
theorem Sound.keeps_of_sysPageMap {srcenvid srcva dstenvid dstva : Word} {ret : ℤ}
    (hs : Settled s ρ) (hc : s.curenv = some c) (hlive : Live s c) (hperm : perm.toNat < 2 ^ 12)
    (hb : ∀ e, s.envid2env dstenvid true = .ok (0, some e) → Droppable s e dstva)
    (hsp : Undisturbed W C s (.pageMap srcenvid srcva dstenvid dstva perm))
    (hrun : s.sysPageMap srcenvid srcva dstenvid dstva perm = .ok (ret, s')) :
    Keeps W C s s' := by
  rcases sysPageMap_outcome hrun with ⟨-, rfl⟩ | ⟨r, e, rd, d, pg, t, j, hr, he, hsva, hdva, hsal,
    hdal, hrd, hlook, hbits, hright, hd, hins⟩
  · exact .refl s'
  have hrd' := dirsOf_of_pgdir (granted_of_envid2env hc hlive hr).1 hrd
  have hd' := dirsOf_of_pgdir (granted_of_envid2env hc hlive he).1 hd
  obtain ⟨w, rfl, hpte, hdata, hw⟩ := hs.ledger.typed.of_pageLookup hrd' hsva hlook
  rw [hpte] at hright
  refine hs.keeps_of_pageInsert hd' hdva hdata hperm (hb e he) hins fun hW hC t ht => ?_
  have hmap := hsp e dstva _ (.pageMap hr he hsva hdva hsal hdal hw hbits hright) hW hC d t hd' ht
  exact (Option.some.inj hmap).symm

/-- **`sys_page_alloc`.** -/
theorem Sound.keeps_of_sysPageAlloc {envid : Word} {ret : ℤ} (hs : Settled s ρ)
    (hc : s.curenv = some c) (hlive : Live s c) (hperm : perm.toNat < 2 ^ 12)
    (hb : ∀ e, s.envid2env envid true = .ok (0, some e) → Droppable s e va)
    (hsp : Undisturbed W C s (.pageAlloc envid va perm))
    (hrun : s.sysPageAlloc envid va perm = .ok (ret, s')) : Keeps W C s s' := by
  rcases sysPageAlloc_outcome hrun with ⟨-, rfl⟩ |
    ⟨e, d, p, s₁, ret', s₂, he, hva, hal, hbits, halloc, hd, hins, hend⟩
  · exact .refl s'
  obtain ⟨hl, rfl⟩ := hs.ledger.typed.eq_of_pageAlloc halloc
  have hd' : dirsOf s e = some d := dirsOf_of_pgdir (granted_of_envid2env hc hlive he).1 hd
  have htake := hs.keeps_of_takeUserPage (W := W) (C := C) hl
  obtain ⟨h₁, -⟩ := hs.takeUserPage (Q := fun _ => True) hl
  have hb₁ : Droppable ((s.takePage p).note (.userPage p)) e va := by
    have hent : entryOf ((s.takePage p).note (.userPage p)).phys (dirsOf s) =
        entryOf s.phys (dirsOf s) :=
      hs.ledger.typed.tree.entryOf_takePage (hs.ledger.typed.free.role_of_head hl)
    intro w hw
    have hdirs : dirsOf ((s.takePage p).note (.userPage p)) = dirsOf s := rfl
    rw [hdirs, hent] at hw
    rw [hdirs, refCount_of_entryOf_eq hent]
    exact hb e he w hw
  have hinsert : Keeps W C ((s.takePage p).note (.userPage p)) s₂ := by
    refine h₁.keeps_of_pageInsert hd' hva (Function.update_self p .data ρ) hperm hb₁ hins
      fun hW hC t ht => ?_
    rw [hs.walk_takeUserPage hl hd' ((pgnum_lt_upn hva).trans (by decide))] at ht
    have hmap := hsp e va _ (.pageAlloc he hva hal hbits hl) hW hC d t hd' ht
    exact (Option.some.inj hmap).symm
  rcases hend with ⟨-, -, rfl⟩ | ⟨-, -, hfree⟩
  · exact htake.trans hinsert
  · exact (htake.trans hinsert).trans
      (.of_eq (memoryOnly_of_pageFree hfree).sameSlots.dirsOf (phys_of_pageFree hfree))

/-- **`sys_page_unmap`.** -/
theorem Sound.keeps_of_sysPageUnmap {envid : Word} {ret : ℤ} (hs : Settled s ρ)
    (hc : s.curenv = some c) (hlive : Live s c)
    (hb : ∀ e, s.envid2env envid true = .ok (0, some e) → Droppable s e va)
    (hsp : Undisturbed W C s (.pageUnmap envid va))
    (hrun : s.sysPageUnmap envid va = .ok (ret, s')) : Keeps W C s s' := by
  rcases sysPageUnmap_outcome hrun with ⟨-, rfl⟩ | ⟨e, d, he, hva, hal, hd, hrem, -⟩
  · exact .refl s'
  have hd' := dirsOf_of_pgdir (granted_of_envid2env hc hlive he).1 hd
  obtain ⟨s₁, ρ₁, hrem', -, hm, hremoved, -⟩ := hs.pageRemove (Q := fun _ => True) hd' hva
    (fun w hw => (hb e he w hw).le) fun _ => trivial
  obtain rfl := Except.ok.inj (hrem'.symm.trans hrem)
  refine hremoved.keeps hs hd' hm fun hW hC => ?_
  -- no translation is the right one for a page that is about to be removed
  by_contra hsome
  obtain ⟨t, ht⟩ := Option.ne_none_iff_exists'.mp hsome
  exact nomatch hsp e va none (.pageUnmap he hva hal) hW hC d t hd' ht

/-- **`sys_ipc_try_send`.** -/
theorem Sound.keeps_of_sysIpcTrySend {envid value srcva : Word} {stale : Option Word} {ret : ℤ}
    (hs : Settled s ρ) (hc : s.curenv = some c) (hlive : Live s c) (hperm : perm.toNat < 2 ^ 12)
    (hb : ∀ e, s.envid2env envid false = .ok (0, some e) → Droppable s e (s.envs e).envIpcDstva)
    (hsp : Undisturbed W C s (.ipcTrySend envid value srcva perm stale))
    (hrun : s.sysIpcTrySend envid value srcva perm stale = .ok (ret, s')) : Keeps W C s s' := by
  rcases sysIpcTrySend_outcome hrun with ⟨-, rfl⟩ | ⟨e, c', s₁, he, hrecv, hc', htr, hend⟩
  · exact .refl s'
  obtain rfl := Option.some.inj (hc.symm.trans hc')
  have hle : Live s e := live_of_send hc hlive he
  have htransfer : Keeps W C s s₁ ∧ Live s₁ e := by
    rcases ipcTransfer_outcome htr with ⟨-, rfl⟩ |
      ⟨sd, d, pg, t, j, s₂, hsva, hsal, hsd, hlook, hbits, hright, hdva, hd, hins, hend'⟩
    · exact ⟨.refl s₁, hle⟩
    have hsd' := dirsOf_of_pgdir hlive hsd
    have hd' := dirsOf_of_pgdir hle hd
    obtain ⟨w, rfl, hpte, hdata, hw⟩ := hs.ledger.typed.of_pageLookup hsd' hsva hlook
    rw [hpte] at hbits hright
    have hinsert : Keeps W C s s₂ := by
      refine hs.keeps_of_pageInsert hd' hdva hdata hperm (hb e he) hins fun hW hC t ht => ?_
      have hmap := hsp e _ _ (.ipcTrySend hc he hrecv hsva hsal hdva hw hbits hright) hW hC d t
        hd' ht
      exact (Option.some.inj hmap).symm
    have hl₂ : Live s₂ e := ((memoryOnly_of_pageInsert hins).sameSlots.live_iff e).mpr hle
    rcases hend' with ⟨-, rfl⟩ | ⟨-, rfl⟩
    · exact ⟨hinsert, hl₂⟩
    · have hslots : SameSlots s₂ (s₂.setEnv e { s₂.envs e with envIpcPerm := perm }) :=
        sameSlots_setEnv Iff.rfl rfl rfl
      exact ⟨hinsert.trans (.of_eq hslots.dirsOf rfl), (hslots.live_iff e).mpr hl₂⟩
  obtain ⟨hkeeps, hl₁⟩ := htransfer
  rcases hend with ⟨-, rfl⟩ | ⟨-, rfl⟩
  · exact hkeeps
  · have hslots : SameSlots s₁ (s₁.setEnv e ((Write.deliver e c value).value s₁.envs)) :=
      sameSlots_setEnv (iff_of_false (by simp [Write.value]) hl₁) rfl rfl
    exact hkeeps.trans (.of_eq hslots.dirsOf rfl)

/-- **`sys_exofork`.** -/
theorem Sound.keeps_of_sysExofork {ret : ℤ} (hs : Settled s ρ) (hc : s.curenv = some c)
    (hrun : s.sysExofork = .ok (ret, s')) : Keeps W C s s' := by
  rcases hs.envAlloc (Q := fun _ => True) (s.envs c).envId with ⟨r, hr, halloc⟩ |
    ⟨e, p, he, hl, -, -, -⟩
  · unfold Kernel.sysExofork at hrun
    rw [hc, deref_some, ok_bind, halloc, ok_bind] at hrun
    dsimp only at hrun
    rw [if_pos hr] at hrun
    obtain ⟨-, rfl⟩ := Prod.mk.inj (Except.ok.inj hrun)
    exact .refl s
  · rw [hs.sysExofork_of_free hc he hl] at hrun
    obtain ⟨-, rfl⟩ := Prod.mk.inj (Except.ok.inj hrun)
    exact (hs.keeps_of_openEnv he hl _).trans
      (.of_eq (sameSlots_fork s e p c (s.envs c).envId).dirsOf rfl)

/-- **Every call that changes address spaces.** -/
theorem Sound.keeps_of_handle (hs : Settled s ρ) (hc : s.curenv = some c) (hlive : Live s c)
    (hy : y.isSpace = true) (hperm : y.perm.toNat < 2 ^ 12)
    (hb : ∀ e va, Target s y e va → Droppable s e va) (hsp : Undisturbed W C s y)
    (hrun : s.handle y = .ok (fl, s')) : Keeps W C s s' := by
  cases y with
  | pageAlloc envid va perm =>
    obtain ⟨ret, -, hrun⟩ := exists_of_returning hrun
    exact hs.keeps_of_sysPageAlloc hc hlive hperm (fun e he => hb e va (.pageAlloc he)) hsp hrun
  | pageMap srcenvid srcva dstenvid dstva perm =>
    obtain ⟨ret, -, hrun⟩ := exists_of_returning hrun
    exact hs.keeps_of_sysPageMap hc hlive hperm (fun e he => hb e dstva (.pageMap he)) hsp hrun
  | pageUnmap envid va =>
    obtain ⟨ret, -, hrun⟩ := exists_of_returning hrun
    exact hs.keeps_of_sysPageUnmap hc hlive (fun e he => hb e va (.pageUnmap he)) hsp hrun
  | ipcTrySend envid value srcva perm stale =>
    obtain ⟨ret, -, hrun⟩ := exists_of_returning hrun
    exact hs.keeps_of_sysIpcTrySend hc hlive hperm (fun e he => hb e _ (.ipcTrySend he)) hsp hrun
  | exofork =>
    obtain ⟨ret, -, hrun⟩ := exists_of_returning hrun
    exact hs.keeps_of_sysExofork hc hrun
  | _ => cases hy

/-! ## One entry -/

/-- The frame of the caller is saved before its call is served. -/
theorem savedFrame_envIpcDstva (s : Kernel) (r : ℕ) (tf : Trapframe) (e : ℕ) :
    ((s.savedFrame r tf).envs e).envIpcDstva = (s.envs e).envIpcDstva := by
  rcases eq_or_ne e r with rfl | hne
  · simp [Kernel.savedFrame, setEnv]
  · simp [Kernel.savedFrame, setEnv, Kernel.note, hne]

theorem Target.of_savedFrame {tf : Trapframe} (h : Target (s.savedFrame r tf) y e va) :
    Target s y e va := by
  have henv := savedFrame_envid2env s r tf
  cases h with
  | pageAlloc h => exact .pageAlloc ((henv ..).symm.trans h)
  | pageMap h => exact .pageMap ((henv ..).symm.trans h)
  | pageUnmap h => exact .pageUnmap ((henv ..).symm.trans h)
  | ipcTrySend h =>
    rw [savedFrame_envIpcDstva]
    exact .ipcTrySend ((henv ..).symm.trans h)

theorem Rewrites.of_savedFrame {tf : Trapframe} {o : Option Translation}
    (h : Rewrites (s.savedFrame r tf) y e va o) : Rewrites s y e va o := by
  have henv := savedFrame_envid2env s r tf
  have hsave := SameSpaces.savedFrame s r tf
  have hent : ∀ x, entryOf (s.savedFrame r tf).phys (dirsOf (s.savedFrame r tf)) x =
      entryOf s.phys (dirsOf s) x := by
    intro x
    rw [hsave.slots.dirsOf, hsave.phys]
  cases h with
  | pageAlloc he hva hal hperm hl => exact .pageAlloc ((henv ..).symm.trans he) hva hal hperm hl
  | pageMap hr he hsva hdva hsal hdal hw hperm hright =>
    exact .pageMap ((henv ..).symm.trans hr) ((henv ..).symm.trans he) hsva hdva hsal hdal
      ((hent _).symm.trans hw) hperm hright
  | pageUnmap he hva hal => exact .pageUnmap ((henv ..).symm.trans he) hva hal
  | ipcTrySend hc he hrecv hsva hsal hdva hw hperm hright =>
    rw [(savedFrame_envs s r tf _).2.2.2] at hrecv
    rw [savedFrame_envIpcDstva] at hdva ⊢
    exact .ipcTrySend hc ((henv ..).symm.trans he) hrecv hsva hsal hdva ((hent _).symm.trans hw)
      hperm hright

theorem Undisturbed.savedFrame (h : Undisturbed W C s y) (r : ℕ) (tf : Trapframe) :
    Undisturbed W C (s.savedFrame r tf) y := by
  have hsave := SameSpaces.savedFrame s r tf
  intro e va o hrw hW hC d t hd ht
  rw [hsave.slots.dirsOf] at hd
  rw [hsave.phys] at ht
  exact h e va o hrw.of_savedFrame hW hC d t hd ht

/-- The entry keeps clear of two other defects: its call has no bit above the flags in `perm`,
and no mapping is taken down of a page that has more than its counter can tell apart. -/
structure Bearable (s : Kernel) (c : ℕ) (x : Entry) : Prop where
  perm : ∀ tf y, x = .trap tf (.syscall y) → y.perm.toNat < 2 ^ 12
  target : ∀ tf y, x = .trap tf (.syscall y) → ∀ e va, Target (s.enter c) y e va → Droppable s e va
  frees : ∀ v, Frees s c x v → ∀ va, Droppable s v va

theorem SameSpaces.droppable {b : Kernel} (h : SameSpaces s b) (hb : Droppable s e va) :
    Droppable b e va := by
  intro w hw
  rw [h.slots.dirsOf, h.phys] at hw ⊢
  exact hb w hw

/-- **One entry** leaves a sound state, and what a processor finds for the pages in `C` of the
environments in `W`, if it frees none of them and rewrites none of those. -/
theorem Sound.entry (hs : Settled s ρ) (hres : Resident s c x) (hx : Bearable s c x)
    (hf : ∀ v, Frees s c x v → ¬ W v)
    (hsp : ∀ tf y, x = .trap tf (.syscall y) → Undisturbed W C (s.enter c) y)
    (h : s.entry c x = .ok s') : (∃ ρ', Settled s' ρ') ∧ Keeps W C s s' := by
  obtain ⟨s₁, s₂, hin, hserve, hout⟩ := passage_of_entry hs hres h
  have hs₁ := hs.aloof hin.aloof
  have hkin : Keeps W C s s₁ := .of_eq hin.slots.dirsOf hin.phys
  have hkout : Keeps W C s₂ s' := .of_eq hout.slots.dirsOf hout.phys
  cases hserve with
  | other ha =>
    exact ⟨⟨ρ, (hs₁.aloof ha).aloof hout.aloof⟩, (hkin.trans (hs₁.keeps_of_aloof ha)).trans hkout⟩
  | free hfree hlive hrun =>
    rename_i v
    have hop : Issuable s₁ (.envFree v) := hlive
    have hexec := hs₁.exec (Q := fun _ => True) hop (by show (0#32).toNat < 2 ^ 12; decide)
      (fun e va ht => by cases ht; exact hin.droppable (hx.frees v hfree va))
      (fun _ _ _ _ => trivial) fun _ _ => trivial
    rcases hexec with herr | ⟨s₃, ρ', hok, hs₂, -⟩
    · exact nomatch herr.symm.trans hrun
    · obtain rfl := Except.ok.inj (hok.symm.trans hrun)
      exact ⟨⟨ρ', hs₂.aloof hout.aloof⟩,
        (hkin.trans (hs₁.keeps_of_envFree hlive hrun (hf v hfree))).trans hkout⟩
  | call hcall he hy hrun =>
    rename_i e tf y fl
    obtain rfl := hcall
    obtain ⟨e', d, he', hd, -⟩ := hres
    obtain rfl := Option.some.inj (he.symm.trans he')
    have hcur : ((s.enter c).savedFrame e tf).curenv = some e := (curenv_enter s c).trans he
    have hlive : Live ((s.enter c).savedFrame e tf) e :=
      (hin.slots.live_iff e).mpr (live_of_dirsOf hd)
    have hb : ∀ e' va, Target ((s.enter c).savedFrame e tf) y e' va →
        Droppable ((s.enter c).savedFrame e tf) e' va := fun e' va ht =>
      hin.droppable (hx.target tf y rfl e' va ht.of_savedFrame)
    have hperm := hx.perm tf y rfl
    rcases hs₁.handle (Q := fun _ => True) hcur hlive hy hperm hb (fun _ _ _ _ => trivial) with
      herr | ⟨r, s₃, ρ', hok, hs₂, -⟩
    · exact nomatch herr.symm.trans hrun
    · obtain ⟨-, rfl⟩ := Prod.mk.inj (Except.ok.inj (hok.symm.trans hrun))
      have hsp' := (hsp tf y rfl).savedFrame e tf
      have hkcall := hs₁.keeps_of_handle hcur hlive hy hperm hb hsp' hrun
      exact ⟨⟨ρ', hs₂.aloof hout.aloof⟩, (hkin.trans hkcall).trans hkout⟩

end Kernel
end PmakeOs
