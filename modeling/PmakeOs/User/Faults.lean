import PmakeOs.Sched.RoundRobin
import PmakeOs.Trap.PageFault
import PmakeOs.User.Complete

/-!
# How a write that faults gets to `pgfault`

`trap` branches to the upcall of an environment if it has one and may write to its exception
stack (`Armed`).  In all other cases it destroys the environment, and what it enters then is
another one, or none.

* `Caller.writeFault` --- only a fault of an armed environment comes back, and what has changed
  then is the exception stack (`Delivered`);
* `Caller.writeFault_ok` --- and the fault of an armed environment does come back.
-/

namespace PmakeOs

open Lib Kernel

variable {s s' : Kernel} {ρ : ℕ → Role} {c d f k p : ℕ} {va w : Word} {tf : Trapframe}

namespace Kernel

theorem setCurenv_self (hc : s.curenv = some c) : s.setCurenv (some c) = s := by
  have hcpu : { s.thiscpu with cpuEnv := some c } = s.thiscpu := by
    rw [← hc]
    rfl
  unfold setCurenv setCpu
  rw [hcpu, thiscpu, Function.update_eq_self]

/-- `sched_yield` does not pick a slot that is free. -/
theorem curenv_of_schedYield (hnone : s.curenv = none) (hfree : (s.envs c).envStatus = .free)
    (h : s.schedYield = .ok s') : s'.curenv ≠ some c := by
  unfold schedYield at h
  cases hpick : s.schedPick with
  | some j =>
    rw [hpick] at h
    rw [curenv_of_envRun h]
    unfold schedPick at hpick
    have hrun := List.find?_some (p := fun e => decide ((s.envs e).envStatus = .runnable)) hpick
    rintro h0
    rw [Option.some.inj h0, hfree] at hrun
    cases hrun
  | none =>
    rw [hpick, hnone] at h
    obtain rfl := Except.ok.inj h
    have hhalt : s.schedHalt.curenv = none := by
      unfold schedHalt
      split
      · exact hnone
      · simp [curenv, thiscpu, setCurenv, setCpu, lcr3, unlockKernel]
    rw [hhalt]
    exact fun h0 => by cases h0

/-- What is entered after `env_free` is another environment. -/
theorem curenv_of_envFree {s₁ : Kernel} (hfree : s.envFree c = .ok s₁)
    (h : (s₁.setCurenv none).schedYield = .ok s') : s'.curenv ≠ some c := by
  refine curenv_of_schedYield (curenv_setCurenv s₁ none) ?_ h
  have hslot := congrFun (freed_of_envFree hfree).slots c
  rw [Function.update_self] at hslot
  exact congrArg Slot.envStatus hslot

/-- `env_destroy` of the current environment. -/
theorem curenv_of_envDestroy {fl : Flow} (hc : s.curenv = some c)
    (h : s.envDestroy c = .ok (fl, s')) : fl = .left ∧ s'.curenv ≠ some c := by
  unfold envDestroy at h
  rw [if_neg fun h0 => h0.2 hc] at h
  obtain ⟨s₁, hfree, h⟩ := bind_eq_ok.mp h
  rw [(freed_of_envFree hfree).passive.cpuEnv, if_pos hc] at h
  obtain ⟨s₂, hyield, h⟩ := bind_eq_ok.mp h
  obtain ⟨rfl, rfl⟩ := Prod.mk.inj (Except.ok.inj h)
  exact ⟨rfl, curenv_of_envFree hfree hyield⟩

/-- What the processor finds of a page below `UTOP`. -/
theorem Sound.walk_of_entry (hs : Settled s ρ) (hd : dirsOf s c = some d)
    (hw : entryOf s.phys (dirsOf s) (c, k) = some w) :
    mmuWalk s.phys d k = some ⟨frame w, decide (Has w pteU), decide (Has w pteW)⟩ := by
  obtain ⟨hk, d', hd', hp, -⟩ := exists_of_entryOf hw
  rw [hd] at hd'
  obtain rfl := Option.some.inj hd'
  obtain ⟨hU, hW⟩ := hs.layout.wide hd (index_lt hk) hp
  rw [mmuWalk_eq, userPte_eq hd hk, hw, Option.map_some]
  simp only [hU, hW, true_and]

theorem walk_of_no_entry (hd : dirsOf s c = some d) (hk : k < upn)
    (hw : entryOf s.phys (dirsOf s) (c, k) = none) : mmuWalk s.phys d k = none := by
  rw [mmuWalk_eq, userPte_eq hd hk, hw, Option.map_none]

/-- The pages that a `struct UTrapframe` may be in are above the stack of the program. -/
theorem ustackPages_le_pgnum (esp : Word) (hk : k < 56) :
    User.ustackPages ≤ pgnum (utrapframeAddr esp + BitVec.ofNat 32 k) := by
  obtain ⟨top, heq, -, hlo, -⟩ := utrapframeAddr_eq esp
  have hux : uxstacktop.toNat = 955 * 2 ^ 22 := toNat_utop
  have hu : User.ustackPages = 955 * 2 ^ 10 - 2 := by decide
  rw [pgnum_eq, heq, toNat_frame_add hlo hk, hu]
  rw [hux, pgsize] at hlo
  omega

/-- For a program that is not on its exception stack the frame is at the end of that stack. -/
theorem pgnum_frame_of_stack {esp : Word}
    (hesp : ¬ (uxstacktop - BitVec.ofNat 32 pgsize < esp ∧ esp < uxstacktop)) (hk : k < 56) :
    pgnum (utrapframeAddr esp + BitVec.ofNat 32 k) = User.uxstackPage := by
  have haddr : utrapframeAddr esp = uxstacktop - 56#32 := by
    unfold utrapframeAddr
    rw [if_neg hesp]
  have hux : uxstacktop.toNat = 955 * 2 ^ 22 := toNat_utop
  have hpage : User.uxstackPage = 955 * 2 ^ 10 - 1 := by decide
  rw [haddr, pgnum_eq, toNat_frame_add (by decide) hk, hpage]
  omega

end Kernel

namespace User

/-- A fault of environment `c` with the registers `tf` gets to the upcall. -/
structure Armed (s : Kernel) (c : ℕ) (tf : Trapframe) : Prop where
  alive : (s.envs c).envStatus ≠ .dying
  upcall : (s.envs c).envPgfaultUpcall ≠ 0#32
  /-- User mode may write to the place of the frame, and of the word above it. -/
  stack : ∀ k < 56,
    UserWritable s.phys s.thiscpu.cr3 (utrapframeAddr tf.tfEsp + BitVec.ofNat 32 k)

/-- A program that is not on its exception stack needs that page. -/
theorem stack_of_entry (hs : Settled s ρ) (hd : dirsOf s c = some s.thiscpu.cr3)
    (hesp : ¬ (uxstacktop - BitVec.ofNat 32 pgsize < tf.tfEsp ∧ tf.tfEsp < uxstacktop))
    (hw : entryOf s.phys (dirsOf s) (c, uxstackPage) = some w) (hU : Has w pteU)
    (hW : Has w pteW) :
    ∀ k < 56, UserWritable s.phys s.thiscpu.cr3 (utrapframeAddr tf.tfEsp + BitVec.ofNat 32 k) := by
  intro k hk
  have hwalk := hs.walk_of_entry hd hw
  rw [← pgnum_frame_of_stack hesp hk] at hwalk
  exact ⟨pgnum_frame_lt _ hk, _, hwalk, decide_eq_true hU, decide_eq_true hW⟩

/-- The program is at its upcall: it has been entered again, and of the pages that are mapped
those of its exception stack may have changed. -/
structure Delivered (s s' : Kernel) (c : ℕ) : Prop where
  aloof : Aloof s s'
  curenv : s'.curenv = some c
  cr3 : s'.thiscpu.cr3 = s.thiscpu.cr3
  words : ∀ f, s'.phys f = s.phys f ∨ ∃ k w, ustackPages ≤ k ∧
    entryOf s.phys (dirsOf s) (c, k) = some w ∧ Has w pteW ∧ frame w = f

theorem delivered_of_branched (hc : Caller s ρ c) (h : Branched s s' c s.thiscpu.cr3 va) :
    Delivered s s' c := by
  have hwords : ∀ f, s'.phys f = s.phys f ∨ ∃ k w, ustackPages ≤ k ∧
      entryOf s.phys (dirsOf s) (c, k) = some w ∧ Has w pteW ∧ frame w = f := by
    intro f
    rw [h.phys]
    by_cases hf : ∃ k < 52, ∃ o, place s.phys s.thiscpu.cr3
        (utrapframeAddr (s.envs c).envTf.tfEsp + BitVec.ofNat 32 k) = some (f, o)
    · -- a byte of the frame is in `f`, which user mode may write
      obtain ⟨k, hk, o, hplace⟩ := hf
      have hk' : k < 56 := hk.trans (by decide)
      obtain ⟨hlt, t, ht, -, hwr⟩ := h.writable k hk'
      rw [place_of_walk ht] at hplace
      obtain ⟨rfl, -⟩ := Prod.mk.inj (Option.some.inj hplace)
      rw [Kernel.mmuWalk_eq, userPte_eq hc.loaded hlt] at ht
      obtain ⟨w, hw, rfl⟩ := Option.map_eq_some_iff.mp ht
      exact Or.inr ⟨_, w, ustackPages_le_pgnum _ hk', hw, (of_decide_eq_true hwr).2, rfl⟩
    · refine Or.inl (PmakeOs.putBytes_frame fun k hk o hplace => hf ⟨k, hk, o, hplace⟩)
  refine ⟨⟨h.npages, h.pages, h.pageFreeList, h.kernPgdir, h.slots, fun f hf => ?_⟩, h.curenv,
    h.cr3, hwords⟩
  refine (hwords f).resolve_right ?_
  rintro ⟨k, w, -, hw, -, rfl⟩
  exact hf (c, k) (by rw [hw, Option.map_some])

section Trapped

variable (hc : Caller s ρ c)

include hc

/-- **`page_fault_handler`** goes to the upcall, or to something else. -/
theorem Caller.pageFaultHandler {fl : Flow} (hrun : s.pageFaultHandler va = .ok (fl, s')) :
    fl = .left ∧ (s'.curenv ≠ some c ∨
      (s.envs c).envPgfaultUpcall ≠ 0#32 ∧ Branched s s' c s.thiscpu.cr3 va) := by
  by_cases huser : (s.envs c).envTf.tfCs &&& 3#16 = 0#16
  · unfold Kernel.pageFaultHandler at hrun
    rw [hc.curenv, deref_some, ok_bind, if_pos huser] at hrun
    cases hrun
  by_cases hup : (s.envs c).envPgfaultUpcall = 0#32
  · unfold Kernel.pageFaultHandler at hrun
    rw [hc.curenv, deref_some, ok_bind, if_neg huser, if_neg (not_not.mpr hup)] at hrun
    obtain ⟨hfl, hcur⟩ := curenv_of_envDestroy hc.curenv hrun
    exact ⟨hfl, Or.inl hcur⟩
  have hs : Spaces s ρ := ⟨hc.settled.ledger.typed, fun _ _ _ hd => hc.settled.layout.wide hd⟩
  have hf : Faulting s c s.thiscpu.cr3 := ⟨hc.curenv, hc.loaded, rfl, huser, hup⟩
  rcases destroyed_or_admitted hs hf va with ⟨x, -, hdest⟩ | hadm
  · rw [hdest] at hrun
    obtain ⟨hfl, hcur⟩ :=
      curenv_of_envDestroy (s := { s with userMemCheckAddr := x }) hc.curenv hrun
    exact ⟨hfl, Or.inl hcur⟩
  · obtain ⟨s₁, hrun', hbr⟩ := hadm.branched hs hf va
    obtain ⟨rfl, rfl⟩ := Prod.mk.inj (Except.ok.inj (hrun'.symm.trans hrun))
    exact ⟨rfl, Or.inr ⟨hup, hbr⟩⟩

/-- In `trap`, with the frame saved. -/
theorem Caller.savedFrame (tf : Trapframe) : Caller (s.savedFrame c tf) ρ c :=
  hc.of_same (.savedFrame s c tf) rfl

/-- **A fault that comes back** is one of an armed environment, and has changed nothing but its
exception stack. -/
theorem Caller.writeFault (hrun : User.writeFault s tf va = .ok s') :
    Armed s c tf ∧ Delivered s s' c := by
  unfold User.writeFault at hrun
  split at hrun
  · cases hrun
  rename_i s₁ htrap
  split at hrun
  swap
  · cases hrun
  rename_i hsame
  obtain rfl := Except.ok.inj hrun
  have hcur := hsame.trans hc.curenv
  by_cases hdy : (s.envs c).envStatus = .dying
  · rw [trap_of_dying hc.curenv hdy] at htrap
    obtain ⟨s₂, hfree, hyield⟩ := bind_eq_ok.mp htrap
    exact absurd hcur (curenv_of_envFree hfree hyield)
  obtain ⟨fl, s₂, hdisp, hend⟩ := trap_of_vital hc.curenv hdy htrap
  generalize htf : { tf with tfErr := writeErr s va } = tf' at hdisp
  have hself : (s.savedFrame c tf').envs c = { s.envs c with envTf := tf' } :=
    Function.update_self c _ s.envs
  obtain ⟨rfl, hbr⟩ := (hc.savedFrame tf').pageFaultHandler hdisp
  obtain rfl : s₁ = s₂ := by
    rcases hend with ⟨-, h0⟩ | ⟨r, -, h0, -⟩
    · exact h0
    · cases h0
  obtain ⟨hup, hbr⟩ := hbr.resolve_left (not_not.mpr hcur)
  have hdel := delivered_of_branched (hc.savedFrame tf') hbr
  rw [hself] at hup
  have hwritable := hbr.writable
  rw [hself] at hwritable
  subst htf
  refine ⟨⟨hdy, hup, hwritable⟩, ?_⟩
  have hsaved := SameSpaces.savedFrame s c { tf with tfErr := writeErr s va }
  obtain ⟨ha, -, hcr, hwords⟩ := hdel
  have hold := ha.words
  rw [hsaved.entries] at hold hwords
  exact ⟨⟨ha.npages, ha.pages, ha.pageFreeList, ha.kernPgdir, hsaved.slots.trans ha.slots, hold⟩,
    hcur, hcr, hwords⟩

/-- **The fault of an armed environment** in user mode comes back. -/
theorem Caller.writeFault_ok (harmed : Armed s c tf) (huser : tf.tfCs &&& 3#16 ≠ 0#16) (va : Word) :
    ∃ s', User.writeFault s tf va = .ok s' := by
  have hself : (s.savedFrame c { tf with tfErr := writeErr s va }).envs c =
      { s.envs c with envTf := { tf with tfErr := writeErr s va } } :=
    Function.update_self c _ s.envs
  have hsaved := hc.savedFrame { tf with tfErr := writeErr s va }
  have hs : Spaces (s.savedFrame c { tf with tfErr := writeErr s va }) ρ :=
    ⟨hsaved.settled.ledger.typed, fun _ _ _ hd => hsaved.settled.layout.wide hd⟩
  have hf : Faulting (s.savedFrame c { tf with tfErr := writeErr s va }) c s.thiscpu.cr3 := by
    refine ⟨hc.curenv, hsaved.loaded, rfl, ?_, ?_⟩
    · rw [hself]
      exact huser
    · rw [hself]
      exact harmed.upcall
  have hadm := admitted_of_writable hs hf (by rw [hself]; exact harmed.stack)
  obtain ⟨s', hrun, hbr⟩ := hadm.branched hs hf va
  have htrap : s.trap { tf with tfErr := writeErr s va } (.pageFault va) = .ok s' := by
    unfold trap
    rw [hc.curenv, deref_some, ok_bind, if_neg harmed.alive]
    exact congrArg (fun r => r >>= _) hrun
  refine ⟨s', ?_⟩
  unfold User.writeFault
  rw [htrap]
  exact if_pos (hbr.curenv.trans hc.curenv.symm)

/-- The program goes on at its upcall. -/
theorem Delivered.caller (h : Delivered s s' c) : Caller s' ρ c := by
  have hent := hc.settled.entryOf_aloof h.aloof
  refine ⟨hc.settled.aloof h.aloof, h.curenv, ?_, fun q => ?_⟩
  · rw [h.aloof.slots.dirsOf, h.cr3]
    exact hc.loaded
  · rw [refCount_of_entryOf_eq hent]
    exact hc.light q

end Trapped

end User
end PmakeOs
