import PmakeOs.Calls.Writes

/-!
# Where a kernel entry ends

Every entry ends in `env_run` or in `sched_halt` (`Ends`).  A CPU that gives the lock back has
gone to user mode with the environment it has just marked as running there, or it is idle.
If it keeps the lock, it is in the kernel monitor, and its environment is the one it had
before.  No invariant is assumed.
-/

namespace PmakeOs
namespace Kernel

variable {s s' : Kernel} {o : Option ℕ} {x : Entry} {e c : ℕ}

/-- The executing CPU is in the kernel. -/
def Inside (s : Kernel) : Prop := s.kernelLock ≠ none ∧ s.thiscpu.userMode = false

theorem Inside.passive (h : Inside s) (hp : Passive s s') : Inside s' := by
  unfold Inside
  rw [hp.kernelLock, hp.userMode]
  exact h

theorem Inside.drop (h : Inside s) : Inside (s.setCurenv none) := by
  refine ⟨h.1, ?_⟩
  rw [← h.2]
  simp [thiscpu, setCurenv, setCpu]

/-- The last step of an entry of a CPU whose environment was `o`. -/
inductive Ends (o : Option ℕ) : Kernel → Prop
  | run {s s' : Kernel} {e : ℕ} (h : s.envRun e = .ok s') : Ends o s'
  | halt {s : Kernel} (hl : Inside s) (ho : Serving o s) : Ends o s.schedHalt

theorem ends_schedYield (hl : Inside s) (ho : Serving o s)
    (h : s.schedYield = .ok s') : Ends o s' := by
  unfold schedYield at h
  cases hpick : s.schedPick with
  | some j =>
    rw [hpick] at h
    exact .run h
  | none =>
    rw [hpick] at h
    cases hc : s.curenv with
    | none =>
      rw [hc] at h
      obtain rfl := Except.ok.inj h
      exact .halt hl ho
    | some c =>
      rw [hc] at h
      simp only at h
      split at h
      · exact .run h
      · obtain rfl := Except.ok.inj h
        exact .halt hl ho

theorem ends_trapReturn (hl : Inside s) (ho : Serving o s)
    (h : s.trapReturn = .ok s') : Ends o s' := by
  unfold trapReturn at h
  cases hc : s.curenv with
  | none =>
    rw [hc] at h
    exact ends_schedYield hl ho h
  | some c =>
    rw [hc] at h
    simp only at h
    split at h
    · exact .run h
    · exact ends_schedYield hl ho h

theorem ends_envDestroy (hl : Inside s)
    (h : s.envDestroy e = .ok (.left, s')) : Ends o s' := by
  unfold envDestroy at h
  split at h
  · exact nomatch (Prod.mk.inj (Except.ok.inj h)).1
  · obtain ⟨s₁, hfree, h⟩ := bind_eq_ok.mp h
    have hl₁ := (hl.passive (freed_of_envFree hfree).passive).drop
    split at h
    · obtain ⟨s₂, hy, h⟩ := bind_eq_ok.mp h
      obtain ⟨-, rfl⟩ := Prod.mk.inj (Except.ok.inj h)
      exact ends_schedYield hl₁ (serving_drop s₁) hy
    · exact nomatch (Prod.mk.inj (Except.ok.inj h)).1

theorem ends_userMemAssert {va len perm : Word} (hl : Inside s)
    (h : s.userMemAssert e va len perm = .ok (.left, s')) : Ends o s' := by
  unfold userMemAssert at h
  obtain ⟨⟨r, s₁⟩, hchk, h⟩ := bind_eq_ok.mp h
  have hl₁ := hl.passive (memoryOnly_of_userMemCheck hchk).passive
  simp only at h
  split at h
  · exact ends_envDestroy hl₁ h
  · exact nomatch (Prod.mk.inj (Except.ok.inj h)).1

theorem not_left_of_returning {y : Except Panic (ℤ × Kernel)} :
    returning y ≠ .ok (.left, s') := by
  cases y with
  | error p => exact fun h => nomatch h
  | ok v => exact fun h => nomatch (Prod.mk.inj (Except.ok.inj h)).1

theorem ends_handle {y : Syscall} (hl : Inside s) (ho : Serving o s)
    (h : s.handle y = .ok (.left, s')) : Ends o s' := by
  cases y with
  | cputs str len =>
    unfold handle sysCputs at h
    obtain ⟨c, -, h⟩ := bind_eq_ok.mp h
    split at h
    · exact ends_userMemAssert hl h
    · exact nomatch (Prod.mk.inj (Except.ok.inj h)).1
  | cgetc ch => exact nomatch (Prod.mk.inj (Except.ok.inj h)).1
  | envDestroy envid =>
    unfold handle sysEnvDestroy at h
    obtain ⟨⟨ret, oe⟩, -, h⟩ := bind_eq_ok.mp h
    simp only at h
    split at h
    · exact nomatch (Prod.mk.inj (Except.ok.inj h)).1
    obtain ⟨e, -, h⟩ := bind_eq_ok.mp h
    obtain ⟨⟨fl₁, s₁⟩, hd, h⟩ := bind_eq_ok.mp h
    cases fl₁ with
    | left =>
      obtain ⟨-, rfl⟩ := Prod.mk.inj (Except.ok.inj h)
      exact ends_envDestroy hl hd
    | ret r => exact nomatch (Prod.mk.inj (Except.ok.inj h)).1
  | yield =>
    obtain ⟨s₁, hy, h⟩ := bind_eq_ok.mp h
    obtain ⟨-, rfl⟩ := Prod.mk.inj (Except.ok.inj h)
    exact ends_schedYield hl ho hy
  | ipcRecv dstva =>
    have hrecv : s.sysIpcRecv dstva = .ok (.left, s') := h
    clear h
    unfold sysIpcRecv at hrecv
    split at hrecv
    · exact nomatch (Prod.mk.inj (Except.ok.inj hrecv)).1
    · obtain ⟨c, -, h⟩ := bind_eq_ok.mp hrecv
      obtain ⟨s₁, hy, h⟩ := bind_eq_ok.mp h
      obtain ⟨-, rfl⟩ := Prod.mk.inj (Except.ok.inj h)
      refine ends_schedYield ?_ ?_ hy
      · exact hl
      · exact ho.of_eq rfl
  | _ => exact absurd h not_left_of_returning

theorem ends_pageFaultHandler {faultVa : Word} (hl : Inside s)
    (h : s.pageFaultHandler faultVa = .ok (.left, s')) : Ends o s' := by
  unfold pageFaultHandler at h
  obtain ⟨c, -, h⟩ := bind_eq_ok.mp h
  split at h
  · cases h
  split at h
  · unfold faultUpcall at h
    obtain ⟨⟨fl₁, s₁⟩, hassert, h⟩ := bind_eq_ok.mp h
    cases fl₁ with
    | left =>
      obtain ⟨-, rfl⟩ := Prod.mk.inj (Except.ok.inj h)
      exact ends_userMemAssert hl hassert
    | ret r =>
      obtain ⟨s₂, -, h⟩ := bind_eq_ok.mp h
      obtain ⟨s₃, hrun, h⟩ := bind_eq_ok.mp h
      obtain ⟨-, rfl⟩ := Prod.mk.inj (Except.ok.inj h)
      exact .run hrun
  · exact ends_envDestroy hl h

theorem ends_trapDispatch {t : Trap} (hl : Inside s) (ho : Serving o s)
    (h : s.trapDispatch t = .ok (.left, s')) : Ends o s' := by
  cases t with
  | timer =>
    obtain ⟨s₁, hy, h⟩ := bind_eq_ok.mp h
    obtain ⟨-, rfl⟩ := Prod.mk.inj (Except.ok.inj h)
    exact ends_schedYield hl ho hy
  | spurious => exact nomatch (Prod.mk.inj (Except.ok.inj h)).1
  | pageFault faultVa => exact ends_pageFaultHandler hl h
  | fault =>
    obtain ⟨c, -, h⟩ := bind_eq_ok.mp h
    exact ends_envDestroy hl h
  | syscall y => exact ends_handle hl ho h

theorem ends_trap {tf : Trapframe} {t : Trap} (hl : Inside s) (ho : Serving o s)
    (h : s.trap tf t = .ok s') : Ends o s' := by
  unfold trap at h
  obtain ⟨e, he, h⟩ := bind_eq_ok.mp h
  split at h
  · obtain ⟨s₁, hfree, h⟩ := bind_eq_ok.mp h
    have hl₁ := (hl.passive (freed_of_envFree hfree).passive).drop
    exact ends_schedYield hl₁ (serving_drop s₁) h
  · obtain ⟨⟨fl, s₁⟩, hdisp, h⟩ := bind_eq_ok.mp h
    have hl' : Inside (s.savedFrame e tf) := hl
    have ho' : Serving o (s.savedFrame e tf) := ho.of_eq rfl
    cases fl with
    | left =>
      obtain rfl := Except.ok.inj h
      exact ends_trapDispatch hl' ho' hdisp
    | ret r =>
      have hp := passive_of_trapDispatch hdisp
      have hl₁ := hl'.passive hp
      have ho₁ : Serving o s₁ := ho'.of_eq hp.cpuEnv
      cases t with
      | syscall y =>
        have hr : (s₁.setEax e r).trapReturn = .ok s' := h
        have hl₂ : Inside (s₁.setEax e r) := hl₁
        exact ends_trapReturn hl₂ (ho₁.of_eq rfl) hr
      | _ => exact ends_trapReturn hl₁ ho₁ h

/-- **Every kernel entry.** -/
theorem ends_entry (h : s.entry c x = .ok s') : Ends (s.cpus c).cpuEnv s' := by
  have ho := serving_enter s c
  have hl : Inside (s.enter c) := ⟨nofun, by simp [thiscpu, enter, setCpu]⟩
  cases x with
  | schedule => exact ends_schedYield hl ho h
  | trap tf t => exact ends_trap hl ho h

/-! ## The CPU afterwards -/

/-- The environment that is run. -/
theorem self_of_envRun (h : s.envRun e = .ok s') :
    s'.envs e = (Write.run e s.preempt.cpunum).value s.preempt.envs := by
  rw [envRun_eq] at h
  rw [envs_of_resume h]
  exact Write.apply_slot ..

/-- The environment of this CPU is marked as running here; or the CPU has not left, and
the environment has been there all the time. -/
def Settles (o : Option ℕ) (s : Kernel) : Prop :=
  ∀ e, s.curenv = some e →
    ((s.envs e).envStatus = .running ∧ (s.envs e).envCpunum = s.cpunum ∧
      s.thiscpu.userMode = true) ∨
    o = some e ∧ Inside s

theorem settles_envRun (h : s.envRun e = .ok s') : Settles o s' := by
  obtain ⟨d, hran⟩ := ran_of_envRun h
  intro j hj
  have hcur : s'.curenv = some e := hran.cpu.1
  rw [hcur] at hj
  obtain rfl := Option.some.inj hj
  have hself := self_of_envRun h
  rw [envRun_eq] at h
  refine Or.inl ⟨?_, ?_, hran.cpu.2.1⟩
  · rw [hself]
    rfl
  · rw [hself, (stays_of_resume h).cpunum]
    rfl

theorem settles_schedHalt (hl : Inside s) (ho : Serving o s) : Settles o s.schedHalt := by
  unfold schedHalt
  split
  · exact fun e he => Or.inr ⟨ho e he, hl⟩
  · intro e he
    simp [curenv, setCpu, unlockKernel, lcr3, setCurenv, thiscpu] at he

/-- **Every kernel entry settles.** -/
theorem settles_entry (h : s.entry c x = .ok s') : Settles (s.cpus c).cpuEnv s' := by
  cases ends_entry h with
  | run h => exact settles_envRun h
  | halt hl ho => exact settles_schedHalt hl ho

/-- A CPU that is in user mode has loaded the directory of its environment just now. -/
def Arrives (s : Kernel) : Prop :=
  s.thiscpu.userMode = true → ∃ e d, s.curenv = some e ∧ Live s e ∧
    (s.envs e).envPgdir = some d ∧ s.thiscpu.cr3 = d ∧ s.thiscpu.tlb = []

theorem arrives_envRun (h : s.envRun e = .ok s') : Arrives s' := by
  intro _
  have hself := self_of_envRun h
  rw [envRun_eq] at h
  unfold resume at h
  simp only at h
  split at h
  · cases h
  · rename_i d hd
    have hs' := Except.ok.inj h
    refine ⟨e, d, ?_, ?_, ?_, ?_, ?_⟩
    · simp [← hs', curenv, setCpu, Kernel.setEnv, unlockKernel, lcr3, setCurenv, thiscpu]
    · simp [Live, hself, Write.value]
    · rw [← hd]
      simp [← hs', setCpu, Kernel.setEnv, unlockKernel, lcr3, setCurenv, thiscpu]
    · simp [← hs', setCpu, Kernel.setEnv, unlockKernel, lcr3, setCurenv, thiscpu]
    · simp [← hs', setCpu, Kernel.setEnv, unlockKernel, lcr3, setCurenv, thiscpu]

/-- **Every kernel entry loads what it leaves for.** -/
theorem arrives_entry (h : s.entry c x = .ok s') : Arrives s' := by
  cases ends_entry h with
  | run h => exact arrives_envRun h
  | @halt s hl ho =>
    intro hu
    have hmode : s.schedHalt.thiscpu.userMode = s.thiscpu.userMode := by
      unfold schedHalt
      split
      · rfl
      · simp [thiscpu, setCpu, unlockKernel, lcr3, setCurenv]
    rw [hmode, hl.2] at hu
    cases hu

end Kernel
end PmakeOs
