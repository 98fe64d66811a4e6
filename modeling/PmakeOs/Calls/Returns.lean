import PmakeOs.Sched.Entries

/-!
# Handlers that return

A handler that returns to `trap` has left the CPUs and the lock as they were: the
environment it works for is still that of the executing CPU.  No invariant is
assumed.
-/

namespace PmakeOs
namespace Kernel

variable {s s' : Kernel} {e : ℕ}

theorem passive_of_returning {y : Except Panic (ℤ × Kernel)} {fl : Flow}
    (h : returning y = .ok (fl, s')) (hy : ∀ r s', y = .ok (r, s') → Passive s s') :
    Passive s s' := by
  cases hr : y with
  | error p =>
    rw [hr] at h
    cases h
  | ok v =>
    rw [hr] at h
    obtain ⟨-, rfl⟩ := Prod.mk.inj (Except.ok.inj h)
    exact hy v.1 v.2 hr

theorem passive_of_envDestroy {r : ℤ} (h : s.envDestroy e = .ok (.ret r, s')) : Passive s s' := by
  unfold envDestroy at h
  split at h
  · obtain ⟨-, rfl⟩ := Prod.mk.inj (Except.ok.inj h)
    exact .setEnv s e _
  · obtain ⟨s₁, hfree, h⟩ := bind_eq_ok.mp h
    split at h
    · obtain ⟨s₂, -, h⟩ := bind_eq_ok.mp h
      exact nomatch (Prod.mk.inj (Except.ok.inj h)).1
    · obtain ⟨-, rfl⟩ := Prod.mk.inj (Except.ok.inj h)
      exact (freed_of_envFree hfree).passive

theorem passive_of_sysEnvDestroy {envid : Word} {r : ℤ}
    (h : s.sysEnvDestroy envid = .ok (.ret r, s')) : Passive s s' := by
  unfold sysEnvDestroy at h
  obtain ⟨⟨ret, oe⟩, -, h⟩ := bind_eq_ok.mp h
  simp only at h
  split at h
  · obtain ⟨-, rfl⟩ := Prod.mk.inj (Except.ok.inj h)
    exact .refl s
  obtain ⟨e, -, h⟩ := bind_eq_ok.mp h
  obtain ⟨⟨fl₁, s₁⟩, hd, h⟩ := bind_eq_ok.mp h
  cases fl₁ with
  | left => exact nomatch (Prod.mk.inj (Except.ok.inj h)).1
  | ret r =>
    obtain ⟨-, rfl⟩ := Prod.mk.inj (Except.ok.inj h)
    exact passive_of_envDestroy hd

theorem passive_of_sysExofork {r : ℤ} (h : s.sysExofork = .ok (r, s')) : Passive s s' := by
  unfold sysExofork at h
  obtain ⟨c, -, h⟩ := bind_eq_ok.mp h
  obtain ⟨⟨ret, oe, s₁⟩, halloc, h⟩ := bind_eq_ok.mp h
  rcases envAlloc_cases halloc with ⟨hneg, hm⟩ | ⟨e, rfl, rfl, hal⟩
  · simp only [hneg, if_true] at h
    obtain ⟨-, rfl⟩ := Prod.mk.inj (Except.ok.inj h)
    exact hm.passive
  · simp only [Int.lt_irrefl, if_false, deref_some, ok_bind] at h
    obtain ⟨-, rfl⟩ := Prod.mk.inj (Except.ok.inj h)
    exact hal.passive.trans (.setEnv s₁ e _)

theorem passive_of_sysEnvSetStatus {envid status : Word} {r : ℤ}
    (h : s.sysEnvSetStatus envid status = .ok (r, s')) : Passive s s' := by
  unfold sysEnvSetStatus at h
  split at h
  · obtain ⟨-, rfl⟩ := Prod.mk.inj (Except.ok.inj h)
    exact .refl s
  obtain ⟨⟨ret, oe⟩, -, h⟩ := bind_eq_ok.mp h
  simp only at h
  split at h
  · obtain ⟨-, rfl⟩ := Prod.mk.inj (Except.ok.inj h)
    exact .refl s
  · obtain ⟨e, -, h⟩ := bind_eq_ok.mp h
    obtain ⟨-, rfl⟩ := Prod.mk.inj (Except.ok.inj h)
    exact .setEnv s e _

theorem passive_of_sysEnvSetPgfaultUpcall {envid func : Word} {r : ℤ}
    (h : s.sysEnvSetPgfaultUpcall envid func = .ok (r, s')) : Passive s s' := by
  unfold sysEnvSetPgfaultUpcall at h
  obtain ⟨⟨ret, oe⟩, -, h⟩ := bind_eq_ok.mp h
  simp only at h
  split at h
  · obtain ⟨-, rfl⟩ := Prod.mk.inj (Except.ok.inj h)
    exact .refl s
  · obtain ⟨e, -, h⟩ := bind_eq_ok.mp h
    obtain ⟨-, rfl⟩ := Prod.mk.inj (Except.ok.inj h)
    exact .setEnv s e _

theorem passive_of_sysIpcTrySend {envid value srcva perm : Word} {stale : Option Word} {r : ℤ}
    (h : s.sysIpcTrySend envid value srcva perm stale = .ok (r, s')) : Passive s s' := by
  unfold sysIpcTrySend at h
  obtain ⟨⟨r₀, oe⟩, -, h⟩ := bind_eq_ok.mp h
  simp only at h
  split at h
  · obtain ⟨-, rfl⟩ := Prod.mk.inj (Except.ok.inj h)
    exact .refl s
  obtain ⟨e, -, h⟩ := bind_eq_ok.mp h
  split at h
  · obtain ⟨-, rfl⟩ := Prod.mk.inj (Except.ok.inj h)
    exact .refl s
  obtain ⟨c, -, h⟩ := bind_eq_ok.mp h
  obtain ⟨⟨ret', s₁⟩, htr, h⟩ := bind_eq_ok.mp h
  have hq := quiet_of_ipcTransfer htr
  simp only at h
  split at h
  · obtain ⟨-, rfl⟩ := Prod.mk.inj (Except.ok.inj h)
    exact hq.passive
  · obtain ⟨-, rfl⟩ := Prod.mk.inj (Except.ok.inj h)
    exact hq.passive.trans (.setEnv s₁ e _)

theorem passive_of_sysIpcRecv {dstva : Word} {r : ℤ}
    (h : s.sysIpcRecv dstva = .ok (.ret r, s')) : Passive s s' := by
  unfold sysIpcRecv at h
  split at h
  · obtain ⟨-, rfl⟩ := Prod.mk.inj (Except.ok.inj h)
    exact .refl s
  · obtain ⟨c, -, h⟩ := bind_eq_ok.mp h
    obtain ⟨s₁, -, h⟩ := bind_eq_ok.mp h
    exact nomatch (Prod.mk.inj (Except.ok.inj h)).1

theorem passive_of_handle {x : Syscall} {r : ℤ} (h : s.handle x = .ok (.ret r, s')) :
    Passive s s' := by
  cases x with
  | exofork => exact passive_of_returning h fun r s' h' => passive_of_sysExofork h'
  | cputs str len =>
    unfold handle sysCputs at h
    obtain ⟨c, hc, h⟩ := bind_eq_ok.mp h
    split at h
    · exact (memoryOnly_of_userMemAssert (deref_eq_ok hc) h).passive
    · obtain ⟨-, rfl⟩ := Prod.mk.inj (Except.ok.inj h)
      exact .refl s
  | cgetc ch =>
    obtain ⟨-, rfl⟩ := Prod.mk.inj (Except.ok.inj h)
    exact .refl s
  | getenvid =>
    refine passive_of_returning h fun r s' h' => ?_
    obtain ⟨_, -, h'⟩ := bind_eq_ok.mp h'
    obtain ⟨-, rfl⟩ := Prod.mk.inj (Except.ok.inj h')
    exact .refl s
  | envDestroy envid => exact passive_of_sysEnvDestroy h
  | pageAlloc envid va perm =>
    exact passive_of_returning h fun r s' h' => (memoryOnly_of_sysPageAlloc h').passive
  | pageMap srcenvid srcva dstenvid dstva perm =>
    exact passive_of_returning h fun r s' h' => (memoryOnly_of_sysPageMap h').passive
  | pageUnmap envid va =>
    exact passive_of_returning h fun r s' h' => (memoryOnly_of_sysPageUnmap h').passive
  | envSetStatus envid status =>
    exact passive_of_returning h fun r s' h' => passive_of_sysEnvSetStatus h'
  | envSetPgfaultUpcall envid func =>
    exact passive_of_returning h fun r s' h' => passive_of_sysEnvSetPgfaultUpcall h'
  | yield =>
    obtain ⟨s₁, -, h⟩ := bind_eq_ok.mp h
    exact nomatch (Prod.mk.inj (Except.ok.inj h)).1
  | ipcTrySend envid value srcva perm stale =>
    exact passive_of_returning h fun r s' h' => passive_of_sysIpcTrySend h'
  | ipcRecv dstva => exact passive_of_sysIpcRecv h

theorem passive_of_pageFaultHandler {faultVa : Word} {r : ℤ}
    (h : s.pageFaultHandler faultVa = .ok (.ret r, s')) : Passive s s' := by
  unfold pageFaultHandler at h
  obtain ⟨c, hc, h⟩ := bind_eq_ok.mp h
  split at h
  · cases h
  split at h
  · unfold faultUpcall at h
    obtain ⟨⟨fl₁, s₁⟩, -, h⟩ := bind_eq_ok.mp h
    cases fl₁ with
    | left => exact nomatch (Prod.mk.inj (Except.ok.inj h)).1
    | ret r =>
      obtain ⟨s₂, -, h⟩ := bind_eq_ok.mp h
      obtain ⟨s₃, -, h⟩ := bind_eq_ok.mp h
      exact nomatch (Prod.mk.inj (Except.ok.inj h)).1
  · exact passive_of_envDestroy h

/-- **What returns to `trap` has not left.** -/
theorem passive_of_trapDispatch {t : Trap} {r : ℤ} (h : s.trapDispatch t = .ok (.ret r, s')) :
    Passive s s' := by
  cases t with
  | timer =>
    obtain ⟨s₁, -, h⟩ := bind_eq_ok.mp h
    exact nomatch (Prod.mk.inj (Except.ok.inj h)).1
  | spurious =>
    obtain ⟨-, rfl⟩ := Prod.mk.inj (Except.ok.inj h)
    exact .refl s
  | pageFault faultVa => exact passive_of_pageFaultHandler h
  | fault =>
    obtain ⟨c, -, h⟩ := bind_eq_ok.mp h
    exact passive_of_envDestroy h
  | syscall y => exact passive_of_handle h

end Kernel
end PmakeOs
