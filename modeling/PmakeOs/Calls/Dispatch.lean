import PmakeOs.Sched.Exclusion
import PmakeOs.Trap.UserMemory

/-!
# `lib/syscall.c`, `inc/syscall.h` and `syscall()`: from the stub to the handler

A user program calls a stub, which puts the number of the call into `eax` and up to
five arguments into `edx`, `ecx`, `ebx`, `edi`, `esi`.  `trap_dispatch` passes these
registers of the saved frame to `syscall()` and stores its result into `eax`.

* `named` --- what a number means: the handler of that name, with the arguments in
  the order of the parameters of the stub (`named_stub`).
* `syscallCase` --- the handler that the switch in `syscall()` calls.  It has cases
  for five of the thirteen numbers, each of which ends in `return 0`, and one for
  `NSYSCALLS` itself.
* `Agrees` --- the two say the same, in a given state, and the caller finds the result in `eax`.

`sys_yield` never comes back to the line that stores a result, so its caller goes on with what
`eax` was: the number of the call.
-/

namespace PmakeOs
namespace Kernel

variable {s : Kernel} {e : ℕ} {n a1 a2 a3 a4 a5 : Word}

/-! ## The stubs -/

/-- What a handler finds that is neither state nor argument: the character that the
console delivers, and what is read through an uninitialised pointer. -/
structure Ambient where
  ch : ℤ
  stale : Option Word

/-- `syscall()` of `lib/syscall.c`: the registers at the `int` instruction. -/
def stub (r : PushRegs) (num a1 a2 a3 a4 a5 : Word) : PushRegs :=
  { r with regEax := num, regEdx := a1, regEcx := a2, regEbx := a3, regEdi := a4, regEsi := a5 }

/-- The stub of each call.  `sys_exofork` is inlined and loads only the number. -/
def Syscall.stub (r : PushRegs) : Syscall → PushRegs
  | .cputs str len => Kernel.stub r 0 str len 0 0 0
  | .cgetc _ => Kernel.stub r 1 0 0 0 0 0
  | .getenvid => Kernel.stub r 2 0 0 0 0 0
  | .envDestroy envid => Kernel.stub r 3 envid 0 0 0 0
  | .pageAlloc envid va perm => Kernel.stub r 4 envid va perm 0 0
  | .pageMap srcenv srcva dstenv dstva perm => Kernel.stub r 5 srcenv srcva dstenv dstva perm
  | .pageUnmap envid va => Kernel.stub r 6 envid va 0 0 0
  | .exofork => { r with regEax := 7 }
  | .envSetStatus envid status => Kernel.stub r 8 envid status 0 0 0
  | .envSetPgfaultUpcall envid upcall => Kernel.stub r 9 envid upcall 0 0 0
  | .yield => Kernel.stub r 10 0 0 0 0 0
  | .ipcTrySend envid value srcva perm _ => Kernel.stub r 11 envid value srcva perm 0
  | .ipcRecv dstva => Kernel.stub r 12 dstva 0 0 0 0

/-- `NSYSCALLS` -/
def nsyscalls : Word := 13#32

/-- The handler with the name of number `n`, with its arguments. -/
def named (w : Ambient) (n a1 a2 a3 a4 a5 : Word) : Option Syscall :=
  match n.toNat with
  | 0 => some (.cputs a1 a2)
  | 1 => some (.cgetc w.ch)
  | 2 => some .getenvid
  | 3 => some (.envDestroy a1)
  | 4 => some (.pageAlloc a1 a2 a3)
  | 5 => some (.pageMap a1 a2 a3 a4 a5)
  | 6 => some (.pageUnmap a1 a2)
  | 7 => some .exofork
  | 8 => some (.envSetStatus a1 a2)
  | 9 => some (.envSetPgfaultUpcall a1 a2)
  | 10 => some .yield
  | 11 => some (.ipcTrySend a1 a2 a3 a4 w.stale)
  | 12 => some (.ipcRecv a1)
  | _ => none

/-- The call, with what it finds taken from `w`. -/
def Syscall.finding (w : Ambient) : Syscall → Syscall
  | .cgetc _ => .cgetc w.ch
  | .ipcTrySend envid value srcva perm _ => .ipcTrySend envid value srcva perm w.stale
  | x => x

/-- The stub of a call puts its number and its arguments where `named` expects them. -/
theorem named_stub (w : Ambient) (r : PushRegs) (x : Syscall) :
    named w (x.stub r).regEax (x.stub r).regEdx (x.stub r).regEcx (x.stub r).regEbx
      (x.stub r).regEdi (x.stub r).regEsi = some (x.finding w) := by
  cases x <;> rfl

theorem named_eq_none_iff (w : Ambient) (n a1 a2 a3 a4 a5 : Word) :
    named w n a1 a2 a3 a4 a5 = none ↔ nsyscalls ≤ n := by
  have hn : nsyscalls ≤ n ↔ 13 ≤ n.toNat := Iff.rfl
  rw [hn]
  unfold named
  split
  all_goals simp_all
  omega

/-! ## The dispatcher -/

/-- The handler that the switch in `syscall()` calls, if any. -/
def syscallCase (w : Ambient) (syscallno a1 a2 : Word) : Option Syscall :=
  match syscallno.toNat with
  | 1 => some (.cgetc w.ch)
  | 0 => some (.cputs a1 a2)
  | 2 => some .getenvid
  | 3 => some (.envDestroy a1)
  | 10 => some .yield
  | _ => none

/-- A handler is called, and zero is returned in place of its result. -/
def dropping (x : Except Panic (Flow × Kernel)) : Except Panic (Flow × Kernel) := do
  let (fl, s) ← x
  match fl with
  | .left => return (.left, s)
  | .ret _ => return (.ret 0, s)

/-- `syscall()` of `kern/syscall.c`. -/
def syscall (s : Kernel) (w : Ambient) (syscallno a1 a2 _a3 _a4 _a5 : Word) :
    Except Panic (Flow × Kernel) :=
  match syscallCase w syscallno a1 a2 with
  | some x => dropping (s.handle x)
  | none => if syscallno = nsyscalls then return (.ret 0, s) else return (.ret (-eInval), s)

/-- `tf->tf_regs.reg_eax = ...`, for a call that returns. -/
def storing (e : ℕ) (x : Except Panic (Flow × Kernel)) : Except Panic (Flow × Kernel) := do
  let (fl, s) ← x
  match fl with
  | .left => return (.left, s)
  | .ret r => return (.ret r, s.setEax e r)

/-- The branch of `trap_dispatch` for `T_SYSCALL`, with the saved frame of `e`. -/
def trapSyscall (s : Kernel) (e : ℕ) (w : Ambient) : Except Panic (Flow × Kernel) :=
  let r := (s.envs e).envTf.tfRegs
  storing e (s.syscall w r.regEax r.regEdx r.regEcx r.regEbx r.regEdi r.regEsi)

/-- If the handler does not return and its caller is still there, the caller goes on with zero
in `eax`. -/
def LeavesZero (e : ℕ) (x : Except Panic (Flow × Kernel)) : Prop :=
  ∀ s', x = .ok (.left, s') → Live s' e → (s'.envs e).envTf.tfRegs.regEax = 0#32

/-- The trap path does what the number says: it calls the handler of that name with
the arguments of the stub and leaves its result in `eax`; a number without a name
gets `-E_INVAL`. -/
def Agrees (s : Kernel) (e : ℕ) (w : Ambient) (n a1 a2 a3 a4 a5 : Word) : Prop :=
  match named w n a1 a2 a3 a4 a5 with
  | some x => syscallCase w n a1 a2 = some x ∧ s.trapSyscall e w = storing e (s.handle x) ∧
      LeavesZero e (s.trapSyscall e w)
  | none => s.trapSyscall e w = .ok (.ret (-eInval), s.setEax e (-eInval))

/-- `env_run` cannot run the environment that `sched_yield` finds, which has no directory. -/
def Stranded (s : Kernel) : Prop :=
  ∃ j, (s.schedPick = some j ∨ s.schedPick = none ∧ s.curenv = some j ∧
    (s.envs j).envStatus = .running) ∧ (s.envs j).envPgdir = none

/-- When it does: the call prints; or it returns zero anyhow; or its number is above
`NSYSCALLS`; or it yields and the kernel stops. -/
def Served (s : Kernel) (e : ℕ) (w : Ambient) (n a1 : Word) : Prop :=
  n = 0#32 ∨ n = 1#32 ∧ w.ch = 0 ∨ n = 2#32 ∧ (s.envs e).envId = 0#32 ∨
    (n = 3#32 ∧ ∃ v, s.envid2env a1 true = .ok (0, some v)) ∨ n = 10#32 ∧ Stranded s ∨
      nsyscalls < n

/-! ## When they agree -/

/-- To drop a result makes no difference if it is zero. -/
theorem storing_dropping_iff (e : ℕ) (x : Except Panic (Flow × Kernel)) :
    storing e (dropping x) = storing e x ↔ ∀ r s', x = .ok (.ret r, s') → r = 0 := by
  cases x with
  | error p => exact ⟨fun _ r s' h => (nomatch h), fun _ => rfl⟩
  | ok v =>
    obtain ⟨fl, s⟩ := v
    cases fl with
    | left => exact ⟨fun _ r s' h => (nomatch (Prod.mk.inj (Except.ok.inj h)).1), fun _ => rfl⟩
    | ret r =>
      constructor
      · intro h r' s' hx
        obtain ⟨hr, -⟩ := Prod.mk.inj (Except.ok.inj hx)
        obtain ⟨h0, -⟩ := Prod.mk.inj (Except.ok.inj h)
        rw [← Flow.ret.inj hr, ← Flow.ret.inj h0]
      · intro h
        rw [h r s rfl]
        rfl

theorem ret_of_envDestroy {s' : Kernel} {r : ℤ} (h : s.envDestroy e = .ok (.ret r, s')) :
    r = 0 := by
  unfold envDestroy at h
  split at h
  · exact (Flow.ret.inj (Prod.mk.inj (Except.ok.inj h)).1).symm
  · obtain ⟨s₁, -, h⟩ := bind_eq_ok.mp h
    split at h
    · obtain ⟨s₂, -, h⟩ := bind_eq_ok.mp h
      exact nomatch (Prod.mk.inj (Except.ok.inj h)).1
    · exact (Flow.ret.inj (Prod.mk.inj (Except.ok.inj h)).1).symm

theorem ret_of_sysCputs {s' : Kernel} {str len : Word} {r : ℤ}
    (h : s.sysCputs str len = .ok (.ret r, s')) : r = 0 := by
  unfold sysCputs at h
  obtain ⟨c, -, h⟩ := bind_eq_ok.mp h
  split at h
  · unfold userMemAssert at h
    obtain ⟨⟨r', s₁⟩, -, h⟩ := bind_eq_ok.mp h
    simp only at h
    split at h
    · exact ret_of_envDestroy h
    · exact (Flow.ret.inj (Prod.mk.inj (Except.ok.inj h)).1).symm
  · exact (Flow.ret.inj (Prod.mk.inj (Except.ok.inj h)).1).symm

/-- A caller to which `x` does not return is told what `x` tells it. -/
theorem leavesZero_storing_dropping (e : ℕ) (x : Except Panic (Flow × Kernel)) :
    LeavesZero e (storing e (dropping x)) ↔ LeavesZero e x := by
  have hleft : ∀ s', storing e (dropping x) = .ok (.left, s') ↔ x = .ok (.left, s') := by
    intro s'
    cases x with
    | error p => exact ⟨fun h => (nomatch h), fun h => (nomatch h)⟩
    | ok v =>
      obtain ⟨fl, s⟩ := v
      cases fl with
      | left => exact Iff.rfl
      | ret r => exact ⟨fun h => (nomatch (Prod.mk.inj (Except.ok.inj h)).1),
          fun h => (nomatch (Prod.mk.inj (Except.ok.inj h)).1)⟩
  unfold LeavesZero
  simp only [hleft]

/-! ### Calls that do not return -/

section Left

variable {s' : Kernel} {c j : ℕ}

theorem envTf_of_envRun (h : s.envRun j = .ok s') (c : ℕ) :
    (s'.envs c).envTf = (s.envs c).envTf := by
  have hpre : (s.preempt.envs c).envTf = (s.envs c).envTf := by
    unfold preempt
    split
    · rfl
    · split
      · rename_i d _ _
        rcases eq_or_ne c d with rfl | hcd
        · simp [setStatus, Kernel.setEnv]
        · simp [setStatus, Kernel.setEnv, hcd]
      · rfl
  rw [envRun_eq] at h
  unfold resume at h
  simp only at h
  split at h
  · cases h
  · rw [← hpre, ← Except.ok.inj h]
    rcases eq_or_ne c j with rfl | hcj
    · simp [setCpu, Kernel.setEnv, unlockKernel, lcr3, setCurenv]
    · simp [setCpu, Kernel.setEnv, unlockKernel, lcr3, setCurenv, hcj]

theorem envTf_of_schedYield (h : s.schedYield = .ok s') (c : ℕ) :
    (s'.envs c).envTf = (s.envs c).envTf := by
  have hhalt : (s.schedHalt.envs c).envTf = (s.envs c).envTf := by
    unfold schedHalt
    split <;> simp [setCpu, unlockKernel, lcr3, setCurenv]
  unfold schedYield at h
  split at h
  · exact envTf_of_envRun (s := s.note _) h c
  · split at h
    · rw [← Except.ok.inj h]
      exact hhalt
    · split at h
      · exact envTf_of_envRun (s := s.note _) h c
      · rw [← Except.ok.inj h]
        exact hhalt

/-- To leave the kernel frees no slot and fills none. -/
theorem Leave.live_iff (h : Leave s s') (c : ℕ) : Live s' c ↔ Live s c := by
  have hrunning : EnvStatus.running ≠ .free := by decide
  have hrunnable : EnvStatus.runnable ≠ .free := by decide
  have hran : ∀ {t : Kernel} {e d : ℕ}, Ran t s' e d → Live t e → (Live s' c ↔ Live t c) := by
    intro t e d hran hlive
    have hslot : (s'.slots c).envStatus = (t.ranSlots e c).envStatus := by rw [hran.slots]
    show (s'.slots c).envStatus ≠ .free ↔ (t.slots c).envStatus ≠ .free
    rw [hslot, ranSlots]
    split
    · rename_i hce
      rw [hce]
      exact iff_of_true hrunning hlive
    · split
      · rename_i hrun
        rw [hrun.2]
        exact iff_of_true hrunnable hrunning
      · exact Iff.rfl
  have hstatus : ∀ {e : ℕ} {st : EnvStatus}, (s.slots e).envStatus = st → st ≠ .free →
      Live s e := fun heq hne hfree => hne (heq.symm.trans hfree)
  cases h with
  | run _ hst h => exact hran h (hstatus hst hrunning)
  | select hst h =>
    refine hran (t := s.note _) h ?_
    rcases hst with hst | ⟨-, hst⟩
    · exact hstatus hst hrunnable
    · exact hstatus hst hrunning
  | halt _ hs =>
    show (s'.slots c).envStatus ≠ .free ↔ _
    rw [hs]
    rfl
  | monitor => exact Iff.rfl

/-- An environment that destroys itself is gone. -/
theorem leavesZero_envDestroy (hc : s.curenv = some e) (v : ℕ) : LeavesZero e (s.envDestroy v) := by
  intro s' h hlive
  unfold envDestroy at h
  split at h
  · exact nomatch (Prod.mk.inj (Except.ok.inj h)).1
  · obtain ⟨s₁, hfree, h₁⟩ := bind_eq_ok.mp h
    have hfreed := freed_of_envFree hfree
    split at h₁
    · rename_i hcur
      obtain ⟨s₂, hyield, h₂⟩ := bind_eq_ok.mp h₁
      obtain ⟨-, rfl⟩ := Prod.mk.inj (Except.ok.inj h₂)
      have hev : e = v := by
        rw [hfreed.passive.cpuEnv, hc] at hcur
        exact Option.some.inj hcur
      refine absurd ?_ (((leave_schedYield hyield).live_iff e).mp hlive)
      show (s₁.slots e).envStatus = .free
      rw [hfreed.slots, hev, Function.update_self]
    · exact nomatch (Prod.mk.inj (Except.ok.inj h₁)).1

theorem leavesZero_sysCputs (hc : s.curenv = some e) (str len : Word) :
    LeavesZero e (s.sysCputs str len) := by
  intro s' h
  unfold sysCputs at h
  obtain ⟨c, hderef, h⟩ := bind_eq_ok.mp h
  rw [hc] at hderef
  obtain rfl := Except.ok.inj hderef
  split at h
  · unfold userMemAssert at h
    obtain ⟨⟨r', s₁⟩, hcheck, h⟩ := bind_eq_ok.mp h
    simp only at h
    split at h
    · refine leavesZero_envDestroy ?_ e s' h
      rcases userMemCheck_cases hcheck with ⟨-, rfl⟩ | ⟨-, x, rfl⟩
      · exact hc
      · exact hc
    · exact nomatch (Prod.mk.inj (Except.ok.inj h)).1
  · exact nomatch (Prod.mk.inj (Except.ok.inj h)).1

/-- `env_run` of an environment without a directory. -/
theorem envRun_of_noPgdir {j : ℕ} (hno : (s.envs j).envPgdir = none) :
    s.envRun j = .error .paddr := by
  have hpre : (s.preempt.slots j).envPgdir = none := by
    rw [preempt_slots]
    split <;> exact hno
  rw [envRun_eq]
  unfold resume
  simp only
  split
  · rfl
  · rename_i d hd
    have hsome : (s.preempt.slots j).envPgdir = some d := by
      simpa [Kernel.setEnv, setCurenv, setCpu] using hd
    rw [hpre] at hsome
    cases hsome

/-- `sched_yield` has one environment to run. -/
theorem picked_unique {j j' : ℕ}
    (hj : s.schedPick = some j ∨ s.schedPick = none ∧ s.curenv = some j ∧
      (s.envs j).envStatus = .running)
    (hj' : s.schedPick = some j' ∨ s.schedPick = none ∧ s.curenv = some j' ∧
      (s.envs j').envStatus = .running) : j' = j := by
  rcases hj with h | ⟨h, h', -⟩ <;> rcases hj' with h₁ | ⟨h₁, h₁', -⟩
  · exact Option.some.inj (h₁.symm.trans h)
  · cases h.symm.trans h₁
  · cases h₁.symm.trans h
  · exact Option.some.inj (h₁'.symm.trans h')

/-- `sys_yield` returns only to `env_run`. -/
theorem sysYield_outcome (s : Kernel) :
    Stranded s ∧ s.sysYield = .error .paddr ∨
      ¬ Stranded s ∧ ∃ s', s.sysYield = .ok (.left, s') := by
  have hnext : ∀ {j : ℕ} (ev : Event), (s.schedPick = some j ∨ s.schedPick = none ∧
      s.curenv = some j ∧ (s.envs j).envStatus = .running) → s.schedYield = (s.note ev).envRun j →
      Stranded s ∧ s.sysYield = .error .paddr ∨
        ¬ Stranded s ∧ ∃ s', s.sysYield = .ok (.left, s') := by
    intro j ev hj heq
    unfold sysYield
    rw [heq]
    cases hd : (s.envs j).envPgdir with
    | none =>
      rw [envRun_of_noPgdir (s := s.note ev) hd]
      exact Or.inl ⟨⟨j, hj, hd⟩, rfl⟩
    | some d =>
      obtain ⟨s', hs'⟩ := exists_envRun (s := s.note ev) hd
      rw [hs']
      refine Or.inr ⟨?_, s', rfl⟩
      rintro ⟨j', hj', hno⟩
      rw [picked_unique hj hj', hd] at hno
      cases hno
  have hhalt : s.schedYield = .ok s.schedHalt → ¬ Stranded s →
      ¬ Stranded s ∧ ∃ s', s.sysYield = .ok (.left, s') := by
    intro heq hno
    refine ⟨hno, s.schedHalt, ?_⟩
    unfold sysYield
    rw [heq]
    rfl
  cases hpick : s.schedPick with
  | some j =>
    refine hnext (.select s.cpunum j) (Or.inl hpick) ?_
    unfold schedYield
    rw [hpick]
  | none =>
    cases hc : s.curenv with
    | none =>
      refine Or.inr (hhalt ?_ ?_)
      · unfold schedYield
        rw [hpick, hc]
      · rintro ⟨j, h | ⟨-, h, -⟩, -⟩
        · rw [hpick] at h
          cases h
        · rw [hc] at h
          cases h
    | some j =>
      by_cases hst : (s.envs j).envStatus = .running
      · refine hnext (.select s.cpunum j) (Or.inr ⟨hpick, hc, hst⟩) ?_
        unfold schedYield
        rw [hpick, hc]
        exact if_pos hst
      · refine Or.inr (hhalt ?_ ?_)
        · unfold schedYield
          rw [hpick, hc]
          exact if_neg hst
        · rintro ⟨j', h | ⟨-, h, h'⟩, -⟩
          · rw [hpick] at h
            cases h
          · rw [hc] at h
            obtain rfl := Option.some.inj h
            exact hst h'

/-- **The caller of `sys_yield` does not find zero**, but what it left in `eax`. -/
theorem leavesZero_sysYield_iff (hlive : Live s e)
    (hax : (s.envs e).envTf.tfRegs.regEax ≠ 0#32) : LeavesZero e s.sysYield ↔ Stranded s := by
  rcases sysYield_outcome s with ⟨hstr, hrun⟩ | ⟨hno, s', hrun⟩
  · refine ⟨fun _ => hstr, fun _ s' h => ?_⟩
    rw [hrun] at h
    cases h
  · refine ⟨fun h => absurd ?_ hax, fun h => absurd h hno⟩
    obtain ⟨s₁, hyield, h₁⟩ := bind_eq_ok.mp hrun
    obtain ⟨-, rfl⟩ := Prod.mk.inj (Except.ok.inj h₁)
    rw [← envTf_of_schedYield hyield]
    exact h s₁ hrun (((leave_schedYield hyield).live_iff e).mpr hlive)

theorem ret_of_sysYield {r : ℤ} (h : s.sysYield = .ok (.ret r, s')) : r = 0 := by
  obtain ⟨s₁, -, h⟩ := bind_eq_ok.mp h
  exact nomatch (Prod.mk.inj (Except.ok.inj h)).1

end Left

/-- `sys_env_destroy` fails if and only if `envid2env` does. -/
theorem ret_sysEnvDestroy_iff {envid : Word} (hc : s.curenv = some e) (hlive : Live s e) :
    (∀ r s', s.sysEnvDestroy envid = .ok (.ret r, s') → r = 0) ↔
      ∃ v, s.envid2env envid true = .ok (0, some v) := by
  rcases envid2env_cases hc hlive envid true with henv | ⟨v, henv, -⟩
  · constructor
    · intro h
      have hret : s.sysEnvDestroy envid = .ok (.ret (-eBadEnv), s) := by
        rw [sysEnvDestroy, henv]
        rfl
      exact absurd (h _ _ hret) (by decide)
    · rintro ⟨v, hv⟩
      rw [henv] at hv
      exact nomatch (Prod.mk.inj (Except.ok.inj hv)).2
  · refine ⟨fun _ => ⟨v, henv⟩, fun _ r s' h => ?_⟩
    rw [sysEnvDestroy, henv, ok_bind] at h
    simp only [Int.lt_irrefl, if_false, deref_some, ok_bind] at h
    obtain ⟨⟨fl, s₁⟩, -, h⟩ := bind_eq_ok.mp h
    cases fl with
    | left => exact nomatch (Prod.mk.inj (Except.ok.inj h)).1
    | ret r' => exact (Flow.ret.inj (Prod.mk.inj (Except.ok.inj h)).1).symm

theorem leavesZero_sysEnvDestroy (hc : s.curenv = some e) (envid : Word) :
    LeavesZero e (s.sysEnvDestroy envid) := by
  intro s' h
  unfold sysEnvDestroy at h
  obtain ⟨⟨r, o⟩, -, h⟩ := bind_eq_ok.mp h
  simp only at h
  split at h
  · exact nomatch (Prod.mk.inj (Except.ok.inj h)).1
  · obtain ⟨v, -, h⟩ := bind_eq_ok.mp h
    obtain ⟨⟨fl, s₁⟩, hdestroy, h⟩ := bind_eq_ok.mp h
    cases fl with
    | left =>
      obtain ⟨-, rfl⟩ := Prod.mk.inj (Except.ok.inj h)
      exact leavesZero_envDestroy hc v s₁ hdestroy
    | ret r' => exact nomatch (Prod.mk.inj (Except.ok.inj h)).1

/-- The switch calls the handler that the number names. -/
theorem named_of_syscallCase {w : Ambient} {x : Syscall} (h : syscallCase w n a1 a2 = some x) :
    named w n a1 a2 a3 a4 a5 = some x := by
  unfold syscallCase at h
  unfold named
  split at h
  all_goals simp_all

/-- Of the handlers that the switch calls, these leave zero. -/
theorem zero_handle_iff {w : Ambient} {x : Syscall} (hc : s.curenv = some e) (hlive : Live s e)
    (hn : (s.envs e).envTf.tfRegs.regEax = n) (hx : syscallCase w n a1 a2 = some x) :
    (∀ r s', s.handle x = .ok (.ret r, s') → r = 0) ∧ LeavesZero e (s.handle x) ↔
      Served s e w n a1 := by
  have hnum : ∀ {k : ℕ}, n.toNat = k → n = BitVec.ofNat 32 k := by
    intro k hk
    rw [← hk, BitVec.ofNat_toNat, BitVec.setWidth_eq]
  have hleaves : ∀ {r : ℤ} {t : Kernel}, LeavesZero e (.ok (.ret r, t)) := fun s' h =>
    nomatch (Prod.mk.inj (Except.ok.inj h)).1
  unfold syscallCase at hx
  split at hx
  · rename_i hk
    obtain rfl := Option.some.inj hx
    obtain rfl := hnum hk
    have hzero : LeavesZero e (s.handle (.cgetc w.ch)) := hleaves
    rw [and_iff_left hzero]
    simp [Served, nsyscalls, handle]
  · rename_i hk
    obtain rfl := Option.some.inj hx
    obtain rfl := hnum hk
    have hret : ∀ r s', s.handle (.cputs a1 a2) = .ok (.ret r, s') → r = 0 :=
      fun r s' h => ret_of_sysCputs h
    exact ⟨fun _ => Or.inl rfl, fun _ => ⟨hret, leavesZero_sysCputs hc a1 a2⟩⟩
  · rename_i hk
    obtain rfl := Option.some.inj hx
    obtain rfl := hnum hk
    have hret : s.handle .getenvid = .ok (.ret (s.envs e).envId.toInt, s) := by
      show returning s.sysGetenvid = _
      rw [sysGetenvid, hc]
      rfl
    have hzero : (s.envs e).envId.toInt = 0 ↔ (s.envs e).envId = 0#32 := by
      rw [← BitVec.toInt_inj, BitVec.toInt_zero]
    rw [hret, and_iff_left hleaves]
    simp [Served, nsyscalls, hzero]
  · rename_i hk
    obtain rfl := Option.some.inj hx
    obtain rfl := hnum hk
    have hret : (∀ r s', s.handle (.envDestroy a1) = .ok (.ret r, s') → r = 0) ↔ _ :=
      ret_sysEnvDestroy_iff hc hlive
    have hzero : LeavesZero e (s.handle (.envDestroy a1)) := leavesZero_sysEnvDestroy hc a1
    rw [and_iff_left hzero, hret]
    simp [Served, nsyscalls]
  · rename_i hk
    obtain rfl := Option.some.inj hx
    obtain rfl := hnum hk
    have hret : ∀ r s', s.handle .yield = .ok (.ret r, s') → r = 0 :=
      fun r s' h => ret_of_sysYield h
    have hzero : LeavesZero e (s.handle .yield) ↔ Stranded s :=
      leavesZero_sysYield_iff hlive (by rw [hn]; decide)
    rw [and_iff_right hret, hzero]
    simp [Served, nsyscalls]
  · cases hx

theorem not_served {w : Ambient} (hx : syscallCase w n a1 a2 = none) :
    Served s e w n a1 ↔ nsyscalls < n := by
  unfold Served
  constructor
  · rintro (rfl | ⟨rfl, -⟩ | ⟨rfl, -⟩ | ⟨rfl, -⟩ | ⟨rfl, -⟩ | h)
    · cases hx
    · cases hx
    · cases hx
    · cases hx
    · cases hx
    · exact h
  · intro h
    simp [h]

/-- **The trap path serves a system call as its number says if and only if** the call
prints, or returns zero anyhow, or has a number above `NSYSCALLS`.  A caller of `sys_yield`
finds 10 in `eax`. -/
theorem dispatch_agrees_iff (w : Ambient) (r : PushRegs) (hc : s.curenv = some e)
    (hlive : Live s e) (hr : (s.envs e).envTf.tfRegs = stub r n a1 a2 a3 a4 a5) :
    Agrees s e w n a1 a2 a3 a4 a5 ↔ Served s e w n a1 := by
  have htrap : s.trapSyscall e w = storing e (s.syscall w n a1 a2 a3 a4 a5) := by
    rw [trapSyscall, hr]
    rfl
  unfold Agrees
  rw [htrap]
  unfold syscall
  cases hx : syscallCase w n a1 a2 with
  | some x =>
    have hn : (s.envs e).envTf.tfRegs.regEax = n := by rw [hr]; rfl
    rw [named_of_syscallCase hx, ← zero_handle_iff hc hlive hn hx]
    simp only [true_and]
    exact and_congr (storing_dropping_iff e (s.handle x)) (leavesZero_storing_dropping e _)
  | none =>
    rw [not_served hx]
    cases hn : named w n a1 a2 a3 a4 a5 with
    | some x =>
      have hlt : ¬ nsyscalls ≤ n := by
        rw [← named_eq_none_iff w n a1 a2 a3 a4 a5, hn]
        exact fun h => nomatch h
      exact ⟨fun h => (nomatch h.1), fun h => absurd (BitVec.le_of_lt h) hlt⟩
    | none =>
      have hle := (named_eq_none_iff w n a1 a2 a3 a4 a5).mp hn
      rcases eq_or_ne n nsyscalls with rfl | hne
      · refine ⟨fun h => ?_, fun h => absurd h (by decide)⟩
        exact absurd (Flow.ret.inj (Prod.mk.inj (Except.ok.inj h)).1) (by decide)
      · simp only [if_neg hne]
        exact ⟨fun _ => BitVec.lt_of_le_ne hle (Ne.symm hne), fun _ => rfl⟩

/-- The environment of `oneEnv` runs, with the number of a call in its frame. -/
def calling (n : Word) : Kernel :=
  let s := oneEnv.after 0 .schedule
  s.setEnv 0 { s.envs 0 with
    envTf := { freshTrapframe with tfRegs := stub ⟨0, 0, 0, 0, 0, 0, 0, 0⟩ n 0 0 0 0 0 } }

/-- The theorem for a call of `sys_cputs`. -/
theorem dispatch_agrees_iff_cputs :
    (calling 0#32).curenv = some 0 ∧ Live (calling 0#32) 0 ∧
      Agrees (calling 0#32) 0 ⟨0, none⟩ 0#32 0#32 0#32 0#32 0#32 0#32 := by
  have hcur : (calling 0#32).curenv = some 0 := by decide +kernel
  have hlive : Live (calling 0#32) 0 := by
    unfold Live
    decide +kernel
  exact ⟨hcur, hlive,
    (dispatch_agrees_iff ⟨0, none⟩ ⟨0, 0, 0, 0, 0, 0, 0, 0⟩ hcur hlive rfl).mpr (Or.inl rfl)⟩

/-- **Not every system call is served**: the switch has no case for `sys_exofork`. -/
theorem not_dispatch_agrees :
    ¬ ∀ (s : Kernel) (e : ℕ) (w : Ambient) (r : PushRegs) (n a1 a2 a3 a4 a5 : Word),
      s.curenv = some e → Live s e → (s.envs e).envTf.tfRegs = stub r n a1 a2 a3 a4 a5 →
      Agrees s e w n a1 a2 a3 a4 a5 := by
  intro hall
  have h := hall (calling 7#32) 0 ⟨0, none⟩ ⟨0, 0, 0, 0, 0, 0, 0, 0⟩ 7#32 0#32 0#32 0#32 0#32 0#32
    (by decide +kernel) (by unfold Live; decide +kernel) rfl
  exact nomatch h.1

end Kernel
end PmakeOs
