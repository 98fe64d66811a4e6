import PmakeOs.Kernel.Local
import PmakeOs.Kernel.Smp
import PmakeOs.Lib.Loop

/-!
# What a kernel entry does to environments and CPUs

Seen from the scheduler, an environment is its `Slot`: the status, the id, the
link in the free list, and the directory.  Everything a kernel entry does to slots
and CPUs is a sequence of six kinds of act followed by one way to leave.

* `Act A n` --- one act of the executing CPU.  The index `A` says whose slots it may
  write: an act on the slot of `e` needs `A e`, except that `env_destroy` may mark
  a running environment as dying.  The number `n` is one for `env_alloc` and zero
  for the rest, so that in `Acts A n` it counts the allocations.
* `Leave` --- `env_run`, `sched_halt`, or the kernel monitor.

No invariant is assumed: the acts are read off the code of each function, for any
state in which it returns.
-/

namespace PmakeOs

open Lib

/-- The part of a `struct Env` that decides who runs. -/
structure Slot where
  envStatus : EnvStatus
  envId : Word
  envLink : Option ℕ
  envPgdir : Option ℕ

def Env.slot (v : Env) : Slot := ⟨v.envStatus, v.envId, v.envLink, v.envPgdir⟩

namespace Kernel

variable {s s' s'' : Kernel} {A : ℕ → Prop} {e c : ℕ}

def slots (s : Kernel) (e : ℕ) : Slot := (s.envs e).slot

@[simp] theorem slots_envStatus (s : Kernel) (e : ℕ) :
    (s.slots e).envStatus = (s.envs e).envStatus := rfl

@[simp] theorem slots_envId (s : Kernel) (e : ℕ) : (s.slots e).envId = (s.envs e).envId := rfl

@[simp] theorem slots_envLink (s : Kernel) (e : ℕ) : (s.slots e).envLink = (s.envs e).envLink := rfl

@[simp] theorem slots_envPgdir (s : Kernel) (e : ℕ) :
    (s.slots e).envPgdir = (s.envs e).envPgdir := rfl

/-- A store into an environment is a store into its slot. -/
theorem slots_setEnv (s : Kernel) (e : ℕ) (v : Env) :
    (s.setEnv e v).slots = Function.update s.slots e v.slot := by
  funext j
  rcases eq_or_ne j e with rfl | hj
  · simp [slots, setEnv]
  · simp [slots, setEnv, hj]

theorem slots_setEnv_of_eq {v : Env} (h : v.slot = s.slots e) : (s.setEnv e v).slots = s.slots := by
  rw [slots_setEnv, h, Function.update_eq_self]

/-! ## The acts -/

/-- The CPUs are where they were: the executing one has the same environment and
mode, and the others are untouched. -/
structure Passive (s s' : Kernel) : Prop where
  cpunum : s'.cpunum = s.cpunum
  kernelLock : s'.kernelLock = s.kernelLock
  other : ∀ c, c ≠ s.cpunum → s'.cpus c = s.cpus c
  cpuEnv : s'.curenv = s.curenv
  userMode : s'.thiscpu.userMode = s.thiscpu.userMode

theorem Passive.of_eq (hn : s'.cpunum = s.cpunum) (hl : s'.kernelLock = s.kernelLock)
    (hc : s'.cpus = s.cpus) : Passive s s' :=
  ⟨hn, hl, fun c _ => by rw [hc], by rw [curenv, curenv, hn, hc],
    by rw [thiscpu, thiscpu, hn, hc]⟩

theorem Passive.refl (s : Kernel) : Passive s s := .of_eq rfl rfl rfl

theorem Passive.trans (h : Passive s s') (h' : Passive s' s'') : Passive s s'' :=
  ⟨h'.cpunum.trans h.cpunum, h'.kernelLock.trans h.kernelLock,
    fun c hc => (h'.other c (by rw [h.cpunum]; exact hc)).trans (h.other c hc),
    h'.cpuEnv.trans h.cpuEnv, h'.userMode.trans h.userMode⟩

theorem Passive.setEnv (s : Kernel) (e : ℕ) (v : Env) : Passive s (s.setEnv e v) :=
  .of_eq rfl rfl rfl

theorem MemoryOnly.passive (h : MemoryOnly s s') : Passive s s' := by
  refine ⟨h.cpunum, h.kernelLock, h.other, h.curenv, ?_⟩
  rw [thiscpu, thiscpu, h.cpunum]
  exact h.userMode _

/-- Nothing changed that the scheduler sees. -/
structure Quiet (s s' : Kernel) : Prop where
  passive : Passive s s'
  slots : s'.slots = s.slots
  envFreeList : s'.envFreeList = s.envFreeList
  controlLog : s'.controlLog = s.controlLog

theorem Quiet.refl (s : Kernel) : Quiet s s := ⟨.refl s, rfl, rfl, rfl⟩

theorem Quiet.trans (h : Quiet s s') (h' : Quiet s' s'') : Quiet s s'' :=
  ⟨h.passive.trans h'.passive, h'.slots.trans h.slots, h'.envFreeList.trans h.envFreeList,
    h'.controlLog.trans h.controlLog⟩

theorem MemoryOnly.quiet (h : MemoryOnly s s') : Quiet s s' := by
  refine ⟨h.passive, ?_, h.envFreeList, h.controlLog⟩
  funext e
  rw [Kernel.slots, Kernel.slots, h.envs]

theorem Quiet.setEnv {v : Env} (h : v.slot = s.slots e) : Quiet s (s.setEnv e v) :=
  ⟨.setEnv s e v, slots_setEnv_of_eq h, rfl, rfl⟩

/-- `env_alloc` took the first free slot `e`, whose status is now `st`. -/
structure Allocated (s s' : Kernel) (e : ℕ) (st : EnvStatus) : Prop where
  head : s.envFreeList = some e
  passive : Passive s s'
  slots : ∃ d, s'.slots = Function.update s.slots e
    ⟨st, nextEnvId (s.slots e).envId e, (s.slots e).envLink, some d⟩
  envFreeList : s'.envFreeList = (s.slots e).envLink
  controlLog : s'.controlLog = s.controlLog

/-- `env_free` returned slot `e`. -/
structure Freed (s s' : Kernel) (e : ℕ) : Prop where
  passive : Passive s s'
  slots : s'.slots = Function.update s.slots e ⟨.free, (s.slots e).envId, s.envFreeList, none⟩
  envFreeList : s'.envFreeList = some e
  controlLog : s'.controlLog = .envFree s.cpunum e :: s.controlLog

/-- **One act of the executing CPU.** -/
inductive Act (A : ℕ → Prop) : ℕ → Kernel → Kernel → Prop
  | quiet {s s' : Kernel} (h : Quiet s s') : Act A 0 s s'
  /-- `env_alloc`, and the status that `sys_exofork` gives. -/
  | alloc {s s' : Kernel} {e : ℕ} {st : EnvStatus} (hst : st = .runnable ∨ st = .notRunnable)
      (h : Allocated s s' e st) : Act A 1 s s'
  /-- A status is written. -/
  | mark {s s' : Kernel} {e : ℕ} {st : EnvStatus} (hlive : (s.slots e).envStatus ≠ .free)
      (hA : A e ∧ (st = .runnable ∨ st = .notRunnable) ∨
        st = .dying ∧ (s.slots e).envStatus = .running ∧ s.curenv ≠ some e)
      (hp : Passive s s')
      (hs : s'.slots = Function.update s.slots e { s.slots e with envStatus := st })
      (hf : s'.envFreeList = s.envFreeList) (hl : s'.controlLog = s.controlLog) : Act A 0 s s'
  /-- `env_free`. -/
  | free {s s' : Kernel} {e : ℕ} (hlive : (s.slots e).envStatus ≠ .free) (hA : A e)
      (h : Freed s s' e) : Act A 0 s s'
  /-- `curenv = NULL`, once the environment is freed. -/
  | drop {s : Kernel} (h : ∀ e, s.curenv = some e → (s.slots e).envStatus = .free) :
      Act A 0 s (s.setCurenv none)
  /-- The environment of this CPU is past the zombie check. -/
  | dispatch {s : Kernel} {e : ℕ} (he : s.curenv = some e)
      (hst : (s.slots e).envStatus ≠ .dying) : Act A 0 s (s.note (.dispatch s.cpunum e))

/-- A sequence of acts, with the number of allocations. -/
inductive Acts (A : ℕ → Prop) : ℕ → Kernel → Kernel → Prop
  | refl {s : Kernel} : Acts A 0 s s
  | tail {s s' s'' : Kernel} {n m : ℕ} (h : Acts A n s s') (ha : Act A m s' s'') :
      Acts A (n + m) s s''

theorem Acts.single {n : ℕ} (h : Act A n s s') : Acts A n s s' := by
  have h0 := Acts.tail (.refl (A := A) (s := s)) h
  rwa [Nat.zero_add] at h0

theorem Acts.trans {n m : ℕ} (h : Acts A n s s') (h' : Acts A m s' s'') : Acts A (n + m) s s'' := by
  induction h' with
  | refl => exact h
  | tail _ ha ih =>
    rw [← Nat.add_assoc]
    exact (ih h).tail ha

theorem MemoryOnly.act (h : MemoryOnly s s') : Act A 0 s s' := .quiet h.quiet

/-! ## Leaving the kernel -/

/-- The slots after `env_run e`. -/
def ranSlots (s : Kernel) (e j : ℕ) : Slot :=
  if j = e then { s.slots e with envStatus := .running }
  else if s.curenv = some j ∧ (s.slots j).envStatus = .running then
    { s.slots j with envStatus := .runnable }
  else s.slots j

/-- What `env_run e` has done, with `d` the directory of `e`. -/
structure Ran (s s' : Kernel) (e d : ℕ) : Prop where
  pgdir : (s.slots e).envPgdir = some d
  slots : ∀ j, s'.slots j = s.ranSlots e j
  envFreeList : s'.envFreeList = s.envFreeList
  cpunum : s'.cpunum = s.cpunum
  kernelLock : s'.kernelLock = none
  other : ∀ c, c ≠ s.cpunum → s'.cpus c = s.cpus c
  cpu : s'.thiscpu.cpuEnv = some e ∧ s'.thiscpu.userMode = true ∧ s'.thiscpu.cr3 = d
  controlLog : s'.controlLog = s.controlLog

/-- **How a kernel entry ends.** -/
inductive Leave : Kernel → Kernel → Prop
  /-- `env_run` of the environment that was running. -/
  | run {s s' : Kernel} {e d : ℕ} (hcur : s.curenv = some e)
      (hst : (s.slots e).envStatus = .running) (h : Ran s s' e d) : Leave s s'
  /-- `env_run` of the environment that the scheduler selected. -/
  | select {s s' : Kernel} {e d : ℕ} (hst : (s.slots e).envStatus = .runnable ∨
        s.curenv = some e ∧ (s.slots e).envStatus = .running)
      (h : Ran (s.note (.select s.cpunum e)) s' e d) : Leave s s'
  /-- `sched_halt` -/
  | halt {s s' : Kernel} (hcur : ∀ e, s.curenv = some e → (s.slots e).envStatus ≠ .running)
      (hs : s'.slots = s.slots) (hf : s'.envFreeList = s.envFreeList)
      (hn : s'.cpunum = s.cpunum) (hlock : s'.kernelLock = none)
      (hother : ∀ c, c ≠ s.cpunum → s'.cpus c = s.cpus c)
      (hcpu : s'.thiscpu.cpuEnv = none ∧ s'.thiscpu.userMode = s.thiscpu.userMode)
      (hl : s'.controlLog = s.controlLog) : Leave s s'
  /-- `sched_halt` with nothing left to run. -/
  | monitor {s : Kernel} : Leave s s

theorem slots_setStatus (s : Kernel) (e : ℕ) (st : EnvStatus) :
    (s.setStatus e st).slots = Function.update s.slots e { s.slots e with envStatus := st } :=
  slots_setEnv s e _

/-- The first lines of `env_run`, about the environment that stops running. -/
def preempt (s : Kernel) : Kernel :=
  match s.curenv with
  | none => s
  | some c => if (s.envs c).envStatus = .running then s.setStatus c .runnable else s

theorem preempt_slots (s : Kernel) (j : ℕ) :
    s.preempt.slots j = if s.curenv = some j ∧ (s.slots j).envStatus = .running then
      { s.slots j with envStatus := .runnable } else s.slots j := by
  unfold preempt
  cases hc : s.curenv with
  | none => simp
  | some c =>
    by_cases hrun : (s.envs c).envStatus = .running
    · simp only [hrun, if_true, slots_setStatus]
      rcases eq_or_ne j c with rfl | hj
      · simp [hrun]
      · simp [hj, hj.symm]
    · simp only [hrun, if_false]
      rcases eq_or_ne j c with rfl | hj
      · simp [hrun]
      · simp [hj.symm]

theorem preempt_frame (s : Kernel) : s.preempt.envFreeList = s.envFreeList ∧
    s.preempt.cpunum = s.cpunum ∧ s.preempt.cpus = s.cpus ∧ s.preempt.log = s.log := by
  unfold preempt
  split
  · exact ⟨rfl, rfl, rfl, rfl⟩
  · split <;> exact ⟨rfl, rfl, rfl, rfl⟩

/-- The rest of `env_run`. -/
def resume (s : Kernel) (e : ℕ) : Except Panic Kernel :=
  let s := s.setCurenv (some e)
  let s := s.setEnv e { s.envs e with envStatus := .running, envRuns := (s.envs e).envRuns + 1 }
  match (s.envs e).envPgdir with
  | none => .error .paddr
  | some d =>
    let s := s.lcr3 d
    let s := s.unlockKernel
    let s := s.setEnv e { s.envs e with envCpunum := s.cpunum }
    .ok (s.setCpu { s.thiscpu with userMode := true })

theorem envRun_eq (s : Kernel) (e : ℕ) : s.envRun e = s.preempt.resume e := rfl

theorem ran_of_envRun (h : s.envRun e = .ok s') : ∃ d, Ran s s' e d := by
  obtain ⟨hfl, hn, hcpus, hlog⟩ := preempt_frame s
  have hslot := preempt_slots s
  rw [envRun_eq] at h
  unfold resume at h
  simp only at h
  split at h
  · cases h
  · rename_i d hd
    have hs' := Except.ok.inj h
    have hpg : (s.slots e).envPgdir = some d := by
      have h0 : (s.preempt.slots e).envPgdir = some d := by
        simpa [Kernel.setEnv, setCurenv, setCpu] using hd
      rw [hslot] at h0
      split at h0 <;> exact h0
    have henvs : ∀ j, s'.slots j = if j = e then { s.preempt.slots e with envStatus := .running }
        else s.preempt.slots j := by
      intro j
      subst hs'
      rcases eq_or_ne j e with rfl | hj
      · simp [slots, Env.slot, setCpu, Kernel.setEnv, unlockKernel, lcr3, setCurenv]
      · simp [slots, setCpu, Kernel.setEnv, unlockKernel, lcr3, setCurenv, hj]
    refine ⟨d, ?_⟩
    constructor
    · exact hpg
    · intro j
      rw [henvs, ranSlots, hslot, hslot]
      split
      · split <;> rfl
      · rfl
    · subst hs'
      simpa [setCpu, Kernel.setEnv, unlockKernel, lcr3, setCurenv] using hfl
    · subst hs'
      simpa [setCpu, Kernel.setEnv, unlockKernel, lcr3, setCurenv] using hn
    · subst hs'
      simp [setCpu, Kernel.setEnv, unlockKernel, lcr3, setCurenv]
    · intro c hc
      have hc' : c ≠ s.preempt.cpunum := by rw [hn]; exact hc
      subst hs'
      simp [setCpu, Kernel.setEnv, unlockKernel, lcr3, setCurenv, hc', hcpus]
    · subst hs'
      simp [setCpu, Kernel.setEnv, unlockKernel, lcr3, setCurenv, thiscpu]
    · have h0 : s'.log = s.preempt.log := by
        subst hs'
        simp [setCpu, Kernel.setEnv, unlockKernel, lcr3, setCurenv]
      rw [controlLog, h0, hlog, controlLog]

/-- An environment that has a directory can be run. -/
theorem exists_envRun {d : ℕ} (h : (s.envs e).envPgdir = some d) : ∃ s', s.envRun e = .ok s' := by
  have hpre : (s.preempt.slots e).envPgdir = some d := by
    rw [preempt_slots]
    split <;> exact h
  rw [envRun_eq]
  unfold resume
  simp only
  split
  · rename_i hnone
    have h0 : (s.preempt.slots e).envPgdir = none := by
      simpa [Kernel.setEnv, setCurenv, setCpu] using hnone
    rw [h0] at hpre
    cases hpre
  · exact ⟨_, rfl⟩

/-! ## The scheduler -/

theorem schedPick_runnable {j : ℕ} (h : s.schedPick = some j) :
    (s.slots j).envStatus = .runnable := by
  simpa using List.find?_some h

/-- `sched_halt`, when the environment of this CPU is not running. -/
theorem leave_schedHalt (hcur : ∀ e, s.curenv = some e → (s.slots e).envStatus ≠ .running) :
    Leave s s.schedHalt := by
  unfold schedHalt
  split
  · exact .monitor
  · refine .halt hcur ?_ ?_ ?_ ?_ (fun c hc => ?_) ?_ ?_
    · funext j
      simp [slots, setCpu, unlockKernel, lcr3, setCurenv]
    · simp [setCpu, unlockKernel, lcr3, setCurenv]
    · simp [setCpu, unlockKernel, lcr3, setCurenv]
    · simp [unlockKernel]
    · simp [setCpu, unlockKernel, lcr3, setCurenv, hc]
    · simp [setCpu, unlockKernel, lcr3, setCurenv, thiscpu]
    · simp [controlLog, setCpu, unlockKernel, lcr3, setCurenv]

/-- **`sched_yield` leaves the kernel.** -/
theorem leave_schedYield (h : s.schedYield = .ok s') : Leave s s' := by
  unfold schedYield at h
  cases hpick : s.schedPick with
  | some j =>
    rw [hpick] at h
    obtain ⟨d, hran⟩ := ran_of_envRun h
    exact .select (Or.inl (schedPick_runnable hpick)) hran
  | none =>
    rw [hpick] at h
    cases hc : s.curenv with
    | none =>
      rw [hc] at h
      obtain rfl := Except.ok.inj h
      exact leave_schedHalt fun e he => by rw [hc] at he; cases he
    | some c =>
      rw [hc] at h
      simp only at h
      split at h
      · rename_i hrun
        obtain ⟨d, hran⟩ := ran_of_envRun h
        exact .select (Or.inr ⟨hc, hrun⟩) hran
      · rename_i hrun
        obtain rfl := Except.ok.inj h
        refine leave_schedHalt fun e he => ?_
        rw [hc] at he
        obtain rfl := Option.some.inj he
        exact hrun

theorem leave_trapReturn (h : s.trapReturn = .ok s') : Leave s s' := by
  unfold trapReturn at h
  cases hc : s.curenv with
  | none =>
    rw [hc] at h
    exact leave_schedYield h
  | some c =>
    rw [hc] at h
    simp only at h
    split at h
    · rename_i hrun
      obtain ⟨d, hran⟩ := ran_of_envRun h
      exact .run hc hrun hran
    · exact leave_schedYield h

/-! ## Allocating and freeing -/

/-- `env_setup_vm` fails without a trace, or enters a directory. -/
theorem envSetupVm_cases {r : ℤ} (h : s.envSetupVm e = .ok (r, s')) :
    (r = -eNoMem ∧ MemoryOnly s s') ∨
    ∃ d, r = 0 ∧ Passive s s' ∧
      s'.slots = Function.update s.slots e { s.slots e with envPgdir := some d } ∧
      s'.envFreeList = s.envFreeList ∧ s'.controlLog = s.controlLog := by
  unfold envSetupVm at h
  obtain ⟨⟨o, s₁⟩, halloc, h⟩ := bind_eq_ok.mp h
  have h₁ := memoryOnly_of_pageAlloc halloc
  cases o with
  | none =>
    obtain ⟨rfl, rfl⟩ := Prod.mk.inj (Except.ok.inj h)
    exact Or.inl ⟨rfl, h₁⟩
  | some p =>
    obtain ⟨d, -, h⟩ := bind_eq_ok.mp h
    obtain ⟨rfl, hs'⟩ := Prod.mk.inj (Except.ok.inj h)
    have hs₁ : s₁.slots = s.slots := by
      funext j
      rw [slots, slots, h₁.envs]
    have hp : Passive s₁ s' := by
      subst hs'
      exact ⟨rfl, rfl, fun _ _ => rfl, rfl, rfl⟩
    have hslots : s'.slots = Function.update s₁.slots e { s₁.slots e with envPgdir := some d } := by
      have h0 : s'.envs = Function.update s₁.envs e { s₁.envs e with envPgdir := some d } := by
        subst hs'
        rfl
      funext j
      rw [slots, h0]
      rcases eq_or_ne j e with rfl | hj
      · simp [slots, Env.slot]
      · simp [slots, hj]
    refine Or.inr ⟨d, rfl, h₁.passive.trans hp, by rw [hslots, hs₁], ?_, ?_⟩
    · subst hs'
      exact h₁.envFreeList
    · subst hs'
      exact h₁.controlLog

/-- `env_alloc` fails without a trace, or takes the first free slot. -/
theorem envAlloc_cases {parentId : Word} {r : ℤ} {o : Option ℕ}
    (h : s.envAlloc parentId = .ok (r, o, s')) :
    (r < 0 ∧ MemoryOnly s s') ∨ ∃ e, r = 0 ∧ o = some e ∧ Allocated s s' e .runnable := by
  unfold envAlloc at h
  cases he : s.envFreeList with
  | none =>
    rw [he] at h
    obtain ⟨rfl, h'⟩ := Prod.mk.inj (Except.ok.inj h)
    obtain ⟨-, rfl⟩ := Prod.mk.inj h'
    exact Or.inl ⟨by decide, .refl s⟩
  | some e =>
    rw [he] at h
    obtain ⟨⟨r₁, s₁⟩, hvm, h⟩ := bind_eq_ok.mp h
    rcases envSetupVm_cases hvm with ⟨rfl, hm⟩ | ⟨d, rfl, hp, hs, hf, hl⟩
    · have hneg : (-eNoMem : ℤ) < 0 := by decide
      simp only [hneg, if_true] at h
      obtain ⟨rfl, h'⟩ := Prod.mk.inj (Except.ok.inj h)
      obtain ⟨-, rfl⟩ := Prod.mk.inj h'
      exact Or.inl ⟨hneg, hm⟩
    · simp only [Int.lt_irrefl, if_false] at h
      obtain ⟨rfl, h'⟩ := Prod.mk.inj (Except.ok.inj h)
      obtain ⟨rfl, hs'⟩ := Prod.mk.inj h'
      have hslot : s₁.slots e = { s.slots e with envPgdir := some d } := by
        rw [hs, Function.update_self]
      have hid : (s₁.envs e).envId = (s.slots e).envId := congrArg Slot.envId hslot
      have hlink : (s₁.envs e).envLink = (s.slots e).envLink := congrArg Slot.envLink hslot
      have hpg : (s₁.envs e).envPgdir = some d := congrArg Slot.envPgdir hslot
      have hp' : Passive s₁ s' := by
        subst hs'
        exact ⟨rfl, rfl, fun _ _ => rfl, rfl, rfl⟩
      have hslots : s'.slots = Function.update s.slots e
          ⟨.runnable, nextEnvId (s.slots e).envId e, (s.slots e).envLink, some d⟩ := by
        have h0 : s'.slots = (s₁.setEnv e { s₁.envs e with
            envId := nextEnvId (s₁.envs e).envId e
            envParentId := parentId
            envStatus := .runnable
            envRuns := 0
            envTf := freshTrapframe
            envPgfaultUpcall := 0
            envIpcRecving := false }).slots := by
          subst hs'
          rfl
        rw [h0, slots_setEnv, hs, Function.update_idem]
        simp only [Env.slot, hid, hlink, hpg]
      refine Or.inr ⟨e, rfl, rfl, he, hp.trans hp', ⟨d, hslots⟩, ?_, ?_⟩
      · subst hs'
        simp [setEnv, hlink]
      · subst hs'
        exact hl

/-- The status of a new environment may be written once more. -/
theorem Allocated.setEnv {st st' : EnvStatus} {v : Env} (h : Allocated s s' e st)
    (hv : v.slot = { s'.slots e with envStatus := st' }) : Allocated s (s'.setEnv e v) e st' := by
  obtain ⟨d, hs⟩ := h.slots
  refine ⟨h.head, h.passive.trans (.setEnv s' e v), ⟨d, ?_⟩, h.envFreeList, h.controlLog⟩
  rw [slots_setEnv, hv, hs, Function.update_self, Function.update_idem]

theorem memoryOnly_of_envFreeTable {d i t : ℕ} (h : s.envFreeTable d i t = .ok s') :
    MemoryOnly s s' := by
  refine foldlM_invariant (P := MemoryOnly s) (fun b k b' hb hk => ?_) _ (.refl s) h
  split at hk
  · exact hb.trans (memoryOnly_of_pageRemove hk)
  · obtain rfl := Except.ok.inj hk
    exact hb

theorem memoryOnly_of_envFreePde {d i : ℕ} (h : envFreePde d s i = .ok s') : MemoryOnly s s' := by
  unfold envFreePde at h
  split at h
  · obtain rfl := Except.ok.inj h
    exact .refl s
  · obtain ⟨t, -, h⟩ := bind_eq_ok.mp h
    obtain ⟨s₁, htab, h⟩ := bind_eq_ok.mp h
    obtain ⟨pp, -, h⟩ := bind_eq_ok.mp h
    exact (memoryOnly_of_envFreeTable htab).trans
      ((MemoryOnly.setWord s₁ d i 0#32).trans (memoryOnly_of_pageDecref h))

/-- `env_free` -/
theorem freed_of_envFree (h : s.envFree e = .ok s') : Freed s s' e := by
  unfold envFree at h
  obtain ⟨s₁, hs₁, hp₁, hslots₁, hf₁, hl₁⟩ : ∃ s₁ : Kernel, s₁ =
      (if (s.note (.envFree s.cpunum e)).curenv = some e
        then (s.note (.envFree s.cpunum e)).lcr3 (s.note (.envFree s.cpunum e)).kernPgdir
        else s.note (.envFree s.cpunum e)) ∧ Passive s s₁ ∧ s₁.slots = s.slots ∧
      s₁.envFreeList = s.envFreeList ∧ s₁.controlLog = .envFree s.cpunum e :: s.controlLog := by
    refine ⟨_, rfl, ?_⟩
    split
    · refine ⟨⟨rfl, rfl, fun c hc => ?_, ?_, ?_⟩, rfl, rfl, rfl⟩
      · simp [lcr3, setCpu, Kernel.note, hc]
      · simp [lcr3, setCpu, Kernel.note, curenv, thiscpu]
      · simp [lcr3, setCpu, Kernel.note, thiscpu]
    · exact ⟨.of_eq rfl rfl rfl, rfl, rfl, rfl⟩
  simp only [← hs₁] at h
  obtain ⟨d, -, h⟩ := bind_eq_ok.mp h
  obtain ⟨s₂, hloop, h⟩ := bind_eq_ok.mp h
  have h₂ : MemoryOnly s₁ s₂ :=
    foldlM_invariant (P := MemoryOnly s₁)
      (fun b k b' hb hk => hb.trans (memoryOnly_of_envFreePde hk)) _ (.refl s₁) hloop
  obtain ⟨pp, -, h⟩ := bind_eq_ok.mp h
  obtain ⟨s₃, hdec, h⟩ := bind_eq_ok.mp h
  have h₃ := memoryOnly_of_pageDecref hdec
  have hs' := Except.ok.inj h
  have hslots₂ : s₂.slots = s.slots := by
    rw [← hslots₁]
    funext j
    rw [slots, slots, h₂.envs]
  have hslots₃ : s₃.slots = Function.update s.slots e { s.slots e with envPgdir := none } := by
    have h0 : s₃.slots = (s₂.setEnv e { s₂.envs e with envPgdir := none }).slots := by
      funext j
      rw [slots, slots, h₃.envs]
    rw [h0, slots_setEnv, hslots₂, ← hslots₂]
    rfl
  have hself : s₃.slots e = { s.slots e with envPgdir := none } := by
    rw [hslots₃, Function.update_self]
  have hid : (s₃.envs e).envId = (s.slots e).envId := congrArg Slot.envId hself
  have hpg : (s₃.envs e).envPgdir = none := congrArg Slot.envPgdir hself
  have hf₃ : s₃.envFreeList = s.envFreeList := h₃.envFreeList.trans (h₂.envFreeList.trans hf₁)
  have hp : Passive s s₃ :=
    (hp₁.trans h₂.passive).trans ((Passive.setEnv s₂ e _).trans h₃.passive)
  have hp' : Passive s₃ s' := by
    subst hs'
    exact ⟨rfl, rfl, fun _ _ => rfl, rfl, rfl⟩
  have hslots : s'.slots =
      Function.update s.slots e ⟨.free, (s.slots e).envId, s.envFreeList, none⟩ := by
    have h0 : s'.slots = (s₃.setEnv e { s₃.envs e with
        envStatus := .free, envLink := s₃.envFreeList }).slots := by
      subst hs'
      rfl
    rw [h0, slots_setEnv, hslots₃, Function.update_idem]
    simp only [Env.slot, hid, hpg, hf₃]
  refine ⟨hp.trans hp', hslots, ?_, ?_⟩
  · subst hs'
    rfl
  · subst hs'
    exact h₃.controlLog.trans (h₂.controlLog.trans hl₁)

theorem Freed.status (h : Freed s s' e) : (s'.slots e).envStatus = .free := by
  rw [h.slots, Function.update_self]

end Kernel
end PmakeOs
