import PmakeOs.Sched.Calm

/-!
# One CPU for each environment

`Exclusive s`: no environment is `curenv` of two CPUs, and the environment of a CPU
in user mode is marked `ENV_RUNNING` or `ENV_DYING`.

Of the six places that write `env_status`, `sys_env_set_status` and
`sys_ipc_try_send` write that of an environment they are told, and neither looks at
the CPUs.  If such an environment is running elsewhere, it is runnable and running
at once, and the scheduler can start it a second time.  In runs where that does
not happen the system stays exclusive.
-/

namespace PmakeOs

open Lib

namespace Kernel

variable {s s' s₀ : Kernel} {c e : ℕ} {x : Entry}

structure Exclusive (s : Kernel) : Prop where
  one : ∀ c c' e, (s.cpus c).cpuEnv = some e → (s.cpus c').cpuEnv = some e → c = c'
  user : ∀ c, (s.cpus c).userMode = true → ∃ e, (s.cpus c).cpuEnv = some e ∧
    ((s.envs e).envStatus = .running ∨ (s.envs e).envStatus = .dying)

theorem Calm.exclusive (h : Calm s) : Exclusive s := by
  refine ⟨h.one, fun c hu => ?_⟩
  obtain ⟨e, he, hon, -⟩ := h.user c hu
  exact ⟨e, he, hon⟩

/-- **In every orderly run the system is exclusive**, whatever the number of CPUs and
the order of their entries. -/
theorem exclusive_of_orderly (h0 : Unstarted s₀) (h : SmpRun Orderly s₀ s) : Exclusive s :=
  (h0.calm.run (fun _ _ ho => ho) h).exclusive

/-! ## A system with one environment -/

theorem entry_eq_ok_after (h : (s.entry c x).isOk = true) :
    s.entry c x = .ok (s.after c x) := by
  unfold after
  cases hr : s.entry c x with
  | ok s' => rfl
  | error p =>
    rw [hr] at h
    cases h

theorem SmpRun.next {K : Kernel → ℕ → Entry → Prop} (h : SmpRun K s₀ s) (hx : CanEnter s c x)
    (hk : K s c x) (hok : (s.entry c x).isOk = true) : SmpRun K s₀ (s.after c x) :=
  h.tail ⟨c, x, hx, hk, entry_eq_ok_after hok⟩

/-- One environment has been created; the other slots and eight pages are free. -/
def oneEnv : Kernel where
  npages := 16
  pages p := ⟨if 8 ≤ p ∧ p < 15 then some (p + 1) else none, 0#16⟩
  pageFreeList := some 8
  phys _ _ := 0#32
  kernPgdir := 1
  envs e :=
    { envTf := freshTrapframe
      envLink := if e = 0 ∨ nenv ≤ e + 1 then none else some (e + 1)
      envId := if e = 0 then nextEnvId 0#32 0 else 0#32
      envParentId := 0#32
      envStatus := if e = 0 then .runnable else .free
      envRuns := 0
      envCpunum := 0
      envPgdir := if e = 0 then some 2 else none
      envPgfaultUpcall := 0
      envIpcRecving := false
      envIpcDstva := 0
      envIpcValue := 0
      envIpcFrom := 0
      envIpcPerm := 0 }
  envFreeList := some 1
  cpus _ := ⟨.started, none, false, 0, []⟩
  cpunum := 0
  kernelLock := none
  userMemCheckAddr := 0
  log := []

theorem oneEnv_unstarted : Unstarted oneEnv := by
  constructor
  · have hlink : ∀ e, (oneEnv.slots e).envLink =
        if e = 0 ∨ nenv ≤ e + 1 then none else some (e + 1) := fun _ => rfl
    refine ⟨List.range' 1 1023, ?_, fun e he => ?_⟩
    · refine Threads.range' (k := 1) (n := 1023) fun i hi hlt => ?_
      rw [hlink]
      by_cases hlast : i + 1 < 1 + 1023
      · rw [if_pos hlast, if_neg (by rw [nenv]; omega)]
      · rw [if_neg hlast, if_pos (by rw [nenv]; omega)]
    · have hne : e ≠ 0 := by
        rw [List.mem_range'_1] at he
        omega
      show (if e = 0 then EnvStatus.runnable else .free) = .free
      rw [if_neg hne]
  · rfl
  · exact fun _ => ⟨rfl, rfl⟩
  · intro e hon
    have hst : (oneEnv.slots e).envStatus = if e = 0 then .runnable else .free := rfl
    unfold OnCpu at hon
    rw [hst] at hon
    split at hon <;> simp at hon

/-- A system call, with the registers of a new environment. -/
def sysEntry (x : Syscall) : Entry := .trap freshTrapframe (.syscall x)

/-- The environment is started on CPU 0, forks a child, and the child is started on
CPU 1. -/
def twoRunning : Kernel :=
  (((oneEnv.after 0 .schedule).after 0 (sysEntry .exofork)).after 0
    (sysEntry (.envSetStatus 0x1001#32 EnvStatus.runnable.toWord))).after 1 .schedule

theorem twoRunning_run {K : Kernel → ℕ → Entry → Prop} (hs : ∀ s c, K s c .schedule)
    (hf : K (oneEnv.after 0 .schedule) 0 (sysEntry .exofork))
    (hset : K ((oneEnv.after 0 .schedule).after 0 (sysEntry .exofork)) 0
      (sysEntry (.envSetStatus 0x1001#32 EnvStatus.runnable.toWord))) :
    SmpRun K oneEnv twoRunning := by
  have h1 : SmpRun K oneEnv (oneEnv.after 0 .schedule) :=
    .next .refl (by decide +kernel) (hs _ _) (by decide +kernel)
  have h2 := h1.next (c := 0) (x := sysEntry .exofork) (by decide +kernel) hf (by decide +kernel)
  have h3 := h2.next (c := 0) (x := sysEntry (.envSetStatus 0x1001#32 EnvStatus.runnable.toWord))
    (by decide +kernel) hset (by decide +kernel)
  exact h3.next (by decide +kernel) (hs _ _) (by decide +kernel)

/-- The status is set while the other CPUs have not entered the kernel yet. -/
theorem twoRunning_orderly : SmpRun Orderly oneEnv twoRunning := by
  refine twoRunning_run (fun _ _ => trivial) trivial fun _ e _ helse => ?_
  obtain ⟨c, hc, he⟩ := helse
  have hcalm := oneEnv_unstarted.calm
  have h1 : oneEnv.entry 0 .schedule = .ok (oneEnv.after 0 .schedule) :=
    entry_eq_ok_after (by decide +kernel)
  have hcalm' := hcalm.entry (c := 0) (x := .schedule) (by decide +kernel) trivial h1
  rw [hcalm'.entry_other (x := sysEntry .exofork) (by decide +kernel) trivial
      (entry_eq_ok_after (by decide +kernel)) hc,
    hcalm.entry_other (x := .schedule) (by decide +kernel) trivial h1 hc] at he
  cases he

/-- The theorem on the run after which parent and child are on two CPUs. -/
theorem exclusive_of_orderly_twoRunning : Unstarted oneEnv ∧ SmpRun Orderly oneEnv twoRunning ∧
    (twoRunning.cpus 0).cpuEnv = some 0 ∧ (twoRunning.cpus 1).cpuEnv = some 1 ∧
    Exclusive twoRunning :=
  ⟨oneEnv_unstarted, twoRunning_orderly, by decide +kernel, by decide +kernel,
    exclusive_of_orderly oneEnv_unstarted twoRunning_orderly⟩

/-- The entries that write a status: the clock, a fault, and six handlers. -/
def Entry.isControl : Entry → Bool
  | .schedule | .trap _ .timer | .trap _ .fault => true
  | .trap _ .spurious | .trap _ (.pageFault _) => false
  | .trap _ (.syscall x) => match x with
    | .yield | .exofork | .envSetStatus .. | .envDestroy .. | .ipcTrySend .. | .ipcRecv .. => true
    | _ => false

/-- **Not every run is exclusive**: the child runs on CPU 1 while its parent makes it
runnable. -/
theorem not_exclusive_of_setStatus :
    ¬ ∀ s₀ s, Unstarted s₀ → SmpRun (fun _ _ x => x.isControl = true) s₀ s → Exclusive s := by
  intro hall
  have hrun : SmpRun (fun _ _ x => x.isControl = true) oneEnv twoRunning :=
    twoRunning_run (fun _ _ => rfl) rfl rfl
  have hlast := hrun.next (c := 0)
    (x := sysEntry (.envSetStatus 0x1001#32 EnvStatus.runnable.toWord)) (by decide +kernel) rfl
    (by decide +kernel)
  have huser := (hall _ _ oneEnv_unstarted hlast).user 1 (by decide +kernel)
  obtain ⟨e, he, hst⟩ := huser
  have hcur : ((twoRunning.after 0
      (sysEntry (.envSetStatus 0x1001#32 EnvStatus.runnable.toWord))).cpus 1).cpuEnv = some 1 := by
    decide +kernel
  rw [hcur] at he
  obtain rfl := Option.some.inj he
  exact absurd hst (by decide +kernel)

end Kernel
end PmakeOs
