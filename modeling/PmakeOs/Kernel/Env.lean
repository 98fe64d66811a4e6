import PmakeOs.Kernel.Pmap
import Mathlib.Tactic.ByContra

/-!
# `kern/env.c` and `kern/sched.c`: environments and the scheduler

`env_init`, `envid2env`, `env_alloc` with `env_setup_vm`, `env_free`, `env_destroy`,
`env_run`, `sched_yield` and `sched_halt`.

`env_run` and `sched_halt` do not return to their caller: they release the big
kernel lock and leave the kernel, to user mode or to the halt loop.  A function
that may end that way returns a `Flow`.  When no environment is left to run,
`sched_halt` enters the kernel monitor for ever with the lock held, and that is
what a lock that is still taken after a kernel entry stands for.
-/

namespace PmakeOs

/-- How a kernel function ends: it returns to its caller, or the CPU has left
the kernel. -/
inductive Flow where
  | ret (r : ℤ)
  | left
  deriving DecidableEq

namespace Kernel

/-- `NENV` -/
def nenv : ℕ := 1024

/-- `ENVX`: the slot of an environment id. -/
def envx (envid : Word) : ℕ := (envid &&& BitVec.ofNat 32 (nenv - 1)).toNat

/-- `envid2env`, with the environment it stores through `env_store`. -/
def envid2env (s : Kernel) (envid : Word) (checkperm : Bool) :
    Except Panic (ℤ × Option ℕ) := do
  if envid = 0#32 then return (0, s.curenv)
  let e := envx envid
  if (s.envs e).envStatus = .free ∨ (s.envs e).envId ≠ envid then return (-eBadEnv, none)
  if checkperm ∧ s.curenv ≠ some e then
    let c ← deref s.curenv
    if (s.envs e).envParentId ≠ (s.envs c).envId then return (-eBadEnv, none)
    return (0, some e)
  return (0, some e)

/-- One round of the loop of `env_init`. -/
def envInitSlot (s : Kernel) (i : ℕ) : Kernel :=
  { s.setEnv i { s.envs i with envId := 0#32, envLink := s.envFreeList } with
    envFreeList := some i }

/-- `env_init`: the slots are pushed from the last one down to the first. -/
def envInit (s : Kernel) : Kernel :=
  (List.range nenv).reverse.foldl envInitSlot { s with envFreeList := none }

/-- The environment is not on the free list. -/
def Live (s : Kernel) (e : ℕ) : Prop := (s.envs e).envStatus ≠ .free

/-- `envid2env` for a live caller: a live environment, or `E_BAD_ENV`. -/
theorem envid2env_cases {s : Kernel} {c : ℕ} (hc : s.curenv = some c) (hlive : Live s c) (envid : Word) (ck : Bool) :
    s.envid2env envid ck = .ok (-eBadEnv, none) ∨
    ∃ e, s.envid2env envid ck = .ok (0, some e) ∧ Live s e := by
  unfold envid2env
  by_cases h0 : envid = 0#32
  · rw [if_pos h0, hc]
    exact Or.inr ⟨c, rfl, hlive⟩
  rw [if_neg h0]
  by_cases hbad : (s.envs (envx envid)).envStatus = .free ∨ (s.envs (envx envid)).envId ≠ envid
  · simp only [if_pos hbad]
    exact Or.inl rfl
  have hl : Live s (envx envid) := fun hf => hbad (Or.inl hf)
  simp only [if_neg hbad, hc]
  by_cases hck : ck ∧ some c ≠ some (envx envid)
  · rw [if_pos hck, deref_some, ok_bind]
    by_cases hpar : (s.envs (envx envid)).envParentId ≠ (s.envs c).envId
    · rw [if_pos hpar]
      exact Or.inl rfl
    · rw [if_neg hpar]
      exact Or.inr ⟨_, rfl, hl⟩
  · rw [if_neg hck]
    exact Or.inr ⟨_, rfl, hl⟩

/-- An id other than zero names the environment of its slot, and that environment
has the id. -/
theorem eq_envx_of_envid2env {s : Kernel} {envid : Word} {ck : Bool} {e : ℕ}
    (h0 : envid ≠ 0#32) (h : s.envid2env envid ck = .ok (0, some e)) :
    e = envx envid ∧ (s.envs e).envId = envid := by
  unfold envid2env at h
  rw [if_neg h0] at h
  simp only at h
  split at h
  · exact nomatch (Prod.mk.inj (Except.ok.inj h)).2
  rename_i hbad
  have hid : (s.envs (envx envid)).envId = envid := by
    by_contra hne
    exact hbad (Or.inr hne)
  split at h
  · obtain ⟨c, -, h⟩ := bind_eq_ok.mp h
    split at h
    · exact nomatch (Prod.mk.inj (Except.ok.inj h)).2
    · obtain rfl := Option.some.inj (Prod.mk.inj (Except.ok.inj h)).2
      exact ⟨rfl, hid⟩
  · obtain rfl := Option.some.inj (Prod.mk.inj (Except.ok.inj h)).2
    exact ⟨rfl, hid⟩

/-! ## Allocation -/

/-- `env_setup_vm`: a fresh directory, a copy of the kernel's except for the
entry through which it sees itself. -/
def envSetupVm (s : Kernel) (e : ℕ) : Except Panic (ℤ × Kernel) := do
  match ← s.pageAlloc allocZero with
  | (none, s) => return (-eNoMem, s)
  | (some p, s) =>
    let s := s.incRef p
    let d ← s.page2kva p
    let s := s.setEnv e { s.envs e with envPgdir := some d }
    let s := s.copyFrame d s.kernPgdir
    let s := s.setWord d (pdx uvpt) (page2pa d ||| pteP ||| pteU)
    return (0, s.note (.directory d))

/-- The next id of a slot: the generation field goes up, and starts again at one
when the sign bit would be set. -/
def nextEnvId (old : Word) (e : ℕ) : Word :=
  let generation := (old + BitVec.ofNat 32 (2 ^ 12)) &&& ~~~ BitVec.ofNat 32 (nenv - 1)
  let generation := if generation.toInt ≤ 0 then BitVec.ofNat 32 (2 ^ 12) else generation
  generation ||| BitVec.ofNat 32 e

/-- The saved registers of a new environment: cleared, then the user segments
(`GD_UD | 3`, `GD_UT | 3`), the stack, and interrupts enabled (`FL_IF`). -/
def freshTrapframe : Trapframe :=
  { tfRegs := ⟨0, 0, 0, 0, 0, 0, 0, 0⟩
    tfEs := 0x23, tfDs := 0x23, tfTrapno := 0, tfErr := 0, tfEip := 0, tfCs := 0x1B
    tfEflags := 0x200, tfEsp := ustacktop, tfSs := 0x23 }

/-- `env_alloc`, with the environment it stores through `newenv_store`. -/
def envAlloc (s : Kernel) (parentId : Word) : Except Panic (ℤ × Option ℕ × Kernel) := do
  match s.envFreeList with
  | none => return (-eNoFreeEnv, none, s)
  | some e =>
    let (r, s) ← s.envSetupVm e
    if r < 0 then return (r, none, s)
    let s := s.setEnv e { s.envs e with
      envId := nextEnvId (s.envs e).envId e
      envParentId := parentId
      envStatus := .runnable
      envRuns := 0
      envTf := freshTrapframe
      envPgfaultUpcall := 0
      envIpcRecving := false }
    return (0, some e, { s with envFreeList := (s.envs e).envLink })

/-! ## Teardown -/

/-- The inner loop of `env_free`: unmap every entry of one table. -/
def envFreeTable (s : Kernel) (d pdeno t : ℕ) : Except Panic Kernel :=
  (List.range nptentries).foldlM (fun s pteno =>
    if Has (s.phys t pteno) pteP then s.pageRemove d (pgaddr pdeno pteno 0) else pure s) s

/-- One round of the outer loop of `env_free`: one directory entry. -/
def envFreePde (d : ℕ) (s : Kernel) (pdeno : ℕ) : Except Panic Kernel := do
  if ¬ Has (s.phys d pdeno) pteP then return s
  let pa := pteAddr (s.phys d pdeno)
  let t ← s.kaddr pa
  let s ← s.envFreeTable d pdeno t
  let s := s.setWord d pdeno 0#32
  let pp ← s.pa2page pa
  s.pageDecref pp

/-- `env_free` -/
def envFree (s : Kernel) (e : ℕ) : Except Panic Kernel := do
  let s := s.note (.envFree s.cpunum e)
  let s := if s.curenv = some e then s.lcr3 s.kernPgdir else s
  let d ← deref (s.envs e).envPgdir
  let s ← (List.range (pdx utop)).foldlM (envFreePde d) s
  let s := s.setEnv e { s.envs e with envPgdir := none }
  let pp ← s.pa2page (page2pa d)
  let s ← s.pageDecref pp
  let s := s.setEnv e { s.envs e with envStatus := .free, envLink := s.envFreeList }
  return { s with envFreeList := some e }

/-! ## Running -/

/-- `env_run`, down to the `iret` of `env_pop_tf`. -/
def envRun (s : Kernel) (e : ℕ) : Except Panic Kernel := do
  let s : Kernel := match s.curenv with
    | none => s
    | some c => if (s.envs c).envStatus = .running then s.setStatus c .runnable else s
  let s := s.setCurenv (some e)
  let s := s.setEnv e { s.envs e with envStatus := .running, envRuns := (s.envs e).envRuns + 1 }
  match (s.envs e).envPgdir with
  | none => .error .paddr
  | some d =>
    let s := s.lcr3 d
    let s := s.unlockKernel
    let s := s.setEnv e { s.envs e with envCpunum := s.cpunum }
    return s.setCpu { s.thiscpu with userMode := true }

/-- `sched_halt` -/
def schedHalt (s : Kernel) : Kernel :=
  if ∀ i < nenv, (s.envs i).envStatus ≠ .runnable ∧ (s.envs i).envStatus ≠ .running ∧
      (s.envs i).envStatus ≠ .dying then
    s
  else
    let s := s.setCurenv none
    let s := s.lcr3 s.kernPgdir
    let s := s.setCpu { s.thiscpu with cpuStatus := .halted }
    s.unlockKernel

/-- The slot where the search of `sched_yield` starts. -/
def schedStart (s : Kernel) : ℕ :=
  match s.curenv with
  | none => 0
  | some c => envx (s.envs c).envId + 1

/-- The first runnable slot of the search of `sched_yield`. -/
def schedPick (s : Kernel) : Option ℕ :=
  ((List.range nenv).map fun i => (s.schedStart + i) % nenv).find?
    fun j => (s.envs j).envStatus = .runnable

/-- `sched_yield` -/
def schedYield (s : Kernel) : Except Panic Kernel :=
  match s.schedPick with
  | some j => (s.note (.select s.cpunum j)).envRun j
  | none =>
    match s.curenv with
    | none => .ok s.schedHalt
    | some c =>
      if (s.envs c).envStatus = .running then (s.note (.select s.cpunum c)).envRun c
      else .ok s.schedHalt

/-- `env_destroy`: an environment that runs on another CPU is only marked. -/
def envDestroy (s : Kernel) (e : ℕ) : Except Panic (Flow × Kernel) := do
  if (s.envs e).envStatus = .running ∧ s.curenv ≠ some e then
    return (.ret 0, s.setStatus e .dying)
  let s ← s.envFree e
  if s.curenv = some e then
    let s ← (s.setCurenv none).schedYield
    return (.left, s)
  return (.ret 0, s)

/-- `user_mem_assert` -/
def userMemAssert (s : Kernel) (e : ℕ) (va len perm : Word) : Except Panic (Flow × Kernel) := do
  let (r, s) ← s.userMemCheck e va len (perm ||| pteU)
  if r < 0 then s.envDestroy e else return (.ret 0, s)

end Kernel
end PmakeOs
