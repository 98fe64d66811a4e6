import PmakeOs.Calls.Returns
import PmakeOs.Lib.LinkedList

/-!
# What is written to the table of environments

Everything the kernel does to `envs` is a sequence of stores of twelve kinds, each
made at one place of the source.  `Write` names them, and `Write.Legal o x` is what
is known when a store is made: `o` is the environment of the executing CPU when it
entered the kernel, and `x` is the entry.

* `wrote_handle`, `wrote_entry` --- every handler, and every kernel entry, is a
  sequence of legal stores, and keeps the free list of environments in order.

No invariant is assumed, as in `Sched.Acts`; that module says more about slots and
CPUs, this one covers all fields.
-/

namespace PmakeOs

open Lib

/-- A frame with another `eax`. -/
def Trapframe.withEax (tf : Trapframe) (w : Word) : Trapframe :=
  { tf with tfRegs := { tf.tfRegs with regEax := w } }

namespace Kernel

/-- The system call of a trap. -/
def Trap.call : Trap → Option Syscall
  | .syscall x => some x
  | _ => none

def Entry.call : Entry → Option Syscall
  | .trap _ t => t.call
  | .schedule => none

theorem Entry.eq_trap_of_call {x : Entry} {y : Syscall} (h : x.call = some y) :
    ∃ tf, x = .trap tf (.syscall y) := by
  cases x with
  | schedule => cases h
  | trap tf t =>
    cases t with
    | syscall z => exact ⟨tf, by rw [Option.some.inj h]⟩
    | _ => cases h

/-- A store into the table of environments. -/
inductive Write where
  /-- `trap` saves the frame that the processor pushed. -/
  | save (e : ℕ) (tf : Trapframe)
  /-- `trap_dispatch` stores the result of a system call. -/
  | eax (e : ℕ) (r : ℤ)
  /-- `page_fault_handler` branches to the upcall. -/
  | branch (e : ℕ) (esp : Word)
  | upcall (e : ℕ) (func : Word)
  | status (e : ℕ) (st : EnvStatus)
  /-- `env_alloc`, with the directory that `env_setup_vm` made. -/
  | alloc (e d : ℕ) (parentId : Word)
  /-- `sys_exofork` copies the registers of the caller. -/
  | fork (e c : ℕ)
  | recv (e : ℕ) (dstva : Word)
  | perm (e : ℕ) (p : Word)
  /-- The last lines of `sys_ipc_try_send`. -/
  | deliver (e c : ℕ) (value : Word)
  | free (e : ℕ) (link : Option ℕ)
  /-- `env_run` -/
  | run (e cpu : ℕ)

namespace Write

/-- The environment that is written. -/
def slot : Write → ℕ
  | save e _ | eax e _ | branch e _ | upcall e _ | status e _ | alloc e _ _ | fork e _
  | recv e _ | perm e _ | deliver e _ _ | free e _ | run e _ => e

/-- What it becomes. -/
def value (v : ℕ → Env) : Write → Env
  | save e tf => { v e with envTf := tf }
  | eax e r => { v e with envTf := (v e).envTf.withEax (BitVec.ofInt 32 r) }
  | branch e esp =>
      { v e with envTf := { (v e).envTf with tfEip := (v e).envPgfaultUpcall, tfEsp := esp } }
  | upcall e func => { v e with envPgfaultUpcall := func }
  | status e st => { v e with envStatus := st }
  | alloc e d parentId =>
      { v e with
        envPgdir := some d
        envId := nextEnvId (v e).envId e
        envParentId := parentId
        envStatus := .runnable
        envRuns := 0
        envTf := freshTrapframe
        envPgfaultUpcall := 0
        envIpcRecving := false }
  | fork e c => { v e with envTf := (v c).envTf.withEax 0, envStatus := .notRunnable }
  | recv e dstva =>
      { v e with envIpcRecving := true, envStatus := .notRunnable, envIpcDstva := dstva }
  | perm e p => { v e with envIpcPerm := p }
  | deliver e c value =>
      { v e with
        envIpcRecving := false
        envIpcFrom := (v c).envId
        envIpcValue := value
        envStatus := .runnable
        envTf := (v e).envTf.withEax 0 }
  | free e link => { v e with envPgdir := none, envStatus := .free, envLink := link }
  | run e cpu =>
      { v e with envStatus := .running, envRuns := (v e).envRuns + 1, envCpunum := cpu }

def apply (v : ℕ → Env) (w : Write) : ℕ → Env := Function.update v w.slot (w.value v)

theorem apply_slot (v : ℕ → Env) (w : Write) : w.apply v w.slot = w.value v :=
  Function.update_self ..

theorem apply_of_ne {v : ℕ → Env} {w : Write} {e : ℕ} (h : e ≠ w.slot) : w.apply v e = v e :=
  Function.update_of_ne h ..

/-- Environment `e` is `o`, or a live child of it: what `envid2env` grants. -/
def Within (o : Option ℕ) (v : ℕ → Env) (e : ℕ) : Prop :=
  o = some e ∨ ∃ c, o = some c ∧ (v e).envStatus ≠ .free ∧ (v e).envParentId = (v c).envId

/-- What is known of a store by a CPU with environment `o`, in the entry `x`. -/
def Legal (o : Option ℕ) (x : Entry) (v : ℕ → Env) : Write → Prop
  | save e tf => (∃ t, x = .trap tf t) ∧ o = some e
  | eax e _ => o = some e ∧ x.call ≠ none
  | branch e _ => o = some e ∧ ∃ tf va, x = .trap tf (.pageFault va)
  | upcall e func => (∃ envid, x.call = some (.envSetPgfaultUpcall envid func)) ∧ Within o v e
  | status e st => (st = .dying ∧ Within o v e) ∨
      -- `env_run`, about the environment that it preempts
      (st = .runnable ∧ o = some e ∧ (v e).envStatus = .running) ∨
      ((∃ envid status, x.call = some (.envSetStatus envid status)) ∧ Within o v e ∧ st ≠ .free)
  | alloc _ _ parentId => x.call = some .exofork ∧ ∃ c, o = some c ∧ parentId = (v c).envId
  | fork _ c => x.call = some .exofork ∧ o = some c
  | recv e dstva => x.call = some (.ipcRecv dstva) ∧ o = some e
  | perm e p => (∃ envid value srcva stale,
        x.call = some (.ipcTrySend envid value srcva p stale)) ∧
      (v e).envIpcRecving = true ∧ ((v e).envStatus ≠ .free ∨ o = some e)
  | deliver e c value => (∃ envid srcva p stale,
        x.call = some (.ipcTrySend envid value srcva p stale)) ∧
      o = some c ∧ (v e).envIpcRecving = true ∧ ((v e).envStatus ≠ .free ∨ o = some e)
  | free e _ => Within o v e
  | run e _ => (v e).envStatus = .runnable ∨ o = some e ∧ ∃ tf va, x = .trap tf (.pageFault va)

/-- What the scheduler may store, every entry may. -/
theorem Legal.of_schedule {o : Option ℕ} {v : ℕ → Env} {w : Write} (h : w.Legal o .schedule v)
    (x : Entry) : w.Legal o x v := by
  cases w with
  | save e tf =>
    obtain ⟨⟨t, ht⟩, -⟩ := h
    cases ht
  | eax e r => exact absurd rfl h.2
  | branch e esp =>
    obtain ⟨-, tf, va, ht⟩ := h
    cases ht
  | upcall e func =>
    obtain ⟨⟨envid, ht⟩, -⟩ := h
    cases ht
  | status e st =>
    rcases h with h | h | ⟨⟨envid, status, ht⟩, -⟩
    · exact Or.inl h
    · exact Or.inr (Or.inl h)
    · cases ht
  | alloc e d parentId => exact nomatch h.1
  | fork e c => exact nomatch h.1
  | recv e dstva => exact nomatch h.1
  | perm e p =>
    obtain ⟨⟨envid, value, srcva, stale, ht⟩, -⟩ := h
    cases ht
  | deliver e c value =>
    obtain ⟨⟨envid, srcva, p, stale, ht⟩, -⟩ := h
    cases ht
  | free e link => exact h
  | run e cpu =>
    rcases h with h | ⟨-, tf, va, ht⟩
    · exact Or.inl h
    · cases ht

/-- The store does not touch the free list. -/
def plain : Write → Bool
  | alloc .. | free .. => false
  | _ => true

theorem value_of_plain {v : ℕ → Env} {w : Write} (h : w.plain = true) :
    (w.value v).envLink = (v w.slot).envLink ∧ (w.value v).envPgdir = (v w.slot).envPgdir := by
  cases w with
  | alloc | free => cases h
  | _ => exact ⟨rfl, rfl⟩

end Write

/-- A sequence of stores with `P`. -/
inductive Writes (P : (ℕ → Env) → Write → Prop) : (ℕ → Env) → (ℕ → Env) → Prop
  | refl {v : ℕ → Env} : Writes P v v
  | tail {v v' : ℕ → Env} {w : Write} (h : Writes P v v') (hw : P v' w) : Writes P v (w.apply v')

namespace Writes

variable {P : (ℕ → Env) → Write → Prop} {v v' v'' : ℕ → Env} {w : Write}

theorem single (hw : P v w) : Writes P v (w.apply v) := .tail .refl hw

theorem trans (h : Writes P v v') (h' : Writes P v' v'') : Writes P v v'' := by
  induction h' with
  | refl => exact h
  | tail _ hw ih => exact ih.tail hw

theorem mono {Q : (ℕ → Env) → Write → Prop} (h : Writes P v v') (hpq : ∀ v w, P v w → Q v w) :
    Writes Q v v' := by
  induction h with
  | refl => exact .refl
  | tail _ hw ih => exact ih.tail (hpq _ _ hw)

/-- **What every store keeps, a sequence keeps.** -/
theorem invariant {I : (ℕ → Env) → Prop} (h : Writes P v v') (h0 : I v)
    (hstep : ∀ v w, I v → P v w → I (w.apply v)) : I v' := by
  induction h with
  | refl => exact h0
  | tail _ hw ih => exact hstep _ _ ih hw

end Writes

variable {s s' : Kernel} {o : Option ℕ} {x : Entry} {e c : ℕ} {fl : Flow}

/-- The same CPU executes, and the others are untouched. -/
structure Stays (s s' : Kernel) : Prop where
  cpunum : s'.cpunum = s.cpunum
  other : ∀ c, c ≠ s.cpunum → s'.cpus c = s.cpus c

theorem Stays.refl (s : Kernel) : Stays s s := ⟨rfl, fun _ _ => rfl⟩

theorem Stays.trans {s'' : Kernel} (h : Stays s s') (h' : Stays s' s'') : Stays s s'' :=
  ⟨h'.cpunum.trans h.cpunum,
    fun c hc => (h'.other c (by rw [h.cpunum]; exact hc)).trans (h.other c hc)⟩

theorem Stays.setEnv (s : Kernel) (e : ℕ) (v : Env) : Stays s (s.setEnv e v) :=
  ⟨rfl, fun _ _ => rfl⟩

theorem Stays.setCurenv (s : Kernel) (o : Option ℕ) : Stays s (s.setCurenv o) :=
  ⟨rfl, fun c hc => by simp [Kernel.setCurenv, setCpu, hc]⟩

theorem Passive.stays (h : Passive s s') : Stays s s' := ⟨h.cpunum, h.other⟩

theorem MemoryOnly.stays (h : MemoryOnly s s') : Stays s s' := ⟨h.cpunum, h.other⟩

/-! ## The free list -/

/-- `env_free_list` threads slots without a directory.  This holds whatever the statuses
are: `env_free` follows the pointer `env_pgdir`. -/
def Listed (s : Kernel) : Prop :=
  ∃ l, Threads (fun e => (s.envs e).envLink) s.envFreeList l ∧ ∀ e ∈ l, (s.envs e).envPgdir = none

theorem Listed.frame (h : Listed s) (hf : s'.envFreeList = s.envFreeList)
    (hs : ∀ e, (s'.envs e).envLink = (s.envs e).envLink ∧
      (s'.envs e).envPgdir = (s.envs e).envPgdir) : Listed s' := by
  obtain ⟨l, ht, hl⟩ := h
  refine ⟨l, ?_, fun e he => by rw [(hs e).2]; exact hl e he⟩
  rw [hf]
  exact ht.frame fun e _ => (hs e).1

theorem Listed.head (h : Listed s) (he : s.envFreeList = some e) : (s.envs e).envPgdir = none := by
  obtain ⟨l, ht, hl⟩ := h
  rw [he] at ht
  obtain ⟨l', rfl, -⟩ := ht.exists_cons
  exact hl e List.mem_cons_self

theorem Listed.alloc {st : EnvStatus} (h : Listed s) (ha : Allocated s s' e st) : Listed s' := by
  obtain ⟨l, ht, hl⟩ := h
  obtain ⟨d, hs⟩ := ha.slots
  rw [ha.head] at ht
  have hnd := ht.nodup
  obtain ⟨l', rfl, ht'⟩ := ht.exists_cons
  have hsame : ∀ j ∈ l', s'.slots j = s.slots j := by
    intro j hj
    have hne : j ≠ e := by
      rintro rfl
      exact (List.nodup_cons.mp hnd).1 hj
    rw [hs, Function.update_of_ne hne]
  refine ⟨l', ?_, fun j hj => ?_⟩
  · rw [ha.envFreeList]
    exact ht'.frame fun j hj => congrArg Slot.envLink (hsame j hj)
  · rw [← slots_envPgdir, hsame j hj]
    exact hl j (List.mem_cons_of_mem e hj)

theorem Listed.free {d : ℕ} (h : Listed s) (hd : (s.envs e).envPgdir = some d)
    (hfr : Freed s s' e) : Listed s' := by
  obtain ⟨l, ht, hl⟩ := h
  have hmem : e ∉ l := by
    intro he
    rw [hl e he] at hd
    cases hd
  have hself : s'.slots e = ⟨.free, (s.slots e).envId, s.envFreeList, none⟩ := by
    rw [hfr.slots, Function.update_self]
  have hsame : ∀ j ∈ l, s'.slots j = s.slots j := by
    intro j hj
    have hne : j ≠ e := by
      rintro rfl
      exact hmem hj
    rw [hfr.slots, Function.update_of_ne hne]
  refine ⟨e :: l, ?_, fun j hj => ?_⟩
  · rw [hfr.envFreeList]
    refine .cons ?_
    rw [← slots_envLink, hself]
    exact ht.frame fun j hj => congrArg Slot.envLink (hsame j hj)
  · rcases List.mem_cons.mp hj with rfl | hj'
    · rw [← slots_envPgdir, hself]
    · rw [← slots_envPgdir, hsame j hj']
      exact hl j hj'

/-! ## What a function has stored -/

/-- What a function has stored on behalf of a CPU with environment `o`. -/
structure Wrote (o : Option ℕ) (x : Entry) (s s' : Kernel) : Prop where
  writes : Writes (Write.Legal o x) s.envs s'.envs
  stays : Stays s s'
  listed : Listed s → Listed s'

theorem Wrote.trans {s'' : Kernel} (h : Wrote o x s s') (h' : Wrote o x s' s'') :
    Wrote o x s s'' :=
  ⟨h.writes.trans h'.writes, h.stays.trans h'.stays, fun hl => h'.listed (h.listed hl)⟩

theorem Wrote.of_schedule (h : Wrote o .schedule s s') (x : Entry) : Wrote o x s s' :=
  ⟨h.writes.mono fun _ _ hw => hw.of_schedule x, h.stays, h.listed⟩

theorem Wrote.of_eq (h : s'.envs = s.envs) (hf : s'.envFreeList = s.envFreeList)
    (hs : Stays s s') : Wrote o x s s' := by
  refine ⟨?_, hs, fun hl => hl.frame hf fun e => by rw [h]; exact ⟨rfl, rfl⟩⟩
  rw [h]
  exact .refl

theorem Wrote.refl (s : Kernel) : Wrote o x s s := .of_eq rfl rfl (.refl s)

theorem MemoryOnly.wrote (h : MemoryOnly s s') : Wrote o x s s' :=
  .of_eq h.envs h.envFreeList h.stays

/-- One store. -/
theorem Wrote.single (w : Write) (h : s'.envs = w.apply s.envs) (hs : Stays s s')
    (hw : w.Legal o x s.envs) (hf : s'.envFreeList = s.envFreeList) (hp : w.plain = true) :
    Wrote o x s s' := by
  refine ⟨?_, hs, fun hl => hl.frame hf fun e => ?_⟩
  · rw [h]
    exact .single hw
  · rw [h]
    rcases eq_or_ne e w.slot with rfl | hne
    · rw [Write.apply_slot]
      exact Write.value_of_plain hp
    · rw [Write.apply_of_ne hne]
      exact ⟨rfl, rfl⟩

/-- The current environment is the one that entered, or has been let go. -/
def Serving (o : Option ℕ) (s : Kernel) : Prop := ∀ c, s.curenv = some c → o = some c

theorem Serving.of_eq (h : Serving o s) (hc : s'.curenv = s.curenv) : Serving o s' := by
  intro c hcur
  rw [hc] at hcur
  exact h c hcur

/-! ## Leaving the kernel -/

theorem wrote_preempt (ho : Serving o s) : Wrote o x s s.preempt := by
  unfold preempt
  cases hc : s.curenv with
  | none => exact .refl _
  | some c =>
    simp only
    split
    · rename_i hrun
      exact .single (.status c .runnable) rfl (.setEnv s c _)
        (Or.inr (Or.inl ⟨rfl, ho c hc, hrun⟩)) rfl rfl
    · exact .refl _

theorem stays_of_resume (h : s.resume e = .ok s') : Stays s s' := by
  unfold resume at h
  simp only at h
  split at h
  · cases h
  · have hs' := Except.ok.inj h
    subst hs'
    refine ⟨by simp [setCpu, Kernel.setEnv, unlockKernel, lcr3, setCurenv], fun c hc => ?_⟩
    simp [setCpu, Kernel.setEnv, unlockKernel, lcr3, setCurenv, hc]

theorem envs_of_resume (h : s.resume e = .ok s') :
    s'.envs = (Write.run e s.cpunum).apply s.envs := by
  unfold resume at h
  simp only at h
  split at h
  · cases h
  · have hs' := Except.ok.inj h
    subst hs'
    ext j
    rcases eq_or_ne j e with rfl | hj
    · simp [Write.apply, Write.slot, Write.value, setCpu, Kernel.setEnv, unlockKernel, lcr3,
        setCurenv]
    · simp [Write.apply, Write.slot, setCpu, Kernel.setEnv, unlockKernel, lcr3, setCurenv, hj]

theorem envFreeList_of_resume (h : s.resume e = .ok s') : s'.envFreeList = s.envFreeList := by
  unfold resume at h
  simp only at h
  split at h
  · cases h
  · have hs' := Except.ok.inj h
    subst hs'
    simp [setCpu, Kernel.setEnv, unlockKernel, lcr3, setCurenv]

/-- `env_run` of an environment that is runnable, once the one before it has stopped. -/
theorem wrote_envRun (ho : Serving o s)
    (he : (s.envs e).envStatus = .runnable ∨ (s.curenv = some e ∧ (s.envs e).envStatus = .running) ∨
      o = some e ∧ ∃ tf va, x = .trap tf (.pageFault va))
    (h : s.envRun e = .ok s') : Wrote o x s s' := by
  rw [envRun_eq] at h
  refine (wrote_preempt ho).trans (.single (.run e _) (envs_of_resume h) (stays_of_resume h) ?_
    (envFreeList_of_resume h) rfl)
  rw [← or_assoc] at he
  refine he.imp_left fun hst => ?_
  show (s.preempt.slots e).envStatus = .runnable
  rw [preempt_slots]
  rcases hst with hst | ⟨hcur, hst⟩
  · rw [if_neg fun h0 => by rw [slots_envStatus, hst] at h0; exact nomatch h0.2]
    exact hst
  · rw [if_pos ⟨hcur, by rw [slots_envStatus, hst]⟩]

theorem envs_schedHalt (s : Kernel) : s.schedHalt.envs = s.envs := by
  unfold schedHalt
  split
  · rfl
  · simp [setCpu, unlockKernel, lcr3, setCurenv]

theorem envFreeList_schedHalt (s : Kernel) : s.schedHalt.envFreeList = s.envFreeList := by
  unfold schedHalt
  split
  · rfl
  · simp [setCpu, unlockKernel, lcr3, setCurenv]

theorem stays_schedHalt (s : Kernel) : Stays s s.schedHalt := by
  unfold schedHalt
  split
  · exact .refl s
  · refine ⟨by simp [setCpu, unlockKernel, lcr3, setCurenv], fun c hc => ?_⟩
    simp [setCpu, unlockKernel, lcr3, setCurenv, hc]

theorem wrote_schedYield (ho : Serving o s) (h : s.schedYield = .ok s') : Wrote o x s s' := by
  unfold schedYield at h
  cases hpick : s.schedPick with
  | some j =>
    rw [hpick] at h
    have hnote : Wrote o x s (s.note (.select s.cpunum j)) :=
      .of_eq rfl rfl ⟨rfl, fun _ _ => rfl⟩
    exact hnote.trans (wrote_envRun ho (Or.inl (schedPick_runnable hpick)) h)
  | none =>
    rw [hpick] at h
    cases hc : s.curenv with
    | none =>
      rw [hc] at h
      obtain rfl := Except.ok.inj h
      exact .of_eq (envs_schedHalt s) (envFreeList_schedHalt s) (stays_schedHalt s)
    | some c =>
      rw [hc] at h
      simp only at h
      split at h
      · rename_i hrun
        have hnote : Wrote o x s (s.note (.select s.cpunum c)) :=
          .of_eq rfl rfl ⟨rfl, fun _ _ => rfl⟩
        exact hnote.trans (wrote_envRun ho (Or.inr (Or.inl ⟨hc, hrun⟩)) h)
      · obtain rfl := Except.ok.inj h
        exact .of_eq (envs_schedHalt s) (envFreeList_schedHalt s) (stays_schedHalt s)

theorem wrote_trapReturn (ho : Serving o s) (h : s.trapReturn = .ok s') : Wrote o x s s' := by
  unfold trapReturn at h
  cases hc : s.curenv with
  | none =>
    rw [hc] at h
    exact wrote_schedYield ho h
  | some c =>
    rw [hc] at h
    simp only at h
    split at h
    · rename_i hrun
      exact wrote_envRun ho (Or.inr (Or.inl ⟨hc, hrun⟩)) h
    · exact wrote_schedYield ho h

/-! ## Destroying -/

/-- `env_free` -/
theorem envs_of_envFree (h : s.envFree e = .ok s') :
    s'.envs = (Write.free e s.envFreeList).apply s.envs := by
  unfold envFree at h
  obtain ⟨s₁, hs₁, henvs₁, hf₁⟩ : ∃ s₁ : Kernel, s₁ =
      (if (s.note (.envFree s.cpunum e)).curenv = some e
        then (s.note (.envFree s.cpunum e)).lcr3 (s.note (.envFree s.cpunum e)).kernPgdir
        else s.note (.envFree s.cpunum e)) ∧ s₁.envs = s.envs ∧ s₁.envFreeList = s.envFreeList := by
    refine ⟨_, rfl, ?_⟩
    split <;> exact ⟨rfl, rfl⟩
  simp only [← hs₁] at h
  obtain ⟨d, -, h⟩ := bind_eq_ok.mp h
  obtain ⟨s₂, hloop, h⟩ := bind_eq_ok.mp h
  have h₂ : MemoryOnly s₁ s₂ :=
    Lib.foldlM_invariant (P := MemoryOnly s₁)
      (fun b k b' hb hk => hb.trans (memoryOnly_of_envFreePde hk)) _ (.refl s₁) hloop
  obtain ⟨pp, -, h⟩ := bind_eq_ok.mp h
  obtain ⟨s₃, hdec, h⟩ := bind_eq_ok.mp h
  have h₃ := memoryOnly_of_pageDecref hdec
  have hs' := Except.ok.inj h
  have henvs₂ : s₂.envs = s.envs := h₂.envs.trans henvs₁
  have henvs₃ : s₃.envs = Function.update s.envs e { s.envs e with envPgdir := none } := by
    rw [h₃.envs]
    show Function.update s₂.envs e { s₂.envs e with envPgdir := none } = _
    rw [henvs₂]
  have hf₃ : s₃.envFreeList = s.envFreeList := h₃.envFreeList.trans (h₂.envFreeList.trans hf₁)
  have h0 : s'.envs = Function.update s₃.envs e
      { s₃.envs e with envStatus := .free, envLink := s₃.envFreeList } := by
    subst hs'
    rfl
  rw [h0, henvs₃, Function.update_idem, Function.update_self, hf₃]
  rfl

theorem serving_drop (s : Kernel) : Serving o (s.setCurenv none) := by
  intro c h0
  simp [curenv, setCurenv, setCpu] at h0

theorem wrote_drop : Wrote o x s (s.setCurenv none) :=
  .of_eq rfl rfl (.setCurenv s none)

theorem pgdir_of_envFree (h : s.envFree e = .ok s') : ∃ d, (s.envs e).envPgdir = some d := by
  unfold envFree at h
  obtain ⟨d, hd, -⟩ := bind_eq_ok.mp h
  refine ⟨d, ?_⟩
  have h0 := deref_eq_ok hd
  split at h0 <;> exact h0

theorem wrote_envFree (he : Write.Within o s.envs e) (h : s.envFree e = .ok s') :
    Wrote o x s s' := by
  have hfr := freed_of_envFree h
  obtain ⟨d, hd⟩ := pgdir_of_envFree h
  refine ⟨?_, hfr.passive.stays, fun hl => hl.free hd hfr⟩
  rw [envs_of_envFree h]
  exact .single he

theorem wrote_envDestroy (he : Write.Within o s.envs e)
    (h : s.envDestroy e = .ok (fl, s')) : Wrote o x s s' := by
  unfold envDestroy at h
  split at h
  · obtain ⟨-, rfl⟩ := Prod.mk.inj (Except.ok.inj h)
    exact .single (.status e .dying) rfl (.setEnv s e _) (Or.inl ⟨rfl, he⟩) rfl rfl
  · obtain ⟨s₁, hfree, h⟩ := bind_eq_ok.mp h
    have h₁ : Wrote o x s s₁ := wrote_envFree he hfree
    split at h
    · obtain ⟨s₂, hy, h⟩ := bind_eq_ok.mp h
      obtain ⟨-, rfl⟩ := Prod.mk.inj (Except.ok.inj h)
      exact h₁.trans (wrote_drop.trans (wrote_schedYield (serving_drop s₁) hy))
    · obtain ⟨-, rfl⟩ := Prod.mk.inj (Except.ok.inj h)
      exact h₁

theorem wrote_userMemAssert {va len perm : Word} (he : o = some e)
    (h : s.userMemAssert e va len perm = .ok (fl, s')) : Wrote o x s s' := by
  unfold userMemAssert at h
  obtain ⟨⟨r, s₁⟩, hchk, h⟩ := bind_eq_ok.mp h
  have hm := memoryOnly_of_userMemCheck hchk
  simp only at h
  split at h
  · exact hm.wrote.trans (wrote_envDestroy (Or.inl he) h)
  · obtain ⟨-, rfl⟩ := Prod.mk.inj (Except.ok.inj h)
    exact hm.wrote

/-! ## Handlers -/

/-- `envid2env` with a permission check grants the caller and its children. -/
theorem within_of_envid2env {envid : Word} (ho : Serving o s)
    (h : s.envid2env envid true = .ok (0, some e)) : Write.Within o s.envs e := by
  unfold envid2env at h
  split at h
  · exact Or.inl (ho e (Prod.mk.inj (Except.ok.inj h)).2)
  simp only at h
  split at h
  · exact nomatch (Prod.mk.inj (Except.ok.inj h)).2
  rename_i hbad
  have hlive : (s.envs (envx envid)).envStatus ≠ .free := fun h0 => hbad (Or.inl h0)
  split at h
  · obtain ⟨c, hc, h⟩ := bind_eq_ok.mp h
    split at h
    · exact nomatch (Prod.mk.inj (Except.ok.inj h)).2
    · rename_i hpar
      obtain rfl := Option.some.inj (Prod.mk.inj (Except.ok.inj h)).2
      exact Or.inr ⟨c, ho c (deref_eq_ok hc), hlive, not_not.mp hpar⟩
  · rename_i hck
    obtain rfl := Option.some.inj (Prod.mk.inj (Except.ok.inj h)).2
    have hcur : s.curenv = some (envx envid) := by
      by_contra h0
      exact hck ⟨trivial, h0⟩
    exact Or.inl (ho _ hcur)

/-- Without one it grants every live environment. -/
theorem live_of_envid2env {envid : Word} {ck : Bool} (ho : Serving o s)
    (h : s.envid2env envid ck = .ok (0, some e)) : (s.envs e).envStatus ≠ .free ∨ o = some e := by
  unfold envid2env at h
  split at h
  · exact Or.inr (ho e (Prod.mk.inj (Except.ok.inj h)).2)
  simp only at h
  split at h
  · exact nomatch (Prod.mk.inj (Except.ok.inj h)).2
  rename_i hbad
  have hlive : (s.envs (envx envid)).envStatus ≠ .free := fun h0 => hbad (Or.inl h0)
  split at h
  · obtain ⟨c, -, h⟩ := bind_eq_ok.mp h
    split at h
    · exact nomatch (Prod.mk.inj (Except.ok.inj h)).2
    · obtain rfl := Option.some.inj (Prod.mk.inj (Except.ok.inj h)).2
      exact Or.inl hlive
  · obtain rfl := Option.some.inj (Prod.mk.inj (Except.ok.inj h)).2
    exact Or.inl hlive

/-- `envid2env` returns zero or `E_BAD_ENV`. -/
theorem ret_of_envid2env {envid : Word} {ck : Bool} {r : ℤ} {oe : Option ℕ}
    (h : s.envid2env envid ck = .ok (r, oe)) : r = 0 ∨ r = -eBadEnv := by
  unfold envid2env at h
  split at h
  · exact Or.inl (Prod.mk.inj (Except.ok.inj h)).1.symm
  simp only at h
  split at h
  · exact Or.inr (Prod.mk.inj (Except.ok.inj h)).1.symm
  split at h
  · obtain ⟨c, -, h⟩ := bind_eq_ok.mp h
    split at h
    · exact Or.inr (Prod.mk.inj (Except.ok.inj h)).1.symm
    · exact Or.inl (Prod.mk.inj (Except.ok.inj h)).1.symm
  · exact Or.inl (Prod.mk.inj (Except.ok.inj h)).1.symm

theorem wrote_sysEnvSetStatus {envid status : Word} {r : ℤ} (ho : Serving o s)
    (hx : x.call = some (.envSetStatus envid status))
    (h : s.sysEnvSetStatus envid status = .ok (r, s')) : Wrote o x s s' := by
  unfold sysEnvSetStatus at h
  split at h
  · obtain ⟨-, rfl⟩ := Prod.mk.inj (Except.ok.inj h)
    exact .refl _
  obtain ⟨⟨ret, oe⟩, henv, h⟩ := bind_eq_ok.mp h
  simp only at h
  split at h
  · obtain ⟨-, rfl⟩ := Prod.mk.inj (Except.ok.inj h)
    exact .refl _
  · rename_i hret
    obtain rfl := (ret_of_envid2env henv).resolve_right (by rintro rfl; exact hret (by decide))
    obtain ⟨e, he, h⟩ := bind_eq_ok.mp h
    obtain rfl := deref_eq_ok he
    obtain ⟨-, rfl⟩ := Prod.mk.inj (Except.ok.inj h)
    refine .single (.status e _) rfl (.setEnv s e _)
      (Or.inr (Or.inr ⟨⟨envid, status, hx⟩, within_of_envid2env ho henv, ?_⟩)) rfl rfl
    split <;> simp

theorem wrote_sysEnvSetPgfaultUpcall {envid func : Word} {r : ℤ} (ho : Serving o s)
    (hx : x.call = some (.envSetPgfaultUpcall envid func))
    (h : s.sysEnvSetPgfaultUpcall envid func = .ok (r, s')) : Wrote o x s s' := by
  unfold sysEnvSetPgfaultUpcall at h
  obtain ⟨⟨ret, oe⟩, henv, h⟩ := bind_eq_ok.mp h
  simp only at h
  split at h
  · obtain ⟨-, rfl⟩ := Prod.mk.inj (Except.ok.inj h)
    exact .refl _
  · rename_i hret
    obtain rfl := not_not.mp hret
    obtain ⟨e, he, h⟩ := bind_eq_ok.mp h
    obtain rfl := deref_eq_ok he
    obtain ⟨-, rfl⟩ := Prod.mk.inj (Except.ok.inj h)
    exact .single (.upcall e func) rfl (.setEnv s e _)
      ⟨⟨envid, hx⟩, within_of_envid2env ho henv⟩ rfl rfl

theorem envs_of_envSetupVm {r : ℤ} (h : s.envSetupVm e = .ok (r, s')) :
    r = -eNoMem ∧ s'.envs = s.envs ∨
    ∃ d, r = 0 ∧ s'.envs = Function.update s.envs e { s.envs e with envPgdir := some d } := by
  unfold envSetupVm at h
  obtain ⟨⟨o, s₁⟩, halloc, h⟩ := bind_eq_ok.mp h
  have h₁ := memoryOnly_of_pageAlloc halloc
  cases o with
  | none =>
    obtain ⟨rfl, rfl⟩ := Prod.mk.inj (Except.ok.inj h)
    exact Or.inl ⟨rfl, h₁.envs⟩
  | some p =>
    obtain ⟨d, -, h⟩ := bind_eq_ok.mp h
    obtain ⟨rfl, hs'⟩ := Prod.mk.inj (Except.ok.inj h)
    refine Or.inr ⟨d, rfl, ?_⟩
    have h0 : s'.envs = Function.update s₁.envs e { s₁.envs e with envPgdir := some d } := by
      subst hs'
      rfl
    rw [h0, h₁.envs]

/-- `env_alloc` -/
theorem envs_of_envAlloc {parentId : Word} {r : ℤ} {oe : Option ℕ}
    (h : s.envAlloc parentId = .ok (r, oe, s')) :
    r < 0 ∧ s'.envs = s.envs ∨
    ∃ e d, r = 0 ∧ oe = some e ∧ s'.envs = (Write.alloc e d parentId).apply s.envs := by
  unfold envAlloc at h
  cases he : s.envFreeList with
  | none =>
    rw [he] at h
    obtain ⟨rfl, h'⟩ := Prod.mk.inj (Except.ok.inj h)
    obtain ⟨-, rfl⟩ := Prod.mk.inj h'
    exact Or.inl ⟨by decide, rfl⟩
  | some e =>
    rw [he] at h
    obtain ⟨⟨r₁, s₁⟩, hvm, h⟩ := bind_eq_ok.mp h
    rcases envs_of_envSetupVm hvm with ⟨rfl, henvs⟩ | ⟨d, rfl, henvs⟩
    · have hneg : (-eNoMem : ℤ) < 0 := by decide
      simp only [hneg, if_true] at h
      obtain ⟨rfl, h'⟩ := Prod.mk.inj (Except.ok.inj h)
      obtain ⟨-, rfl⟩ := Prod.mk.inj h'
      exact Or.inl ⟨hneg, henvs⟩
    · simp only [Int.lt_irrefl, if_false] at h
      obtain ⟨rfl, h'⟩ := Prod.mk.inj (Except.ok.inj h)
      obtain ⟨rfl, hs'⟩ := Prod.mk.inj h'
      refine Or.inr ⟨e, d, rfl, rfl, ?_⟩
      have h0 : s'.envs = Function.update s₁.envs e { s₁.envs e with
          envId := nextEnvId (s₁.envs e).envId e
          envParentId := parentId
          envStatus := .runnable
          envRuns := 0
          envTf := freshTrapframe
          envPgfaultUpcall := 0
          envIpcRecving := false } := by
        subst hs'
        rfl
      rw [h0, henvs, Function.update_idem, Function.update_self]
      rfl

/-- `sys_exofork` fails without a trace, or takes the first free slot and returns its new
id. -/
theorem sysExofork_cases {r : ℤ} (h : s.sysExofork = .ok (r, s')) :
    r < 0 ∧ MemoryOnly s s' ∨
    ∃ e d c s₁, s.curenv = some c ∧ r = (nextEnvId (s.envs e).envId e).toInt ∧
      Allocated s s₁ e .runnable ∧ s₁.envs = (Write.alloc e d (s.envs c).envId).apply s.envs ∧
      s' = s₁.setEnv e ((Write.fork e c).value s₁.envs) := by
  unfold sysExofork at h
  obtain ⟨c, hc, h⟩ := bind_eq_ok.mp h
  obtain ⟨⟨ret, oe, s₁⟩, halloc, h⟩ := bind_eq_ok.mp h
  rcases envAlloc_cases halloc with ⟨hneg, hm⟩ | ⟨e, rfl, rfl, hal⟩
  · simp only [hneg, if_true] at h
    obtain ⟨rfl, rfl⟩ := Prod.mk.inj (Except.ok.inj h)
    exact Or.inl ⟨hneg, hm⟩
  · simp only [Int.lt_irrefl, if_false, deref_some, ok_bind] at h
    obtain ⟨rfl, rfl⟩ := Prod.mk.inj (Except.ok.inj h)
    rcases envs_of_envAlloc halloc with ⟨h0, -⟩ | ⟨e', d, -, he', henvs⟩
    · exact absurd h0 (Int.lt_irrefl 0)
    · obtain rfl := Option.some.inj he'
      refine Or.inr ⟨e, d, c, s₁, deref_eq_ok hc, ?_, hal, henvs, rfl⟩
      simp [setEnv, henvs, Write.apply, Write.slot, Write.value]

theorem wrote_sysExofork {r : ℤ} (ho : Serving o s) (hx : x.call = some .exofork)
    (h : s.sysExofork = .ok (r, s')) : Wrote o x s s' := by
  rcases sysExofork_cases h with ⟨-, hm⟩ | ⟨e, d, c, s₁, hc, -, hal, henvs, rfl⟩
  · exact hm.wrote
  · have hoc := ho c hc
    have h₁ : Wrote o x s s₁ := by
      refine ⟨?_, hal.passive.stays, fun hl => hl.alloc hal⟩
      rw [henvs]
      exact .single ⟨hx, c, hoc, rfl⟩
    exact h₁.trans (.single (.fork e c) rfl (.setEnv s₁ e _) ⟨hx, hoc⟩ rfl rfl)

/-! ## Messages -/

/-- `page_insert` fails, or records the page it has inserted. -/
theorem log_of_pageInsert {d pp : ℕ} {va perm : Word} {r : ℤ}
    (h : s.pageInsert d pp va perm = .ok (r, s')) :
    r = -eNoMem ∨ r = 0 ∧ ∃ new, s'.log = new ++ s.log ∧ .insert d (pgnum va) pp ∈ new := by
  unfold pageInsert at h
  obtain ⟨⟨o, s₁⟩, hwalk, h⟩ := bind_eq_ok.mp h
  cases o with
  | none => exact Or.inl (Prod.mk.inj (Except.ok.inj h)).1.symm
  | some tj =>
    obtain ⟨t, j⟩ := tj
    obtain ⟨s₂, hrem, h⟩ := bind_eq_ok.mp h
    obtain ⟨rfl, rfl⟩ := Prod.mk.inj (Except.ok.inj h)
    have h₂ : MemoryOnly (s₁.incRef pp) s₂ := by
      split at hrem
      · exact memoryOnly_of_pageRemove hrem
      · obtain rfl := Except.ok.inj hrem
        exact .refl _
    obtain ⟨new, hnew, -⟩ :=
      ((memoryOnly_of_pgdirWalk hwalk).trans ((MemoryOnly.incRef s₁ pp).trans h₂)).log
    refine Or.inr ⟨rfl, .insert d (pgnum va) pp :: new, ?_, List.mem_cons_self⟩
    show .insert d (pgnum va) pp :: s₂.log = _
    rw [hnew]
    rfl

/-- A page was mapped at `env_ipc_dstva` of environment `r` on the way from `s` to
`s'`. -/
def Moved (s s' : Kernel) (r : ℕ) : Prop :=
  ∃ d pg new, (s.envs r).envPgdir = some d ∧ s'.log = new ++ s.log ∧
    .insert d (pgnum (s.envs r).envIpcDstva) pg ∈ new

theorem not_moved_of_log_eq {r : ℕ} (h : s'.log = s.log) : ¬ Moved s s' r := by
  rintro ⟨d, pg, new, -, hnew, hmem⟩
  rw [h] at hnew
  have hnil : new = [] := List.self_eq_append_left.mp hnew
  rw [hnil] at hmem
  cases hmem

/-- The page transfer of a message: nothing, or `env_ipc_perm` is set because a page
was inserted. -/
theorem envs_of_ipcTransfer {r : ℕ} {srcva perm : Word} {stale : Option Word} {ret : ℤ}
    (h : s.ipcTransfer c r srcva perm stale = .ok (ret, s')) :
    ret ≠ 0 ∧ MemoryOnly s s' ∨
    ret = 0 ∧ (¬ (srcva < utop ∧ (s.envs r).envIpcDstva < utop) ∧ s' = s ∨
      (srcva < utop ∧ (s.envs r).envIpcDstva < utop) ∧
        s'.envs = (Write.perm r perm).apply s.envs ∧ Moved s s' r) := by
  rcases ipcTransfer_outcome h with ⟨hno, rfl⟩ |
    ⟨sd, rd, pg, t, j, s₁, hsrc, -, -, -, -, -, hdst, hrd, hins, hend⟩
  · by_cases hz : ret = 0
    · exact Or.inr ⟨hz, Or.inl ⟨hno.resolve_left (not_not.mpr hz), rfl⟩⟩
    · exact Or.inl ⟨hz, .refl _⟩
  have hm := memoryOnly_of_pageInsert hins
  rcases hend with ⟨hne, rfl⟩ | ⟨rfl, rfl⟩
  · exact Or.inl ⟨hne, hm⟩
  · obtain ⟨-, new, hnew, hmem⟩ := (log_of_pageInsert hins).resolve_left (by decide)
    refine Or.inr ⟨rfl, Or.inr ⟨⟨hsrc, hdst⟩, ?_, rd, pg, new, hrd, hnew, hmem⟩⟩
    show Function.update s₁.envs r { s₁.envs r with envIpcPerm := perm } = _
    rw [hm.envs]
    rfl

/-- A send that does not return zero writes nothing; one that does has found a
receiver `r`, moved a page if both sides ask for it, and delivered. -/
theorem sysIpcTrySend_cases {envid value srcva perm : Word} {stale : Option Word} {ret : ℤ}
    (h : s.sysIpcTrySend envid value srcva perm stale = .ok (ret, s')) :
    ret ≠ 0 ∧ MemoryOnly s s' ∨
    ret = 0 ∧ ∃ r c s₁, s.envid2env envid false = .ok (0, some r) ∧ s.curenv = some c ∧
      (s.envs r).envIpcRecving = true ∧ s.ipcTransfer c r srcva perm stale = .ok (0, s₁) ∧
      s' = s₁.setEnv r ((Write.deliver r c value).value s₁.envs) := by
  rcases sysIpcTrySend_outcome h with ⟨hne, rfl⟩ | ⟨r, c, s₁, henv, hrecv, hc, htr, hend⟩
  · exact Or.inl ⟨hne, .refl _⟩
  rcases hend with ⟨hne, rfl⟩ | ⟨rfl, rfl⟩
  · rcases envs_of_ipcTransfer htr with ⟨-, hm⟩ | ⟨h0, -⟩
    · exact Or.inl ⟨hne, hm⟩
    · exact absurd h0 hne
  · exact Or.inr ⟨rfl, r, c, s₁, henv, hc, hrecv, htr, rfl⟩

theorem wrote_sysIpcTrySend {envid value srcva perm : Word} {stale : Option Word} {ret : ℤ}
    (ho : Serving o s) (hx : x.call = some (.ipcTrySend envid value srcva perm stale))
    (h : s.sysIpcTrySend envid value srcva perm stale = .ok (ret, s')) : Wrote o x s s' := by
  rcases sysIpcTrySend_cases h with ⟨-, hm⟩ | ⟨-, r, c, s₁, henv, hc, hrecv, htr, rfl⟩
  · exact hm.wrote
  · have hlive := live_of_envid2env ho henv
    have hq := quiet_of_ipcTransfer htr
    have htrans : Wrote o x s s₁ ∧
        (s₁.envs r).envIpcRecving = (s.envs r).envIpcRecving ∧
        (s₁.envs r).envStatus = (s.envs r).envStatus := by
      rcases envs_of_ipcTransfer htr with ⟨h0, -⟩ | ⟨-, ⟨-, rfl⟩ | ⟨-, h₁, -⟩⟩
      · exact absurd rfl h0
      · exact ⟨.refl _, rfl, rfl⟩
      · refine ⟨.single _ h₁ hq.passive.stays ⟨⟨envid, value, srcva, stale, hx⟩, hrecv, hlive⟩
          hq.envFreeList rfl, ?_, ?_⟩
        · simp [h₁, Write.apply, Write.slot, Write.value]
        · simp [h₁, Write.apply, Write.slot, Write.value]
    obtain ⟨hw, hr, hst⟩ := htrans
    refine hw.trans (.single (.deliver r c value) rfl (.setEnv s₁ r _)
      ⟨⟨envid, srcva, perm, stale, hx⟩, ho c hc, ?_, ?_⟩ rfl rfl)
    · rw [hr]
      exact hrecv
    · rw [hst]
      exact hlive

theorem wrote_sysIpcRecv {dstva : Word} (ho : Serving o s) (hx : x.call = some (.ipcRecv dstva))
    (h : s.sysIpcRecv dstva = .ok (fl, s')) : Wrote o x s s' := by
  unfold sysIpcRecv at h
  split at h
  · obtain ⟨-, rfl⟩ := Prod.mk.inj (Except.ok.inj h)
    exact .refl _
  · obtain ⟨c, hc, h⟩ := bind_eq_ok.mp h
    obtain ⟨s₁, hy, h⟩ := bind_eq_ok.mp h
    obtain ⟨-, rfl⟩ := Prod.mk.inj (Except.ok.inj h)
    have hcur := deref_eq_ok hc
    refine Wrote.trans (.single (.recv c dstva) rfl (.setEnv s c _) ⟨hx, ho c hcur⟩ rfl rfl)
      (wrote_schedYield ?_ hy)
    exact ho.of_eq rfl

/-! ## Entries -/

theorem wrote_of_returning {y : Except Panic (ℤ × Kernel)} (h : returning y = .ok (fl, s'))
    (hy : ∀ r s', y = .ok (r, s') → Wrote o x s s') : Wrote o x s s' := by
  cases hr : y with
  | error p =>
    rw [hr] at h
    cases h
  | ok v =>
    rw [hr] at h
    obtain ⟨-, rfl⟩ := Prod.mk.inj (Except.ok.inj h)
    exact hy v.1 v.2 hr

/-- **Every handler makes legal stores.** -/
theorem wrote_handle {y : Syscall} (ho : Serving o s) (hx : x.call = some y)
    (h : s.handle y = .ok (fl, s')) : Wrote o x s s' := by
  cases y with
  | exofork => exact wrote_of_returning h fun r s' h' => wrote_sysExofork ho hx h'
  | cputs str len =>
    unfold handle sysCputs at h
    obtain ⟨c, hc, h⟩ := bind_eq_ok.mp h
    split at h
    · exact wrote_userMemAssert (ho c (deref_eq_ok hc)) h
    · obtain ⟨-, rfl⟩ := Prod.mk.inj (Except.ok.inj h)
      exact .refl _
  | cgetc ch =>
    obtain ⟨-, rfl⟩ := Prod.mk.inj (Except.ok.inj h)
    exact .refl _
  | getenvid =>
    refine wrote_of_returning h fun r s' h' => ?_
    obtain ⟨_, -, h'⟩ := bind_eq_ok.mp h'
    obtain ⟨-, rfl⟩ := Prod.mk.inj (Except.ok.inj h')
    exact .refl _
  | envDestroy envid =>
    unfold handle sysEnvDestroy at h
    obtain ⟨⟨ret, oe⟩, henv, h⟩ := bind_eq_ok.mp h
    simp only at h
    split at h
    · obtain ⟨-, rfl⟩ := Prod.mk.inj (Except.ok.inj h)
      exact .refl _
    rename_i hret
    obtain rfl := (ret_of_envid2env henv).resolve_right (by rintro rfl; exact hret (by decide))
    obtain ⟨e, he, h₁⟩ := bind_eq_ok.mp h
    rw [deref_eq_ok he] at henv
    clear h
    obtain ⟨⟨fl₁, s₁⟩, hd, h⟩ := bind_eq_ok.mp h₁
    have hw := wrote_envDestroy (x := x) (within_of_envid2env ho henv) hd
    cases fl₁ with
    | left =>
      obtain ⟨-, rfl⟩ := Prod.mk.inj (Except.ok.inj h)
      exact hw
    | ret r =>
      obtain ⟨-, rfl⟩ := Prod.mk.inj (Except.ok.inj h)
      exact hw
  | pageAlloc envid va perm =>
    exact wrote_of_returning h fun r s' h' => (memoryOnly_of_sysPageAlloc h').wrote
  | pageMap srcenvid srcva dstenvid dstva perm =>
    exact wrote_of_returning h fun r s' h' => (memoryOnly_of_sysPageMap h').wrote
  | pageUnmap envid va =>
    exact wrote_of_returning h fun r s' h' => (memoryOnly_of_sysPageUnmap h').wrote
  | envSetStatus envid status =>
    exact wrote_of_returning h fun r s' h' => wrote_sysEnvSetStatus ho hx h'
  | envSetPgfaultUpcall envid func =>
    exact wrote_of_returning h fun r s' h' => wrote_sysEnvSetPgfaultUpcall ho hx h'
  | yield =>
    obtain ⟨s₁, hy, h⟩ := bind_eq_ok.mp h
    obtain ⟨-, rfl⟩ := Prod.mk.inj (Except.ok.inj h)
    exact wrote_schedYield ho hy
  | ipcTrySend envid value srcva perm stale =>
    exact wrote_of_returning h fun r s' h' => wrote_sysIpcTrySend ho hx h'
  | ipcRecv dstva => exact wrote_sysIpcRecv ho hx h

theorem wrote_pageFaultHandler {faultVa : Word} (ho : Serving o s)
    (hx : ∃ tf va, x = .trap tf (.pageFault va))
    (h : s.pageFaultHandler faultVa = .ok (fl, s')) : Wrote o x s s' := by
  unfold pageFaultHandler at h
  obtain ⟨c, hc, h⟩ := bind_eq_ok.mp h
  have hcur := deref_eq_ok hc
  have hoc := ho c hcur
  split at h
  · cases h
  split at h
  · unfold faultUpcall at h
    obtain ⟨⟨fl₁, s₁⟩, hassert, h⟩ := bind_eq_ok.mp h
    have h₁ : Wrote o x s s₁ := wrote_userMemAssert hoc hassert
    cases fl₁ with
    | left =>
      obtain ⟨-, rfl⟩ := Prod.mk.inj (Except.ok.inj h)
      exact h₁
    | ret r =>
      obtain ⟨s₂, hpoke, h⟩ := bind_eq_ok.mp h
      obtain ⟨s₃, hrun, h⟩ := bind_eq_ok.mp h
      obtain ⟨-, rfl⟩ := Prod.mk.inj (Except.ok.inj h)
      have hm₁ := memoryOnly_of_userMemAssert hcur hassert
      have hm₂ := memoryOnly_of_pokeWords hpoke
      refine (h₁.trans hm₂.wrote).trans
        (Wrote.trans (.single (.branch c _) rfl (.setEnv s₂ c _) ⟨hoc, hx⟩ rfl rfl)
          (wrote_envRun ?_ (Or.inr (Or.inr ⟨hoc, hx⟩)) hrun))
      exact (ho.of_eq (hm₂.curenv.trans hm₁.curenv)).of_eq rfl
  · exact wrote_envDestroy (Or.inl hoc) h

theorem wrote_trapDispatch {tf : Trapframe} {t : Trap} (ho : Serving o s)
    (h : s.trapDispatch t = .ok (fl, s')) : Wrote o (.trap tf t) s s' := by
  cases t with
  | timer =>
    obtain ⟨s₁, hy, h⟩ := bind_eq_ok.mp h
    obtain ⟨-, rfl⟩ := Prod.mk.inj (Except.ok.inj h)
    exact wrote_schedYield ho hy
  | spurious =>
    obtain ⟨-, rfl⟩ := Prod.mk.inj (Except.ok.inj h)
    exact .refl _
  | pageFault faultVa => exact wrote_pageFaultHandler ho ⟨tf, faultVa, rfl⟩ h
  | fault =>
    obtain ⟨c, hc, h⟩ := bind_eq_ok.mp h
    exact wrote_envDestroy (Or.inl (ho c (deref_eq_ok hc))) h
  | syscall y => exact wrote_handle ho rfl h

theorem wrote_trap {tf : Trapframe} {t : Trap} (ho : Serving o s)
    (h : s.trap tf t = .ok s') : Wrote o (.trap tf t) s s' := by
  unfold trap at h
  obtain ⟨e, he, h⟩ := bind_eq_ok.mp h
  have hcur := deref_eq_ok he
  have hoe := ho e hcur
  split at h
  · obtain ⟨s₁, hfree, h⟩ := bind_eq_ok.mp h
    have h₁ : Wrote o (.trap tf t) s s₁ := wrote_envFree (Or.inl hoe) hfree
    exact h₁.trans (wrote_drop.trans (wrote_schedYield (serving_drop s₁) h))
  · obtain ⟨⟨fl, s₁⟩, hdisp, h⟩ := bind_eq_ok.mp h
    have hsave : Wrote o (.trap tf t) s (s.savedFrame e tf) :=
      .single (.save e tf) rfl ⟨rfl, fun _ _ => rfl⟩ ⟨⟨t, rfl⟩, hoe⟩ rfl rfl
    have ho' : Serving o (s.savedFrame e tf) := ho.of_eq rfl
    have h₁ := hsave.trans (wrote_trapDispatch ho' hdisp)
    cases fl with
    | left =>
      obtain rfl := Except.ok.inj h
      exact h₁
    | ret r =>
      have ho₁ : Serving o s₁ := ho'.of_eq (passive_of_trapDispatch hdisp).cpuEnv
      cases t with
      | syscall y =>
        have hr : (s₁.setEax e r).trapReturn = .ok s' := h
        have heax : Wrote o (.trap tf (.syscall y)) s₁ (s₁.setEax e r) :=
          .single (.eax e r) rfl (.setEnv s₁ e _) ⟨hoe, nofun⟩ rfl rfl
        exact h₁.trans (heax.trans (wrote_trapReturn (ho₁.of_eq rfl) hr))
      | _ => exact h₁.trans (wrote_trapReturn ho₁ h)

/-- An entry with a handler that always returns.  The caller is a zombie and only the
scheduler runs; or the handler runs, its result is stored, and `trap` goes back. -/
theorem wrote_of_returns {tf : Trapframe} {y : Syscall} {z : Kernel → Except Panic (ℤ × Kernel)}
    (hz : ∀ s : Kernel, s.handle y = returning (z s)) (ho : Serving o s)
    (h : s.trap tf (.syscall y) = .ok s') :
    ∃ e, s.curenv = some e ∧
      ((s.envs e).envStatus = .dying ∧ Wrote o .schedule s s' ∨
        (s.envs e).envStatus ≠ .dying ∧ ∃ r s₁, z (s.savedFrame e tf) = .ok (r, s₁) ∧
          Wrote o .schedule (s₁.setEax e r) s') := by
  unfold trap at h
  obtain ⟨e, he, h⟩ := bind_eq_ok.mp h
  have hcur := deref_eq_ok he
  refine ⟨e, hcur, ?_⟩
  split at h
  · rename_i hdy
    obtain ⟨s₁, hfree, h⟩ := bind_eq_ok.mp h
    exact Or.inl ⟨hdy, (wrote_envFree (Or.inl (ho e hcur)) hfree).trans
      (wrote_drop.trans (wrote_schedYield (serving_drop s₁) h))⟩
  · rename_i hdy
    obtain ⟨⟨fl, s₁⟩, hdisp, h⟩ := bind_eq_ok.mp h
    have hret : returning (z (s.savedFrame e tf)) = .ok (fl, s₁) := by
      rw [← hz]
      exact hdisp
    cases hr : z (s.savedFrame e tf) with
    | error p =>
      rw [hr] at hret
      cases hret
    | ok v =>
      rw [hr] at hret
      obtain ⟨rfl, rfl⟩ := Prod.mk.inj (Except.ok.inj hret)
      have hp := passive_of_trapDispatch hdisp
      have ho₁ : Serving o v.2 := ho.of_eq hp.cpuEnv
      exact Or.inr ⟨hdy, v.1, v.2, rfl, wrote_trapReturn (ho₁.of_eq rfl) h⟩

theorem serving_enter (s : Kernel) (c : ℕ) : Serving (s.cpus c).cpuEnv (s.enter c) := by
  intro e he
  rw [curenv, enter] at he
  simpa [setCpu, thiscpu] using he

/-- **Every kernel entry makes legal stores.** -/
theorem wrote_entry (h : s.entry c x = .ok s') : Wrote (s.cpus c).cpuEnv x (s.enter c) s' := by
  have ho := serving_enter s c
  cases x with
  | schedule => exact wrote_schedYield ho h
  | trap tf t => exact wrote_trap ho h

end Kernel
end PmakeOs
