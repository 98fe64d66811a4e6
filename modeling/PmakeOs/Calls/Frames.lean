import PmakeOs.Calls.Settles
import PmakeOs.Sched.Exclusion

/-!
# The frames that user mode is entered with

`env_run` hands the saved frame of an environment to `env_pop_tf`.  `Ring3 U tf` says
that this frame leads to user mode with interrupts enabled: the code segment has
privilege level 3, the data segments are ones that user mode can have, `FL_IF` is
set and the I/O privilege level is zero.

What user mode can do is not the kernel's doing, so it is an assumption on the run:
`Delivers U tf₀ tf` relates the frame `tf` that the processor pushes to the frame
`tf₀` that user mode was entered with.  The set `U` is that of the selectors that
ring 3 has loaded into a data segment register on its own.

The saved frames are written by `env_alloc`, `trap`, `sys_exofork`,
`page_fault_handler`, `trap_dispatch` and `sys_ipc_try_send`; each of these keeps
`Ring3` (`Ring3.write`).
-/

namespace PmakeOs

variable {U : BitVec 16 → Prop} {tf tf₀ : Trapframe}

/-- `FL_IF` is set, and the bits of `FL_IOPL_MASK` are clear. -/
def UserFlags (w : Word) : Prop := Has w 0x200#32 ∧ w &&& 0x3000#32 = 0#32

/-- The selector of a data segment: the one of `env_alloc`, `GD_UD | 3`, or one that
user mode has loaded. -/
def DataSel (U : BitVec 16 → Prop) (sel : BitVec 16) : Prop := sel = 0x23#16 ∨ U sel

/-- A frame that leads to ring 3 with interrupts enabled. -/
structure Ring3 (U : BitVec 16 → Prop) (tf : Trapframe) : Prop where
  cs : tf.tfCs &&& 3#16 = 3#16
  ds : DataSel U tf.tfDs
  es : DataSel U tf.tfEs
  ss : DataSel U tf.tfSs
  flags : UserFlags tf.tfEflags

/-- The processor pushes `tf` on a trap from user mode that was entered with `tf₀`: the
code segment is one of ring 3, and ring 3 can neither clear the interrupt flag nor
raise the I/O privilege level if that is zero. -/
structure Delivers (U : BitVec 16 → Prop) (tf₀ tf : Trapframe) : Prop where
  cs : tf.tfCs &&& 3#16 = 3#16
  ds : DataSel U tf.tfDs
  es : DataSel U tf.tfEs
  ss : DataSel U tf.tfSs
  flags : UserFlags tf₀.tfEflags → UserFlags tf.tfEflags

theorem Ring3.delivered (h : Ring3 U tf₀) (hd : Delivers U tf₀ tf) : Ring3 U tf :=
  ⟨hd.cs, hd.ds, hd.es, hd.ss, hd.flags h.flags⟩

/-- General registers, the instruction pointer and the stack pointer do not matter. -/
theorem Ring3.of_eq (h : Ring3 U tf₀) (hcs : tf.tfCs = tf₀.tfCs) (hds : tf.tfDs = tf₀.tfDs)
    (hes : tf.tfEs = tf₀.tfEs) (hss : tf.tfSs = tf₀.tfSs) (hfl : tf.tfEflags = tf₀.tfEflags) :
    Ring3 U tf :=
  ⟨hcs ▸ h.cs, hds ▸ h.ds, hes ▸ h.es, hss ▸ h.ss, hfl ▸ h.flags⟩

theorem Ring3.withEax (h : Ring3 U tf) (w : Word) : Ring3 U (tf.withEax w) :=
  h.of_eq rfl rfl rfl rfl rfl

namespace Kernel

variable {s s' s₀ : Kernel} {π : ℕ → Option Trapframe} {c : ℕ} {x : Entry}

/-- The frame of a new environment. -/
theorem ring3_fresh (U : BitVec 16 → Prop) : Ring3 U freshTrapframe := by
  refine ⟨by decide, Or.inl rfl, Or.inl rfl, Or.inl rfl, ?_⟩
  show UserFlags 0x200#32
  unfold UserFlags
  decide

/-- Every environment that is not free has such a frame, and so have those in `G`. -/
structure Framed (U : BitVec 16 → Prop) (G : ℕ → Prop) (v : ℕ → Env) : Prop where
  live : ∀ e, (v e).envStatus ≠ .free → Ring3 U (v e).envTf
  held : ∀ e, G e → Ring3 U (v e).envTf

/-- A store that keeps frames in ring 3 and does not use a free slot. -/
theorem Framed.update {G : ℕ → Prop} {v : ℕ → Env} {e : ℕ} {w : Env} (h : Framed U G v)
    (hw : w.envStatus ≠ .free ∨ G e → Ring3 U w.envTf) : Framed U G (Function.update v e w) := by
  constructor
  · intro j hj
    rcases eq_or_ne j e with rfl | hne
    · rw [Function.update_self] at hj ⊢
      exact hw (Or.inl hj)
    · rw [Function.update_of_ne hne] at hj ⊢
      exact h.live j hj
  · intro j hj
    rcases eq_or_ne j e with rfl | hne
    · rw [Function.update_self]
      exact hw (Or.inr hj)
    · rw [Function.update_of_ne hne]
      exact h.held j hj

/-- **Every legal store keeps the frames in ring 3**, if the one that is saved is. -/
theorem Framed.write {G : ℕ → Prop} {v : ℕ → Env} {w : Write} {o : Option ℕ}
    (ho : ∀ e, o = some e → G e) (hx : ∀ tf t, x = .trap tf t → Ring3 U tf) (h : Framed U G v)
    (hw : w.Legal o x v) : Framed U G (w.apply v) := by
  -- an environment that may be written has a frame in ring 3
  have hwithin : ∀ e, Write.Within o v e → Ring3 U (v e).envTf := by
    rintro e (hoe | ⟨c, -, hlive, -⟩)
    · exact h.held e (ho e hoe)
    · exact h.live e hlive
  have hreach : ∀ e, (v e).envStatus ≠ .free ∨ o = some e → Ring3 U (v e).envTf := by
    rintro e (hlive | hoe)
    · exact h.live e hlive
    · exact h.held e (ho e hoe)
  unfold Write.apply
  cases w with
  | save e tf =>
    obtain ⟨⟨t, ht⟩, -⟩ := hw
    exact h.update fun _ => hx tf t ht
  | eax e r => exact h.update fun _ => (h.held e (ho e hw.1)).withEax _
  | branch e esp => exact h.update fun _ => (h.held e (ho e hw.1)).of_eq rfl rfl rfl rfl rfl
  | upcall e func => exact h.update fun _ => hwithin e hw.2
  | status e st =>
    refine h.update fun _ => hwithin e ?_
    rcases hw with ⟨-, hin⟩ | ⟨-, hoe, -⟩ | ⟨-, hin, -⟩
    · exact hin
    · exact Or.inl hoe
    · exact hin
  | alloc e d parentId => exact h.update fun _ => ring3_fresh U
  | fork e c => exact h.update fun _ => (h.held c (ho c hw.2)).withEax 0
  | recv e dstva => exact h.update fun _ => h.held e (ho e hw.2)
  | perm e p => exact h.update fun _ => hreach e hw.2.2
  | deliver e c value => exact h.update fun _ => (hreach e hw.2.2.2).withEax 0
  | free e link => exact h.update fun _ => hwithin e hw
  | run e cpu =>
    refine h.update fun _ => hreach e (hw.imp (fun hrun => ?_) fun hoe => hoe.1)
    rw [hrun]
    simp

/-! ## Runs -/

/-- The frame that each CPU entered user mode with, after an entry of CPU `c`. -/
def popped (s : Kernel) (c : ℕ) (π : ℕ → Option Trapframe) : ℕ → Option Trapframe :=
  Function.update π c
    (if (s.cpus c).userMode then (s.cpus c).cpuEnv.map fun e => (s.envs e).envTf else none)

/-- A run, with the frames that `env_pop_tf` was given last.  A trap of CPU `c` pushes a
frame that the processor delivers from the one that was popped. -/
inductive PopRun (U : BitVec 16 → Prop) (s₀ : Kernel) : Kernel → (ℕ → Option Trapframe) → Prop
  | start : PopRun U s₀ s₀ fun _ => none
  | step {s s' : Kernel} {π : ℕ → Option Trapframe} {c : ℕ} {x : Entry} (h : PopRun U s₀ s π)
      (hx : CanEnter s c x)
      (hd : ∀ tf t, x = .trap tf t → ∃ tf₀, π c = some tf₀ ∧ Delivers U tf₀ tf)
      (hrun : s.entry c x = .ok s') : PopRun U s₀ s' (popped s' c π)

/-- No CPU has an environment yet, and those that exist are as `env_create` left them. -/
structure Created (s : Kernel) : Prop where
  cpus : ∀ c, (s.cpus c).cpuEnv = none
  envs : ∀ e, (s.envs e).envStatus ≠ .free →
    ∃ eip, (s.envs e).envTf = { freshTrapframe with tfEip := eip }

/-- The environment is that of some CPU. -/
def Held (s : Kernel) (e : ℕ) : Prop := ∃ c, (s.cpus c).cpuEnv = some e

/-- **An entry keeps the frames in ring 3.** -/
theorem Framed.entry (h : Framed U (Held s) s.envs)
    (hx : ∀ tf t, x = .trap tf t → Ring3 U tf) (hrun : s.entry c x = .ok s') :
    Framed U (Held s') s'.envs := by
  have hw := wrote_entry hrun
  have hkeep : Framed U (Held s) s'.envs :=
    hw.writes.invariant (I := Framed U (Held s)) h
      fun v w hv hlegal => hv.write (fun e he => ⟨c, he⟩) hx hlegal
  refine ⟨hkeep.live, fun e he => ?_⟩
  obtain ⟨c', hc'⟩ := he
  rcases eq_or_ne c' c with rfl | hne
  · have hcur : s'.curenv = some e := by
      rw [curenv, hw.stays.cpunum]
      exact hc'
    rcases settles_entry hrun e hcur with ⟨hst, -, -⟩ | ⟨ho, -⟩
    · refine hkeep.live e ?_
      rw [hst]
      simp
    · exact hkeep.held e ⟨c', ho⟩
  · rw [hw.stays.other c' hne, enter_cpus_of_ne s hne] at hc'
    exact hkeep.held e ⟨c', hc'⟩

/-- The saved frames and the popped ones, along a run. -/
theorem PopRun.framed (h0 : Created s₀) (h : PopRun U s₀ s π) :
    Framed U (Held s) s.envs ∧ ∀ c tf, π c = some tf → Ring3 U tf := by
  induction h with
  | start =>
    refine ⟨⟨fun e he => ?_, fun e he => ?_⟩, fun c tf hc => nomatch hc⟩
    · obtain ⟨eip, htf⟩ := h0.envs e he
      rw [htf]
      exact (ring3_fresh U).of_eq rfl rfl rfl rfl rfl
    · obtain ⟨c, hc⟩ := he
      rw [h0.cpus c] at hc
      cases hc
  | @step s s' π c x _ _ hd hrun ih =>
    obtain ⟨hframed, hpop⟩ := ih
    have hx : ∀ tf t, x = .trap tf t → Ring3 U tf := by
      intro tf t hxt
      obtain ⟨tf₀, hc, hdel⟩ := hd tf t hxt
      exact (hpop c tf₀ hc).delivered hdel
    have hframed' := hframed.entry hx hrun
    refine ⟨hframed', fun c' tf hc' => ?_⟩
    unfold popped at hc'
    rcases eq_or_ne c' c with rfl | hne
    · rw [Function.update_self] at hc'
      split at hc'
      · obtain ⟨e, he, rfl⟩ := Option.map_eq_some_iff.mp hc'
        exact hframed'.held e ⟨c', he⟩
      · cases hc'
    · rw [Function.update_of_ne hne] at hc'
      exact hpop c' tf hc'

/-- **Every frame that `env_pop_tf` is given leads to ring 3 with interrupts enabled**,
in every run from the creation of the first environments on. -/
theorem popTf_ring3 (h0 : Created s₀) (h : PopRun U s₀ s π) (hc : π c = some tf) : Ring3 U tf :=
  (h.framed h0).2 c tf hc

theorem oneEnv_created : Created oneEnv := by
  refine ⟨fun _ => rfl, fun e _ => ⟨0, rfl⟩⟩

/-- The theorem for the environment of `oneEnv`: it is started, and interrupted by the
clock with its registers unchanged. -/
theorem popTf_ring3_oneEnv : ∃ π, Created oneEnv ∧
    PopRun (fun _ => False) oneEnv
      ((oneEnv.after 0 .schedule).after 0 (.trap freshTrapframe .timer)) π ∧
    π 0 = some freshTrapframe ∧ Ring3 (fun _ => False) freshTrapframe := by
  have h0 : PopRun (fun _ => False) oneEnv oneEnv fun _ => none := .start
  have h1 := h0.step (c := 0) (x := .schedule)
    (by decide +kernel) (fun _ _ h => nomatch h) (entry_eq_ok_after (by decide +kernel))
  have hpop : popped (oneEnv.after 0 .schedule) 0 (fun _ => none) 0 = some freshTrapframe := by
    decide +kernel
  have h2 := h1.step (c := 0) (x := .trap freshTrapframe .timer) (by decide +kernel)
    (fun tf t h => ?_) (entry_eq_ok_after (by decide +kernel))
  · have hpop' : popped ((oneEnv.after 0 .schedule).after 0 (.trap freshTrapframe .timer)) 0
        (popped (oneEnv.after 0 .schedule) 0 fun _ => none) 0 = some freshTrapframe := by
      decide +kernel
    exact ⟨_, oneEnv_created, h2, hpop', popTf_ring3 oneEnv_created h2 hpop'⟩
  · obtain ⟨rfl, -⟩ := Entry.trap.inj h
    exact ⟨_, hpop, by decide, Or.inl rfl, Or.inl rfl, Or.inl rfl, id⟩

end Kernel
end PmakeOs
