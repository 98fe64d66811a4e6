import PmakeOs.Space.Escalation
import PmakeOs.Sched.Calm
import PmakeOs.Trap.PageFault

/-!
# Kernel entries as operations

The runs of `Space.Reachable` consist of operations on address spaces and of changes that are
aloof from them.  A kernel entry is one such piece of a run: it gets to a state in which the
address spaces are as they were, performs one operation at most, or writes the frame of an
upcall to user pages, and leaves in a way that concerns no address space (`Passage`).

* `Frees s c x v` --- the entry frees environment `v`, read off the state before it;
* `passage_of_entry` --- every entry is such a passage.
-/

namespace PmakeOs

open Lib

namespace Kernel

variable {s s' s'' : Kernel} {ρ : ℕ → Role} {h : Hardware} {c d e v : ℕ} {x : Entry} {fl : Flow}

/-! ## The address spaces are the same -/

/-- Memory, its allocation and the slots are as they were. -/
structure SameSpaces (s s' : Kernel) : Prop where
  npages : s'.npages = s.npages
  pages : s'.pages = s.pages
  pageFreeList : s'.pageFreeList = s.pageFreeList
  phys : s'.phys = s.phys
  kernPgdir : s'.kernPgdir = s.kernPgdir
  slots : SameSlots s s'

theorem SameSpaces.refl (s : Kernel) : SameSpaces s s := ⟨rfl, rfl, rfl, rfl, rfl, .refl s⟩

theorem SameSpaces.trans (h : SameSpaces s s') (h' : SameSpaces s' s'') : SameSpaces s s'' :=
  ⟨h'.npages.trans h.npages, h'.pages.trans h.pages, h'.pageFreeList.trans h.pageFreeList,
    h'.phys.trans h.phys, h'.kernPgdir.trans h.kernPgdir, h.slots.trans h'.slots⟩

theorem SameSpaces.aloof (h : SameSpaces s s') : Aloof s s' :=
  ⟨h.npages, h.pages, h.pageFreeList, h.kernPgdir, h.slots, fun _ _ => by rw [h.phys]⟩

/-- The executing CPU changes its record. -/
theorem SameSpaces.setCpu (s : Kernel) (v : CpuInfo) : SameSpaces s (s.setCpu v) :=
  ⟨rfl, rfl, rfl, rfl, rfl, fun _ => Iff.rfl, fun _ => rfl, fun _ => rfl, rfl⟩

/-- An environment record changes in the fields that say nothing about its address space. -/
theorem SameSpaces.setEnv {w : Env} (hst : w.envStatus = .free ↔ (s.envs e).envStatus = .free)
    (hpg : w.envPgdir = (s.envs e).envPgdir) (hl : w.envLink = (s.envs e).envLink) :
    SameSpaces s (s.setEnv e w) :=
  ⟨rfl, rfl, rfl, rfl, rfl, sameSlots_setEnv hst hpg hl⟩

/-- A live environment gets another status. -/
theorem SameSpaces.setStatus {st : EnvStatus} (hlive : Live s e) (hst : st ≠ .free) :
    SameSpaces s (s.setStatus e st) :=
  .setEnv (iff_of_false hst hlive) rfl rfl

theorem SameSpaces.enter (s : Kernel) (c : ℕ) : SameSpaces s (s.enter c) :=
  ⟨rfl, rfl, rfl, rfl, rfl, fun _ => Iff.rfl, fun _ => rfl, fun _ => rfl, rfl⟩

theorem SameSpaces.note (s : Kernel) (ev : Event) : SameSpaces s (s.note ev) :=
  ⟨rfl, rfl, rfl, rfl, rfl, fun _ => Iff.rfl, fun _ => rfl, fun _ => rfl, rfl⟩

theorem SameSpaces.savedFrame (s : Kernel) (e : ℕ) (tf : Trapframe) :
    SameSpaces s (s.savedFrame e tf) :=
  (SameSpaces.note s _).trans (.setEnv (s := s.note _) Iff.rfl rfl rfl)

/-! ## Leaving the kernel -/

theorem live_of_status {st : EnvStatus} (h : (s.envs e).envStatus = st) (hst : st ≠ .free) :
    Live s e := by
  rw [Live, h]
  exact hst

theorem sameSpaces_preempt (s : Kernel) : SameSpaces s s.preempt := by
  unfold preempt
  split
  · exact .refl s
  · split
    · rename_i hrun
      exact .setStatus (live_of_status hrun nofun) nofun
    · exact .refl s

theorem sameSpaces_resume (hlive : Live s e) (h : s.resume e = .ok s') : SameSpaces s s' := by
  have henvs := envs_of_resume h
  have hlist := envFreeList_of_resume h
  have hslots : SameSlots s s' :=
    sameSlots_of_update hlive henvs nofun rfl rfl hlist
  unfold resume at h
  simp only at h
  split at h
  · cases h
  · have hs' := Except.ok.inj h
    refine ⟨?_, ?_, ?_, ?_, ?_, hslots⟩ <;>
      simp [← hs', Kernel.setCpu, Kernel.setEnv, unlockKernel, lcr3, setCurenv]

/-- **`env_run` of a live environment.** -/
theorem sameSpaces_envRun (hlive : Live s e) (h : s.envRun e = .ok s') : SameSpaces s s' := by
  rw [envRun_eq] at h
  have hpre := sameSpaces_preempt s
  exact hpre.trans (sameSpaces_resume ((hpre.slots.live_iff e).mpr hlive) h)

theorem sameSpaces_schedHalt (s : Kernel) : SameSpaces s s.schedHalt := by
  unfold schedHalt
  split
  · exact .refl s
  · refine ⟨?_, ?_, ?_, ?_, ?_, fun _ => ?_, fun _ => ?_, fun _ => ?_, ?_⟩ <;>
      simp [Kernel.setCpu, unlockKernel, lcr3, setCurenv]

theorem sameSpaces_schedYield (h : s.schedYield = .ok s') : SameSpaces s s' := by
  unfold schedYield at h
  cases hpick : s.schedPick with
  | some j =>
    rw [hpick] at h
    have hlive : Live s j := live_of_status (schedPick_runnable hpick) nofun
    exact (SameSpaces.note s _).trans (sameSpaces_envRun (s := s.note _) hlive h)
  | none =>
    rw [hpick] at h
    cases hc : s.curenv with
    | none =>
      rw [hc] at h
      obtain rfl := Except.ok.inj h
      exact sameSpaces_schedHalt s
    | some j =>
      rw [hc] at h
      simp only at h
      split at h
      · rename_i hrun
        have hlive : Live s j := live_of_status hrun nofun
        exact (SameSpaces.note s _).trans (sameSpaces_envRun (s := s.note _) hlive h)
      · obtain rfl := Except.ok.inj h
        exact sameSpaces_schedHalt s

theorem sameSpaces_trapReturn (h : s.trapReturn = .ok s') : SameSpaces s s' := by
  unfold trapReturn at h
  cases hc : s.curenv with
  | none =>
    rw [hc] at h
    exact sameSpaces_schedYield h
  | some j =>
    rw [hc] at h
    simp only at h
    split at h
    · rename_i hrun
      exact sameSpaces_envRun (live_of_status hrun nofun) h
    · exact sameSpaces_schedYield h

/-! ## What an entry does -/

/-- The entry frees environment `v`: a zombie, the environment of a CPU that takes a fault it
cannot handle or passes a range it may not read, or the one that `sys_env_destroy` is told to
destroy, unless that runs on another CPU. -/
inductive Frees (s : Kernel) (c : ℕ) : Entry → ℕ → Prop
  | zombie {tf : Trapframe} {t : Trap} {e : ℕ} (he : (s.cpus c).cpuEnv = some e)
      (hdy : (s.envs e).envStatus = .dying) : Frees s c (.trap tf t) e
  | fault {tf : Trapframe} {e : ℕ} (he : (s.cpus c).cpuEnv = some e) :
      Frees s c (.trap tf .fault) e
  | noUpcall {tf : Trapframe} {faultVa : Word} {e : ℕ} (he : (s.cpus c).cpuEnv = some e)
      (hup : (s.envs e).envPgfaultUpcall = 0#32) : Frees s c (.trap tf (.pageFault faultVa)) e
  | overflow {tf : Trapframe} {faultVa : Word} {e : ℕ} (he : (s.cpus c).cpuEnv = some e)
      (hno : ¬ Admitted ((s.enter c).savedFrame e tf) e) :
      Frees s c (.trap tf (.pageFault faultVa)) e
  | cputs {tf : Trapframe} {str len : Word} {e : ℕ} {b : Kernel}
      (he : (s.cpus c).cpuEnv = some e)
      (hno : ((s.enter c).savedFrame e tf).userMemCheck e str len pteU = .ok (-eFault, b)) :
      Frees s c (.trap tf (.syscall (.cputs str len))) e
  | envDestroy {tf : Trapframe} {envid : Word} {e v : ℕ} (he : (s.cpus c).cpuEnv = some e)
      (henv : ((s.enter c).savedFrame e tf).envid2env envid true = .ok (0, some v))
      (hno : ¬ ((s.envs v).envStatus = .running ∧ v ≠ e)) :
      Frees s c (.trap tf (.syscall (.envDestroy envid))) v

/-- One operation on address spaces, or none. -/
inductive Serves (s : Kernel) (c : ℕ) (x : Entry) : Kernel → Kernel → Prop
  | other {s₁ s₂ : Kernel} (ha : Aloof s₁ s₂) : Serves s c x s₁ s₂
  | free {s₁ s₂ : Kernel} {v : ℕ} (hf : Frees s c x v) (hlive : Live s₁ v)
      (hrun : s₁.envFree v = .ok s₂) : Serves s c x s₁ s₂
  | call {s₂ : Kernel} {e : ℕ} {tf : Trapframe} {y : Syscall} {fl : Flow}
      (hx : x = .trap tf (.syscall y)) (he : (s.cpus c).cpuEnv = some e)
      (hy : y.isSpace = true) (hrun : ((s.enter c).savedFrame e tf).handle y = .ok (fl, s₂)) :
      Serves s c x ((s.enter c).savedFrame e tf) s₂

/-- **What is left of an entry**, if what concerns no address space is set aside. -/
def Passage (s : Kernel) (c : ℕ) (x : Entry) (b s' : Kernel) : Prop :=
  ∃ s₁ s₂, SameSpaces b s₁ ∧ Serves s c x s₁ s₂ ∧ SameSpaces s₂ s'

theorem SameSpaces.passage {b : Kernel} (h : SameSpaces b s') : Passage s c x b s' :=
  ⟨s', s', h, .other (SameSpaces.refl s').aloof, .refl s'⟩

theorem Passage.trans {b s₁ : Kernel} (h : Passage s c x b s₁) (h' : SameSpaces s₁ s') :
    Passage s c x b s' := by
  obtain ⟨a₁, a₂, hin, hserve, hout⟩ := h
  exact ⟨a₁, a₂, hin, hserve, hout.trans h'⟩

/-- `env_destroy` marks an environment, or frees it. -/
theorem passage_of_envDestroy {b : Kernel} (hlive : Live b v)
    (hf : ¬ ((b.envs v).envStatus = .running ∧ b.curenv ≠ some v) → Frees s c x v)
    (h : b.envDestroy v = .ok (fl, s')) : Passage s c x b s' := by
  unfold envDestroy at h
  split at h
  · obtain ⟨-, rfl⟩ := Prod.mk.inj (Except.ok.inj h)
    have hmark : SameSpaces b (b.setStatus v .dying) := .setStatus hlive nofun
    exact hmark.passage
  · rename_i hno
    obtain ⟨s₁, hrun, h⟩ := bind_eq_ok.mp h
    have hserve : Serves s c x b s₁ := .free (hf hno) hlive hrun
    split at h
    · obtain ⟨s₂, hy, h⟩ := bind_eq_ok.mp h
      obtain ⟨-, rfl⟩ := Prod.mk.inj (Except.ok.inj h)
      have hdrop : SameSpaces s₁ (s₁.setCurenv none) := .setCpu s₁ _
      exact ⟨b, s₁, .refl b, hserve, hdrop.trans (sameSpaces_schedYield hy)⟩
    · obtain ⟨-, rfl⟩ := Prod.mk.inj (Except.ok.inj h)
      exact ⟨b, s₁, .refl b, hserve, .refl s₁⟩

theorem SameSpaces.userMemCheckAddr (s : Kernel) (a : Word) :
    SameSpaces s { s with userMemCheckAddr := a } :=
  ⟨rfl, rfl, rfl, rfl, rfl, fun _ => Iff.rfl, fun _ => rfl, fun _ => rfl, rfl⟩

/-- A passage that begins with a part that concerns no address space. -/
theorem Passage.after {b s₁ : Kernel} (h : SameSpaces b s₁) (h' : Passage s c x s₁ s') :
    Passage s c x b s' := by
  obtain ⟨a₁, a₂, hin, hserve, hout⟩ := h'
  exact ⟨a₁, a₂, h.trans hin, hserve, hout⟩

/-- In a sound state every data frame is mapped. -/
theorem Sound.mapped_of_data (hs : Settled s ρ) {f : ℕ} (hf : ρ f = .data) :
    ∃ y, (entryOf s.phys (dirsOf s) y).map frame = some f := by
  have hpos := (hs.ledger.used hf).resolve_right id
  rw [Nat.add_zero, refCount] at hpos
  obtain ⟨y, -, hy⟩ := occurrences_pos_iff.mp hpos
  exact ⟨y, hy⟩

/-- The store of an upcall frame reaches user pages only. -/
theorem Branched.aloof {faultVa : Word} (hs : Settled s ρ) (hd : dirsOf s c = some d)
    (hb : Branched s s' c d faultVa) : Aloof s s' := by
  have hspaces : Spaces s ρ := ⟨hs.ledger.typed, fun _ _ _ hd => hs.layout.wide hd⟩
  refine ⟨hb.npages, hb.pages, hb.pageFreeList, hb.kernPgdir, hb.slots, fun f hf => ?_⟩
  rw [hb.phys]
  refine hspaces.putBytes_frame hd (fun k hk => hb.writable k (hk.trans (by decide))) _ fun h0 => ?_
  obtain ⟨y, hy⟩ := hs.mapped_of_data h0
  exact hf y hy

/-! ## The handlers -/

section

variable {tf : Trapframe} {faultVa : Word}

/-- The state in which `trap_dispatch` is called for environment `e` of CPU `c`. -/
structure Dispatching (s : Kernel) (c e : ℕ) (tf : Trapframe) (b : Kernel) : Prop where
  eq : b = (s.enter c).savedFrame e tf
  env : (s.cpus c).cpuEnv = some e
  curenv : b.curenv = some e
  live : Live b e

/-- `page_fault_handler`, when the directory of the environment is loaded. -/
theorem passage_of_pageFaultHandler {b : Kernel} (hb : Dispatching s c e tf b)
    (hs : Settled b ρ) (hd : dirsOf b e = some d) (hcr : b.thiscpu.cr3 = d)
    (h : b.pageFaultHandler faultVa = .ok (fl, s')) :
    Passage s c (.trap tf (.pageFault faultVa)) b s' := by
  have hspaces : Spaces b ρ := ⟨hs.ledger.typed, fun _ _ _ hd => hs.layout.wide hd⟩
  have hrun := h
  unfold pageFaultHandler at hrun
  rw [hb.curenv, deref_some, ok_bind] at hrun
  split at hrun
  · cases hrun
  rename_i huser
  split at hrun
  · rename_i hup
    have hf : Faulting b e d := ⟨hb.curenv, hd, hcr, huser, hup⟩
    by_cases hadm : Admitted b e
    · obtain ⟨s₁, hok, hbr⟩ := hadm.branched hspaces hf faultVa
      rw [hok] at h
      obtain ⟨-, rfl⟩ := Prod.mk.inj (Except.ok.inj h)
      exact ⟨b, s₁, .refl b, .other (hbr.aloof hs hd), .refl s₁⟩
    · obtain ⟨a, -, hdes⟩ := (destroyed_or_admitted hspaces hf faultVa).resolve_right hadm
      rw [hdes] at h
      refine .after (.userMemCheckAddr b a) (passage_of_envDestroy hb.live (fun _ => ?_) h)
      rw [hb.eq] at hadm
      exact .overflow hb.env hadm
  · rename_i hup
    refine passage_of_envDestroy hb.live (fun _ => .noUpcall hb.env ?_) hrun
    rw [hb.eq] at hup
    have hfield : (((s.enter c).savedFrame e tf).envs e).envPgfaultUpcall =
        (s.envs e).envPgfaultUpcall := by
      simp [Kernel.savedFrame, Kernel.setEnv, Kernel.enter, Kernel.setCpu]
    rw [hfield] at hup
    exact not_not.mp hup

/-- `sys_cputs` -/
theorem passage_of_sysCputs {b : Kernel} {str len : Word} (hb : Dispatching s c e tf b)
    (h : b.sysCputs str len = .ok (fl, s')) :
    Passage s c (.trap tf (.syscall (.cputs str len))) b s' := by
  unfold sysCputs at h
  rw [hb.curenv, deref_some, ok_bind] at h
  split at h
  · unfold userMemAssert at h
    obtain ⟨⟨r, s₁⟩, hcheck, hend⟩ := bind_eq_ok.mp h
    rw [BitVec.zero_or] at hcheck
    rcases userMemCheck_cases hcheck with ⟨rfl, rfl⟩ | ⟨rfl, a, rfl⟩
    · obtain ⟨-, rfl⟩ := Prod.mk.inj (Except.ok.inj hend)
      exact (SameSpaces.refl s₁).passage
    · have hneg : -eFault < 0 := by decide
      simp only [hneg, if_true] at hend
      rw [hb.eq] at hcheck
      exact .after (SameSpaces.userMemCheckAddr b a)
        (passage_of_envDestroy hb.live (fun _ => .cputs hb.env hcheck) hend)
  · obtain ⟨-, rfl⟩ := Prod.mk.inj (Except.ok.inj h)
    exact (SameSpaces.refl b).passage

/-- `sys_env_destroy` -/
theorem passage_of_sysEnvDestroy {b : Kernel} {envid : Word} (hb : Dispatching s c e tf b)
    (h : b.sysEnvDestroy envid = .ok (fl, s')) :
    Passage s c (.trap tf (.syscall (.envDestroy envid))) b s' := by
  unfold sysEnvDestroy at h
  rcases envid2env_cases hb.curenv hb.live envid true with henv | ⟨v, henv, hlv⟩
  · rw [henv] at h
    obtain ⟨-, rfl⟩ := Prod.mk.inj (Except.ok.inj h)
    exact (SameSpaces.refl b).passage
  · rw [henv, ok_bind] at h
    simp only [Int.lt_irrefl, if_false, deref_some, ok_bind] at h
    obtain ⟨⟨fl₁, s₁⟩, hdes, h⟩ := bind_eq_ok.mp h
    have hpass : Passage s c (.trap tf (.syscall (.envDestroy envid))) b s₁ := by
      refine passage_of_envDestroy hlv (fun hno => ?_) hdes
      refine .envDestroy hb.env (by rw [← hb.eq]; exact henv) fun h0 => hno ⟨?_, ?_⟩
      · rw [hb.eq, (savedFrame_envs (s.enter c) e tf v).1]
        exact h0.1
      · rw [hb.curenv]
        exact fun h1 => h0.2 (Option.some.inj h1).symm
    cases fl₁ with
    | left =>
      obtain ⟨-, rfl⟩ := Prod.mk.inj (Except.ok.inj h)
      exact hpass
    | ret r =>
      obtain ⟨-, rfl⟩ := Prod.mk.inj (Except.ok.inj h)
      exact hpass

theorem sameSpaces_sysEnvSetStatus {envid status : Word} {r : ℤ} (hc : s.curenv = some e)
    (hlive : Live s e) (h : s.sysEnvSetStatus envid status = .ok (r, s')) : SameSpaces s s' := by
  unfold sysEnvSetStatus at h
  split at h
  · obtain ⟨-, rfl⟩ := Prod.mk.inj (Except.ok.inj h)
    exact .refl s
  rcases envid2env_cases hc hlive envid true with henv | ⟨v, henv, hlv⟩
  · rw [henv] at h
    obtain ⟨-, rfl⟩ := Prod.mk.inj (Except.ok.inj h)
    exact .refl s
  · rw [henv] at h
    obtain ⟨-, rfl⟩ := Prod.mk.inj (Except.ok.inj h)
    refine .setStatus hlv ?_
    split <;> exact nofun

theorem sameSpaces_sysEnvSetPgfaultUpcall {envid func : Word} {r : ℤ}
    (h : s.sysEnvSetPgfaultUpcall envid func = .ok (r, s')) : SameSpaces s s' := by
  unfold sysEnvSetPgfaultUpcall at h
  obtain ⟨⟨ret, o⟩, -, h⟩ := bind_eq_ok.mp h
  simp only at h
  split at h
  · obtain ⟨-, rfl⟩ := Prod.mk.inj (Except.ok.inj h)
    exact .refl s
  · obtain ⟨v, -, h⟩ := bind_eq_ok.mp h
    obtain ⟨-, rfl⟩ := Prod.mk.inj (Except.ok.inj h)
    exact .setEnv Iff.rfl rfl rfl

theorem sameSpaces_sysIpcRecv {dstva : Word} (hc : s.curenv = some e) (hlive : Live s e)
    (h : s.sysIpcRecv dstva = .ok (fl, s')) : SameSpaces s s' := by
  unfold sysIpcRecv at h
  split at h
  · obtain ⟨-, rfl⟩ := Prod.mk.inj (Except.ok.inj h)
    exact .refl s
  · rw [hc, deref_some, ok_bind] at h
    obtain ⟨s₁, hy, h⟩ := bind_eq_ok.mp h
    obtain ⟨-, rfl⟩ := Prod.mk.inj (Except.ok.inj h)
    have hblock : SameSpaces s (s.setEnv e { s.envs e with
        envIpcRecving := true, envStatus := .notRunnable, envIpcDstva := dstva }) :=
      .setEnv (iff_of_false nofun hlive) rfl rfl
    exact hblock.trans (sameSpaces_schedYield hy)

/-- **Every system call.** -/
theorem passage_of_handle {b : Kernel} {y : Syscall} (hb : Dispatching s c e tf b)
    (h : b.handle y = .ok (fl, s')) : Passage s c (.trap tf (.syscall y)) b s' := by
  have hspace : y.isSpace = true → Passage s c (.trap tf (.syscall y)) b s' := by
    intro hy
    rw [hb.eq] at h ⊢
    exact ⟨_, s', .refl _, .call rfl hb.env hy h, .refl s'⟩
  cases y with
  | cputs str len => exact passage_of_sysCputs hb h
  | cgetc ch =>
    obtain ⟨-, rfl⟩ := Prod.mk.inj (Except.ok.inj h)
    exact (SameSpaces.refl b).passage
  | getenvid =>
    obtain ⟨r, -, h⟩ := exists_of_returning h
    unfold sysGetenvid at h
    obtain ⟨_, -, h⟩ := bind_eq_ok.mp h
    obtain ⟨-, rfl⟩ := Prod.mk.inj (Except.ok.inj h)
    exact (SameSpaces.refl b).passage
  | envDestroy envid => exact passage_of_sysEnvDestroy hb h
  | envSetStatus envid status =>
    obtain ⟨r, -, h⟩ := exists_of_returning h
    exact (sameSpaces_sysEnvSetStatus hb.curenv hb.live h).passage
  | envSetPgfaultUpcall envid func =>
    obtain ⟨r, -, h⟩ := exists_of_returning h
    exact (sameSpaces_sysEnvSetPgfaultUpcall h).passage
  | yield =>
    obtain ⟨s₁, hy, h⟩ := bind_eq_ok.mp h
    obtain ⟨-, rfl⟩ := Prod.mk.inj (Except.ok.inj h)
    exact (sameSpaces_schedYield hy).passage
  | ipcRecv dstva => exact (sameSpaces_sysIpcRecv hb.curenv hb.live h).passage
  | _ => exact hspace rfl

/-- **Every trap that is dispatched.** -/
theorem passage_of_trapDispatch {b : Kernel} {t : Trap} (hb : Dispatching s c e tf b)
    (hs : Settled b ρ) (hd : dirsOf b e = some d) (hcr : b.thiscpu.cr3 = d)
    (h : b.trapDispatch t = .ok (fl, s')) : Passage s c (.trap tf t) b s' := by
  cases t with
  | timer =>
    obtain ⟨s₁, hy, h⟩ := bind_eq_ok.mp h
    obtain ⟨-, rfl⟩ := Prod.mk.inj (Except.ok.inj h)
    exact (sameSpaces_schedYield hy).passage
  | spurious =>
    obtain ⟨-, rfl⟩ := Prod.mk.inj (Except.ok.inj h)
    exact (SameSpaces.refl b).passage
  | pageFault faultVa => exact passage_of_pageFaultHandler hb hs hd hcr h
  | fault =>
    unfold trapDispatch at h
    rw [hb.curenv, deref_some, ok_bind] at h
    exact passage_of_envDestroy hb.live (fun _ => .fault hb.env) h
  | syscall y => exact passage_of_handle hb h

end

/-! ## Entries -/

/-- The environment of CPU `c` is live and its directory is loaded, if the entry is a trap. -/
def Resident (s : Kernel) (c : ℕ) : Entry → Prop
  | .trap _ _ => ∃ e d, (s.cpus c).cpuEnv = some e ∧ dirsOf s e = some d ∧ (s.cpus c).cr3 = d
  | .schedule => True

/-- **Every entry is one operation on address spaces at most**, between parts that concern
none. -/
theorem passage_of_entry (hs : Settled s ρ) (hres : Resident s c x)
    (h : s.entry c x = .ok s') : Passage s c x s s' := by
  have henter := SameSpaces.enter s c
  cases x with
  | schedule => exact (henter.trans (sameSpaces_schedYield h)).passage
  | trap tf t =>
    obtain ⟨e, d, he, hd, hcr⟩ := hres
    have hcur : (s.enter c).curenv = some e := by
      rw [curenv_enter]
      exact he
    have hlive : Live (s.enter c) e := live_of_dirsOf (s := s) hd
    by_cases hdy : ((s.enter c).envs e).envStatus = .dying
    · have hrun : (s.enter c).trap tf t = .ok s' := h
      rw [trap_of_dying hcur hdy] at hrun
      obtain ⟨s₁, hfree, hy⟩ := bind_eq_ok.mp hrun
      have hdrop : SameSpaces s₁ (s₁.setCurenv none) := .setCpu s₁ _
      exact ⟨s.enter c, s₁, henter, .free (.zombie he hdy) hlive hfree,
        hdrop.trans (sameSpaces_schedYield hy)⟩
    · have hsave := henter.trans (SameSpaces.savedFrame (s.enter c) e tf)
      have hb : Dispatching s c e tf ((s.enter c).savedFrame e tf) :=
        ⟨rfl, he, hcur, (hsave.slots.live_iff e).mpr (live_of_dirsOf hd)⟩
      have hset := hs.aloof hsave.aloof
      obtain ⟨fl, s₁, hdisp, hend⟩ := trap_of_vital hcur hdy h
      have hdir : dirsOf ((s.enter c).savedFrame e tf) e = some d := by
        rw [hsave.slots.dirsOf]
        exact hd
      have hload : ((s.enter c).savedFrame e tf).thiscpu.cr3 = d := by
        rw [← hcr]
        simp [thiscpu, Kernel.savedFrame, Kernel.setEnv, Kernel.note, Kernel.enter, Kernel.setCpu]
      have hpass := Passage.after hsave (passage_of_trapDispatch hb hset hdir hload hdisp)
      rcases hend with ⟨-, rfl⟩ | ⟨r, s₂, -, hs₂, hret⟩
      · exact hpass
      · have heax : SameSpaces s₁ s₂ := by
          rcases hs₂ with rfl | rfl
          · exact .refl s₂
          · exact .setEnv Iff.rfl rfl rfl
        exact hpass.trans (heax.trans (sameSpaces_trapReturn hret))

/-- An entry of CPU `c` leaves the other CPUs alone. -/
theorem cpus_of_entry {k : ℕ} (h : s.entry c x = .ok s') (hk : k ≠ c) : s'.cpus k = s.cpus k := by
  rw [(wrote_entry h).stays.other k hk, enter_cpus_of_ne s hk]

end Kernel
end PmakeOs
