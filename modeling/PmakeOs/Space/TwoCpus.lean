import PmakeOs.Calls.Settles
import PmakeOs.Sched.RoundRobin
import PmakeOs.Space.Passages
import PmakeOs.Space.Walks

/-!
# A parent and a child on two CPUs

From a state in which a child has one page, both environments are started (`exists_paired`),
and the parent takes the page away (`Paired.unmap`) while the child is in user mode.
-/

namespace PmakeOs

open Lib

namespace Kernel

variable {s s' s'' : Kernel} {ρ : ℕ → Role} {e c d dc p k l : ℕ} {id va : Word}

/-! ## Starting both -/

/-- Environments `e` and `c` wait for a CPU, the others for something else, and every CPU
is idle. -/
def waiting (s : Kernel) (e c : ℕ) : Kernel :=
  { s with
    envs := fun j => { s.envs j with
      envStatus := if (s.envs j).envStatus = .free then .free
        else if j = e ∨ j = c then .runnable else .notRunnable }
    cpus := fun _ => ⟨.started, none, false, s.kernPgdir, []⟩
    kernelLock := none }

theorem sameSpaces_waiting (s : Kernel) (e c : ℕ) : SameSpaces s (s.waiting e c) := by
  refine ⟨rfl, rfl, rfl, rfl, rfl, fun j => ?_, fun _ => rfl, fun _ => rfl, rfl⟩
  show (if (s.envs j).envStatus = .free then _ else _) = _ ↔ _
  split
  · rename_i hfree
    exact iff_of_true rfl hfree
  · rename_i hlive
    refine iff_of_false ?_ hlive
    split <;> exact nofun

theorem waiting_envStatus {j : ℕ} (hlive : Live s j) :
    ((s.waiting e c).envs j).envStatus = if j = e ∨ j = c then .runnable else .notRunnable :=
  if_neg hlive

theorem unstarted_waiting (hs : Settled s ρ) (e c : ℕ) : Unstarted (s.waiting e c) := by
  have hw := hs.aloof (sameSpaces_waiting s e c).aloof
  obtain ⟨l, hl, hmem⟩ := hw.layout.slots
  refine ⟨⟨l, hl, fun j hj => not_not.mp ((hmem j).mp hj).2⟩, rfl, fun _ => ⟨rfl, rfl⟩, ?_⟩
  intro j hon
  have hst : ((s.waiting e c).slots j).envStatus = if (s.envs j).envStatus = .free then .free
      else if j = e ∨ j = c then .runnable else .notRunnable := rfl
  rw [OnCpu, hst] at hon
  split at hon
  · simp at hon
  · split at hon <;> simp at hon

/-- CPU `k` runs environment `e` in user mode, with its directory loaded. -/
structure RunsOn (s : Kernel) (k e : ℕ) : Prop where
  cpuEnv : (s.cpus k).cpuEnv = some e
  userMode : (s.cpus k).userMode = true
  loaded : dirsOf s e = some (s.cpus k).cr3

theorem RunsOn.other (h : RunsOn s k e) (hsame : SameSpaces s s') (hcpu : s'.cpus k = s.cpus k) :
    RunsOn s' k e := by
  refine ⟨?_, ?_, ?_⟩
  · rw [hcpu]
    exact h.cpuEnv
  · rw [hcpu]
    exact h.userMode
  · rw [hcpu, hsame.slots.dirsOf]
    exact h.loaded

/-- **An idle CPU** finds a runnable environment, and runs it. -/
theorem exists_schedule {j : ℕ} (hidle : (s.cpus k).cpuEnv = none) (hj : j < nenv)
    (hrunnable : (s.envs j).envStatus = .runnable)
    (hdir : ∀ i, Live s i → ∃ d, (s.envs i).envPgdir = some d) :
    ∃ i s', (s.envs i).envStatus = .runnable ∧ s.entry k .schedule = .ok s' ∧ SameSpaces s s' ∧
      s'.envs = (Write.run i k).apply s.envs ∧ RunsOn s' k i ∧ s'.kernelLock = none := by
  have hcur : (s.enter k).curenv = none := by
    rw [curenv_enter]
    exact hidle
  have hin : InSlot (s.enter k) := by
    intro i hi
    rw [hcur] at hi
    cases hi
  obtain ⟨i, hfirst, hyield⟩ | ⟨hnone, -⟩ | ⟨hnone, -⟩ := schedYield_cases hin
  · have hrun : (s.envs i).envStatus = .runnable := hfirst.runnable
    have hlive : Live s i := live_of_status hrun nofun
    obtain ⟨d, hd⟩ := hdir i hlive
    obtain ⟨s', hs'⟩ := exists_envRun (s := (s.enter k).note (.select (s.enter k).cpunum i)) hd
    have hentry : s.entry k .schedule = .ok s' := hyield.trans hs'
    have hsame : SameSpaces s s' := ((SameSpaces.enter s k).trans (.note _ _)).trans
      (sameSpaces_envRun (s := (s.enter k).note _) hlive hs')
    obtain ⟨d', hran⟩ := ran_of_envRun hs'
    have hnum : s'.cpunum = k := hran.cpunum
    obtain ⟨he, hu, hcr⟩ := hran.cpu
    rw [thiscpu, hnum] at he hu hcr
    refine ⟨i, s', hrun, hentry, hsame, ?_, ⟨he, hu, ?_⟩, hran.kernelLock⟩
    · have hpre : ((s.enter k).note (.select (s.enter k).cpunum i)).preempt =
          (s.enter k).note (.select (s.enter k).cpunum i) := by
        unfold preempt
        have h0 : ((s.enter k).note (.select (s.enter k).cpunum i)).curenv = none := hcur
        rw [h0]
      rw [envRun_eq, hpre] at hs'
      exact envs_of_resume hs'
    · rw [hcr, hsame.slots.dirsOf]
      exact dirsOf_of_pgdir hlive hran.pgdir
  · exact absurd hrunnable (hnone j hj)
  · exact absurd hrunnable (hnone j hj)

/-- What is said about the two address spaces says nothing about CPUs. -/
theorem Allotted.sameSpaces (ha : Allotted s e c d dc p id ρ) (h : SameSpaces s s')
    (hid : ∀ j, (s'.envs j).envId = (s.envs j).envId)
    (hpar : ∀ j, (s'.envs j).envParentId = (s.envs j).envParentId) :
    Allotted s' e c d dc p id ρ := by
  have hdirs := h.slots.dirsOf
  refine ⟨ha.settled.aloof h.aloof, ?_, ?_, ha.ne, ?_, ?_, ?_, ha.page, ?_, ha.spare⟩
  · rw [hdirs]
    exact ha.parent
  · rw [hdirs]
    exact ha.child
  · rw [hid]
    exact ha.childId
  · rw [hid]
    exact ha.id_ne
  · have hcur : (s'.setCurenv (some e)).curenv = (s.setCurenv (some e)).curenv := by
      rw [curenv_setCurenv, curenv_setCurenv]
    rw [← ha.granted]
    exact envid2env_congr hcur h.slots.free_iff hid hpar id true
  · intro x
    rw [hdirs, h.phys]
    exact ha.entries x

/-- Parent `e` runs on CPU `k`, and its child `c` on CPU `l`. -/
structure Paired (s : Kernel) (e c d dc p : ℕ) (id : Word) (ρ : ℕ → Role) (k l : ℕ) : Prop where
  allotted : Allotted s e c d dc p id ρ
  ne : k ≠ l
  lock : s.kernelLock = none
  running : (s.envs e).envStatus = .running
  parent : RunsOn s k e
  child : RunsOn s l c

/-- A store to the slot of an environment that is run. -/
theorem run_value (v : ℕ → Env) (i k j : ℕ) : ((Write.run i k).apply v j).envId = (v j).envId ∧
    ((Write.run i k).apply v j).envParentId = (v j).envParentId ∧
    ((Write.run i k).apply v j).envStatus = if j = i then .running else (v j).envStatus := by
  rcases eq_or_ne j i with rfl | hne
  · simp [Write.apply, Write.slot, Write.value]
  · simp [Write.apply, Write.slot, hne]

/-- **Both environments are started.** -/
theorem Allotted.paired (ha : Allotted s e c d dc p id ρ) : ∃ s₁ s₂ k l,
    CanEnter (s.waiting e c) 0 .schedule ∧ (s.waiting e c).entry 0 .schedule = .ok s₁ ∧
    CanEnter s₁ 1 .schedule ∧ s₁.entry 1 .schedule = .ok s₂ ∧
    Paired s₂ e c d dc p id ρ k l := by
  have hsame₀ := sameSpaces_waiting s e c
  have hs₀ := ha.settled.aloof hsame₀.aloof
  have hlive : Live s e ∧ Live s c := ⟨live_of_dirsOf ha.parent, live_of_dirsOf ha.child⟩
  have hrunnable : ∀ i, ((s.waiting e c).envs i).envStatus = .runnable → i = e ∨ i = c := by
    intro i hi
    have hi' := (hsame₀.slots.live_iff i).mp (live_of_status hi nofun)
    rw [waiting_envStatus hi'] at hi
    by_contra hno
    rw [if_neg hno] at hi
    cases hi
  have hwaits : ∀ i, i = e ∨ i = c → ((s.waiting e c).envs i).envStatus = .runnable := by
    intro i hi
    have hi' : Live s i := by
      rcases hi with rfl | rfl
      · exact hlive.1
      · exact hlive.2
    rw [waiting_envStatus hi', if_pos hi]
  obtain ⟨i, s₁, hi, hrun₁, hsame₁, henvs₁, hon₁, hlock₁⟩ := exists_schedule (k := 0) (j := e)
    (s := s.waiting e c) rfl (ha.settled.layout.live hlive.1).1 (hwaits e (.inl rfl))
    fun i hi => (hs₀.layout.live hi).2
  have hs₁ := hs₀.aloof hsame₁.aloof
  have hidle₁ : (s₁.cpus 1).userMode = false ∧ (s₁.cpus 1).cpuEnv = none := by
    rw [cpus_of_entry hrun₁ Nat.one_ne_zero]
    exact ⟨rfl, rfl⟩
  -- the other one is left
  obtain ⟨j, hj, hji⟩ : ∃ j, (j = e ∨ j = c) ∧ j ≠ i := by
    rcases hrunnable i hi with rfl | rfl
    · exact ⟨c, .inr rfl, ha.ne⟩
    · exact ⟨e, .inl rfl, ha.ne.symm⟩
  have hstat₁ : ∀ i', (s₁.envs i').envStatus =
      if i' = i then .running else ((s.waiting e c).envs i').envStatus := by
    intro i'
    rw [henvs₁]
    exact (run_value _ i 0 i').2.2
  have hjlive : Live (s.waiting e c) j := live_of_status (hwaits j hj) nofun
  obtain ⟨i₂, s₂, hi₂, hrun₂, hsame₂, henvs₂, hon₂, hlock₂⟩ := exists_schedule (k := 1) (j := j)
    (s := s₁) hidle₁.2 (hs₀.layout.live hjlive).1
    (by rw [hstat₁, if_neg hji]; exact hwaits j hj) fun i hi => (hs₁.layout.live hi).2
  have hne : i₂ ≠ i := by
    rintro rfl
    rw [hstat₁, if_pos rfl] at hi₂
    cases hi₂
  have hi₂' : i₂ = e ∨ i₂ = c := by
    rw [hstat₁, if_neg hne] at hi₂
    exact hrunnable i₂ hi₂
  have hon₁' : RunsOn s₂ 0 i := hon₁.other hsame₂ (cpus_of_entry hrun₂ Nat.zero_ne_one)
  have hall : Allotted s₂ e c d dc p id ρ := by
    refine ha.sameSpaces ((hsame₀.trans hsame₁).trans hsame₂) (fun j => ?_) fun j => ?_
    · rw [henvs₂, (run_value _ _ _ j).1, henvs₁, (run_value _ _ _ j).1]
      rfl
    · rw [henvs₂, (run_value _ _ _ j).2.1, henvs₁, (run_value _ _ _ j).2.1]
      rfl
  have hrunning : ∀ i', i' = i ∨ i' = i₂ → (s₂.envs i').envStatus = .running := by
    intro i' hi'
    rw [henvs₂, (run_value _ _ _ i').2.2]
    split
    · rfl
    · rw [hstat₁, if_pos (hi'.resolve_right ‹_›)]
  refine ⟨s₁, s₂, ?_⟩
  rcases hrunnable i hi with rfl | rfl
  · obtain rfl := hi₂'.resolve_left hne
    exact ⟨0, 1, ⟨rfl, rfl, rfl⟩, hrun₁, ⟨hlock₁, hidle₁⟩, hrun₂,
      ⟨hall, by decide, hlock₂, hrunning i (.inl rfl), hon₁', hon₂⟩⟩
  · obtain rfl := hi₂'.resolve_right hne
    exact ⟨1, 0, ⟨rfl, rfl, rfl⟩, hrun₁, ⟨hlock₁, hidle₁⟩, hrun₂,
      ⟨hall, by decide, hlock₂, hrunning i₂ (.inr rfl), hon₂, hon₁'⟩⟩

/-! ## The parent takes the page away -/

/-- A call that returns. -/
theorem trap_of_returned {tf : Trapframe} {y : Syscall} {r : ℤ} (hc : s.curenv = some e)
    (hdy : (s.envs e).envStatus ≠ .dying)
    (h : (s.savedFrame e tf).handle y = .ok (.ret r, s')) :
    s.trap tf (.syscall y) = (s'.setEax e r).trapReturn := by
  unfold trap
  rw [hc, deref_some, ok_bind, if_neg hdy]
  show ((s.savedFrame e tf).handle y >>= _) = _
  rw [h]
  rfl

theorem Sound.sysPageUnmap_removes {envid : Word} (hs : Settled s ρ)
    (henv : s.envid2env envid true = .ok (0, some e)) (hd : dirsOf s e = some d) (hva : va < utop)
    (hal : ¬ Unaligned va) (hb : Droppable s e va) :
    ∃ s' ρ', s.sysPageUnmap envid va = .ok (0, s') ∧ MemoryOnly s s' ∧
      Removed s s' (dirsOf s) ρ ρ' (fun _ => 0) e (pgnum va) := by
  obtain ⟨s', ρ', hrun, -, hm, hrem, -⟩ := hs.pageRemove (Q := fun _ => True) hd hva
    (fun w hw => (hb w hw).le) fun _ => trivial
  refine ⟨s', ρ', ?_, hm, hrem⟩
  have hno : ¬ (utop ≤ va ∨ Unaligned va) := not_or.mpr ⟨BitVec.not_le.mpr hva, hal⟩
  unfold Kernel.sysPageUnmap
  rw [henv, ok_bind]
  simp only [ne_eq, not_true_eq_false, if_false, if_neg hno, deref_some, ok_bind,
    pgdir_of_dirsOf hd, hrun]
  rfl

theorem Allotted.droppable (ha : Allotted s e c d dc p id ρ) (j : ℕ) (va : Word) :
    Droppable s j va := by
  have hone : ∀ z w, entryOf s.phys (dirsOf s) z = some w → z = (c, 0) := by
    intro z w hw
    rw [ha.entries z] at hw
    split at hw
    · assumption
    · cases hw
  exact fun w _ => (refCount_le_one hone (frame w)).trans_lt (by decide)

/-- What the processor finds for the page of the child. -/
theorem Allotted.walk (ha : Allotted s e c d dc p id ρ) :
    ∃ t, mmuWalk s.phys dc 0 = some t ∧ t.ppn = p := by
  have hupn : 0 < upn := by
    rw [upn_eq]
    omega
  rw [mmuWalk_eq, userPte_eq ha.child hupn, ha.entries, if_pos rfl]
  exact ⟨_, rfl, frame_entry ha.page toNat_readWrite⟩

/-- **The parent unmaps the page of the child**, which is in user mode. -/
theorem Paired.unmap (h : Paired s e c d dc p id ρ k l) (tf : Trapframe) : ∃ s',
    s.entry k (.trap tf (.syscall (.pageUnmap id (pageVa 0)))) = .ok s' ∧
      dirsOf s' c = some dc ∧ mmuWalk s'.phys dc 0 = none := by
  have hupn : 0 < upn := by
    rw [upn_eq]
    omega
  have hcur : (s.enter k).curenv = some e := by
    rw [curenv_enter]
    exact h.parent.cpuEnv
  have hrunning : ((s.enter k).envs e).envStatus = .running := h.running
  have hsame := (SameSpaces.enter s k).trans (.savedFrame _ e tf)
  have hfields := savedFrame_envs (s.enter k) e tf
  have ha : Allotted ((s.enter k).savedFrame e tf) e c d dc p id ρ :=
    h.allotted.sameSpaces hsame (fun j => (hfields j).2.1) fun j => (hfields j).2.2.1
  have henv : ((s.enter k).savedFrame e tf).envid2env id true = .ok (0, some c) := by
    rw [← ha.granted]
    have hself : ((s.enter k).savedFrame e tf).curenv =
        (((s.enter k).savedFrame e tf).setCurenv (some e)).curenv :=
      hcur.trans (curenv_setCurenv _ _).symm
    exact envid2env_congr hself (fun _ => Iff.rfl) (fun _ => rfl) (fun _ => rfl) id true
  obtain ⟨s₁, ρ', hcall, hm, hrem⟩ := ha.settled.sysPageUnmap_removes henv ha.child
    (pageVa_lt hupn) (not_unaligned_pageVa hupn) (ha.droppable c _)
  have hcur₁ : s₁.curenv = some e := by
    rw [hm.passive.cpuEnv]
    exact hcur
  have hrun₁ : (s₁.envs e).envStatus = .running := by
    rw [hm.envs, (hfields e).1]
    exact hrunning
  have hpg₁ : (s₁.envs e).envPgdir = some d := by
    rw [hm.envs]
    exact pgdir_of_dirsOf ha.parent
  have heax : SameSpaces s₁ (s₁.setEax e 0) := .setEnv Iff.rfl rfl rfl
  have hst : ((s₁.setEax e 0).envs e).envStatus = .running := by
    rw [← hrun₁]
    simp [setEax, Kernel.setEnv]
  obtain ⟨s', hs'⟩ := exists_envRun (s := s₁.setEax e 0) (e := e) (d := d) (by
    rw [heax.slots.pgdir]
    exact hpg₁)
  have hret : (s₁.setEax e 0).trapReturn = .ok s' := by
    have hc : (s₁.setEax e 0).curenv = some e := hcur₁
    unfold trapReturn
    rw [hc]
    simp only [hst, if_true]
    exact hs'
  have hout := heax.trans (sameSpaces_trapReturn hret)
  refine ⟨s', ?_, ?_, ?_⟩
  · show (s.enter k).trap tf (.syscall (.pageUnmap id (pageVa 0))) = _
    have hdy : ((s.enter k).envs e).envStatus ≠ .dying := by
      rw [hrunning]
      decide
    have hhandle : ((s.enter k).savedFrame e tf).handle (.pageUnmap id (pageVa 0)) =
        .ok (.ret 0, s₁) := returning_ok hcall
    rw [trap_of_returned hcur hdy hhandle]
    exact hret
  · rw [hout.slots.dirsOf, hm.sameSlots.dirsOf]
    exact ha.child
  · rw [hout.phys, mmuWalk_eq, userPte_eq ha.child hupn, hrem.entries, pgnum_pageVa hupn,
      Function.update_self]
    rfl

end Kernel
end PmakeOs
