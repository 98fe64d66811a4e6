import PmakeOs.Space.Rewrites
import PmakeOs.Space.TwoCpus

/-!
# What the processors have cached

Each processor keeps translations that it found in the directory it has loaded.  `lcr3` drops
all of them and `invlpg` those of one page, on the executing CPU only, and `tlb_invalidate`
calls `invlpg` only if the directory is that of `curenv`.

* `Coherent s c` --- if CPU `c` is in user mode, what it has cached agrees with the page table
  of its environment;
* `coherent_of_run` --- it does in every state of a run in which no entry frees an environment
  that runs on another CPU, and no call rewrites a page that another CPU has cached;
* `not_coherent` --- a parent takes a page away from a child that runs on another CPU.
-/

namespace PmakeOs

open Lib

namespace Kernel

variable {s s' s₀ : Kernel} {ρ : ℕ → Role} {h : Hardware} {c d e vpn : ℕ} {x : Entry}
  {t : Translation}

/-- Every cached translation is what a walk from directory `d` finds. -/
def TlbAgrees (m : Phys) (d : ℕ) (tlb : List (ℕ × Translation)) : Prop :=
  ∀ vpn t, (vpn, t) ∈ tlb → vpn < npdentries * nptentries ∧ mmuWalk m d vpn = some t

/-- The TLB of CPU `c`, if it is in user mode, agrees with the page table of `curenv`. -/
def Coherent (s : Kernel) (c : ℕ) : Prop :=
  (s.cpus c).userMode = true → ∃ e d, (s.cpus c).cpuEnv = some e ∧ dirsOf s e = some d ∧
    (s.cpus c).cr3 = d ∧ TlbAgrees s.phys d (s.cpus c).tlb

/-! ## Runs with caches -/

/-- CPU `c` caches the translation `t` of page `vpn`. -/
def fill (s : Kernel) (c vpn : ℕ) (t : Translation) : Kernel :=
  { s with
    cpus := Function.update s.cpus c { s.cpus c with tlb := (vpn, t) :: (s.cpus c).tlb } }

/-- One step of the system: a kernel entry of the kind `K`, a processor caches a translation
that it finds in the directory it has loaded, or the environments write to their pages. -/
inductive TlbStep (K : Kernel → ℕ → Entry → Prop) : Kernel → Kernel → Prop
  | entry {s s' : Kernel} {c : ℕ} {x : Entry} (hx : CanEnter s c x) (hk : K s c x)
      (hrun : s.entry c x = .ok s') : TlbStep K s s'
  | fill {s : Kernel} {c vpn : ℕ} {t : Translation} (hv : vpn < npdentries * nptentries)
      (hw : mmuWalk s.phys (s.cpus c).cr3 vpn = some t) : TlbStep K s (s.fill c vpn t)
  | store {s : Kernel} {m : Phys}
      (hm : ∀ f, (∀ y, (entryOf s.phys (dirsOf s) y).map frame ≠ some f) → m f = s.phys f) :
      TlbStep K s { s with phys := m }

def TlbRun (K : Kernel → ℕ → Entry → Prop) : Kernel → Kernel → Prop :=
  Relation.ReflTransGen (TlbStep K)

theorem TlbRun.weaken {K K' : Kernel → ℕ → Entry → Prop} (h : TlbRun K s s')
    (hK : ∀ s c x, K s c x → K' s c x) : TlbRun K' s s' := by
  refine Relation.ReflTransGen.mono (fun _ _ hstep => ?_) _ _ h
  cases hstep with
  | entry hx hk hrun => exact .entry hx (hK _ _ _ hk) hrun
  | fill hv hw => exact .fill hv hw
  | store hm => exact .store hm

/-- Another CPU runs environment `e` and has cached a translation of page `vpn`. -/
def CachedElsewhere (s : Kernel) (c e vpn : ℕ) (t : Translation) : Prop :=
  ∃ c', c' ≠ c ∧ (s.cpus c').cpuEnv = some e ∧ (vpn, t) ∈ (s.cpus c').tlb

/-- The entry pays attention to the other CPUs: it frees no environment that one of them runs,
and its call leaves every page that one of them has cached with the translation it has. -/
structure Considerate (s : Kernel) (c : ℕ) (x : Entry) : Prop where
  bearable : Bearable s c x
  frees : ∀ v, Frees s c x v → ¬ Elsewhere s c v
  rewrites : ∀ tf y, x = .trap tf (.syscall y) → ∀ e va o, Rewrites (s.enter c) y e va o →
    ∀ t, CachedElsewhere s c e (pgnum va) t → o = some t

/-! ## One step -/

/-- What holds between the steps: the address spaces are sound, and the caches are coherent. -/
structure UpToDate (s : Kernel) : Prop where
  settled : ∃ ρ, Settled s ρ
  coherent : ∀ c, Coherent s c

theorem UpToDate.resident (h : UpToDate s) (hx : CanEnter s c x) : Resident s c x := by
  cases x with
  | schedule => exact trivial
  | trap tf t =>
    obtain ⟨e, d, he, hd, hcr, -⟩ := h.coherent c hx.2
    exact ⟨e, d, he, hd, hcr⟩

/-- What the other CPUs in user mode run. -/
def RunsElsewhere (s : Kernel) (c e : ℕ) : Prop :=
  ∃ c', c' ≠ c ∧ (s.cpus c').userMode = true ∧ (s.cpus c').cpuEnv = some e

/-- What the other CPUs in user mode have cached. -/
def HeldElsewhere (s : Kernel) (c e vpn : ℕ) : Prop :=
  ∃ c', c' ≠ c ∧ (s.cpus c').userMode = true ∧ (s.cpus c').cpuEnv = some e ∧
    ∃ t, (vpn, t) ∈ (s.cpus c').tlb

theorem UpToDate.undisturbed (h : UpToDate s) (hcs : Considerate s c x) (tf : Trapframe)
    (y : Syscall) (hy : x = .trap tf (.syscall y)) :
    Undisturbed (RunsElsewhere s c) (HeldElsewhere s c) (s.enter c) y := by
  rintro e va o hrw - hheld d t hd ht
  obtain ⟨c', hc', hu, he, t', hmem⟩ := hheld
  have hkeep := hcs.rewrites tf y hy e va o hrw t' ⟨c', hc', he, hmem⟩
  obtain ⟨e', d', he', hd', -, hagree⟩ := h.coherent c' hu
  obtain rfl := Option.some.inj (he.symm.trans he')
  have hd : dirsOf s e = some d := hd
  obtain rfl := Option.some.inj (hd'.symm.trans hd)
  have ht : mmuWalk s.phys d' (pgnum va) = some t := ht
  rw [hkeep, ← (hagree _ _ hmem).2, ht]

/-- **An entry.** -/
theorem UpToDate.entry (h : UpToDate s) (hx : CanEnter s c x) (hcs : Considerate s c x)
    (hrun : s.entry c x = .ok s') : UpToDate s' := by
  obtain ⟨ρ, hs⟩ := h.settled
  have hfrees : ∀ v, Frees s c x v → ¬ RunsElsewhere s c v := by
    rintro v hv ⟨c', hc', -, he⟩
    exact hcs.frees v hv ⟨c', hc', he⟩
  obtain ⟨hset, hkeeps⟩ := hs.entry (h.resident hx) hcs.bearable hfrees (h.undisturbed hcs) hrun
  have hnum : s'.cpunum = c := (wrote_entry hrun).stays.cpunum
  refine ⟨hset, fun c' hu => ?_⟩
  rcases eq_or_ne c' c with rfl | hc'
  · have harr := arrives_entry hrun
    rw [Arrives, curenv, thiscpu, hnum] at harr
    obtain ⟨e, d, he, hlive, hd, hcr, htlb⟩ := harr hu
    refine ⟨e, d, he, dirsOf_of_pgdir hlive hd, hcr, fun vpn t hmem => ?_⟩
    rw [htlb] at hmem
    cases hmem
  · -- a CPU that has been in user mode all the time
    rw [cpus_of_entry hrun hc'] at hu ⊢
    obtain ⟨e, d, he, hd, hcr, hagree⟩ := h.coherent c' hu
    obtain ⟨hd', hwalk⟩ := hkeeps e d ⟨c', hc', hu, he⟩ hd
    refine ⟨e, d, he, hd', hcr, fun vpn t hmem => ?_⟩
    obtain ⟨hv, ht⟩ := hagree vpn t hmem
    exact ⟨hv, hwalk vpn hv ⟨c', hc', hu, he, t, hmem⟩ t ht⟩

/-- **A processor caches a translation.** -/
theorem UpToDate.fill (h : UpToDate s) (hv : vpn < npdentries * nptentries)
    (hw : mmuWalk s.phys (s.cpus c).cr3 vpn = some t) : UpToDate (s.fill c vpn t) := by
  obtain ⟨ρ, hs⟩ := h.settled
  have hsame : SameSpaces s (s.fill c vpn t) :=
    ⟨rfl, rfl, rfl, rfl, rfl, fun _ => Iff.rfl, fun _ => rfl, fun _ => rfl, rfl⟩
  refine ⟨⟨ρ, hs.aloof hsame.aloof⟩, fun c' hu => ?_⟩
  rcases eq_or_ne c' c with rfl | hc'
  · have hcpu : (s.fill c' vpn t).cpus c' =
        { s.cpus c' with tlb := (vpn, t) :: (s.cpus c').tlb } := Function.update_self ..
    rw [hcpu] at hu ⊢
    obtain ⟨e, d, he, hd, hcr, hagree⟩ := h.coherent c' hu
    refine ⟨e, d, he, hd, hcr, fun vpn' t' hmem => ?_⟩
    rcases List.mem_cons.mp hmem with heq | hmem
    · obtain ⟨rfl, rfl⟩ := Prod.mk.inj heq
      rw [hcr] at hw
      exact ⟨hv, hw⟩
    · exact hagree vpn' t' hmem
  · have hcpu : (s.fill c vpn t).cpus c' = s.cpus c' := Function.update_of_ne hc' ..
    rw [hcpu] at hu ⊢
    exact h.coherent c' hu

/-- **The environments write to their pages.** -/
theorem UpToDate.store (h : UpToDate s) {m : Phys}
    (hm : ∀ f, (∀ y, (entryOf s.phys (dirsOf s) y).map frame ≠ some f) → m f = s.phys f) :
    UpToDate { s with phys := m } := by
  obtain ⟨ρ, hs⟩ := h.settled
  have ha : Aloof s { s with phys := m } :=
    ⟨rfl, rfl, rfl, rfl, ⟨fun _ => Iff.rfl, fun _ => rfl, fun _ => rfl, rfl⟩, hm⟩
  have hkeeps := hs.keeps_of_aloof (W := fun _ => True) (C := fun _ _ => True) ha
  refine ⟨⟨ρ, hs.aloof ha⟩, fun c hu => ?_⟩
  obtain ⟨e, d, he, hd, hcr, hagree⟩ := h.coherent c hu
  obtain ⟨hd', hwalk⟩ := hkeeps e d trivial hd
  refine ⟨e, d, he, hd', hcr, fun vpn t hmem => ?_⟩
  obtain ⟨hv, ht⟩ := hagree vpn t hmem
  exact ⟨hv, hwalk vpn hv trivial t ht⟩

/-! ## Runs -/

/-- **The TLBs agree with the page tables**, in every state of a run of considerate entries. -/
theorem coherent_of_run (hr : Reached h s₀) (hu : Unstarted s₀) (hrun : TlbRun Considerate s₀ s)
    (c : ℕ) : Coherent s c := by
  obtain ⟨ρ₀, hset, -⟩ := hr.settled
  have hup : UpToDate s := by
    induction hrun with
    | refl =>
      refine ⟨⟨ρ₀, hset⟩, fun c hmode => ?_⟩
      rw [(hu.cpus c).1] at hmode
      cases hmode
    | tail _ hstep ih =>
      cases hstep with
      | entry hx hk hrun => exact ih.entry hx hk hrun
      | fill hv hw => exact ih.fill hv hw
      | store hm => exact ih.store hm
  exact hup.coherent c

/-! ## The page of a child -/

/-- An idle CPU that looks for work frees and rewrites nothing. -/
theorem considerate_schedule (s : Kernel) (c : ℕ) : Considerate s c .schedule :=
  ⟨⟨nofun, nofun, nofun⟩, nofun, nofun⟩

theorem RunsOn.fill {k : ℕ} (h : RunsOn s k e) (c vpn : ℕ) (t : Translation) :
    RunsOn (s.fill c vpn t) k e := by
  obtain ⟨he, hu, hd⟩ := h
  rcases eq_or_ne k c with rfl | hne
  · refine ⟨?_, ?_, ?_⟩
    · simpa [Kernel.fill] using he
    · simpa [Kernel.fill] using hu
    · have hcr : ((s.fill k vpn t).cpus k).cr3 = (s.cpus k).cr3 := by simp [Kernel.fill]
      rw [hcr]
      exact hd
  · have hcpu : (s.fill c vpn t).cpus k = s.cpus k := Function.update_of_ne hne ..
    refine ⟨?_, ?_, ?_⟩
    · rw [hcpu]
      exact he
    · rw [hcpu]
      exact hu
    · rw [hcpu]
      exact hd

/-- On a machine with 64 MB the child gets to use its page, while the parent is on another
CPU. -/
theorem exists_cached : ∃ s₀ s e c d dc p id ρ k l t, Reached machine64 s₀ ∧ Unstarted s₀ ∧
    TlbRun Considerate s₀ s ∧ Paired s e c d dc p id ρ k l ∧ (0, t) ∈ (s.cpus l).tlb := by
  obtain ⟨s, e, c, d, dc, p, id, ρ, hreach, ha⟩ := exists_allotted
  obtain ⟨s₁, s₂, k, l, hx₁, hrun₁, hx₂, hrun₂, hp⟩ := ha.paired
  obtain ⟨t, ht, -⟩ := hp.allotted.walk
  have hcr : (s₂.cpus l).cr3 = dc := by
    have hload := hp.child.loaded
    rw [hp.allotted.child] at hload
    exact (Option.some.inj hload).symm
  have hrun : TlbRun Considerate (s.waiting e c) (s₂.fill l 0 t) :=
    ((Relation.ReflTransGen.single (.entry hx₁ (considerate_schedule _ 0) hrun₁)).tail
      (.entry hx₂ (considerate_schedule _ 1) hrun₂)).tail
      (.fill (by decide) (by rw [hcr]; exact ht))
  have hsame : SameSpaces s₂ (s₂.fill l 0 t) :=
    ⟨rfl, rfl, rfl, rfl, rfl, fun _ => Iff.rfl, fun _ => rfl, fun _ => rfl, rfl⟩
  have hall := hp.allotted.sameSpaces hsame (fun _ => rfl) fun _ => rfl
  refine ⟨_, _, e, c, d, dc, p, id, ρ, k, l, t, .other hreach (sameSpaces_waiting s e c).aloof,
    unstarted_waiting ha.settled e c, hrun, ⟨hall, hp.ne, hp.lock, hp.running,
      hp.parent.fill l 0 t, hp.child.fill l 0 t⟩, ?_⟩
  simp [Kernel.fill]

/-- The CPU of the child, when it has cached the translation of the page. -/
theorem coherent_of_run_cached : ∃ s₀ s l t, Reached machine64 s₀ ∧ Unstarted s₀ ∧
    TlbRun Considerate s₀ s ∧ (s.cpus l).userMode = true ∧ (0, t) ∈ (s.cpus l).tlb ∧
    Coherent s l := by
  obtain ⟨s₀, s, e, c, d, dc, p, id, ρ, k, l, t, hr, hu, hrun, hp, hmem⟩ := exists_cached
  exact ⟨s₀, s, l, t, hr, hu, hrun, hp.child.userMode, hmem, coherent_of_run hr hu hrun l⟩

/-- **A page that is taken away stays in the TLB of another CPU.**  The parent unmaps the page
of a child that runs on another CPU; the child goes on using it. -/
theorem not_coherent : ¬ ∀ (h : Hardware) (s₀ s : Kernel), Reached h s₀ → Unstarted s₀ →
    TlbRun (fun s c x => Bearable s c x ∧ ∀ v, Frees s c x v → ¬ Elsewhere s c v) s₀ s →
    ∀ c, Coherent s c := by
  intro hall
  obtain ⟨s₀, s, e, c, d, dc, p, id, ρ, k, l, t, hr, hu, hrun, hp, hmem⟩ := exists_cached
  obtain ⟨s', hentry, hd, hnone⟩ := hp.unmap freshTrapframe
  -- the parent is no zombie, so nothing is freed
  have hfrees : ∀ v,
      ¬ Frees s k (.trap freshTrapframe (.syscall (.pageUnmap id (pageVa 0)))) v := by
    intro v hv
    cases hv with
    | zombie he hdy =>
      obtain rfl := Option.some.inj (hp.parent.cpuEnv.symm.trans he)
      rw [hp.running] at hdy
      cases hdy
  have hbear : Bearable s k (.trap freshTrapframe (.syscall (.pageUnmap id (pageVa 0)))) := by
    refine ⟨fun tf y hy => ?_, fun _ _ _ e' va _ => hp.allotted.droppable e' va,
      fun v hv => absurd hv (hfrees v)⟩
    obtain ⟨-, hy⟩ := Entry.trap.inj hy
    obtain rfl := Trap.syscall.inj hy
    show (0#32).toNat < 2 ^ 12
    decide
  have hx : CanEnter s k (.trap freshTrapframe (.syscall (.pageUnmap id (pageVa 0)))) :=
    ⟨hp.lock, hp.parent.userMode⟩
  have hrun' := (hrun.weaken fun _ _ _ hk => And.intro hk.bearable hk.frees).tail
    (.entry hx ⟨hbear, fun v hv => absurd hv (hfrees v)⟩ hentry)
  have hlast := hall machine64 s₀ s' hr hu hrun' l
  rw [Coherent, cpus_of_entry hentry hp.ne.symm] at hlast
  obtain ⟨c', d', hc', hd', -, hagree⟩ := hlast hp.child.userMode
  obtain rfl := Option.some.inj (hc'.symm.trans hp.child.cpuEnv)
  obtain rfl := Option.some.inj (hd'.symm.trans hd)
  have hwalk := (hagree 0 t hmem).2
  rw [hnone] at hwalk
  cases hwalk

end Kernel
end PmakeOs
