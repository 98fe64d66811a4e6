import PmakeOs.Boot.Tables
import PmakeOs.Space.Runs
import PmakeOs.Sched.Table

/-!
# The state that boot leaves

If `mem_init` returns, its tests have passed and `kern_pgdir` has the entries `kernEntries h`
(`booting_of_memInit`); it returns on every machine whose memory reaches far enough beyond the
kernel (`memInit_ok`).  With `env_init` after it, every page of the allocator is free or is a
table of `kern_pgdir`, and every slot of the environment table is free, so the state is sound
(`settled_of_bootUp`): runs start here.
-/

namespace PmakeOs

open Lib

namespace Kernel

variable {s s' : Kernel} {U l : List ℕ} {E : ℕ → Word} {h : Hardware}

/-! ## The last tests -/

/-- Loading a directory does not touch the tables. -/
theorem Booting.lcr3 (hb : Booting U s l E) (d : ℕ) : Booting U (s.lcr3 d) l E :=
  ⟨⟨hb.pool.list, hb.pool.link, hb.pool.ref, hb.pool.lt⟩, hb.window, hb.lt, hb.sub, hb.kern, hb.dir,
    hb.entry, hb.absent⟩

/-- The environments, the lists of slots and the directory are those of `s`. -/
structure SameTable (s s' : Kernel) : Prop where
  npages : s'.npages = s.npages
  kernPgdir : s'.kernPgdir = s.kernPgdir
  envs : s'.envs = s.envs

/-- **The end of `mem_init`**, if it is reached. -/
theorem Booting.of_finish (hb : Booting U s l E) (hU : U.Nodup) (h71 : 71 < U.length)
    (hrun : finish h s = .ok s') :
    SameTable s s' ∧ (∃ l', Booting U s' l' E ∧ (∃ p ∈ l', extphysmem ≤ page2pa p)) := by
  unfold finish at hrun
  obtain ⟨-, -, hr⟩ := bind_eq_ok.mp hrun
  obtain ⟨s₁, hcheck, hr⟩ := bind_eq_ok.mp hr
  have hb₀ := hb.lcr3 s.kernPgdir
  obtain ⟨-, hpass, hlow, hhigh⟩ := hb₀.pool.of_checkPageFreeList
    (fun h0 => absurd hb₀.window (Nat.not_le.mpr h0)) hcheck
  obtain ⟨s₂, l₂, hcheck', ht⟩ := hb₀.pool.checkPageFreeList hb₀.window _ hpass hlow hhigh false
  obtain rfl := Except.ok.inj (hcheck.symm.trans hcheck')
  have hb₁ := hb₀.tested ht
  obtain ⟨a, b, c, rest, rfl, bench⟩ := hb₁.bench hU h71
  have hcr : s₁.thiscpu.cr3 = s₁.kernPgdir := by
    rw [ht.still.kernPgdir, thiscpu, ht.still.cpunum, ht.still.cr3]
    simp [Kernel.lcr3, setCpu, thiscpu]
  have h0 : s₁.phys s₁.kernPgdir 0 = 0#32 := hb₁.dir.low 0 (by rw [pdx_utop]; omega)
  obtain ⟨s₃, hinst, ht'⟩ := bench.checkPageInstalledPgdir hcr h0
  obtain rfl := Except.ok.inj (hinst.symm.trans hr)
  have hsame : SameTable s s₃ := by
    have hst := ht.still.trans ht'.still
    exact ⟨hst.npages, hst.kernPgdir, hst.envs⟩
  refine ⟨hsame, _, hb₁.tested ht', ?_⟩
  obtain ⟨p, hp, hge⟩ := hhigh
  exact ⟨p, ht'.perm.mem_iff.mpr (ht.perm.mem_iff.mpr hp), hge⟩

/-- **What holds if `mem_init` returns.** -/
theorem booting_of_memInit (hrun : memInit h = .ok s) :
    Placed h ∧ i386DetectMemory h ≤ kernWindow ∧ kernelEndPage h < i386DetectMemory h ∧
      SameTable (early h) s ∧ ∃ l, Booting (allocatable h) s l (kernEntries h) ∧
        ∃ p ∈ l, extphysmem ≤ page2pa p := by
  unfold memInit at hrun
  obtain ⟨⟨⟩, hm₁, hr⟩ := bind_eq_ok.mp hrun
  obtain ⟨pa, hpa, hr⟩ := bind_eq_ok.mp hr
  obtain ⟨⟨⟩, hm₂, hr⟩ := bind_eq_ok.mp hr
  obtain ⟨⟨⟩, hm₃, hr⟩ := bind_eq_ok.mp hr
  obtain ⟨s₁, hpages, hr⟩ := bind_eq_ok.mp hr
  obtain ⟨s₂, htables, hfin⟩ := bind_eq_ok.mp hr
  have hp := placed_of_ok hpa hm₁ hm₂ hm₃
  obtain ⟨hw, hk⟩ := of_setUpPages hp hpages
  have hge := hp.kernFrame_ge
  have hlt := hp.kernFrame_lt
  have hU : (allocatable h).Nodup := nodup_usablePages _ _
  have h90 : 90 < (allocatable h).length := length_usablePages (by omega)
  obtain ⟨s₁', l₁, hpages', hstill₁, -, hb₁⟩ := setUpPages_ok hp hw hk
  obtain rfl := Except.ok.inj (hpages.symm.trans hpages')
  obtain ⟨hadds₂, l₂, hb₂⟩ := hb₁.of_setUpTables hU (by omega) htables
  obtain ⟨hsame, l₃, hb₃, hext⟩ := hb₂.of_finish hU (by omega) hfin
  have hst := hstill₁.trans hadds₂.still
  exact ⟨hp, hw, hk, ⟨hsame.npages.trans hst.npages, hsame.kernPgdir.trans hst.kernPgdir,
    hsame.envs.trans hst.envs⟩, l₃, hb₃, hext⟩

/-! ## The first sound state -/

/-- What each frame is used for after boot. -/
def bootRoles (U l : List ℕ) (f : ℕ) : Role :=
  if f ∈ l then .free else if f ∈ U then .kern else .reserved

theorem bootRoles_eq_free {f : ℕ} : bootRoles U l f = .free ↔ f ∈ l := by
  unfold bootRoles
  split_ifs with h1 h2
  · exact iff_of_true rfl h1
  · exact iff_of_false nofun h1
  · exact iff_of_false nofun h1

theorem bootRoles_eq_kern {f : ℕ} : bootRoles U l f = .kern ↔ f ∈ U ∧ f ∉ l := by
  unfold bootRoles
  split_ifs with h1 h2
  · exact iff_of_false nofun fun h0 => h0.2 h1
  · exact iff_of_true rfl ⟨h2, h1⟩
  · exact iff_of_false nofun fun h0 => h2 h0.1

/-- After boot a frame has one of three roles. -/
theorem bootRoles_cases (U l : List ℕ) (f : ℕ) : bootRoles U l f = .free ∨
    bootRoles U l f = .kern ∨ bootRoles U l f = .reserved := by
  unfold bootRoles
  split_ifs
  · exact Or.inl rfl
  · exact Or.inr (Or.inl rfl)
  · exact Or.inr (Or.inr rfl)

section

variable (hb : Booting U s l E)

include hb

theorem Booting.role_reserved_iff {f : ℕ} : bootRoles U l f = .reserved ↔ f ∉ U := by
  unfold bootRoles
  split_ifs with h1 h2
  · exact iff_of_false nofun fun h0 => h0 (hb.sub f h1)
  · exact iff_of_false nofun fun h0 => h0 h2
  · exact iff_of_true rfl h2

theorem Booting.typed : Typed s (fun _ => none) (bootRoles U l) := by
  have hno : ∀ f, bootRoles U l f ≠ .data ∧ (∀ e, bootRoles U l f ≠ .dir e) ∧
      ∀ e i, bootRoles U l f ≠ .table e i := by
    intro f
    rcases bootRoles_cases U l f with h0 | h0 | h0
    · rw [h0]
      exact ⟨nofun, nofun, nofun⟩
    · rw [h0]
      exact ⟨nofun, nofun, nofun⟩
    · rw [h0]
      exact ⟨nofun, nofun, nofun⟩
  refine ⟨hb.window, fun {p} hp => ?_, ⟨⟨l, hb.pool.list, fun p => bootRoles_eq_free.symm⟩,
    fun {p} hp => hb.pool.link p (mt bootRoles_eq_free.mpr hp)⟩, ?_⟩
  · refine hb.lt p ?_
    by_contra h0
    exact hp (hb.role_reserved_iff.mpr h0)
  · exact ⟨nofun, fun {e d} => iff_of_false nofun ((hno d).2.1 e), nofun,
      fun {e i t} ht => absurd ht ((hno t).2.2 e i),
      fun {e i t j} ht => absurd ht ((hno t).2.2 e i)⟩

theorem Booting.ledger :
    Ledger s (fun _ => none) (bootRoles U l) (fun _ => 0) (fun _ => False) := by
  have hcount : ∀ q, refCount s.phys (fun _ => none) q = 0 := by
    intro q
    refine occurrences_eq_zero_iff.mpr fun x _ hx => ?_
    have hnone : entryOf s.phys (fun _ => none) x = none := by simp [entryOf]
    rw [hnone] at hx
    cases hx
  refine ⟨hb.typed, fun {q} hq => ?_, fun {q} hq => ?_⟩
  · rw [hcount]
    rcases bootRoles_cases U l q with h0 | h0 | h0
    · rw [h0, hb.pool.ref q (bootRoles_eq_free.mp h0)]
      rfl
    · obtain ⟨hU, hl⟩ := bootRoles_eq_kern.mp h0
      obtain ⟨i, hi, hp, hf⟩ := hb.dir.cover q hU hl
      obtain ⟨-, -, -, -, href⟩ := hb.dir.of_present hi hp
      rw [hf] at href
      rw [h0, href]
      rfl
    · exact absurd h0 hq
  · rcases bootRoles_cases U l q with h0 | h0 | h0
    · rw [h0] at hq
      cases hq
    · rw [h0] at hq
      cases hq
    · rw [h0] at hq
      cases hq

end

/-- **Boot leaves a sound state**, in which no environment lives. -/
theorem Booting.settled (hb : Booting U s l E) (hfree : ∀ e, (s.envs e).envStatus = .free) :
    Settled s.envInit (bootRoles U l) ∧ Logged s.envInit (bootRoles U l) := by
  obtain ⟨⟨-, k, hthreads, hk⟩, hfree', -, -⟩ := envInit_table hfree
  have heq := envInit_eq s
  generalize s.envInit = t at hthreads hk hfree' heq ⊢
  have hdirs : dirsOf t = fun _ => none := by
    ext1 e
    exact dirsOf_of_not_live (not_not.mpr (hfree' e))
  have hphys : t.phys = s.phys := by rw [heq]
  have hkern : t.kernPgdir = s.kernPgdir := by rw [heq]
  have hledger : Ledger t (dirsOf t) (bootRoles U l) (fun _ => 0) fun _ => False := by
    rw [hdirs]
    exact hb.ledger.congr (by rw [heq]) (by rw [heq]) (by rw [heq]) (by rw [heq])
  refine ⟨⟨hledger, ?_⟩, ?_⟩
  · refine ⟨fun {e} he => absurd (hfree' e) he, ⟨k, hthreads, fun e => ?_⟩, ?_, ?_, ?_, ?_, ?_, ?_, ?_⟩
    · rw [hk e]
      exact ⟨fun h0 => ⟨h0.1, not_not.mpr h0.2⟩, fun h0 => ⟨h0.1, not_not.mp h0.2⟩⟩
    · rw [hkern]
      exact hb.role_reserved_iff.mpr hb.kern
    · intro i hi
      rw [hphys, hkern, hb.dir.low i hi]
      exact not_has_zero _
    · rw [hphys, hkern]
      exact hb.dir.self.frame
    · intro i hlo hhi hne hp
      rw [hphys, hkern] at hp ⊢
      obtain ⟨hlead, hW, hU, hl, -⟩ := hb.dir.of_present ⟨hlo, hhi, hne⟩ hp
      exact ⟨bootRoles_eq_kern.mpr ⟨hU, hl⟩, hlead.user, hW⟩
    · intro t ht
      obtain ⟨hU, hl⟩ := bootRoles_eq_kern.mp ht
      obtain ⟨i, ⟨hlo, hhi, hne⟩, hp, hf⟩ := hb.dir.cover t hU hl
      rw [hphys, hkern]
      exact ⟨i, hlo, hhi, hne, hp, hf⟩
    · intro e d i hd
      rw [hdirs] at hd
      cases hd
    · intro e d i hd
      rw [hdirs] at hd
      cases hd
  · refine ⟨fun {e d i} hd => ?_, fun {e d vpn w} hd => ?_, fun {q} hq => ?_⟩
    · rw [hdirs] at hd
      cases hd
    · rw [hdirs] at hd
      cases hd
    · rcases bootRoles_cases U l q with h0 | h0 | h0
      · rw [h0] at hq
        cases hq
      · rw [h0] at hq
        cases hq
      · rw [h0] at hq
        cases hq

/-- **The state in which runs start.** -/
theorem settled_of_bootUp (hrun : bootUp h = .ok s) :
    ∃ ρ, Settled s ρ ∧ Logged s ρ ∧ ∀ f, ρ f = .reserved ↔ f ∉ allocatable h := by
  unfold bootUp at hrun
  obtain ⟨s₁, hmem, hr⟩ := bind_eq_ok.mp hrun
  obtain rfl := Except.ok.inj hr
  obtain ⟨-, -, -, hsame, l, hb, -⟩ := booting_of_memInit hmem
  have hfree : ∀ e, (s₁.envs e).envStatus = .free := by
    intro e
    rw [hsame.envs]
    rfl
  obtain ⟨hset, hlog⟩ := hb.settled hfree
  exact ⟨_, hset, hlog, fun f => hb.role_reserved_iff⟩

end Kernel
end PmakeOs
