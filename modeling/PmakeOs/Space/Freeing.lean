import PmakeOs.Space.Reachable

/-!
# What `env_free` gives back

`referencesOf s e p` is the share of environment `e` in the references to page `p`: its table
entries, its directory entries and its directory.  After `env_free` the references are those of
the others, so every counter is lower by that share, and the pages that were referred to by `e`
alone are on the free list.
-/

namespace PmakeOs

open Lib

namespace Kernel

variable {s s' s₀ : Kernel} {ρ : ℕ → Role} {h : Hardware} {d e p : ℕ}

/-- The number of references of environment `e` to page `p`. -/
def referencesOf (s : Kernel) (e p : ℕ) : ℕ :=
  occurrences (userPages.filter fun x => x.1 = e)
      (fun x => (entryOf s.phys (dirsOf s) x).map frame) p +
    occurrences (userPdes.filter fun x => x.1 = e) s.tableOf p +
    if dirsOf s e = some p then 1 else 0

/-! ## The address spaces afterwards -/

theorem dirsOf_of_envFree (hrun : s.envFree e = .ok s') :
    dirsOf s' = Function.update (dirsOf s) e none := by
  have hslots := (freed_of_envFree hrun).slots
  ext1 e'
  have hslot := congrFun hslots e'
  have hst : (s'.envs e').envStatus = (s'.slots e').envStatus := rfl
  have hpg : (s'.envs e').envPgdir = (s'.slots e').envPgdir := rfl
  unfold dirsOf
  rw [hst, hpg, hslot]
  rcases eq_or_ne e' e with rfl | hne
  · rw [Function.update_self, Function.update_self]
    rfl
  · rw [Function.update_of_ne hne, Function.update_of_ne hne]
    rfl

/-- `env_free` writes one slot, and leaves `kern_pgdir` where it is. -/
theorem rest_of_envFree (hrun : s.envFree e = .ok s') :
    s'.kernPgdir = s.kernPgdir ∧ ∀ e' ≠ e, s'.envs e' = s.envs e' := by
  unfold envFree at hrun
  obtain ⟨s₁, hs₁, hk₁, he₁⟩ : ∃ s₁ : Kernel, s₁ =
      (if (s.note (.envFree s.cpunum e)).curenv = some e
        then (s.note (.envFree s.cpunum e)).lcr3 (s.note (.envFree s.cpunum e)).kernPgdir
        else s.note (.envFree s.cpunum e)) ∧ s₁.kernPgdir = s.kernPgdir ∧ s₁.envs = s.envs := by
    refine ⟨_, rfl, ?_⟩
    split <;> exact ⟨rfl, rfl⟩
  simp only [← hs₁] at hrun
  obtain ⟨d, -, hr⟩ := bind_eq_ok.mp hrun
  obtain ⟨s₂, hloop, hr⟩ := bind_eq_ok.mp hr
  have h₂ : MemoryOnly s₁ s₂ := foldlM_invariant (P := MemoryOnly s₁)
    (fun b k b' hb hk => hb.trans (memoryOnly_of_envFreePde hk)) _ (.refl s₁) hloop
  obtain ⟨pp, -, hr⟩ := bind_eq_ok.mp hr
  obtain ⟨s₃, hdec, hr⟩ := bind_eq_ok.mp hr
  obtain rfl := Except.ok.inj hr
  have h₃ := memoryOnly_of_pageDecref hdec
  have hk₃ : s₃.kernPgdir = s₂.kernPgdir := h₃.kernPgdir
  constructor
  · show s₃.kernPgdir = s.kernPgdir
    rw [hk₃, h₂.kernPgdir, hk₁]
  · intro e' hne
    show Function.update s₃.envs e _ e' = s.envs e'
    rw [Function.update_of_ne hne, h₃.envs]
    show Function.update s₂.envs e _ e' = s.envs e'
    rw [Function.update_of_ne hne, h₂.envs, he₁]

section

variable (hset : Settled s ρ) (hd : dirsOf s e = some d) (hrun : s.envFree e = .ok s')

include hset hd hrun

/-- The directory of another environment is not written, and neither are its tables. -/
theorem Sound.words_of_envFree {e' d' f : ℕ} (he : e' ≠ e)
    (hf : f = d' ∨ ∃ i < pdx utop, Has (s.phys d' i) pteP ∧ f = frame (s.phys d' i))
    (hd' : dirsOf s e' = some d') (k : ℕ) : s'.phys f k = s.phys f k := by
  have ht := hset.ledger.typed
  have hdir := ht.tree.dir.mp hd
  have hdir' := ht.tree.dir.mp hd'
  rcases hf with rfl | ⟨i, hi, hp, rfl⟩
  · refine Kernel.words_of_envFree ht hd hrun f k ?_ fun i h0 => ?_
    · rintro rfl
      exact he (Role.dir.inj (hdir'.symm.trans hdir))
    · rw [hdir'] at h0
      cases h0
  · have htab := ht.tree.table hd' hi hp
    refine Kernel.words_of_envFree ht hd hrun _ k ?_ fun j h0 => ?_
    · intro h0
      rw [h0, hdir] at htab
      cases htab
    · rw [htab] at h0
      exact he (Role.table.inj h0).1

theorem Sound.entryOf_of_envFree (x : ℕ × ℕ) : entryOf s'.phys (dirsOf s') x =
    if x.1 = e then none else entryOf s.phys (dirsOf s) x := by
  obtain ⟨e', vpn⟩ := x
  have hdirs := dirsOf_of_envFree hrun
  dsimp only
  split
  · rename_i heq
    subst heq
    simp [entryOf, hdirs]
  · rename_i hne
    unfold entryOf
    dsimp only
    rw [hdirs, Function.update_of_ne hne]
    split
    · rename_i hlt
      cases hd' : dirsOf s e' with
      | none => rfl
      | some d' =>
        show userPte s'.phys d' vpn = userPte s.phys d' vpn
        have hpde := hset.words_of_envFree hd hrun hne (Or.inl rfl) hd' (vpn / nptentries)
        unfold userPte
        dsimp only
        rw [hpde]
        by_cases hp : Has (s.phys d' (vpn / nptentries)) pteP
        · have hpte := hset.words_of_envFree hd hrun hne
            (Or.inr ⟨_, index_lt hlt, hp, rfl⟩) hd' (vpn % nptentries)
          rw [hpte]
        · simp only [hp, false_and, if_false]
    · rfl

theorem Sound.tableOf_of_envFree (x : ℕ × ℕ) : s'.tableOf x =
    if x.1 = e then none else s.tableOf x := by
  obtain ⟨e', i⟩ := x
  have hdirs := dirsOf_of_envFree hrun
  dsimp only
  split
  · rename_i heq
    subst heq
    simp [tableOf, hdirs]
  · rename_i hne
    unfold tableOf
    dsimp only
    rw [hdirs, Function.update_of_ne hne]
    cases hd' : dirsOf s e' with
    | none => rfl
    | some d' =>
      have hpde := hset.words_of_envFree hd hrun hne (Or.inl rfl) hd' i
      show (if Has (s'.phys d' i) pteP then some (frame (s'.phys d' i)) else none) = _
      rw [hpde]
      rfl

theorem Sound.isEnvPgdir_of_envFree (p : ℕ) :
    (if IsEnvPgdir s p then 1 else 0) =
      (if IsEnvPgdir s' p then 1 else 0) + if dirsOf s e = some p then 1 else 0 := by
  have ht := hset.ledger.typed
  have hdirs := dirsOf_of_envFree hrun
  have hlt := ht.tree.owner_lt hd
  by_cases hp : dirsOf s e = some p
  · have hold : IsEnvPgdir s p := ⟨e, hlt, hp⟩
    have hnew : ¬ IsEnvPgdir s' p := by
      rintro ⟨e', -, he'⟩
      rw [hdirs] at he'
      rcases eq_or_ne e' e with rfl | hne
      · rw [Function.update_self] at he'
        cases he'
      · rw [Function.update_of_ne hne] at he'
        exact hne (Role.dir.inj ((ht.tree.dir.mp he').symm.trans (ht.tree.dir.mp hp)))
    rw [if_pos hold, if_neg hnew, if_pos hp]
  · have hiff : IsEnvPgdir s' p ↔ IsEnvPgdir s p := by
      constructor
      · rintro ⟨e', hlt', he'⟩
        rw [hdirs] at he'
        rcases eq_or_ne e' e with rfl | hne
        · rw [Function.update_self] at he'
          cases he'
        · rw [Function.update_of_ne hne] at he'
          exact ⟨e', hlt', he'⟩
      · rintro ⟨e', hlt', he'⟩
        refine ⟨e', hlt', ?_⟩
        rw [hdirs, Function.update_of_ne]
        · exact he'
        · rintro rfl
          exact hp he'
    simp only [hiff, if_neg hp, Nat.add_zero]

theorem Sound.isKernTable_of_envFree (p : ℕ) : IsKernTable s' p ↔ IsKernTable s p := by
  have hk := (rest_of_envFree hrun).1
  have hword : ∀ i, s'.phys s.kernPgdir i = s.phys s.kernPgdir i := by
    intro i
    have hkern := hset.layout.kern
    refine Kernel.words_of_envFree hset.ledger.typed hd hrun _ i ?_ fun j h0 => ?_
    · rintro rfl
      rw [hset.ledger.typed.tree.dir.mp hd] at hkern
      cases hkern
    · rw [hkern] at h0
      cases h0
  unfold IsKernTable
  simp only [hk, hword]

/-- **The references of the others remain.** -/
theorem Sound.references_of_envFree (p : ℕ) :
    references s p = references s' p + referencesOf s e p := by
  have hentry := hset.entryOf_of_envFree hd hrun
  have htable := hset.tableOf_of_envFree hd hrun
  have hpte : refCount s.phys (dirsOf s) p = refCount s'.phys (dirsOf s') p +
      occurrences (userPages.filter fun x => x.1 = e)
        (fun x => (entryOf s.phys (dirsOf s) x).map frame) p := by
    refine occurrences_of_cut (fun x _ hx => ?_) fun x _ hx => ?_
    · rw [hentry, if_pos hx]
      rfl
    · rw [hentry, if_neg hx]
  have hpde : tableRefs s p = tableRefs s' p +
      occurrences (userPdes.filter fun x => x.1 = e) s.tableOf p := by
    refine occurrences_of_cut (fun x _ hx => ?_) fun x _ hx => ?_
    · rw [htable, if_pos hx]
    · rw [htable, if_neg hx]
  have hdir := hset.isEnvPgdir_of_envFree hd hrun p
  have hkern := hset.isKernTable_of_envFree hd hrun p
  rw [references, references, referencesOf, hpte, hpde, hdir]
  simp only [hkern]
  omega

end

/-! ## `env_free` in the states that are reached -/

/-- **What `env_free` has done.** -/
structure GivenBack (s s' : Kernel) (e : ℕ) : Prop where
  /-- Every counter is lower by the references of `e`. -/
  counts : ∀ p, (s'.pages p).ppRef.toNat + referencesOf s e p = (s.pages p).ppRef.toNat
  /-- The pages whose counter has reached zero are on the free list, once each. -/
  list : ∃ l l', Threads s.links s.pageFreeList l ∧ Threads s'.links s'.pageFreeList l' ∧
    l'.Nodup ∧ ∀ p, p ∈ l' ↔ p ∈ l ∨ 0 < referencesOf s e p ∧ (s'.pages p).ppRef = 0#16
  others : ∀ e' ≠ e, Untouched s s' e'
  slot : (s'.envs e).envStatus = .free ∧ (s'.envs e).envPgdir = none ∧
    (s'.envs e).envLink = s.envFreeList
  head : s'.envFreeList = some e

/-- The pages that are not the allocator's have no references. -/
theorem Sound.references_of_reserved (hset : Settled s ρ) (hp : ρ p = .reserved) :
    references s p = 0 := by
  rw [hset.references_eq, hp, hset.ledger.typed.tree.refCount_eq_zero (by rw [hp]; simp)]
  rfl

theorem Sound.givenBack (hset : Settled s ρ) (hs : Uncrowded s) (hlive : Live s e) :
    ∃ s', s.envFree e = .ok s' ∧ GivenBack s s' e := by
  obtain ⟨d, -, hd⟩ := hset.layout.dirsOf_eq hlive
  obtain ⟨s', ρ', hrun, hset', hpages, heff⟩ := hset.envFree (Q := fun _ => True) hlive
    (fun _ w _ => (hs.bounded (frame w)).le) trivial
  have hrefs := hset.references_of_envFree hd hrun
  have hs' : Uncrowded s' := by
    intro p
    have h1 := hs p
    have h2 := hrefs p
    omega
  have hfreed := freed_of_envFree hrun
  -- the counters of the allocator's pages are right, before and after
  have hcount : ∀ p, (s'.pages p).ppRef.toNat + referencesOf s e p = (s.pages p).ppRef.toNat := by
    intro p
    have hp := hrefs p
    by_cases hres : ρ p = .reserved
    · have hzero := hset.references_of_reserved hres
      rw [hpages p hres]
      omega
    · have hres' : ρ' p ≠ .reserved := mt (heff.reserved_iff p).mp hres
      rw [hset.ppRef_eq_references hres (hs p), hset'.ppRef_eq_references hres' (hs' p)]
      omega
  obtain ⟨l, hl, -, hmem⟩ := hset.freeList
  obtain ⟨l', hl', hnd', hmem'⟩ := hset'.freeList
  refine ⟨s', hrun, hcount, ⟨l, l', hl, hl', hnd', fun p => ?_⟩, fun e' hne => ?_, ?_,
    hfreed.envFreeList⟩
  · have hp := hrefs p
    have hiff : ρ' p ≠ .reserved ↔ ρ p ≠ .reserved := not_congr (heff.reserved_iff p)
    rw [hmem, hmem', hiff]
    constructor
    · rintro ⟨hres, hzero'⟩
      by_cases hzero : references s p = 0
      · exact Or.inl ⟨hres, hzero⟩
      · refine Or.inr ⟨by omega, BitVec.eq_of_toNat_eq ?_⟩
        rw [hset'.ppRef_eq_references (hiff.mpr hres) (hs' p), hzero']
        rfl
    · rintro (⟨hres, hzero⟩ | ⟨hpos, href⟩)
      · exact ⟨hres, by omega⟩
      · have hres : ρ p ≠ .reserved := by
          intro h0
          have hzero := hset.references_of_reserved h0
          omega
        refine ⟨hres, ?_⟩
        rw [← hset'.ppRef_eq_references (hiff.mpr hres) (hs' p), href]
        rfl
  · exact (confined_of_envFree hset.ledger.typed hd hrun).untouched hset.ledger.typed hne
      ((rest_of_envFree hrun).2 e' hne)
  · have hslot := congrFun hfreed.slots e
    rw [Function.update_self] at hslot
    exact ⟨congrArg Slot.envStatus hslot, congrArg Slot.envPgdir hslot,
      congrArg Slot.envLink hslot⟩

/-- **`env_free` gives back what the environment had**, in every state that is reached. -/
theorem envFree_givesBack (hr : Reached h s) (hs : Uncrowded s) (hlive : Live s e) :
    ∃ s', s.envFree e = .ok s' ∧ GivenBack s s' e := by
  obtain ⟨ρ, hset, -⟩ := hr.settled
  exact hset.givenBack hs hlive

/-- The first environment is freed. -/
theorem envFree_givesBack_firstEnv : ∃ s₀ s e, bootUp machine64 = .ok s₀ ∧
    s₀.exec (.envAlloc 0#32) = .ok s ∧ Reached machine64 s ∧ Live s e ∧
    ∃ s', s.envFree e = .ok s' ∧ GivenBack s s' e := by
  obtain ⟨s₀, hboot⟩ := machine64_boots
  obtain ⟨s, e, hexec, hmodest, -, hs, hlive⟩ := firstEnv_run hboot
  have hop : Issuable s₀ (.envAlloc 0#32) := trivial
  have hr : Reached machine64 s := .op (.boot hboot) hop hmodest hexec
  exact ⟨s₀, s, e, hboot, hexec, hr, hlive, envFree_givesBack hr hs hlive⟩

end Kernel
end PmakeOs
