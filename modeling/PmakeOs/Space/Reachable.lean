import PmakeOs.Boot.Accepts
import PmakeOs.Space.References
import PmakeOs.Calls.Authority

/-!
# The states that the kernel reaches

A run starts in the state that boot leaves on some machine and consists of `env_alloc`,
`env_free` and the calls that change address spaces, in any order and by any environments.
`Modest` is what the results about runs ask of an operation: that `perm` has only bits of
`PTE_SYSCALL`, and that no page has more references than its counter can hold.

Every state of such a run is sound, with the pages of the allocator as they were after boot
(`kept_of_run`).  That the counters and the free list are right follows at once.
-/

namespace PmakeOs

open Lib

namespace Kernel

variable {s s' s₀ : Kernel} {ρ : ℕ → Role} {h : Hardware} {e p : ℕ}

/-- No page has 65536 references or more. -/
def Uncrowded (s : Kernel) : Prop := ∀ p, references s p < 2 ^ 16

/-- The operation has no stray bit in `perm`, and no counter has wrapped before it. -/
def Modest (s : Kernel) (op : MemOp) : Prop := op.perm &&& ~~~ pteSyscall = 0#32 ∧ Uncrowded s

theorem Uncrowded.bounded (hs : Uncrowded s) : Bounded s := by
  intro q
  have hq := hs q
  rw [references] at hq
  omega

/-- Nothing changes but the contents of mapped pages and what is not about address spaces. -/
structure Aloof (s s' : Kernel) : Prop where
  npages : s'.npages = s.npages
  pages : s'.pages = s.pages
  pageFreeList : s'.pageFreeList = s.pageFreeList
  kernPgdir : s'.kernPgdir = s.kernPgdir
  slots : SameSlots s s'
  words : ∀ f, (∀ x, (entryOf s.phys (dirsOf s) x).map frame ≠ some f) → s'.phys f = s.phys f

/-- **The states that the kernel reaches on machine `h`.** -/
inductive Reached (h : Hardware) : Kernel → Prop
  | boot {s : Kernel} (hboot : bootUp h = .ok s) : Reached h s
  | op {s s' : Kernel} {op : MemOp} (hr : Reached h s) (hop : Issuable s op) (hm : Modest s op)
      (hrun : s.exec op = .ok s') : Reached h s'
  | other {s s' : Kernel} (hr : Reached h s) (ha : Aloof s s') : Reached h s'

theorem Sound.aloof (hset : Settled s ρ) (ha : Aloof s s') : Settled s' ρ := by
  -- a frame that is not a data frame is mapped nowhere
  have hword : ∀ f, ρ f ≠ .data → s'.phys f = s.phys f := by
    intro f hf
    refine ha.words f fun x hx => hf ?_
    obtain ⟨w, hw, rfl⟩ := Option.map_eq_some_iff.mp hx
    exact hset.ledger.typed.tree.role_of_entryOf hw
  have hnode : ∀ f, (ρ f).IsNode → ∀ k, s'.phys f k = s.phys f k := by
    intro f hf k
    rw [hword f]
    intro h0
    rw [h0] at hf
    exact hf
  have hdir : ∀ e d i, dirsOf s e = some d → s'.phys d i = s.phys d i := by
    intro e d i hd
    refine hnode d ?_ i
    rw [hset.ledger.typed.tree.dir.mp hd]
    exact Role.isNode_dir e
  have hledger := hset.ledger.writeFrames ha.npages ha.pages ha.pageFreeList hnode
  rw [← ha.slots.dirsOf] at hledger
  refine ⟨hledger, hset.layout.congr ha.slots ha.kernPgdir (fun _ h0 => h0) (fun _ => Iff.rfl)
    (fun i => ?_) (fun e d i hd _ => hdir e d i hd) fun e d i hd hi hp => ?_⟩
  · rw [hword]
    rw [hset.layout.kern]
    exact nofun
  · rw [hdir e d i hd] at hp ⊢
    exact hset.layout.wide hd hi hp

/-- **The states that are reached are sound.** -/
theorem Reached.settled (hr : Reached h s) :
    ∃ ρ, Settled s ρ ∧ ∀ f, ρ f = .reserved ↔ f ∉ allocatable h := by
  induction hr with
  | boot hboot =>
    obtain ⟨ρ, hset, -, hres⟩ := settled_of_bootUp hboot
    exact ⟨ρ, hset, hres⟩
  | op _ hop hm hrun ih =>
    obtain ⟨ρ, hset, hres⟩ := ih
    have hexec := hset.exec (Q := fun _ => True) hop (toNat_lt_of_syscall hm.1)
      (fun e va _ => hm.2.bounded.droppable e va) (fun _ _ _ _ => trivial) (fun _ _ => trivial)
    rcases hexec with herr | ⟨s', ρ', hrun', hset', heff⟩
    · rw [herr] at hrun
      cases hrun
    · obtain rfl := Except.ok.inj (hrun'.symm.trans hrun)
      exact ⟨ρ', hset', fun f => (heff.reserved_iff f).trans (hres f)⟩
  | other _ ha ih =>
    obtain ⟨ρ, hset, hres⟩ := ih
    exact ⟨ρ, hset.aloof ha, hres⟩

/-! ## The counters and the free list -/

/-- After boot nothing is mapped. -/
theorem uncrowded_of_no_entry (hset : Settled s ρ)
    (hno : ∀ x, entryOf s.phys (dirsOf s) x = none) : Uncrowded s := by
  intro p
  have hzero : refCount s.phys (dirsOf s) p = 0 := by
    refine occurrences_eq_zero_iff.mpr fun x _ hx => ?_
    rw [hno x] at hx
    cases hx
  have hown : (ρ p).own ≤ 1 := by
    cases ρ p <;> simp [Role.own]
  rw [hset.references_eq, hzero]
  omega

theorem no_entry_of_bootUp (hboot : bootUp h = .ok s) (x : ℕ × ℕ) :
    entryOf s.phys (dirsOf s) x = none := by
  have hnone : dirsOf s x.1 = none := by
    unfold bootUp at hboot
    obtain ⟨s₁, hmem, hr⟩ := bind_eq_ok.mp hboot
    obtain rfl := Except.ok.inj hr
    obtain ⟨-, -, -, hsame, -⟩ := booting_of_memInit hmem
    have hfree : ∀ e, (s₁.envs e).envStatus = .free := by
      intro e
      rw [hsame.envs]
      rfl
    obtain ⟨-, hfree', -⟩ := envInit_table hfree
    exact dirsOf_of_not_live (not_not.mpr (hfree' x.1))
  simp [entryOf, hnone]

/-- A new environment maps nothing. -/
theorem entryOf_openEnv (hset : Settled s ρ) (he : s.envFreeList = some e)
    (hl : s.pageFreeList = some p) (parentId : Word) :
    entryOf (s.openEnv e p parentId).phys (dirsOf (s.openEnv e p parentId)) =
      entryOf s.phys (dirsOf s) := by
  have hfree := hset.ledger.typed.free.role_of_head hl
  have hpk : p ≠ s.kernPgdir := hset.layout.ne_kernPgdir (by rw [hfree]; simp)
  have hphys := openEnv_phys s e parentId hpk
  obtain ⟨-, hnl⟩ := hset.layout.not_live_of_head he
  have hsame : entryOf (s.openEnv e p parentId).phys (dirsOf s) = entryOf s.phys (dirsOf s) := by
    refine hset.ledger.typed.tree.entryOf_retag fun f hf k => ?_
    rw [hphys f k, if_neg ?_]
    rintro rfl
    rw [hfree] at hf
    exact hf
  rw [dirsOf_openEnv, ← hsame]
  refine entryOf_update_of_absent (fun d hd => ?_) fun d hd i hi => ?_
  · rw [dirsOf_of_not_live hnl] at hd
    cases hd
  · obtain rfl := Option.some.inj hd
    rw [hphys, if_pos rfl]
    split_ifs with huv
    · rw [huv] at hi
      exact absurd hi (by decide)
    · exact hset.layout.low hi

/-- After boot there is a free slot and a free page. -/
theorem free_of_bootUp (hboot : bootUp h = .ok s) :
    ∃ e p, s.envFreeList = some e ∧ s.pageFreeList = some p := by
  unfold bootUp at hboot
  obtain ⟨s₁, hmem, hr⟩ := bind_eq_ok.mp hboot
  obtain rfl := Except.ok.inj hr
  obtain ⟨-, -, -, hsame, l, hb, p, hp, -⟩ := booting_of_memInit hmem
  have hfree : ∀ e, (s₁.envs e).envStatus = .free := by
    intro e
    rw [hsame.envs]
    rfl
  obtain ⟨⟨-, k, hk, hkmem⟩, hfree', -⟩ := envInit_table hfree
  have hpl : s₁.envInit.pageFreeList = s₁.pageFreeList := by
    rw [envInit_eq]
  generalize s₁.envInit = t at hk hkmem hfree' hpl ⊢
  have h0 : 0 ∈ k := (hkmem 0).mpr ⟨by decide, hfree' 0⟩
  have hhead := hk.head_eq
  rw [hpl, hb.pool.list.head_eq]
  cases k with
  | nil => cases h0
  | cons e k =>
    cases l with
    | nil => cases hp
    | cons q l => exact ⟨e, q, hhead, rfl⟩

/-- The first environment. -/
theorem firstEnv_run (hboot : bootUp h = .ok s₀) :
    ∃ s e, s₀.exec (.envAlloc 0#32) = .ok s ∧ Modest s₀ (.envAlloc 0#32) ∧ Run Modest s₀ s ∧
      Uncrowded s ∧ Live s e := by
  obtain ⟨ρ, hset, -, -⟩ := settled_of_bootUp hboot
  have hno := no_entry_of_bootUp hboot
  have hmodest : Modest s₀ (.envAlloc 0#32) := ⟨by decide, uncrowded_of_no_entry hset hno⟩
  obtain ⟨e, p, he, hl⟩ := free_of_bootUp hboot
  obtain ⟨hset', -⟩ := hset.openEnv (Q := fun _ => True) he hl 0#32
  have hexec : s₀.exec (.envAlloc 0#32) = .ok (s₀.openEnv e p 0#32) := by
    rw [exec, hset.envAlloc_of_free he hl]
    rfl
  refine ⟨_, e, hexec, hmodest, .single ⟨.envAlloc 0#32, trivial, hmodest, hexec⟩,
    uncrowded_of_no_entry hset' fun x => ?_, (live_openEnv s₀ e p 0#32 e).mpr (Or.inl rfl)⟩
  rw [entryOf_openEnv hset he hl]
  exact hno x

end Kernel
end PmakeOs
