import PmakeOs.Kernel.Local
import PmakeOs.Paging.Operations

/-!
# What kernel code does to address spaces

The address spaces of the system are the directories of the live environments,
`dirsOf s`.  Every function of the kernel that changes them does so through a
short list of effects: a page is taken from the free list for user data or given
back, a mapping is inserted or removed, an empty table is dropped, an
environment is opened or closed.  `Effect Q` is that list, and `Effects Q` its
closure.

The index `Q` says whose translations may be disturbed.  An effect that removes or
replaces a present translation of environment `e`, or drops one of its tables,
is allowed only if `Q e`.

`Layout` is what the effects keep beside the ledger: the slots of the environment
table, the kernel's directory with its tables, and the copy of its upper half in
every environment.
-/

namespace PmakeOs

open Lib

namespace Kernel

variable {s s' : Kernel} {ρ ρ' : ℕ → Role} {e d i t p : ℕ}

/-- The directory of each live environment. -/
def dirsOf (s : Kernel) (e : ℕ) : Option ℕ :=
  if (s.envs e).envStatus = .free then none else (s.envs e).envPgdir

theorem dirsOf_of_live (h : Live s e) : dirsOf s e = (s.envs e).envPgdir := if_neg h

theorem dirsOf_of_not_live (h : ¬ Live s e) : dirsOf s e = none := if_pos (not_not.mp h)

theorem live_of_dirsOf (h : dirsOf s e = some d) : Live s e := by
  intro hf
  rw [dirsOf, if_pos hf] at h
  cases h

theorem pgdir_of_dirsOf (h : dirsOf s e = some d) : (s.envs e).envPgdir = some d := by
  rw [← dirsOf_of_live (live_of_dirsOf h)]
  exact h

/-- The link map of the list of free environments. -/
def envLinks (s : Kernel) (e : ℕ) : Option ℕ := (s.envs e).envLink

/-! ## The layout -/

structure Layout (s : Kernel) (ρ : ℕ → Role) : Prop where
  /-- A live environment has a directory. -/
  live : ∀ {e}, Live s e → e < nenv ∧ ∃ d, (s.envs e).envPgdir = some d
  /-- `env_free_list` threads the free slots. -/
  slots : ∃ l, Threads s.envLinks s.envFreeList l ∧ ∀ e, e ∈ l ↔ e < nenv ∧ ¬ Live s e
  /-- `kern_pgdir` is not a page of the allocator. -/
  kern : ρ s.kernPgdir = .reserved
  low : ∀ {i}, i < pdx utop → ¬ Has (s.phys s.kernPgdir i) pteP
  self : frame (s.phys s.kernPgdir (pdx uvpt)) = s.kernPgdir
  /-- The tables of `kern_pgdir` are the frames of that role. -/
  high : ∀ {i}, pdx utop ≤ i → i < npdentries → i ≠ pdx uvpt →
    Has (s.phys s.kernPgdir i) pteP → ρ (frame (s.phys s.kernPgdir i)) = .kern ∧
      Has (s.phys s.kernPgdir i) pteU ∧ Has (s.phys s.kernPgdir i) pteW
  high_back : ∀ {t}, ρ t = .kern → ∃ i, pdx utop ≤ i ∧ i < npdentries ∧ i ≠ pdx uvpt ∧
    Has (s.phys s.kernPgdir i) pteP ∧ frame (s.phys s.kernPgdir i) = t
  /-- The upper half of a directory is the kernel's, but for the entry through
  which it sees itself. -/
  upper : ∀ {e d i}, dirsOf s e = some d → pdx utop ≤ i → i < npdentries →
    s.phys d i = if i = pdx uvpt then page2pa d ||| pteP ||| pteU else s.phys s.kernPgdir i
  /-- A directory entry for user pages leaves the rights to the table. -/
  wide : ∀ {e d i}, dirsOf s e = some d → i < pdx utop → Has (s.phys d i) pteP →
    Has (s.phys d i) pteU ∧ Has (s.phys d i) pteW

/-- The slots of the environment table are in the same hands. -/
structure SameSlots (s s' : Kernel) : Prop where
  free_iff : ∀ e, (s'.envs e).envStatus = .free ↔ (s.envs e).envStatus = .free
  pgdir : ∀ e, (s'.envs e).envPgdir = (s.envs e).envPgdir
  link : ∀ e, (s'.envs e).envLink = (s.envs e).envLink
  head : s'.envFreeList = s.envFreeList

theorem SameSlots.refl (s : Kernel) : SameSlots s s :=
  ⟨fun _ => Iff.rfl, fun _ => rfl, fun _ => rfl, rfl⟩

theorem SameSlots.dirsOf (h : SameSlots s s') : dirsOf s' = dirsOf s := by
  funext e
  simp only [Kernel.dirsOf, h.free_iff, h.pgdir]

theorem SameSlots.live_iff (h : SameSlots s s') (e : ℕ) : Live s' e ↔ Live s e :=
  not_congr (h.free_iff e)

theorem MemoryOnly.sameSlots (h : MemoryOnly s s') : SameSlots s s' :=
  ⟨fun _ => by rw [h.envs], fun _ => by rw [h.envs], fun _ => by rw [h.envs], h.envFreeList⟩

/-- The layout does not see changes below the tables of the kernel. -/
theorem Layout.congr (h : Layout s ρ) (hs : SameSlots s s') (hk : s'.kernPgdir = s.kernPgdir)
    (hr : ∀ f, ρ f = .reserved → ρ' f = .reserved) (hρk : ∀ f, ρ' f = .kern ↔ ρ f = .kern)
    (hkern : ∀ i, s'.phys s.kernPgdir i = s.phys s.kernPgdir i)
    (hup : ∀ e d i, dirsOf s e = some d → pdx utop ≤ i → s'.phys d i = s.phys d i)
    (hwide : ∀ e d i, dirsOf s e = some d → i < pdx utop → Has (s'.phys d i) pteP →
      Has (s'.phys d i) pteU ∧ Has (s'.phys d i) pteW) : Layout s' ρ' := by
  constructor
  · intro e he
    rw [hs.pgdir]
    exact h.live ((hs.live_iff e).mp he)
  · obtain ⟨l, ht, hl⟩ := h.slots
    refine ⟨l, ?_, fun e => by rw [hs.live_iff]; exact hl e⟩
    rw [hs.head]
    exact ht.frame fun e _ => hs.link e
  · rw [hk]
    exact hr _ h.kern
  · intro i hi
    rw [hk, hkern]
    exact h.low hi
  · rw [hk, hkern]
    exact h.self
  · intro i hlo hhi hne hp
    rw [hk, hkern] at hp ⊢
    obtain ⟨hrole, hU, hW⟩ := h.high hlo hhi hne hp
    exact ⟨(hρk _).mpr hrole, hU, hW⟩
  · intro t ht
    obtain ⟨i, hlo, hhi, hne, hp, hf⟩ := h.high_back ((hρk t).mp ht)
    refine ⟨i, hlo, hhi, hne, ?_⟩
    rw [hk, hkern]
    exact ⟨hp, hf⟩
  · intro e d i hd hlo hhi
    rw [hs.dirsOf] at hd
    rw [hup e d i hd hlo, hk, hkern]
    exact h.upper hd hlo hhi
  · intro e d i hd hi hp
    rw [hs.dirsOf] at hd
    exact hwide e d i hd hi hp

/-! ## Opening and closing an environment -/

/-- `env_alloc` when slot `e` and page `p` are free. -/
def openEnv (s : Kernel) (e p : ℕ) (parentId : Word) : Kernel :=
  let s := (s.takePage p).incRef p
  let s := s.setEnv e { s.envs e with envPgdir := some p }
  let s := s.copyFrame p s.kernPgdir
  let s := (s.setWord p (pdx uvpt) (page2pa p ||| pteP ||| pteU)).note (.directory p)
  let s := s.setEnv e { s.envs e with
    envId := nextEnvId (s.envs e).envId e
    envParentId := parentId
    envStatus := .runnable
    envRuns := 0
    envTf := freshTrapframe
    envPgfaultUpcall := 0
    envIpcRecving := false }
  { s with envFreeList := (s.envs e).envLink }

/-- The end of `env_free`, once the user half of directory `d` is empty. -/
def closeEnv (s : Kernel) (e d : ℕ) : Kernel :=
  let s := (s.setEnv e { s.envs e with envPgdir := none }).dropRef d
  let s := s.setEnv e { s.envs e with envStatus := .free, envLink := s.envFreeList }
  { s with envFreeList := some e }

/-! ## The effects -/

/-- **One change of the address spaces.** -/
inductive Effect (Q : ℕ → Prop) : Kernel × (ℕ → Role) → Kernel × (ℕ → Role) → Prop
  /-- A page is taken for user data. -/
  | take {s : Kernel} {ρ : ℕ → Role} {p : ℕ} (hl : s.pageFreeList = some p)
      (hp : ρ p = .free) :
      Effect Q (s, ρ) ((s.takePage p).note (.userPage p), Function.update ρ p .data)
  /-- A page is given back. -/
  | give {s : Kernel} {ρ : ℕ → Role} {p : ℕ} (hp : ρ p = .data) :
      Effect Q (s, ρ) (s.pushFree p, Function.update ρ p .free)
  /-- `page_insert`. -/
  | insert {s s' : Kernel} {ρ ρ' : ℕ → Role} {e d pp : ℕ} {va perm : Word}
      (hd : dirsOf s e = some d) (hva : va < utop) (hpp : ρ pp = .data)
      (hperm : perm.toNat < 2 ^ 12) (hm : MemoryOnly s s')
      (hi : Inserted s s' (dirsOf s) ρ ρ' e d va pp perm)
      (hQ : entryOf s.phys (dirsOf s) (e, pgnum va) ≠ none → Q e) :
      Effect Q (s, ρ) (s', ρ')
  /-- `page_remove`. -/
  | remove {s s' : Kernel} {ρ ρ' : ℕ → Role} {e d : ℕ} {va : Word}
      (hd : dirsOf s e = some d) (hva : va < utop) (hm : MemoryOnly s s')
      (hr : Removed s s' (dirsOf s) ρ ρ' (fun _ => 0) e (pgnum va))
      (hQ : entryOf s.phys (dirsOf s) (e, pgnum va) ≠ none → Q e) :
      Effect Q (s, ρ) (s', ρ')
  /-- An empty table is dropped. -/
  | dropTable {s : Kernel} {ρ : ℕ → Role} {e d i t : ℕ} (hd : dirsOf s e = some d)
      (ht : ρ t = .table e i) (hi : i < pdx utop) (hQ : Q e) :
      Effect Q (s, ρ) ((s.setWord d i 0#32).dropRef t, Function.update ρ t .free)
  /-- An environment is opened. -/
  | openEnv {s : Kernel} {ρ : ℕ → Role} {e p : ℕ} {parentId : Word}
      (he : s.envFreeList = some e) (hl : s.pageFreeList = some p) (hp : ρ p = .free) :
      Effect Q (s, ρ) (s.openEnv e p parentId, Function.update ρ p (.dir e))
  /-- An environment is closed. -/
  | closeEnv {s : Kernel} {ρ : ℕ → Role} {e d : ℕ} (hd : dirsOf s e = some d)
      (habs : ∀ i < pdx utop, ¬ Has (s.phys d i) pteP) (hQ : Q e) :
      Effect Q (s, ρ) (s.closeEnv e d, Function.update ρ d .free)
  /-- A change that concerns no address space. -/
  | quiet {s s' : Kernel} {ρ : ℕ → Role} (hm : s'.phys = s.phys)
      (hk : s'.kernPgdir = s.kernPgdir) (hs : SameSlots s s')
      (hlog : s'.log.filter Event.isMemory = s.log.filter Event.isMemory) :
      Effect Q (s, ρ) (s', ρ)

/-- **The address spaces are sound**: typed and counted, with nothing due, and laid
out over the kernel's directory.  `pend` holds pages that are allocated and not
yet mapped. -/
structure Sound (s : Kernel) (ρ : ℕ → Role) (pend : ℕ → Prop) : Prop where
  ledger : Ledger s (dirsOf s) ρ (fun _ => 0) pend
  layout : Layout s ρ

/-- A sequence of effects, each from a sound state. -/
def Effects (Q : ℕ → Prop) : Kernel × (ℕ → Role) → Kernel × (ℕ → Role) → Prop :=
  Relation.ReflTransGen fun a b => (∃ pend, Sound a.1 a.2 pend) ∧ Effect Q a b

/-! ## The effects keep the layout -/

variable {Q : ℕ → Prop}

theorem Layout.ne_kernPgdir (h : Layout s ρ) {f : ℕ} (hf : ρ f ≠ .reserved) :
    f ≠ s.kernPgdir := by
  rintro rfl
  exact hf h.kern

theorem Layout.insert (h : Layout s ρ) (ht : Typed s (dirsOf s) ρ) {pp : ℕ} {va perm : Word}
    (hd : dirsOf s e = some d) (hva : va < utop) (hm : MemoryOnly s s')
    (hi : Inserted s s' (dirsOf s) ρ ρ' e d va pp perm) : Layout s' ρ' := by
  have hdir := ht.tree.dir.mp hd
  have hix := (lt_utop_iff va).mp hva
  have hword : ∀ e' d' i', dirsOf s e' = some d' → ¬ (d' = d ∧ i' = pdx va) →
      s'.phys d' i' = s.phys d' i' := by
    intro e' d' i' hd' hne
    have hr := ht.tree.dir.mp hd'
    exact hi.phys d' i' (by rw [hr]; simp) (fun k => by rw [hr]; simp) hne
  refine h.congr hm.sameSlots hm.kernPgdir (fun f hf => ?_) (fun f => ?_) (fun i => ?_)
    (fun e' d' i' hd' hlo => ?_) (fun e' d' i' hd' hlt hp => ?_)
  · rcases hi.role f with hr | ⟨hr, -⟩ | ⟨hr, -⟩
    · rw [hr]
      exact hf
    · rw [hf] at hr
      cases hr
    · rw [hf] at hr
      cases hr
  · rcases hi.role f with hr | ⟨hr, hr'⟩ | ⟨hr, hr', -⟩
    · rw [hr]
    · simp [hr, hr']
    · simp [hr, hr']
  · refine hi.phys _ i (by rw [h.kern]; simp) (fun k => by rw [h.kern]; simp) ?_
    rintro ⟨h0, -⟩
    exact h.ne_kernPgdir (by rw [hdir]; simp) h0.symm
  · refine hword e' d' i' hd' ?_
    rintro ⟨-, rfl⟩
    exact absurd hix (Nat.not_lt.mpr hlo)
  · by_cases hx : d' = d ∧ i' = pdx va
    · obtain ⟨rfl, rfl⟩ := hx
      obtain ⟨t, -, hpde, -⟩ := hi.pde
      rw [hpde, has_or, has_or]
      by_cases hpr : Has (s.phys d' (pdx va)) pteP
      · rw [if_pos hpr]
        obtain ⟨hU, hW⟩ := h.wide hd hlt hpr
        exact ⟨Or.inl hU, Or.inl hW⟩
      · have hU : Has pteU pteU := by decide
        have hW : Has pteW pteW := by decide
        rw [if_neg hpr]
        exact ⟨Or.inl (by simp [hU]), Or.inl (by simp [hW])⟩
    · rw [hword e' d' i' hd' hx] at hp ⊢
      exact h.wide hd' hlt hp

theorem Layout.remove (h : Layout s ρ) (ht : Typed s (dirsOf s) ρ) {vpn : ℕ} {due : ℕ → ℕ}
    (hm : MemoryOnly s s') (hr : Removed s s' (dirsOf s) ρ ρ' due e vpn) : Layout s' ρ' := by
  have hword : ∀ e' d' i', dirsOf s e' = some d' → s'.phys d' i' = s.phys d' i' := by
    intro e' d' i' hd'
    have hdir := ht.tree.dir.mp hd'
    exact hr.phys d' i' (fun k => by rw [hdir]; simp)
  refine h.congr hm.sameSlots hm.kernPgdir (fun f hf => ?_) (fun f => ?_) (fun i => ?_)
    (fun e' d' i' hd' _ => hword e' d' i' hd') (fun e' d' i' hd' hlt hp => ?_)
  · rcases hr.role f with h0 | ⟨h0, -⟩
    · rw [h0]
      exact hf
    · rw [hf] at h0
      cases h0
  · rcases hr.role f with h0 | ⟨h0, h0', -⟩
    · rw [h0]
    · simp [h0, h0']
  · exact hr.phys _ i (fun k => by rw [h.kern]; simp)
  · rw [hword e' d' i' hd'] at hp ⊢
    exact h.wide hd' hlt hp

/-- Frames change hands between roles that the layout does not mention, and words
change in such frames only. -/
theorem Layout.retag (h : Layout s ρ) (ht : Typed s (dirsOf s) ρ) {r : Role}
    (hs : SameSlots s s') (hk : s'.kernPgdir = s.kernPgdir) (hp : ρ p ≠ .reserved)
    (hpk : ρ p ≠ .kern) (hpd : ∀ e, ρ p ≠ .dir e) (hr : r ≠ .kern)
    (hm : ∀ f, f ≠ p → ∀ k, s'.phys f k = s.phys f k) :
    Layout s' (Function.update ρ p r) := by
  have hdp : ∀ e' d', dirsOf s e' = some d' → d' ≠ p := by
    rintro e' d' hd' rfl
    exact hpd e' (ht.tree.dir.mp hd')
  refine h.congr hs hk (fun f hf => ?_) (fun f => ?_) (fun i => ?_)
    (fun e' d' i' hd' _ => hm d' (hdp e' d' hd') i') (fun e' d' i' hd' hlt hpr => ?_)
  · rw [Function.update_of_ne ?_]
    · exact hf
    · rintro rfl
      exact hp hf
  · by_cases hfp : f = p
    · subst hfp
      rw [Function.update_self]
      exact ⟨fun h0 => absurd h0 hr, fun h0 => absurd h0 hpk⟩
    · rw [Function.update_of_ne hfp]
  · exact hm _ (h.ne_kernPgdir hp).symm i
  · rw [hm d' (hdp e' d' hd')] at hpr ⊢
    exact h.wide hd' hlt hpr

theorem Layout.dropTable (h : Layout s ρ) (ht : Typed s (dirsOf s) ρ) (hd : dirsOf s e = some d)
    (htab : ρ t = .table e i) (hi : i < pdx utop) :
    Layout ((s.setWord d i 0#32).dropRef t) (Function.update ρ t .free) := by
  have hdir := ht.tree.dir.mp hd
  have hphys : ∀ f k, ¬ (f = d ∧ k = i) →
      ((s.setWord d i 0#32).dropRef t).phys f k = s.phys f k := by
    intro f k hfk
    rw [phys_dropRef]
    simp [setWord, hfk]
  have hslots : SameSlots s ((s.setWord d i 0#32).dropRef t) := by
    unfold Kernel.dropRef
    split <;> exact ⟨fun _ => Iff.rfl, fun _ => rfl, fun _ => rfl, rfl⟩
  have hk : ((s.setWord d i 0#32).dropRef t).kernPgdir = s.kernPgdir := by
    unfold Kernel.dropRef
    split <;> rfl
  refine h.congr hslots hk (fun f hf => ?_) (fun f => ?_) (fun k => ?_)
    (fun e' d' i' hd' hlo => ?_) (fun e' d' i' hd' hlt hp => ?_)
  · rw [Function.update_of_ne ?_]
    · exact hf
    · rintro rfl
      rw [htab] at hf
      cases hf
  · by_cases hft : f = t
    · subst hft
      simp [htab]
    · rw [Function.update_of_ne hft]
  · refine hphys _ k ?_
    rintro ⟨h0, -⟩
    exact h.ne_kernPgdir (by rw [hdir]; simp) h0.symm
  · refine hphys d' i' ?_
    rintro ⟨-, rfl⟩
    exact absurd hi (Nat.not_lt.mpr hlo)
  · by_cases hx : d' = d ∧ i' = i
    · rw [phys_dropRef] at hp
      simp [setWord, hx] at hp
    · rw [hphys d' i' hx] at hp ⊢
      exact h.wide hd' hlt hp

/-! ## Opening -/

theorem openEnv_envs_of_ne (s : Kernel) {e e' : ℕ} (p : ℕ) (parentId : Word) (h : e' ≠ e) :
    (s.openEnv e p parentId).envs e' = s.envs e' := by
  simp [openEnv, setEnv, Kernel.note, setWord, copyFrame, Kernel.incRef, Kernel.takePage, setPage,
    zeroFrame, h]

theorem openEnv_envs_self (s : Kernel) (e p : ℕ) (parentId : Word) :
    ((s.openEnv e p parentId).envs e).envStatus = .runnable ∧
      ((s.openEnv e p parentId).envs e).envPgdir = some p ∧
      ((s.openEnv e p parentId).envs e).envLink = (s.envs e).envLink := by
  simp [openEnv, setEnv, Kernel.note, setWord, copyFrame, Kernel.incRef, Kernel.takePage, setPage,
    zeroFrame]

theorem openEnv_envFreeList (s : Kernel) (e p : ℕ) (parentId : Word) :
    (s.openEnv e p parentId).envFreeList = s.envLinks e := by
  simp [openEnv, setEnv, Kernel.note, setWord, copyFrame, Kernel.incRef, Kernel.takePage, setPage,
    zeroFrame, envLinks]

/-- The new directory is a copy of the kernel's, and no other frame changes. -/
theorem openEnv_phys (s : Kernel) {p : ℕ} (e : ℕ) (parentId : Word) (hp : p ≠ s.kernPgdir)
    (f k : ℕ) : (s.openEnv e p parentId).phys f k =
      if f = p then
        if k = pdx uvpt then page2pa p ||| pteP ||| pteU else s.phys s.kernPgdir k
      else s.phys f k := by
  by_cases hf : f = p
  · subst hf
    by_cases hk : k = pdx uvpt
    · simp [openEnv, setEnv, Kernel.note, setWord, hk]
    · simp [openEnv, setEnv, Kernel.note, setWord, copyFrame, Kernel.incRef, Kernel.takePage,
        setPage, zeroFrame, hk, hp.symm]
  · simp [openEnv, setEnv, Kernel.note, setWord, copyFrame, Kernel.incRef, Kernel.takePage,
      setPage, zeroFrame, hf]

theorem live_openEnv (s : Kernel) (e p : ℕ) (parentId : Word) (e' : ℕ) :
    Live (s.openEnv e p parentId) e' ↔ e' = e ∨ Live s e' := by
  by_cases h : e' = e
  · subst h
    have hst := (openEnv_envs_self s e' p parentId).1
    simp [Live, hst]
  · simp [Live, openEnv_envs_of_ne s p parentId h, h]

theorem dirsOf_openEnv (s : Kernel) (e p : ℕ) (parentId : Word) :
    dirsOf (s.openEnv e p parentId) = Function.update (dirsOf s) e (some p) := by
  funext e'
  by_cases h : e' = e
  · subst h
    obtain ⟨hst, hpg, -⟩ := openEnv_envs_self s e' p parentId
    rw [Function.update_self, dirsOf, hst, hpg, if_neg (by simp)]
  · rw [Function.update_of_ne h, dirsOf, openEnv_envs_of_ne s p parentId h, dirsOf]

/-- The head of the list of free environments. -/
theorem Layout.not_live_of_head (h : Layout s ρ) (he : s.envFreeList = some e) :
    e < nenv ∧ ¬ Live s e := by
  obtain ⟨l, ht, hl⟩ := h.slots
  rw [he] at ht
  obtain ⟨l', rfl, -⟩ := ht.exists_cons
  exact (hl e).mp List.mem_cons_self

theorem Layout.openEnv (h : Layout s ρ) (ht : Typed s (dirsOf s) ρ) (he : s.envFreeList = some e)
    (hp : ρ p = .free) (parentId : Word) :
    Layout (s.openEnv e p parentId) (Function.update ρ p (.dir e)) := by
  have hdp : ∀ e' d', dirsOf s e' = some d' → d' ≠ p := by
    intro e' d' hd'
    exact ne_of_role ρ (by rw [ht.tree.dir.mp hd', hp]; simp)
  have hpk : p ≠ s.kernPgdir := h.ne_kernPgdir (by rw [hp]; simp)
  have hk : (s.openEnv e p parentId).kernPgdir = s.kernPgdir := rfl
  have hkern : ∀ i, (s.openEnv e p parentId).phys s.kernPgdir i = s.phys s.kernPgdir i := by
    intro i
    rw [openEnv_phys s e parentId hpk, if_neg hpk.symm]
  constructor
  · intro e' he'
    by_cases hee : e' = e
    · subst hee
      exact ⟨(h.not_live_of_head he).1, p, (openEnv_envs_self s e' p parentId).2.1⟩
    · rw [openEnv_envs_of_ne s p parentId hee]
      exact h.live (((live_openEnv s e p parentId e').mp he').resolve_left hee)
  · obtain ⟨l, hthr, hl⟩ := h.slots
    rw [he] at hthr
    have hnodup := hthr.nodup
    obtain ⟨l', rfl, hthr'⟩ := hthr.exists_cons
    refine ⟨l', ?_, fun e' => ?_⟩
    · rw [openEnv_envFreeList]
      refine hthr'.frame fun e' he' => ?_
      have hee : e' ≠ e := by
        rintro rfl
        exact (List.nodup_cons.mp hnodup).1 he'
      rw [envLinks, openEnv_envs_of_ne s p parentId hee, envLinks]
    · rw [live_openEnv, not_or]
      constructor
      · intro hmem
        obtain ⟨hlt, hnl⟩ := (hl e').mp (List.mem_cons_of_mem e hmem)
        refine ⟨hlt, ?_, hnl⟩
        rintro rfl
        exact (List.nodup_cons.mp hnodup).1 hmem
      · rintro ⟨hlt, hne, hnl⟩
        exact (List.mem_cons.mp ((hl e').mpr ⟨hlt, hnl⟩)).resolve_left hne
  · rw [hk, Function.update_of_ne hpk.symm]
    exact h.kern
  · intro i hi
    rw [hk, hkern]
    exact h.low hi
  · rw [hk, hkern]
    exact h.self
  · intro i hlo hhi hne hpr
    rw [hk, hkern] at hpr ⊢
    obtain ⟨hrole, hUW⟩ := h.high hlo hhi hne hpr
    refine ⟨?_, hUW⟩
    rw [Function.update_of_ne ?_]
    · exact hrole
    · intro h0
      rw [h0, hp] at hrole
      cases hrole
  · intro t htk
    have htp : t ≠ p := by
      rintro rfl
      rw [Function.update_self] at htk
      cases htk
    rw [Function.update_of_ne htp] at htk
    obtain ⟨i, hlo, hhi, hne, hpr, hf⟩ := h.high_back htk
    refine ⟨i, hlo, hhi, hne, ?_⟩
    rw [hk, hkern]
    exact ⟨hpr, hf⟩
  · intro e' d' i hd' hlo hhi
    rw [dirsOf_openEnv] at hd'
    rw [hk, hkern, openEnv_phys s e parentId hpk]
    by_cases hee : e' = e
    · subst hee
      rw [Function.update_self] at hd'
      obtain rfl := Option.some.inj hd'
      rw [if_pos rfl]
    · rw [Function.update_of_ne hee] at hd'
      rw [if_neg (hdp e' d' hd')]
      exact h.upper hd' hlo hhi
  · intro e' d' i hd' hi hpr
    rw [dirsOf_openEnv] at hd'
    rw [openEnv_phys s e parentId hpk] at hpr ⊢
    by_cases hee : e' = e
    · subst hee
      rw [Function.update_self] at hd'
      obtain rfl := Option.some.inj hd'
      -- the copy of the kernel's directory has no user table
      rw [if_pos rfl, if_neg (by rw [pdx_utop] at hi; rw [pdx_uvpt]; omega)] at hpr
      exact absurd hpr (h.low hi)
    · rw [Function.update_of_ne hee] at hd'
      rw [if_neg (hdp e' d' hd')] at hpr ⊢
      exact h.wide hd' hi hpr

/-! ## Closing -/

theorem envs_dropRef (s : Kernel) (q : ℕ) : (s.dropRef q).envs = s.envs := by
  unfold Kernel.dropRef
  split <;> rfl

theorem envFreeList_dropRef (s : Kernel) (q : ℕ) : (s.dropRef q).envFreeList = s.envFreeList := by
  unfold Kernel.dropRef
  split <;> rfl

theorem kernPgdir_dropRef (s : Kernel) (q : ℕ) : (s.dropRef q).kernPgdir = s.kernPgdir := by
  unfold Kernel.dropRef
  split <;> rfl

theorem closeEnv_envs_of_ne (s : Kernel) {e e' : ℕ} (d : ℕ) (h : e' ≠ e) :
    (s.closeEnv e d).envs e' = s.envs e' := by
  simp [closeEnv, setEnv, envs_dropRef, h]

theorem closeEnv_envs_self (s : Kernel) (e d : ℕ) :
    ((s.closeEnv e d).envs e).envStatus = .free ∧
      ((s.closeEnv e d).envs e).envLink = s.envFreeList := by
  simp [closeEnv, setEnv, envFreeList_dropRef]

theorem closeEnv_phys (s : Kernel) (e d : ℕ) : (s.closeEnv e d).phys = s.phys := by
  simp [closeEnv, setEnv, phys_dropRef]

theorem closeEnv_kernPgdir (s : Kernel) (e d : ℕ) : (s.closeEnv e d).kernPgdir = s.kernPgdir := by
  simp [closeEnv, setEnv, kernPgdir_dropRef]

theorem live_closeEnv (s : Kernel) (e d e' : ℕ) :
    Live (s.closeEnv e d) e' ↔ e' ≠ e ∧ Live s e' := by
  by_cases h : e' = e
  · subst h
    simp [Live, (closeEnv_envs_self s e' d).1]
  · simp [Live, closeEnv_envs_of_ne s d h, h]

theorem dirsOf_closeEnv (s : Kernel) (e d : ℕ) :
    dirsOf (s.closeEnv e d) = Function.update (dirsOf s) e none := by
  funext e'
  by_cases h : e' = e
  · subst h
    rw [Function.update_self, dirsOf, if_pos (closeEnv_envs_self s e' d).1]
  · rw [Function.update_of_ne h, dirsOf, closeEnv_envs_of_ne s d h, dirsOf]

theorem Layout.closeEnv (h : Layout s ρ) (ht : Typed s (dirsOf s) ρ) (hd : dirsOf s e = some d) :
    Layout (s.closeEnv e d) (Function.update ρ d .free) := by
  have hdir := ht.tree.dir.mp hd
  have hdk : d ≠ s.kernPgdir := h.ne_kernPgdir (by rw [hdir]; simp)
  have hlive := live_of_dirsOf hd
  have hold : ∀ {e' d'}, dirsOf (s.closeEnv e d) e' = some d' → dirsOf s e' = some d' := by
    intro e' d' hd'
    rw [dirsOf_closeEnv] at hd'
    by_cases hee : e' = e
    · subst hee
      rw [Function.update_self] at hd'
      cases hd'
    · rwa [Function.update_of_ne hee] at hd'
  constructor
  · intro e' he'
    obtain ⟨hee, he'⟩ := (live_closeEnv s e d e').mp he'
    rw [closeEnv_envs_of_ne s d hee]
    exact h.live he'
  · obtain ⟨l, hthr, hl⟩ := h.slots
    have hel : e ∉ l := fun hmem => ((hl e).mp hmem).2 hlive
    refine ⟨e :: l, .cons ?_, fun e' => ?_⟩
    · rw [envLinks, (closeEnv_envs_self s e d).2]
      refine hthr.frame fun e' he' => ?_
      have hee : e' ≠ e := by
        rintro rfl
        exact hel he'
      rw [envLinks, closeEnv_envs_of_ne s d hee, envLinks]
    · rw [live_closeEnv, List.mem_cons, hl e']
      by_cases hee : e' = e
      · subst hee
        simp [(h.live hlive).1]
      · simp [hee]
  · rw [closeEnv_kernPgdir, Function.update_of_ne hdk.symm]
    exact h.kern
  · intro i hi
    rw [closeEnv_kernPgdir, closeEnv_phys]
    exact h.low hi
  · rw [closeEnv_kernPgdir, closeEnv_phys]
    exact h.self
  · intro i hlo hhi hne hpr
    rw [closeEnv_kernPgdir, closeEnv_phys] at hpr ⊢
    obtain ⟨hrole, hUW⟩ := h.high hlo hhi hne hpr
    refine ⟨?_, hUW⟩
    rw [Function.update_of_ne ?_]
    · exact hrole
    · intro h0
      rw [h0, hdir] at hrole
      cases hrole
  · intro t htk
    have htd : t ≠ d := by
      rintro rfl
      rw [Function.update_self] at htk
      cases htk
    rw [Function.update_of_ne htd] at htk
    rw [closeEnv_kernPgdir, closeEnv_phys]
    exact h.high_back htk
  · intro e' d' i hd' hlo hhi
    rw [closeEnv_kernPgdir, closeEnv_phys]
    exact h.upper (hold hd') hlo hhi
  · intro e' d' i hd' hi hpr
    rw [closeEnv_phys] at hpr ⊢
    exact h.wide (hold hd') hi hpr

/-- **Every effect keeps the layout.** -/
theorem Effect.layout (h : Effect Q (s, ρ) (s', ρ')) (ht : Typed s (dirsOf s) ρ)
    (hl : Layout s ρ) : Layout s' ρ' := by
  cases h with
  | @take _ _ p _ hp =>
    have hs : SameSlots s ((s.takePage p).note (.userPage p)) :=
      ⟨fun _ => Iff.rfl, fun _ => rfl, fun _ => rfl, rfl⟩
    refine hl.retag ht hs rfl (by rw [hp]; simp) (by rw [hp]; simp)
      (fun e => by rw [hp]; simp) (by simp) fun f hf k => ?_
    simp [Kernel.note, Kernel.takePage, setPage, zeroFrame, hf]
  | @give _ _ p hp =>
    have hs : SameSlots s (s.pushFree p) := ⟨fun _ => Iff.rfl, fun _ => rfl, fun _ => rfl, rfl⟩
    exact hl.retag ht hs rfl (by rw [hp]; simp) (by rw [hp]; simp)
      (fun e => by rw [hp]; simp) (by simp) fun _ _ _ => rfl
  | insert hd hva hpp hperm hm hi hQ => exact hl.insert ht hd hva hm hi
  | remove hd hva hm hr hQ => exact hl.remove ht hm hr
  | dropTable hd htab hi hQ => exact hl.dropTable ht hd htab hi
  | openEnv he hfl hp => exact hl.openEnv ht he hp _
  | closeEnv hd habs hQ => exact hl.closeEnv ht hd
  | quiet hm hk hs hlog =>
    refine hl.congr hs hk (fun _ => id) (fun _ => Iff.rfl) (fun i => by rw [hm])
      (fun _ _ _ _ _ => by rw [hm]) (fun e' d' i' hd' hlt hpr => ?_)
    rw [hm] at hpr ⊢
    exact hl.wide hd' hlt hpr

/-- A sound state stays sound over an effect that leaves a ledger. -/
theorem Sound.step {pend pend' : ℕ → Prop} (h : Sound s ρ pend) (he : Effect Q (s, ρ) (s', ρ'))
    (hl : Ledger s' (dirsOf s') ρ' (fun _ => 0) pend') : Sound s' ρ' pend' :=
  ⟨hl, he.layout h.ledger.typed h.layout⟩

/-- The pages of the allocator stay its pages. -/
theorem Effect.reserved_iff (h : Effect Q (s, ρ) (s', ρ')) (ht : Typed s (dirsOf s) ρ) (f : ℕ) :
    ρ' f = .reserved ↔ ρ f = .reserved := by
  have hupd : ∀ {p : ℕ} {r : Role}, ρ p ≠ .reserved → r ≠ .reserved →
      (Function.update ρ p r f = .reserved ↔ ρ f = .reserved) := by
    intro p r hp hr
    by_cases hfp : f = p
    · subst hfp
      rw [Function.update_self]
      exact ⟨fun h0 => absurd h0 hr, fun h0 => absurd h0 hp⟩
    · rw [Function.update_of_ne hfp]
  cases h with
  | take _ hp => exact hupd (by rw [hp]; simp) (by simp)
  | give hp => exact hupd (by rw [hp]; simp) (by simp)
  | insert hd hva hpp hperm hm hi hQ =>
    rcases hi.role f with hr | ⟨hr, hr'⟩ | ⟨hr, hr', -⟩
    · rw [hr]
    · simp [hr, hr']
    · simp [hr, hr']
  | remove hd hva hm hr hQ =>
    rcases hr.role f with h0 | ⟨h0, h0', -⟩
    · rw [h0]
    · simp [h0, h0']
  | dropTable hd htab hi hQ => exact hupd (by rw [htab]; simp) (by simp)
  | openEnv he hfl hp => exact hupd (by rw [hp]; simp) (by simp)
  | closeEnv hd habs hQ => exact hupd (by rw [ht.tree.dir.mp hd]; simp) (by simp)
  | quiet hm hk hs hlog => rfl

/-! ## Sequences of effects -/

variable {a b c : Kernel × (ℕ → Role)}

theorem Effects.single {pend : ℕ → Prop} (h : Sound s ρ pend) (he : Effect Q (s, ρ) b) :
    Effects Q (s, ρ) b :=
  Relation.ReflTransGen.single ⟨⟨pend, h⟩, he⟩

theorem Effects.trans (h : Effects Q a b) (h' : Effects Q b c) : Effects Q a c :=
  Relation.ReflTransGen.trans h h'

/-- **What every effect keeps, every sequence keeps.** -/
theorem Effects.invariant {I : Kernel × (ℕ → Role) → Prop} (h : Effects Q a b) (ha : I a)
    (hstep : ∀ {s ρ s' ρ' pend}, Sound s ρ pend → Effect Q (s, ρ) (s', ρ') → I (s, ρ) → I (s', ρ')) :
    I b := by
  induction h with
  | refl => exact ha
  | tail _ hbc ih =>
    obtain ⟨⟨pend, hs⟩, he⟩ := hbc
    exact hstep hs he ih

theorem Effects.reserved_iff (h : Effects Q (s, ρ) (s', ρ')) (f : ℕ) :
    ρ' f = .reserved ↔ ρ f = .reserved := by
  refine h.invariant (I := fun a => a.2 f = .reserved ↔ ρ f = .reserved) Iff.rfl ?_
  intro s₁ ρ₁ s₂ ρ₂ pend hs he hI
  exact (he.reserved_iff hs.ledger.typed f).trans hI

end Kernel
end PmakeOs
