import PmakeOs.Calls.Ipc
import PmakeOs.Space.Footprint
import PmakeOs.Space.Runs

/-!
# What a system call may touch

`envid2env` with a permission check grants the caller and its immediate children.  The
seven handlers that reach other environments do so through it, and through shared pages
of memory.  The frame: an environment that is neither the caller nor one of its children
keeps its slot, word for word, and all its mappings.  `sys_ipc_try_send` asks for no
permission; what it may do to a receiver is `Messaged`.

The hypothesis on memory is a typing: every frame has one role, so that directories and
tables are private and no page on the free list is one.  The reference counts do not
matter here.
-/

namespace PmakeOs

open Lib

namespace Kernel

variable {s s' s₁ : Kernel} {ρ : ℕ → Role} {c e d i : ℕ} {va perm : Word} {fl : Flow}

/-- The address spaces are well formed and pairwise disjoint. -/
structure Spaces (s : Kernel) (ρ : ℕ → Role) : Prop where
  typed : Typed s (dirsOf s) ρ
  wide : Wide s

/-- Environment `e` is neither `c` nor an immediate child of it. -/
def Stranger (s : Kernel) (c e : ℕ) : Prop :=
  e ≠ c ∧ ¬ (Live s e ∧ (s.envs e).envParentId = (s.envs c).envId)

theorem Stranger.not_within (h : Stranger s c e) : ¬ Write.Within (some c) s.envs e := by
  rintro (h0 | ⟨c', hc', hlive, hpar⟩)
  · exact h.1 (Option.some.inj h0).symm
  · obtain rfl := Option.some.inj hc'
    exact h.2 ⟨hlive, hpar⟩

/-- The slot of `e` and its mappings are as before. -/
structure Untouched (s s₁ : Kernel) (e : ℕ) : Prop where
  env : s₁.envs e = s.envs e
  mapping : ∀ d, dirsOf s e = some d → ∀ vpn < upn,
    mappingOf s₁.phys d vpn = mappingOf s.phys d vpn

/-- What a message does to a receiver `e`: the fields of the message, the status, `eax`,
and the mapping at `env_ipc_dstva`. -/
structure Messaged (s s₁ : Kernel) (e : ℕ) : Prop where
  recving : (s.envs e).envIpcRecving = true
  env : ∃ sender value perm, s₁.envs e = { s.envs e with
    envIpcRecving := false
    envIpcFrom := sender
    envIpcValue := value
    envIpcPerm := perm
    envStatus := .runnable
    envTf := (s.envs e).envTf.withEax 0#32 }
  mapping : ∀ d, dirsOf s e = some d → ∀ vpn < upn,
    ¬ ((s.envs e).envIpcDstva < utop ∧ vpn = pgnum (s.envs e).envIpcDstva) →
      mappingOf s₁.phys d vpn = mappingOf s.phys d vpn

theorem Untouched.refl (s : Kernel) (e : ℕ) : Untouched s s e := ⟨rfl, fun _ _ _ _ => rfl⟩

theorem untouched_of_phys (henv : s₁.envs e = s.envs e) (hp : s₁.phys = s.phys) :
    Untouched s s₁ e :=
  ⟨henv, fun d _ vpn _ => by rw [hp]⟩

/-! ## Writes to one address space -/

/-- Words were written in the directory and the tables of environment `e`, and in pages
that are neither. -/
def Confined (ρ : ℕ → Role) (e : ℕ) (s s' : Kernel) : Prop :=
  ∀ e' ≠ e, ∀ f k, ρ f = .dir e' ∨ (∃ i, ρ f = .table e' i) → s'.phys f k = s.phys f k

theorem Confined.of_phys (h : s'.phys = s.phys) : Confined ρ e s s' := by
  intro e' _ f k _
  rw [h]

theorem Confined.trans {s'' : Kernel} (h : Confined ρ e s s') (h' : Confined ρ e s' s'') :
    Confined ρ e s s'' := by
  intro e' he f k hf
  rw [h' e' he f k hf, h e' he f k hf]

theorem Confined.untouched {e' : ℕ} (h : Confined ρ e s s') (ht : Typed s (dirsOf s) ρ)
    (he : e' ≠ e) (henv : s'.envs e' = s.envs e') : Untouched s s' e' := by
  refine ⟨henv, fun d hd vpn hlt => ?_⟩
  exact mappingOf_of_nodes ht.tree hd (h e' he) hlt

theorem Stored.confined (h : Stored s s' d va perm) (ht : Typed s (dirsOf s) ρ)
    (hd : dirsOf s e = some d) (hva : va < utop) : Confined ρ e s s' := by
  have hdir := ht.tree.dir.mp hd
  have hix := (lt_utop_iff va).mp hva
  intro e' he f k hf
  have hfd : f ≠ d := by
    rintro rfl
    rw [hdir] at hf
    rcases hf with h0 | ⟨j, h0⟩
    · exact he (Role.dir.inj h0).symm
    · cases h0
  cases h with
  | found hp _ hother =>
    refine hother f k (fun h0 => hfd h0.1) fun h0 => ?_
    rw [h0.1, ht.tree.table hd hix hp] at hf
    rcases hf with h1 | ⟨j, h1⟩
    · cases h1
    · exact he (Role.table.inj h1).1.symm
  | made p _ hl _ _ hother =>
    refine hother f k (fun h0 => ?_) fun h0 => hfd h0.1
    rw [h0, ht.free.role_of_head hl] at hf
    rcases hf with h1 | ⟨j, h1⟩ <;> cases h1

theorem confined_of_pageInsert {pp : ℕ} {r : ℤ} (ht : Typed s (dirsOf s) ρ)
    (hd : dirsOf s e = some d) (hva : va < utop)
    (h : s.pageInsert d pp va perm = .ok (r, s')) : Confined ρ e s s' := by
  rcases stored_of_pageInsert ht hd hva h with ⟨-, hp⟩ | ⟨-, hst⟩
  · exact .of_phys hp
  · exact hst.confined ht hd hva

theorem confined_of_pageRemove (ht : Typed s (dirsOf s) ρ) (hd : dirsOf s e = some d)
    (hva : va < utop) (h : s.pageRemove d va = .ok s') : Confined ρ e s s' := by
  have hix := (lt_utop_iff va).mp hva
  by_cases hp : Has (s.phys d (pdx va)) pteP
  · intro e' he f k hf
    refine words_of_pageRemove h f k fun h0 => ?_
    rw [h0.1, ht.tree.table hd hix hp] at hf
    rcases hf with h1 | ⟨j, h1⟩
    · cases h1
    · exact he (Role.table.inj h1).1.symm
  · rw [pageRemove_of_lookup_none (pageLookup_of_absent hp)] at h
    obtain rfl := Except.ok.inj h
    exact .of_phys rfl

theorem confined_of_envFree (ht : Typed s (dirsOf s) ρ) (hd : dirsOf s e = some d)
    (h : s.envFree e = .ok s') : Confined ρ e s s' := by
  intro e' he f k hf
  refine words_of_envFree ht hd h f k ?_ fun i h0 => ?_
  · rintro rfl
    rw [ht.tree.dir.mp hd] at hf
    rcases hf with h1 | ⟨j, h1⟩
    · exact he (Role.dir.inj h1).symm
    · cases h1
  · rw [h0] at hf
    rcases hf with h1 | ⟨j, h1⟩
    · cases h1
    · exact he (Role.table.inj h1).1.symm

/-- A page is taken for user data. -/
theorem Typed.takePage {p : ℕ} (h : Typed s (dirsOf s) ρ) (hl : s.pageFreeList = some p) :
    Typed (s.takePage p) (dirsOf s) (Function.update ρ p .data) := by
  have hfree := h.free.role_of_head hl
  refine ⟨h.window, fun {q} hq => ?_, h.free.takePage hl, h.tree.takeData hfree⟩
  rcases eq_or_ne q p with rfl | hqp
  · exact h.lt (by rw [hfree]; simp)
  · rw [Function.update_of_ne hqp] at hq
    exact h.lt hq

/-- The roles of directories and tables do not change when a page is taken. -/
theorem Confined.takePage {p : ℕ} (hfree : ρ p = .free)
    (h : Confined (Function.update ρ p .data) e s s') : Confined ρ e s s' := by
  intro e' he f k hf
  refine h e' he f k ?_
  rw [Function.update_of_ne]
  · exact hf
  · rintro rfl
    rw [hfree] at hf
    rcases hf with h1 | ⟨j, h1⟩ <;> cases h1

/-! ## Handlers -/

/-- A live environment whose directory is `d`. -/
theorem dirsOf_of_pgdir (hlive : Live s e) (hd : (s.envs e).envPgdir = some d) :
    dirsOf s e = some d := by
  rw [dirsOf_of_live hlive]
  exact hd

/-- The environment that `envid2env` grants to `c` is live and no stranger. -/
theorem granted_of_envid2env {envid : Word} (hc : s.curenv = some c) (hlive : Live s c)
    (h : s.envid2env envid true = .ok (0, some e)) :
    Live s e ∧ ∀ e', Stranger s c e' → e' ≠ e := by
  have hserve : Serving (some c) s := fun c' hc' => hc.symm.trans hc'
  have hw := within_of_envid2env hserve h
  refine ⟨?_, fun e' hs => ?_⟩
  · rcases hw with h0 | ⟨-, -, h0, -⟩
    · obtain rfl := Option.some.inj h0
      exact hlive
    · exact h0
  · rintro rfl
    exact hs.not_within hw

/-- The receiver of a message is live. -/
theorem live_of_send {envid : Word} (hc : s.curenv = some c) (hlive : Live s c)
    (h : s.envid2env envid false = .ok (0, some e)) : Live s e := by
  have hserve : Serving (some c) s := fun c' hc' => hc.symm.trans hc'
  rcases live_of_envid2env hserve h with h0 | h0
  · exact h0
  · obtain rfl := Option.some.inj h0
    exact hlive

theorem confined_of_sysPageAlloc {envid : Word} {r : ℤ} (ht : Typed s (dirsOf s) ρ)
    (hc : s.curenv = some c) (hlive : Live s c) (h : s.sysPageAlloc envid va perm = .ok (r, s')) :
    ∃ e, (∀ e', Stranger s c e' → e' ≠ e) ∧ Confined ρ e s s' := by
  rcases sysPageAlloc_outcome h with ⟨-, rfl⟩ |
    ⟨e, d, p, s₁, ret, s₂, henv, hva, -, -, halloc, hd, hins, hend⟩
  · exact ⟨c, fun e' hs => hs.1, .of_phys rfl⟩
  obtain ⟨hle, hne⟩ := granted_of_envid2env hc hlive henv
  obtain ⟨hl, rfl⟩ := ht.eq_of_pageAlloc halloc
  have hfree := ht.free.role_of_head hl
  have hdir : dirsOf s e = some d := dirsOf_of_pgdir hle hd
  have htake : Confined ρ e s (s.takePage p) := by
    intro e' _ f k hf
    have hfp : f ≠ p := by
      rintro rfl
      rw [hfree] at hf
      rcases hf with h1 | ⟨j, h1⟩ <;> cases h1
    simp [Kernel.takePage, setPage, zeroFrame, hfp]
  have htyped : Typed ((s.takePage p).note (.userPage p)) (dirsOf s)
      (Function.update ρ p .data) := by
    have h0 := ht.takePage hl
    exact ⟨h0.window, h0.lt, h0.free.congr rfl rfl fun _ => Iff.rfl, h0.tree⟩
  have hins' : Confined ρ e (s.takePage p) s₂ := by
    refine Confined.takePage hfree ?_
    exact confined_of_pageInsert (s := (s.takePage p).note (.userPage p)) htyped hdir hva hins
  have hall : Confined ρ e s s₂ := htake.trans hins'
  rcases hend with ⟨-, -, rfl⟩ | ⟨-, -, hfr⟩
  · exact ⟨e, hne, hall⟩
  · exact ⟨e, hne, hall.trans (.of_phys (phys_of_pageFree hfr))⟩

theorem confined_of_sysPageMap {srcenvid srcva dstenvid dstva : Word} {r : ℤ}
    (ht : Typed s (dirsOf s) ρ) (hc : s.curenv = some c) (hlive : Live s c)
    (h : s.sysPageMap srcenvid srcva dstenvid dstva perm = .ok (r, s')) :
    ∃ e, (∀ e', Stranger s c e' → e' ≠ e) ∧ Confined ρ e s s' := by
  rcases sysPageMap_outcome h with ⟨-, rfl⟩ |
    ⟨_, e, _, d, _, _, _, -, henv, -, hva, -, -, -, -, -, -, hd, hins⟩
  · exact ⟨c, fun e' hs => hs.1, .of_phys rfl⟩
  · obtain ⟨hle, hne⟩ := granted_of_envid2env hc hlive henv
    exact ⟨e, hne, confined_of_pageInsert ht (dirsOf_of_pgdir hle hd) hva hins⟩

theorem confined_of_sysPageUnmap {envid : Word} {r : ℤ} (ht : Typed s (dirsOf s) ρ)
    (hc : s.curenv = some c) (hlive : Live s c) (h : s.sysPageUnmap envid va = .ok (r, s')) :
    ∃ e, (∀ e', Stranger s c e' → e' ≠ e) ∧ Confined ρ e s s' := by
  rcases sysPageUnmap_outcome h with ⟨-, rfl⟩ | ⟨e, d, henv, hva, -, hd, hrem, -⟩
  · exact ⟨c, fun e' hs => hs.1, .of_phys rfl⟩
  · obtain ⟨hle, hne⟩ := granted_of_envid2env hc hlive henv
    exact ⟨e, hne, confined_of_pageRemove ht (dirsOf_of_pgdir hle hd) hva hrem⟩

/-- The page handlers leave strangers alone. -/
theorem untouched_of_confined (ht : Typed s (dirsOf s) ρ) (hm : MemoryOnly s s')
    (h : ∃ e, (∀ e', Stranger s c e' → e' ≠ e) ∧ Confined ρ e s s') (e' : ℕ)
    (hs : Stranger s c e') : Untouched s s' e' := by
  obtain ⟨e, hne, hconf⟩ := h
  exact hconf.untouched ht (hne e' hs) (by rw [hm.envs])

/-- What the page transfer of a message writes. -/
theorem stored_of_ipcTransfer {r : ℕ} {srcva : Word} {stale : Option Word} {ret : ℤ}
    (ht : Typed s (dirsOf s) ρ) (hlive : Live s r)
    (h : s.ipcTransfer c r srcva perm stale = .ok (ret, s')) :
    s'.phys = s.phys ∨ ret = 0 ∧ (s.envs r).envIpcDstva < utop ∧
      ∃ d, dirsOf s r = some d ∧ Stored s s' d (s.envs r).envIpcDstva perm := by
  rcases ipcTransfer_outcome h with ⟨-, rfl⟩ |
    ⟨_, rd, _, _, _, s₁, -, -, -, -, -, -, hdst, hrd, hins, hend⟩
  · exact Or.inl rfl
  have hd : dirsOf s r = some rd := dirsOf_of_pgdir hlive hrd
  rcases hend with ⟨hne, rfl⟩ | ⟨rfl, rfl⟩
  · rcases stored_of_pageInsert ht hd hdst hins with ⟨-, hp⟩ | ⟨h0, -⟩
    · exact Or.inl hp
    · exact absurd h0 hne
  · rcases stored_of_pageInsert ht hd hdst hins with ⟨hneg, -⟩ | ⟨-, hst⟩
    · exact absurd hneg (lt_irrefl 0)
    · refine Or.inr ⟨rfl, hdst, rd, hd, ?_⟩
      cases hst with
      | found hp hpde hother => exact .found hp hpde hother
      | made p hp hl hzero hpde hother => exact .made p hp hl hzero hpde hother

/-- A send that does not return zero writes no word. -/
theorem phys_of_sysIpcTrySend {envid value srcva : Word} {stale : Option Word} {ret : ℤ}
    (ht : Typed s (dirsOf s) ρ) (hc : s.curenv = some c) (hlive : Live s c)
    (h : s.sysIpcTrySend envid value srcva perm stale = .ok (ret, s')) (hret : ret ≠ 0) :
    s'.phys = s.phys := by
  rcases sysIpcTrySend_outcome h with ⟨-, rfl⟩ | ⟨r, c', s₁, henv, -, -, htr, ⟨-, rfl⟩ | ⟨h0, -⟩⟩
  · rfl
  · rcases stored_of_ipcTransfer ht (live_of_send hc hlive henv) htr with hp | ⟨h0, -⟩
    · exact hp
    · exact absurd h0 hret
  · exact absurd h0 hret

/-- A send leaves every environment alone but for its receiver. -/
theorem frame_of_sysIpcTrySend {envid value srcva : Word} {stale : Option Word} {ret : ℤ}
    (h : Spaces s ρ) (hc : s.curenv = some c) (hlive : Live s c) (hperm : perm.toNat < 2 ^ 12)
    (hrun : s.sysIpcTrySend envid value srcva perm stale = .ok (ret, s')) (e : ℕ) :
    Untouched s s' e ∨ ret = 0 ∧ Messaged s s' e := by
  have ht := h.typed
  rcases sysIpcTrySend_cases hrun with ⟨hret, hm⟩ | ⟨rfl, r, c', s₁, henv, hc', hrecv, htr, rfl⟩
  · exact Or.inl (untouched_of_phys (by rw [hm.envs]) (phys_of_sysIpcTrySend ht hc hlive hrun hret))
  have hliver : Live s r := live_of_send hc hlive henv
  have henvs : ∃ p, s₁.envs = Function.update s.envs r { s.envs r with envIpcPerm := p } := by
    rcases envs_of_ipcTransfer htr with ⟨h0, -⟩ | ⟨-, ⟨-, rfl⟩ | ⟨-, h₁, -⟩⟩
    · exact absurd rfl h0
    · exact ⟨(s₁.envs r).envIpcPerm, (Function.update_eq_self r s₁.envs).symm⟩
    · exact ⟨perm, h₁⟩
  obtain ⟨p, henvs⟩ := henvs
  have hphys : s₁.phys = s.phys ∨ (s.envs r).envIpcDstva < utop ∧
      ∃ d, dirsOf s r = some d ∧ Stored s s₁ d (s.envs r).envIpcDstva perm := by
    rcases stored_of_ipcTransfer ht hliver htr with h0 | ⟨-, hdst, d, hd, hst⟩
    · exact Or.inl h0
    · exact Or.inr ⟨hdst, d, hd, hst⟩
  rcases eq_or_ne e r with rfl | hne
  · refine Or.inr ⟨rfl, hrecv, ⟨(s₁.envs c').envId, value, p, ?_⟩, fun d hd vpn hlt hvpn => ?_⟩
    · simp [Kernel.setEnv, Write.value, henvs]
    · show mappingOf s₁.phys d vpn = _
      rcases hphys with h0 | ⟨hdst, d', hd', hst⟩
      · rw [h0]
      · obtain rfl := Option.some.inj (hd.symm.trans hd')
        exact hst.mappingOf_of_ne ht h.wide hd hdst hperm hlt fun h0 => hvpn ⟨hdst, h0⟩
  · have henv' : (s₁.setEnv r ((Write.deliver r c' value).value s₁.envs)).envs e = s.envs e := by
      simp [Kernel.setEnv, henvs, hne]
    refine Or.inl ?_
    rcases hphys with h0 | ⟨hdst, d', hd', hst⟩
    · exact untouched_of_phys henv' h0
    · have hconf : Confined ρ r s (s₁.setEnv r ((Write.deliver r c' value).value s₁.envs)) :=
        hst.confined ht hd' hdst
      exact hconf.untouched ht hne henv'

/-- The state after the handler's own work, before `sched_yield` if it ends there. -/
def Own (s₁ s' : Kernel) : Flow → Prop
  | .left => s₁.schedYield = .ok s'
  | .ret _ => s₁ = s'

/-- The handlers that reach other environments. -/
def Syscall.reaches : Syscall → Bool
  | .envDestroy .. | .envSetStatus .. | .envSetPgfaultUpcall .. | .pageAlloc .. | .pageMap ..
  | .pageUnmap .. | .ipcTrySend .. => true
  | _ => false

theorem frame_of_sysEnvDestroy {envid : Word} (ht : Typed s (dirsOf s) ρ) (hc : s.curenv = some c)
    (hlive : Live s c) (h : s.sysEnvDestroy envid = .ok (fl, s')) :
    ∃ s₁, Own s₁ s' fl ∧ ∀ e, Stranger s c e → Untouched s s₁ e := by
  unfold sysEnvDestroy at h
  obtain ⟨⟨ret, oe⟩, henv, h⟩ := bind_eq_ok.mp h
  simp only at h
  split at h
  · obtain ⟨rfl, rfl⟩ := Prod.mk.inj (Except.ok.inj h)
    exact ⟨s, rfl, fun e _ => .refl s e⟩
  rename_i hret
  obtain rfl := (ret_of_envid2env henv).resolve_right (by rintro rfl; exact hret (by decide))
  obtain ⟨v, hv, h⟩ := bind_eq_ok.mp h
  rw [deref_eq_ok hv] at henv
  obtain ⟨hlv, hne⟩ := granted_of_envid2env hc hlive henv
  obtain ⟨⟨fl', s₂⟩, hdes, h⟩ := bind_eq_ok.mp h
  have hown : ∃ s₁, Own s₁ s₂ fl' ∧ ∀ e, Stranger s c e → Untouched s s₁ e := by
    unfold envDestroy at hdes
    split at hdes
    · obtain ⟨rfl, rfl⟩ := Prod.mk.inj (Except.ok.inj hdes)
      refine ⟨s.setStatus v .dying, rfl, fun e hs => untouched_of_phys ?_ rfl⟩
      simp [setStatus, Kernel.setEnv, hne e hs]
    · obtain ⟨s₃, hfr, hdes⟩ := bind_eq_ok.mp hdes
      obtain ⟨d, hd⟩ := pgdir_of_envFree hfr
      have hconf := confined_of_envFree ht (dirsOf_of_pgdir hlv hd) hfr
      have hunt : ∀ e, Stranger s c e → Untouched s s₃ e := by
        intro e hs
        refine hconf.untouched ht (hne e hs) ?_
        rw [envs_of_envFree hfr]
        exact Write.apply_of_ne (hne e hs)
      split at hdes
      · obtain ⟨s₄, hy, hdes⟩ := bind_eq_ok.mp hdes
        obtain ⟨rfl, rfl⟩ := Prod.mk.inj (Except.ok.inj hdes)
        exact ⟨s₃.setCurenv none, hy, fun e hs => ⟨(hunt e hs).env, (hunt e hs).mapping⟩⟩
      · obtain ⟨rfl, rfl⟩ := Prod.mk.inj (Except.ok.inj hdes)
        exact ⟨s₃, rfl, hunt⟩
  obtain ⟨s₁, hs₁, hunt⟩ := hown
  cases fl' with
  | left =>
    obtain ⟨rfl, rfl⟩ := Prod.mk.inj (Except.ok.inj h)
    exact ⟨s₁, hs₁, hunt⟩
  | ret r =>
    obtain ⟨rfl, rfl⟩ := Prod.mk.inj (Except.ok.inj h)
    exact ⟨s₁, hs₁, hunt⟩

theorem frame_of_sysEnvSetStatus {envid status : Word} {r : ℤ} (hc : s.curenv = some c)
    (hlive : Live s c) (h : s.sysEnvSetStatus envid status = .ok (r, s')) (e : ℕ)
    (hs : Stranger s c e) : Untouched s s' e := by
  unfold sysEnvSetStatus at h
  split at h
  · obtain ⟨-, rfl⟩ := Prod.mk.inj (Except.ok.inj h)
    exact .refl _ e
  obtain ⟨⟨ret, oe⟩, henv, h⟩ := bind_eq_ok.mp h
  simp only at h
  split at h
  · obtain ⟨-, rfl⟩ := Prod.mk.inj (Except.ok.inj h)
    exact .refl _ e
  rename_i hret
  obtain rfl := (ret_of_envid2env henv).resolve_right (by rintro rfl; exact hret (by decide))
  obtain ⟨v, hv, h⟩ := bind_eq_ok.mp h
  rw [deref_eq_ok hv] at henv
  have hne := (granted_of_envid2env hc hlive henv).2 e hs
  obtain ⟨-, rfl⟩ := Prod.mk.inj (Except.ok.inj h)
  refine untouched_of_phys ?_ rfl
  simp [setStatus, Kernel.setEnv, hne]

theorem frame_of_sysEnvSetPgfaultUpcall {envid func : Word} {r : ℤ} (hc : s.curenv = some c)
    (hlive : Live s c) (h : s.sysEnvSetPgfaultUpcall envid func = .ok (r, s')) (e : ℕ)
    (hs : Stranger s c e) : Untouched s s' e := by
  unfold sysEnvSetPgfaultUpcall at h
  obtain ⟨⟨ret, oe⟩, henv, h⟩ := bind_eq_ok.mp h
  simp only at h
  split at h
  · obtain ⟨-, rfl⟩ := Prod.mk.inj (Except.ok.inj h)
    exact .refl _ e
  rename_i hret
  obtain rfl := not_not.mp hret
  obtain ⟨v, hv, h⟩ := bind_eq_ok.mp h
  rw [deref_eq_ok hv] at henv
  have hne := (granted_of_envid2env hc hlive henv).2 e hs
  obtain ⟨-, rfl⟩ := Prod.mk.inj (Except.ok.inj h)
  refine untouched_of_phys ?_ rfl
  simp [Kernel.setEnv, hne]

/-- The result of a handler that returns. -/
theorem exists_of_returning {x : Except Panic (ℤ × Kernel)} (h : returning x = .ok (fl, s')) :
    ∃ r, fl = .ret r ∧ x = .ok (r, s') := by
  cases x with
  | error p => cases h
  | ok y =>
    obtain ⟨rfl, rfl⟩ := Prod.mk.inj (Except.ok.inj h)
    exact ⟨y.1, rfl, rfl⟩

/-- Permissions within `PTE_SYSCALL` are flags. -/
theorem toNat_lt_of_syscall (h : perm &&& ~~~ pteSyscall = 0#32) : perm.toNat < 2 ^ 12 := by
  have hle : perm = perm &&& pteSyscall := by
    have h0 : perm = (perm &&& pteSyscall) ||| (perm &&& ~~~ pteSyscall) := by
      rw [← BitVec.and_or_distrib_left, show pteSyscall ||| ~~~ pteSyscall = BitVec.allOnes 32 by
        decide, BitVec.and_allOnes]
    rw [h, BitVec.or_zero] at h0
    exact h0
  rw [hle, BitVec.toNat_and]
  exact lt_of_le_of_lt Nat.and_le_right (by decide)

/-- **Authority.**  The handlers leave every environment alone that is neither the caller
nor its child; a send that returns zero may also deliver to an environment that waits. -/
theorem handle_authority {y : Syscall} (h : Spaces s ρ) (hc : s.curenv = some c)
    (hlive : Live s c) (hy : y.reaches = true) (hperm : y.perm &&& ~~~ pteSyscall = 0#32)
    (hrun : s.handle y = .ok (fl, s')) :
    ∃ s₁, Own s₁ s' fl ∧ ∀ e, Stranger s c e → Untouched s s₁ e ∨
      (∃ envid value srcva perm stale, y = .ipcTrySend envid value srcva perm stale) ∧
        fl = .ret 0 ∧ Messaged s s₁ e := by
  have ht := h.typed
  cases y with
  | envDestroy envid =>
    obtain ⟨s₁, hown, hunt⟩ := frame_of_sysEnvDestroy ht hc hlive hrun
    exact ⟨s₁, hown, fun e hs => Or.inl (hunt e hs)⟩
  | envSetStatus envid status =>
    obtain ⟨r, rfl, hz⟩ := exists_of_returning hrun
    exact ⟨s', rfl, fun e hs => Or.inl (frame_of_sysEnvSetStatus hc hlive hz e hs)⟩
  | envSetPgfaultUpcall envid func =>
    obtain ⟨r, rfl, hz⟩ := exists_of_returning hrun
    exact ⟨s', rfl, fun e hs => Or.inl (frame_of_sysEnvSetPgfaultUpcall hc hlive hz e hs)⟩
  | pageAlloc envid va perm =>
    obtain ⟨r, rfl, hz⟩ := exists_of_returning hrun
    exact ⟨s', rfl, fun e hs => Or.inl (untouched_of_confined ht
      (memoryOnly_of_sysPageAlloc hz) (confined_of_sysPageAlloc ht hc hlive hz) e hs)⟩
  | pageMap srcenvid srcva dstenvid dstva perm =>
    obtain ⟨r, rfl, hz⟩ := exists_of_returning hrun
    exact ⟨s', rfl, fun e hs => Or.inl (untouched_of_confined ht
      (memoryOnly_of_sysPageMap hz) (confined_of_sysPageMap ht hc hlive hz) e hs)⟩
  | pageUnmap envid va =>
    obtain ⟨r, rfl, hz⟩ := exists_of_returning hrun
    exact ⟨s', rfl, fun e hs => Or.inl (untouched_of_confined ht
      (memoryOnly_of_sysPageUnmap hz) (confined_of_sysPageUnmap ht hc hlive hz) e hs)⟩
  | ipcTrySend envid value srcva perm stale =>
    obtain ⟨r, rfl, hz⟩ := exists_of_returning hrun
    refine ⟨s', rfl, fun e _ => ?_⟩
    rcases frame_of_sysIpcTrySend h hc hlive (toNat_lt_of_syscall hperm) hz e with
      hunt | ⟨rfl, hmsg⟩
    · exact Or.inl hunt
    · exact Or.inr ⟨⟨envid, value, srcva, perm, stale, rfl⟩, rfl, hmsg⟩
  | _ => cases hy

/-- The roles of the frames of `sharing`. -/
def sharingRoles (f : ℕ) : Role :=
  if f = 2 then .dir 0
  else if f = 3 then .table 0 0
  else if f = 4 then .data
  else if f = 5 then .dir 1
  else if f = 6 then .table 1 0
  else if 8 ≤ f ∧ f < 16 then .free
  else .reserved

theorem dirsOf_sharing (e : ℕ) :
    dirsOf sharing e = if e = 0 then some 2 else if e = 1 then some 5 else none := by
  unfold dirsOf sharing
  simp only
  rcases Nat.lt_or_ge e 2 with he | he
  · rw [if_pos he]
    rfl
  · have hst : ¬ e < 2 := by omega
    simp [hst, show e ≠ 0 by omega, show e ≠ 1 by omega]

theorem sharing_free : FreeTyped sharing sharingRoles := by
  have hlink : ∀ p, sharing.links p = if 8 ≤ p ∧ p < 15 then some (p + 1) else none := fun _ => rfl
  refine ⟨⟨List.range' 8 8, ?_, fun p => ?_⟩, fun {p} hp => ?_⟩
  · have hnext : ∀ i, 8 ≤ i → i < 8 + 8 →
        sharing.links i = if i + 1 < 8 + 8 then some (i + 1) else none := by
      intro i hi hlt
      rw [hlink]
      by_cases h0 : i + 1 < 8 + 8
      · rw [if_pos (by omega), if_pos h0]
      · rw [if_neg (by omega), if_neg h0]
    exact Threads.range' hnext
  · rw [List.mem_range'_1]
    unfold sharingRoles
    split_ifs <;> simp <;> omega
  · rw [hlink, if_neg]
    rintro ⟨h8, h15⟩
    refine hp ?_
    unfold sharingRoles
    split_ifs <;> first | rfl | omega

theorem sharing_phys (f i : ℕ) : (f = 2 ∧ i = 0 ∧ sharing.phys f i = 0x3007#32) ∨
    (f = 3 ∧ i = 1 ∧ sharing.phys f i = 0x4007#32) ∨
    (f = 5 ∧ i = 0 ∧ sharing.phys f i = 0x6007#32) ∨ sharing.phys f i = 0#32 := by
  show _ ∨ _ ∨ _ ∨ (if f = 2 ∧ i = 0 then 0x3007#32 else if f = 3 ∧ i = 1 then 0x4007#32
    else if f = 5 ∧ i = 0 then 0x6007#32 else 0#32) = 0#32
  by_cases h2 : f = 2 ∧ i = 0
  · obtain ⟨rfl, rfl⟩ := h2
    exact Or.inl ⟨rfl, rfl, rfl⟩
  by_cases h3 : f = 3 ∧ i = 1
  · obtain ⟨rfl, rfl⟩ := h3
    exact Or.inr (Or.inl ⟨rfl, rfl, rfl⟩)
  by_cases h5 : f = 5 ∧ i = 0
  · obtain ⟨rfl, rfl⟩ := h5
    exact Or.inr (Or.inr (Or.inl ⟨rfl, rfl, rfl⟩))
  · exact Or.inr (Or.inr (Or.inr (by rw [if_neg h2, if_neg h3, if_neg h5])))

/-- The directories of `sharing`, and their one entry each. -/
theorem sharing_pde {e d i : ℕ} (hd : dirsOf sharing e = some d)
    (hp : Has (sharing.phys d i) pteP) :
    (e = 0 ∧ d = 2 ∧ i = 0) ∨ (e = 1 ∧ d = 5 ∧ i = 0) := by
  rw [dirsOf_sharing] at hd
  rcases sharing_phys d i with ⟨rfl, rfl, -⟩ | ⟨rfl, rfl, -⟩ | ⟨rfl, rfl, -⟩ | h0
  · split_ifs at hd with h1 h2
    · exact Or.inl ⟨h1, rfl, rfl⟩
    · exact absurd (Option.some.inj hd) (by decide)
  · split_ifs at hd with h1 h2
    · exact absurd (Option.some.inj hd) (by decide)
    · exact absurd (Option.some.inj hd) (by decide)
  · split_ifs at hd with h1 h2
    · exact absurd (Option.some.inj hd) (by decide)
    · exact Or.inr ⟨h2, rfl, rfl⟩
  · rw [h0] at hp
    exact absurd hp (not_has_zero _)

theorem sharing_tree : Tree sharing.phys (dirsOf sharing) sharingRoles where
  owner_lt := fun {e d} hd => by
    rw [dirsOf_sharing] at hd
    split_ifs at hd with h0 h1
    · rw [h0]
      decide
    · rw [h1]
      decide
  dir := fun {e d} => by
    rw [dirsOf_sharing]
    unfold sharingRoles
    split_ifs <;> simp_all <;> omega
  table := fun {e d i} hd _ hp => by
    rcases sharing_pde hd hp with ⟨rfl, rfl, rfl⟩ | ⟨rfl, rfl, rfl⟩
    · decide
    · decide
  table_back := fun {e i t} ht => by
    unfold sharingRoles at ht
    split_ifs at ht with h2 h3 h4 h5 h6 h8
    · obtain ⟨rfl, rfl⟩ := Role.table.inj ht
      exact ⟨2, rfl, by decide, by decide, by rw [h3]; decide⟩
    · obtain ⟨rfl, rfl⟩ := Role.table.inj ht
      exact ⟨5, rfl, by decide, by decide, by rw [h6]; decide⟩
  entry := fun {e i t j} ht _ => by
    rcases sharing_phys t j with ⟨rfl, rfl, -⟩ | ⟨rfl, rfl, -⟩ | ⟨rfl, rfl, -⟩ | h0
    · cases ht
    · exact Or.inr ⟨by decide, by decide⟩
    · cases ht
    · exact Or.inl h0

theorem sharing_spaces : Spaces sharing sharingRoles := by
  refine ⟨⟨by decide, fun {p} hp => ?_, sharing_free, sharing_tree⟩, fun e d i hd _ hp => ?_⟩
  · show p < 16
    by_contra h0
    refine hp ?_
    unfold sharingRoles
    split_ifs <;> first | rfl | omega
  · rcases sharing_pde hd hp with ⟨rfl, rfl, rfl⟩ | ⟨rfl, rfl, rfl⟩
    · decide
    · decide

/-- The theorem when the child of `sharing` maps a page of its own: its parent is a
stranger to it. -/
theorem handle_authority_child : Spaces (sharing.enter 1) sharingRoles ∧
    ∃ s', (sharing.enter 1).handle (.pageAlloc 0#32 0x3000#32 7#32) = .ok (.ret 0, s') ∧
      Untouched (sharing.enter 1) s' 0 := by
  have hspaces : Spaces (sharing.enter 1) sharingRoles := by
    refine ⟨⟨sharing_spaces.typed.window, sharing_spaces.typed.lt, ?_, sharing_spaces.typed.tree⟩,
      sharing_spaces.wide⟩
    exact sharing_free.congr rfl rfl fun _ => Iff.rfl
  have hok : ((sharing.enter 1).handle (.pageAlloc 0#32 0x3000#32 7#32)).toOption.map Prod.fst =
      some (.ret 0) := by
    decide +kernel
  cases hrun : (sharing.enter 1).handle (.pageAlloc 0#32 0x3000#32 7#32) with
  | error p =>
    rw [hrun] at hok
    cases hok
  | ok x =>
    obtain ⟨fl, s'⟩ := x
    rw [hrun] at hok
    cases fl with
    | left => cases hok
    | ret r =>
      obtain rfl : r = 0 := Flow.ret.inj (Option.some.inj hok)
      have hlive : Live (sharing.enter 1) 1 := by
        show (sharing.envs 1).envStatus ≠ .free
        decide
      have hstranger : Stranger (sharing.enter 1) 1 0 := by
        refine ⟨by decide, fun h0 => ?_⟩
        exact absurd h0.2 (by decide)
      obtain ⟨s₁, rfl, hall⟩ := handle_authority hspaces rfl hlive rfl (by decide) hrun
      refine ⟨hspaces, s₁, rfl, ?_⟩
      rcases hall 0 hstranger with hunt | ⟨⟨_, _, _, _, _, h0⟩, -⟩
      · exact hunt
      · cases h0

end Kernel
end PmakeOs
