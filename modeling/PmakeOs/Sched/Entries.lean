import PmakeOs.Kernel.Outcomes
import PmakeOs.Sched.Acts

/-!
# The acts of a kernel entry

Every handler of `kern/syscall.c` is a sequence of acts, and so is a whole kernel
entry up to the point where the CPU leaves (`entry_cases`).

Three handlers write the slot of an environment that their caller names:
`sys_env_set_status`, `sys_ipc_try_send` and `sys_env_destroy`.  `Allowed A` is the
demand that these are environments with `A`; the other handlers write the slot
of the caller at most.
-/

namespace PmakeOs
namespace Kernel

variable {s s' : Kernel} {A : ℕ → Prop} {e c : ℕ} {fl : Flow}

/-- The status is one that `sys_env_set_status` accepts. -/
def Settable (status : Word) : Prop :=
  status = EnvStatus.notRunnable.toWord ∨ status = EnvStatus.runnable.toWord

/-- The environments whose slots the call may write have `A`, or are running and
only marked. -/
def Allowed (A : ℕ → Prop) (s : Kernel) : Syscall → Prop
  | .envSetStatus envid status => Settable status →
      ∀ e, s.envid2env envid true = .ok (0, some e) → A e
  | .ipcTrySend envid _ _ _ _ => ∀ e, s.envid2env envid false = .ok (0, some e) →
      (s.envs e).envIpcRecving = true → A e
  | .envDestroy envid => ∀ e, s.envid2env envid true = .ok (0, some e) →
      A e ∨ (s.envs e).envStatus = .running
  | _ => True

/-- What a function has done that may return or leave, with `n` allocations. -/
def Does (A : ℕ → Prop) (n : ℕ) (s : Kernel) (fl : Flow) (s' : Kernel) : Prop :=
  (∃ r, fl = .ret r) ∧ Acts A n s s' ∨ fl = .left ∧ ∃ s₁, Acts A n s s₁ ∧ Leave s₁ s'

theorem Does.of_acts {n : ℕ} (h : Acts A n s s') (r : ℤ) : Does A n s (.ret r) s' :=
  Or.inl ⟨⟨r, rfl⟩, h⟩

theorem Does.refl (s : Kernel) (r : ℤ) : Does A 0 s (.ret r) s := .of_acts .refl r

/-- A handler that returns, seen as a flow. -/
theorem does_of_returning {n : ℕ} {x : Except Panic (ℤ × Kernel)}
    (h : returning x = .ok (fl, s')) (hx : ∀ r s', x = .ok (r, s') → Acts A n s s') :
    Does A n s fl s' := by
  cases hr : x with
  | error p =>
    rw [hr] at h
    cases h
  | ok v =>
    rw [hr] at h
    obtain ⟨rfl, rfl⟩ := Prod.mk.inj (Except.ok.inj h)
    exact .of_acts (hx v.1 v.2 hr) v.1

theorem does_schedYield (h : s.schedYield = .ok s') : Does A 0 s .left s' :=
  Or.inr ⟨rfl, s, .refl, leave_schedYield h⟩

/-! ## Pages -/

theorem memoryOnly_of_sysPageAlloc {envid va perm : Word} {r : ℤ}
    (h : s.sysPageAlloc envid va perm = .ok (r, s')) : MemoryOnly s s' := by
  rcases sysPageAlloc_outcome h with ⟨-, rfl⟩ |
    ⟨e, d, p, s₁, r', s₂, -, -, -, -, halloc, -, hins, hend⟩
  · exact .refl s'
  have htake : MemoryOnly s (s₁.note (.userPage p)) :=
    (memoryOnly_of_pageAlloc halloc).trans (.note s₁ rfl)
  have h₂ := htake.trans (memoryOnly_of_pageInsert hins)
  rcases hend with ⟨-, -, rfl⟩ | ⟨-, -, hfree⟩
  · exact h₂
  · exact h₂.trans (memoryOnly_of_pageFree hfree)

theorem memoryOnly_of_sysPageMap {srcenvid srcva dstenvid dstva perm : Word} {r : ℤ}
    (h : s.sysPageMap srcenvid srcva dstenvid dstva perm = .ok (r, s')) : MemoryOnly s s' := by
  rcases sysPageMap_outcome h with ⟨-, rfl⟩ |
    ⟨_, _, _, _, _, _, _, -, -, -, -, -, -, -, -, -, -, -, hins⟩
  · exact .refl s'
  · exact memoryOnly_of_pageInsert hins

theorem memoryOnly_of_sysPageUnmap {envid va : Word} {r : ℤ}
    (h : s.sysPageUnmap envid va = .ok (r, s')) : MemoryOnly s s' := by
  rcases sysPageUnmap_outcome h with ⟨-, rfl⟩ | ⟨e, d, -, -, -, -, hrem, -⟩
  · exact .refl s'
  · exact memoryOnly_of_pageRemove hrem

theorem memoryOnly_of_userMemCheckLoop {d : ℕ} {va stop perm : Word} :
    ∀ {fuel : ℕ} {i : Word} {s s' : Kernel} {r : ℤ},
      s.userMemCheckLoop d va stop perm fuel i = .ok (r, s') → MemoryOnly s s' := by
  intro fuel
  induction fuel with
  | zero =>
    intro i s s' r h
    obtain ⟨-, rfl⟩ := Prod.mk.inj (Except.ok.inj h)
    exact .refl s
  | succ fuel ih =>
    intro i s s' r h
    unfold userMemCheckLoop at h
    split at h
    · obtain ⟨⟨pte, s₁⟩, hwalk, h⟩ := bind_eq_ok.mp h
      have h₁ := memoryOnly_of_pgdirWalk hwalk
      cases pte with
      | none =>
        obtain ⟨-, rfl⟩ := Prod.mk.inj (Except.ok.inj h)
        exact h₁.trans (.of_cpus rfl rfl rfl rfl rfl rfl rfl rfl)
      | some x =>
        simp only at h
        split at h
        · obtain ⟨-, rfl⟩ := Prod.mk.inj (Except.ok.inj h)
          exact h₁.trans (.of_cpus rfl rfl rfl rfl rfl rfl rfl rfl)
        · exact h₁.trans (ih h)
    · obtain ⟨-, rfl⟩ := Prod.mk.inj (Except.ok.inj h)
      exact .refl s

theorem memoryOnly_of_userMemCheck {va len perm : Word} {r : ℤ}
    (h : s.userMemCheck e va len perm = .ok (r, s')) : MemoryOnly s s' := by
  unfold userMemCheck at h
  simp only at h
  split at h
  · obtain ⟨d, -, h⟩ := bind_eq_ok.mp h
    exact memoryOnly_of_userMemCheckLoop h
  · obtain ⟨-, rfl⟩ := Prod.mk.inj (Except.ok.inj h)
    exact .refl s

/-! ## Destruction -/

/-- `env_destroy` marks an environment that runs elsewhere, and frees any other. -/
theorem does_envDestroy (h : s.envDestroy e = .ok (fl, s')) (hlive : Live s e)
    (hA : A e ∨ (s.envs e).envStatus = .running ∧ s.curenv ≠ some e) : Does A 0 s fl s' := by
  unfold envDestroy at h
  split at h
  · rename_i hrun
    obtain ⟨rfl, rfl⟩ := Prod.mk.inj (Except.ok.inj h)
    exact .of_acts (.single (.mark hlive (Or.inr ⟨rfl, hrun⟩) (.setEnv s e _)
      (slots_setStatus s e .dying) rfl rfl)) 0
  · rename_i hrun
    obtain ⟨s₁, hfree, h⟩ := bind_eq_ok.mp h
    have hfreed := freed_of_envFree hfree
    have hact : Act A 0 s s₁ := .free hlive (hA.resolve_right hrun) hfreed
    split at h
    · rename_i hc
      obtain ⟨s₂, hy, h⟩ := bind_eq_ok.mp h
      obtain ⟨rfl, rfl⟩ := Prod.mk.inj (Except.ok.inj h)
      have hdrop : Act A 0 s₁ (s₁.setCurenv none) := by
        refine .drop fun e' he' => ?_
        rw [hc] at he'
        obtain rfl := Option.some.inj he'
        exact hfreed.status
      exact Or.inr ⟨rfl, _, (Acts.single hact).trans (.single hdrop), leave_schedYield hy⟩
    · obtain ⟨rfl, rfl⟩ := Prod.mk.inj (Except.ok.inj h)
      exact .of_acts (.single hact) 0

theorem does_sysEnvDestroy {envid : Word} (hc : s.curenv = some c) (hlive : Live s c) (hAc : A c)
    (hx : Allowed A s (.envDestroy envid)) (h : s.sysEnvDestroy envid = .ok (fl, s')) :
    Does A 0 s fl s' := by
  unfold sysEnvDestroy at h
  rcases envid2env_cases hc hlive envid true with henv | ⟨e, henv, hle⟩
  · rw [henv] at h
    obtain ⟨rfl, rfl⟩ := Prod.mk.inj (Except.ok.inj h)
    exact .refl s _
  · rw [henv, ok_bind] at h
    simp only [Int.lt_irrefl, if_false, deref_some, ok_bind] at h
    obtain ⟨⟨fl₁, s₁⟩, hd, h⟩ := bind_eq_ok.mp h
    have hA : A e ∨ (s.envs e).envStatus = .running ∧ s.curenv ≠ some e := by
      rcases eq_or_ne e c with rfl | hne
      · exact Or.inl hAc
      · refine (hx e henv).imp id fun hrun => ⟨hrun, ?_⟩
        rw [hc]
        exact fun h0 => hne (Option.some.inj h0).symm
    have hdoes := does_envDestroy hd hle hA
    cases fl₁ with
    | left =>
      obtain ⟨rfl, rfl⟩ := Prod.mk.inj (Except.ok.inj h)
      exact hdoes
    | ret r =>
      obtain ⟨rfl, rfl⟩ := Prod.mk.inj (Except.ok.inj h)
      rcases hdoes with ⟨-, hacts⟩ | ⟨h0, -⟩
      · exact .of_acts hacts 0
      · cases h0

theorem does_userMemAssert {va len perm : Word} (hlive : Live s e) (hA : A e)
    (h : s.userMemAssert e va len perm = .ok (fl, s')) : Does A 0 s fl s' := by
  unfold userMemAssert at h
  obtain ⟨⟨r, s₁⟩, hchk, h⟩ := bind_eq_ok.mp h
  have hm := memoryOnly_of_userMemCheck hchk
  simp only at h
  split at h
  · have hle : Live s₁ e := by
      rw [Live, hm.envs]
      exact hlive
    rcases does_envDestroy h hle (Or.inl hA) with ⟨hr, hacts⟩ | ⟨hl, s₂, hacts, hleave⟩
    · exact Or.inl ⟨hr, (Acts.single hm.act).trans hacts⟩
    · exact Or.inr ⟨hl, s₂, (Acts.single hm.act).trans hacts, hleave⟩
  · obtain ⟨rfl, rfl⟩ := Prod.mk.inj (Except.ok.inj h)
    exact .of_acts (.single hm.act) 0

theorem does_sysCputs {str len : Word} (hc : s.curenv = some c) (hlive : Live s c) (hAc : A c)
    (h : s.sysCputs str len = .ok (fl, s')) : Does A 0 s fl s' := by
  unfold sysCputs at h
  rw [hc, deref_some, ok_bind] at h
  split at h
  · exact does_userMemAssert hlive hAc h
  · obtain ⟨rfl, rfl⟩ := Prod.mk.inj (Except.ok.inj h)
    exact .refl s 0

/-! ## Environments -/

theorem acts_sysExofork {r : ℤ} (h : s.sysExofork = .ok (r, s')) : ∃ n ≤ 1, Acts A n s s' := by
  unfold sysExofork at h
  obtain ⟨c, -, h⟩ := bind_eq_ok.mp h
  obtain ⟨⟨ret, o, s₁⟩, halloc, h⟩ := bind_eq_ok.mp h
  rcases envAlloc_cases halloc with ⟨hneg, hm⟩ | ⟨e, rfl, rfl, hal⟩
  · simp only [hneg, if_true] at h
    obtain ⟨-, rfl⟩ := Prod.mk.inj (Except.ok.inj h)
    exact ⟨0, Nat.zero_le 1, .single hm.act⟩
  · simp only [Int.lt_irrefl, if_false, deref_some, ok_bind] at h
    obtain ⟨-, rfl⟩ := Prod.mk.inj (Except.ok.inj h)
    exact ⟨1, Nat.le_refl 1, .single (.alloc (Or.inr rfl) (hal.setEnv rfl))⟩

theorem acts_sysEnvSetStatus {envid status : Word} {r : ℤ} (hc : s.curenv = some c)
    (hlive : Live s c) (hx : Allowed A s (.envSetStatus envid status))
    (h : s.sysEnvSetStatus envid status = .ok (r, s')) : Acts A 0 s s' := by
  unfold sysEnvSetStatus at h
  split at h
  · obtain ⟨-, rfl⟩ := Prod.mk.inj (Except.ok.inj h)
    exact .refl
  · rename_i hst
    have hset : Settable status := by
      unfold Settable
      tauto
    rcases envid2env_cases hc hlive envid true with henv | ⟨e, henv, hle⟩
    · rw [henv] at h
      obtain ⟨-, rfl⟩ := Prod.mk.inj (Except.ok.inj h)
      exact .refl
    · rw [henv] at h
      obtain ⟨-, rfl⟩ := Prod.mk.inj (Except.ok.inj h)
      refine .single (.mark hle (Or.inl ⟨hx hset e henv, ?_⟩) (.setEnv s e _)
        (slots_setStatus s e _) rfl rfl)
      split
      · exact Or.inl rfl
      · exact Or.inr rfl

theorem acts_sysEnvSetPgfaultUpcall {envid func : Word} {r : ℤ}
    (h : s.sysEnvSetPgfaultUpcall envid func = .ok (r, s')) : Acts A 0 s s' := by
  unfold sysEnvSetPgfaultUpcall at h
  obtain ⟨⟨ret, o⟩, -, h⟩ := bind_eq_ok.mp h
  simp only at h
  split at h
  · obtain ⟨-, rfl⟩ := Prod.mk.inj (Except.ok.inj h)
    exact .refl
  · obtain ⟨e, -, h⟩ := bind_eq_ok.mp h
    obtain ⟨-, rfl⟩ := Prod.mk.inj (Except.ok.inj h)
    exact .single (.quiet (.setEnv rfl))

/-! ## Messages -/

/-- The page transfer leaves slots and CPUs alone. -/
theorem quiet_of_ipcTransfer {r : ℕ} {srcva perm : Word} {stale : Option Word} {ret : ℤ}
    (h : s.ipcTransfer c r srcva perm stale = .ok (ret, s')) : Quiet s s' := by
  rcases ipcTransfer_outcome h with ⟨-, rfl⟩ |
    ⟨_, _, _, _, _, s₁, -, -, -, -, -, -, -, -, hins, hend⟩
  · exact .refl s'
  have hm := (memoryOnly_of_pageInsert hins).quiet
  rcases hend with ⟨-, rfl⟩ | ⟨-, rfl⟩
  · exact hm
  · exact hm.trans (.setEnv rfl)

theorem acts_sysIpcTrySend {envid value srcva perm : Word} {stale : Option Word} {r : ℤ}
    (hc : s.curenv = some c) (hlive : Live s c)
    (hx : Allowed A s (.ipcTrySend envid value srcva perm stale))
    (h : s.sysIpcTrySend envid value srcva perm stale = .ok (r, s')) : Acts A 0 s s' := by
  rcases sysIpcTrySend_outcome h with ⟨-, rfl⟩ | ⟨e, c', s₁, henv, hrecv, -, htr, hend⟩
  · exact .refl
  have hq := quiet_of_ipcTransfer htr
  rcases hend with ⟨-, rfl⟩ | ⟨-, rfl⟩
  · exact .single (.quiet hq)
  have hle : Live s e := by
    rcases envid2env_cases hc hlive envid false with h0 | ⟨e', henv', hle⟩
    · rw [h0] at henv
      cases henv
    · obtain ⟨-, h1⟩ := Prod.mk.inj (Except.ok.inj (henv'.symm.trans henv))
      obtain rfl := Option.some.inj h1
      exact hle
  have hle₁ : (s₁.slots e).envStatus ≠ .free := by
    rw [hq.slots]
    exact hle
  exact (Acts.single (.quiet hq)).trans (.single (.mark hle₁
    (Or.inl ⟨hx e henv hrecv, Or.inl rfl⟩) (.setEnv s₁ e _) (slots_setEnv s₁ e _) rfl rfl))

theorem does_sysIpcRecv {dstva : Word} (hc : s.curenv = some c) (hlive : Live s c) (hAc : A c)
    (h : s.sysIpcRecv dstva = .ok (fl, s')) : Does A 0 s fl s' := by
  unfold sysIpcRecv at h
  split at h
  · obtain ⟨rfl, rfl⟩ := Prod.mk.inj (Except.ok.inj h)
    exact .refl s _
  · rw [hc, deref_some, ok_bind] at h
    obtain ⟨s₁, hy, h⟩ := bind_eq_ok.mp h
    obtain ⟨rfl, rfl⟩ := Prod.mk.inj (Except.ok.inj h)
    exact Or.inr ⟨rfl, _, .single (.mark hlive (Or.inl ⟨hAc, Or.inr rfl⟩) (.setEnv s c _)
      (slots_setEnv s c _) rfl rfl), leave_schedYield hy⟩

/-! ## Handlers, traps and entries -/

/-- **Every handler is a sequence of acts**, with one allocation at most. -/
theorem does_handle {x : Syscall} (hc : s.curenv = some c) (hlive : Live s c) (hAc : A c)
    (hx : Allowed A s x) (h : s.handle x = .ok (fl, s')) : ∃ n ≤ 1, Does A n s fl s' := by
  cases x with
  | exofork =>
    cases hr : s.sysExofork with
    | error p =>
      rw [handle, hr] at h
      cases h
    | ok v =>
      rw [handle, hr] at h
      obtain ⟨rfl, rfl⟩ := Prod.mk.inj (Except.ok.inj h)
      obtain ⟨n, hn, hacts⟩ := acts_sysExofork (A := A) hr
      exact ⟨n, hn, .of_acts hacts v.1⟩
  | cputs str len => exact ⟨0, Nat.zero_le 1, does_sysCputs hc hlive hAc h⟩
  | cgetc ch =>
    obtain ⟨rfl, rfl⟩ := Prod.mk.inj (Except.ok.inj h)
    exact ⟨0, Nat.zero_le 1, .refl s ch⟩
  | getenvid =>
    refine ⟨0, Nat.zero_le 1, does_of_returning h fun r s' h' => ?_⟩
    unfold sysGetenvid at h'
    obtain ⟨_, -, h'⟩ := bind_eq_ok.mp h'
    obtain ⟨-, rfl⟩ := Prod.mk.inj (Except.ok.inj h')
    exact .refl
  | envDestroy envid => exact ⟨0, Nat.zero_le 1, does_sysEnvDestroy hc hlive hAc hx h⟩
  | pageAlloc envid va perm =>
    exact ⟨0, Nat.zero_le 1,
      does_of_returning h fun r s' h' => .single (memoryOnly_of_sysPageAlloc h').act⟩
  | pageMap srcenvid srcva dstenvid dstva perm =>
    exact ⟨0, Nat.zero_le 1,
      does_of_returning h fun r s' h' => .single (memoryOnly_of_sysPageMap h').act⟩
  | pageUnmap envid va =>
    exact ⟨0, Nat.zero_le 1,
      does_of_returning h fun r s' h' => .single (memoryOnly_of_sysPageUnmap h').act⟩
  | envSetStatus envid status =>
    exact ⟨0, Nat.zero_le 1,
      does_of_returning h fun r s' h' => acts_sysEnvSetStatus hc hlive hx h'⟩
  | envSetPgfaultUpcall envid func =>
    exact ⟨0, Nat.zero_le 1,
      does_of_returning h fun r s' h' => acts_sysEnvSetPgfaultUpcall h'⟩
  | yield =>
    obtain ⟨s₁, hy, h⟩ := bind_eq_ok.mp h
    obtain ⟨rfl, rfl⟩ := Prod.mk.inj (Except.ok.inj h)
    exact ⟨0, Nat.zero_le 1, does_schedYield hy⟩
  | ipcTrySend envid value srcva perm stale =>
    exact ⟨0, Nat.zero_le 1,
      does_of_returning h fun r s' h' => acts_sysIpcTrySend hc hlive hx h'⟩
  | ipcRecv dstva => exact ⟨0, Nat.zero_le 1, does_sysIpcRecv hc hlive hAc h⟩

/-- The frame of the upcall is written to memory. -/
theorem memoryOnly_of_pokeWords {va : Word} {ws : List Word} (h : s.pokeWords va ws = .ok s') :
    MemoryOnly s s' := by
  refine Lib.foldlM_invariant (P := MemoryOnly s) (fun b k b' hb hk => ?_) _ (.refl s) h
  refine hb.trans ?_
  unfold pokeByte at hk
  split at hk
  · cases hk
  · split at hk
    · obtain rfl := Except.ok.inj hk
      exact .setWord b _ _ _
    · cases hk

/-- `env_destroy` of the current environment does not return. -/
theorem envDestroy_curenv {r : ℤ} (hc : s.curenv = some e) :
    s.envDestroy e ≠ .ok (.ret r, s') := by
  intro h
  unfold envDestroy at h
  rw [if_neg fun h0 => h0.2 hc] at h
  obtain ⟨s₁, hfree, h⟩ := bind_eq_ok.mp h
  rw [(freed_of_envFree hfree).passive.cpuEnv, if_pos hc] at h
  obtain ⟨s₂, -, h⟩ := bind_eq_ok.mp h
  exact nomatch (Prod.mk.inj (Except.ok.inj h)).1

/-- `user_mem_assert` returns only if the check has passed. -/
theorem memoryOnly_of_userMemAssert {va len perm : Word} {r : ℤ} (hc : s.curenv = some e)
    (h : s.userMemAssert e va len perm = .ok (.ret r, s')) : MemoryOnly s s' := by
  unfold userMemAssert at h
  obtain ⟨⟨r', s₁⟩, hchk, h⟩ := bind_eq_ok.mp h
  have hm := memoryOnly_of_userMemCheck hchk
  simp only at h
  split at h
  · exact absurd h (envDestroy_curenv (by rw [hm.curenv]; exact hc))
  · obtain ⟨-, rfl⟩ := Prod.mk.inj (Except.ok.inj h)
    exact hm

theorem does_faultUpcall {faultVa : Word} (hc : s.curenv = some c)
    (hrun : (s.envs c).envStatus = .running) (hA : A c)
    (h : s.faultUpcall c faultVa = .ok (fl, s')) : Does A 0 s fl s' := by
  have hlive : Live s c := by
    rw [Live, hrun]
    simp
  unfold faultUpcall at h
  obtain ⟨⟨fl₁, s₁⟩, hassert, h⟩ := bind_eq_ok.mp h
  have hdoes := does_userMemAssert hlive hA hassert
  cases fl₁ with
  | left =>
    obtain ⟨rfl, rfl⟩ := Prod.mk.inj (Except.ok.inj h)
    exact hdoes
  | ret r =>
    obtain ⟨s₂, hpoke, h⟩ := bind_eq_ok.mp h
    obtain ⟨s₃, henv, h⟩ := bind_eq_ok.mp h
    obtain ⟨rfl, rfl⟩ := Prod.mk.inj (Except.ok.inj h)
    have hm := (memoryOnly_of_userMemAssert hc hassert).trans (memoryOnly_of_pokeWords hpoke)
    have hq : Quiet s _ := hm.quiet.trans (Quiet.setEnv (e := c) (v := { s₂.envs c with
      envTf := { (s₂.envs c).envTf with
        tfEip := (s₂.envs c).envPgfaultUpcall, tfEsp := utrapframeAddr (s.envs c).envTf.tfEsp } })
      rfl)
    obtain ⟨d, hran⟩ := ran_of_envRun henv
    refine Or.inr ⟨rfl, _, .single (.quiet hq), .run ?_ ?_ hran⟩
    · rw [hq.passive.cpuEnv]
      exact hc
    · rw [hq.slots]
      exact hrun

/-- `page_fault_handler`, for an environment that runs. -/
theorem does_pageFaultHandler {faultVa : Word} (hc : s.curenv = some c)
    (hrun : (s.envs c).envStatus = .running) (hA : A c)
    (h : s.pageFaultHandler faultVa = .ok (fl, s')) : Does A 0 s fl s' := by
  have hlive : Live s c := by
    rw [Live, hrun]
    simp
  unfold pageFaultHandler at h
  rw [hc, deref_some, ok_bind] at h
  split at h
  · cases h
  split at h
  · exact does_faultUpcall hc hrun hA h
  · exact does_envDestroy h hlive (Or.inl hA)

/-- The same for a trap. -/
def AllowedTrap (A : ℕ → Prop) (s : Kernel) : Trap → Prop
  | .syscall x => Allowed A s x
  | _ => True

theorem does_trapDispatch {t : Trap} (hc : s.curenv = some c)
    (hrun : (s.envs c).envStatus = .running) (hAc : A c)
    (hx : AllowedTrap A s t) (h : s.trapDispatch t = .ok (fl, s')) :
    ∃ n ≤ 1, Does A n s fl s' := by
  have hlive : Live s c := by
    rw [Live, hrun]
    simp
  cases t with
  | pageFault faultVa => exact ⟨0, Nat.zero_le 1, does_pageFaultHandler hc hrun hAc h⟩
  | timer =>
    obtain ⟨s₁, hy, h⟩ := bind_eq_ok.mp h
    obtain ⟨rfl, rfl⟩ := Prod.mk.inj (Except.ok.inj h)
    exact ⟨0, Nat.zero_le 1, does_schedYield hy⟩
  | spurious =>
    obtain ⟨rfl, rfl⟩ := Prod.mk.inj (Except.ok.inj h)
    exact ⟨0, Nat.zero_le 1, .refl s 0⟩
  | fault =>
    unfold trapDispatch at h
    rw [hc, deref_some, ok_bind] at h
    exact ⟨0, Nat.zero_le 1, does_envDestroy h hlive (Or.inl hAc)⟩
  | syscall x => exact does_handle hc hlive hAc hx h

/-- `envid2env` reads the id and the parent of environments, and whether they are free. -/
theorem envid2env_congr (hc : s'.curenv = s.curenv)
    (hst : ∀ e, (s'.envs e).envStatus = .free ↔ (s.envs e).envStatus = .free)
    (hid : ∀ e, (s'.envs e).envId = (s.envs e).envId)
    (hpar : ∀ e, (s'.envs e).envParentId = (s.envs e).envParentId) (envid : Word) (ck : Bool) :
    s'.envid2env envid ck = s.envid2env envid ck := by
  unfold envid2env
  simp only [hc, hst, hid, hpar]

/-- The state in which `trap_dispatch` is called. -/
def savedFrame (s : Kernel) (e : ℕ) (tf : Trapframe) : Kernel :=
  (s.note (.dispatch s.cpunum e)).setEnv e { s.envs e with envTf := tf }

theorem savedFrame_envs (s : Kernel) (e : ℕ) (tf : Trapframe) (j : ℕ) :
    ((s.savedFrame e tf).envs j).envStatus = (s.envs j).envStatus ∧
      ((s.savedFrame e tf).envs j).envId = (s.envs j).envId ∧
      ((s.savedFrame e tf).envs j).envParentId = (s.envs j).envParentId ∧
      ((s.savedFrame e tf).envs j).envIpcRecving = (s.envs j).envIpcRecving := by
  rcases eq_or_ne j e with rfl | hj
  · simp [savedFrame, setEnv]
  · simp [savedFrame, setEnv, Kernel.note, hj]

theorem savedFrame_envid2env (s : Kernel) (e : ℕ) (tf : Trapframe) :
    ∀ envid ck, (s.savedFrame e tf).envid2env envid ck = s.envid2env envid ck := by
  have hfield := savedFrame_envs s e tf
  exact envid2env_congr rfl (fun j => by rw [(hfield j).1]) (fun j => (hfield j).2.1)
    (fun j => (hfield j).2.2.1)

theorem AllowedTrap.savedFrame {t : Trap} (h : AllowedTrap A s t) (e : ℕ) (tf : Trapframe) :
    AllowedTrap A (s.savedFrame e tf) t := by
  have hfield := savedFrame_envs s e tf
  have henv := savedFrame_envid2env s e tf
  cases t with
  | syscall x =>
    cases x with
    | envSetStatus envid status =>
      intro hset j hj
      rw [henv] at hj
      exact h hset j hj
    | ipcTrySend envid value srcva perm stale =>
      intro j hj hrecv
      rw [henv] at hj
      rw [(hfield j).2.2.2] at hrecv
      exact h j hj hrecv
    | envDestroy envid =>
      intro j hj
      rw [henv] at hj
      rw [(hfield j).1]
      exact h j hj
    | _ => trivial
  | _ => trivial

/-- The result of a call goes to the saved frame. -/
theorem quiet_of_eax {r : ℤ} (h : s' = s ∨ s' = s.setEax e r) : Quiet s s' := by
  rcases h with rfl | rfl
  · exact .refl s'
  · exact .setEnv rfl

/-- The trap of a zombie. -/
theorem trap_of_dying (hc : s.curenv = some e) (hdy : (s.envs e).envStatus = .dying)
    (tf : Trapframe) (t : Trap) :
    s.trap tf t = (s.envFree e >>= fun s' => (s'.setCurenv none).schedYield) := by
  unfold trap
  rw [hc, deref_some, ok_bind, if_pos hdy]

/-- The trap of any other environment: a handler, which may leave, and the way back. -/
theorem trap_of_vital {tf : Trapframe} {t : Trap} (hc : s.curenv = some e)
    (hdy : (s.envs e).envStatus ≠ .dying) (h : s.trap tf t = .ok s') :
    ∃ fl s₁, (s.savedFrame e tf).trapDispatch t = .ok (fl, s₁) ∧
      (fl = .left ∧ s' = s₁ ∨
        ∃ r s₂, fl = .ret r ∧ (s₂ = s₁ ∨ s₂ = s₁.setEax e r) ∧ s₂.trapReturn = .ok s') := by
  unfold trap at h
  rw [hc, deref_some, ok_bind, if_neg hdy] at h
  obtain ⟨⟨fl, s₁⟩, hdisp, h⟩ := bind_eq_ok.mp h
  refine ⟨fl, s₁, hdisp, ?_⟩
  cases fl with
  | left => exact Or.inl ⟨rfl, (Except.ok.inj h).symm⟩
  | ret r =>
    refine Or.inr ⟨r, ?_⟩
    cases t with
    | syscall x => exact ⟨_, rfl, Or.inr rfl, h⟩
    | _ => exact ⟨s₁, rfl, Or.inl rfl, h⟩

/-- **A trap**: a zombie is freed and its CPU goes to the scheduler; any other
environment is served. -/
theorem trap_cases {tf : Trapframe} {t : Trap} (hc : s.curenv = some e)
    (hon : (s.envs e).envStatus = .running ∨ (s.envs e).envStatus = .dying) (hA : A e)
    (hx : AllowedTrap A s t) (h : s.trap tf t = .ok s') :
    ((s.envs e).envStatus = .dying ∧ ∃ s₁, Freed s s₁ e ∧ Leave (s₁.setCurenv none) s') ∨
    ((s.envs e).envStatus ≠ .dying ∧ ∃ n ≤ 1, ∃ s₁, Acts A n s s₁ ∧ Leave s₁ s') := by
  by_cases hdy : (s.envs e).envStatus = .dying
  · rw [trap_of_dying hc hdy] at h
    obtain ⟨s₁, hfree, h⟩ := bind_eq_ok.mp h
    exact Or.inl ⟨hdy, s₁, freed_of_envFree hfree, leave_schedYield h⟩
  · obtain ⟨fl, s₁, hdisp, hend⟩ := trap_of_vital hc hdy h
    have hquiet : Quiet (s.note (.dispatch s.cpunum e)) (s.savedFrame e tf) := .setEnv rfl
    have hsave : Acts A 0 s (s.savedFrame e tf) :=
      (Acts.single (.dispatch hc hdy)).tail (.quiet hquiet)
    have hrun : ((s.savedFrame e tf).envs e).envStatus = .running := by
      rw [(savedFrame_envs s e tf e).1]
      exact hon.resolve_right hdy
    obtain ⟨n, hn, hdoes⟩ : ∃ n ≤ 1, Does A n (s.savedFrame e tf) fl s₁ :=
      does_trapDispatch (c := e) hc hrun hA (hx.savedFrame e tf) hdisp
    refine Or.inr ⟨hdy, n, hn, ?_⟩
    rcases hend with ⟨rfl, rfl⟩ | ⟨r, s₂, rfl, hs₂, hret⟩
    · rcases hdoes with ⟨⟨r, h0⟩, -⟩ | ⟨-, s₂, hacts, hleave⟩
      · cases h0
      · have hall := hsave.trans hacts
        rw [Nat.zero_add] at hall
        exact ⟨s₂, hall, hleave⟩
    · rcases hdoes with ⟨-, hacts⟩ | ⟨h0, -⟩
      · have hall := (hsave.trans hacts).tail (.quiet (quiet_of_eax hs₂))
        rw [Nat.zero_add] at hall
        exact ⟨s₂, hall, leave_trapReturn hret⟩
      · cases h0

end Kernel
end PmakeOs
