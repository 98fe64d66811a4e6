import PmakeOs.Lib.Circle
import PmakeOs.Sched.Acts
import Mathlib.Tactic.IntervalCases

/-!
# Round robin

What `sched_yield` chooses, as a statement about the table alone, and what a sequence of
choices on one CPU cannot do.

The search starts just after the slot of `curenv` and goes all the way round, so the
choice is the runnable slot with the fewest steps ahead.  An environment that stays
runnable is never passed: every choice made before its own is strictly between the
current slot and it, and the way to it gets shorter each time.  That bounds how often any
other environment is chosen in the meantime, whatever happens to the statuses of the
others between two calls.
-/

namespace PmakeOs

open Lib

namespace Kernel

variable {s t : Kernel} {c e x : ℕ}

/-- `curenv`, if there is one, is a slot of the table, and its id names that slot. -/
def InSlot (s : Kernel) : Prop :=
  ∀ c, s.curenv = some c → c < nenv ∧ envx (s.envs c).envId = c

/-- The slot just after that of `curenv`, or the first. -/
def afterCurenv (s : Kernel) : ℕ :=
  match s.curenv with
  | none => 0
  | some c => next nenv c

/-- Environment `e` is the first runnable one in circular order from the slot after
`curenv` on. -/
structure FirstRunnable (s : Kernel) (e : ℕ) : Prop where
  lt : e < nenv
  runnable : (s.envs e).envStatus = .runnable
  first : ∀ j < nenv, (s.envs j).envStatus = .runnable →
    ahead nenv s.afterCurenv e ≤ ahead nenv s.afterCurenv j

/-- No environment is runnable. -/
def NoneRunnable (s : Kernel) : Prop := ∀ j < nenv, (s.envs j).envStatus ≠ .runnable

/-- `sched_yield` ends in `env_run(&envs[e])`, which leaves the kernel in state `t`. -/
def Enters (s : Kernel) (e : ℕ) (t : Kernel) : Prop :=
  s.schedYield = .ok t ∧ (s.note (.select s.cpunum e)).envRun e = .ok t

theorem afterCurenv_lt (h : s.InSlot) : s.afterCurenv < nenv := by
  unfold afterCurenv
  split
  · decide
  · exact next_lt (h _ ‹_›).1

/-- The modular search of the code is the walk round the circle. -/
theorem schedPick_eq (h : s.InSlot) :
    s.schedPick = (turn nenv s.afterCurenv).find? fun j => (s.envs j).envStatus = .runnable := by
  have hstart : s.afterCurenv = s.schedStart % nenv := by
    unfold afterCurenv schedStart
    cases hc : s.curenv with
    | none => rfl
    | some c =>
      show next nenv c = (envx (s.envs c).envId + 1) % nenv
      rw [(h c hc).2, next]
  rw [hstart, turn_mod]
  rfl

theorem firstRunnable_of_schedPick (h : s.InSlot) (hp : s.schedPick = some e) :
    FirstRunnable s e := by
  rw [schedPick_eq h] at hp
  obtain ⟨hlt, hrun, hfirst⟩ := find?_turn_eq_some (afterCurenv_lt h) hp
  exact ⟨hlt, of_decide_eq_true hrun, fun j hj hjr => hfirst j hj (decide_eq_true hjr)⟩

theorem noneRunnable_of_schedPick (h : s.InSlot) (hp : s.schedPick = none) : NoneRunnable s := by
  rw [schedPick_eq h] at hp
  exact fun j hj => of_decide_eq_false ((find?_turn_eq_none (afterCurenv_lt h)).mp hp j hj)

/-- **The three outcomes of `sched_yield`.** -/
theorem schedYield_cases (h : s.InSlot) :
    (∃ e, FirstRunnable s e ∧ s.schedYield = (s.note (.select s.cpunum e)).envRun e) ∨
    (NoneRunnable s ∧ ∃ c, s.curenv = some c ∧ (s.envs c).envStatus = .running ∧
      s.schedYield = (s.note (.select s.cpunum c)).envRun c) ∨
    (NoneRunnable s ∧ (∀ c, s.curenv = some c → (s.envs c).envStatus ≠ .running) ∧
      s.schedYield = .ok s.schedHalt) := by
  unfold schedYield
  cases hp : s.schedPick with
  | some e => exact Or.inl ⟨e, firstRunnable_of_schedPick h hp, rfl⟩
  | none =>
    have hnone := noneRunnable_of_schedPick h hp
    cases hc : s.curenv with
    | none => exact Or.inr (Or.inr ⟨hnone, fun _ hc' => (nomatch hc'), rfl⟩)
    | some c =>
      by_cases hrun : (s.envs c).envStatus = .running
      · exact Or.inr (Or.inl ⟨hnone, c, rfl, hrun, if_pos hrun⟩)
      · refine Or.inr (Or.inr ⟨hnone, fun c' hc' => ?_, if_neg hrun⟩)
        obtain rfl := Option.some.inj hc'
        exact hrun

/-! ## One environment at a time -/

theorem controlLog_of_envRun (h : s.envRun e = .ok t) : t.controlLog = s.controlLog := by
  obtain ⟨d, hran⟩ := ran_of_envRun h
  exact hran.controlLog

theorem controlLog_note_select (s : Kernel) (c e : ℕ) :
    (s.note (.select c e)).controlLog = .select c e :: s.controlLog := rfl

theorem controlLog_schedHalt (s : Kernel) : s.schedHalt.controlLog = s.controlLog := by
  unfold schedHalt
  split
  · rfl
  · simp [controlLog, setCpu, unlockKernel, lcr3, setCurenv]

theorem curenv_of_envRun (h : s.envRun e = .ok t) : t.curenv = some e := by
  obtain ⟨d, hran⟩ := ran_of_envRun h
  exact hran.cpu.1

/-- What is entered is what the search found, or `curenv`. -/
theorem Enters.choice (h : s.InSlot) (he : Enters s e t) :
    FirstRunnable s e ∨ NoneRunnable s ∧ s.curenv = some e ∧ (s.envs e).envStatus = .running := by
  obtain ⟨hyield, hrun⟩ := he
  have hlog := controlLog_of_envRun hrun
  rw [controlLog_note_select] at hlog
  -- The history tells which environment `t` came from.
  have hsame : ∀ e', (s.note (.select s.cpunum e')).envRun e' = .ok t → e' = e := by
    intro e' hrun'
    have hlog' := controlLog_of_envRun hrun'
    rw [controlLog_note_select, hlog] at hlog'
    exact (Event.select.inj (List.cons.inj hlog').1).2.symm
  rcases schedYield_cases h with ⟨e', hfirst, heq⟩ | ⟨hnone, c, hc, hst, heq⟩ | ⟨-, -, heq⟩
  · obtain rfl := hsame e' (heq.symm.trans hyield)
    exact Or.inl hfirst
  · obtain rfl := hsame c (heq.symm.trans hyield)
    exact Or.inr ⟨hnone, hc, hst⟩
  · obtain rfl := Except.ok.inj (heq.symm.trans hyield)
    rw [controlLog_schedHalt] at hlog
    exact absurd hlog.symm (List.cons_ne_self _ _)

/-! ## Sequences of calls -/

/-- `n` calls of `sched_yield` on one CPU.  At each the CPU has a `curenv`, which is what
the call before has entered; nothing else is kept from one call to the next. -/
structure YieldSeq (n : ℕ) (call : ℕ → Kernel) (chosen : ℕ → ℕ) : Prop where
  inSlot : ∀ k < n, (call k).InSlot
  curenv : ∀ k < n, (call k).curenv ≠ none
  enters : ∀ k < n, ∃ t, Enters (call k) (chosen k) t ∧
    (k + 1 < n → (call (k + 1)).curenv = t.curenv)

namespace YieldSeq

variable {n : ℕ} {call : ℕ → Kernel} {chosen : ℕ → ℕ}

theorem curenv_succ (h : YieldSeq n call chosen) {k : ℕ} (hk : k + 1 < n) :
    (call (k + 1)).curenv = some (chosen k) := by
  obtain ⟨t, ht, hnext⟩ := h.enters k (by omega)
  rw [hnext hk, curenv_of_envRun ht.2]

/-- While `x` is runnable, the choice is not past `x`. -/
theorem firstRunnable (h : YieldSeq n call chosen) {k : ℕ} (hk : k < n) (hx : x < nenv)
    (hrun : ((call k).envs x).envStatus = .runnable) : FirstRunnable (call k) (chosen k) := by
  obtain ⟨t, ht, -⟩ := h.enters k hk
  rcases ht.choice (h.inSlot k hk) with hfirst | ⟨hnone, -, -⟩
  · exact hfirst
  · exact absurd hrun (hnone x hx)

/-- One call brings the start of the search closer to `x`, or chooses `x`. -/
theorem ahead_lt (h : YieldSeq n call chosen) {k : ℕ} (hk : k + 1 < n) (hx : x < nenv)
    (hrun : ((call k).envs x).envStatus = .runnable) (hne : chosen k ≠ x) :
    ahead nenv (call (k + 1)).afterCurenv x < ahead nenv (call k).afterCurenv x := by
  have hfirst := h.firstRunnable (Nat.lt_of_succ_lt hk) hx hrun
  obtain ⟨c, hc⟩ := Option.ne_none_iff_exists'.mp (h.curenv k (Nat.lt_of_succ_lt hk))
  have hcn := (h.inSlot k (Nat.lt_of_succ_lt hk) c hc).1
  have hle := hfirst.first x hx hrun
  have hstart : (call k).afterCurenv = next nenv c := by rw [afterCurenv, hc]
  have hstart' : (call (k + 1)).afterCurenv = next nenv (chosen k) := by
    rw [afterCurenv, h.curenv_succ hk]
  rw [hstart] at hle ⊢
  rw [hstart']
  exact ahead_next_lt hcn hfirst.lt hx hle hne

/-- Along calls that do not choose `x` the way to `x` never gets longer. -/
theorem ahead_le (h : YieldSeq n call chosen) (hx : x < nenv)
    (hrun : ∀ k < n, ((call k).envs x).envStatus = .runnable) {i : ℕ} (m : ℕ) (hm : i + m < n)
    (hne : ∀ k, i ≤ k → k < i + m → chosen k ≠ x) :
    ahead nenv (call (i + m)).afterCurenv x ≤ ahead nenv (call i).afterCurenv x := by
  induction m with
  | zero => exact le_rfl
  | succ m ih =>
    have hstep := h.ahead_lt (k := i + m) hm hx (hrun _ (by omega)) (hne _ (by omega) (by omega))
    have hrest := ih (by omega) fun k hik hk => hne k hik (by omega)
    exact hstep.le.trans hrest

/-- **Bounded overtaking.**  Between two choices of another environment there is a choice of
the one that stays runnable. -/
theorem exists_chosen (h : YieldSeq n call chosen) (hx : x < nenv)
    (hrun : ∀ k < n, ((call k).envs x).envStatus = .runnable) {i j : ℕ} (hij : i < j) (hj : j < n)
    (heq : chosen i = chosen j) (hne : chosen j ≠ x) : ∃ k, i < k ∧ k < j ∧ chosen k = x := by
  by_contra hno
  have hnot : ∀ k, i + 1 ≤ k → k < j → chosen k ≠ x := fun k hik hk hck => hno ⟨k, hik, hk, hck⟩
  obtain ⟨m, rfl⟩ : ∃ m, j = i + 1 + m := Nat.exists_eq_add_of_le hij
  have hle := h.ahead_le hx hrun m hj hnot
  -- The choice at `j` moves the start to where it already was after call `i`.
  have hfirst := h.firstRunnable hj hx (hrun _ hj)
  obtain ⟨c, hc⟩ := Option.ne_none_iff_exists'.mp (h.curenv _ hj)
  have hcn := (h.inSlot _ hj c hc).1
  have hfx := hfirst.first x hx (hrun _ hj)
  have hstart : (call (i + 1 + m)).afterCurenv = next nenv c := by rw [afterCurenv, hc]
  have hstart' : (call (i + 1)).afterCurenv = next nenv (chosen (i + 1 + m)) := by
    rw [afterCurenv, h.curenv_succ (by omega), heq]
  rw [hstart] at hfx hle
  rw [hstart'] at hle
  exact absurd (ahead_next_lt hcn hfirst.lt hx hfx hne) (by omega)

end YieldSeq

/-- **`sched_yield` is round robin.**  It enters the first runnable environment after
`curenv`, else `curenv` if that is still running, else it halts; what it enters is never an
environment that is marked running and is not this CPU's own; and in a sequence of calls
an environment that stays runnable is chosen before any other is chosen twice. -/
theorem schedYield_roundRobin :
    (∀ s : Kernel, s.InSlot →
      (∃ e, FirstRunnable s e ∧ s.schedYield = (s.note (.select s.cpunum e)).envRun e) ∨
      (NoneRunnable s ∧ ∃ c, s.curenv = some c ∧ (s.envs c).envStatus = .running ∧
        s.schedYield = (s.note (.select s.cpunum c)).envRun c) ∨
      (NoneRunnable s ∧ (∀ c, s.curenv = some c → (s.envs c).envStatus ≠ .running) ∧
        s.schedYield = .ok s.schedHalt)) ∧
    (∀ (s t : Kernel) (e : ℕ), s.InSlot → Enters s e t → (s.envs e).envStatus = .running →
      s.curenv = some e) ∧
    (∀ (n : ℕ) (call : ℕ → Kernel) (chosen : ℕ → ℕ) (x : ℕ), YieldSeq n call chosen → x < nenv →
      (∀ k < n, ((call k).envs x).envStatus = .runnable) →
      ∀ i j, i < j → j < n → chosen i = chosen j → chosen j ≠ x →
        ∃ k, i < k ∧ k < j ∧ chosen k = x) := by
  refine ⟨fun s h => schedYield_cases h, fun s t e h he hrun => ?_,
    fun n call chosen x h hx hrun i j hij hj heq hne => h.exists_chosen hx hrun hij hj heq hne⟩
  rcases he.choice h with hfirst | ⟨-, hc, -⟩
  · rw [hfirst.runnable] at hrun
    cases hrun
  · exact hc

/-! ### Two runnable environments -/

/-- The environments of slots 1 and 2 are runnable, and `c` is `curenv`. -/
def twoRunnable (c : ℕ) : Kernel where
  npages := 16
  pages _ := ⟨none, 0#16⟩
  pageFreeList := none
  phys _ _ := 0#32
  kernPgdir := 1
  envs e :=
    { envTf := freshTrapframe
      envLink := none
      envId := nextEnvId 0#32 e
      envParentId := 0
      envStatus := if e = 1 ∨ e = 2 then .runnable else .free
      envRuns := 0
      envCpunum := 0
      envPgdir := some (e + 2)
      envPgfaultUpcall := 0
      envIpcRecving := false
      envIpcDstva := 0
      envIpcValue := 0
      envIpcFrom := 0
      envIpcPerm := 0 }
  envFreeList := none
  cpus _ := ⟨.started, some c, false, 0, []⟩
  cpunum := 0
  kernelLock := some 0
  userMemCheckAddr := 0
  log := []

theorem inSlot_twoRunnable {c : ℕ} (hc : c < 3) : (twoRunnable c).InSlot := by
  intro c' hc'
  obtain rfl : c = c' := Option.some.inj hc'
  interval_cases c <;> decide

theorem enters_twoRunnable {c e : ℕ} (h : (twoRunnable c).schedPick = some e) :
    ∃ t, Enters (twoRunnable c) e t ∧ t.curenv = some e := by
  obtain ⟨t, ht⟩ := exists_envRun (s := (twoRunnable c).note (.select (twoRunnable c).cpunum e))
    (e := e) rfl
  refine ⟨t, ⟨?_, ht⟩, curenv_of_envRun ht⟩
  unfold schedYield
  rw [h]
  exact ht

/-- Slot 1 is chosen twice, and slot 2 in between. -/
theorem yieldSeq_twoRunnable :
    YieldSeq 3 (fun k => twoRunnable ([0, 1, 2].getD k 0)) fun k => [1, 2, 1].getD k 0 := by
  constructor
  · intro k hk
    exact inSlot_twoRunnable (by interval_cases k <;> decide)
  · exact fun k _ => Option.some_ne_none _
  · intro k hk
    interval_cases k
    · obtain ⟨t, ht, hc⟩ := enters_twoRunnable (c := 0) (e := 1) (by decide +kernel)
      exact ⟨t, ht, fun _ => hc.symm⟩
    · obtain ⟨t, ht, hc⟩ := enters_twoRunnable (c := 1) (e := 2) (by decide +kernel)
      exact ⟨t, ht, fun _ => hc.symm⟩
    · obtain ⟨t, ht, hc⟩ := enters_twoRunnable (c := 2) (e := 1) (by decide +kernel)
      exact ⟨t, ht, fun h => absurd h (by decide)⟩

theorem schedYield_roundRobin_twoRunnable :
    (twoRunnable 0).InSlot ∧ ∃ k, 0 < k ∧ k < 2 ∧ [1, 2, 1].getD k 0 = 2 :=
  ⟨inSlot_twoRunnable (by decide),
    schedYield_roundRobin.2.2 3 _ _ 2 yieldSeq_twoRunnable (by decide) (fun _ _ => rfl) 0 2
      (by decide) (by decide) rfl (by decide)⟩

end Kernel
end PmakeOs
