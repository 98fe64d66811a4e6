import PmakeOs.Sched.Entries
import PmakeOs.Lib.LinkedList

/-!
# Who runs where

`Calm s` is the invariant of the multiprocessor between kernel entries: every CPU
in user mode runs an environment of its own, whose status says so and whose
directory it has loaded, and the free slots are threaded by `env_free_list`.
`Inner s` is the same inside a kernel entry, with nothing asked of the executing
CPU.

An act keeps `Inner` if the slots it may write belong to environments that no
other CPU runs, and leaving the kernel restores `Calm`.
-/

namespace PmakeOs

open Lib

namespace Kernel

variable {s s' : Kernel} {A : ℕ → Prop} {e c n : ℕ} {x : Entry}

/-- The environment is marked as being on a CPU. -/
def OnCpu (s : Kernel) (e : ℕ) : Prop :=
  (s.slots e).envStatus = .running ∨ (s.slots e).envStatus = .dying

/-- CPU `c` runs an environment in user mode, with the directory of that environment
loaded. -/
def RunsUser (s : Kernel) (c : ℕ) : Prop :=
  ∃ e, (s.cpus c).cpuEnv = some e ∧ OnCpu s e ∧ (s.slots e).envPgdir = some (s.cpus c).cr3

/-- `env_free_list` threads free slots. -/
def FreeSlots (s : Kernel) : Prop :=
  ∃ l, Threads (fun e => (s.slots e).envLink) s.envFreeList l ∧
    ∀ e ∈ l, (s.slots e).envStatus = .free

structure Inner (s : Kernel) : Prop where
  slots : FreeSlots s
  user : ∀ c, c ≠ s.cpunum → (s.cpus c).userMode = true → RunsUser s c
  idle : ∀ c, c ≠ s.cpunum → (s.cpus c).userMode = false → (s.cpus c).cpuEnv = none
  one : ∀ c c' e, (s.cpus c).cpuEnv = some e → (s.cpus c').cpuEnv = some e → c = c'
  /-- An environment that is marked as being on a CPU is on one. -/
  busy : ∀ e, OnCpu s e → ∃ c, (s.cpus c).cpuEnv = some e
  kernel : (s.cpus s.cpunum).userMode = false
  locked : s.kernelLock ≠ none

structure Calm (s : Kernel) : Prop where
  slots : FreeSlots s
  user : ∀ c, (s.cpus c).userMode = true → RunsUser s c
  idle : s.kernelLock = none → ∀ c, (s.cpus c).userMode = false → (s.cpus c).cpuEnv = none
  one : ∀ c c' e, (s.cpus c).cpuEnv = some e → (s.cpus c').cpuEnv = some e → c = c'
  busy : ∀ e, OnCpu s e → ∃ c, (s.cpus c).cpuEnv = some e

/-! ## The free slots -/

theorem FreeSlots.head (h : FreeSlots s) (he : s.envFreeList = some e) :
    (s.slots e).envStatus = .free := by
  obtain ⟨l, ht, hl⟩ := h
  rw [he] at ht
  obtain ⟨l', rfl, -⟩ := ht.exists_cons
  exact hl e List.mem_cons_self

/-- Slots that are not free do not matter. -/
theorem FreeSlots.frame (h : FreeSlots s)
    (hs : ∀ e, (s.slots e).envStatus = .free → s'.slots e = s.slots e)
    (hf : s'.envFreeList = s.envFreeList) : FreeSlots s' := by
  obtain ⟨l, ht, hl⟩ := h
  refine ⟨l, ?_, fun e he => by rw [hs e (hl e he)]; exact hl e he⟩
  rw [hf]
  exact ht.frame fun e he => by rw [hs e (hl e he)]

theorem FreeSlots.alloc {st : EnvStatus} (h : FreeSlots s) (ha : Allocated s s' e st) :
    FreeSlots s' := by
  obtain ⟨l, ht, hl⟩ := h
  obtain ⟨d, hs⟩ := ha.slots
  rw [ha.head] at ht
  have hnd := ht.nodup
  obtain ⟨l', rfl, ht'⟩ := ht.exists_cons
  have hne : ∀ j ∈ l', j ≠ e := by
    rintro j hj rfl
    exact (List.nodup_cons.mp hnd).1 hj
  refine ⟨l', ?_, fun j hj => ?_⟩
  · rw [ha.envFreeList]
    refine ht'.frame fun j hj => ?_
    rw [hs, Function.update_of_ne (hne j hj)]
  · rw [hs, Function.update_of_ne (hne j hj)]
    exact hl j (List.mem_cons_of_mem e hj)

theorem FreeSlots.free (h : FreeSlots s) (hlive : (s.slots e).envStatus ≠ .free)
    (hfr : Freed s s' e) : FreeSlots s' := by
  obtain ⟨l, ht, hl⟩ := h
  have hmem : e ∉ l := fun he => hlive (hl e he)
  refine ⟨e :: l, ?_, fun j hj => ?_⟩
  · rw [hfr.envFreeList]
    refine .cons ?_
    rw [hfr.slots, Function.update_self]
    refine ht.frame fun j hj => ?_
    rw [Function.update_of_ne]
    rintro rfl
    exact hmem hj
  · rw [hfr.slots]
    rcases List.mem_cons.mp hj with rfl | hj'
    · rw [Function.update_self]
    · have hne : j ≠ e := by
        rintro rfl
        exact hmem hj'
      rw [Function.update_of_ne hne]
      exact hl j hj'

/-! ## Acts -/

/-- No other CPU runs an environment with `A`. -/
def Reserved (A : ℕ → Prop) (s : Kernel) : Prop :=
  ∀ e, A e → ∀ c, c ≠ s.cpunum → (s.cpus c).cpuEnv ≠ some e

/-- The CPUs during an act. -/
theorem Act.cpus (h : Act A n s s') : s'.cpunum = s.cpunum ∧ s'.kernelLock = s.kernelLock ∧
    (∀ c, c ≠ s.cpunum → s'.cpus c = s.cpus c) ∧
    (s'.cpus s.cpunum).userMode = (s.cpus s.cpunum).userMode ∧
    ((s'.cpus s.cpunum).cpuEnv = (s.cpus s.cpunum).cpuEnv ∨
      (s'.cpus s.cpunum).cpuEnv = none ∧
        ∀ e, s.curenv = some e → (s.slots e).envStatus = .free) := by
  have hpass : ∀ {s s' : Kernel}, Passive s s' → s'.cpunum = s.cpunum ∧
      s'.kernelLock = s.kernelLock ∧ (∀ c, c ≠ s.cpunum → s'.cpus c = s.cpus c) ∧
      (s'.cpus s.cpunum).userMode = (s.cpus s.cpunum).userMode ∧
      (s'.cpus s.cpunum).cpuEnv = (s.cpus s.cpunum).cpuEnv := by
    intro s s' hp
    have hu := hp.userMode
    have hc := hp.cpuEnv
    rw [thiscpu, thiscpu, hp.cpunum] at hu
    rw [curenv, curenv, hp.cpunum] at hc
    exact ⟨hp.cpunum, hp.kernelLock, hp.other, hu, hc⟩
  cases h with
  | quiet h =>
    obtain ⟨h1, h2, h3, h4, h5⟩ := hpass h.passive
    exact ⟨h1, h2, h3, h4, Or.inl h5⟩
  | alloc _ h =>
    obtain ⟨h1, h2, h3, h4, h5⟩ := hpass h.passive
    exact ⟨h1, h2, h3, h4, Or.inl h5⟩
  | mark _ _ hp =>
    obtain ⟨h1, h2, h3, h4, h5⟩ := hpass hp
    exact ⟨h1, h2, h3, h4, Or.inl h5⟩
  | free _ _ h =>
    obtain ⟨h1, h2, h3, h4, h5⟩ := hpass h.passive
    exact ⟨h1, h2, h3, h4, Or.inl h5⟩
  | drop h =>
    refine ⟨rfl, rfl, fun c hc => ?_, ?_, Or.inr ⟨?_, h⟩⟩
    · simp [setCurenv, setCpu, hc]
    · simp [setCurenv, setCpu, thiscpu]
    · simp [setCurenv, setCpu]
  | dispatch _ _ => exact ⟨rfl, rfl, fun _ _ => rfl, rfl, Or.inl rfl⟩

/-- No act marks an environment as being on a CPU. -/
theorem Act.onCpu_of (h : Act A n s s') (hon : OnCpu s' e) : OnCpu s e := by
  have hupd : ∀ {s s' : Kernel} {j : ℕ} {v : Slot}, s'.slots = Function.update s.slots j v →
      (v.envStatus = .running ∨ v.envStatus = .dying → OnCpu s j) → OnCpu s' e → OnCpu s e := by
    intro s s' j v hs hv hon
    unfold OnCpu at hon
    rw [hs] at hon
    rcases eq_or_ne e j with rfl | hj
    · rw [Function.update_self] at hon
      exact hv hon
    · rw [Function.update_of_ne hj] at hon
      exact hon
  cases h with
  | quiet h =>
    unfold OnCpu at hon ⊢
    rw [h.slots] at hon
    exact hon
  | alloc hst h =>
    obtain ⟨d, hs⟩ := h.slots
    refine hupd hs (fun h0 => ?_) hon
    rcases hst with rfl | rfl <;> simp at h0
  | mark _ hA _ hs _ _ =>
    refine hupd hs (fun h0 => ?_) hon
    rcases hA with ⟨-, rfl | rfl⟩ | ⟨-, hrun, -⟩
    · simp at h0
    · simp at h0
    · exact Or.inl hrun
  | free _ _ h =>
    refine hupd h.slots (fun h0 => ?_) hon
    simp at h0
  | drop _ => exact hon
  | dispatch _ _ => exact hon

/-- An environment that another CPU runs stays on that CPU, with its directory. -/
theorem Act.keeps (h : Act A n s s') (hf : FreeSlots s) (hA : Reserved A s) (hc : c ≠ s.cpunum)
    (he : (s.cpus c).cpuEnv = some e) (hon : OnCpu s e) :
    OnCpu s' e ∧ (s'.slots e).envPgdir = (s.slots e).envPgdir := by
  have hne : ∀ {s s' : Kernel} {j : ℕ} {v : Slot}, s'.slots = Function.update s.slots j v →
      e ≠ j → OnCpu s e → OnCpu s' e ∧ (s'.slots e).envPgdir = (s.slots e).envPgdir := by
    intro s s' j v hs hj hon
    unfold OnCpu
    rw [hs, Function.update_of_ne hj]
    exact ⟨hon, rfl⟩
  cases h with
  | quiet h =>
    unfold OnCpu
    rw [h.slots]
    exact ⟨hon, rfl⟩
  | @alloc _ _ j st hst h =>
    obtain ⟨d, hs⟩ := h.slots
    refine hne hs ?_ hon
    rintro rfl
    have hfree := hf.head h.head
    unfold OnCpu at hon
    rw [hfree] at hon
    simp at hon
  | @mark _ _ j st _ hA' _ hs _ _ =>
    rcases hA' with ⟨hj, -⟩ | ⟨rfl, -, -⟩
    · refine hne hs ?_ hon
      rintro rfl
      exact hA e hj c hc he
    · rcases eq_or_ne e j with rfl | hj
      · unfold OnCpu
        rw [hs, Function.update_self]
        exact ⟨Or.inr rfl, rfl⟩
      · exact hne hs hj hon
  | @free _ _ j _ hj h =>
    refine hne h.slots ?_ hon
    rintro rfl
    exact hA e hj c hc he
  | drop _ => exact ⟨hon, rfl⟩
  | dispatch _ _ => exact ⟨hon, rfl⟩

theorem FreeSlots.act (h : FreeSlots s) (ha : Act A n s s') : FreeSlots s' := by
  cases ha with
  | quiet hq => exact h.frame (fun _ _ => by rw [hq.slots]) hq.envFreeList
  | alloc _ hal => exact h.alloc hal
  | mark hlive _ _ hs hf _ =>
    refine h.frame (fun j hj => ?_) hf
    rw [hs, Function.update_of_ne]
    rintro rfl
    exact hlive hj
  | free hlive _ hfr => exact h.free hlive hfr
  | drop _ => exact h
  | dispatch _ _ => exact h

/-- **An act keeps the invariant of the inside.** -/
theorem Inner.act (h : Inner s) (hA : Reserved A s) (ha : Act A n s s') : Inner s' := by
  obtain ⟨hn, hlock, hother, hmode, hown⟩ := ha.cpus
  -- a CPU that has an environment after the act had it before
  have hback : ∀ {c e}, (s'.cpus c).cpuEnv = some e → (s.cpus c).cpuEnv = some e := by
    intro c e he
    rcases eq_or_ne c s.cpunum with rfl | hc
    · rcases hown with h0 | ⟨h0, -⟩
      · rw [← h0]
        exact he
      · rw [h0] at he
        cases he
    · rw [hother c hc] at he
      exact he
  constructor
  · exact h.slots.act ha
  · intro c hc hu
    rw [hn] at hc
    rw [hother c hc] at hu
    obtain ⟨e, he, hon, hd⟩ := h.user c hc hu
    obtain ⟨hon', hpg⟩ := ha.keeps h.slots hA hc he hon
    refine ⟨e, ?_, hon', ?_⟩
    · rw [hother c hc]
      exact he
    · rw [hother c hc, hpg]
      exact hd
  · intro c hc hu
    rw [hn] at hc
    rw [hother c hc] at hu ⊢
    exact h.idle c hc hu
  · exact fun c c' e he he' => h.one c c' e (hback he) (hback he')
  · intro e hon
    have hon₀ := ha.onCpu_of hon
    obtain ⟨c, hc⟩ := h.busy e hon₀
    refine ⟨c, ?_⟩
    rcases eq_or_ne c s.cpunum with rfl | hne
    · rcases hown with h0 | ⟨-, h0⟩
      · rw [h0]
        exact hc
      · -- the environment that this CPU let go of was free
        unfold OnCpu at hon₀
        rw [h0 e hc] at hon₀
        simp at hon₀
    · rw [hother c hne]
      exact hc
  · rw [hn, hmode]
    exact h.kernel
  · rw [hlock]
    exact h.locked

theorem Reserved.act (h : Reserved A s) (ha : Act A n s s') : Reserved A s' := by
  obtain ⟨hn, -, hother, -⟩ := ha.cpus
  intro e he c hc
  rw [hn] at hc
  rw [hother c hc]
  exact h e he c hc

/-- The environment of the executing CPU is no zombie. -/
def Vital (s : Kernel) : Prop := ∀ e, s.curenv = some e → (s.slots e).envStatus ≠ .dying

theorem Vital.act (h : Vital s) (ha : Act A n s s') : Vital s' := by
  have hupd : ∀ {s s' : Kernel} {j : ℕ} {v : Slot}, Vital s → s'.curenv = s.curenv →
      s'.slots = Function.update s.slots j v →
      (s.curenv = some j → v.envStatus ≠ .dying) → Vital s' := by
    intro s s' j v h hc hs hv e he
    rw [hc] at he
    rw [hs]
    rcases eq_or_ne e j with rfl | hj
    · rw [Function.update_self]
      exact hv he
    · rw [Function.update_of_ne hj]
      exact h e he
  cases ha with
  | quiet hq =>
    intro e he
    rw [hq.passive.cpuEnv] at he
    rw [hq.slots]
    exact h e he
  | alloc hst hal =>
    obtain ⟨d, hs⟩ := hal.slots
    refine hupd h hal.passive.cpuEnv hs fun _ => ?_
    rcases hst with rfl | rfl <;> simp
  | mark _ hA hp hs _ _ =>
    refine hupd h hp.cpuEnv hs fun hcur => ?_
    rcases hA with ⟨-, rfl | rfl⟩ | ⟨-, -, hne⟩
    · simp
    · simp
    · exact absurd hcur hne
  | free _ _ hfr => exact hupd h hfr.passive.cpuEnv hfr.slots fun _ => by simp
  | drop _ =>
    intro e he
    simp [curenv, setCurenv, setCpu] at he
  | dispatch _ _ => exact h

/-- What holds after a sequence of acts. -/
theorem Inner.acts (h : Inner s) (hA : Reserved A s) (ha : Acts A n s s') :
    Inner s' ∧ Reserved A s' := by
  induction ha with
  | refl => exact ⟨h, hA⟩
  | tail _ hstep ih =>
    obtain ⟨hi, hr⟩ := ih h hA
    exact ⟨hi.act hr hstep, hr.act hstep⟩

theorem Vital.acts (h : Vital s) (ha : Acts A n s s') : Vital s' := by
  induction ha with
  | refl => exact h
  | tail _ hstep ih => exact (ih h).act hstep

/-! ## Leaving and entering -/

/-- `env_run` of an environment that may run makes the system calm. -/
theorem Inner.ran {d : ℕ} (h : Inner s) (hv : Vital s) (hst : (s.slots e).envStatus = .runnable ∨
      s.curenv = some e ∧ (s.slots e).envStatus = .running) (hr : Ran s s' e d) : Calm s' := by
  obtain ⟨hcpu, hmode, hcr3⟩ := hr.cpu
  rw [thiscpu, hr.cpunum] at hcpu hmode hcr3
  -- no other CPU has `e`
  have hfree : ∀ c, c ≠ s.cpunum → (s.cpus c).cpuEnv ≠ some e := by
    intro c hc he
    rcases hst with hrun | ⟨hcur, -⟩
    · cases hu : (s.cpus c).userMode with
      | true =>
        obtain ⟨e', he', hon, -⟩ := h.user c hc hu
        rw [he] at he'
        obtain rfl := Option.some.inj he'
        unfold OnCpu at hon
        rw [hrun] at hon
        simp at hon
      | false =>
        rw [h.idle c hc hu] at he
        cases he
    · exact hc (h.one c s.cpunum e he hcur)
  have hslot : ∀ j, j ≠ e → ¬ (s.curenv = some j ∧ (s.slots j).envStatus = .running) →
      s'.slots j = s.slots j := by
    intro j hj hcur
    rw [hr.slots, ranSlots, if_neg hj, if_neg hcur]
  constructor
  · refine h.slots.frame (fun j hj => hslot j ?_ ?_) hr.envFreeList
    · rintro rfl
      rw [hj] at hst
      simp at hst
    · rintro ⟨-, hrun⟩
      rw [hj] at hrun
      cases hrun
  · intro c hu
    rcases eq_or_ne c s.cpunum with rfl | hc
    · refine ⟨e, hcpu, Or.inl ?_, ?_⟩
      · rw [hr.slots, ranSlots, if_pos rfl]
      · rw [hr.slots, ranSlots, if_pos rfl, hcr3]
        exact hr.pgdir
    · rw [hr.other c hc] at hu
      obtain ⟨e', he', hon, hd⟩ := h.user c hc hu
      have hne : e' ≠ e := by
        rintro rfl
        exact hfree c hc he'
      have hkeep := hslot e' hne fun hcur => hc (h.one c s.cpunum e' he' hcur.1)
      refine ⟨e', ?_, ?_, ?_⟩
      · rw [hr.other c hc]
        exact he'
      · unfold OnCpu
        rw [hkeep]
        exact hon
      · rw [hr.other c hc, hkeep]
        exact hd
  · intro _ c hu
    rcases eq_or_ne c s.cpunum with rfl | hc
    · rw [hmode] at hu
      cases hu
    · rw [hr.other c hc] at hu ⊢
      exact h.idle c hc hu
  · intro c c' j hj hj'
    rcases eq_or_ne c s.cpunum with rfl | hc
    · rcases eq_or_ne c' s.cpunum with rfl | hc'
      · rfl
      · rw [hcpu] at hj
        rw [hr.other c' hc', ← hj] at hj'
        exact absurd hj' (hfree c' hc')
    · rcases eq_or_ne c' s.cpunum with rfl | hc'
      · rw [hcpu] at hj'
        rw [hr.other c hc, ← hj'] at hj
        exact absurd hj (hfree c hc)
      · rw [hr.other c hc] at hj
        rw [hr.other c' hc'] at hj'
        exact h.one c c' j hj hj'
  · intro j hon
    rcases eq_or_ne j e with rfl | hj
    · exact ⟨s.cpunum, hcpu⟩
    · by_cases hcur : s.curenv = some j ∧ (s.slots j).envStatus = .running
      · unfold OnCpu at hon
        rw [hr.slots, ranSlots, if_neg hj, if_pos hcur] at hon
        simp at hon
      · unfold OnCpu at hon
        rw [hslot j hj hcur] at hon
        obtain ⟨c, hc⟩ := h.busy j hon
        refine ⟨c, ?_⟩
        rcases eq_or_ne c s.cpunum with rfl | hne
        · rcases hon with hrun | hdy
          · exact absurd ⟨hc, hrun⟩ hcur
          · exact absurd hdy (hv j hc)
        · rw [hr.other c hne]
          exact hc

/-- **Leaving the kernel makes the system calm.** -/
theorem Inner.leave (h : Inner s) (hv : Vital s) (hl : Leave s s') : Calm s' := by
  cases hl with
  | run hcur hst hran => exact h.ran hv (Or.inr ⟨hcur, hst⟩) hran
  | @select _ e d hst hran =>
    have h' : Inner (s.note (.select s.cpunum e)) :=
      ⟨h.slots, h.user, h.idle, h.one, h.busy, h.kernel, h.locked⟩
    exact h'.ran hv hst hran
  | halt hcur hs hf hn hlock hother hcpu hl =>
    obtain ⟨hnone, hmode⟩ := hcpu
    rw [thiscpu, hn] at hnone
    rw [thiscpu, thiscpu, hn] at hmode
    have hone : ∀ {c e}, (s'.cpus c).cpuEnv = some e →
        c ≠ s.cpunum ∧ (s.cpus c).cpuEnv = some e := by
      intro c e he
      rcases eq_or_ne c s.cpunum with rfl | hc
      · rw [hnone] at he
        cases he
      · rw [hother c hc] at he
        exact ⟨hc, he⟩
    constructor
    · exact h.slots.frame (fun _ _ => by rw [hs]) hf
    · intro c hu
      rcases eq_or_ne c s.cpunum with rfl | hc
      · rw [hmode, h.kernel] at hu
        cases hu
      · rw [hother c hc] at hu
        obtain ⟨e, he, hon, hd⟩ := h.user c hc hu
        unfold RunsUser OnCpu
        rw [hother c hc, hs]
        exact ⟨e, he, hon, hd⟩
    · intro _ c hu
      rcases eq_or_ne c s.cpunum with rfl | hc
      · exact hnone
      · rw [hother c hc] at hu ⊢
        exact h.idle c hc hu
    · exact fun c c' e he he' => h.one c c' e (hone he).2 (hone he').2
    · intro e hon
      unfold OnCpu at hon
      rw [hs] at hon
      obtain ⟨c, hc⟩ := h.busy e hon
      refine ⟨c, ?_⟩
      rcases eq_or_ne c s.cpunum with rfl | hne
      · rcases hon with hrun | hdy
        · exact absurd hrun (hcur e hc)
        · exact absurd hdy (hv e hc)
      · rw [hother c hne]
        exact hc
  | monitor =>
    refine ⟨h.slots, fun c hu => ?_, fun h0 => absurd h0 h.locked, h.one, h.busy⟩
    rcases eq_or_ne c s.cpunum with rfl | hc
    · rw [h.kernel] at hu
      cases hu
    · exact h.user c hc hu

theorem enter_cpus_of_ne (s : Kernel) {c c' : ℕ} (h : c' ≠ c) :
    (s.enter c).cpus c' = s.cpus c' := by
  simp [enter, setCpu, h]

theorem enter_cpuEnv (s : Kernel) (c c' : ℕ) :
    ((s.enter c).cpus c').cpuEnv = (s.cpus c').cpuEnv := by
  rcases eq_or_ne c' c with rfl | h
  · simp [enter, setCpu, thiscpu]
  · rw [enter_cpus_of_ne s h]

theorem Calm.enter (h : Calm s) (hlock : s.kernelLock = none) (c : ℕ) : Inner (s.enter c) := by
  constructor
  · exact h.slots
  · intro c' hc hu
    have hc' : c' ≠ c := hc
    rw [enter_cpus_of_ne s hc'] at hu
    unfold RunsUser
    rw [enter_cpus_of_ne s hc']
    exact h.user c' hu
  · intro c' hc hu
    have hc' : c' ≠ c := hc
    rw [enter_cpus_of_ne s hc'] at hu ⊢
    exact h.idle hlock c' hu
  · intro c₁ c₂ e he he'
    rw [enter_cpuEnv] at he he'
    exact h.one c₁ c₂ e he he'
  · intro e hon
    obtain ⟨c', hc'⟩ := h.busy e hon
    exact ⟨c', by rw [enter_cpuEnv]; exact hc'⟩
  · simp [Kernel.enter, setCpu]
  · simp [Kernel.enter, setCpu]

/-! ## A whole entry -/

/-- The environments whose slots the entry may write run on no other CPU, except
that a running one may be marked as dying. -/
def Orderly (s : Kernel) (c : ℕ) : Entry → Prop
  | .trap _ t => AllowedTrap (fun e => ¬ Elsewhere s c e) (s.enter c) t
  | .schedule => True

theorem curenv_enter (s : Kernel) (c : ℕ) : (s.enter c).curenv = (s.cpus c).cpuEnv := by
  show ((s.enter c).cpus c).cpuEnv = _
  exact enter_cpuEnv s c c

theorem reserved_enter (s : Kernel) (c : ℕ) :
    Reserved (fun e => ¬ Elsewhere s c e) (s.enter c) := by
  intro e he c' hc h0
  rw [enter_cpuEnv] at h0
  exact he ⟨c', hc, h0⟩

theorem not_onCpu_of_free (h : (s.slots e).envStatus = .free) : ¬ OnCpu s e := by
  unfold OnCpu
  rw [h]
  simp

/-- **An orderly entry from a calm state**: the environment of the CPU is a zombie
and freed, or it is served with one allocation at most. -/
theorem Calm.entry_cases (h : Calm s) (hx : CanEnter s c x) (ho : Orderly s c x)
    (hrun : s.entry c x = .ok s') :
    (∃ e s₁, (s.cpus c).cpuEnv = some e ∧ (s.slots e).envStatus = .dying ∧
      ¬ Elsewhere s c e ∧ Freed (s.enter c) s₁ e ∧ Leave (s₁.setCurenv none) s') ∨
    ((∀ e, (s.cpus c).cpuEnv = some e → (s.slots e).envStatus ≠ .dying) ∧
      ∃ n ≤ 1, ∃ s₁, Acts (fun e => ¬ Elsewhere s c e) n (s.enter c) s₁ ∧ Leave s₁ s') := by
  cases x with
  | schedule =>
    obtain ⟨-, -, hnone⟩ := hx
    refine Or.inr ⟨fun e he => ?_, 0, Nat.zero_le 1, s.enter c, .refl, leave_schedYield hrun⟩
    rw [hnone] at he
    cases he
  | trap tf t =>
    obtain ⟨e, he, hon, -⟩ := h.user c hx.2
    have hcur : (s.enter c).curenv = some e := by
      rw [curenv_enter]
      exact he
    have hmine : ¬ Elsewhere s c e := by
      rintro ⟨c', hc', he'⟩
      exact hc' (h.one c' c e he' he)
    rcases trap_cases hcur hon hmine ho hrun with ⟨hdy, s₁, hfreed, hleave⟩ |
      ⟨hdy, n, hn, s₁, hacts, hleave⟩
    · exact Or.inl ⟨e, s₁, he, hdy, hmine, hfreed, hleave⟩
    · refine Or.inr ⟨fun e' he' => ?_, n, hn, s₁, hacts, hleave⟩
      rw [he] at he'
      obtain rfl := Option.some.inj he'
      exact hdy

/-- The two acts of a CPU whose environment is a zombie. -/
theorem acts_of_zombie {s₁ : Kernel} (hcur : s.curenv = some e)
    (hlive : (s.slots e).envStatus ≠ .free) (hA : A e) (hf : Freed s s₁ e) :
    Acts A 0 s (s₁.setCurenv none) := by
  refine (Acts.single (.free hlive hA hf)).tail (.drop fun e' he' => ?_)
  rw [hf.passive.cpuEnv, hcur] at he'
  obtain rfl := Option.some.inj he'
  exact hf.status

/-- **An orderly entry is a sequence of acts, and a way to leave.** -/
theorem Calm.passage (h : Calm s) (hx : CanEnter s c x) (ho : Orderly s c x)
    (hrun : s.entry c x = .ok s') :
    ∃ n s₁, Acts (fun e => ¬ Elsewhere s c e) n (s.enter c) s₁ ∧ Leave s₁ s' ∧ Vital s₁ := by
  rcases h.entry_cases hx ho hrun with ⟨e, s₁, he, hdy, hmine, hfreed, hleave⟩ |
    ⟨hv, n, -, s₁, hacts, hleave⟩
  · have hcur : (s.enter c).curenv = some e := by
      rw [curenv_enter]
      exact he
    have hlive : ((s.enter c).slots e).envStatus ≠ .free := by
      show (s.slots e).envStatus ≠ .free
      rw [hdy]
      simp
    refine ⟨0, _, acts_of_zombie hcur hlive hmine hfreed, hleave, fun e' he' => ?_⟩
    simp [curenv, setCurenv, setCpu] at he'
  · have hvital : Vital (s.enter c) := by
      intro e he
      rw [curenv_enter] at he
      exact hv e he
    exact ⟨n, s₁, hacts, hleave, hvital.acts hacts⟩

theorem CanEnter.lock (h : CanEnter s c x) : s.kernelLock = none := by
  cases x with
  | trap tf t => exact h.1
  | schedule => exact h.1

/-- **An orderly entry keeps the system calm.** -/
theorem Calm.entry (h : Calm s) (hx : CanEnter s c x) (ho : Orderly s c x)
    (hrun : s.entry c x = .ok s') : Calm s' := by
  obtain ⟨n, s₁, hacts, hleave, hv⟩ := h.passage hx ho hrun
  exact ((h.enter hx.lock c).acts (reserved_enter s c) hacts).1.leave hv hleave

theorem Acts.other (h : Acts A n s s') : s'.cpunum = s.cpunum ∧
    ∀ c, c ≠ s.cpunum → s'.cpus c = s.cpus c := by
  induction h with
  | refl => exact ⟨rfl, fun _ _ => rfl⟩
  | tail _ ha ih =>
    obtain ⟨hn, hother⟩ := ih
    obtain ⟨hn', -, hother', -⟩ := ha.cpus
    exact ⟨hn'.trans hn, fun c hc => (hother' c (by rw [hn]; exact hc)).trans (hother c hc)⟩

theorem Leave.other (h : Leave s s') (hc : c ≠ s.cpunum) : s'.cpus c = s.cpus c := by
  cases h with
  | run _ _ h => exact h.other c hc
  | select _ h => exact h.other c hc
  | halt _ _ _ _ _ hother _ _ => exact hother c hc
  | monitor => rfl

/-- An entry of CPU `c` leaves the other CPUs alone. -/
theorem Calm.entry_other {c' : ℕ} (h : Calm s) (hx : CanEnter s c x) (ho : Orderly s c x)
    (hrun : s.entry c x = .ok s') (hc : c' ≠ c) : s'.cpus c' = s.cpus c' := by
  obtain ⟨n, s₁, hacts, hleave, -⟩ := h.passage hx ho hrun
  obtain ⟨hn, hother⟩ := hacts.other
  have hc' : c' ≠ s₁.cpunum := by
    rw [hn]
    exact hc
  rw [hleave.other hc', hother c' hc, enter_cpus_of_ne s hc]

/-! ## Runs -/

/-- A run of kernel entries of the kind `K`, by any CPUs in any order. -/
def SmpRun (K : Kernel → ℕ → Entry → Prop) : Kernel → Kernel → Prop :=
  Relation.ReflTransGen fun s s' => ∃ c x, CanEnter s c x ∧ K s c x ∧ s.entry c x = .ok s'

/-- **An orderly run keeps the system calm.** -/
theorem Calm.run {K : Kernel → ℕ → Entry → Prop} {s₀ : Kernel} (h0 : Calm s₀)
    (hK : ∀ {s c x}, Calm s → CanEnter s c x → K s c x → Orderly s c x) (h : SmpRun K s₀ s) :
    Calm s := by
  induction h with
  | refl => exact h0
  | tail _ hstep ih =>
    obtain ⟨c, x, hx, hk, hrun⟩ := hstep
    exact ih.entry hx (hK ih hx hk) hrun

/-- The system before the first environment runs: no CPU has one, and none is
marked as being on a CPU. -/
structure Unstarted (s : Kernel) : Prop where
  slots : FreeSlots s
  lock : s.kernelLock = none
  cpus : ∀ c, (s.cpus c).userMode = false ∧ (s.cpus c).cpuEnv = none
  envs : ∀ e, ¬ OnCpu s e

theorem Unstarted.calm (h : Unstarted s) : Calm s := by
  refine ⟨h.slots, fun c hu => ?_, fun _ c _ => (h.cpus c).2, fun c c' e he _ => ?_,
    fun e hon => absurd hon (h.envs e)⟩
  · rw [(h.cpus c).1] at hu
    cases hu
  · rw [(h.cpus c).2] at he
    cases he

end Kernel
end PmakeOs
