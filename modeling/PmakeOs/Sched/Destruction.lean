import PmakeOs.Sched.Exclusion

/-!
# Deferred destruction

`env_destroy` only marks an environment that runs on another CPU; the trap path of
that CPU frees it.  It decides from `env_status` alone, so a second request, when
the environment is no longer `ENV_RUNNING` but `ENV_DYING`, frees it at once.

`env_free` is recorded in the log.  In runs where no request names an environment
that is dying, every `env_free` that an entry records is of an environment that no
other CPU has.
-/

namespace PmakeOs
namespace Kernel

variable {s s' s₀ : Kernel} {A : ℕ → Prop} {c e n : ℕ} {x : Entry}

/-! ## What an entry records -/

theorem controlLog_note (s : Kernel) {ev : Event} (h : ev.isMemory = false) :
    (s.note ev).controlLog = ev :: s.controlLog := by
  simp [controlLog, Kernel.note, h]

/-- An act records that an environment with `A` was freed, or that this CPU serves
its environment. -/
theorem Act.log (h : Act A n s s') : s'.controlLog = s.controlLog ∨
    (∃ e, A e ∧ s'.controlLog = .envFree s.cpunum e :: s.controlLog) ∨
    ∃ e, s.curenv = some e ∧ s'.controlLog = .dispatch s.cpunum e :: s.controlLog := by
  cases h with
  | quiet h => exact Or.inl h.controlLog
  | alloc _ h => exact Or.inl h.controlLog
  | mark _ _ _ _ _ hl => exact Or.inl hl
  | free _ hA h => exact Or.inr (Or.inl ⟨_, hA, h.controlLog⟩)
  | drop _ => exact Or.inl rfl
  | dispatch he _ => exact Or.inr (Or.inr ⟨_, he, controlLog_note s rfl⟩)

/-- The log has grown by events with `P`. -/
def Records (P : Event → Prop) (l l' : List Event) : Prop :=
  ∃ new, l' = new ++ l ∧ ∀ ev ∈ new, P ev

variable {P : Event → Prop} {l l' : List Event} {ev : Event}

theorem Records.refl (P : Event → Prop) (l : List Event) : Records P l l :=
  ⟨[], rfl, fun _ h => nomatch h⟩

theorem Records.cons (h : Records P l l') (hev : P ev) : Records P l (ev :: l') := by
  obtain ⟨new, rfl, hnew⟩ := h
  refine ⟨ev :: new, rfl, fun ev' hmem => ?_⟩
  rcases List.mem_cons.mp hmem with rfl | hmem
  · exact hev
  · exact hnew ev' hmem

theorem Records.mono {P' : Event → Prop} (h : Records P l l') (hP : ∀ ev, P ev → P' ev) :
    Records P' l l' := by
  obtain ⟨new, hnew, hev⟩ := h
  exact ⟨new, hnew, fun ev hmem => hP ev (hev ev hmem)⟩

/-- The events of acts of CPU `c`, whose environment is `o` when it enters. -/
def ActEvent (A : ℕ → Prop) (c : ℕ) (o : Option ℕ) (ev : Event) : Prop :=
  (∃ e, A e ∧ ev = .envFree c e) ∨ ∃ e, o = some e ∧ ev = .dispatch c e

theorem Acts.records (h : Acts A n s s') :
    Records (ActEvent A s.cpunum s.curenv) s.controlLog s'.controlLog ∧
      s'.cpunum = s.cpunum ∧ (s'.curenv = s.curenv ∨ s'.curenv = none) := by
  induction h with
  | refl => exact ⟨.refl _ _, rfl, Or.inl rfl⟩
  | @tail _ s₁ s₂ _ _ _ ha ih =>
    obtain ⟨hrec, hn, hcur⟩ := ih
    obtain ⟨hn', -, -, -, hown⟩ := ha.cpus
    refine ⟨?_, hn'.trans hn, ?_⟩
    · rcases ha.log with hl | ⟨e, hA, hl⟩ | ⟨e, he, hl⟩
      · rw [hl]
        exact hrec
      · rw [hl, hn]
        exact hrec.cons (Or.inl ⟨e, hA, rfl⟩)
      · rw [hl, hn]
        refine hrec.cons (Or.inr ⟨e, ?_, rfl⟩)
        rcases hcur with h0 | h0
        · rw [← h0]
          exact he
        · rw [h0] at he
          cases he
    · have hsame : s₂.curenv = s₁.curenv ∨ s₂.curenv = none := by
        unfold curenv
        rw [hn']
        exact hown.imp id And.left
      rcases hsame with h0 | h0
      · rw [h0]
        exact hcur
      · exact Or.inr h0

theorem Leave.log (h : Leave s s') : s'.controlLog = s.controlLog ∨
    ∃ e, ((s.slots e).envStatus = .runnable ∨
        s.curenv = some e ∧ (s.slots e).envStatus = .running) ∧
      s'.controlLog = .select s.cpunum e :: s.controlLog := by
  cases h with
  | run _ _ h => exact Or.inl h.controlLog
  | select hst h => exact Or.inr ⟨_, hst, h.controlLog.trans (controlLog_note s rfl)⟩
  | halt _ _ _ _ _ _ _ hl => exact Or.inl hl
  | monitor => exact Or.inl rfl

/-- The events of an entry. -/
def EntryEvent (A : ℕ → Prop) (c : ℕ) (o : Option ℕ) (ev : Event) : Prop :=
  ActEvent A c o ev ∨ ∃ e, ev = .select c e

/-- **What an orderly entry of CPU `c` records.** -/
theorem Calm.records (h : Calm s) (hx : CanEnter s c x) (ho : Orderly s c x)
    (hrun : s.entry c x = .ok s') :
    Records (EntryEvent (fun e => ¬ Elsewhere s c e) c (s.cpus c).cpuEnv) s.controlLog
      s'.controlLog := by
  obtain ⟨n, s₁, hacts, hleave, -⟩ := h.passage hx ho hrun
  obtain ⟨hrec, hn, -⟩ := hacts.records
  rw [curenv_enter] at hrec
  have hn' : s₁.cpunum = c := hn
  have hrec' : Records (EntryEvent (fun e => ¬ Elsewhere s c e) c (s.cpus c).cpuEnv)
      s.controlLog s₁.controlLog := hrec.mono fun ev hev => Or.inl hev
  rcases hleave.log with hl | ⟨e, -, hl⟩
  · rw [hl]
    exact hrec'
  · rw [hl, hn']
    exact hrec'.cons (Or.inr ⟨e, rfl⟩)

/-! ## Runs of destruction -/

/-- The environment waits to be run.  One that has never run does. -/
def Waiting (s : Kernel) (e : ℕ) : Prop :=
  (s.envs e).envStatus = .runnable ∨ (s.envs e).envStatus = .notRunnable

/-- The entries that create, start and destroy environments: the scheduler,
`sys_exofork`, `sys_env_destroy` with any id, faults, and `sys_env_set_status` to
start an environment that waits. -/
def Lifecycle (s : Kernel) (c : ℕ) : Entry → Prop
  | .schedule | .trap _ .timer | .trap _ .fault => True
  | .trap _ .spurious | .trap _ (.pageFault _) => False
  | .trap _ (.syscall x) => match x with
    | .yield | .exofork | .envDestroy _ => True
    | .envSetStatus envid status => status = EnvStatus.runnable.toWord ∧
        ∀ e, (s.enter c).envid2env envid true = .ok (0, some e) → Waiting s e
    | _ => False

/-- The entry is not a request to destroy an environment that is dying already. -/
def FirstRequest (s : Kernel) (c : ℕ) : Entry → Prop
  | .trap _ (.syscall (.envDestroy envid)) =>
      ∀ e, (s.enter c).envid2env envid true = .ok (0, some e) → (s.envs e).envStatus ≠ .dying
  | _ => True

/-- An environment that another CPU has is on that CPU. -/
theorem Calm.onCpu_of_elsewhere (h : Calm s) (hlock : s.kernelLock = none)
    (he : Elsewhere s c e) : OnCpu s e := by
  obtain ⟨c', -, hc'⟩ := he
  cases hu : (s.cpus c').userMode with
  | true =>
    obtain ⟨e', he', hon, -⟩ := h.user c' hu
    rw [hc'] at he'
    obtain rfl := Option.some.inj he'
    exact hon
  | false =>
    rw [h.idle hlock c' hu] at hc'
    cases hc'

theorem Calm.orderly (h : Calm s) (hx : CanEnter s c x) (hl : Lifecycle s c x)
    (hf : FirstRequest s c x) : Orderly s c x := by
  cases x with
  | schedule => trivial
  | trap tf t =>
    cases t with
    | syscall y =>
      cases y with
      | envSetStatus envid status =>
        intro _ e henv helse
        have hon := h.onCpu_of_elsewhere hx.1 helse
        have hwait := hl.2 e henv
        unfold OnCpu at hon
        unfold Waiting at hwait
        simp only [slots_envStatus] at hon
        rcases hwait with hst | hst <;> simp [hst] at hon
      | envDestroy envid =>
        intro e henv
        by_cases helse : Elsewhere s c e
        · exact Or.inr ((h.onCpu_of_elsewhere hx.1 helse).resolve_right (hf e henv))
        · exact Or.inl helse
      | ipcTrySend => exact absurd hl id
      | _ => trivial
    | _ => trivial

/-- **`env_free` is never applied to an environment that another CPU has**, in runs
of creation and destruction in which no request names an environment that is
dying; and every CPU in user mode runs on the directory of a live environment. -/
theorem envFree_not_elsewhere (h0 : Unstarted s₀)
    (h : SmpRun (fun s c x => Lifecycle s c x ∧ FirstRequest s c x) s₀ s) :
    (∀ c x s', CanEnter s c x → Lifecycle s c x → FirstRequest s c x → s.entry c x = .ok s' →
      ∃ new, s'.controlLog = new ++ s.controlLog ∧
        ∀ c' e, .envFree c' e ∈ new → c' = c ∧ ¬ Elsewhere s c e) ∧
    ∀ c, (s.cpus c).userMode = true → ∃ e, (s.cpus c).cpuEnv = some e ∧ Live s e ∧
      (s.envs e).envPgdir = some (s.cpus c).cr3 := by
  have hcalm : Calm s := h0.calm.run (fun hc hx hk => hc.orderly hx hk.1 hk.2) h
  constructor
  · intro c x s' hx hl hf hrun
    obtain ⟨new, hnew, hev⟩ := hcalm.records hx (hcalm.orderly hx hl hf) hrun
    refine ⟨new, hnew, fun c' e hmem => ?_⟩
    rcases hev _ hmem with (⟨e', hA, heq⟩ | ⟨e', -, heq⟩) | ⟨e', heq⟩
    · obtain ⟨rfl, rfl⟩ := Event.envFree.inj heq
      exact ⟨rfl, hA⟩
    · cases heq
    · cases heq
  · intro c hu
    obtain ⟨e, he, hon, hd⟩ := hcalm.user c hu
    exact ⟨e, he, fun hfree => not_onCpu_of_free hfree hon, hd⟩

/-! ## Two requests -/

theorem SmpRun.mono {K K' : Kernel → ℕ → Entry → Prop} (h : SmpRun K s₀ s)
    (hK : ∀ s c x, K s c x → K' s c x) : SmpRun K' s₀ s := by
  induction h with
  | refl => exact .refl
  | tail _ hstep ih =>
    obtain ⟨c, x, hx, hk, hrun⟩ := hstep
    exact ih.tail ⟨c, x, hx, hK _ c x hk, hrun⟩

theorem twoRunning_lifecycle :
    SmpRun (fun s c x => Lifecycle s c x ∧ FirstRequest s c x) oneEnv twoRunning := by
  refine twoRunning_run (fun _ _ => ⟨trivial, trivial⟩) ⟨trivial, trivial⟩
    ⟨⟨rfl, fun e henv => ?_⟩, trivial⟩
  obtain ⟨rfl, -⟩ := eq_envx_of_envid2env (by decide) henv
  exact Or.inr (by decide +kernel)

/-- The theorem on the run in which the environment forks a child and the child is
started. -/
theorem envFree_not_elsewhere_twoRunning :
    Unstarted oneEnv ∧
      SmpRun (fun s c x => Lifecycle s c x ∧ FirstRequest s c x) oneEnv twoRunning ∧
      ∃ e, (twoRunning.cpus 1).cpuEnv = some e ∧ Live twoRunning e ∧
        (twoRunning.envs e).envPgdir = some (twoRunning.cpus 1).cr3 :=
  ⟨oneEnv_unstarted, twoRunning_lifecycle,
    (envFree_not_elsewhere oneEnv_unstarted twoRunning_lifecycle).2 1 (by decide +kernel)⟩

/-- **A second request frees a running environment**: the child runs on CPU 1 and is
dying when its parent asks again. -/
theorem not_envFree_not_elsewhere :
    ¬ ∀ s₀ s, Unstarted s₀ → SmpRun Lifecycle s₀ s →
      ∀ c x s', CanEnter s c x → Lifecycle s c x → s.entry c x = .ok s' →
        ∃ new, s'.controlLog = new ++ s.controlLog ∧
          ∀ c' e, .envFree c' e ∈ new → ¬ Elsewhere s c e := by
  intro hall
  have hdy : SmpRun Lifecycle oneEnv (twoRunning.after 0 (sysEntry (.envDestroy 0x1001#32))) :=
    (twoRunning_lifecycle.mono fun _ _ _ hk => hk.1).next (by decide +kernel) trivial
      (by decide +kernel)
  have hstep : (twoRunning.after 0 (sysEntry (.envDestroy 0x1001#32))).entry 0
      (sysEntry (.envDestroy 0x1001#32)) =
      .ok ((twoRunning.after 0 (sysEntry (.envDestroy 0x1001#32))).after 0
        (sysEntry (.envDestroy 0x1001#32))) := entry_eq_ok_after (by decide +kernel)
  obtain ⟨new, hnew, hev⟩ := hall _ _ oneEnv_unstarted hdy 0
    (sysEntry (.envDestroy 0x1001#32)) _ (by decide +kernel) trivial hstep
  have hlog : ((twoRunning.after 0 (sysEntry (.envDestroy 0x1001#32))).after 0
      (sysEntry (.envDestroy 0x1001#32))).controlLog = [.envFree 0 1, .dispatch 0 0] ++
        (twoRunning.after 0 (sysEntry (.envDestroy 0x1001#32))).controlLog := by
    decide +kernel
  rw [hlog] at hnew
  obtain rfl := List.append_cancel_right hnew
  exact hev 0 1 List.mem_cons_self ⟨1, by decide, by decide +kernel⟩

end Kernel
end PmakeOs
