import PmakeOs.Sched.Destruction

/-!
# Destruction is final

An environment that `sys_env_destroy` was told to destroy is `Gone`: its slot is
free, or it is dying.  In orderly runs it stays so until its slot is allocated
anew, which changes the id of the slot.

* `laterEnvId_ne` --- the ids of a slot recur after `2 ^ 19 - 1` allocations, the
  number of generations of twelve bits above the sign, and not before.
* `Gone.entry` --- an orderly entry leaves the environment gone, or is the one that
  allocates its slot; it neither selects the environment nor serves it.
* `RunsTo K v k s s'` --- a run of entries of kind `K` in which slot `v` was given a
  new id `k` times.
-/

namespace PmakeOs

open Lib

namespace Kernel

variable {s s' s₀ : Kernel} {A : ℕ → Prop} {c e v n k : ℕ} {x : Entry} {id : Word}

/-! ## Generations -/

/-- A generation with the number of a slot in its low ten bits. -/
theorem toNat_generation_or (w : Word) {e : ℕ} (he : e < nenv) :
    ((w &&& ~~~ BitVec.ofNat 32 (nenv - 1)) ||| BitVec.ofNat 32 e).toNat =
      w.toNat / 1024 * 1024 + e := by
  have he' : (BitVec.ofNat 32 e).toNat = e := by
    rw [nenv] at he
    rw [BitVec.toNat_ofNat, Nat.mod_eq_of_lt (by omega)]
  have hmod : (w &&& ~~~ BitVec.ofNat 32 (nenv - 1)).toNat % 2 ^ 10 = 0 := by
    have hmask : (w &&& ~~~ BitVec.ofNat 32 (nenv - 1)) &&& BitVec.ofNat 32 (2 ^ 10 - 1) = 0#32 := by
      rw [BitVec.and_assoc]
      simp [nenv]
    rw [← toNat_and_mask _ (by omega : 10 ≤ 32), hmask]
    rfl
  have hdiv : (w &&& ~~~ BitVec.ofNat 32 (nenv - 1)).toNat / 2 ^ 10 = w.toNat / 2 ^ 10 :=
    toNat_and_not_mask_div w 10
  have hlow : ((w &&& ~~~ BitVec.ofNat 32 (nenv - 1)) ||| BitVec.ofNat 32 e).toNat % 2 ^ 10 = e := by
    rw [BitVec.toNat_or, Nat.or_mod_two_pow, hmod, he', Nat.zero_or]
    exact Nat.mod_eq_of_lt he
  have hhigh : ((w &&& ~~~ BitVec.ofNat 32 (nenv - 1)) ||| BitVec.ofNat 32 e).toNat / 2 ^ 10 =
      w.toNat / 2 ^ 10 := by
    rw [toNat_or_div_of_lt _ (by rw [he']; exact he), hdiv]
  omega

/-- The next id of slot `e`: the generation goes up, and one that would be zero or
negative is replaced by the first. -/
theorem toNat_nextEnvId (old : Word) {e : ℕ} (he : e < nenv) :
    (nextEnvId old e).toNat =
      if (old.toNat + 4096) % 2 ^ 32 / 1024 = 0 ∨ 2 ^ 31 ≤ (old.toNat + 4096) % 2 ^ 32
        then 4096 + e else (old.toNat + 4096) % 2 ^ 32 / 1024 * 1024 + e := by
  have hw : (old + BitVec.ofNat 32 (2 ^ 12)).toNat = (old.toNat + 4096) % 2 ^ 32 := by
    rw [BitVec.toNat_add]
    rfl
  have hg := toNat_generation_or (old + BitVec.ofNat 32 (2 ^ 12)) (e := 0) (by decide)
  rw [BitVec.or_zero, Nat.add_zero, hw] at hg
  have hsign : ((old + BitVec.ofNat 32 (2 ^ 12)) &&& ~~~ BitVec.ofNat 32 (nenv - 1)).toInt ≤ 0 ↔
      (old.toNat + 4096) % 2 ^ 32 / 1024 = 0 ∨ 2 ^ 31 ≤ (old.toNat + 4096) % 2 ^ 32 := by
    rw [BitVec.toInt_eq_toNat_cond, hg]
    split <;> omega
  unfold nextEnvId
  simp only [hsign]
  split
  · have h0 := toNat_generation_or (BitVec.ofNat 32 (2 ^ 12)) he
    rw [show BitVec.ofNat 32 (2 ^ 12) &&& ~~~ BitVec.ofNat 32 (nenv - 1) = BitVec.ofNat 32 (2 ^ 12)
      by decide] at h0
    rw [h0]
    rfl
  · rw [toNat_generation_or _ he, hw]

/-- The id that slot `e` has after `k` allocations. -/
def laterEnvId (id : Word) (e k : ℕ) : Word := (fun old => nextEnvId old e)^[k] id

theorem laterEnvId_succ (id : Word) (e k : ℕ) :
    laterEnvId id e (k + 1) = nextEnvId (laterEnvId id e k) e :=
  Function.iterate_succ_apply' _ k id

/-- The generations go up from `id`, or have started again at one: then the first
start was when those from `id` ran out. -/
theorem laterEnvId_cases {id : Word} {e : ℕ} (he : e < nenv) (hid : id.toNat % 1024 = e)
    (hpos : id.toNat < 2 ^ 31) (k : ℕ) :
    ((laterEnvId id e k).toNat = id.toNat + 4096 * k ∧ (laterEnvId id e k).toNat < 2 ^ 31) ∨
    ∃ r, 1 ≤ r ∧ r ≤ k ∧ (laterEnvId id e k).toNat = 4096 * r + e ∧
      (laterEnvId id e k).toNat < 2 ^ 31 ∧ 2 ^ 31 ≤ id.toNat + 4096 * (k + 1 - r) := by
  rw [nenv] at he
  induction k with
  | zero => exact Or.inl ⟨rfl, hpos⟩
  | succ k ih =>
    rw [laterEnvId_succ, toNat_nextEnvId _ he]
    rcases ih with ⟨hk, hlt⟩ | ⟨r, hr, hrk, hk, hlt, hout⟩
    · rw [hk] at hlt ⊢
      rw [Nat.mod_eq_of_lt (by omega : id.toNat + 4096 * k + 4096 < 2 ^ 32)]
      split
      · exact Or.inr ⟨1, by omega, by omega, by omega, by omega, by omega⟩
      · exact Or.inl ⟨by omega, by omega⟩
    · rw [hk] at hlt ⊢
      rw [Nat.mod_eq_of_lt (by omega : 4096 * r + e + 4096 < 2 ^ 32)]
      split
      · exact Or.inr ⟨1, by omega, by omega, by omega, by omega, by omega⟩
      · exact Or.inr ⟨r + 1, by omega, by omega, by omega, by omega, by omega⟩

/-- **The ids of a slot do not recur for `2 ^ 19 - 1` allocations.** -/
theorem laterEnvId_ne {id : Word} {e k : ℕ} (he : e < nenv) (hid : id.toNat % 1024 = e)
    (hk : 0 < k) (hlt : k < 2 ^ 19 - 1) : laterEnvId id e k ≠ id := by
  intro heq
  rcases Nat.lt_or_ge id.toNat (2 ^ 31) with hpos | hneg
  · rcases laterEnvId_cases he hid hpos k with ⟨h, -⟩ | ⟨r, hr, hrk, h, -, hout⟩
    · rw [heq] at h
      omega
    · rw [heq] at h
      rw [nenv] at he
      omega
  · -- a next id is never negative
    obtain ⟨j, rfl⟩ : ∃ j, k = j + 1 := ⟨k - 1, by omega⟩
    rw [laterEnvId_succ] at heq
    have h := toNat_nextEnvId (laterEnvId id e j) he
    rw [heq] at h
    rw [nenv] at he
    split at h <;> omega
/-! ## An environment that is gone -/

/-- The incarnation `id` of slot `v` has been freed, or will be at its next trap. -/
def Gone (s : Kernel) (v : ℕ) (id : Word) : Prop :=
  (s.slots v).envId = id ∧ ((s.slots v).envStatus = .free ∨ (s.slots v).envStatus = .dying)

theorem Gone.not_ready (h : Gone s v id) : ¬ ((s.slots v).envStatus = .runnable ∨
    s.curenv = some v ∧ (s.slots v).envStatus = .running) := by
  obtain ⟨-, hst⟩ := h
  rcases hst with h0 | h0 <;> rw [h0] <;> simp

theorem Gone.of_slot_eq (h : Gone s v id) (hs : s'.slots v = s.slots v) : Gone s' v id := by
  unfold Gone
  rw [hs]
  exact h

/-- Only `env_alloc` writes an id. -/
theorem Act.envId (h : Act A n s s') (v : ℕ) : (s'.slots v).envId = (s.slots v).envId ∨
    n = 1 ∧ (s'.slots v).envId = nextEnvId (s.slots v).envId v := by
  have hupd : ∀ {s s' : Kernel} {j : ℕ} {w : Slot}, s'.slots = Function.update s.slots j w →
      w.envId = (s.slots j).envId → (s'.slots v).envId = (s.slots v).envId := by
    intro s s' j w hs hw
    rw [hs]
    rcases eq_or_ne v j with rfl | hj
    · rw [Function.update_self, hw]
    · rw [Function.update_of_ne hj]
  cases h with
  | quiet h => exact Or.inl (by rw [h.slots])
  | @alloc _ _ j st _ h =>
    obtain ⟨d, hs⟩ := h.slots
    rw [hs]
    rcases eq_or_ne v j with rfl | hj
    · rw [Function.update_self]
      exact Or.inr ⟨rfl, rfl⟩
    · rw [Function.update_of_ne hj]
      exact Or.inl rfl
  | mark _ _ _ hs _ _ => exact Or.inl (hupd hs rfl)
  | free _ _ h => exact Or.inl (hupd h.slots rfl)
  | drop _ => exact Or.inl rfl
  | dispatch _ _ => exact Or.inl rfl

theorem Acts.envId (h : Acts A n s s') (hn : n ≤ 1) (v : ℕ) :
    (s'.slots v).envId = (s.slots v).envId ∨
      n = 1 ∧ (s'.slots v).envId = nextEnvId (s.slots v).envId v := by
  induction h with
  | refl => exact Or.inl rfl
  | @tail _ s₁ s₂ n m _ hstep ih =>
    rcases ih (by omega) with hid | ⟨rfl, hid⟩
    · rcases hstep.envId v with hid' | ⟨rfl, hid'⟩
      · exact Or.inl (hid'.trans hid)
      · exact Or.inr ⟨by omega, by rw [hid', hid]⟩
    · -- no second allocation
      rcases hstep.envId v with hid' | ⟨rfl, -⟩
      · exact Or.inr ⟨by omega, hid'.trans hid⟩
      · omega

/-- An act on other slots leaves the environment gone, unless it allocates the slot. -/
theorem Gone.act (h : Gone s v id) (hA : (s.slots v).envStatus = .dying → ¬ A v)
    (ha : Act A n s s') : s'.slots v = s.slots v ∨
      n = 1 ∧ (s'.slots v).envId = nextEnvId id v := by
  have hne : ∀ {s s' : Kernel} {j : ℕ} {w : Slot}, s'.slots = Function.update s.slots j w →
      v ≠ j → s'.slots v = s.slots v := by
    intro s s' j w hs hj
    rw [hs, Function.update_of_ne hj]
  cases ha with
  | quiet hq => exact Or.inl (by rw [hq.slots])
  | @alloc _ _ j st _ hal =>
    obtain ⟨d, hs⟩ := hal.slots
    rcases eq_or_ne v j with rfl | hj
    · refine Or.inr ⟨rfl, ?_⟩
      rw [hs, Function.update_self, h.1]
    · exact Or.inl (hne hs hj)
  | mark hlive hA' _ hs _ _ =>
    refine Or.inl (hne hs ?_)
    rintro rfl
    have hdy := h.2.resolve_left hlive
    rcases hA' with ⟨hv, -⟩ | ⟨-, hrun, -⟩
    · exact hA hdy hv
    · rw [hdy] at hrun
      cases hrun
  | free hlive hv hfr =>
    refine Or.inl (hne hfr.slots ?_)
    rintro rfl
    exact hA (h.2.resolve_left hlive) hv
  | drop _ => exact Or.inl rfl
  | dispatch _ _ => exact Or.inl rfl

/-- The same for a sequence of acts with one allocation at most. -/
theorem Gone.acts (h : Gone s v id) (ha : Acts A n s s') (hn : n ≤ 1)
    (hA : (s.slots v).envStatus = .dying → ¬ A v) : s'.slots v = s.slots v ∨
      n = 1 ∧ (s'.slots v).envId = nextEnvId id v := by
  induction ha with
  | refl => exact Or.inl rfl
  | @tail _ s₁ s₂ n m _ hstep ih =>
    rcases ih h (by omega) hA with hs | ⟨rfl, hid⟩
    · have hA' : (s₁.slots v).envStatus = .dying → ¬ A v := by
        rw [hs]
        exact hA
      rcases (h.of_slot_eq hs).act hA' hstep with hs' | ⟨rfl, hid⟩
      · exact Or.inl (hs'.trans hs)
      · exact Or.inr ⟨by omega, hid⟩
    · -- no second allocation
      rcases hstep.envId v with hsame | ⟨rfl, -⟩
      · exact Or.inr ⟨by omega, hsame.trans hid⟩
      · omega

/-- Leaving the kernel writes no id. -/
theorem Leave.envId (h : Leave s s') (v : ℕ) : (s'.slots v).envId = (s.slots v).envId := by
  have hran : ∀ {s : Kernel} {e d : ℕ}, Ran s s' e d →
      (s'.slots v).envId = (s.slots v).envId := by
    intro s e d h
    rw [h.slots, ranSlots]
    split
    · rename_i hv
      rw [hv]
    · split <;> rfl
  cases h with
  | run _ _ h => exact hran h
  | select _ h =>
    have hid := hran h
    exact hid
  | halt _ hs _ _ _ _ _ _ => rw [hs]
  | monitor => rfl

/-- Leaving the kernel does not start an environment that is gone. -/
theorem Gone.leave_slot (h : Gone s v id) (hl : Leave s s') : s'.slots v = s.slots v := by
  have hran : ∀ {s : Kernel} {e d : ℕ}, Gone s v id → ((s.slots e).envStatus = .runnable ∨
      s.curenv = some e ∧ (s.slots e).envStatus = .running) → Ran s s' e d →
      s'.slots v = s.slots v := by
    intro s e d h hst hr
    have hne : v ≠ e := by
      rintro rfl
      exact h.not_ready hst
    rw [hr.slots, ranSlots, if_neg hne, if_neg fun h0 => h.not_ready (Or.inr h0)]
  cases hl with
  | run hcur hst hr => exact hran h (Or.inr ⟨hcur, hst⟩) hr
  | @select _ e d hst hr =>
    have hnote : Gone (s.note (.select s.cpunum e)) v id := h
    have hslot := hran hnote hst hr
    exact hslot
  | halt _ hs _ _ _ _ _ _ => rw [hs]
  | monitor => rfl

theorem Gone.leave (h : Gone s v id) (hl : Leave s s') : Gone s' v id :=
  h.of_slot_eq (h.leave_slot hl)

/-! ## Entries -/

/-- An environment that is gone and on a CPU is a zombie. -/
theorem Gone.dying_of_cpu (h : Gone s v id) (hc : Calm s) (hlock : s.kernelLock = none)
    (he : (s.cpus c).cpuEnv = some v) : (s.slots v).envStatus = .dying := by
  have hon : OnCpu s v := hc.onCpu_of_elsewhere (c := c + 1) hlock ⟨c, by omega, he⟩
  exact h.2.resolve_left fun hfree => not_onCpu_of_free hfree hon

/-- A zombie was freed: this one, or another. -/
theorem Gone.zombie {s₁ : Kernel} (h : Gone s v id) (hf : Freed (s.enter c) s₁ e) :
    Gone (s₁.setCurenv none) v id := by
  show Gone s₁ v id
  rcases eq_or_ne v e with rfl | hne
  · unfold Gone
    rw [hf.slots, Function.update_self]
    exact ⟨h.1, Or.inl rfl⟩
  · refine Gone.of_slot_eq (s := s) h ?_
    rw [hf.slots, Function.update_of_ne hne]
    rfl

/-- A zombie that is not on this CPU is on another. -/
theorem Calm.elsewhere_of_dying (h : Calm s)
    (hv : ∀ e, (s.cpus c).cpuEnv = some e → (s.slots e).envStatus ≠ .dying)
    (hdy : (s.slots v).envStatus = .dying) : ¬ ¬ Elsewhere s c v := by
  intro helse
  obtain ⟨c', hc'⟩ := h.busy v (Or.inr hdy)
  rcases eq_or_ne c' c with rfl | hne
  · exact hv v hc' hdy
  · exact helse ⟨c', hne, hc'⟩

/-- **An orderly entry leaves the environment gone, or allocates its slot.** -/
theorem Gone.entry (h : Gone s v id) (hc : Calm s) (hx : CanEnter s c x) (ho : Orderly s c x)
    (hrun : s.entry c x = .ok s') :
    Gone s' v id ∨ (s'.slots v).envId = nextEnvId id v := by
  rcases hc.entry_cases hx ho hrun with ⟨e, s₁, he, hdy, hmine, hfreed, hleave⟩ |
    ⟨hv, n, hn, s₁, hacts, hleave⟩
  · exact Or.inl ((h.zombie hfreed).leave hleave)
  · have hgone : Gone (s.enter c) v id := h
    rcases hgone.acts hacts hn (hc.elsewhere_of_dying hv) with hs | ⟨-, hid⟩
    · exact Or.inl ((hgone.of_slot_eq hs).leave hleave)
    · exact Or.inr ((hleave.envId v).trans hid)

/-- The events of an entry that does not concern incarnation `id` of slot `v`, which
in the end has the id `id'`. -/
def Silent (v : ℕ) (id id' : Word) (ev : Event) : Prop :=
  (∀ c, ev ≠ .dispatch c v) ∧ ∀ c, ev = .select c v → id' ≠ id

theorem Leave.silent (h : Leave s s') (hg : Gone s v id ∨ (s.slots v).envId ≠ id) {l : List Event}
    (hr : Records (Silent v id (s'.slots v).envId) l s.controlLog) :
    Records (Silent v id (s'.slots v).envId) l s'.controlLog := by
  rcases h.log with hl | ⟨e, hready, hl⟩
  · rw [hl]
    exact hr
  · rw [hl]
    refine hr.cons ⟨fun _ h0 => (nomatch h0), fun c h0 => ?_⟩
    obtain ⟨-, rfl⟩ := Event.select.inj h0
    rw [h.envId]
    rcases hg with hg | hne
    · exact absurd hready hg.not_ready
    · exact hne

/-- Neither does it select the environment or serve it. -/
theorem Gone.silent (h : Gone s v id) (hid : nextEnvId id v ≠ id) (hc : Calm s)
    (hx : CanEnter s c x) (ho : Orderly s c x) (hrun : s.entry c x = .ok s') :
    Records (Silent v id (s'.slots v).envId) s.controlLog s'.controlLog := by
  rcases hc.entry_cases hx ho hrun with ⟨e, s₁, he, hdy, hmine, hfreed, hleave⟩ |
    ⟨hv, n, hn, s₁, hacts, hleave⟩
  · refine hleave.silent (Or.inl (h.zombie hfreed)) ?_
    show Records _ _ s₁.controlLog
    rw [hfreed.controlLog]
    exact (Records.refl _ _).cons ⟨fun _ h0 => (nomatch h0), fun _ h0 => (nomatch h0)⟩
  · refine hleave.silent ?_ (hacts.records.1.mono ?_)
    · rcases Gone.acts (s := s.enter c) h hacts hn (hc.elsewhere_of_dying hv) with hs | ⟨-, hnext⟩
      · exact Or.inl (Gone.of_slot_eq (s := s.enter c) h hs)
      · rw [hnext]
        exact Or.inr hid
    · rintro ev (⟨e, -, rfl⟩ | ⟨e, he, rfl⟩)
      · exact ⟨fun _ h0 => (nomatch h0), fun _ h0 => (nomatch h0)⟩
      · refine ⟨fun c' h0 => ?_, fun _ h0 => (nomatch h0)⟩
        obtain ⟨-, rfl⟩ := Event.dispatch.inj h0
        rw [curenv_enter] at he
        exact hv _ he (h.dying_of_cpu hc hx.lock he)

/-- The id of a slot goes through its generations. -/
theorem Calm.envId (h : Calm s) (hx : CanEnter s c x) (ho : Orderly s c x)
    (hrun : s.entry c x = .ok s') (v : ℕ) :
    (s'.slots v).envId = (s.slots v).envId ∨
      (s'.slots v).envId = nextEnvId (s.slots v).envId v := by
  rcases h.entry_cases hx ho hrun with ⟨e, s₁, -, -, -, hfreed, hleave⟩ |
    ⟨-, n, hn, s₁, hacts, hleave⟩
  · refine Or.inl ((hleave.envId v).trans ?_)
    show (s₁.slots v).envId = _
    rw [hfreed.slots]
    rcases eq_or_ne v e with rfl | hne
    · rw [Function.update_self]
      rfl
    · rw [Function.update_of_ne hne]
      rfl
  · rw [hleave.envId v]
    exact (hacts.envId hn v).imp id And.right

/-! ## Runs -/

/-- A run of entries of the kind `K` in which slot `v` was given a new id `k` times. -/
inductive RunsTo (K : Kernel → ℕ → Entry → Prop) (v : ℕ) : ℕ → Kernel → Kernel → Prop
  | refl {s : Kernel} : RunsTo K v 0 s s
  | tail {s s' s'' : Kernel} {c k : ℕ} {x : Entry} (h : RunsTo K v k s s') (hx : CanEnter s' c x)
      (hk : K s' c x) (hrun : s'.entry c x = .ok s'') :
      RunsTo K v (if (s''.envs v).envId = (s'.envs v).envId then k else k + 1) s s''

/-- What is true of an incarnation `id` of slot `v` that was destroyed, in every
later state of a run of entries of the kind `K`. -/
structure Final (K : Kernel → ℕ → Entry → Prop) (s : Kernel) (v : ℕ) (id : Word) : Prop where
  stopped : (s.envs v).envId = id → (s.envs v).envStatus = .free ∨ (s.envs v).envStatus = .dying
  /-- The next entry does not select it, and executes no handler for it. -/
  silent : (s.envs v).envId = id → ∀ c x s', CanEnter s c x → K s c x →
    s.entry c x = .ok s' → ∃ new, s'.controlLog = new ++ s.controlLog ∧
      (∀ c', .dispatch c' v ∉ new) ∧ ∀ c', .select c' v ∈ new → (s'.envs v).envId ≠ id
  /-- Its next trap frees it, and does nothing else but go to the scheduler. -/
  freed : (s.envs v).envId = id → ∀ c tf t, CanEnter s c (.trap tf t) →
    (s.cpus c).cpuEnv = some v →
    s.entry c (.trap tf t) = ((s.enter c).envFree v >>= fun s' => (s'.setCurenv none).schedYield) ∧
      ∀ s', s.entry c (.trap tf t) = .ok s' → (s'.envs v).envStatus = .free

/-- The entry is a call of `sys_env_destroy` that returns zero, for an environment `v`
other than the caller. -/
def Destroys (s : Kernel) (c : ℕ) (x : Entry) (v : ℕ) : Prop :=
  ∃ tf envid a, x = .trap tf (.syscall (.envDestroy envid)) ∧ (s.cpus c).cpuEnv = some a ∧
    (s.envs a).envStatus ≠ .dying ∧ a ≠ v ∧ (s.enter c).envid2env envid true = .ok (0, some v)

/-- An environment other than the caller is named by its id. -/
theorem Destroys.slot (h : Destroys s c x v) :
    v < nenv ∧ (s.envs v).envId.toNat % 1024 = v := by
  obtain ⟨tf, envid, a, rfl, ha, -, hne, henv⟩ := h
  have h0 : envid ≠ 0#32 := by
    rintro rfl
    have hcur : (s.enter c).curenv = some v := (Prod.mk.inj (Except.ok.inj henv)).2
    rw [curenv_enter, ha] at hcur
    exact hne (Option.some.inj hcur)
  obtain ⟨hv, hid⟩ := eq_envx_of_envid2env h0 henv
  have hid' : (s.envs v).envId = envid := hid
  have hmod : v = envid.toNat % 1024 := by
    rw [hv]
    exact toNat_and_mask envid (by omega : 10 ≤ 32)
  rw [hid']
  refine ⟨?_, hmod.symm⟩
  rw [hmod, nenv]
  omega

theorem gone_of_sysEnvDestroy {envid : Word} {fl : Flow} (hc : s.curenv ≠ some v)
    (henv : s.envid2env envid true = .ok (0, some v)) (h : s.sysEnvDestroy envid = .ok (fl, s')) :
    (∃ r, fl = .ret r) ∧ Gone s' v (s.slots v).envId := by
  unfold sysEnvDestroy at h
  rw [henv, ok_bind] at h
  simp only [Int.lt_irrefl, if_false, deref_some, ok_bind] at h
  unfold envDestroy at h
  by_cases hrun : (s.envs v).envStatus = .running ∧ s.curenv ≠ some v
  · rw [if_pos hrun] at h
    obtain ⟨rfl, rfl⟩ := Prod.mk.inj (Except.ok.inj h)
    refine ⟨⟨0, rfl⟩, ?_⟩
    unfold Gone
    rw [slots_setStatus, Function.update_self]
    exact ⟨rfl, Or.inr rfl⟩
  · rw [if_neg hrun] at h
    obtain ⟨⟨fl', s₁⟩, hd, h⟩ := bind_eq_ok.mp h
    obtain ⟨s₂, hfree, hd⟩ := bind_eq_ok.mp hd
    have hfreed := freed_of_envFree hfree
    rw [hfreed.passive.cpuEnv, if_neg hc] at hd
    obtain ⟨rfl, rfl⟩ := Prod.mk.inj (Except.ok.inj hd)
    obtain ⟨rfl, rfl⟩ := Prod.mk.inj (Except.ok.inj h)
    refine ⟨⟨0, rfl⟩, ?_⟩
    unfold Gone
    rw [hfreed.slots, Function.update_self]
    exact ⟨rfl, Or.inl rfl⟩

/-- **The environment is gone when `sys_env_destroy` has returned.** -/
theorem Destroys.gone (h : Destroys s c x v) (hrun : s.entry c x = .ok s') :
    Gone s' v (s.envs v).envId := by
  obtain ⟨tf, envid, a, rfl, ha, hdy, hne, henv⟩ := h
  have hcur : (s.enter c).curenv = some a := by
    rw [curenv_enter]
    exact ha
  obtain ⟨fl, s₁, hdisp, hend⟩ := trap_of_vital (s := s.enter c) hcur hdy hrun
  have hfield := savedFrame_envs (s.enter c) a tf
  have henv' : ((s.enter c).savedFrame a tf).envid2env envid true = .ok (0, some v) := by
    rw [savedFrame_envid2env]
    exact henv
  have hcur' : ((s.enter c).savedFrame a tf).curenv ≠ some v := by
    intro h0
    exact hne (Option.some.inj (hcur.symm.trans h0))
  have hid : (((s.enter c).savedFrame a tf).slots v).envId = (s.envs v).envId := (hfield v).2.1
  have hgone : (∃ r, fl = .ret r) ∧ Gone s₁ v (s.envs v).envId := by
    rw [← hid]
    exact gone_of_sysEnvDestroy hcur' henv' hdisp
  obtain ⟨⟨r, rfl⟩, hgone⟩ := hgone
  rcases hend with ⟨h0, -⟩ | ⟨r', s₂, -, hs₂, hret⟩
  · cases h0
  · exact (hgone.of_slot_eq (by rw [(quiet_of_eax hs₂).slots])).leave (leave_trapReturn hret)

/-- What holds in a run that starts when the environment is gone. -/
structure Ended (s : Kernel) (v : ℕ) (id : Word) (k : ℕ) : Prop where
  calm : Calm s
  envId : (s.slots v).envId = laterEnvId id v k
  gone : k = 0 → Gone s v id

theorem Ended.entry (h : Ended s v id k) (hv : v < nenv) (hid : id.toNat % 1024 = v)
    (hx : CanEnter s c x) (ho : Orderly s c x) (hrun : s.entry c x = .ok s') :
    Ended s' v id (if (s'.envs v).envId = (s.envs v).envId then k else k + 1) := by
  have hcalm := h.calm.entry hx ho hrun
  by_cases hsame : (s'.envs v).envId = (s.envs v).envId
  · rw [if_pos hsame]
    refine ⟨hcalm, hsame.trans h.envId, ?_⟩
    rintro rfl
    rcases (h.gone rfl).entry h.calm hx ho hrun with hgone | hnext
    · exact hgone
    · -- the slot would have its first id again
      have hne : nextEnvId id v ≠ id := laterEnvId_ne hv hid (by omega : 0 < 1) (by omega)
      exact absurd (hnext.symm.trans (hsame.trans h.envId)) hne
  · rw [if_neg hsame]
    refine ⟨hcalm, ?_, fun h0 => by omega⟩
    rw [laterEnvId_succ, ← h.envId]
    exact (h.calm.envId hx ho hrun v).resolve_left hsame

theorem Ended.run (h : Ended s v id 0) (hv : v < nenv) (hid : id.toNat % 1024 = v)
    (hr : RunsTo Orderly v k s s') : Ended s' v id k := by
  induction hr with
  | refl => exact h
  | tail _ hx ho hrun ih => exact (ih h).entry hv hid hx ho hrun

theorem Ended.final (h : Ended s v id k) (hv : v < nenv) (hid : id.toNat % 1024 = v)
    (hk : k < 2 ^ 19 - 1) : Final Orderly s v id := by
  have hgone : (s.envs v).envId = id → Gone s v id := by
    intro h0
    refine h.gone ?_
    by_contra hne
    exact laterEnvId_ne hv hid (by omega) hk (h.envId.symm.trans h0)
  have hnext : nextEnvId id v ≠ id := laterEnvId_ne hv hid (by omega : 0 < 1) (by omega)
  constructor
  · exact fun h0 => (hgone h0).2
  · intro h0 c x s' hx ho hrun
    obtain ⟨new, hnew, hev⟩ := (hgone h0).silent hnext h.calm hx ho hrun
    exact ⟨new, hnew, fun c' hmem => (hev _ hmem).1 c' rfl, fun c' hmem => (hev _ hmem).2 c' rfl⟩
  · intro h0 c tf t hx hcpu
    have hdy := (hgone h0).dying_of_cpu h.calm hx.1 hcpu
    have hcur : (s.enter c).curenv = some v := by
      rw [curenv_enter]
      exact hcpu
    have htrap : s.entry c (.trap tf t) =
        ((s.enter c).envFree v >>= fun s' => (s'.setCurenv none).schedYield) :=
      trap_of_dying hcur hdy tf t
    refine ⟨htrap, fun s' hrun => ?_⟩
    rw [htrap] at hrun
    obtain ⟨s₁, hfree, hy⟩ := bind_eq_ok.mp hrun
    have hslot := ((hgone h0).zombie (freed_of_envFree hfree)).leave_slot (leave_schedYield hy)
    rw [← slots_envStatus, hslot]
    exact (freed_of_envFree hfree).status

/-- **Destruction is final**: in orderly runs, after `sys_env_destroy` has returned
zero for an environment other than the caller, and as long as the ids of its slot
do not recur. -/
theorem destruction_final {s₁ s₂ s₃ : Kernel} (h0 : Unstarted s₀) (hrun : SmpRun Orderly s₀ s₁)
    (hx : CanEnter s₁ c x) (ho : Orderly s₁ c x) (hd : Destroys s₁ c x v)
    (hstep : s₁.entry c x = .ok s₂) (hlater : RunsTo Orderly v k s₂ s₃) (hk : k < 2 ^ 19 - 1) :
    Final Orderly s₃ v (s₁.envs v).envId := by
  obtain ⟨hv, hid⟩ := hd.slot
  have hcalm : Calm s₁ := h0.calm.run (fun _ _ ho => ho) hrun
  have hgone := hd.gone hstep
  have hended : Ended s₂ v (s₁.envs v).envId 0 := ⟨hcalm.entry hx ho hstep, hgone.1, fun _ => hgone⟩
  exact (hended.run hv hid hlater).final hv hid hk

/-- The parent of the running child asks for its destruction. -/
theorem destroys_twoRunning : Destroys twoRunning 0 (sysEntry (.envDestroy 0x1001#32)) 1 :=
  ⟨freshTrapframe, 0x1001#32, 0, rfl, by decide +kernel, by decide +kernel, by decide,
    by decide +kernel⟩

/-- The theorem when the child of `twoRunning` is destroyed. -/
theorem destruction_final_twoRunning :
    Unstarted oneEnv ∧ SmpRun Orderly oneEnv twoRunning ∧
      Final Orderly (twoRunning.after 0 (sysEntry (.envDestroy 0x1001#32))) 1 0x1001#32 := by
  have hid : (twoRunning.envs 1).envId = 0x1001#32 := by decide +kernel
  have horderly : Orderly twoRunning 0 (sysEntry (.envDestroy 0x1001#32)) := by
    intro e henv
    obtain ⟨rfl, -⟩ := eq_envx_of_envid2env (by decide) henv
    exact Or.inr (by decide +kernel)
  have hfinal := destruction_final oneEnv_unstarted twoRunning_orderly (by decide +kernel) horderly
    destroys_twoRunning (entry_eq_ok_after (by decide +kernel)) .refl (by decide)
  rw [hid] at hfinal
  exact ⟨oneEnv_unstarted, twoRunning_orderly, hfinal⟩

/-- **Destruction is not final in every run**: the dying child is made runnable. -/
theorem not_destruction_final :
    ¬ ∀ s₀ s₁ s₂ s₃ c x v k, Unstarted s₀ → SmpRun (fun _ _ _ => True) s₀ s₁ → CanEnter s₁ c x →
      Destroys s₁ c x v → s₁.entry c x = .ok s₂ → RunsTo (fun _ _ _ => True) v k s₂ s₃ →
      k < 2 ^ 19 - 1 → Final (fun _ _ _ => True) s₃ v (s₁.envs v).envId := by
  intro hall
  have hrun : SmpRun (fun _ _ _ => True) oneEnv twoRunning :=
    twoRunning_run (fun _ _ => trivial) trivial trivial
  have hlater := RunsTo.refl (K := fun _ _ _ => True) (v := 1)
    (s := twoRunning.after 0 (sysEntry (.envDestroy 0x1001#32)))
  have hset := hlater.tail (c := 0)
    (x := sysEntry (.envSetStatus 0x1001#32 EnvStatus.runnable.toWord)) (by decide +kernel) trivial
    (entry_eq_ok_after (by decide +kernel))
  have hfinal := hall _ _ _ _ 0 _ 1 _ oneEnv_unstarted hrun (by decide +kernel)
    destroys_twoRunning (entry_eq_ok_after (by decide +kernel)) hset (by decide +kernel)
  exact absurd (hfinal.stopped (by decide +kernel)) (by decide +kernel)

end Kernel
end PmakeOs
