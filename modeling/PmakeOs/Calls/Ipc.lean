import PmakeOs.Calls.Writes
import PmakeOs.Sched.Exclusion

/-!
# Messages over whole runs

`Send` is a `sys_ipc_try_send` that returned zero, with the states before and after
the handler.  `IpcRun` is a run with all the sends it has made, the latest first.

`Delivered d` is what the comment of `sys_ipc_try_send` promises.  All of it holds
after every send except for `env_ipc_perm`: the field is set when a page moves and is
left alone otherwise, so a message without a page shows the permissions of an earlier
one, perhaps to an earlier environment of the slot.  And a page that is sent with
`perm` zero leaves a zero there.  `delivered_iff_tidy` says that nothing else can go
wrong.
-/

namespace PmakeOs
namespace Kernel

variable {s s' s₀ : Kernel} {c e : ℕ} {x : Entry} {o : Option ℕ}

/-- A successful `sys_ipc_try_send` of environment `sender` to environment `target`, and
the states before and after it. -/
structure Send where
  before : Kernel
  after : Kernel
  sender : ℕ
  target : ℕ
  value : Word
  srcva : Word
  perm : Word

/-- Both sides ask for a page. -/
def Send.Page (d : Send) : Prop :=
  d.srcva < utop ∧ (d.before.envs d.target).envIpcDstva < utop

instance (d : Send) : Decidable d.Page := inferInstanceAs (Decidable (_ ∧ _))

/-- The send that the entry `x` of CPU `c` makes, if it makes one. -/
def sends (s : Kernel) (c : ℕ) : Entry → List Send
  | .trap tf (.syscall (.ipcTrySend envid value srcva perm stale)) =>
    match (s.cpus c).cpuEnv with
    | none => []
    | some e =>
      if (s.envs e).envStatus = .dying then []
      else
        let b := (s.enter c).savedFrame e tf
        match b.envid2env envid false, b.sysIpcTrySend envid value srcva perm stale with
        | .ok (_, some r), .ok (ret, a) =>
          if ret = 0 then [⟨b, a, e, r, value, srcva, perm⟩] else []
        | _, _ => []
  | _ => []

/-- A run of entries with `K`, with its sends. -/
inductive IpcRun (K : Kernel → ℕ → Entry → Prop) (s₀ : Kernel) : List Send → Kernel → Prop
  | start : IpcRun K s₀ [] s₀
  | next {l : List Send} {s s' : Kernel} {c : ℕ} {x : Entry} (h : IpcRun K s₀ l s)
      (hx : CanEnter s c x) (hk : K s c x) (hrun : s.entry c x = .ok s') :
      IpcRun K s₀ (sends s c x ++ l) s'

/-- **What a successful send promises.** -/
structure Delivered (d : Send) : Prop where
  recving : (d.after.envs d.target).envIpcRecving = false
  sender : (d.after.envs d.target).envIpcFrom = (d.before.envs d.sender).envId
  value : (d.after.envs d.target).envIpcValue = d.value
  eax : (d.after.envs d.target).envTf.tfRegs.regEax = 0#32
  status : (d.after.envs d.target).envStatus = .runnable
  perm : Moved d.before d.after d.target → (d.after.envs d.target).envIpcPerm = d.perm
  noPerm : ¬ Moved d.before d.after d.target → (d.after.envs d.target).envIpcPerm = 0#32
  /-- The word that `ipc_recv` stores tells whether a page came. -/
  tells : (d.after.envs d.target).envIpcPerm ≠ 0#32 ↔ Moved d.before d.after d.target

/-! ## One send -/

/-- The handler behind an element of `sends`. -/
theorem eq_of_mem_sends {d : Send} (h : d ∈ sends s c x) :
    ∃ tf envid stale, x = .trap tf (.syscall (.ipcTrySend envid d.value d.srcva d.perm stale)) ∧
      (s.cpus c).cpuEnv = some d.sender ∧ (s.envs d.sender).envStatus ≠ .dying ∧
      d.before = (s.enter c).savedFrame d.sender tf ∧
      (∃ r₀, d.before.envid2env envid false = .ok (r₀, some d.target)) ∧
      d.before.sysIpcTrySend envid d.value d.srcva d.perm stale = .ok (0, d.after) ∧
      sends s c x = [d] := by
  unfold sends at h
  split at h
  · rename_i tf envid value srcva perm stale
    cases hc : (s.cpus c).cpuEnv with
    | none =>
      rw [hc] at h
      cases h
    | some e =>
      rw [hc] at h
      simp only at h
      split at h
      · cases h
      rename_i hdy
      split at h
      · rename_i r₀ r ret a henv hsend
        split at h
        · rename_i hret
          subst hret
          obtain rfl := List.mem_singleton.mp h
          refine ⟨tf, envid, stale, rfl, rfl, hdy, rfl, ⟨r₀, henv⟩, hsend, ?_⟩
          simp only [sends, hc, hdy, if_false, henv, hsend, if_true]
        · cases h
      · cases h
  · cases h

theorem tail_of_sends {d : Send} {l : List Send} (h : sends s c x = d :: l) : l = [] := by
  have hd : d ∈ sends s c x := by
    rw [h]
    exact List.mem_cons_self
  obtain ⟨-, -, -, -, -, -, -, -, -, hone⟩ := eq_of_mem_sends hd
  rw [hone] at h
  exact (List.cons.inj h).2.symm

/-- A send delivers, after `env_ipc_perm` has been set if a page moved. -/
theorem deliver_of_send {d : Send} (h : d ∈ sends s c x) :
    (d.before.envs d.target).envIpcRecving = true ∧
    ∃ v, d.after.envs = (Write.deliver d.target d.sender d.value).apply v ∧
      (¬ d.Page ∧ ¬ Moved d.before d.after d.target ∧ v = d.before.envs ∨
        d.Page ∧ Moved d.before d.after d.target ∧
          v = (Write.perm d.target d.perm).apply d.before.envs) := by
  obtain ⟨tf, envid, stale, -, hcur, -, hb, ⟨r₀, henv⟩, hsend, -⟩ := eq_of_mem_sends h
  rcases sysIpcTrySend_cases hsend with
    ⟨h0, -⟩ | ⟨-, r, c', s₁, henv', hc', hrecv, htr, hafter⟩
  · exact absurd rfl h0
  have henvs : d.after.envs = (Write.deliver r c' d.value).apply s₁.envs := by
    rw [hafter]
    rfl
  have hlog : d.after.log = s₁.log := by
    rw [hafter]
    rfl
  have hr : d.target = r := by
    rw [henv'] at henv
    exact (Option.some.inj (Prod.mk.inj (Except.ok.inj henv)).2).symm
  have hs : d.sender = c' := by
    have h0 : d.before.curenv = (s.cpus c).cpuEnv := by
      rw [hb]
      simp [curenv, savedFrame, enter, setCpu, Kernel.setEnv, Kernel.note, thiscpu]
    rw [h0, hcur] at hc'
    exact Option.some.inj hc'
  have hiff : d.Page ↔ d.srcva < utop ∧ (d.before.envs r).envIpcDstva < utop := by
    rw [Send.Page, hr]
  rw [hr, hs]
  refine ⟨hrecv, s₁.envs, henvs, ?_⟩
  rcases envs_of_ipcTransfer htr with ⟨h0, -⟩ | ⟨-, ⟨hno, rfl⟩ | ⟨hyes, h₁, hmoved⟩⟩
  · exact absurd rfl h0
  · exact Or.inl ⟨mt hiff.mp hno, not_moved_of_log_eq hlog, rfl⟩
  · obtain ⟨d', pg, new, hd', hnew, hmem⟩ := hmoved
    exact Or.inr ⟨hiff.mpr hyes, ⟨d', pg, new, hd', hlog.trans hnew, hmem⟩, h₁⟩

/-- What a send has done to its target. -/
theorem target_of_send {d : Send} (h : d ∈ sends s c x) :
    (d.after.envs d.target).envIpcRecving = false ∧
    (d.after.envs d.target).envIpcFrom = (d.before.envs d.sender).envId ∧
    (d.after.envs d.target).envIpcValue = d.value ∧
    (d.after.envs d.target).envTf.tfRegs.regEax = 0#32 ∧
    (d.after.envs d.target).envStatus = .runnable ∧
    (Moved d.before d.after d.target ↔ d.Page) ∧
    (d.after.envs d.target).envIpcPerm =
      if d.Page then d.perm else (d.before.envs d.target).envIpcPerm := by
  obtain ⟨-, v, henvs, hv⟩ := deliver_of_send h
  have hval : d.after.envs d.target = (Write.deliver d.target d.sender d.value).value v := by
    rw [henvs]
    exact Write.apply_slot ..
  rw [hval]
  rcases hv with ⟨hno, hmoved, rfl⟩ | ⟨hyes, hmoved, rfl⟩
  · exact ⟨rfl, rfl, rfl, rfl, rfl, iff_of_false hmoved hno, (if_neg hno).symm⟩
  · refine ⟨rfl, ?_, rfl, rfl, rfl, iff_of_true hmoved hyes, ?_⟩
    · show ((Write.perm d.target d.perm).apply d.before.envs d.sender).envId = _
      rcases eq_or_ne d.sender d.target with heq | hne
      · simp [Write.apply, Write.slot, Write.value, heq]
      · simp [Write.apply, Write.slot, hne]
    · rw [if_pos hyes]
      simp [Write.apply, Write.slot, Write.value]

/-- The other environments are left alone. -/
theorem frame_of_send {d : Send} (h : d ∈ sends s c x) (he : e ≠ d.target) :
    d.after.envs e = d.before.envs e := by
  obtain ⟨-, v, henvs, hv⟩ := deliver_of_send h
  rw [henvs, Write.apply_of_ne he]
  rcases hv with ⟨-, -, rfl⟩ | ⟨-, -, rfl⟩
  · rfl
  · exact Write.apply_of_ne he

/-- **A send does what it promises exactly if** a page moves and `perm` is not zero, or no
page moves and the field was zero before. -/
theorem delivered_iff {d : Send} (h : d ∈ sends s c x) :
    Delivered d ↔ (d.Page ∧ d.perm ≠ 0#32) ∨
      (¬ d.Page ∧ (d.before.envs d.target).envIpcPerm = 0#32) := by
  obtain ⟨hrecv, hfrom, hvalue, heax, hst, hmoved, hperm⟩ := target_of_send h
  constructor
  · intro hd
    by_cases hp : d.Page
    · rw [if_pos hp] at hperm
      refine Or.inl ⟨hp, ?_⟩
      rw [← hperm]
      exact hd.tells.mpr (hmoved.mpr hp)
    · rw [if_neg hp] at hperm
      refine Or.inr ⟨hp, ?_⟩
      rw [← hperm]
      exact hd.noPerm (mt hmoved.mp hp)
  · rintro (⟨hp, hne⟩ | ⟨hp, h0⟩)
    · rw [if_pos hp] at hperm
      refine ⟨hrecv, hfrom, hvalue, heax, hst, fun _ => hperm,
        fun hno => absurd (hmoved.mpr hp) hno, iff_of_true ?_ (hmoved.mpr hp)⟩
      rw [hperm]
      exact hne
    · rw [if_neg hp, h0] at hperm
      exact ⟨hrecv, hfrom, hvalue, heax, hst, fun hm => absurd (hmoved.mp hm) hp,
        fun _ => hperm, iff_of_false (fun hne => hne hperm) (mt hmoved.mp hp)⟩

/-! ## Entries -/

/-- The entry is not a `sys_ipc_try_send`. -/
def Entry.NoSend (x : Entry) : Prop :=
  ∀ envid value srcva perm stale, x.call ≠ some (.ipcTrySend envid value srcva perm stale)

theorem Entry.NoSend.of_call (h : x.call = none) : x.NoSend := by
  intro _ _ _ _ _ h0
  rw [h] at h0
  cases h0

theorem before_envs {d : Send} (h : d ∈ sends s c x) :
    ∃ tf, d.before.envs = (Write.save d.sender tf).apply s.envs := by
  obtain ⟨tf, -, -, -, -, -, hb, -⟩ := eq_of_mem_sends h
  exact ⟨tf, by rw [hb]; rfl⟩

/-- An entry with a send: after the handler there is the store of its result, and the way
back. -/
theorem wrote_of_send {d : Send} (h : d ∈ sends s c x) (hrun : s.entry c x = .ok s') :
    Wrote (some d.sender) .schedule (d.after.setEax d.sender 0) s' := by
  obtain ⟨tf, envid, stale, rfl, hcur, hdy, hb, -, hsend, -⟩ := eq_of_mem_sends h
  have ho := serving_enter s c
  rw [hcur] at ho
  obtain ⟨e, he, hcase⟩ := wrote_of_returns (fun _ => rfl) ho hrun
  obtain rfl := Option.some.inj (ho e he)
  rcases hcase with ⟨h0, -⟩ | ⟨-, r, s₁, hs, hw⟩
  · exact absurd h0 hdy
  · rw [← hb, hsend] at hs
    obtain ⟨rfl, rfl⟩ := Prod.mk.inj (Except.ok.inj hs)
    exact hw

/-- An entry that makes no send writes like one that does not try: a send that fails
stores as `sys_getenvid` would. -/
theorem wrote_of_no_send (h : sends s c x = []) (hrun : s.entry c x = .ok s') :
    ∃ y : Entry, y.NoSend ∧ (y = x ∨ y.call = some .getenvid) ∧
      Wrote (s.cpus c).cpuEnv y (s.enter c) s' := by
  by_cases hx : x.NoSend
  · exact ⟨x, hx, Or.inl rfl, wrote_entry hrun⟩
  unfold Entry.NoSend at hx
  push Not at hx
  obtain ⟨envid, value, srcva, perm, stale, hcall⟩ := hx
  obtain ⟨tf, rfl⟩ := Entry.eq_trap_of_call hcall
  refine ⟨.trap tf (.syscall .getenvid), nofun, Or.inr rfl, ?_⟩
  have ho := serving_enter s c
  obtain ⟨e, hcur, ⟨-, hw⟩ | ⟨hdy, r, s₁, hs, hw⟩⟩ := wrote_of_returns (fun _ => rfl) ho hrun
  · exact hw.of_schedule _
  · have hoe := ho e hcur
    have hm : MemoryOnly ((s.enter c).savedFrame e tf) s₁ := by
      rcases sysIpcTrySend_cases hs with ⟨-, hm⟩ | ⟨h0, r', -, -, henv, -⟩
      · exact hm
      · -- otherwise the entry would have made a send
        have hdy' : (s.envs e).envStatus ≠ .dying := hdy
        simp [sends, hoe, hdy', henv, hs, h0] at h
    have hsave : Wrote (s.cpus c).cpuEnv (.trap tf (.syscall .getenvid)) (s.enter c)
        ((s.enter c).savedFrame e tf) :=
      .single (.save e tf) rfl ⟨rfl, fun _ _ => rfl⟩ ⟨⟨_, rfl⟩, hoe⟩ rfl rfl
    have heax : Wrote (s.cpus c).cpuEnv (.trap tf (.syscall .getenvid)) s₁ (s₁.setEax e r) :=
      .single (.eax e r) rfl (.setEnv s₁ e _) ⟨hoe, nofun⟩ rfl rfl
    exact (hsave.trans hm.wrote).trans (heax.trans (hw.of_schedule _))

/-! ## The permission field along a run -/

/-- Only a send writes `env_ipc_perm`. -/
theorem perm_of_writes {v v' : ℕ → Env} (hx : x.NoSend) (h : Writes (Write.Legal o x) v v') (e : ℕ) :
    (v' e).envIpcPerm = (v e).envIpcPerm := by
  refine h.invariant (I := fun u => (u e).envIpcPerm = (v e).envIpcPerm) rfl fun u w hu hw => ?_
  rcases eq_or_ne e w.slot with rfl | hne
  · rw [Write.apply_slot, ← hu]
    cases w with
    | perm _ p =>
      obtain ⟨⟨envid, value, srcva, stale, hcall⟩, -⟩ := hw
      exact absurd hcall (hx envid value srcva p stale)
    | _ => rfl
  · rw [Write.apply_of_ne hne]
    exact hu

theorem perm_before {d : Send} (hd : d ∈ sends s c x) (e : ℕ) :
    (d.before.envs e).envIpcPerm = (s.envs e).envIpcPerm := by
  obtain ⟨tf, hb⟩ := before_envs hd
  rw [hb]
  rcases eq_or_ne e d.sender with rfl | hne
  · simp [Write.apply, Write.slot, Write.value]
  · rw [Write.apply_of_ne hne]

/-- The permissions of the last page that was sent to slot `e`, or `w`. -/
def lastPerm (w : Word) (e : ℕ) (l : List Send) : Word :=
  l.foldr (fun d p => if d.target = e ∧ d.Page then d.perm else p) w

theorem perm_of_entry (hrun : s.entry c x = .ok s') (e : ℕ) :
    (s'.envs e).envIpcPerm = lastPerm (s.envs e).envIpcPerm e (sends s c x) := by
  cases hl : sends s c x with
  | nil =>
    obtain ⟨y, hy, -, hw⟩ := wrote_of_no_send hl hrun
    exact perm_of_writes hy hw.writes e
  | cons d l =>
    have hd : d ∈ sends s c x := by
      rw [hl]
      exact List.mem_cons_self
    obtain rfl := tail_of_sends hl
    have hsave := perm_before hd e
    have heax : ((d.after.setEax d.sender 0).envs e).envIpcPerm = (d.after.envs e).envIpcPerm := by
      rcases eq_or_ne e d.sender with rfl | hne
      · simp [setEax, Kernel.setEnv]
      · simp [setEax, Kernel.setEnv, hne]
    rw [perm_of_writes (.of_call rfl) (wrote_of_send hd hrun).writes e, heax]
    show _ = if d.target = e ∧ d.Page then d.perm else _
    rcases eq_or_ne e d.target with rfl | hne
    · obtain ⟨-, -, -, -, -, -, hperm⟩ := target_of_send hd
      rw [hperm]
      simp only [true_and]
      split
      · rfl
      · exact hsave
    · rw [frame_of_send hd hne, if_neg fun h0 => hne h0.1.symm]
      exact hsave

/-- **The field is that of the last page sent to the slot**, also across environments. -/
theorem IpcRun.perm {K : Kernel → ℕ → Entry → Prop} {l : List Send} (h : IpcRun K s₀ l s) (e : ℕ) :
    (s.envs e).envIpcPerm = lastPerm (s₀.envs e).envIpcPerm e l := by
  induction h with
  | start => rfl
  | next _ _ _ hrun ih =>
    rw [perm_of_entry hrun e, ih, lastPerm, lastPerm, lastPerm, List.foldr_append]

/-- Every page is sent with some permission, and once a page has been sent to a slot,
every later message to it carries one. -/
def Tidy (l : List Send) : Prop :=
  (∀ d ∈ l, d.Page → d.perm ≠ 0#32) ∧
    l.Pairwise fun later d => d.target = later.target → d.Page → later.Page

theorem tidy_cons {d : Send} {l : List Send} : Tidy (d :: l) ↔
    ((d.Page → d.perm ≠ 0#32) ∧ ∀ a ∈ l, a.target = d.target → a.Page → d.Page) ∧ Tidy l := by
  unfold Tidy
  rw [List.forall_mem_cons, List.pairwise_cons]
  tauto

/-- If pages come with permissions, the field is zero exactly if no page came. -/
theorem lastPerm_eq_zero_iff {l : List Send} (h : ∀ d ∈ l, d.Page → d.perm ≠ 0#32) (e : ℕ) :
    lastPerm 0#32 e l = 0#32 ↔ ∀ d ∈ l, d.target = e → ¬ d.Page := by
  induction l with
  | nil => exact iff_of_true rfl fun _ h0 => nomatch h0
  | cons d l ih =>
    rw [List.forall_mem_cons] at h ⊢
    show (if d.target = e ∧ d.Page then d.perm else lastPerm 0#32 e l) = 0#32 ↔ _
    by_cases hd : d.target = e ∧ d.Page
    · rw [if_pos hd]
      exact iff_of_false (h.1 hd.2) fun h0 => h0.1 hd.1 hd.2
    · rw [if_neg hd, ih h.2]
      exact ⟨fun h0 => ⟨fun he hp => hd ⟨he, hp⟩, h0⟩, fun h0 => h0.2⟩

/-- **All sends of a run do what they promise exactly if the run is tidy.** -/
theorem delivered_iff_tidy {K : Kernel → ℕ → Entry → Prop} {l : List Send}
    (h0 : ∀ e, (s₀.envs e).envIpcPerm = 0#32) (h : IpcRun K s₀ l s) :
    (∀ d ∈ l, Delivered d) ↔ Tidy l := by
  induction h with
  | start => exact iff_of_true (fun _ h => nomatch h) ⟨fun _ h => (nomatch h), .nil⟩
  | @next l s s' c x hpre _ _ _ ih =>
    cases hl : sends s c x with
    | nil => exact ih
    | cons d l' =>
      have hd : d ∈ sends s c x := by
        rw [hl]
        exact List.mem_cons_self
      obtain rfl := tail_of_sends hl
      show (∀ a ∈ d :: l, Delivered a) ↔ Tidy (d :: l)
      rw [List.forall_mem_cons, tidy_cons, ih]
      refine and_congr_left fun htidy => ?_
      -- before the send, the field is zero exactly if no page has come to the slot
      have hzero : (d.before.envs d.target).envIpcPerm = 0#32 ↔
          ∀ a ∈ l, a.target = d.target → ¬ a.Page := by
        rw [perm_before hd, hpre.perm, h0]
        exact lastPerm_eq_zero_iff htidy.1 _
      rw [delivered_iff hd, hzero]
      by_cases hp : d.Page
      · simp [hp]
      · simp [hp]

/-- The run goes on. -/
theorem IpcRun.after {K : Kernel → ℕ → Entry → Prop} {l : List Send} (h : IpcRun K s₀ l s)
    (hk : K s c x) (hx : CanEnter s c x ∧ (s.entry c x).isOk = true) :
    IpcRun K s₀ (sends s c x ++ l) (s.after c x) :=
  h.next hx.1 hk (entry_eq_ok_after hx.2)

/-- Two environments run, each on a CPU of its own.  The first is the parent of the
second and has a page at `0x1000`. -/
def sharing : Kernel :=
  { oneEnv with
    pages := fun p => ⟨if 8 ≤ p ∧ p < 15 then some (p + 1) else none,
      if 2 ≤ p ∧ p ≤ 6 then 1#16 else 0#16⟩
    phys := fun f i =>
      if f = 2 ∧ i = 0 then 0x3007#32 else if f = 3 ∧ i = 1 then 0x4007#32
      else if f = 5 ∧ i = 0 then 0x6007#32 else 0#32
    envs := fun e => { oneEnv.envs e with
      envLink := if e < 2 ∨ nenv ≤ e + 1 then none else some (e + 1)
      envId := if e = 0 then 0x1000#32 else if e = 1 then 0x1001#32 else 0#32
      envParentId := if e = 1 then 0x1000#32 else 0#32
      envStatus := if e < 2 then .running else .free
      envCpunum := if e < 2 then e else 0
      envPgdir := if e = 0 then some 2 else if e = 1 then some 5 else none }
    envFreeList := some 2
    cpus := fun c => ⟨.started, if c < 2 then some c else none, decide (c < 2),
      if c = 0 then 2 else if c = 1 then 5 else 1, []⟩ }

/-- The entries that pass messages, create and destroy, and the scheduler. -/
def Entry.isIpc : Entry → Bool
  | .schedule | .trap _ .timer => true
  | .trap _ (.syscall x) => match x with
    | .ipcRecv .. | .ipcTrySend .. | .exofork | .envDestroy .. | .yield => true
    | _ => false
  | _ => false

/-- The child asks for a page at `0x2000`. -/
def pageWanted : Kernel := sharing.after 1 (sysEntry (.ipcRecv 0x2000#32))

/-- The parent sends its page. -/
def sendPage : Entry := sysEntry (.ipcTrySend 0x1001#32 5#32 0x1000#32 7#32 none)

theorem sendPage_run : IpcRun (fun _ _ x => x.isIpc = true) sharing (sends pageWanted 0 sendPage)
    (pageWanted.after 0 sendPage) := by
  have h0 : IpcRun (fun _ _ x => x.isIpc = true) sharing [] sharing := .start
  have h1 : IpcRun (fun _ _ x => x.isIpc = true) sharing [] pageWanted :=
    h0.after (c := 1) (x := sysEntry (.ipcRecv 0x2000#32)) rfl (by decide +kernel)
  have h2 := h1.after (c := 0) (x := sendPage) rfl (by decide +kernel)
  rw [List.append_nil] at h2
  exact h2

/-- The theorem for the page that is sent. -/
theorem delivered_iff_tidy_sendPage : (∀ e, (sharing.envs e).envIpcPerm = 0#32) ∧
    ∀ d ∈ sends pageWanted 0 sendPage, Delivered d := by
  refine ⟨fun _ => rfl, (delivered_iff_tidy (fun _ => rfl) sendPage_run).mpr ⟨?_, ?_⟩⟩
  · decide +kernel
  · decide +kernel

/-- The child wants another message, without a page. -/
def plainWanted : Kernel :=
  ((pageWanted.after 0 sendPage).after 1 .schedule).after 1 (sysEntry (.ipcRecv 0xFFFFFFFF#32))

/-- The parent sends it. -/
def sendPlain : Entry := sysEntry (.ipcTrySend 0x1001#32 6#32 0xFFFFFFFF#32 0#32 none)

/-- **A plain message after a page shows the permissions of the page.** -/
theorem not_delivered_sendPlain :
    ¬ ∀ s₀ l s, (∀ e, (s₀.envs e).envIpcPerm = 0#32) →
      IpcRun (fun _ _ x => x.isIpc = true) s₀ l s → ∀ d ∈ l, Delivered d := by
  intro hall
  have h1 := sendPage_run.after (c := 1) (x := .schedule) rfl (by decide +kernel)
  have h2 : IpcRun _ sharing _ plainWanted :=
    h1.after (c := 1) (x := sysEntry (.ipcRecv 0xFFFFFFFF#32)) rfl (by decide +kernel)
  have h3 := h2.after (c := 0) (x := sendPlain) rfl (by decide +kernel)
  obtain ⟨d, hd, hno, hperm⟩ : ∃ d ∈ sends plainWanted 0 sendPlain,
      ¬ d.Page ∧ (d.before.envs d.target).envIpcPerm ≠ 0#32 := by
    decide +kernel
  have hdel := hall _ _ _ (fun _ => rfl) h3 d (List.mem_append_left _ hd)
  rcases (delivered_iff hd).mp hdel with ⟨hp, -⟩ | ⟨-, h0⟩
  · exact hno hp
  · exact hperm h0

end Kernel
end PmakeOs
