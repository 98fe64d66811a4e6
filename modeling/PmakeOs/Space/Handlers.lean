import PmakeOs.Kernel.Syscall
import PmakeOs.Space.Effects

/-!
# The handlers keep the address spaces sound

For each handler of `kern/syscall.c` that changes an address space: called by a
live environment in a sound state, with permission bits below the frame number
and with every reference count below what the counter can hold, it returns, the
state is sound again, and what happened is a sequence of effects.  No panic is
reachable; the one fault that remains is the uninitialised pointer of
`sys_ipc_try_send`.
-/

namespace PmakeOs

open Lib

namespace Kernel

variable {s s' : Kernel} {ρ ρ' : ℕ → Role} {Q pend : ℕ → Prop} {c e d pp p : ℕ}
  {va perm envid : Word}

/-- No page has as many references as the counter can tell apart. -/
def Bounded (s : Kernel) : Prop := ∀ q, refCount s.phys (dirsOf s) q < 2 ^ 16

/-- The counter of the page that environment `e` has mapped at `va`, if any, has not
wrapped. -/
def Droppable (s : Kernel) (e : ℕ) (va : Word) : Prop :=
  ∀ w, entryOf s.phys (dirsOf s) (e, pgnum va) = some w →
    refCount s.phys (dirsOf s) (frame w) < 2 ^ 16

theorem Bounded.droppable (h : Bounded s) (e : ℕ) (va : Word) : Droppable s e va :=
  fun w _ => h (frame w)

/-- The state is sound and no page is on its way. -/
abbrev Settled (s : Kernel) (ρ : ℕ → Role) : Prop := Sound s ρ fun _ => False

/-! ## Insertion and removal -/

theorem Sound.pageInsert (h : Sound s ρ pend) (hd : dirsOf s e = some d) (hva : va < utop)
    (hpp : ρ pp = .data) (hperm : perm.toNat < 2 ^ 12)
    (hb : Droppable s e va)
    (hQ : entryOf s.phys (dirsOf s) (e, pgnum va) ≠ none → Q e) :
    s.pageInsert d pp va perm = .ok (-eNoMem, s) ∨
    ∃ s' ρ', s.pageInsert d pp va perm = .ok (0, s') ∧ Sound s' ρ' (fun q => pend q ∧ q ≠ pp) ∧
      MemoryOnly s s' ∧ Effects Q (s, ρ) (s', ρ') := by
  rcases h.ledger.pageInsert hd hva hpp hperm (fun w hw => (Nat.add_zero _).symm ▸ hb w hw) with ⟨-, -, hrun⟩ |
    ⟨s', ρ', hrun, hled, hins⟩
  · exact Or.inl hrun
  · have hm := memoryOnly_of_pageInsert hrun
    have he : Effect Q (s, ρ) (s', ρ') := .insert hd hva hpp hperm hm hins hQ
    rw [← hm.sameSlots.dirsOf] at hled
    exact Or.inr ⟨s', ρ', hrun, h.step he hled, hm, .single h he⟩

theorem Sound.pageRemove (h : Sound s ρ pend) (hd : dirsOf s e = some d) (hva : va < utop)
    (hb : ∀ w, entryOf s.phys (dirsOf s) (e, pgnum va) = some w →
      refCount s.phys (dirsOf s) (frame w) ≤ 2 ^ 16)
    (hQ : entryOf s.phys (dirsOf s) (e, pgnum va) ≠ none → Q e) :
    ∃ s' ρ', s.pageRemove d va = .ok s' ∧ Sound s' ρ' pend ∧ MemoryOnly s s' ∧
      Removed s s' (dirsOf s) ρ ρ' (fun _ => 0) e (pgnum va) ∧ Effects Q (s, ρ) (s', ρ') := by
  obtain ⟨s', ρ', hrun, hled, hrem⟩ :=
    h.ledger.pageRemove hd hva (fun w hw => (Nat.add_zero _).symm ▸ hb w hw)
  have hm := memoryOnly_of_pageRemove hrun
  have he : Effect Q (s, ρ) (s', ρ') := .remove hd hva hm hrem hQ
  rw [← hm.sameSlots.dirsOf] at hled
  exact ⟨s', ρ', hrun, h.step he hled, hm, hrem, .single h he⟩

/-- A page taken for user data. -/
theorem Sound.takeUserPage (h : Sound s ρ pend) (hl : s.pageFreeList = some p) :
    Sound ((s.takePage p).note (.userPage p)) (Function.update ρ p .data)
        (fun q => pend q ∨ q = p) ∧
      Effects Q (s, ρ) ((s.takePage p).note (.userPage p), Function.update ρ p .data) := by
  have he : Effect Q (s, ρ) ((s.takePage p).note (.userPage p), Function.update ρ p .data) :=
    .take hl (h.ledger.typed.free.role_of_head hl)
  exact ⟨h.step he ((h.ledger.takePage hl).note _), .single h he⟩

/-- A change of the environments' own fields. -/
theorem Sound.quiet (h : Sound s ρ pend) (hn : s'.npages = s.npages) (hp : s'.pages = s.pages)
    (hf : s'.pageFreeList = s.pageFreeList) (hm : s'.phys = s.phys)
    (hk : s'.kernPgdir = s.kernPgdir) (hs : SameSlots s s')
    (hlog : s'.log.filter Event.isMemory = s.log.filter Event.isMemory) :
    Sound s' ρ pend ∧ Effects Q (s, ρ) (s', ρ) := by
  have he : Effect Q (s, ρ) (s', ρ) := .quiet hm hk hs hlog
  have hl : Ledger s' (dirsOf s') ρ (fun _ => 0) pend := by
    rw [hs.dirsOf]
    exact h.ledger.congr hn hp hf hm
  exact ⟨h.step he hl, .single h he⟩

/-- An environment record may change in the fields that say nothing about its
address space. -/
theorem sameSlots_setEnv {v : Env} (hst : v.envStatus = .free ↔ (s.envs e).envStatus = .free)
    (hpg : v.envPgdir = (s.envs e).envPgdir) (hl : v.envLink = (s.envs e).envLink) :
    SameSlots s (s.setEnv e v) := by
  refine ⟨fun e' => ?_, fun e' => ?_, fun e' => ?_, rfl⟩
  · by_cases he : e' = e
    · subst he
      simpa [setEnv] using hst
    · simp [setEnv, he]
  · by_cases he : e' = e
    · subst he
      simpa [setEnv] using hpg
    · simp [setEnv, he]
  · by_cases he : e' = e
    · subst he
      simpa [setEnv] using hl
    · simp [setEnv, he]

/-! ## Environment ids -/

theorem Layout.dirsOf_eq (h : Layout s ρ) (hl : Live s e) :
    ∃ d, (s.envs e).envPgdir = some d ∧ dirsOf s e = some d := by
  obtain ⟨-, d, hd⟩ := h.live hl
  exact ⟨d, hd, by rw [dirsOf_of_live hl, hd]⟩

/-! ## The handlers -/

theorem Sound.refl (h : Sound s ρ pend) (r : ℤ) :
    ∃ r' s' ρ', (.ok (r, s) : Except Panic (ℤ × Kernel)) = .ok (r', s') ∧ Sound s' ρ' pend ∧
      Effects Q (s, ρ) (s', ρ') :=
  ⟨r, s, ρ, rfl, h, .refl⟩

/-- A page that could not be mapped goes back. -/
theorem Sound.giveBack (h : Sound s ρ (fun q => q = p)) (hp : ρ p = .data)
    (hc : refCount s.phys (dirsOf s) p = 0) :
    s.pageFree p = .ok (s.pushFree p) ∧ Settled (s.pushFree p) (Function.update ρ p .free) ∧
      Effects Q (s, ρ) (s.pushFree p, Function.update ρ p .free) := by
  have hcount := h.ledger.count (q := p) (by rw [hp]; simp)
  rw [hp, hc, Role.own_data] at hcount
  have hlink := h.ledger.typed.free.link (p := p) (by rw [hp]; simp)
  have he : Effect Q (s, ρ) (s.pushFree p, Function.update ρ p .free) := .give hp
  refine ⟨pageFree_of_ok hcount hlink, ?_, .single h he⟩
  refine h.step he ((h.ledger.pushFree hp hc).mono fun q hq hqp => ?_)
  subst hqp
  rw [Function.update_self] at hq
  cases hq

/-- **`sys_page_alloc`.** -/
theorem Sound.sysPageAlloc (h : Settled s ρ) (hc : s.curenv = some c) (hlive : Live s c)
    (hperm : perm.toNat < 2 ^ 12)
    (hb : ∀ e, s.envid2env envid true = .ok (0, some e) → Droppable s e va)
    (hQ : ∀ e, s.envid2env envid true = .ok (0, some e) →
      entryOf s.phys (dirsOf s) (e, pgnum va) ≠ none → Q e) :
    ∃ r s' ρ', s.sysPageAlloc envid va perm = .ok (r, s') ∧ Settled s' ρ' ∧
      Effects Q (s, ρ) (s', ρ') := by
  unfold Kernel.sysPageAlloc
  rcases envid2env_cases hc hlive envid true with henv | ⟨e, henv, hle⟩
  · rw [henv, ok_bind]
    exact h.refl _
  rw [henv, ok_bind]
  simp only [ne_eq, not_true_eq_false, if_false]
  split
  · exact h.refl _
  rename_i hva
  have hva' : va < utop := BitVec.not_le.mp fun h0 => hva (Or.inl h0)
  split
  · exact h.refl _
  obtain ⟨d, hpg, hd⟩ := h.layout.dirsOf_eq hle
  cases hl : s.pageFreeList with
  | none =>
    rw [pageAlloc_of_nil hl, ok_bind]
    exact h.refl _
  | some p =>
    have hfree := h.ledger.typed.free.role_of_head hl
    have hplt := h.ledger.typed.lt (p := p) (by rw [hfree]; simp)
    obtain ⟨h₁, he₁⟩ := h.takeUserPage (Q := Q) hl
    have h₁' : Sound ((s.takePage p).note (.userPage p)) (Function.update ρ p .data)
        (fun q => q = p) := ⟨h₁.ledger.mono fun q _ hq => hq.resolve_left id, h₁.layout⟩
    have hent : entryOf ((s.takePage p).note (.userPage p)).phys (dirsOf s) =
        entryOf s.phys (dirsOf s) := h.ledger.typed.tree.entryOf_takePage hfree
    have hdirs : dirsOf ((s.takePage p).note (.userPage p)) = dirsOf s := rfl
    have hcount : refCount ((s.takePage p).note (.userPage p)).phys (dirsOf s) =
        refCount s.phys (dirsOf s) := refCount_of_entryOf_eq hent
    have hb₁ : Droppable ((s.takePage p).note (.userPage p)) e va := by
      intro w hw
      rw [hdirs, hent] at hw
      rw [hdirs, hcount]
      exact hb e henv w hw
    rw [pageAlloc_of_cons hl hplt (lt_of_lt_of_le hplt h.ledger.typed.window), ok_bind]
    show ∃ r s' ρ', (deref (some e) >>= fun e => _) = .ok (r, s') ∧ _
    rw [deref_some, ok_bind]
    show ∃ r s' ρ', (deref (s.envs e).envPgdir >>= fun d => _) = .ok (r, s') ∧ _
    rw [hpg, deref_some, ok_bind]
    rcases h₁'.pageInsert (Q := Q) (e := e) (d := d) hd hva'
      (Function.update_self p .data ρ) hperm hb₁
      (by rw [hdirs, hent]; exact hQ e henv) with hrun | ⟨s₂, ρ₂, hrun, h₂, -, he₂⟩
    · have hno : (-eNoMem : ℤ) ≠ 0 := by decide
      have hzero : refCount ((s.takePage p).note (.userPage p)).phys
          (dirsOf ((s.takePage p).note (.userPage p))) p = 0 := by
        rw [hdirs, hcount]
        exact h.ledger.typed.tree.refCount_eq_zero (by rw [hfree]; simp)
      obtain ⟨hfreed, h₃, he₃⟩ := h₁'.giveBack (Q := Q) (Function.update_self p .data ρ) hzero
      rw [hrun, ok_bind]
      simp only [hno, not_false_eq_true, if_true]
      rw [hfreed, ok_bind]
      exact ⟨_, _, _, rfl, h₃, he₁.trans he₃⟩
    · rw [hrun, ok_bind]
      simp only [not_true_eq_false, if_false]
      refine ⟨_, _, _, rfl, ⟨h₂.ledger.mono fun q _ hq => hq.2 hq.1, h₂.layout⟩, he₁.trans he₂⟩

/-- **`sys_page_unmap`.** -/
theorem Sound.sysPageUnmap (h : Settled s ρ) (hc : s.curenv = some c) (hlive : Live s c)
    (hb : ∀ e, s.envid2env envid true = .ok (0, some e) → Droppable s e va)
    (hQ : ∀ e, s.envid2env envid true = .ok (0, some e) →
      entryOf s.phys (dirsOf s) (e, pgnum va) ≠ none → Q e) :
    ∃ r s' ρ', s.sysPageUnmap envid va = .ok (r, s') ∧ Settled s' ρ' ∧
      Effects Q (s, ρ) (s', ρ') := by
  unfold Kernel.sysPageUnmap
  rcases envid2env_cases hc hlive envid true with henv | ⟨e, henv, hle⟩
  · rw [henv, ok_bind]
    exact h.refl _
  rw [henv, ok_bind]
  simp only [ne_eq, not_true_eq_false, if_false]
  split
  · exact h.refl _
  rename_i hva
  have hva' : va < utop := BitVec.not_le.mp fun h0 => hva (Or.inl h0)
  obtain ⟨d, hpg, hd⟩ := h.layout.dirsOf_eq hle
  rw [deref_some, ok_bind, hpg, deref_some, ok_bind]
  obtain ⟨s', ρ', hrun, h', -, -, he⟩ := h.pageRemove hd hva' (fun w hw => (hb e henv w hw).le) (hQ e henv)
  rw [hrun, ok_bind]
  exact ⟨_, s', ρ', rfl, h', he⟩

/-- **`sys_page_map`.** -/
theorem Sound.sysPageMap {srcenvid srcva dstenvid dstva : Word} (h : Settled s ρ)
    (hc : s.curenv = some c) (hlive : Live s c) (hperm : perm.toNat < 2 ^ 12)
    (hb : ∀ e, s.envid2env dstenvid true = .ok (0, some e) → Droppable s e dstva)
    (hQ : ∀ e, s.envid2env dstenvid true = .ok (0, some e) →
      entryOf s.phys (dirsOf s) (e, pgnum dstva) ≠ none → Q e) :
    ∃ r s' ρ', s.sysPageMap srcenvid srcva dstenvid dstva perm = .ok (r, s') ∧ Settled s' ρ' ∧
      Effects Q (s, ρ) (s', ρ') := by
  unfold Kernel.sysPageMap
  rcases envid2env_cases hc hlive srcenvid true with henv | ⟨se, henv, hse⟩
  · rw [henv, ok_bind]
    exact h.refl _
  rw [henv, ok_bind]
  simp only [ne_eq, not_true_eq_false, if_false]
  rcases envid2env_cases hc hlive dstenvid true with henv' | ⟨de, henv', hde⟩
  · rw [henv', ok_bind]
    exact h.refl _
  rw [henv', ok_bind]
  simp only [not_true_eq_false, if_false]
  split
  · exact h.refl _
  rename_i hva
  have hsrc : srcva < utop := BitVec.not_le.mp fun h0 => hva (Or.inl h0)
  have hdst : dstva < utop := BitVec.not_le.mp fun h0 => hva (Or.inr (Or.inl h0))
  obtain ⟨sd, hspg, hsd⟩ := h.layout.dirsOf_eq hse
  obtain ⟨dd, hdpg, hdd⟩ := h.layout.dirsOf_eq hde
  rw [deref_some, ok_bind, hspg, deref_some, ok_bind]
  rcases h.ledger.typed.pageLookup hsd hsrc with ⟨-, hlook⟩ | ⟨t, w, -, -, -, -, -, hdata, -, hlook⟩
  · rw [hlook, ok_bind]
    exact h.refl _
  rw [hlook, ok_bind]
  show ∃ r s' ρ', (if perm &&& (pteU ||| pteP) ≠ pteU ||| pteP then _ else _) = _ ∧ _
  split
  · exact h.refl _
  split
  · exact h.refl _
  rw [deref_some, ok_bind, hdpg, deref_some, ok_bind]
  rcases h.pageInsert hdd hdst hdata hperm (hb de henv') (hQ de henv') with hrun | ⟨s', ρ', hrun, h', -, he⟩
  · rw [hrun]
    exact h.refl _
  · rw [hrun]
    exact ⟨_, s', ρ', rfl, ⟨h'.ledger.mono fun q _ hq => hq.1, h'.layout⟩, he⟩

theorem SameSlots.trans {s'' : Kernel} (h : SameSlots s s') (h' : SameSlots s' s'') :
    SameSlots s s'' :=
  ⟨fun e => (h'.free_iff e).trans (h.free_iff e), fun e => (h'.pgdir e).trans (h.pgdir e),
    fun e => (h'.link e).trans (h.link e), h'.head.trans h.head⟩

/-- An update of the fields of a live environment that leaves it live. -/
theorem Sound.setEnv (h : Sound s ρ pend) {v : Env} (hle : Live s e) (hst : v.envStatus ≠ .free)
    (hpg : v.envPgdir = (s.envs e).envPgdir) (hl : v.envLink = (s.envs e).envLink) :
    Sound (s.setEnv e v) ρ pend ∧ SameSlots s (s.setEnv e v) ∧
      Effects Q (s, ρ) (s.setEnv e v, ρ) := by
  have hs : SameSlots s (s.setEnv e v) :=
    sameSlots_setEnv ⟨fun h0 => absurd h0 hst, fun h0 => absurd h0 hle⟩ hpg hl
  have hq : Sound (s.setEnv e v) ρ pend ∧ Effects Q (s, ρ) (s.setEnv e v, ρ) :=
    h.quiet rfl rfl rfl rfl rfl hs rfl
  exact ⟨hq.1, hs, hq.2⟩

/-- **The page transfer of `sys_ipc_try_send`.**  It faults if nothing is mapped at
`srcva` and the uninitialised pointer leads nowhere. -/
theorem Sound.ipcTransfer {r : ℕ} (h : Settled s ρ) (hlc : Live s c) (hlr : Live s r)
    (hb : Droppable s r (s.envs r).envIpcDstva) (hperm : perm.toNat < 2 ^ 12)
    (hQ : (s.envs r).envIpcDstva < utop →
      entryOf s.phys (dirsOf s) (r, pgnum (s.envs r).envIpcDstva) ≠ none → Q r)
    (srcva : Word) (stale : Option Word) :
    (stale = none ∧ s.ipcTransfer c r srcva perm stale = .error .kernelFault) ∨
    ∃ ret s' ρ', s.ipcTransfer c r srcva perm stale = .ok (ret, s') ∧ Settled s' ρ' ∧
      SameSlots s s' ∧ Effects Q (s, ρ) (s', ρ') := by
  have hnop : ∀ ret : ℤ, ∃ ret' s' ρ', (.ok (ret, s) : Except Panic (ℤ × Kernel)) =
      .ok (ret', s') ∧ Settled s' ρ' ∧ SameSlots s s' ∧ Effects Q (s, ρ) (s', ρ') :=
    fun ret => ⟨ret, s, ρ, rfl, h, .refl s, .refl⟩
  unfold Kernel.ipcTransfer
  by_cases hva : utop ≤ srcva
  · rw [if_pos hva]
    exact Or.inr (hnop _)
  rw [if_neg hva]
  have hsrc : srcva < utop := BitVec.not_le.mp hva
  obtain ⟨sd, hspg, hsd⟩ := h.layout.dirsOf_eq hlc
  obtain ⟨rd, hrpg, hrd⟩ := h.layout.dirsOf_eq hlr
  simp only [hspg, deref_some, ok_bind]
  rcases h.ledger.typed.pageLookup hsd hsrc with ⟨-, hlook⟩ | ⟨t, w, -, -, -, -, -, hdata, -, hlook⟩
  · rw [hlook, ok_bind]
    by_cases hal : Unaligned srcva
    · rw [if_pos hal]
      exact Or.inr (hnop _)
    rw [if_neg hal]
    cases stale with
    | none => exact Or.inl ⟨rfl, rfl⟩
    | some x =>
      simp only [deref_some, ok_bind]
      by_cases hbits : x &&& perm &&& 7#32 ≠ perm &&& 7#32
      · rw [if_pos hbits]
        exact Or.inr (hnop _)
      · rw [if_neg hbits]
        exact Or.inr (hnop _)
  · right
    rw [hlook, ok_bind]
    by_cases hal : Unaligned srcva
    · rw [if_pos hal]
      exact hnop _
    rw [if_neg hal]
    show ∃ ret s' ρ', (if s.phys t (ptx srcva) &&& perm &&& 7#32 ≠ perm &&& 7#32 then _ else _) =
      _ ∧ _
    split
    · exact hnop _
    split
    · exact hnop _
    split
    · rename_i hdst
      rw [hrpg, deref_some, ok_bind]
      rcases h.pageInsert hrd hdst hdata hperm hb (hQ hdst) with hrun | ⟨s₁, ρ₁, hrun, h₁, hm, he₁⟩
      · have hno : (-eNoMem : ℤ) ≠ 0 := by decide
        rw [hrun, ok_bind]
        simp only [hno, ne_eq, not_false_eq_true, if_true]
        exact hnop _
      · rw [hrun, ok_bind]
        simp only [ne_eq, not_true_eq_false, if_false]
        have h₁' : Settled s₁ ρ₁ := ⟨h₁.ledger.mono fun q _ hq => hq.1, h₁.layout⟩
        have hlr₁ : Live s₁ r := (hm.sameSlots.live_iff r).mpr hlr
        have hset := h₁'.setEnv (Q := Q) (v := { s₁.envs r with envIpcPerm := perm }) hlr₁ hlr₁
          rfl rfl
        obtain ⟨h₂, hs₂, he₂⟩ := hset
        exact ⟨_, _, ρ₁, rfl, h₂, hm.sameSlots.trans hs₂, he₁.trans he₂⟩
    · exact hnop _

/-- **`sys_ipc_try_send`.** -/
theorem Sound.sysIpcTrySend {value srcva : Word} {stale : Option Word} (h : Settled s ρ)
    (hc : s.curenv = some c) (hlive : Live s c) (hperm : perm.toNat < 2 ^ 12)
    (hb : ∀ r, s.envid2env envid false = .ok (0, some r) → Droppable s r (s.envs r).envIpcDstva)
    (hQ : ∀ r, s.envid2env envid false = .ok (0, some r) → (s.envs r).envIpcDstva < utop →
      entryOf s.phys (dirsOf s) (r, pgnum (s.envs r).envIpcDstva) ≠ none → Q r) :
    (stale = none ∧ s.sysIpcTrySend envid value srcva perm stale = .error .kernelFault) ∨
    ∃ ret s' ρ', s.sysIpcTrySend envid value srcva perm stale = .ok (ret, s') ∧ Settled s' ρ' ∧
      Effects Q (s, ρ) (s', ρ') := by
  unfold Kernel.sysIpcTrySend
  rcases envid2env_cases hc hlive envid false with henv | ⟨r, henv, hlr⟩
  · rw [henv, ok_bind]
    exact Or.inr (h.refl _)
  rw [henv, ok_bind]
  simp only [ne_eq, not_true_eq_false, if_false, deref_some, ok_bind, hc]
  split
  · exact Or.inr (h.refl _)
  have htransfer := h.ipcTransfer hlive hlr (hb r henv) hperm (hQ r henv) srcva stale
  rcases htransfer with ⟨hst, herr⟩ | ⟨ret, s₁, ρ₁, hrun, h₁, hs₁, he₁⟩
  · rw [herr]
    exact Or.inl ⟨hst, rfl⟩
  · right
    rw [hrun, ok_bind]
    by_cases hret : ret = 0
    · simp only [hret, not_true_eq_false, if_false]
      have hlr₁ : Live s₁ r := (hs₁.live_iff r).mpr hlr
      obtain ⟨h₂, -, he₂⟩ := h₁.setEnv (Q := Q) (e := r)
        (v := { s₁.envs r with
          envIpcRecving := false
          envIpcFrom := (s₁.envs c).envId
          envIpcValue := value
          envStatus := .runnable
          envTf := { (s₁.envs r).envTf with
            tfRegs := { (s₁.envs r).envTf.tfRegs with regEax := 0 } } })
        hlr₁ (by simp) rfl rfl
      exact ⟨_, _, ρ₁, rfl, h₂, he₁.trans he₂⟩
    · simp only [hret, not_false_eq_true, if_true]
      exact ⟨_, s₁, ρ₁, rfl, h₁, he₁⟩

/-! ## New environments -/

theorem Sound.openEnv (h : Settled s ρ) (he : s.envFreeList = some e)
    (hl : s.pageFreeList = some p) (parentId : Word) :
    Settled (s.openEnv e p parentId) (Function.update ρ p (.dir e)) ∧
      Effects Q (s, ρ) (s.openEnv e p parentId, Function.update ρ p (.dir e)) := by
  have hfree := h.ledger.typed.free.role_of_head hl
  obtain ⟨helt, hnl⟩ := h.layout.not_live_of_head he
  have hpk : p ≠ s.kernPgdir := h.layout.ne_kernPgdir (by rw [hfree]; simp)
  have hphys := openEnv_phys s e parentId hpk
  have heff : Effect Q (s, ρ) (s.openEnv e p parentId, Function.update ρ p (.dir e)) :=
    .openEnv he hl hfree
  refine ⟨h.step heff ?_, .single h heff⟩
  -- the page is a data frame while it is filled
  have h₁ := (h.ledger.takePage hl).incRef p
  have h₂ : Ledger (s.openEnv e p parentId) (dirsOf s) (Function.update ρ p .data)
      (Function.update (fun _ => 0) p (0 + 1)) (fun q => False ∨ q = p) := by
    refine h₁.writeFrame (p := p) ?_ rfl rfl rfl fun f hf k => ?_
    · rw [Function.update_self]
      exact id
    · rw [hphys f k, if_neg hf]
      simp [Kernel.incRef, Kernel.takePage, setPage, zeroFrame, hf]
  have hcount : refCount (s.openEnv e p parentId).phys (dirsOf s) p = 0 := by
    have hent : entryOf (s.openEnv e p parentId).phys (dirsOf s) = entryOf s.phys (dirsOf s) := by
      refine h.ledger.typed.tree.entryOf_retag fun f hf k => ?_
      rw [hphys f k, if_neg ?_]
      rintro rfl
      rw [hfree] at hf
      exact hf
    rw [refCount_of_entryOf_eq hent]
    exact h.ledger.typed.tree.refCount_eq_zero (by rw [hfree]; simp)
  have habs : ∀ i < pdx utop, ¬ Has ((s.openEnv e p parentId).phys p i) pteP := by
    intro i hi
    rw [hphys p i, if_pos rfl, if_neg (by rw [pdx_utop] at hi; rw [pdx_uvpt]; omega)]
    exact h.layout.low hi
  have hoff : ∀ q, q ≠ p → (fun _ => 0 : ℕ → ℕ) q = Function.update (fun _ => 0) p (0 + 1) q := by
    intro q hq
    rw [Function.update_of_ne hq]
  have h₃ := h₂.enterDir (dirsOf_of_not_live hnl) helt (Function.update_self p .data ρ) hcount
    habs (Function.update_self p _ _) hoff
  rw [Function.update_idem, ← dirsOf_openEnv s e p parentId] at h₃
  refine h₃.mono fun q hq hqp => ?_
  obtain rfl := hqp.resolve_left id
  rw [Function.update_self] at hq
  cases hq

theorem Sound.envAlloc_of_free (h : Settled s ρ) (he : s.envFreeList = some e)
    (hl : s.pageFreeList = some p) (parentId : Word) :
    s.envAlloc parentId = .ok (0, some e, s.openEnv e p parentId) := by
  have hfree := h.ledger.typed.free.role_of_head hl
  have hplt := h.ledger.typed.lt (p := p) (by rw [hfree]; simp)
  have hpw := lt_of_lt_of_le hplt h.ledger.typed.window
  have hkva : ((s.takePage p).incRef p).page2kva p = .ok p := page2kva_of_lt hplt hpw
  unfold Kernel.envAlloc envSetupVm
  simp only [he, pageAlloc_of_cons hl hplt hpw, ok_bind, hkva]
  rfl

/-- **`env_alloc`.** -/
theorem Sound.envAlloc (h : Settled s ρ) (parentId : Word) :
    (∃ r, r < 0 ∧ s.envAlloc parentId = .ok (r, none, s)) ∨
    ∃ e p, s.envFreeList = some e ∧ s.pageFreeList = some p ∧
      s.envAlloc parentId = .ok (0, some e, s.openEnv e p parentId) ∧
      Settled (s.openEnv e p parentId) (Function.update ρ p (.dir e)) ∧
      Effects Q (s, ρ) (s.openEnv e p parentId, Function.update ρ p (.dir e)) := by
  cases he : s.envFreeList with
  | none =>
    refine Or.inl ⟨-eNoFreeEnv, by decide, ?_⟩
    unfold Kernel.envAlloc
    rw [he]
    rfl
  | some e =>
    cases hl : s.pageFreeList with
    | none =>
      refine Or.inl ⟨-eNoMem, by decide, ?_⟩
      unfold Kernel.envAlloc envSetupVm
      rw [he, pageAlloc_of_nil hl]
      rfl
    | some p =>
      obtain ⟨hopen, heff⟩ := h.openEnv (Q := Q) he hl parentId
      exact Or.inr ⟨e, p, rfl, rfl, h.envAlloc_of_free he hl parentId, hopen, heff⟩

/-- **`sys_exofork`.** -/
theorem Sound.sysExofork (h : Settled s ρ) (hc : s.curenv = some c) :
    ∃ r s' ρ', s.sysExofork = .ok (r, s') ∧ Settled s' ρ' ∧ Effects Q (s, ρ) (s', ρ') := by
  unfold Kernel.sysExofork
  rw [hc, deref_some, ok_bind]
  rcases h.envAlloc (Q := Q) (s.envs c).envId with ⟨r, hr, hrun⟩ |
    ⟨e, p, -, -, hrun, hopen, he⟩
  · rw [hrun, ok_bind]
    simp only [if_pos hr]
    exact h.refl _
  · rw [hrun, ok_bind]
    simp only [Int.lt_irrefl, if_false, deref_some, ok_bind]
    have hlive : Live (s.openEnv e p (s.envs c).envId) e :=
      (live_openEnv s e p _ e).mpr (Or.inl rfl)
    obtain ⟨h', -, he'⟩ := hopen.setEnv (Q := Q) (e := e)
      (v := { (s.openEnv e p (s.envs c).envId).envs e with
        envTf := { ((s.openEnv e p (s.envs c).envId).envs c).envTf with
          tfRegs := { ((s.openEnv e p (s.envs c).envId).envs c).envTf.tfRegs with regEax := 0 } }
        envStatus := .notRunnable })
      hlive (by simp) rfl rfl
    exact ⟨_, _, _, rfl, h', he.trans he'⟩

end Kernel
end PmakeOs
