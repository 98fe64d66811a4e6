import PmakeOs.User.Eager

/-!
# Processes

What a program may rely on in any state that the kernel reaches: what `fork` leaves to the
parent and to the child, when the child has all pages, when `fork` returns, when a store
returns, and that copy-on-write cannot be told from a copy.

No page has 32768 mappings or more (`Runs`), the system calls of a program are taken to reach
their handlers, and the stack that `fork` runs on is left out.
-/

namespace PmakeOs

open Lib Kernel

variable {s s' : Kernel} {ρ : ℕ → Role} {c e n : ℕ} {va w x : Word} {h : Hardware}
  {first : Bool} {upcall : Word} {id : ℤ}

namespace User

/-- There are `n` pages on the free list. -/
def Spare (s : Kernel) (n : ℕ) : Prop := ∃ F : Finset ℕ, n ≤ F.card ∧ ∀ f ∈ F, s.InFreeList f

theorem Spare.supply (hn : Spare s n) (hs : Settled s ρ) : Supply ρ n := by
  obtain ⟨F, hF, hfree⟩ := hn
  obtain ⟨l, hl, hmem⟩ := hs.ledger.typed.free.list
  exact ⟨F, hF, fun f hf => (hmem f).mp (hl.linked_iff.mp (hfree f hf))⟩

theorem Supply.spare (hn : Supply ρ n) (hs : Settled s ρ) : Spare s n := by
  obtain ⟨F, hF, hfree⟩ := hn
  obtain ⟨l, hl, hmem⟩ := hs.ledger.typed.free.list
  exact ⟨F, hF, fun f hf => hl.linked_iff.mpr ((hmem f).mpr (hfree f hf))⟩

/-! ## A program -/

/-- The first environment is running, with one page, at address zero. -/
structure OnePage (s : Kernel) (c p : ℕ) (perm : Word) : Prop where
  reached : Reached machine64 s
  runs : Runs s c
  window : p < kernWindow
  entries : ∀ x, entryOf s.phys (dirsOf s) x =
    if x = (c, 0) then some (page2pa p ||| perm ||| pteP) else none
  slot : ∃ e, s.envFreeList = some e
  spare : Spare s 10

/-- What `page_insert` puts at `va` is all that is mapped. -/
theorem exists_onePage (perm : Word) (hbits : perm &&& (pteU ||| pteP) = pteU ||| pteP)
    (hperm : perm &&& ~~~ pteSyscall = 0#32) : ∃ s c p, OnePage s c p perm := by
  obtain ⟨s₀, hboot⟩ := machine64_boots
  obtain ⟨s, e, d, ρ, spare, hexec, hfirst, hcard⟩ := firstEnv_of_bootUp hboot
  have hlen := length_allocatable_machine64
  obtain ⟨-, e₀, hslot⟩ := slots_of_firstEnv hboot hexec hfirst.settled hfirst.live
  have hupn : 0 < upn := by
    rw [upn_eq]
    omega
  have hlow := toNat_lt_of_syscall hperm
  obtain ⟨q, hq, r, hr, hqr⟩ := Finset.one_lt_card.mp (show 1 < spare.card by omega)
  obtain ⟨p, s₁, ρ₁, hrun, hpw, hs₁, hm, hent, hfree⟩ :=
    (hfirst.settled.setCurenv (some e)).sysPageAlloc_spare (envid2env_zero s e true) hfirst.dir
      (pageVa_lt hupn) (not_unaligned_pageVa hupn) hbits hlow (hfirst.entries _)
      (hfirst.free q hq) (hfirst.free r hr) hqr
  have hcall : s.exec (.call e (.pageAlloc 0#32 (pageVa 0) perm)) = .ok s₁ := by
    rw [exec, handle, returning_ok hrun]
    rfl
  have hd₁ : dirsOf s₁ e = some d := by
    rw [hm.sameSlots.dirsOf]
    exact hfirst.dir
  have hone : ∀ x, entryOf s₁.phys (dirsOf s₁) x =
      if x = (e, 0) then some (page2pa p ||| perm ||| pteP) else none := by
    intro x
    have hnone : entryOf (s.setCurenv (some e)).phys (dirsOf (s.setCurenv (some e))) x = none :=
      hfirst.entries x
    rw [hent, pgnum_pageVa hupn, Function.update_apply]
    split
    · rfl
    · exact hnone
  -- the directory of the environment is loaded
  have ha : Aloof s₁ (s₁.lcr3 d) :=
    ⟨rfl, rfl, rfl, rfl, ⟨fun _ => Iff.rfl, fun _ => rfl, fun _ => rfl, rfl⟩, fun _ _ => rfl⟩
  have hload : (s₁.lcr3 d).thiscpu.cr3 = d := by
    simp [lcr3, thiscpu, setCpu]
  have hcur : (s₁.lcr3 d).curenv = s₁.curenv := by
    simp [lcr3, thiscpu, setCpu, curenv]
  obtain ⟨ρ₀, hset₀, -, -⟩ := settled_of_bootUp hboot
  have hopen : Modest s₀ (.envAlloc 0#32) :=
    ⟨by decide, uncrowded_of_no_entry hset₀ (no_entry_of_bootUp hboot)⟩
  have hreach : Reached machine64 s :=
    .op (.boot hboot) (show Issuable s₀ (.envAlloc 0#32) from trivial) hopen hexec
  have hreach₁ : Reached machine64 s₁ :=
    .op hreach (show Issuable s (.call e (.pageAlloc 0#32 (pageVa 0) perm)) from
      ⟨hfirst.live, rfl⟩) ⟨hperm, uncrowded_of_no_entry hfirst.settled hfirst.entries⟩ hcall
  refine ⟨s₁.lcr3 d, e, p, .other hreach₁ ha, ⟨?_, ?_, fun q => ?_⟩, hpw, hone, ⟨e₀, ?_⟩, ?_⟩
  · rw [hcur, hm.curenv]
    exact curenv_setCurenv s (some e)
  · rw [hload]
    exact hd₁
  · refine (refCount_le_one (y := (e, 0)) (fun z w hz => ?_) q).trans_lt (by decide)
    by_contra hne
    rw [show entryOf (s₁.lcr3 d).phys (dirsOf (s₁.lcr3 d)) z = _ from hone z, if_neg hne] at hz
    cases hz
  · exact hm.envFreeList.trans hslot
  · refine Supply.spare (s := s₁.lcr3 d)
      ⟨(spare.erase p).erase (frame (s₁.phys d (pdx (pageVa 0)))), ?_, fun f hf => ?_⟩ (hs₁.aloof ha)
    · have hcard₁ := Finset.pred_card_le_card_erase (s := spare) (a := p)
      have hcard₂ := Finset.pred_card_le_card_erase (s := spare.erase p)
        (a := frame (s₁.phys d (pdx (pageVa 0))))
      omega
    · rw [Finset.mem_erase, Finset.mem_erase] at hf
      exact hfree f (hfirst.free f hf.2.2) hf.2.1 hf.1

theorem OnePage.mapped_le {p : ℕ} {perm : Word} (h : OnePage s c p perm) :
    (mappedFrom s c 0).card ≤ 1 := by
  refine Finset.card_le_one.mpr fun a ha b hb => ?_
  have hzero : ∀ v ∈ mappedFrom s c 0, v = 0 := by
    intro v hv
    have hv' := (Finset.mem_filter.mp hv).2.2
    rw [h.entries] at hv'
    by_contra hne
    rw [if_neg fun h0 => hne (Prod.mk.inj h0).2] at hv'
    exact hv' rfl
  rw [hzero a ha, hzero b hb]

/-- The program can fork. -/
theorem OnePage.fork_ok {p : ℕ} {perm : Word} (h : OnePage s c p perm) :
    ∃ id s', User.fork s false 0#32 = .ok (id, s') ∧ 0 < id := by
  obtain ⟨ρ, hs, -⟩ := h.reached.settled
  obtain ⟨e₀, he⟩ := h.slot
  have hcard := h.mapped_le
  exact (h.runs.caller hs).fork_ok he ((h.spare.supply hs).mono (by omega)) 0#32

/-! ## What `fork` leaves -/

/-- **The child of `fork`** has below `USTACKTOP` what `copyOf` makes of the entries of the parent,
the parent keeps what `keptOf` makes of them, other environments keep theirs, and no page that
was mapped has changed. -/
theorem fork_duplicates (hr : Reached h s) (hc : Runs s c)
    (hrun : User.fork s first upcall = .ok (id, s')) (hid : 0 < id) :
    Duplicates s s' c (envx (BitVec.ofInt 32 id)) := by
  obtain ⟨ρ, hs, -⟩ := hr.settled
  obtain ⟨ρ', -, -, -, hdup⟩ := (hc.caller hs).fork hrun hid
  exact hdup

/-- A program with one page of its own. -/
theorem fork_duplicates_onePage : ∃ s s' c id, Reached machine64 s ∧ Runs s c ∧
    User.fork s false 0#32 = .ok (id, s') ∧ 0 < id ∧
    Duplicates s s' c (envx (BitVec.ofInt 32 id)) := by
  obtain ⟨s, c, p, h⟩ := exists_onePage readWrite (by decide) (by decide)
  obtain ⟨id, s', hrun, hid⟩ := h.fork_ok
  exact ⟨s, s', c, id, h.reached, h.runs, hrun, hid, fork_duplicates h.reached h.runs hrun hid⟩

/-- Every page below `USTACKTOP` that user mode has access to in `c` is there in `e`, with the
contents that it had, and a shared page is the same one, with no right that `c` has not. -/
def Complete (s s' : Kernel) (c e : ℕ) : Prop :=
  ∀ v w, v < ustackPages → entryOf s.phys (dirsOf s) (c, v) = some w → Has w pteU →
    ∃ w', entryOf s'.phys (dirsOf s') (e, v) = some w' ∧ Has w' pteU ∧
      (∀ j, s'.phys (frame w') j = s.phys (frame w) j) ∧
      (Has w pteShare → frame w' = frame w ∧ (Has w' pteW → Has w pteW))

/-- No page is shared for reading only. -/
def SharesWritable (s : Kernel) (c : ℕ) : Prop :=
  ∀ v w, v < ustackPages → entryOf s.phys (dirsOf s) (c, v) = some w → Has w pteU →
    Has w pteShare → Has w pteW

/-- **The child has all pages unless one is shared for reading only.** -/
theorem fork_complete_iff (hr : Reached h s) (hc : Runs s c)
    (hrun : User.fork s first upcall = .ok (id, s')) (hid : 0 < id) :
    Complete s s' c (envx (BitVec.ofInt 32 id)) ↔ SharesWritable s c := by
  obtain ⟨ρ, hs, -⟩ := hr.settled
  obtain ⟨ρ', -, -, -, hdup⟩ := (hc.caller hs).fork hrun hid
  constructor
  · intro hall v w hv hw hU hshare
    by_contra hW
    obtain ⟨w', hw', -⟩ := hall v w hv hw hU
    rw [hdup.child v hv, hw, Option.bind_some, copyOf, if_pos hU, if_pos hshare, if_neg hW] at hw'
    cases hw'
  · intro hshares v w hv hw hU
    have hwords := hdup.words (c, v) w hv hw
    have hcopy : ∀ w', copyOf w = some w' →
        entryOf s'.phys (dirsOf s') (envx (BitVec.ofInt 32 id), v) = some w' := by
      intro w' h0
      rw [hdup.child v hv, hw, Option.bind_some, h0]
    by_cases hshare : Has w pteShare
    · have hW := hshares v w hv hw hU hshare
      refine ⟨page2pa (frame w) ||| pteSyscall ||| pteP, hcopy _ ?_, ?_, fun j => ?_,
        fun _ => ⟨frame_mapping w (by decide), fun _ => hW⟩⟩
      · rw [copyOf, if_pos hU, if_pos hshare, if_pos hW]
      · exact has_entry (by decide)
      · rw [frame_mapping w (by decide)]
        exact hwords j
    · obtain ⟨w', hw', hp⟩ := protects_copyOf hU hshare
      refine ⟨w', hcopy w' hw', hp.user, fun j => ?_, fun h0 => absurd h0 hshare⟩
      rw [hp.sameFrame]
      exact hwords j

/-- A program whose only page is shared for reading only: the child is without it. -/
theorem fork_complete_iff_onePage : ∃ s s' c id, Reached machine64 s ∧ Runs s c ∧
    User.fork s false 0#32 = .ok (id, s') ∧ 0 < id ∧
    ¬ Complete s s' c (envx (BitVec.ofInt 32 id)) := by
  obtain ⟨s, c, p, h⟩ := exists_onePage (pteU ||| pteP ||| pteShare) (by decide) (by decide)
  obtain ⟨id, s', hrun, hid⟩ := h.fork_ok
  refine ⟨s, s', c, id, h.reached, h.runs, hrun, hid, fun hall => ?_⟩
  have hbits : Has (pteU ||| pteP ||| pteShare) pteU ∧ Has (pteU ||| pteP ||| pteShare) pteShare ∧
    ¬ Has (pteU ||| pteP ||| pteShare) pteW := by decide
  have hP : ¬ Has pteP pteW := by decide
  have hW := (fork_complete_iff h.reached h.runs hrun hid).mp hall 0 _ (by decide)
    ((h.entries _).trans (if_pos rfl)) (has_entry hbits.1) (has_entry hbits.2.1)
  exact not_has_entry (by decide) hbits.2.2 hP hW

/-- **`fork` returns a positive id** if there are a free slot, a free page for every page that
is mapped below `USTACKTOP`, and three more: for the directory, for the last table, and for the
exception stack of the child. -/
theorem fork_returns (hr : Reached h s) (hc : Runs s c) (he : s.envFreeList = some e)
    (hfree : Spare s ((mappedFrom s c 0).card + 3)) (upcall : Word) :
    ∃ id s', User.fork s false upcall = .ok (id, s') ∧ 0 < id := by
  obtain ⟨ρ, hs, -⟩ := hr.settled
  exact (hc.caller hs).fork_ok he (hfree.supply hs) upcall

theorem fork_returns_onePage : ∃ s c, Reached machine64 s ∧ Runs s c ∧
    ∃ id s', User.fork s false 0#32 = .ok (id, s') ∧ 0 < id := by
  obtain ⟨s, c, p, h⟩ := exists_onePage readWrite (by decide) (by decide)
  obtain ⟨e₀, he⟩ := h.slot
  obtain ⟨F, hF, hfree⟩ := h.spare
  have hcard := h.mapped_le
  exact ⟨s, c, h.reached, h.runs,
    fork_returns h.reached h.runs he ⟨F, by omega, hfree⟩ 0#32⟩

/-! ## Stores -/

/-- **With two free pages, a store returns if and only if the page may be written, or is
copy-on-write and the fault gets to the upcall.** -/
theorem storeCow_returns_iff {tf : Trapframe} (hr : Reached h s) (hc : Runs s c)
    (htemp : entryOf s.phys (dirsOf s) (c, tempPage) = none) (hfree : Spare s 2)
    (hva : pgnum va < ustackPages) (huser : tf.tfCs &&& 3#16 ≠ 0#16) (x : Word) :
    (∃ s', storeCow s tf va x = .ok s') ↔
      ∃ w, entryOf s.phys (dirsOf s) (c, pgnum va) = some w ∧
        (Has w pteU ∧ Has w pteW ∨ Has w pteCow ∧ Armed s c tf) := by
  obtain ⟨ρ, hs, -⟩ := hr.settled
  have hcall := hc.caller hs
  constructor
  · rintro ⟨s', hrun⟩
    obtain ⟨w, hw, hend⟩ := hcall.storeCow (pgnum_lt_upn_of_lt hva) htemp hrun
    refine ⟨w, hw, ?_⟩
    rcases hend with ⟨hU, hW, -⟩ | ⟨-, hcow, harmed, -⟩
    · exact Or.inl ⟨hU, hW⟩
    · exact Or.inr ⟨hcow, harmed⟩
  · rintro ⟨w, hw, hend⟩
    by_cases hbits : Has w pteU ∧ Has w pteW
    · exact ⟨_, hcall.storeCow_writable hw hbits.1 hbits.2 tf x⟩
    obtain ⟨hcow, harmed⟩ := hend.resolve_left hbits
    obtain ⟨f, r, hf, hr, hfr⟩ := (hfree.supply hs).two
    exact hcall.storeCow_cow hw hbits hcow harmed huser htemp hf hr hfr

theorem OnePage.own {p : ℕ} {perm : Word} (h : OnePage s c p perm) (hU : Has perm pteU)
    (hshare : ¬ Has perm pteShare) : Own (entryOf s.phys (dirsOf s)) := by
  have hcase : ∀ y w, entryOf s.phys (dirsOf s) y = some w →
      y = (c, 0) ∧ w = page2pa p ||| perm ||| pteP := by
    intro y w hw
    rw [h.entries] at hw
    split at hw
    · rename_i hy
      exact ⟨hy, (Option.some.inj hw).symm⟩
    · cases hw
  have hP : ¬ Has pteP pteShare := by decide
  refine ⟨fun y w hw => ?_, fun y w hw => ?_, fun y z w w' hw hw' _ _ => ?_, fun e => ?_⟩
  · obtain ⟨-, rfl⟩ := hcase y w hw
    exact has_entry hU
  · obtain ⟨-, rfl⟩ := hcase y w hw
    exact not_has_entry (by decide) hshare hP
  · rw [(hcase y w hw).1, (hcase z w' hw').1]
  · rw [h.entries, if_neg]
    exact fun h0 => absurd (Prod.mk.inj h0).2 (show tempPage ≠ 0 by decide)

/-- The frame of a program whose stack is empty. -/
def startFrame : Trapframe := { (default : Trapframe) with tfCs := 0x1B#16, tfEsp := ustacktop }

/-- A program with an exception stack sets its upcall. -/
theorem Caller.setUpcall (hc : Caller s ρ c)
    (hw : entryOf s.phys (dirsOf s) (c, uxstackPage) = some w) (hU : Has w pteU)
    (hW : Has w pteW) : ∃ s', SameSpaces s s' ∧ Caller s' ρ c ∧ Armed s' c startFrame := by
  have hsame : SameSpaces s (s.setEnv c { s.envs c with
      envPgfaultUpcall := 1#32, envStatus := .running }) :=
    .setEnv (iff_of_false (by simp) hc.live) rfl rfl
  have hself : (s.setEnv c { s.envs c with
      envPgfaultUpcall := 1#32, envStatus := .running }).envs c =
      { s.envs c with envPgfaultUpcall := 1#32, envStatus := .running } :=
    Function.update_self c _ s.envs
  have hc' := hc.of_same hsame rfl
  refine ⟨_, hsame, hc', ?_, ?_, ?_⟩
  · rw [hself]
    exact fun h0 => by cases h0
  · rw [hself]
    exact (by decide : (1#32 : Word) ≠ 0#32)
  · exact stack_of_entry hc'.settled hc'.loaded (by decide)
      ((congrFun hsame.entries _).trans hw) hU hW

/-- The program sets its upcall, with a page for the exception stack. -/
theorem OnePage.arm {p : ℕ} {perm : Word} (h : OnePage s c p perm) :
    ∃ s', Reached machine64 s' ∧ Runs s' c ∧ Armed s' c startFrame ∧ Spare s' 2 ∧
      Grants (entryOf s.phys (dirsOf s)) (entryOf s'.phys (dirsOf s')) ∧
      ∀ v < ustackPages, entryOf s'.phys (dirsOf s') (c, v) = entryOf s.phys (dirsOf s) (c, v) := by
  obtain ⟨ρ, hs, -⟩ := h.reached.settled
  have hc := h.runs.caller hs
  have hone : ∀ z w, entryOf s.phys (dirsOf s) z = some w → z = (c, 0) := by
    intro z w hz
    by_contra hne
    rw [h.entries, if_neg hne] at hz
    cases hz
  have hnone : entryOf s.phys (dirsOf s) (c, pgnum uxstackVa) = none := by
    rw [h.entries, if_neg fun h0 => absurd (Prod.mk.inj h0).2 (by decide)]
  obtain ⟨F, hF, hfree⟩ := h.spare.supply hs
  obtain ⟨q, hq, r, hr, hqr⟩ := Finset.one_lt_card.mp (show 1 < F.card by omega)
  obtain ⟨t, s₁, ρ₁, hrun, -, hs₁, hm, hent, hkept⟩ := hs.sysPageAlloc_spare
    (envid2env_self hc.curenv) hc.loaded (show uxstackVa < utop by decide)
    (show ¬ Unaligned uxstackVa by decide)
    (show (pteU ||| pteP ||| pteW) &&& (pteU ||| pteP) = pteU ||| pteP by decide)
    (show (pteU ||| pteP ||| pteW).toNat < 2 ^ 12 by decide) hnone (hfree q hq) (hfree r hr) hqr
  -- the page, as a step of the kernel
  have hcall : s.handle (.pageAlloc 0#32 uxstackVa (pteU ||| pteP ||| pteW)) = .ok (.ret 0, s₁) :=
    returning_ok hrun
  have hexec : s.exec (.call c (.pageAlloc 0#32 uxstackVa (pteU ||| pteP ||| pteW))) = .ok s₁ := by
    rw [exec, setCurenv_self hc.curenv, hcall]
    rfl
  have hreach₁ : Reached machine64 s₁ :=
    .op h.reached (show Issuable s (.call c (.pageAlloc 0#32 uxstackVa (pteU ||| pteP ||| pteW)))
      from ⟨hc.live, rfl⟩)
    ⟨show (pteU ||| pteP ||| pteW) &&& ~~~ pteSyscall = 0#32 by decide,
      uncrowded_of_refCount_le hs (refCount_le_one hone)⟩ hexec
  obtain ⟨e, t', ρ', -, hg⟩ := hs.allocated hc.curenv hc.live
    (show (pteU ||| pteP ||| pteW).toNat < 2 ^ 12 by decide) (fun e _ => hc.droppable e _) hcall
  have hc₁ := hc.given (show (pteU ||| pteP ||| pteW).toNat < 2 ^ 12 by decide) hg
  have hw : entryOf s₁.phys (dirsOf s₁) (c, uxstackPage) = _ :=
    (congrFun hent (c, uxstackPage)).trans (Function.update_self (c, pgnum uxstackVa) _ _)
  have hbits : Has (pteU ||| pteP ||| pteW) pteU ∧ Has (pteU ||| pteP ||| pteW) pteW := by decide
  obtain ⟨s₂, hsame, hc₂, harmed⟩ := hc₁.setUpcall hw (has_entry hbits.1)
    (has_entry hbits.2)
  refine ⟨s₂, .other hreach₁ hsame.aloof, ⟨hc₂.curenv, hc₂.loaded, hc₂.light⟩, harmed, ?_, ?_,
    fun v hv => ?_⟩
  · refine Supply.spare ⟨(F.erase t).erase (frame (s₁.phys s.thiscpu.cr3 (pdx uxstackVa))), ?_,
      fun f hf => ?_⟩ (hs₁.aloof hsame.aloof)
    · have hcard₁ := Finset.pred_card_le_card_erase (s := F) (a := t)
      have hcard₂ := Finset.pred_card_le_card_erase (s := F.erase t)
        (a := frame (s₁.phys s.thiscpu.cr3 (pdx uxstackVa)))
      omega
    · rw [Finset.mem_erase, Finset.mem_erase] at hf
      exact hkept f (hfree f hf.2.2) hf.2.1 hf.1
  · rw [hsame.entries]
    exact grants_of_gives hg hs (by decide) (by decide) (by decide)
  · exact (congrFun hsame.entries _).trans ((samePages_of_gives hg hs).entries (c, v) hv)

/-- The program has set no upcall. -/
theorem OnePage.not_armed {p : ℕ} {perm : Word} (h : OnePage s c p perm) :
    ¬ Armed s c startFrame := by
  intro harmed
  obtain ⟨-, t, ht, -⟩ := harmed.stack 0 (by decide)
  have hnone : entryOf s.phys (dirsOf s)
      (c, pgnum (utrapframeAddr startFrame.tfEsp + BitVec.ofNat 32 0)) = none := by
    rw [h.entries, if_neg fun h0 => absurd (Prod.mk.inj h0).2 (by decide)]
  rw [walk_of_no_entry h.runs.loaded (pgnum_frame_lt _ (by decide)) hnone] at ht
  cases ht

/-- The entry of a page that is copy-on-write. -/
theorem has_cowEntry (p : ℕ) : Has (cowEntry p) pteCow ∧ ¬ Has (cowEntry p) pteW := by
  have hbits : Has (pteCow ||| pteU ||| pteP) pteCow ∧ ¬ Has (pteCow ||| pteU ||| pteP) pteW ∧
    ¬ Has pteP pteW := by decide
  obtain ⟨hcow, hW, hP⟩ := hbits
  exact ⟨has_entry hcow, not_has_entry (by decide) hW hP⟩

/-- A program with an upcall, whose page is copy-on-write. -/
theorem exists_armed : ∃ s c p, Reached machine64 s ∧ Runs s c ∧ Armed s c startFrame ∧ Spare s 2 ∧
    Own (entryOf s.phys (dirsOf s)) ∧ entryOf s.phys (dirsOf s) (c, 0) = some (cowEntry p) := by
  obtain ⟨s, c, p, h⟩ := exists_onePage (pteCow ||| pteU ||| pteP) (by decide) (by decide)
  obtain ⟨s', hreach, hruns, harmed, hfree, hgrant, hent⟩ := h.arm
  refine ⟨s', c, p, hreach, hruns, harmed, hfree, (h.own (by decide) (by decide)).grants hgrant, ?_⟩
  rw [hent 0 (by decide), h.entries, if_pos rfl]
  rfl

/-- A page that is copy-on-write can be written to by a program with an upcall, and not by one
without. -/
theorem storeCow_returns_iff_onePage :
    (∃ s c p, Reached machine64 s ∧ Runs s c ∧
      entryOf s.phys (dirsOf s) (c, 0) = some (cowEntry p) ∧
      ∃ s', storeCow s startFrame (pageVa 0) 1#32 = .ok s') ∧
    ∃ s c p, Reached machine64 s ∧ Runs s c ∧
      entryOf s.phys (dirsOf s) (c, 0) = some (cowEntry p) ∧
      ¬ ∃ s', storeCow s startFrame (pageVa 0) 1#32 = .ok s' := by
  have hzero : pgnum (pageVa 0) = 0 := by decide
  have hlt : pgnum (pageVa 0) < ustackPages := by decide
  have hcs : startFrame.tfCs &&& 3#16 ≠ 0#16 := by decide
  constructor
  · obtain ⟨s, c, p, hreach, hruns, harmed, hfree, hown, hw⟩ := exists_armed
    exact ⟨s, c, p, hreach, hruns, hw,
      (storeCow_returns_iff hreach hruns (hown.temp c) hfree hlt hcs 1#32).mpr
        ⟨_, by rw [hzero, hw], Or.inr ⟨(has_cowEntry p).1, harmed⟩⟩⟩
  · obtain ⟨s, c, p, h⟩ := exists_onePage (pteCow ||| pteU ||| pteP) (by decide) (by decide)
    obtain ⟨F, hF, hfree⟩ := h.spare
    have hown := h.own (by decide) (by decide)
    have hw : entryOf s.phys (dirsOf s) (c, 0) = some (cowEntry p) := by
      rw [h.entries, if_pos rfl]
      rfl
    refine ⟨s, c, p, h.reached, h.runs, hw, fun hrun => ?_⟩
    obtain ⟨w', hw', hend⟩ := (storeCow_returns_iff h.reached h.runs (hown.temp c)
      ⟨F, by omega, hfree⟩ hlt hcs 1#32).mp hrun
    rw [hzero, hw] at hw'
    obtain rfl := Option.some.inj hw'
    obtain ⟨-, harmed⟩ := hend.resolve_left fun h0 => (has_cowEntry p).2 h0.2
    exact h.not_armed harmed

/-! ## Copy-on-write cannot be told from a copy -/

/-- **In every run of loads, stores, forks, exits and turns**, what the processes find below
`USTACKTOP` is what they would find if `fork` had copied every page. -/
theorem fork_is_a_copy {acts : List Act} (hr : Reached h s) (ho : Own (entryOf s.phys (dirsOf s)))
    (hrun : Trail Does s acts s') : Trail Eager (views s) acts (views s') := by
  obtain ⟨ρ, hs, -⟩ := hr.settled
  have hsane : Sane s := ⟨⟨ρ, hs⟩, ho⟩
  exact hrun.simulate (fun _ _ _ hI hd => hI.simulates hd) hsane

/-- The program may write to its page. -/
theorem OnePage.setWord {p j : ℕ} {perm : Word} (h : OnePage s c p perm)
    (hperm : perm.toNat < 2 ^ 12) (x : Word) : OnePage (s.setWord p j x) c p perm := by
  obtain ⟨ρ, hs, -⟩ := h.reached.settled
  have hw := (h.entries (c, 0)).trans (if_pos rfl)
  have ha : Aloof s (s.setWord p j x) := by
    have h0 := aloof_setWord (j := j) (x := x) hw
    rwa [frame_entry h.window hperm] at h0
  have hent := hs.entryOf_aloof ha
  refine ⟨.other h.reached ha, ⟨h.runs.curenv, h.runs.loaded, fun q => ?_⟩, h.window,
    fun y => (congrFun hent y).trans (h.entries y), h.slot, h.spare⟩
  rw [refCount_of_entryOf_eq hent]
  exact h.runs.light q

/-- A program writes to its page and forks, and one writes to a page that is copy-on-write. -/
theorem fork_is_a_copy_onePage :
    (∃ s s' c e, Reached machine64 s ∧
      Trail Eager (views s) ([] ++ [.store c (pgnum (pageVa 0)) (wordOf (pageVa 0)) 1#32] ++
        [.fork c e]) (views s')) ∧
    ∃ s s' c p, Reached machine64 s ∧ entryOf s.phys (dirsOf s) (c, 0) = some (cowEntry p) ∧
      Trail Eager (views s) ([] ++ [.store c (pgnum (pageVa 0)) (wordOf (pageVa 0)) 1#32])
        (views s') := by
  have hlt : pgnum (pageVa 0) < ustackPages := by decide
  have hzero : pgnum (pageVa 0) = 0 := by decide
  constructor
  · obtain ⟨s, c, p, h⟩ := exists_onePage readWrite (by decide) (by decide)
    obtain ⟨ρ, hs, -⟩ := h.reached.settled
    have hright : Has readWrite pteU ∧ Has readWrite pteW := by decide
    have hw : entryOf s.phys (dirsOf s) (c, pgnum (pageVa 0)) =
        some (page2pa p ||| readWrite ||| pteP) := by
      rw [hzero, h.entries, if_pos rfl]
    have hstore := (h.runs.caller hs).storeCow_writable hw (has_entry hright.1)
      (has_entry hright.2) startFrame 1#32
    rw [frame_entry h.window (by decide)] at hstore
    have h₁ := h.setWord (j := (pageVa 0).toNat % pgsize / 4) (by decide) 1#32
    obtain ⟨id, s', hrun, hid⟩ := h₁.fork_ok
    exact ⟨s, s', c, _, h.reached, fork_is_a_copy h.reached (h.own (by decide) (by decide))
      (.snoc (.snoc .nil (.store h.runs hlt hstore)) (.fork h₁.runs hrun hid))⟩
  · obtain ⟨s, c, p, hreach, hruns, harmed, hfree, hown, hw⟩ := exists_armed
    obtain ⟨ρ, hs, -⟩ := hreach.settled
    obtain ⟨f, r, hf, hr, hfr⟩ := (hfree.supply hs).two
    obtain ⟨s', hstore⟩ := (hruns.caller hs).storeCow_cow (x := 1#32)
      (by rw [hzero, hw]) (fun h0 => (has_cowEntry p).2 h0.2) (has_cowEntry p).1 harmed (by decide)
      (hown.temp c) hf hr hfr
    exact ⟨s, s', c, p, hreach, hw, fork_is_a_copy hreach hown
      (.snoc .nil (.store hruns hlt hstore))⟩

end User
end PmakeOs
