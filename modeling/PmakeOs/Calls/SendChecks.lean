import PmakeOs.Calls.Authority

/-!
# What a send of a page refuses

The comment of `sys_ipc_try_send` lists the pages that must not be sent: an address that is
not aligned, a page that the caller does not have, an inappropriate `perm`, a page that is
read-only and wanted writable.  The code looks the page up first, and `page_lookup` leaves the
pointer to the entry unset when there is no page; the next test but one reads through that
pointer, before the test for the page.  And `perm` itself is tested nowhere: what is tested is
that its low three bits are in the entry.

`refuses_iff` says what is left: a send is refused exactly if the address is not aligned, or
the page is there and `perm` has one of `PTE_P`, `PTE_W` and `PTE_U` that its entry has not.
-/

namespace PmakeOs
namespace Kernel

variable {s s' : Kernel} {ρ : ℕ → Role} {c d r : ℕ} {envid value srcva perm : Word}
  {stale : Option Word}

/-- A page that environment `c` must not send. -/
def Unsendable (s : Kernel) (c : ℕ) (srcva perm : Word) : Prop :=
  Unaligned srcva ∨
  entryOf s.phys (dirsOf s) (c, pgnum srcva) = none ∨
  perm &&& (pteU ||| pteP) ≠ pteU ||| pteP ∨
  perm &&& ~~~pteSyscall ≠ 0#32 ∨
  Has perm pteW ∧ ∃ w, entryOf s.phys (dirsOf s) (c, pgnum srcva) = some w ∧ ¬ Has w pteW

/-- The send returns `-E_INVAL` and changes nothing, whatever the pointer that `page_lookup`
may leave unset points to, and also if it points nowhere. -/
def Refuses (s : Kernel) (envid srcva perm : Word) : Prop :=
  ∀ value stale, s.sysIpcTrySend envid value srcva perm stale = .ok (-eInval, s)

/-- What the code does refuse. -/
def Caught (s : Kernel) (c : ℕ) (srcva perm : Word) : Prop :=
  Unaligned srcva ∨ ∃ w, entryOf s.phys (dirsOf s) (c, pgnum srcva) = some w ∧
    w &&& perm &&& 7#32 ≠ perm &&& 7#32

/-! ## The transfer -/

theorem ipcTransfer_of_unaligned (ht : Typed s (dirsOf s) ρ) (hd : dirsOf s c = some d)
    (hsrc : srcva < utop) (hal : Unaligned srcva) :
    s.ipcTransfer c r srcva perm stale = .ok (-eInval, s) := by
  unfold ipcTransfer
  rw [if_neg (BitVec.not_le.mpr hsrc), pgdir_of_dirsOf hd, deref_some, ok_bind]
  rcases ht.pageLookup hd hsrc with ⟨-, hlook⟩ | ⟨t, w, -, -, -, -, -, -, -, hlook⟩
  · rw [hlook, ok_bind, if_pos hal]
    rfl
  · rw [hlook, ok_bind, if_pos hal]
    rfl

/-- Without a page, the first thing is to read through the pointer. -/
theorem ipcTransfer_of_absent (ht : Typed s (dirsOf s) ρ) (hd : dirsOf s c = some d)
    (hsrc : srcva < utop) (hal : ¬ Unaligned srcva)
    (hno : entryOf s.phys (dirsOf s) (c, pgnum srcva) = none) :
    s.ipcTransfer c r srcva perm none = .error .kernelFault := by
  unfold ipcTransfer
  rw [if_neg (BitVec.not_le.mpr hsrc), pgdir_of_dirsOf hd, deref_some, ok_bind]
  rcases ht.pageLookup hd hsrc with ⟨-, hlook⟩ | ⟨t, w, -, -, -, -, -, -, hw, -⟩
  · rw [hlook, ok_bind, if_neg hal]
    rfl
  · rw [hno] at hw
    cases hw

theorem ipcTransfer_of_lacking {w : Word} (ht : Typed s (dirsOf s) ρ) (hd : dirsOf s c = some d)
    (hsrc : srcva < utop) (hal : ¬ Unaligned srcva)
    (hyes : entryOf s.phys (dirsOf s) (c, pgnum srcva) = some w)
    (hperm : w &&& perm &&& 7#32 ≠ perm &&& 7#32) :
    s.ipcTransfer c r srcva perm stale = .ok (-eInval, s) := by
  unfold ipcTransfer
  rw [if_neg (BitVec.not_le.mpr hsrc), pgdir_of_dirsOf hd, deref_some, ok_bind]
  rcases ht.pageLookup hd hsrc with ⟨hno, -⟩ | ⟨t, w', -, -, -, hpte, -, -, hw, hlook⟩
  · rw [hno] at hyes
    cases hyes
  · obtain rfl : w' = w := Option.some.inj (hw.symm.trans hyes)
    rw [hlook, ok_bind, if_neg hal]
    dsimp only
    rw [pure_bind, hpte, if_pos hperm]
    rfl

/-- A page whose entry has the low bits of `perm` is sent, or there is no memory. -/
theorem ipcTransfer_of_covered {w : Word} {ret : ℤ} (ht : Typed s (dirsOf s) ρ)
    (hd : dirsOf s c = some d) (hsrc : srcva < utop) (hal : ¬ Unaligned srcva)
    (hyes : entryOf s.phys (dirsOf s) (c, pgnum srcva) = some w)
    (hperm : w &&& perm &&& 7#32 = perm &&& 7#32)
    (h : s.ipcTransfer c r srcva perm stale = .ok (ret, s')) : ret ≠ -eInval := by
  have hwrite : ¬ (Has perm pteW ∧ ¬ Has w pteW) := by
    rintro ⟨hp, hw⟩
    refine hw ?_
    have hand := congrArg (· &&& pteW) hperm
    have h7 : (7#32 : Word) &&& pteW = pteW := by decide
    simp only [BitVec.and_assoc, h7] at hand
    unfold Has at hp ⊢
    intro h0
    refine hp ?_
    rw [← hand, BitVec.and_comm perm, ← BitVec.and_assoc, h0, BitVec.zero_and]
  unfold ipcTransfer at h
  rw [if_neg (BitVec.not_le.mpr hsrc), pgdir_of_dirsOf hd, deref_some, ok_bind] at h
  rcases ht.pageLookup hd hsrc with ⟨hno, -⟩ | ⟨t, w', -, -, -, hpte, -, -, hw, hlook⟩
  · rw [hno] at hyes
    cases hyes
  obtain rfl : w' = w := Option.some.inj (hw.symm.trans hyes)
  rw [hlook, ok_bind, if_neg hal] at h
  dsimp only at h
  rw [pure_bind, hpte, if_neg (not_not.mpr hperm), if_neg hwrite] at h
  split at h
  · obtain ⟨rd, -, hrest⟩ := bind_eq_ok.mp h
    obtain ⟨⟨ret', s₁⟩, hins, hrest⟩ := bind_eq_ok.mp hrest
    simp only at hrest
    rcases log_of_pageInsert hins with rfl | ⟨rfl, -⟩
    · rw [if_pos (by decide)] at hrest
      obtain ⟨rfl, -⟩ := Prod.mk.inj (Except.ok.inj hrest)
      decide
    · rw [if_neg (not_not.mpr rfl)] at hrest
      obtain ⟨rfl, -⟩ := Prod.mk.inj (Except.ok.inj hrest)
      decide
  · obtain ⟨rfl, -⟩ := Prod.mk.inj (Except.ok.inj h)
    decide

/-! ## The call -/

/-- Once a receiver has been found, only the transfer can refuse. -/
theorem sysIpcTrySend_inval_iff (hc : s.curenv = some c)
    (henv : s.envid2env envid false = .ok (0, some r)) (hrecv : (s.envs r).envIpcRecving = true) :
    s.sysIpcTrySend envid value srcva perm stale = .ok (-eInval, s) ↔
      s.ipcTransfer c r srcva perm stale = .ok (-eInval, s) := by
  have hinval : (-eInval : ℤ) ≠ 0 := by decide
  unfold sysIpcTrySend
  rw [henv, ok_bind]
  dsimp only
  rw [if_neg (not_not.mpr rfl), deref_some, ok_bind, if_neg (not_not.mpr hrecv), hc, deref_some,
    ok_bind]
  cases htr : s.ipcTransfer c r srcva perm stale with
  | error p => exact iff_of_false nofun nofun
  | ok x =>
    obtain ⟨ret, s₁⟩ := x
    rw [ok_bind]
    dsimp only
    split
    · rfl
    · rename_i hret
      obtain rfl := not_not.mp hret
      refine iff_of_false (fun h0 => ?_) fun h0 => ?_
      · exact hinval (Prod.mk.inj (Except.ok.inj h0)).1.symm
      · exact hinval (Prod.mk.inj (Except.ok.inj h0)).1.symm

theorem refuses_iff_caught (ht : Typed s (dirsOf s) ρ) (hc : s.curenv = some c)
    (hd : dirsOf s c = some d) (henv : s.envid2env envid false = .ok (0, some r))
    (hrecv : (s.envs r).envIpcRecving = true) (hsrc : srcva < utop) :
    Refuses s envid srcva perm ↔ Caught s c srcva perm := by
  have hiff : ∀ value stale, s.sysIpcTrySend envid value srcva perm stale = .ok (-eInval, s) ↔
      s.ipcTransfer c r srcva perm stale = .ok (-eInval, s) :=
    fun _ _ => sysIpcTrySend_inval_iff hc henv hrecv
  unfold Refuses
  simp only [hiff]
  by_cases hal : Unaligned srcva
  · exact iff_of_true (fun _ _ => ipcTransfer_of_unaligned ht hd hsrc hal) (Or.inl hal)
  cases hw : entryOf s.phys (dirsOf s) (c, pgnum srcva) with
  | none =>
    refine iff_of_false (fun h => ?_) ?_
    · have hnone := h 0#32 none
      rw [ipcTransfer_of_absent ht hd hsrc hal hw] at hnone
      cases hnone
    · rintro (h | ⟨w, hsome, -⟩)
      · exact hal h
      · rw [hw] at hsome
        cases hsome
  | some w =>
    by_cases hperm : w &&& perm &&& 7#32 = perm &&& 7#32
    · refine iff_of_false (fun h => ?_) ?_
      · exact ipcTransfer_of_covered ht hd hsrc hal hw hperm (h 0#32 none) rfl
      · rintro (h | ⟨w', hsome, hne⟩)
        · exact hal h
        · obtain rfl : w = w' := Option.some.inj (hw.symm.trans hsome)
          exact hne hperm
    · exact iff_of_true (fun _ _ => ipcTransfer_of_lacking ht hd hsrc hal hw hperm)
        (Or.inr ⟨w, hw, hperm⟩)

/-- **A send that must be refused is refused exactly if** its address is not aligned, or the
page is there and its entry lacks one of the low three bits of `perm`. -/
theorem refuses_iff (ht : Typed s (dirsOf s) ρ) (hc : s.curenv = some c)
    (hd : dirsOf s c = some d) (henv : s.envid2env envid false = .ok (0, some r))
    (hrecv : (s.envs r).envIpcRecving = true) (hsrc : srcva < utop) :
    (Unsendable s c srcva perm → Refuses s envid srcva perm) ↔
      (Unsendable s c srcva perm → Caught s c srcva perm) := by
  rw [refuses_iff_caught ht hc hd henv hrecv hsrc]

/-- The child of `sharing` waits for a page at `0x2000`, and the parent is in the kernel. -/
def listening : Kernel :=
  sharing.setEnv 1 { sharing.envs 1 with
    envIpcRecving := true, envStatus := .notRunnable, envIpcDstva := 0x2000#32 }

theorem dirsOf_listening : dirsOf listening = dirsOf sharing := by
  ext1 e
  rcases eq_or_ne e 1 with rfl | hne
  · rfl
  · have hsame : listening.envs e = sharing.envs e := Function.update_of_ne hne _ _
    unfold dirsOf
    rw [hsame]

theorem listening_typed : Typed listening (dirsOf listening) sharingRoles := by
  rw [dirsOf_listening]
  refine ⟨sharing_spaces.typed.window, sharing_spaces.typed.lt, ?_, sharing_spaces.typed.tree⟩
  exact sharing_free.congr rfl rfl fun _ => Iff.rfl

theorem listening_child : listening.envid2env 0x1001#32 false = .ok (0, some 1) := by
  rfl

/-- The parent offers an address inside its page. -/
theorem refuses_iff_inside : Unsendable listening 0 0x1001#32 7#32 ∧
    Refuses listening 0x1001#32 0x1001#32 7#32 := by
  have hbad : Unsendable listening 0 0x1001#32 7#32 := Or.inl (by decide)
  refine ⟨hbad, ?_⟩
  have hcaught : Caught listening 0 0x1001#32 7#32 := Or.inl (by decide)
  exact (refuses_iff (d := 2) listening_typed rfl rfl listening_child rfl (by decide)).mpr
    (fun _ => hcaught) hbad

/-- **A page whose table is absent is read through the pointer that was never set.** -/
theorem not_refuses : ¬ ∀ (s : Kernel) (ρ : ℕ → Role) (c d r : ℕ) (envid srcva perm : Word),
    Typed s (dirsOf s) ρ → s.curenv = some c → dirsOf s c = some d →
    s.envid2env envid false = .ok (0, some r) → (s.envs r).envIpcRecving = true → srcva < utop →
    Unsendable s c srcva perm → Refuses s envid srcva perm := by
  intro hall
  have hno : entryOf listening.phys (dirsOf listening) (0, pgnum 0x400000#32) = none := by
    decide +kernel
  have href := hall listening sharingRoles 0 2 1 0x1001#32 0x400000#32 7#32 listening_typed rfl rfl
    listening_child rfl (by decide) (Or.inr (Or.inl hno)) 0#32 none
  rw [sysIpcTrySend_inval_iff (c := 0) rfl listening_child rfl,
    ipcTransfer_of_absent listening_typed rfl (by decide) (by decide) hno] at href
  cases href

end Kernel
end PmakeOs
