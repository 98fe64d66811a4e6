import PmakeOs.Space.Teardown
import PmakeOs.Space.History

/-!
# Runs of the operations on address spaces

An operation is `env_alloc`, `env_free`, or a system call that some environment
issues.  One theorem says what an operation does to a sound state
(`Settled.exec`): it leaves a sound state, and gets there through the effects of
`Space.Effects`.  What holds in every state of a run follows by induction.

Two things can go wrong, and both are hypotheses on the operation rather than on
the state it leaves:

* the argument `perm` may have bits above the twelve flag bits (`MemOp.perm`);
* the mapping that the operation takes down may be one of more than the counter
  of its page can tell apart (`Touches`, `Droppable`).
-/

namespace PmakeOs

open Lib

namespace Kernel

variable {s s' : Kernel} {ρ ρ' : ℕ → Role} {Q : ℕ → Prop} {c e d p q : ℕ} {va : Word}

/-! ## Operations -/

/-- The system call changes address spaces. -/
def Syscall.isSpace : Syscall → Bool
  | .pageAlloc .. | .pageMap .. | .pageUnmap .. | .ipcTrySend .. | .exofork => true
  | _ => false

/-- The argument `perm` of the call, zero if it has none. -/
def Syscall.perm : Syscall → Word
  | .pageAlloc _ _ perm => perm
  | .pageMap _ _ _ _ perm => perm
  | .ipcTrySend _ _ _ perm _ => perm
  | _ => 0#32

/-- The call may unmap or replace what environment `e` has mapped at `va`. -/
inductive Target (s : Kernel) : Syscall → ℕ → Word → Prop
  | pageAlloc {e : ℕ} {envid va perm : Word} (h : s.envid2env envid true = .ok (0, some e)) :
      Target s (.pageAlloc envid va perm) e va
  | pageMap {e : ℕ} {srcenvid srcva dstenvid dstva perm : Word}
      (h : s.envid2env dstenvid true = .ok (0, some e)) :
      Target s (.pageMap srcenvid srcva dstenvid dstva perm) e dstva
  | pageUnmap {e : ℕ} {envid va : Word} (h : s.envid2env envid true = .ok (0, some e)) :
      Target s (.pageUnmap envid va) e va
  | ipcTrySend {e : ℕ} {envid value srcva perm : Word} {stale : Option Word}
      (h : s.envid2env envid false = .ok (0, some e)) :
      Target s (.ipcTrySend envid value srcva perm stale) e (s.envs e).envIpcDstva

inductive MemOp where
  | envAlloc (parentId : Word)
  | envFree (e : ℕ)
  /-- The system call `x`, issued by environment `c`. -/
  | call (c : ℕ) (x : Syscall)

/-- The state in which the operation returns. -/
def exec (s : Kernel) : MemOp → Except Panic Kernel
  | .envAlloc parentId => (s.envAlloc parentId).map fun r => r.2.2
  | .envFree e => s.envFree e
  | .call c x => ((s.setCurenv (some c)).handle x).map Prod.snd

/-- Only a live environment is freed, and only a live one calls. -/
def Issuable (s : Kernel) : MemOp → Prop
  | .envAlloc _ => True
  | .envFree e => Live s e
  | .call c x => Live s c ∧ x.isSpace = true

def MemOp.perm : MemOp → Word
  | .call _ x => x.perm
  | _ => 0#32

/-- The operation may take down the mapping that environment `e` has at `va`. -/
inductive Touches (s : Kernel) : MemOp → ℕ → Word → Prop
  | envFree {e : ℕ} {va : Word} : Touches s (.envFree e) e va
  | call {c e : ℕ} {x : Syscall} {va : Word} (h : Target (s.setCurenv (some c)) x e va) :
      Touches s (.call c x) e va

/-! ## One operation -/

theorem returning_ok {x : Except Panic (ℤ × Kernel)} {r : ℤ} (h : x = .ok (r, s)) :
    returning x = .ok (.ret r, s) := by
  rw [h]
  rfl

theorem returning_error {x : Except Panic (ℤ × Kernel)} {p : Panic} (h : x = .error p) :
    returning x = .error p := by
  rw [h]
  rfl

/-- **A system call from a sound state.**  It stops only where `sys_ipc_try_send`
follows a pointer that leads nowhere. -/
theorem Sound.handle {x : Syscall} (h : Settled s ρ) (hc : s.curenv = some c) (hlive : Live s c)
    (hx : x.isSpace = true) (hperm : x.perm.toNat < 2 ^ 12)
    (hb : ∀ e va, Target s x e va → Droppable s e va)
    (hQ : ∀ e va, Target s x e va → entryOf s.phys (dirsOf s) (e, pgnum va) ≠ none → Q e) :
    s.handle x = .error .kernelFault ∨
    ∃ r s' ρ', s.handle x = .ok (.ret r, s') ∧ Settled s' ρ' ∧ Effects Q (s, ρ) (s', ρ') := by
  cases x with
  | pageAlloc envid va perm =>
    obtain ⟨r, s', ρ', hrun, h', he⟩ := h.sysPageAlloc hc hlive hperm
      (fun e henv => hb e va (.pageAlloc henv)) (fun e henv => hQ e va (.pageAlloc henv))
    exact Or.inr ⟨r, s', ρ', returning_ok hrun, h', he⟩
  | pageMap srcenvid srcva dstenvid dstva perm =>
    obtain ⟨r, s', ρ', hrun, h', he⟩ : ∃ r s' ρ', s.sysPageMap srcenvid srcva dstenvid dstva perm =
        .ok (r, s') ∧ Settled s' ρ' ∧ Effects Q (s, ρ) (s', ρ') :=
      h.sysPageMap hc hlive hperm (fun e henv => hb e dstva (.pageMap henv))
        (fun e henv => hQ e dstva (.pageMap henv))
    exact Or.inr ⟨r, s', ρ', returning_ok hrun, h', he⟩
  | pageUnmap envid va =>
    obtain ⟨r, s', ρ', hrun, h', he⟩ := h.sysPageUnmap hc hlive
      (fun e henv => hb e va (.pageUnmap henv)) (fun e henv => hQ e va (.pageUnmap henv))
    exact Or.inr ⟨r, s', ρ', returning_ok hrun, h', he⟩
  | ipcTrySend envid value srcva perm stale =>
    have hsend : (stale = none ∧ s.sysIpcTrySend envid value srcva perm stale =
          .error .kernelFault) ∨
        ∃ r s' ρ', s.sysIpcTrySend envid value srcva perm stale = .ok (r, s') ∧ Settled s' ρ' ∧
          Effects Q (s, ρ) (s', ρ') :=
      h.sysIpcTrySend hc hlive hperm (fun r henv => hb r _ (.ipcTrySend henv))
        (fun r henv _ => hQ r _ (.ipcTrySend henv))
    rcases hsend with ⟨-, hrun⟩ | ⟨r, s', ρ', hrun, h', he⟩
    · exact Or.inl (returning_error hrun)
    · exact Or.inr ⟨r, s', ρ', returning_ok hrun, h', he⟩
  | exofork =>
    obtain ⟨r, s', ρ', hrun, h', he⟩ := h.sysExofork (Q := Q) hc
    exact Or.inr ⟨r, s', ρ', returning_ok hrun, h', he⟩
  | _ => cases hx

theorem curenv_setCurenv (s : Kernel) (o : Option ℕ) : (s.setCurenv o).curenv = o := by
  simp [curenv, setCurenv, setCpu]

/-- **An operation from a sound state.** -/
theorem Sound.exec {op : MemOp} (h : Settled s ρ) (hop : Issuable s op)
    (hperm : op.perm.toNat < 2 ^ 12) (hb : ∀ e va, Touches s op e va → Droppable s e va)
    (hQ : ∀ e va, Touches s op e va → entryOf s.phys (dirsOf s) (e, pgnum va) ≠ none → Q e)
    (hfree : ∀ e, op = .envFree e → Q e) :
    s.exec op = .error .kernelFault ∨
    ∃ s' ρ', s.exec op = .ok s' ∧ Settled s' ρ' ∧ Effects Q (s, ρ) (s', ρ') := by
  cases op with
  | envAlloc parentId =>
    right
    rcases h.envAlloc (Q := Q) parentId with ⟨r, -, hrun⟩ | ⟨e, p, -, -, hrun, h', he⟩
    · exact ⟨s, ρ, by rw [Kernel.exec, hrun]; rfl, h, .refl⟩
    · exact ⟨_, _, by rw [Kernel.exec, hrun]; rfl, h', he⟩
  | envFree e =>
    right
    have hcount : Countable s e := by
      intro vpn w hw
      obtain ⟨hlt, -⟩ := exists_of_entryOf hw
      have hva : pgnum (BitVec.ofNat 32 (vpn * 2 ^ 12)) = vpn := by
        rw [upn_eq] at hlt
        rw [pgnum_eq, BitVec.toNat_ofNat]
        omega
      have hdrop := hb e (BitVec.ofNat 32 (vpn * 2 ^ 12)) .envFree
      exact (hdrop w (by rw [hva]; exact hw)).le
    obtain ⟨s', ρ', hrun, h', -, he⟩ := h.envFree hop hcount (hfree e rfl)
    exact ⟨s', ρ', hrun, h', he⟩
  | call c x =>
    have hq : Settled (s.setCurenv (some c)) ρ ∧ Effects Q (s, ρ) (s.setCurenv (some c), ρ) :=
      h.quiet rfl rfl rfl rfl rfl ⟨fun _ => Iff.rfl, fun _ => rfl, fun _ => rfl, rfl⟩ rfl
    have hrun := hq.1.handle (Q := Q) (curenv_setCurenv s (some c)) hop.1 hop.2 hperm
      (fun e va ht => hb e va (.call ht)) (fun e va ht => hQ e va (.call ht))
    rcases hrun with hrun | ⟨r, s', ρ', hrun, h', he⟩
    · left
      rw [Kernel.exec, hrun]
      rfl
    · right
      exact ⟨s', ρ', by rw [Kernel.exec, hrun]; rfl, h', hq.2.trans he⟩

/-! ## Runs -/

/-- A run of operations of the kind `K`, which may depend on the state before the
operation. -/
def Run (K : Kernel → MemOp → Prop) : Kernel → Kernel → Prop :=
  Relation.ReflTransGen fun s s' => ∃ op, Issuable s op ∧ K s op ∧ s.exec op = .ok s'

theorem Effects.logged (h : Effects Q (s, ρ) (s', ρ')) (hl : Logged s ρ) : Logged s' ρ' := by
  refine h.invariant (I := fun a => Logged a.1 a.2) hl ?_
  intro s₁ ρ₁ s₂ ρ₂ pend hs he hI
  refine he.logged hs hI fun {t e i} ht => hs.ledger.typed.lt_kernWindow fun h0 => ?_
  rw [← he.reserved_iff hs.ledger.typed, ht] at h0
  cases h0

/-- What a run keeps, about the address spaces and about their history. -/
structure Kept (ρ₀ : ℕ → Role) (s : Kernel) (ρ : ℕ → Role) : Prop where
  settled : Settled s ρ
  logged : Logged s ρ
  reserved : ∀ f, ρ f = .reserved ↔ ρ₀ f = .reserved

/-- **A run from a sound state stays sound**, if no operation has a stray bit in
`perm` or takes down a mapping whose count has wrapped. -/
theorem Run.kept {K : Kernel → MemOp → Prop} {s₀ : Kernel} {ρ₀ : ℕ → Role} (h : Run K s₀ s)
    (hperm : ∀ s op, K s op → op.perm.toNat < 2 ^ 12)
    (hb : ∀ s op, K s op → ∀ e va, Touches s op e va → Droppable s e va)
    (h0 : Settled s₀ ρ₀) (hl : Logged s₀ ρ₀) : ∃ ρ, Kept ρ₀ s ρ := by
  induction h with
  | refl => exact ⟨ρ₀, h0, hl, fun _ => Iff.rfl⟩
  | tail _ hstep ih =>
    obtain ⟨ρ, hk⟩ := ih
    obtain ⟨op, hop, hK, hrun⟩ := hstep
    have hexec := hk.settled.exec (Q := fun _ => True) hop (hperm _ op hK) (hb _ op hK)
      (fun _ _ _ _ => trivial) (fun _ _ => trivial)
    rcases hexec with herr | ⟨s', ρ', hrun', h', he⟩
    · rw [herr] at hrun
      cases hrun
    · rw [hrun'] at hrun
      obtain rfl := Except.ok.inj hrun
      exact ⟨ρ', h', he.logged hk.logged, fun f => (he.reserved_iff f).trans (hk.reserved f)⟩

end Kernel
end PmakeOs
