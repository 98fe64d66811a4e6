import PmakeOs.Calls.Mailbox
import PmakeOs.Sched.Table

/-!
# `sys_ipc_try_send`, seen from the sender

`ipc_send` without a page: whether the message goes depends on `env_ipc_recving` of the target
alone, and what the sender finds in `eax` tells it which (`entry_of_send`).  The id with which it
names the target keeps its meaning as long as the target is not freed (`known_of_entry`); the
first id of a target is what `sys_exofork` returns (`child_of_exofork`).
-/

namespace PmakeOs
namespace Kernel

variable {s s' : Kernel} {c e r : ℕ} {x : Entry} {o : Option ℕ}

/-- An id that names slot `r`. -/
structure Names (s : Kernel) (id : Word) (r : ℕ) : Prop where
  ne_zero : id ≠ 0#32
  slot : envx id = r
  id : (s.envs r).envId = id
  live : (s.envs r).envStatus ≠ .free

theorem Names.envid2env {id : Word} (h : Names s id r) :
    s.envid2env id false = .ok (0, some r) := by
  have hok : ¬ ((s.envs r).envStatus = .free ∨ (s.envs r).envId ≠ id) := by
    rintro (h0 | h0)
    · exact h.live h0
    · exact h0 h.id
  unfold Kernel.envid2env
  rw [if_neg h.ne_zero]
  dsimp only
  rw [h.slot, if_neg hok, if_neg (fun h0 => nomatch h0.1)]
  rfl

/-! ## Ids -/

theorem setEax_envStatus (s : Kernel) (e j : ℕ) (ret : ℤ) :
    ((s.setEax e ret).envs j).envStatus = (s.envs j).envStatus := by
  rcases eq_or_ne j e with rfl | hne
  · simp [setEax, setEnv]
  · rw [setEax_envs_of_ne hne]

/-- Only `env_alloc` writes an id, and only `env_free` marks a slot as free. -/
theorem known_of_writes {v v' : ℕ → Env} (hx : x.call ≠ some .exofork)
    (hst : (v r).envStatus ≠ .free) (h : Writes (Write.Legal o x) v v') :
    (v' r).envPgdir = none ∨ (v' r).envId = (v r).envId ∧ (v' r).envStatus ≠ .free := by
  refine h.invariant
    (I := fun u => (u r).envPgdir = none ∨ (u r).envId = (v r).envId ∧ (u r).envStatus ≠ .free)
    (Or.inr ⟨rfl, hst⟩) fun u w hu hw => ?_
  rcases eq_or_ne r w.slot with rfl | hne
  · rw [Write.apply_slot]
    cases w with
    | alloc e d parentId => exact absurd hw.1 hx
    | free e link => exact Or.inl rfl
    | status e st =>
      refine hu.imp_right fun h0 => ⟨h0.1, ?_⟩
      rcases hw with ⟨rfl, -⟩ | ⟨rfl, -⟩ | ⟨-, -, h1⟩
      · exact nofun
      · exact nofun
      · exact h1
    | fork e c => exact absurd hw.1 hx
    | recv e dstva => exact hu.imp_right fun h0 => ⟨h0.1, nofun⟩
    | deliver e c value => exact hu.imp_right fun h0 => ⟨h0.1, nofun⟩
    | run e cpu => exact hu.imp_right fun h0 => ⟨h0.1, nofun⟩
    | _ => exact hu
  · rw [Write.apply_of_ne hne]
    exact hu

/-- **An id keeps its meaning** as long as its environment is not freed. -/
theorem known_of_entry (hl : Listed s) (hpg : (s.envs r).envPgdir ≠ none)
    (hst : (s.envs r).envStatus ≠ .free) (hrun : s.entry c x = .ok s')
    (halive : (s'.envs r).envPgdir ≠ none) :
    (s'.envs r).envId = (s.envs r).envId ∧ (s'.envs r).envStatus ≠ .free := by
  by_cases hx : x.call = some .exofork
  · obtain ⟨tf, rfl⟩ := Entry.eq_trap_of_call hx
    have hserve := serving_enter s c
    have hsched : Entry.schedule.call ≠ some .exofork := nofun
    obtain ⟨e, he, ⟨-, hw⟩ | ⟨-, ret, s₁, hz, hw⟩⟩ := wrote_of_returns (fun _ => rfl) hserve hrun
    · exact (known_of_writes hsched hst hw.writes).resolve_left halive
    · -- the slot that is taken is another one
      have hfree : s.envFreeList ≠ some r := fun h0 => hpg (hl.head h0)
      have hsame : (s₁.envs r) = ((s.enter c).savedFrame e tf).envs r := envs_of_sysExofork hz hfree
      have hsaved := savedFrame_envs (s.enter c) e tf r
      have hlive : ((s₁.setEax e ret).envs r).envStatus ≠ .free := by
        rw [setEax_envStatus, hsame, hsaved.1]
        exact hst
      obtain ⟨hid, hlive'⟩ := (known_of_writes hsched hlive hw.writes).resolve_left halive
      refine ⟨?_, hlive'⟩
      rw [hid, setEax_envId, hsame, hsaved.2.1]
      rfl
  · exact (known_of_writes hx hst (wrote_entry hrun).writes).resolve_left halive

theorem Names.entry {id : Word} (h : Names s id r) (hl : Listed s)
    (hpg : (s.envs r).envPgdir ≠ none) (hrun : s.entry c x = .ok s')
    (halive : (s'.envs r).envPgdir ≠ none) : Names s' id r := by
  obtain ⟨hid, hlive⟩ := known_of_entry hl hpg h.live hrun halive
  exact ⟨h.ne_zero, h.slot, hid.trans h.id, hlive⟩

/-- **The child of `sys_exofork`**: the slot was free, the id names it, and its mailbox is closed. -/
theorem child_of_exofork {tf : Trapframe} {v : ℕ} {id : Word} (hv : v < nenv)
    (hnew : allocs s c (.trap tf (.syscall .exofork)) = [(v, id)])
    (hrun : s.entry c (.trap tf (.syscall .exofork)) = .ok s')
    (halive : (s'.envs v).envPgdir ≠ none) :
    s.envFreeList = some v ∧ Names s' id v ∧ (s'.envs v).envIpcRecving = false := by
  have hserve := serving_enter s c
  have hsched : Entry.schedule.call ≠ some .exofork := fun h0 => by cases h0
  obtain ⟨e, he, ⟨hdy, -⟩ | ⟨hdy, ret, s₁, hz, hw⟩⟩ := wrote_of_returns (fun _ => rfl) hserve hrun
  · have hdy' : (s.envs e).envStatus = .dying := hdy
    rw [allocs, hserve e he] at hnew
    simp only [hdy', if_true] at hnew
    cases hnew
  have hdy' : (s.envs e).envStatus ≠ .dying := hdy
  rw [allocs, hserve e he] at hnew
  simp only [hdy', if_false, hz] at hnew
  rcases sysExofork_cases hz with ⟨hneg, -⟩ | ⟨w, d, c', s₂, -, hr, hal, henvs, rfl⟩
  · split at hnew
    · rename_i hok
      obtain ⟨rfl, rfl⟩ := Prod.mk.inj (Except.ok.inj hok)
      rw [if_neg (by omega)] at hnew
      cases hnew
    · cases hnew
  have hhead : s.envFreeList = some w := hal.head
  have hmade : (s₂.setEnv w ((Write.fork w c').value s₂.envs)).envs w =
      (Write.fork w c').value s₂.envs := Function.update_self ..
  have hnext : (s₂.envs w).envId = nextEnvId (((s.enter c).savedFrame e tf).envs w).envId w ∧
      (s₂.envs w).envIpcRecving = false := by
    rw [henvs]
    exact ⟨congrArg Env.envId (Write.apply_slot _ (.alloc w d _)),
      congrArg Env.envIpcRecving (Write.apply_slot _ (.alloc w d _))⟩
  -- the entry has allocated this slot, and its id is the one that is returned
  obtain ⟨rfl, rfl⟩ : w = v ∧ (s₂.envs w).envId = id := by
    rw [hhead] at hnew
    dsimp only at hnew
    split at hnew
    · obtain ⟨rfl, rfl⟩ := Prod.mk.inj (List.cons.inj hnew).1
      rw [hmade]
      exact ⟨rfl, rfl⟩
    · cases hnew
  have hlive : (((s₂.setEnv w ((Write.fork w c').value s₂.envs)).setEax e ret).envs w).envStatus ≠
      .free := by
    rw [setEax_envStatus, hmade]
    intro h0
    cases h0
  obtain ⟨hid, hlive'⟩ := (known_of_writes hsched hlive hw.writes).resolve_left halive
  have hmail := (sameMail_of_writes Entry.mute_schedule (fun _ _ h0 => by cases h0) hw.writes).resolve_left
    halive
  obtain ⟨hpos, hmod⟩ := nextEnvId_pos (((s.enter c).savedFrame e tf).envs w).envId hv
  rw [← hnext.1] at hpos hmod
  refine ⟨hhead, ⟨?_, envx_of_mod hmod, ?_, hlive'⟩, ?_⟩
  · rintro h0
    rw [h0] at hpos
    exact absurd hpos (by decide)
  · rw [hid, setEax_envId, hmade]
    rfl
  · rw [hmail.recving, (sameMail_setEax _ e w ret).recving, hmade]
    exact hnext.2

/-! ## The result -/

/-- On the way back to user mode the kernel leaves the saved registers alone. -/
theorem tf_of_schedule {v v' : ℕ → Env} (h : Writes (Write.Legal o .schedule) v v') (r : ℕ) :
    (v' r).envTf = (v r).envTf := by
  refine h.invariant (I := fun u => (u r).envTf = (v r).envTf) rfl fun u w hu hw => ?_
  rcases eq_or_ne r w.slot with rfl | hne
  · rw [Write.apply_slot, ← hu]
    cases w with
    | save e tf => exact nomatch hw.1.choose_spec
    | eax e ret => exact absurd rfl hw.2
    | branch e esp =>
      obtain ⟨-, tf, va, h0⟩ := hw
      cases h0
    | alloc e d parentId => exact nomatch hw.1
    | fork e c => exact nomatch hw.1
    | deliver e c value =>
      obtain ⟨⟨_, _, _, _, h0⟩, -⟩ := hw
      cases h0
    | _ => rfl
  · rw [Write.apply_of_ne hne]
    exact hu

/-- `sys_ipc_try_send` without a page. -/
theorem sysIpcTrySend_plain {id srcva : Word} (value perm : Word) (stale : Option Word)
    (henv : s.envid2env id false = .ok (0, some r)) (hc : s.curenv = some e)
    (hsrc : utop ≤ srcva) : s.sysIpcTrySend id value srcva perm stale =
      if (s.envs r).envIpcRecving = true then
        .ok (0, s.setEnv r ((Write.deliver r e value).value s.envs))
      else .ok (-eIpcNotRecv, s) := by
  unfold sysIpcTrySend
  rw [henv, ok_bind]
  dsimp only
  rw [if_neg (by decide), deref_some, ok_bind]
  by_cases hrecv : (s.envs r).envIpcRecving = true
  · rw [if_neg (not_not.mpr hrecv), if_pos hrecv, hc, deref_some, ok_bind]
    unfold ipcTransfer
    rw [if_pos hsrc]
    rfl
  · rw [if_pos hrecv, if_neg hrecv]
    rfl

/-- **What a send without a page does**: it is delivered exactly if the target is receiving, and
the sender finds in `eax` whether it was. -/
theorem entry_of_send {tf : Trapframe} {id value srcva perm : Word} {stale : Option Word}
    (ho : (s.cpus c).cpuEnv = some e) (hdy : (s.envs e).envStatus ≠ .dying)
    (hsrc : utop ≤ srcva) (hid : Names s id r) (hne : r ≠ e)
    (hrun : s.entry c (.trap tf (.syscall (.ipcTrySend id value srcva perm stale))) = .ok s') :
    (∀ r', sentTo r' s c (.trap tf (.syscall (.ipcTrySend id value srcva perm stale))) =
      if (s.envs r).envIpcRecving = true ∧ r = r' then [(value, (s.envs e).envId)] else []) ∧
    (s'.envs e).envTf.tfRegs.regEax =
      if (s.envs r).envIpcRecving = true then 0#32 else BitVec.ofInt 32 (-eIpcNotRecv) := by
  have hserve := serving_enter s c
  have hsaved : ((s.enter c).savedFrame e tf).envs r = s.envs r := savedFrame_envs_of_ne hne
  have henv : ((s.enter c).savedFrame e tf).envid2env id false = .ok (0, some r) := by
    rw [savedFrame_envid2env]
    exact Names.envid2env (s := s.enter c) ⟨hid.ne_zero, hid.slot, hid.id, hid.live⟩
  have hcur : ((s.enter c).savedFrame e tf).curenv = some e := (curenv_enter s c).trans ho
  have hsend := sysIpcTrySend_plain value perm stale henv hcur hsrc
  rw [hsaved] at hsend
  have hidb : (((s.enter c).savedFrame e tf).envs e).envId = (s.envs e).envId :=
    savedFrame_envId (s.enter c) e e tf
  obtain ⟨e', he', ⟨h0, -⟩ | ⟨-, ret, s₁, hz, hw⟩⟩ := wrote_of_returns (fun _ => rfl) hserve hrun
  · obtain rfl := Option.some.inj ((hserve e' he').symm.trans ho)
    exact absurd h0 hdy
  obtain rfl := Option.some.inj ((hserve e' he').symm.trans ho)
  have heax : (s'.envs e').envTf.tfRegs.regEax = BitVec.ofInt 32 ret := by
    rw [tf_of_schedule hw.writes]
    simp [setEax, setEnv]
  have hz' : ((s.enter c).savedFrame e' tf).sysIpcTrySend id value srcva perm stale =
      .ok (ret, s₁) := hz
  rw [hsend] at hz'
  by_cases hrecv : (s.envs r).envIpcRecving = true
  · rw [if_pos hrecv] at hz' hsend
    obtain ⟨rfl, rfl⟩ := Prod.mk.inj (Except.ok.inj hz')
    refine ⟨fun r' => ?_, ?_⟩
    · simp only [sentTo, sends, ho, hdy, henv, hsend, hrecv, if_false, if_true, true_and]
      by_cases hr : r = r'
      · simp [hr, hidb]
      · simp [hr]
    · rw [heax, if_pos hrecv]
      rfl
  · rw [if_neg hrecv] at hz' hsend
    obtain ⟨rfl, rfl⟩ := Prod.mk.inj (Except.ok.inj hz')
    refine ⟨fun r' => ?_, by rw [heax, if_neg hrecv]⟩
    rw [if_neg fun h0 => hrecv h0.1]
    simp [sentTo, sends, ho, hdy, henv, hsend, eIpcNotRecv]

end Kernel
end PmakeOs
