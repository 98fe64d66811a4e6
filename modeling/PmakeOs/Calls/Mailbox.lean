import PmakeOs.Calls.Ipc
import PmakeOs.Calls.Settles

/-!
# `lib/ipc.c`: one receiver and its senders

The receiver is environment `r`, which runs `ipc_recv` in a loop.  Everybody else does
what they like; a send to `r` is a `sys_ipc_try_send` that returns zero, from an
`ipc_send` loop or not.  The system is the kernel with the program point of the
receiver, and two lists: what has been sent to it, and what its `ipc_recv` has returned.

A message waits in the fields of the receiver's `struct Env` until the receiver, back
in user mode, reads them one after the other.  The invariant `Phase` ties these fields
to the program point: while the receiver waits, everything sent has been received; once
a message has come, it is the only one missing, the fields hold it, and
`env_ipc_recving` keeps other senders out until the receiver has read them.
-/

namespace PmakeOs
namespace Kernel

variable {s s' : Kernel} {c r : ℕ} {x : Entry} {o : Option ℕ}

/-! ## The program of the receiver -/

/-- Where the receiver is in `ipc_recv`. -/
inductive RecvPc where
  /-- Before the system call, or outside `ipc_recv`. -/
  | calling
  /-- In `sys_ipc_recv`, until it returns to user mode. -/
  | waiting
  /-- `r = sys_ipc_recv(pg)` -/
  | returned (ret : Word)
  /-- `*from_env_store` is stored. -/
  | gotFrom (sender : Word)
  /-- `*perm_store` is stored. -/
  | gotPerm (sender perm : Word)
  deriving DecidableEq

/-- A value and the id of its sender. -/
abbrev Msg : Type := Word × Word

/-- The steps of `ipc_recv` in user mode: the next program point, and the result if it
returns.  `v` is what `thisenv` points to. -/
def recvStep (v : Env) : RecvPc → Option (RecvPc × List Msg)
  | .calling => none
  | .waiting => some (.returned v.envTf.tfRegs.regEax, [])
  | .returned ret =>
    if ret.toInt < 0 then some (.calling, [(ret, 0#32)]) else some (.gotFrom v.envIpcFrom, [])
  | .gotFrom sender => some (.gotPerm sender v.envIpcPerm, [])
  | .gotPerm sender _ => some (.calling, [(v.envIpcValue, sender)])

/-- The argument of `sys_ipc_recv`: the page, or -1 for no page. -/
def recvArg (pg : Word) : Word := if pg = 0#32 then BitVec.allOnes 32 else pg

/-- The traps of the receiver.  It calls `sys_ipc_recv` with no page, or a page-aligned
address below `UTOP`.  As long as it is not back from there, no instruction has been
executed, so only an interrupt can come, with the registers as they were.  At other
times it may do what it likes except receive. -/
inductive RecvTrap (v : Env) : RecvPc → Trapframe → Trap → RecvPc → Prop
  | recv {tf : Trapframe} (pg : Word) (hpg : pg = 0#32 ∨ pg < utop ∧ ¬ Unaligned pg) :
      RecvTrap v .calling tf (.syscall (.ipcRecv (recvArg pg))) .waiting
  | interrupt {t : Trap} (ht : t = .timer ∨ t = .spurious) :
      RecvTrap v .waiting v.envTf t .waiting
  | other {pc : RecvPc} {tf : Trapframe} {t : Trap} (hpc : pc ≠ .waiting)
      (ht : ∀ dstva, t ≠ .syscall (.ipcRecv dstva)) : RecvTrap v pc tf t pc

/-! ## The system -/

structure Mailbox where
  kernel : Kernel
  pc : RecvPc
  sent : List Msg
  received : List Msg

/-- The messages to `r` of an entry, which are at most one. -/
def sentTo (r : ℕ) (s : Kernel) (c : ℕ) (x : Entry) : List Msg :=
  ((sends s c x).filter fun d => d.target = r).map fun d =>
    (d.value, (d.before.envs d.sender).envId)

/-- What the others leave alone: the receiver is not destroyed, and its status is not set
while it waits, or runs on another CPU. -/
structure Spares (r : ℕ) (s : Kernel) (c : ℕ) (x : Entry) (s' : Kernel) : Prop where
  /-- `env_free` clears the directory. -/
  pgdir : (s'.envs r).envPgdir ≠ none
  status : (s'.envs r).envStatus ≠ .dying
  set : ∀ envid st, x.call = some (.envSetStatus envid st) → Settable st →
    (s.enter c).envid2env envid true = .ok (0, some r) →
      (s.envs r).envIpcRecving = false ∧ ¬ Elsewhere s c r

inductive Mailbox.Step (r : ℕ) : Mailbox → Mailbox → Prop
  /-- A kernel entry of some CPU. -/
  | entry {m : Mailbox} {c : ℕ} {x : Entry} {s' : Kernel} {pc' : RecvPc}
      (hx : CanEnter m.kernel c x) (hrun : m.kernel.entry c x = .ok s')
      (hspare : Spares r m.kernel c x s')
      (hother : (m.kernel.cpus c).cpuEnv ≠ some r → pc' = m.pc)
      (hown : (m.kernel.cpus c).cpuEnv = some r → ∀ tf t, x = .trap tf t →
        RecvTrap (m.kernel.envs r) m.pc tf t pc') :
      Step r m ⟨s', pc', m.sent ++ sentTo r m.kernel c x, m.received⟩
  /-- A step of the receiver, on a CPU that runs it. -/
  | user {m : Mailbox} {c : ℕ} {pc' : RecvPc} {l : List Msg}
      (hc : (m.kernel.cpus c).cpuEnv = some r) (hu : (m.kernel.cpus c).userMode = true)
      (h : recvStep (m.kernel.envs r) m.pc = some (pc', l)) :
      Step r m { m with pc := pc', received := m.received ++ l }

/-- The receiver is about to start its loop: nobody has used its mailbox, and if it is on
a CPU, its status says so. -/
structure Ready (r : ℕ) (s : Kernel) : Prop where
  listed : Listed s
  pgdir : (s.envs r).envPgdir ≠ none
  recving : (s.envs r).envIpcRecving = false
  user : ∀ c, (s.cpus c).cpuEnv = some r → (s.cpus c).userMode = true →
    (s.envs r).envStatus = .running ∧ (s.envs r).envCpunum = c

/-! ## What an entry does to the receiver -/

/-- The mailbox, and the directory, of an environment are untouched. -/
structure SameMail (v v' : Env) : Prop where
  recving : v'.envIpcRecving = v.envIpcRecving
  sender : v'.envIpcFrom = v.envIpcFrom
  value : v'.envIpcValue = v.envIpcValue
  pgdir : v'.envPgdir = v.envPgdir

theorem SameMail.refl (v : Env) : SameMail v v := ⟨rfl, rfl, rfl, rfl⟩

theorem SameMail.trans {v v' v'' : Env} (h : SameMail v v') (h' : SameMail v' v'') :
    SameMail v v'' :=
  ⟨h'.recving.trans h.recving, h'.sender.trans h.sender, h'.value.trans h.value,
    h'.pgdir.trans h.pgdir⟩

/-- The entry neither sends nor forks. -/
structure Entry.Mute (x : Entry) : Prop where
  send : x.NoSend
  fork : x.call ≠ some .exofork

/-- Who neither sends nor forks nor receives for `r` leaves the mailbox alone, or frees
the environment. -/
theorem sameMail_of_writes {v v' : ℕ → Env} (hx : x.Mute)
    (hr : o = some r → ∀ dstva, x.call ≠ some (.ipcRecv dstva))
    (h : Writes (Write.Legal o x) v v') : (v' r).envPgdir = none ∨ SameMail (v r) (v' r) := by
  refine h.invariant (I := fun u => (u r).envPgdir = none ∨ SameMail (v r) (u r))
    (Or.inr (.refl _)) fun u w hu hw => ?_
  rcases eq_or_ne r w.slot with rfl | hne
  · rw [Write.apply_slot]
    have hkeep : SameMail (u w.slot) (w.value u) →
        (w.value u).envPgdir = none ∨ SameMail (v w.slot) (w.value u) := by
      intro hsame
      refine hu.imp (fun h0 => ?_) fun h0 => h0.trans hsame
      rw [hsame.pgdir]
      exact h0
    cases w with
    | alloc e d parentId => exact absurd hw.1 hx.fork
    | fork e c => exact absurd hw.1 hx.fork
    | recv e dstva => exact absurd hw.1 (hr hw.2 dstva)
    | deliver e c value =>
      obtain ⟨⟨envid, srcva, p, stale, hcall⟩, -⟩ := hw
      exact absurd hcall (hx.send envid value srcva p stale)
    | free e link => exact Or.inl rfl
    | _ => exact hkeep ⟨rfl, rfl, rfl, rfl⟩
  · rw [Write.apply_of_ne hne]
    exact hu

/-- What another CPU does to environment `r` without sending to it or setting its
status: nothing, or it starts to run it. -/
structure Unmoved (v v' : Env) : Prop where
  mail : SameMail v v'
  tf : v'.envTf = v.envTf
  status : v'.envStatus = v.envStatus ∧ v'.envCpunum = v.envCpunum ∨
    v.envStatus = .runnable ∧ v'.envStatus = .running

theorem Unmoved.refl (v : Env) : Unmoved v v := ⟨.refl v, rfl, Or.inl ⟨rfl, rfl⟩⟩

theorem unmoved_of_writes {v v' : ℕ → Env} (ho : o ≠ some r) (hx : x.Mute)
    (hset : ∀ envid st, x.call ≠ some (.envSetStatus envid st))
    (h : Writes (Write.Legal o x) v v') :
    (v' r).envPgdir = none ∨ (v' r).envStatus = .dying ∨ Unmoved (v r) (v' r) := by
  refine h.invariant
    (I := fun u => (u r).envPgdir = none ∨ (u r).envStatus = .dying ∨ Unmoved (v r) (u r))
    (Or.inr (Or.inr (.refl _))) fun u w hu hw => ?_
  rcases eq_or_ne r w.slot with rfl | hne
  · rw [Write.apply_slot]
    cases w with
    | save e tf => exact absurd hw.2 ho
    | eax e ret => exact absurd hw.1 ho
    | branch e esp => exact absurd hw.1 ho
    | upcall e func =>
      exact hu.imp_right fun h0 => h0.imp_right fun hk =>
        ⟨⟨hk.mail.recving, hk.mail.sender, hk.mail.value, hk.mail.pgdir⟩, hk.tf, hk.status⟩
    | status e st =>
      rcases hw with ⟨rfl, -⟩ | ⟨-, h0, -⟩ | ⟨⟨envid, st', hcall⟩, -⟩
      · exact Or.inr (Or.inl rfl)
      · exact absurd h0 ho
      · exact absurd hcall (hset envid st')
    | alloc e d parentId => exact absurd hw.1 hx.fork
    | fork e c => exact absurd hw.1 hx.fork
    | recv e dstva => exact absurd hw.2 ho
    | perm e p =>
      obtain ⟨⟨envid, value, srcva, stale, hcall⟩, -⟩ := hw
      exact absurd hcall (hx.send envid value srcva p stale)
    | deliver e c value =>
      obtain ⟨⟨envid, srcva, p, stale, hcall⟩, -⟩ := hw
      exact absurd hcall (hx.send envid value srcva p stale)
    | free e link => exact Or.inl rfl
    | run e cpu =>
      have hrun : (u e).envStatus = .runnable := hw.resolve_right fun h0 => ho h0.1
      rcases hu with h0 | h0 | hk
      · exact Or.inl h0
      · have h0' : (u e).envStatus = .dying := h0
        rw [hrun] at h0'
        cases h0'
      · refine Or.inr (Or.inr ⟨⟨hk.mail.recving, hk.mail.sender, hk.mail.value, hk.mail.pgdir⟩,
          hk.tf, Or.inr ⟨?_, rfl⟩⟩)
        rcases hk.status with ⟨hst, -⟩ | ⟨-, hst⟩
        · exact hst.symm.trans hrun
        · exact absurd (hst.symm.trans hrun) (by decide)
  · rw [Write.apply_of_ne hne]
    exact hu

theorem Entry.mute_schedule : Entry.Mute .schedule := ⟨.of_call rfl, nofun⟩

/-- `sys_exofork` writes the first free slot only. -/
theorem envs_of_sysExofork {ret : ℤ} (h : s.sysExofork = .ok (ret, s'))
    (hr : s.envFreeList ≠ some r) : s'.envs r = s.envs r := by
  rcases sysExofork_cases h with ⟨-, hm⟩ | ⟨e, d, c, s₁, -, -, hal, henvs, rfl⟩
  · rw [hm.envs]
  · have hne : r ≠ e := by
      rintro rfl
      exact hr hal.head
    show Function.update s₁.envs e _ r = _
    rw [Function.update_of_ne hne, henvs, Write.apply_of_ne hne]

/-- `sys_env_set_status` writes one status, or nothing. -/
theorem sysEnvSetStatus_cases {envid status : Word} {ret : ℤ}
    (h : s.sysEnvSetStatus envid status = .ok (ret, s')) :
    s' = s ∨ Settable status ∧ ∃ e st, s.envid2env envid true = .ok (0, some e) ∧
      s' = s.setStatus e st := by
  unfold sysEnvSetStatus at h
  split at h
  · obtain ⟨-, rfl⟩ := Prod.mk.inj (Except.ok.inj h)
    exact Or.inl rfl
  rename_i hset
  obtain ⟨⟨ret₁, oe⟩, henv, h⟩ := bind_eq_ok.mp h
  simp only at h
  split at h
  · obtain ⟨-, rfl⟩ := Prod.mk.inj (Except.ok.inj h)
    exact Or.inl rfl
  · rename_i hret
    obtain rfl := (ret_of_envid2env henv).resolve_right (by rintro rfl; exact hret (by decide))
    obtain ⟨e, he, h⟩ := bind_eq_ok.mp h
    obtain rfl := deref_eq_ok he
    obtain ⟨-, rfl⟩ := Prod.mk.inj (Except.ok.inj h)
    refine Or.inr ⟨?_, e, _, henv, rfl⟩
    unfold Settable
    tauto

theorem savedFrame_envs_of_ne {e : ℕ} {tf : Trapframe} (h : r ≠ e) :
    (s.savedFrame e tf).envs r = s.envs r := by
  simp [savedFrame, setEnv, Kernel.note, h]

theorem setEax_envs_of_ne {e : ℕ} {ret : ℤ} (h : r ≠ e) : (s.setEax e ret).envs r = s.envs r := by
  simp [setEax, setEnv, h]

theorem sameMail_setEax (s : Kernel) (e r : ℕ) (ret : ℤ) :
    SameMail (s.envs r) ((s.setEax e ret).envs r) := by
  rcases eq_or_ne r e with rfl | hne
  · constructor <;> simp [setEax, setEnv]
  · rw [setEax_envs_of_ne hne]
    exact .refl _

theorem sameMail_savedFrame (s : Kernel) (e r : ℕ) (tf : Trapframe) :
    SameMail (s.envs r) ((s.savedFrame e tf).envs r) := by
  rcases eq_or_ne r e with rfl | hne
  · constructor <;> simp [savedFrame, setEnv]
  · rw [savedFrame_envs_of_ne hne]
    exact .refl _

theorem sentTo_of_nil (h : sends s c x = []) : sentTo r s c x = [] := by
  rw [sentTo, h]
  rfl

/-- The rest of an entry, once its handler has returned. -/
theorem unmoved_of_schedule {s₁ : Kernel} (ho : o ≠ some r) (hpg : (s'.envs r).envPgdir ≠ none)
    (hdy : (s'.envs r).envStatus ≠ .dying) (hw : Wrote o .schedule s₁ s') :
    Unmoved (s₁.envs r) (s'.envs r) := by
  rcases unmoved_of_writes ho Entry.mute_schedule (fun _ _ => nofun) hw.writes with h0 | h0 | hk
  · exact absurd h0 hpg
  · exact absurd h0 hdy
  · exact hk

/-- A message from another environment, to the receiver or not. -/
theorem receiver_of_send {d : Send} (hd : d ∈ sends s c x) (ho : (s.cpus c).cpuEnv ≠ some r)
    (hrun : s.entry c x = .ok s') (hpg : (s'.envs r).envPgdir ≠ none)
    (hdy : (s'.envs r).envStatus ≠ .dying) :
    (sentTo r s c x = [] ∧ Unmoved (s.envs r) (s'.envs r)) ∨
    (sentTo r s c x = [((s'.envs r).envIpcValue, (s'.envs r).envIpcFrom)] ∧
      (s.envs r).envIpcRecving = true ∧ (s'.envs r).envIpcRecving = false ∧
      (s'.envs r).envTf.tfRegs.regEax = 0#32) := by
  obtain ⟨tf, -, -, -, hcur, -, hb, -, -, hs⟩ := eq_of_mem_sends hd
  have hne : r ≠ d.sender := by
    rintro rfl
    exact ho hcur
  have hbefore : d.before.envs r = s.envs r := by
    rw [hb]
    exact savedFrame_envs_of_ne hne
  have hw := wrote_of_send hd hrun
  rw [← hcur] at hw
  have hk := unmoved_of_schedule ho hpg hdy hw
  rw [setEax_envs_of_ne hne] at hk
  rcases eq_or_ne d.target r with rfl | htarget
  · obtain ⟨hrecv, hfrom, hvalue, heax, -, -⟩ := target_of_send hd
    refine Or.inr ⟨?_, ?_, ?_, ?_⟩
    · rw [hk.mail.value, hk.mail.sender, hvalue, hfrom]
      simp [sentTo, hs]
    · rw [← hbefore]
      exact (deliver_of_send hd).1
    · rw [hk.mail.recving]
      exact hrecv
    · rw [hk.tf]
      exact heax
  · refine Or.inl ⟨by simp [sentTo, hs, htarget], ?_⟩
    rw [frame_of_send hd htarget.symm, hbefore] at hk
    exact hk

/-- `sys_exofork` of another environment: a slot with a directory is not free. -/
theorem unmoved_of_exofork {tf : Trapframe} (hl : Listed s) (hslot : (s.envs r).envPgdir ≠ none)
    (ho : (s.cpus c).cpuEnv ≠ some r) (hrun : s.entry c (.trap tf (.syscall .exofork)) = .ok s')
    (hpg : (s'.envs r).envPgdir ≠ none) (hdy : (s'.envs r).envStatus ≠ .dying) :
    Unmoved (s.envs r) (s'.envs r) := by
  have hserve := serving_enter s c
  obtain ⟨e, he, ⟨-, hw⟩ | ⟨-, ret, s₁, hz, hw⟩⟩ := wrote_of_returns (fun _ => rfl) hserve hrun
  · have hk := unmoved_of_schedule ho hpg hdy hw
    exact hk
  · have hne : r ≠ e := by
      rintro rfl
      exact ho (hserve r he)
    have hfree : s.envFreeList ≠ some r := fun h0 => hslot (hl.head h0)
    have hk := unmoved_of_schedule ho hpg hdy hw
    rw [setEax_envs_of_ne hne, envs_of_sysExofork hz hfree, savedFrame_envs_of_ne hne] at hk
    exact hk

/-- `sys_env_set_status` of another environment, for the receiver or not. -/
theorem receiver_of_setStatus {tf : Trapframe} {envid st : Word}
    (ho : (s.cpus c).cpuEnv ≠ some r)
    (hrun : s.entry c (.trap tf (.syscall (.envSetStatus envid st))) = .ok s')
    (hspare : Spares r s c (.trap tf (.syscall (.envSetStatus envid st))) s') :
    Unmoved (s.envs r) (s'.envs r) ∨
    (SameMail (s.envs r) (s'.envs r) ∧ (s'.envs r).envTf = (s.envs r).envTf ∧
      (s.envs r).envIpcRecving = false ∧ ¬ Elsewhere s c r) := by
  have hserve := serving_enter s c
  obtain ⟨e, he, ⟨-, hw⟩ | ⟨-, ret, s₁, hz, hw⟩⟩ := wrote_of_returns (fun _ => rfl) hserve hrun
  · have hk := unmoved_of_schedule ho hspare.pgdir hspare.status hw
    exact Or.inl hk
  have hne : r ≠ e := by
    rintro rfl
    exact ho (hserve r he)
  have hk := unmoved_of_schedule ho hspare.pgdir hspare.status hw
  rw [setEax_envs_of_ne hne] at hk
  have hsaved : ((s.enter c).savedFrame e tf).envs r = s.envs r := savedFrame_envs_of_ne hne
  rcases sysEnvSetStatus_cases hz with rfl | ⟨hok, e', st', henv, rfl⟩
  · rw [hsaved] at hk
    exact Or.inl hk
  · rcases eq_or_ne r e' with rfl | hne'
    · rw [savedFrame_envid2env] at henv
      obtain ⟨hrecv, helse⟩ := hspare.set envid st rfl hok henv
      have hself : (((s.enter c).savedFrame e tf).setStatus r st').envs r =
          { s.envs r with envStatus := st' } := by
        rw [setStatus, hsaved]
        exact Function.update_self ..
      rw [hself] at hk
      refine Or.inr ⟨?_, hk.tf, hrecv, helse⟩
      exact ⟨hk.mail.recving, hk.mail.sender, hk.mail.value, hk.mail.pgdir⟩
    · have hother : (((s.enter c).savedFrame e tf).setStatus e' st').envs r = s.envs r :=
        (Function.update_of_ne hne' _ _).trans hsaved
      rw [hother] at hk
      exact Or.inl hk

/-- **What the entries of others do to the receiver.**  They leave it alone or start to run
it; they set its status, but not while it waits or runs elsewhere; or they send. -/
theorem receiver_of_other (hl : Listed s) (hslot : (s.envs r).envPgdir ≠ none)
    (ho : (s.cpus c).cpuEnv ≠ some r) (hrun : s.entry c x = .ok s') (hspare : Spares r s c x s') :
    (sentTo r s c x = [] ∧ Unmoved (s.envs r) (s'.envs r)) ∨
    (sentTo r s c x = [] ∧ SameMail (s.envs r) (s'.envs r) ∧
      (s'.envs r).envTf = (s.envs r).envTf ∧ (s.envs r).envIpcRecving = false ∧
      ¬ Elsewhere s c r) ∨
    (sentTo r s c x = [((s'.envs r).envIpcValue, (s'.envs r).envIpcFrom)] ∧
      (s.envs r).envIpcRecving = true ∧ (s'.envs r).envIpcRecving = false ∧
      (s'.envs r).envTf.tfRegs.regEax = 0#32) := by
  cases hs : sends s c x with
  | cons d l =>
    have hd : d ∈ sends s c x := by
      rw [hs]
      exact List.mem_cons_self
    exact (receiver_of_send hd ho hrun hspare.pgdir hspare.status).imp_right Or.inr
  | nil =>
    have hnil := sentTo_of_nil (r := r) hs
    obtain ⟨y, hsend, hyx, hw⟩ := wrote_of_no_send hs hrun
    by_cases hfork : y.call = some .exofork
    · obtain rfl := hyx.resolve_right fun h0 => by rw [h0] at hfork; cases hfork
      obtain ⟨tf, rfl⟩ := Entry.eq_trap_of_call hfork
      exact Or.inl ⟨hnil, unmoved_of_exofork hl hslot ho hrun hspare.pgdir hspare.status⟩
    by_cases hset : ∃ envid st, y.call = some (.envSetStatus envid st)
    · obtain ⟨envid, st, hcall⟩ := hset
      obtain rfl := hyx.resolve_right fun h0 => by rw [h0] at hcall; cases hcall
      obtain ⟨tf, rfl⟩ := Entry.eq_trap_of_call hcall
      rcases receiver_of_setStatus ho hrun hspare with hk | hm
      · exact Or.inl ⟨hnil, hk⟩
      · exact Or.inr (Or.inl ⟨hnil, hm⟩)
    · push Not at hset
      rcases unmoved_of_writes ho ⟨hsend, hfork⟩ hset hw.writes with h0 | h0 | hk
      · exact absurd h0 hspare.pgdir
      · exact absurd h0 hspare.status
      · exact Or.inl ⟨hnil, hk⟩

/-- **What an entry of the receiver does to its own mailbox**, when it is empty and the
entry is not a receive. -/
theorem receiver_of_own (hl : Listed s) (hpg : (s.envs r).envPgdir ≠ none)
    (ho : (s.cpus c).cpuEnv = some r) (hrecv : (s.envs r).envIpcRecving = false)
    (hx : ∀ dstva, x.call ≠ some (.ipcRecv dstva)) (hrun : s.entry c x = .ok s')
    (halive : (s'.envs r).envPgdir ≠ none) :
    sentTo r s c x = [] ∧ SameMail (s.envs r) (s'.envs r) := by
  have hserve := serving_enter s c
  have hrest : ∀ s₁ : Kernel, Wrote (s.cpus c).cpuEnv .schedule s₁ s' →
      SameMail (s₁.envs r) (s'.envs r) := by
    intro s₁ hw
    exact (sameMail_of_writes Entry.mute_schedule (fun _ _ => nofun) hw.writes).resolve_left halive
  cases hs : sends s c x with
  | cons d l =>
    have hd : d ∈ sends s c x := by
      rw [hs]
      exact List.mem_cons_self
    obtain rfl := tail_of_sends hs
    obtain ⟨tf, -, -, -, hcur, -, hb, -⟩ := eq_of_mem_sends hd
    have hsaved : SameMail (s.envs r) (d.before.envs r) := by
      rw [hb]
      exact sameMail_savedFrame (s.enter c) d.sender r tf
    have htarget : r ≠ d.target := by
      rintro rfl
      have h0 := (deliver_of_send hd).1
      rw [hsaved.recving, hrecv] at h0
      cases h0
    have hw := wrote_of_send hd hrun
    rw [← hcur] at hw
    refine ⟨by simp [sentTo, hs, htarget.symm], ?_⟩
    rw [← frame_of_send hd htarget] at hsaved
    exact (hsaved.trans (sameMail_setEax _ _ _ _)).trans (hrest _ hw)
  | nil =>
    refine ⟨sentTo_of_nil hs, ?_⟩
    obtain ⟨y, hsend, hyx, hw⟩ := wrote_of_no_send hs hrun
    by_cases hfork : y.call = some .exofork
    · obtain rfl := hyx.resolve_right fun h0 => by rw [h0] at hfork; cases hfork
      obtain ⟨tf, rfl⟩ := Entry.eq_trap_of_call hfork
      obtain ⟨e, he, ⟨-, hw⟩ | ⟨-, ret, s₁, hz, hw⟩⟩ := wrote_of_returns (fun _ => rfl) hserve hrun
      · have hm := hrest _ hw
        exact hm
      · have hfree : s.envFreeList ≠ some r := fun h0 => hpg (hl.head h0)
        have hsaved := sameMail_savedFrame (s.enter c) e r tf
        rw [← envs_of_sysExofork hz hfree] at hsaved
        exact (hsaved.trans (sameMail_setEax _ _ _ _)).trans (hrest _ hw)
    · have hy : ∀ dstva, y.call ≠ some (.ipcRecv dstva) := by
        intro dstva h0
        rcases hyx with rfl | hcall
        · exact hx dstva h0
        · rw [hcall] at h0
          cases h0
      exact (sameMail_of_writes ⟨hsend, hfork⟩ (fun _ => hy) hw.writes).resolve_left halive

/-- The scheduler does not wake an environment that is not runnable. -/
theorem parked_of_writes {v v' : ℕ → Env} (hst : (v r).envStatus = .notRunnable)
    (h : Writes (Write.Legal o .schedule) v v') :
    (v' r).envPgdir = none ∨ (v' r).envStatus = .dying ∨ (v' r).envStatus = .notRunnable := by
  refine h.invariant (I := fun u => (u r).envPgdir = none ∨ (u r).envStatus = .dying ∨
    (u r).envStatus = .notRunnable) (Or.inr (Or.inr hst)) fun u w hu hw => ?_
  rcases eq_or_ne r w.slot with rfl | hne
  · rw [Write.apply_slot]
    cases w with
    | status e st =>
      rcases hw with ⟨rfl, -⟩ | ⟨-, -, hrun⟩ | ⟨⟨_, _, h0⟩, -⟩
      · exact Or.inr (Or.inl rfl)
      · refine hu.imp_right fun h0 => ?_
        have h1 : (u e).envStatus = .dying ∨ (u e).envStatus = .notRunnable := h0
        rw [hrun] at h1
        simp at h1
      · cases h0
    | free e link => exact Or.inl rfl
    | run e cpu =>
      rcases hw with hrun | ⟨-, _, _, h0⟩
      · refine hu.imp_right fun h0 => ?_
        have h1 : (u e).envStatus = .dying ∨ (u e).envStatus = .notRunnable := h0
        rw [hrun] at h1
        simp at h1
      · cases h0
    | save e tf =>
      obtain ⟨⟨_, h0⟩, -⟩ := hw
      cases h0
    | eax e ret => exact absurd rfl hw.2
    | branch e esp =>
      obtain ⟨-, _, _, h0⟩ := hw
      cases h0
    | alloc e d parentId => exact nomatch hw.1
    | fork e c => exact nomatch hw.1
    | recv e dstva => exact nomatch hw.1
    | deliver e c value =>
      obtain ⟨⟨_, _, _, _, h0⟩, -⟩ := hw
      cases h0
    | _ => exact hu
  · rw [Write.apply_of_ne hne]
    exact hu

/-- `sys_ipc_recv` of the receiver: it waits. -/
theorem receiver_of_recv {tf : Trapframe} {dstva : Word} (hd : ¬ (dstva < utop ∧ Unaligned dstva))
    (ho : (s.cpus c).cpuEnv = some r) (hst : (s.envs r).envStatus ≠ .dying)
    (hrun : s.entry c (.trap tf (.syscall (.ipcRecv dstva))) = .ok s')
    (halive : (s'.envs r).envPgdir ≠ none) (hdy : (s'.envs r).envStatus ≠ .dying) :
    (s'.envs r).envIpcRecving = true ∧ (s'.envs r).envStatus = .notRunnable := by
  have htrap : (s.enter c).trap tf (.syscall (.ipcRecv dstva)) = .ok s' := hrun
  have hcur : (s.enter c).curenv = some r := (curenv_enter s c).trans ho
  have hst' : ((s.enter c).envs r).envStatus ≠ .dying := hst
  unfold trap at htrap
  rw [hcur, deref_some, ok_bind, if_neg hst'] at htrap
  obtain ⟨⟨fl, s₁⟩, hdisp, h⟩ := bind_eq_ok.mp htrap
  have hrecv : ((s.enter c).savedFrame r tf).sysIpcRecv dstva = .ok (fl, s₁) := hdisp
  unfold sysIpcRecv at hrecv
  rw [if_neg hd] at hrecv
  obtain ⟨e, he, hrecv⟩ := bind_eq_ok.mp hrecv
  have hcur' : ((s.enter c).savedFrame r tf).curenv = some r := hcur
  rw [hcur', deref_some] at he
  obtain rfl := Except.ok.inj he
  obtain ⟨s₂, hy, hrecv⟩ := bind_eq_ok.mp hrecv
  obtain ⟨rfl, rfl⟩ := Prod.mk.inj (Except.ok.inj hrecv)
  obtain rfl := Except.ok.inj h
  have hw := wrote_schedYield (x := .schedule) (o := some r) (fun j hj => ?_) hy
  · have hself : ∀ (k : Kernel) (v : Env), (k.setEnv r v).envs r = v :=
      fun k v => Function.update_self ..
    constructor
    · have hmail := (sameMail_of_writes (r := r) Entry.mute_schedule (fun _ _ => nofun)
        hw.writes).resolve_left halive
      rw [hmail.recving, hself]
    · refine ((parked_of_writes (r := r) ?_ hw.writes).resolve_left halive).resolve_left hdy
      rw [hself]
  · rw [← hj]
    exact hcur.symm

/-- An interrupt leaves the frame that it saves. -/
theorem frame_of_interrupt {t : Trap} (ht : t = .timer ∨ t = .spurious)
    (hrun : s.entry c (.trap (s.envs r).envTf t) = .ok s') :
    (s'.envs r).envTf = (s.envs r).envTf := by
  have hcall : (Entry.trap (s.envs r).envTf t).call = none := by
    rcases ht with rfl | rfl <;> rfl
  refine (wrote_entry hrun).writes.invariant
    (I := fun u => (u r).envTf = (s.envs r).envTf) rfl fun u w hu hw => ?_
  rcases eq_or_ne r w.slot with rfl | hne
  · rw [Write.apply_slot]
    cases w with
    | save e tf =>
      obtain ⟨⟨t', ht'⟩, -⟩ := hw
      exact (Entry.trap.inj ht').1.symm
    | eax e ret => exact absurd hcall hw.2
    | branch e esp =>
      obtain ⟨-, tf, va, h0⟩ := hw
      rcases ht with rfl | rfl <;> exact nomatch (Entry.trap.inj h0).2
    | alloc e d parentId =>
      rw [Write.Legal, hcall] at hw
      exact nomatch hw.1
    | fork e c =>
      rw [Write.Legal, hcall] at hw
      exact nomatch hw.1
    | deliver e c value =>
      obtain ⟨⟨_, _, _, _, h0⟩, -⟩ := hw
      rw [hcall] at h0
      cases h0
    | _ => exact hu
  · rw [Write.apply_of_ne hne]
    exact hu

/-! ## The invariant -/

/-- A message has come that is not yet received, and it is in the fields of `v`. -/
structure Arrived (v : Env) (sent received : List Msg) : Prop where
  recving : v.envIpcRecving = false
  last : sent = received ++ [(v.envIpcValue, v.envIpcFrom)]

/-- The mailbox `v` and the two lists, by the program point of the receiver. -/
def Phase (v : Env) (sent received : List Msg) : RecvPc → Prop
  | .calling => v.envIpcRecving = false ∧ sent = received
  | .waiting => (v.envIpcRecving = true ∧ v.envStatus = .notRunnable ∧ sent = received) ∨
      Arrived v sent received ∧ v.envTf.tfRegs.regEax = 0#32
  | .returned ret => Arrived v sent received ∧ ret = 0#32
  | .gotFrom sender | .gotPerm sender _ => Arrived v sent received ∧ sender = v.envIpcFrom

theorem Arrived.mail {v v' : Env} {sent received : List Msg} (h : Arrived v sent received)
    (hm : SameMail v v') : Arrived v' sent received :=
  ⟨hm.recving.trans h.recving, by rw [hm.value, hm.sender]; exact h.last⟩

/-- The receiver is not waiting, or it has been woken: then only the mailbox and the frame
matter. -/
theorem Phase.mail {v v' : Env} {sent received : List Msg} {pc : RecvPc}
    (h : Phase v sent received pc) (hm : SameMail v v') (hrecv : v.envIpcRecving = false)
    (htf : pc = .waiting → v'.envTf = v.envTf) : Phase v' sent received pc := by
  cases pc with
  | calling => exact ⟨hm.recving.trans h.1, h.2⟩
  | waiting =>
    rcases h with ⟨h0, -⟩ | ⟨ha, heax⟩
    · rw [hrecv] at h0
      cases h0
    · exact Or.inr ⟨ha.mail hm, by rw [htf rfl]; exact heax⟩
  | returned ret => exact ⟨h.1.mail hm, h.2⟩
  | gotFrom sender => exact ⟨h.1.mail hm, h.2.trans hm.sender.symm⟩
  | gotPerm sender perm => exact ⟨h.1.mail hm, h.2.trans hm.sender.symm⟩

/-- Only a receiver that waits has an open mailbox. -/
theorem Phase.of_recving {v : Env} {sent received : List Msg} {pc : RecvPc}
    (h : Phase v sent received pc) (hrecv : v.envIpcRecving = true) :
    pc = .waiting ∧ v.envStatus = .notRunnable ∧ sent = received := by
  have hfull : ¬ Arrived v sent received := by
    intro ha
    rw [ha.recving] at hrecv
    cases hrecv
  cases pc with
  | calling =>
    rw [h.1] at hrecv
    cases hrecv
  | waiting =>
    rcases h with ⟨-, hst, hl⟩ | ⟨ha, -⟩
    · exact ⟨rfl, hst, hl⟩
    · exact absurd ha hfull
  | returned ret => exact absurd h.1 hfull
  | gotFrom sender => exact absurd h.1 hfull
  | gotPerm sender perm => exact absurd h.1 hfull

/-- A user step of the receiver, which is not possible while its mailbox is open. -/
theorem Phase.recvStep {v : Env} {sent received l : List Msg} {pc pc' : RecvPc}
    (h : Phase v sent received pc) (hrecv : v.envIpcRecving = false)
    (hstep : recvStep v pc = some (pc', l)) : Phase v sent (received ++ l) pc' := by
  cases pc with
  | calling => cases hstep
  | waiting =>
    obtain ⟨rfl, rfl⟩ := Prod.mk.inj (Option.some.inj hstep)
    rw [List.append_nil]
    rcases h with ⟨h0, -⟩ | h
    · rw [hrecv] at h0
      cases h0
    · exact h
  | returned ret =>
    obtain ⟨ha, rfl⟩ := h
    obtain ⟨rfl, rfl⟩ := Prod.mk.inj (Option.some.inj hstep)
    rw [List.append_nil]
    exact ⟨ha, rfl⟩
  | gotFrom sender =>
    obtain ⟨rfl, rfl⟩ := Prod.mk.inj (Option.some.inj hstep)
    rw [List.append_nil]
    exact h
  | gotPerm sender perm =>
    obtain ⟨ha, rfl⟩ := h
    obtain ⟨rfl, rfl⟩ := Prod.mk.inj (Option.some.inj hstep)
    exact ⟨ha.recving, ha.last⟩

structure Mailbox.Inv (r : ℕ) (m : Mailbox) : Prop where
  listed : Listed m.kernel
  pgdir : (m.kernel.envs r).envPgdir ≠ none
  user : ∀ c, (m.kernel.cpus c).cpuEnv = some r → (m.kernel.cpus c).userMode = true →
    (m.kernel.envs r).envStatus = .running ∧ (m.kernel.envs r).envCpunum = c
  phase : Phase (m.kernel.envs r) m.sent m.received m.pc

theorem Ready.inv (h : Ready r s) : Mailbox.Inv r ⟨s, .calling, [], []⟩ :=
  ⟨h.listed, h.pgdir, h.user, h.recving, rfl⟩

/-- While the receiver runs, its mailbox is closed. -/
theorem Mailbox.Inv.recving_of_user {m : Mailbox} (h : m.Inv r)
    (hc : (m.kernel.cpus c).cpuEnv = some r) (hu : (m.kernel.cpus c).userMode = true) :
    (m.kernel.envs r).envIpcRecving = false := by
  by_contra h0
  obtain ⟨-, hst, -⟩ := h.phase.of_recving (Bool.eq_true_of_not_eq_false h0)
  rw [(h.user c hc hu).1] at hst
  cases hst

/-- The CPUs after an entry: the one that entered has settled, and the others are where
they were. -/
theorem user_of_entry (hrun : s.entry c x = .ok s')
    (hkeep : ∀ c', c' ≠ c → (s.cpus c').cpuEnv = some r → (s.cpus c').userMode = true →
      (s'.envs r).envStatus = .running ∧ (s'.envs r).envCpunum = c') (c' : ℕ)
    (hc' : (s'.cpus c').cpuEnv = some r) (hu : (s'.cpus c').userMode = true) :
    (s'.envs r).envStatus = .running ∧ (s'.envs r).envCpunum = c' := by
  have hstays := (wrote_entry hrun).stays
  have hnum : s'.cpunum = c := hstays.cpunum
  rcases eq_or_ne c' c with rfl | hne
  · have hcur : s'.curenv = some r := by
      rw [curenv, hnum]
      exact hc'
    rcases settles_entry hrun r hcur with ⟨hst, hcpu, -⟩ | ⟨-, hin⟩
    · exact ⟨hst, hcpu.trans hnum⟩
    · have hmode := hin.2
      rw [thiscpu, hnum, hu] at hmode
      cases hmode
  · have hsame : s'.cpus c' = s.cpus c' := by
      rw [hstays.other c' hne, enter_cpus_of_ne s hne]
    rw [hsame] at hc' hu
    exact hkeep c' hne hc' hu

/-- An entry on another environment's account keeps the invariant. -/
theorem Mailbox.Inv.other {m : Mailbox} (h : m.Inv r) (ho : (m.kernel.cpus c).cpuEnv ≠ some r)
    (hrun : m.kernel.entry c x = .ok s') (hspare : Spares r m.kernel c x s') :
    Mailbox.Inv r ⟨s', m.pc, m.sent ++ sentTo r m.kernel c x, m.received⟩ := by
  refine ⟨(wrote_entry hrun).listed h.listed, hspare.pgdir, user_of_entry hrun ?_, ?_⟩
  · intro c' hne hc' hu
    obtain ⟨hst, hcpu⟩ := h.user c' hc' hu
    rcases receiver_of_other h.listed h.pgdir ho hrun hspare with
      ⟨-, hk⟩ | ⟨-, -, -, -, helse⟩ | ⟨-, hrecv, -⟩
    · rcases hk.status with ⟨h1, h2⟩ | ⟨h1, -⟩
      · exact ⟨h1.trans hst, h2.trans hcpu⟩
      · rw [hst] at h1
        cases h1
    · exact absurd ⟨c', hne, hc'⟩ helse
    · -- a receiver that waits is on no CPU
      rw [h.recving_of_user hc' hu] at hrecv
      cases hrecv
  · show Phase (s'.envs r) (m.sent ++ sentTo r m.kernel c x) m.received m.pc
    rcases receiver_of_other h.listed h.pgdir ho hrun hspare with
      ⟨hnil, hk⟩ | ⟨hnil, hm, htf, hrecv, -⟩ | ⟨hone, hrecv, hrecv', heax⟩
    · rw [hnil, List.append_nil]
      cases hrecv : (m.kernel.envs r).envIpcRecving with
      | false => exact h.phase.mail hk.mail hrecv fun _ => hk.tf
      | true =>
        obtain ⟨hpc, hst, hl⟩ := h.phase.of_recving hrecv
        rw [hpc]
        refine Or.inl ⟨hk.mail.recving.trans hrecv, ?_, hl⟩
        rcases hk.status with ⟨h1, -⟩ | ⟨h1, -⟩
        · exact h1.trans hst
        · rw [hst] at h1
          cases h1
    · rw [hnil, List.append_nil]
      exact h.phase.mail hm hrecv fun _ => htf
    · obtain ⟨hpc, -, hl⟩ := h.phase.of_recving hrecv
      rw [hpc, hone, hl]
      exact Or.inr ⟨⟨hrecv', rfl⟩, heax⟩

/-- `pg` is a good argument of `sys_ipc_recv`. -/
theorem recvArg_aligned {pg : Word} (hpg : pg = 0#32 ∨ pg < utop ∧ ¬ Unaligned pg) :
    ¬ (recvArg pg < utop ∧ Unaligned (recvArg pg)) := by
  rintro ⟨hlt, hun⟩
  unfold recvArg at hlt hun
  split at hlt
  · exact absurd hlt (by decide)
  · rename_i hne
    rw [if_neg hne] at hun
    exact (hpg.resolve_left hne).2 hun

/-- So does an entry of the receiver. -/
theorem Mailbox.Inv.own {m : Mailbox} {tf : Trapframe} {t : Trap} {pc' : RecvPc} (h : m.Inv r)
    (ho : (m.kernel.cpus c).cpuEnv = some r) (hu : (m.kernel.cpus c).userMode = true)
    (hrun : m.kernel.entry c (.trap tf t) = .ok s')
    (hspare : Spares r m.kernel c (.trap tf t) s')
    (ht : RecvTrap (m.kernel.envs r) m.pc tf t pc') :
    Mailbox.Inv r ⟨s', pc', m.sent ++ sentTo r m.kernel c (.trap tf t), m.received⟩ := by
  have hrecv := h.recving_of_user ho hu
  obtain ⟨hst, hcpu⟩ := h.user c ho hu
  refine ⟨(wrote_entry hrun).listed h.listed, hspare.pgdir, user_of_entry hrun ?_, ?_⟩
  · -- the receiver is on one CPU only
    intro c' hne hc' hu'
    exact absurd ((h.user c' hc' hu').2.symm.trans hcpu) hne
  show Phase (s'.envs r) (m.sent ++ sentTo r m.kernel c (.trap tf t)) m.received pc'
  have hphase := h.phase
  generalize m.pc = pc at ht hphase
  cases ht with
  | recv pg hpg =>
    have hnil : sentTo r m.kernel c (.trap tf (.syscall (.ipcRecv (recvArg pg)))) = [] := rfl
    obtain ⟨hrecv', hst'⟩ := receiver_of_recv (recvArg_aligned hpg) ho (by rw [hst]; decide) hrun
      hspare.pgdir hspare.status
    rw [hnil, List.append_nil]
    exact Or.inl ⟨hrecv', hst', hphase.2⟩
  | interrupt hint =>
    have hcall : ∀ dstva,
        (Entry.trap (m.kernel.envs r).envTf t).call ≠ some (.ipcRecv dstva) := by
      rcases hint with rfl | rfl <;> exact fun _ => nofun
    obtain ⟨hnil, hm⟩ := receiver_of_own h.listed h.pgdir ho hrecv hcall hrun hspare.pgdir
    rw [hnil, List.append_nil]
    exact hphase.mail hm hrecv fun _ => frame_of_interrupt hint hrun
  | other hpc ht =>
    have hcall : ∀ dstva, (Entry.trap tf t).call ≠ some (.ipcRecv dstva) := by
      intro dstva h0
      obtain ⟨tf', h1⟩ := Entry.eq_trap_of_call h0
      exact ht dstva (Entry.trap.inj h1).2
    obtain ⟨hnil, hm⟩ := receiver_of_own h.listed h.pgdir ho hrecv hcall hrun hspare.pgdir
    rw [hnil, List.append_nil]
    exact hphase.mail hm hrecv fun h0 => absurd h0 hpc

/-- **Every step keeps the invariant.** -/
theorem Mailbox.Inv.step {m m' : Mailbox} (h : m.Inv r) (hs : Mailbox.Step r m m') : m'.Inv r := by
  cases hs with
  | @entry c x s' pc' hx hrun hspare hother hown =>
    by_cases ho : (m.kernel.cpus c).cpuEnv = some r
    · cases x with
      | schedule =>
        have hnone := hx.2.2
        rw [ho] at hnone
        cases hnone
      | trap tf t => exact h.own ho hx.2 hrun hspare (hown ho tf t rfl)
    · rw [hother ho]
      exact h.other ho hrun hspare
  | @user c pc' l hc hu hstep =>
    exact ⟨h.listed, h.pgdir, h.user, h.phase.recvStep (h.recving_of_user hc hu) hstep⟩

/-! ## Exactly once -/

/-- What the receiver got is what was sent, in order, up to the message that it is about
to read; that message is in its mailbox, which is closed. -/
structure Mailbox.ExactlyOnce (r : ℕ) (m : Mailbox) : Prop where
  kth : ∀ k < m.received.length, m.received[k]? = m.sent[k]?
  complete : m.sent.length = m.received.length ∨
    m.sent.length = m.received.length + 1 ∧ (m.kernel.envs r).envIpcRecving = false ∧
      m.sent[m.received.length]? =
        some ((m.kernel.envs r).envIpcValue, (m.kernel.envs r).envIpcFrom)

theorem Mailbox.Inv.exactlyOnce {m : Mailbox} (h : m.Inv r) : m.ExactlyOnce r := by
  have hfull : Arrived (m.kernel.envs r) m.sent m.received → m.ExactlyOnce r := by
    intro ha
    refine ⟨fun k hk => ?_, Or.inr ⟨?_, ha.recving, ?_⟩⟩
    · rw [ha.last, List.getElem?_append_left hk]
    · rw [ha.last, List.length_append]
      rfl
    · rw [ha.last, List.getElem?_append_right (Nat.le_refl _), Nat.sub_self]
      rfl
  have hempty : m.sent = m.received → m.ExactlyOnce r := by
    intro heq
    exact ⟨fun k _ => by rw [heq], Or.inl (by rw [heq])⟩
  have hphase := h.phase
  generalize m.pc = pc at hphase
  cases pc with
  | calling => exact hempty hphase.2
  | waiting =>
    rcases hphase with ⟨-, -, hl⟩ | ⟨ha, -⟩
    · exact hempty hl
    · exact hfull ha
  | returned ret => exact hfull hphase.1
  | gotFrom sender => exact hfull hphase.1
  | gotPerm sender perm => exact hfull hphase.1

/-- **The `k`-th `ipc_recv` returns the `k`-th message that was sent**, whatever the others
do, and in whatever order. -/
theorem ipcRecv_exactlyOnce {s₀ : Kernel} {m : Mailbox} (h0 : Ready r s₀)
    (h : Relation.ReflTransGen (Mailbox.Step r) ⟨s₀, .calling, [], []⟩ m) : m.ExactlyOnce r := by
  have hinv : m.Inv r := by
    induction h with
    | refl => exact h0.inv
    | tail _ hs ih => exact ih.step hs
  exact hinv.exactlyOnce

theorem sharing_ready : Ready 1 sharing := by
  refine ⟨⟨List.range' 2 1022, ?_, fun e he => ?_⟩, by decide, rfl, fun c hc _ => ?_⟩
  · refine Lib.Threads.range' (k := 2) (n := 1022) fun i hi hlt => ?_
    show (if i < 2 ∨ nenv ≤ i + 1 then none else some (i + 1)) = _
    by_cases hlast : i + 1 < 2 + 1022
    · rw [if_pos hlast, if_neg (by rw [nenv]; omega)]
    · rw [if_neg hlast, if_pos (by rw [nenv]; omega)]
  · rw [List.mem_range'_1] at he
    show (if e = 0 then some 2 else if e = 1 then some 5 else none) = none
    rw [if_neg (by omega), if_neg (by omega)]
  · have hc' : (if c < 2 then some c else none) = some 1 := hc
    split at hc'
    · exact ⟨rfl, (Option.some.inj hc').symm⟩
    · cases hc'

/-- An entry that does not set a status, as a step. -/
theorem Mailbox.Step.after {pc pc' : RecvPc} {sent received l : List Msg}
    (hx : CanEnter s c x ∧ (s.entry c x).isOk = true)
    (halive : ((s.after c x).envs r).envPgdir ≠ none ∧ ((s.after c x).envs r).envStatus ≠ .dying)
    (hset : ∀ envid st, x.call ≠ some (.envSetStatus envid st)) (hl : sentTo r s c x = l)
    (hother : (s.cpus c).cpuEnv ≠ some r → pc' = pc)
    (hown : (s.cpus c).cpuEnv = some r → ∀ tf t, x = .trap tf t →
      RecvTrap (s.envs r) pc tf t pc') :
    Mailbox.Step r ⟨s, pc, sent, received⟩ ⟨s.after c x, pc', sent ++ l, received⟩ := by
  rw [← hl]
  exact .entry hx.1 (entry_eq_ok_after hx.2)
    ⟨halive.1, halive.2, fun envid st h0 => absurd h0 (hset envid st)⟩ hother hown

/-- A step of the receiver. -/
theorem Mailbox.Step.read {pc pc' : RecvPc} {sent l l' : List Msg}
    (hc : (s.cpus c).cpuEnv = some r ∧ (s.cpus c).userMode = true)
    (h : recvStep (s.envs r) pc = some (pc', l')) :
    Mailbox.Step r ⟨s, pc, sent, l⟩ ⟨s, pc', sent, l ++ l'⟩ :=
  .user (m := ⟨s, pc, sent, l⟩) hc.1 hc.2 h

/-- The child of `sharing` has got the page and is started. -/
def pageSeen : Kernel := (pageWanted.after 0 sendPage).after 1 .schedule

theorem pageSeen_user : (pageSeen.cpus 1).cpuEnv = some 1 ∧ (pageSeen.cpus 1).userMode = true := by
  decide +kernel

/-- The theorem for the child of `sharing`: it calls `ipc_recv`, the parent sends, and the
child reads the message. -/
theorem ipcRecv_exactlyOnce_sharing : Ready 1 sharing ∧ ∃ m : Mailbox,
    Relation.ReflTransGen (Mailbox.Step 1) ⟨sharing, .calling, [], []⟩ m ∧
      m.received = [(5#32, 0x1000#32)] ∧ m.ExactlyOnce 1 := by
  have h1 : Mailbox.Step 1 ⟨sharing, .calling, [], []⟩ ⟨pageWanted, .waiting, [], []⟩ :=
    .after (c := 1) (x := sysEntry (.ipcRecv 0x2000#32)) (l := []) (by decide +kernel)
      (by decide +kernel) (fun _ _ => nofun) rfl (fun h0 => absurd rfl h0) fun _ tf t h0 => by
        obtain ⟨rfl, rfl⟩ := Entry.trap.inj h0
        exact .recv 0x2000#32 (Or.inr (by decide))
  have h2 : Mailbox.Step 1 ⟨pageWanted, .waiting, [], []⟩
      ⟨pageWanted.after 0 sendPage, .waiting, [(5#32, 0x1000#32)], []⟩ :=
    .after (c := 0) (x := sendPage) (l := [(5#32, 0x1000#32)]) (by decide +kernel) (by decide +kernel)
      (fun _ _ h0 => nomatch Option.some.inj h0) (by decide +kernel) (fun _ => rfl)
      (fun h0 => absurd h0 (by decide +kernel))
  have h3 : Mailbox.Step 1 ⟨pageWanted.after 0 sendPage, .waiting, [(5#32, 0x1000#32)], []⟩
      ⟨pageSeen, .waiting, [(5#32, 0x1000#32)], []⟩ :=
    .after (c := 1) (x := .schedule) (l := []) (by decide +kernel) (by decide +kernel) (fun _ _ => nofun) rfl
      (fun _ => rfl) (fun _ _ _ => nofun)
  -- the steps of the receiver in user mode
  have hread : ∀ pc pc' l', recvStep (pageSeen.envs 1) pc = some (pc', l') →
      Mailbox.Step 1 ⟨pageSeen, pc, [(5#32, 0x1000#32)], []⟩
        ⟨pageSeen, pc', [(5#32, 0x1000#32)], l'⟩ :=
    fun pc pc' l' h => .read pageSeen_user h
  have h4 := hread .waiting (.returned 0#32) [] (by decide +kernel)
  have h5 := hread (.returned 0#32) (.gotFrom 0x1000#32) [] (by decide +kernel)
  have h6 := hread (.gotFrom 0x1000#32) (.gotPerm 0x1000#32 7#32) [] (by decide +kernel)
  have h7 := hread (.gotPerm 0x1000#32 7#32) .calling [(5#32, 0x1000#32)] (by decide +kernel)
  have hall := ((((((Relation.ReflTransGen.single h1).tail h2).tail h3).tail h4).tail h5).tail
    h6).tail h7
  exact ⟨sharing_ready, _, hall, rfl, ipcRecv_exactlyOnce sharing_ready hall⟩

end Kernel
end PmakeOs
