import PmakeOs.User.Primes
import PmakeOs.Lib.Sieve

/-!
# The chain of processes keeps its numbers

`Inv` says what holds of the chain between any two steps.  Each process has its mailbox
(`Mailbox.Inv`), the id of its right neighbour, and the following about what has come and gone:
what it has sent, with the number that is still to go, are the numbers it has received less the
multiples of its prime; for `umain`, the numbers from 2 on.  Whether a number is still to go can
be in the saved `eax`, while the system call is not back.
-/

namespace PmakeOs
namespace Primes

open Kernel Lib

variable {s s' : Kernel} {m m' : Chain} {c j k r v : ℕ} {x : Entry} {pc pc' : Pc}

/-! ## What is known at each program point -/

/-- The values of messages. -/
def numbers (l : List Msg) : List ℕ := l.map fun a => a.1.toNat

theorem numbers_append (l l' : List Msg) : numbers (l ++ l') = numbers l ++ numbers l' :=
  List.map_append

theorem numbers_mono {l l' : List Msg} (h : l <+: l') : numbers l <+: numbers l' :=
  List.IsPrefix.map (fun a : Msg => a.1.toNat) h

namespace Pc

/-- The id of the right neighbour. -/
def next : Pc → Option Word
  | .forked _ id | .send _ id _ _ => some id
  | .recv q _ => q.map Prod.snd
  | _ => none

/-- The number that has been printed. -/
def label : Pc → Option Word
  | .fork p | .forked p _ | .stopped p | .send p _ _ _ => p
  | .recv q _ => q.map Prod.fst
  | .print _ => none

/-- The program point in `ipc_recv`. -/
def recvPc : Pc → RecvPc
  | .recv _ pc => pc
  | _ => .calling

/-- The number that is still to be sent.  `v` is the environment. -/
def pending (v : Env) : Pc → List ℕ
  | .send _ _ i .calling | .send _ _ i .yielding => [i.toNat]
  | .send _ _ i .waiting => if v.envTf.tfRegs.regEax = 0#32 then [] else [i.toNat]
  | .send _ _ i (.returned ret) => if ret = 0#32 then [] else [i.toNat]
  | _ => []

/-- What `umain` has produced. -/
def fed : Pc → List ℕ
  | .send _ _ i _ => List.range' 2 (i.toNat - 1)
  | _ => []

/-- What process `k` has produced, having received `l`. -/
def output (k : ℕ) (l : List ℕ) (pc : Pc) : List ℕ := if k = 0 then pc.fed else passed l

/-- The program point is one of process `k`, which has received `l`. -/
def Fits (k : ℕ) (l : List ℕ) : Pc → Prop
  | .fork none | .forked none _ | .stopped none => k = 0
  | .send none _ i _ => k = 0 ∧ 2 ≤ i.toNat ∧ i.toNat < 2 ^ 31
  | .fork (some p) | .forked (some p) _ | .stopped (some p) | .print p => 0 < k ∧ l = [p.toNat]
  | .recv none _ => 0 < k ∧ l = []
  | .recv (some (p, _)) _ | .send (some p) _ _ _ => 0 < k ∧ ∃ rest, l = p.toNat :: rest

/-- The results of `sys_ipc_try_send` are those that `ipc_send` expects. -/
def Answered (v : Env) : Pc → Prop
  | .send _ _ _ .waiting => v.envTf.tfRegs.regEax = 0#32 ∨
      v.envTf.tfRegs.regEax = BitVec.ofInt 32 (-eIpcNotRecv)
  | .send _ _ _ (.returned ret) => ret = 0#32 ∨ ret = BitVec.ofInt 32 (-eIpcNotRecv)
  | _ => True

theorem Fits.recv {l : List ℕ} {q : Option (Word × Word)} {pc pc' : RecvPc}
    (h : (recv q pc).Fits k l) : (recv q pc').Fits k l := by
  cases q <;> exact h

theorem Fits.send {l : List ℕ} {p : Option Word} {id i : Word} {pc pc' : SendPc}
    (h : (send p id i pc).Fits k l) : (send p id i pc').Fits k l := by
  cases p <;> exact h

/-- `sys_ipc_try_send` is not back. -/
def Sending (pc : Pc) : Prop := ∃ p id i, pc = .send p id i .waiting

/-- Only the saved `eax` matters, and only while a send is not back. -/
theorem pending_congr {v v' : Env} (h : pc.Sending → v'.envTf = v.envTf) :
    pc.pending v' = pc.pending v := by
  unfold pending
  split
  · rfl
  · rfl
  · rw [h ⟨_, _, _, rfl⟩]
  · rfl
  · rfl

theorem Answered.congr {v v' : Env} (ha : pc.Answered v) (h : pc.Sending → v'.envTf = v.envTf) :
    pc.Answered v' := by
  unfold Answered at ha ⊢
  split
  · rw [h ⟨_, _, _, rfl⟩]
    exact ha
  · exact ha
  · trivial

end Pc

/-- What is known of process `k`, of which the right neighbour has been sent `l'`. -/
structure Local (k : ℕ) (v : Env) (pc : Pc) (l l' : List Msg) : Prop where
  fits : pc.Fits k (numbers l)
  answered : pc.Answered v
  flow : numbers l' ++ pc.pending v = pc.output k (numbers l)

theorem Local.congr {v v' : Env} {l l' : List Msg} (h : Local k v pc l l')
    (htf : pc.Sending → v'.envTf = v.envTf) : Local k v' pc l l' :=
  ⟨h.fits, h.answered.congr htf, by rw [Pc.pending_congr htf]; exact h.flow⟩

/-- The mailbox of process `k`. -/
def Chain.mailbox (m : Chain) (k : ℕ) : Mailbox :=
  ⟨m.kernel, (m.pc k).recvPc, m.sent k, m.received k⟩

/-- **The invariant of the chain.** -/
structure Chain.Inv (m : Chain) : Prop where
  pos : 0 < m.count
  inj : ∀ j < m.count, ∀ k < m.count, m.slot j = m.slot k → j = k
  mail : ∀ k < m.count, Mailbox.Inv (m.slot k) (m.mailbox k)
  live : ∀ k < m.count, (m.kernel.envs (m.slot k)).envStatus ≠ .free
  next : ∀ k < m.count, ∀ id, (m.pc k).next = some id →
    k + 1 < m.count ∧ Names m.kernel id (m.slot (k + 1))
  last : ∀ k < m.count, (m.pc k).next = none → k + 1 = m.count
  unused : ∀ k, m.count ≤ k → m.sent k = []
  each : ∀ k < m.count,
    Local k (m.kernel.envs (m.slot k)) (m.pc k) (m.received k) (m.sent (k + 1))
  printed : m.printed = (List.range m.count).filterMap fun k => (m.pc k).label

/-! ## The numbers along the chain -/

/-- What a process has received is a part of what it has been sent. -/
theorem received_part {b : Mailbox} (h : b.Inv r) : b.received <+: b.sent := by
  have hfull : Arrived (b.kernel.envs r) b.sent b.received → b.received <+: b.sent := by
    intro ha
    rw [ha.last]
    exact List.prefix_append _ _
  have hphase := h.phase
  generalize b.pc = pc at hphase
  cases pc with
  | calling => rw [hphase.2]
  | waiting =>
    rcases hphase with ⟨-, -, hl⟩ | ⟨ha, -⟩
    · rw [hl]
    · exact hfull ha
  | returned ret => exact hfull hphase.1
  | gotFrom sender => exact hfull hphase.1
  | gotPerm sender perm => exact hfull hphase.1

/-- How many numbers `umain` has produced. -/
def Chain.fedCount (m : Chain) : ℕ := (m.pc 0).fed.length

/-- `umain` produces the numbers from 2 on. -/
theorem fed_eq (pc : Pc) : pc.fed = List.range' 2 pc.fed.length := by
  unfold Pc.fed
  split
  · rw [List.length_range']
  · rfl

/-- **What has been sent to a process of the chain is a part of what the sieve gives it.** -/
theorem Chain.Inv.sent_part (h : m.Inv) (hk : k + 1 < m.count) :
    numbers (m.sent (k + 1)) <+: sieved m.fedCount k := by
  induction k with
  | zero =>
    have hflow := (h.each 0 h.pos).flow
    rw [Pc.output, if_pos rfl, fed_eq] at hflow
    exact ⟨_, hflow⟩
  | succ k ih =>
    have hflow := (h.each (k + 1) (by omega)).flow
    rw [Pc.output, if_neg (Nat.succ_ne_zero k)] at hflow
    have hrec := numbers_mono (received_part (h.mail (k + 1) (by omega)))
    have hpre : numbers (m.sent (k + 1 + 1)) <+: passed (numbers (m.received (k + 1))) :=
      ⟨_, hflow⟩
    exact hpre.trans (passed_mono (hrec.trans (ih (by omega))))

/-- The numbers are within the range of an `int`. -/
theorem Chain.Inv.bounds (h : m.Inv) (hk : k < m.count) (hk0 : 0 < k) {i : ℕ}
    (hi : i ∈ numbers (m.sent k)) : 2 ≤ i ∧ i < 2 ^ 31 := by
  obtain ⟨k, rfl⟩ := Nat.exists_eq_succ_of_ne_zero hk0.ne'
  have hmem := (h.sent_part hk).subset hi
  obtain ⟨hlt, hsurv⟩ := mem_sieved.mp hmem
  have hfed : m.fedCount + 2 ≤ 2 ^ 31 := by
    have hfits := (h.each 0 h.pos).fits
    unfold Chain.fedCount
    generalize m.pc 0 = pc at hfits
    unfold Pc.fed
    split
    · rename_i p id i pc
      cases p with
      | none =>
        obtain ⟨-, h2, hlt⟩ := hfits
        rw [List.length_range']
        omega
      | some p => exact absurd hfits.1 (Nat.lt_irrefl 0)
    · decide
  exact ⟨hsurv.1, by omega⟩

/-! ## Kernel entries -/

/-- A trap that is not `sys_ipc_try_send` sends nothing. -/
theorem sentTo_of_quiet {tf : Trapframe} {t : Trap}
    (ht : ∀ envid value srcva perm stale, t ≠ .syscall (.ipcTrySend envid value srcva perm stale)) :
    sentTo r s c (.trap tf t) = [] := by
  refine sentTo_of_nil ?_
  unfold sends
  split
  · rename_i h
    exact absurd (Entry.trap.inj h).2 (ht _ _ _ _ _)
  · rfl

/-- The mailbox sees the traps of a process as those of a receiver. -/
theorem PcTrap.recvTrap {v : Env} {tf : Trapframe} {t : Trap} (h : PcTrap v pc tf t pc') :
    RecvTrap v pc.recvPc tf t pc'.recvPc := by
  cases h with
  | recv => exact .recv 0#32 (Or.inl rfl)
  | send => exact .other nofun nofun
  | yield => exact .other nofun nofun
  | interrupt hw ht =>
    by_cases hpc : pc.recvPc = .waiting
    · rw [hpc]
      exact .interrupt ht
    · refine .other hpc fun dstva h0 => ?_
      rcases ht with rfl | rfl <;> cases h0
  | other hw ht =>
    refine .other (fun h0 => hw ?_) ht.2.1
    unfold Pc.recvPc at h0
    split at h0
    · rw [h0]
      trivial
    · cases h0

/-- An entry on another account leaves what is known of process `k`. -/
theorem Chain.Inv.local_of_other (h : m.Inv) (hk : k < m.count)
    (ho : (m.kernel.cpus c).cpuEnv ≠ some (m.slot k)) (hrun : m.kernel.entry c x = .ok s')
    (hspare : Spares (m.slot k) m.kernel c x s') :
    Local k (s'.envs (m.slot k)) (m.pc k) (m.received k) (m.sent (k + 1)) := by
  have hmail := h.mail k hk
  refine (h.each k hk).congr fun hsend => ?_
  rcases receiver_of_other hmail.listed hmail.pgdir ho hrun hspare with
    ⟨-, hun⟩ | ⟨-, -, htf, -⟩ | ⟨-, hrecv, -⟩
  · exact hun.tf
  · exact htf
  · -- a process that sends has a closed mailbox
    obtain ⟨hwait, -⟩ := hmail.phase.of_recving hrecv
    obtain ⟨p, id, i, hpc⟩ := hsend
    have hwait' : (m.pc k).recvPc = .waiting := hwait
    rw [hpc] at hwait'
    cases hwait'

/-- **The traps of a process**: it sends to its right neighbour only, and what is known of it
stays. -/
theorem Chain.Inv.local_of_own {tf : Trapframe} {t : Trap} (h : m.Inv) (hk : k < m.count)
    (ho : (m.kernel.cpus c).cpuEnv = some (m.slot k)) (hu : (m.kernel.cpus c).userMode = true)
    (hrun : m.kernel.entry c (.trap tf t) = .ok s')
    (ht : PcTrap (m.kernel.envs (m.slot k)) (m.pc k) tf t pc') :
    Local k (s'.envs (m.slot k)) pc' (m.received k)
        (m.sent (k + 1) ++ sentTo (m.slot (k + 1)) m.kernel c (.trap tf t)) ∧
      pc'.next = (m.pc k).next ∧ pc'.label = (m.pc k).label ∧
      ∀ r, r ≠ m.slot (k + 1) ∨ (m.pc k).next = none → sentTo r m.kernel c (.trap tf t) = [] := by
  have hloc := h.each k hk
  have hnext := h.next k hk
  generalize hpc : m.pc k = pc at ht hloc hnext
  -- all traps but one send nothing
  have hquiet : (∀ r, sentTo r m.kernel c (.trap tf t) = []) →
      Local k (s'.envs (m.slot k)) pc' (m.received k) (m.sent (k + 1)) →
      pc'.next = pc.next → pc'.label = pc.label →
      Local k (s'.envs (m.slot k)) pc' (m.received k)
          (m.sent (k + 1) ++ sentTo (m.slot (k + 1)) m.kernel c (.trap tf t)) ∧
        pc'.next = pc.next ∧ pc'.label = pc.label ∧
        ∀ r, r ≠ m.slot (k + 1) ∨ pc.next = none → sentTo r m.kernel c (.trap tf t) = [] := by
    intro hnil hl h1 h2
    rw [hnil, List.append_nil]
    exact ⟨hl, h1, h2, fun r _ => hnil r⟩
  cases ht with
  | recv =>
    exact hquiet (fun r => sentTo_of_quiet fun _ _ _ _ _ => nofun)
      ⟨hloc.fits.recv, trivial, hloc.flow⟩ rfl rfl
  | @send p id i stale =>
    obtain ⟨hk1, hid⟩ := hnext id rfl
    have hne : m.slot (k + 1) ≠ m.slot k := fun h0 =>
      absurd (h.inj _ hk1 k hk h0) (Nat.succ_ne_self k)
    have hst := ((h.mail k hk).user c ho hu).1
    have hst' : (m.kernel.envs (m.slot k)).envStatus = .running := hst
    obtain ⟨hsent, heax⟩ := entry_of_send ho (by rw [hst']; decide) (by decide) hid hne hrun
    refine ⟨?_, rfl, rfl, fun r hr => ?_⟩
    · rw [hsent]
      have hflow := hloc.flow
      have hflow' : numbers (m.sent (k + 1)) ++ [i.toNat] = _ := hflow
      by_cases hrecv : (m.kernel.envs (m.slot (k + 1))).envIpcRecving = true
      · rw [if_pos hrecv] at heax
        rw [if_pos ⟨hrecv, rfl⟩]
        refine ⟨hloc.fits.send, Or.inl heax, ?_⟩
        rw [Pc.pending, if_pos heax, List.append_nil, numbers_append]
        exact hflow
      · rw [if_neg hrecv] at heax
        rw [if_neg fun h0 => hrecv h0.1, List.append_nil]
        refine ⟨hloc.fits.send, Or.inr heax, ?_⟩
        rw [Pc.pending, if_neg (by rw [heax]; decide)]
        exact hflow
    · rw [hsent, if_neg]
      rintro ⟨-, rfl⟩
      exact hr.elim (fun h0 => h0 rfl) nofun
  | yield =>
    exact hquiet (fun r => sentTo_of_quiet fun _ _ _ _ _ => nofun)
      ⟨hloc.fits.send, trivial, hloc.flow⟩ rfl rfl
  | interrupt hw hint =>
    refine hquiet (fun r => sentTo_of_quiet fun _ _ _ _ _ h0 => ?_)
      (hloc.congr fun _ => frame_of_interrupt hint hrun) rfl rfl
    rcases hint with rfl | rfl <;> cases h0
  | other hw hq =>
    refine hquiet (fun r => sentTo_of_quiet hq.2.2) (hloc.congr fun hsend => ?_) rfl rfl
    obtain ⟨p, id, i, rfl⟩ := hsend
    exact absurd trivial hw

/-- Who does not run process `k` sends nothing to its right neighbour. -/
theorem Chain.Inv.sentTo_of_other {pc' : ℕ → Pc} (h : m.Inv) (hk : k + 1 < m.count)
    (ho : (m.kernel.cpus c).cpuEnv ≠ some (m.slot k)) (hx : CanEnter m.kernel c x)
    (hrun : m.kernel.entry c x = .ok s')
    (hstranger : (∀ k < m.count, (m.kernel.cpus c).cpuEnv ≠ some (m.slot k)) →
      ∀ k < m.count, sentTo (m.slot k) m.kernel c x = [])
    (hown : ∀ k < m.count, (m.kernel.cpus c).cpuEnv = some (m.slot k) → ∀ tf t, x = .trap tf t →
      PcTrap (m.kernel.envs (m.slot k)) (m.pc k) tf t (pc' k)) :
    sentTo (m.slot (k + 1)) m.kernel c x = [] := by
  by_cases hmember : ∃ j < m.count, (m.kernel.cpus c).cpuEnv = some (m.slot j)
  · obtain ⟨j, hj, hcj⟩ := hmember
    cases x with
    | schedule => rfl
    | trap tf t =>
      obtain ⟨-, -, -, hnil⟩ := h.local_of_own hj hcj hx.2 hrun (hown j hj hcj tf t rfl)
      refine hnil _ ?_
      by_cases hj1 : j + 1 < m.count
      · left
        intro heq
        have hjk := h.inj _ hk _ hj1 heq
        obtain rfl : k = j := by omega
        exact ho hcj
      · right
        cases hn : (m.pc j).next with
        | none => rfl
        | some id => exact absurd (h.next j hj id hn).1 hj1
  · push Not at hmember
    exact hstranger hmember (k + 1) hk

/-- An entry keeps what the processes know of each other. -/
theorem Chain.Inv.names (h : m.Inv) (hrun : m.kernel.entry c x = .ok s')
    (hspare : ∀ k < m.count, Spares (m.slot k) m.kernel c x s') (hk : k < m.count) {id : Word}
    (hn : (m.pc k).next = some id) : k + 1 < m.count ∧ Names s' id (m.slot (k + 1)) := by
  obtain ⟨hk1, hid⟩ := h.next k hk id hn
  have hmail := h.mail (k + 1) hk1
  exact ⟨hk1, hid.entry hmail.listed hmail.pgdir hrun (hspare _ hk1).pgdir⟩

theorem Chain.Inv.live_of_entry (h : m.Inv) (hrun : m.kernel.entry c x = .ok s')
    (hspare : ∀ k < m.count, Spares (m.slot k) m.kernel c x s') (hk : k < m.count) :
    (s'.envs (m.slot k)).envStatus ≠ .free :=
  (known_of_entry (h.mail k hk).listed (h.mail k hk).pgdir (h.live k hk) hrun
    (hspare k hk).pgdir).2

/-- **An entry keeps the invariant.** -/
theorem Chain.Inv.entry {pc' : ℕ → Pc} (h : m.Inv) (hx : CanEnter m.kernel c x)
    (hrun : m.kernel.entry c x = .ok s')
    (hspare : ∀ k < m.count, Spares (m.slot k) m.kernel c x s')
    (hstranger : (∀ k < m.count, (m.kernel.cpus c).cpuEnv ≠ some (m.slot k)) →
      ∀ k < m.count, sentTo (m.slot k) m.kernel c x = [])
    (hother : ∀ k < m.count, (m.kernel.cpus c).cpuEnv ≠ some (m.slot k) → pc' k = m.pc k)
    (hown : ∀ k < m.count, (m.kernel.cpus c).cpuEnv = some (m.slot k) → ∀ tf t, x = .trap tf t →
      PcTrap (m.kernel.envs (m.slot k)) (m.pc k) tf t (pc' k)) :
    Chain.Inv { m with
      kernel := s'
      pc := pc'
      sent := fun k => if k < m.count then m.sent k ++ sentTo (m.slot k) m.kernel c x else [] } := by
  -- the traps of the process that is on the CPU
  have htrap : ∀ k < m.count, (m.kernel.cpus c).cpuEnv = some (m.slot k) →
      ∃ tf t, x = .trap tf t ∧ PcTrap (m.kernel.envs (m.slot k)) (m.pc k) tf t (pc' k) := by
    intro k hk hc
    cases x with
    | schedule =>
      have hnone := hx.2.2
      rw [hc] at hnone
      cases hnone
    | trap tf t => exact ⟨tf, t, rfl, hown k hk hc tf t rfl⟩
  have hsame : ∀ k < m.count, (pc' k).next = (m.pc k).next ∧ (pc' k).label = (m.pc k).label := by
    intro k hk
    by_cases ho : (m.kernel.cpus c).cpuEnv = some (m.slot k)
    · obtain ⟨tf, t, rfl, ht⟩ := htrap k hk ho
      obtain ⟨-, h1, h2, -⟩ := h.local_of_own hk ho hx.2 hrun ht
      exact ⟨h1, h2⟩
    · rw [hother k hk ho]
      exact ⟨rfl, rfl⟩
  refine ⟨h.pos, h.inj, fun k hk => ?_, fun k hk => h.live_of_entry hrun hspare hk,
    fun k hk id hn => ?_, fun k hk hn => ?_, fun k hk => if_neg (Nat.not_lt.mpr hk),
    fun k hk => ?_, ?_⟩
  · have hstep : Mailbox.Step (m.slot k) (m.mailbox k)
        ⟨s', (pc' k).recvPc, m.sent k ++ sentTo (m.slot k) m.kernel c x, m.received k⟩ := by
      refine .entry (m := m.mailbox k) hx hrun (hspare k hk) (fun ho => ?_) fun ho tf t hxt => ?_
      · rw [hother k hk ho]
        rfl
      · exact (hown k hk ho tf t hxt).recvTrap
    have hmail := (h.mail k hk).step hstep
    rw [Chain.mailbox]
    dsimp only
    rw [if_pos hk]
    exact hmail
  · rw [(hsame k hk).1] at hn
    exact h.names hrun hspare hk hn
  · rw [(hsame k hk).1] at hn
    exact h.last k hk hn
  · show Local k (s'.envs (m.slot k)) (pc' k) (m.received k) (if k + 1 < m.count then _ else [])
    by_cases ho : (m.kernel.cpus c).cpuEnv = some (m.slot k)
    · obtain ⟨tf, t, rfl, ht⟩ := htrap k hk ho
      obtain ⟨hl, -, -, hnil⟩ := h.local_of_own hk ho hx.2 hrun ht
      by_cases hk1 : k + 1 < m.count
      · rw [if_pos hk1]
        exact hl
      · have hnone : (m.pc k).next = none := by
          cases hn : (m.pc k).next with
          | none => rfl
          | some id => exact absurd (h.next k hk id hn).1 hk1
        rw [hnil _ (Or.inr hnone), h.unused _ (Nat.not_lt.mp hk1), List.append_nil] at hl
        rw [if_neg hk1]
        exact hl
    · have hl := h.local_of_other hk ho hrun (hspare k hk)
      rw [hother k hk ho]
      by_cases hk1 : k + 1 < m.count
      · rw [if_pos hk1, h.sentTo_of_other hk1 ho hx hrun hstranger hown, List.append_nil]
        exact hl
      · rw [if_neg hk1, ← h.unused _ (Nat.not_lt.mp hk1)]
        exact hl
  · show m.printed = (List.range m.count).filterMap fun k => (pc' k).label
    rw [h.printed]
    exact List.filterMap_congr fun k hk => (hsame k (List.mem_range.mp hk)).2.symm

/-! ## Forks -/

/-- Behind `sys_exofork`, nothing is known of a process that was not known before. -/
theorem Local.of_fork {v v' : Env} {p : Option Word} {l l' : List Msg}
    (h : Local k v (.fork p) l l') :
    (∀ id, Local k v' (.forked p id) l l') ∧ Local k v' (.stopped p) l l' := by
  have hfits := h.fits
  cases p with
  | none => exact ⟨fun id => ⟨hfits, trivial, h.flow⟩, ⟨hfits, trivial, h.flow⟩⟩
  | some p => exact ⟨fun id => ⟨hfits, trivial, h.flow⟩, ⟨hfits, trivial, h.flow⟩⟩

/-- The mailboxes after `sys_exofork` of process `k`. -/
theorem Chain.Inv.mail_of_fork {tf : Trapframe} {p : Option Word} (h : m.Inv) (hk : k < m.count)
    (hpc : m.pc k = .fork p) (hc : (m.kernel.cpus c).cpuEnv = some (m.slot k))
    (hx : CanEnter m.kernel c (.trap tf (.syscall .exofork)))
    (hrun : m.kernel.entry c (.trap tf (.syscall .exofork)) = .ok s')
    (hspare : ∀ j < m.count, Spares (m.slot j) m.kernel c (.trap tf (.syscall .exofork)) s')
    (hj : j < m.count) :
    Mailbox.Inv (m.slot j) ⟨s', (m.pc j).recvPc, m.sent j, m.received j⟩ := by
  have hstep : Mailbox.Step (m.slot j) (m.mailbox j)
      ⟨s', (m.pc j).recvPc, m.sent j ++ [], m.received j⟩ := by
    refine .entry (m := m.mailbox j) hx hrun (hspare j hj) (fun _ => rfl) fun ho tf' t hxt => ?_
    obtain ⟨-, rfl⟩ := Entry.trap.inj hxt
    obtain rfl := h.inj j hj k hk (Option.some.inj (ho.symm.trans hc))
    refine .other ?_ nofun
    show (m.pc j).recvPc ≠ .waiting
    rw [hpc]
    exact nofun
  rw [List.append_nil] at hstep
  exact (h.mail j hj).step hstep

/-- What is known of the processes after `sys_exofork` of process `k`, which is at `pc'` then. -/
theorem Chain.Inv.local_of_fork {tf : Trapframe} (h : m.Inv) (hk : k < m.count)
    (hc : (m.kernel.cpus c).cpuEnv = some (m.slot k))
    (hrun : m.kernel.entry c (.trap tf (.syscall .exofork)) = .ok s')
    (hspare : ∀ j < m.count, Spares (m.slot j) m.kernel c (.trap tf (.syscall .exofork)) s')
    (hown : Local k (s'.envs (m.slot k)) pc' (m.received k) (m.sent (k + 1)))
    (hj : j < m.count) :
    Local j (s'.envs (m.slot j)) (Function.update m.pc k pc' j) (m.received j)
      (m.sent (j + 1)) := by
  rcases eq_or_ne j k with rfl | hne
  · rw [Function.update_self]
    exact hown
  · rw [Function.update_of_ne hne]
    refine h.local_of_other hj (fun ho => hne ?_) hrun (hspare j hj)
    exact h.inj j hj k hk (Option.some.inj (ho.symm.trans hc))

/-- **A failed `fork` keeps the invariant.** -/
theorem Chain.Inv.forkFails {tf : Trapframe} {p : Option Word} (h : m.Inv) (hk : k < m.count)
    (hpc : m.pc k = .fork p) (hc : (m.kernel.cpus c).cpuEnv = some (m.slot k))
    (hx : CanEnter m.kernel c (.trap tf (.syscall .exofork)))
    (hrun : m.kernel.entry c (.trap tf (.syscall .exofork)) = .ok s')
    (hspare : ∀ j < m.count, Spares (m.slot j) m.kernel c (.trap tf (.syscall .exofork)) s') :
    Chain.Inv { m with kernel := s', pc := Function.update m.pc k (.stopped p) } := by
  have hsame : ∀ j, (Function.update m.pc k (.stopped p) j).recvPc = (m.pc j).recvPc ∧
      (Function.update m.pc k (.stopped p) j).next = (m.pc j).next ∧
      (Function.update m.pc k (.stopped p) j).label = (m.pc j).label := by
    intro j
    rcases eq_or_ne j k with rfl | hne
    · rw [Function.update_self, hpc]
      exact ⟨rfl, rfl, rfl⟩
    · rw [Function.update_of_ne hne]
      exact ⟨rfl, rfl, rfl⟩
  have hloc := h.each k hk
  rw [hpc] at hloc
  refine ⟨h.pos, h.inj, fun j hj => ?_, fun j hj => h.live_of_entry hrun hspare hj,
    fun j hj id hn => ?_, fun j hj hn => ?_, h.unused,
    fun j hj => h.local_of_fork hk hc hrun hspare hloc.of_fork.2 hj, ?_⟩
  · have hmail := h.mail_of_fork hk hpc hc hx hrun hspare hj
    rw [← (hsame j).1] at hmail
    exact hmail
  · have hn' : (Function.update m.pc k (.stopped p) j).next = some id := hn
    rw [(hsame j).2.1] at hn'
    exact h.names hrun hspare hj hn'
  · have hn' : (Function.update m.pc k (.stopped p) j).next = none := hn
    rw [(hsame j).2.1] at hn'
    exact h.last j hj hn'
  · show m.printed = (List.range m.count).filterMap
      fun j => (Function.update m.pc k (.stopped p) j).label
    rw [h.printed]
    exact List.filterMap_congr fun j _ => (hsame j).2.2.symm

/-- **`fork` keeps the invariant**: the child is the new end of the chain. -/
theorem Chain.Inv.fork {tf : Trapframe} {p : Option Word} {id : Word} (h : m.Inv)
    (hk : k < m.count) (hpc : m.pc k = .fork p)
    (hc : (m.kernel.cpus c).cpuEnv = some (m.slot k))
    (hx : CanEnter m.kernel c (.trap tf (.syscall .exofork)))
    (hrun : m.kernel.entry c (.trap tf (.syscall .exofork)) = .ok s')
    (hspare : ∀ j < m.count, Spares (m.slot j) m.kernel c (.trap tf (.syscall .exofork)) s')
    (hnew : allocs m.kernel c (.trap tf (.syscall .exofork)) = [(v, id)])
    (hfresh : Fresh m.kernel c (.trap tf (.syscall .exofork)) s' v) :
    Chain.Inv { m with
      kernel := s'
      count := m.count + 1
      slot := Function.update m.slot m.count v
      pc := Function.update (Function.update m.pc k (.forked p id)) m.count (.recv none .calling)
      received := Function.update m.received m.count [] } := by
  have hlast : k + 1 = m.count := h.last k hk (by rw [hpc]; rfl)
  have hlisted : Listed m.kernel := (h.mail k hk).listed
  obtain ⟨hhead, hid, hrecv⟩ := child_of_exofork hfresh.lt hnew hrun hfresh.spares.pgdir
  -- the slot of the child is none of the others'
  have hv : ∀ j < m.count, m.slot j ≠ v := by
    rintro j hj rfl
    exact (h.mail j hj).pgdir (hlisted.head hhead)
  have hold : ∀ j, j < m.count → j ≠ m.count := fun j hj => Nat.ne_of_lt hj
  have hpc' : ∀ j, j < m.count → Function.update (Function.update m.pc k (.forked p id)) m.count
      (.recv none .calling) j = Function.update m.pc k (.forked p id) j := fun j hj =>
    Function.update_of_ne (hold j hj) _ _
  have hloc := h.each k hk
  rw [hpc] at hloc
  refine ⟨Nat.succ_pos _, fun i hi j hj heq => ?_, fun j hj => ?_, fun j hj => ?_,
    fun j hj id' hn => ?_, fun j hj hn => ?_, fun j hj => h.unused j (Nat.le_of_succ_le hj),
    fun j hj => ?_, ?_⟩
  · dsimp only at heq
    rcases Nat.lt_succ_iff_lt_or_eq.mp hi with hi' | rfl <;>
      rcases Nat.lt_succ_iff_lt_or_eq.mp hj with hj' | rfl
    · rw [Function.update_of_ne (hold i hi'), Function.update_of_ne (hold j hj')] at heq
      exact h.inj i hi' j hj' heq
    · rw [Function.update_of_ne (hold i hi'), Function.update_self] at heq
      exact absurd heq (hv i hi')
    · rw [Function.update_of_ne (hold j hj'), Function.update_self] at heq
      exact absurd heq.symm (hv j hj')
    · rfl
  · rw [Chain.mailbox]
    dsimp only
    rcases Nat.lt_succ_iff_lt_or_eq.mp hj with hj' | rfl
    · have hmail := h.mail_of_fork hk hpc hc hx hrun hspare hj'
      have hsame : (Function.update m.pc k (.forked p id) j).recvPc = (m.pc j).recvPc := by
        rcases eq_or_ne j k with rfl | hne
        · rw [Function.update_self, hpc]
          rfl
        · rw [Function.update_of_ne hne]
      rw [hpc' j hj', hsame, Function.update_of_ne (hold j hj'), Function.update_of_ne (hold j hj')]
      exact hmail
    · rw [Function.update_self, Function.update_self, Function.update_self]
      refine ⟨(wrote_entry hrun).listed hlisted, hfresh.spares.pgdir,
        user_of_entry hrun fun c' _ h0 => absurd h0 (hfresh.off c'), hrecv, ?_⟩
      exact h.unused _ (Nat.le_refl _)
  · dsimp only
    rcases Nat.lt_succ_iff_lt_or_eq.mp hj with hj' | rfl
    · rw [Function.update_of_ne (hold j hj')]
      exact h.live_of_entry hrun hspare hj'
    · rw [Function.update_self]
      exact hid.live
  · dsimp only at hn ⊢
    rcases Nat.lt_succ_iff_lt_or_eq.mp hj with hj' | rfl
    · rw [hpc' j hj'] at hn
      rcases eq_or_ne j k with rfl | hne
      · rw [Function.update_self] at hn
        obtain rfl := Option.some.inj hn
        rw [hlast, Function.update_self]
        exact ⟨Nat.lt_succ_self _, hid⟩
      · rw [Function.update_of_ne hne] at hn
        obtain ⟨hj1, hnames⟩ := h.names hrun hspare hj' hn
        rw [Function.update_of_ne (hold _ hj1)]
        exact ⟨Nat.lt_succ_of_lt hj1, hnames⟩
    · rw [Function.update_self] at hn
      cases hn
  · dsimp only at hn ⊢
    rcases Nat.lt_succ_iff_lt_or_eq.mp hj with hj' | rfl
    · rw [hpc' j hj'] at hn
      rcases eq_or_ne j k with rfl | hne
      · rw [Function.update_self] at hn
        cases hn
      · rw [Function.update_of_ne hne] at hn
        have hj1 := h.last j hj' hn
        omega
    · rfl
  · dsimp only
    rcases Nat.lt_succ_iff_lt_or_eq.mp hj with hj' | rfl
    · rw [hpc' j hj', Function.update_of_ne (hold j hj'), Function.update_of_ne (hold j hj')]
      exact h.local_of_fork hk hc hrun hspare (hloc.of_fork.1 id) hj'
    · rw [Function.update_self, Function.update_self, Function.update_self,
        h.unused _ (Nat.le_succ _)]
      refine ⟨⟨h.pos, rfl⟩, trivial, ?_⟩
      rw [Pc.output, if_neg (Nat.ne_of_gt h.pos)]
      rfl
  · dsimp only
    rw [List.range_succ, List.filterMap_append, h.printed]
    have hnew' : [m.count].filterMap (fun j => (Function.update (Function.update m.pc k
        (.forked p id)) m.count (.recv none .calling) j).label) = [] := by
      rw [List.filterMap_cons_none (by rw [Function.update_self]; rfl), List.filterMap_nil]
    rw [hnew', List.append_nil]
    refine List.filterMap_congr fun j hj => ?_
    rw [hpc' j (List.mem_range.mp hj)]
    rcases eq_or_ne j k with rfl | hne
    · rw [Function.update_self, hpc]
      rfl
    · rw [Function.update_of_ne hne]

end Primes
end PmakeOs
