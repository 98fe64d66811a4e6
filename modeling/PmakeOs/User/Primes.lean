import PmakeOs.Calls.Sender

/-!
# `user/primes.c`

The concurrent sieve: `umain` forks the first process of the chain and feeds it the integers; each
process prints the first number it gets, forks a right neighbour, and passes on the numbers that
its prime does not divide.  The processes run on the kernel, on any number of CPUs, with
`ipc_send` and `ipc_recv` of `lib/ipc.c` around the system calls, and each entry into the kernel
can come at any time.

A process is its program point with the values of its variables.  Of `fork` there is the call of
`sys_exofork`: after it the child is there, and whatever `fork` does besides is a trap like
others.  The kernel does not look at the program points, and the lists of messages are a history.
A system call is its handler: the switch of `syscall()`, which lacks those of `ipc.c`, is left out.
-/

namespace PmakeOs
namespace Primes

open Kernel

/-! ## The programs -/

/-- Where a process is in `ipc_send`. -/
inductive SendPc where
  /-- Before `sys_ipc_try_send`. -/
  | calling
  /-- In `sys_ipc_try_send`, until it returns to user mode. -/
  | waiting
  /-- `r = sys_ipc_try_send(to_env, val, pg, perm)` -/
  | returned (ret : Word)
  /-- Before `sys_yield`. -/
  | yielding
  deriving DecidableEq

/-- Where a process is in `primeproc`, or in `umain`, which has no `p`. -/
inductive Pc where
  /-- `id = fork()`, before `sys_exofork`. -/
  | fork (p : Option Word)
  /-- `id = fork()`, after `sys_exofork`. -/
  | forked (p : Option Word) (id : Word)
  /-- `p = ipc_recv(&envid, 0, 0)`, or `i = ipc_recv(&envid, 0, 0)` when `p` and `id` are known. -/
  | recv (k : Option (Word × Word)) (pc : RecvPc)
  /-- `cprintf("CPU %d: %d ", thisenv->env_cpunum, p)` -/
  | print (p : Word)
  /-- `ipc_send(id, i, 0, 0)` -/
  | send (p : Option Word) (id i : Word) (pc : SendPc)
  /-- `panic`, or a fault. -/
  | stopped (p : Option Word)
  deriving DecidableEq

namespace Pc

/-- Behind `fork`: the loop of `umain` or that of `primeproc`. -/
def loop (id : Word) : Option Word → Pc
  | none => .send none id 2#32 .calling
  | some p => .recv (some (p, id)) .calling

/-- What the value of `ipc_recv` is used for.  The division of `i % p` faults for `p` zero, and
when the quotient is too large. -/
def got (w : Word) : Option (Word × Word) → Pc
  | none => .print w
  | some (p, id) =>
    if p = 0#32 ∨ w = BitVec.intMin 32 ∧ p = BitVec.allOnes 32 then .stopped (some p)
    else if w.srem p ≠ 0#32 then .send (some p) id w .calling
    else .recv (some (p, id)) .calling

/-- Behind `ipc_send`.  There is no `i++` for the largest `int`. -/
def sent (id i : Word) : Option Word → Option Pc
  | none => if i = BitVec.intMax 32 then none else some (.send none id (i + 1#32) .calling)
  | some p => some (.recv (some (p, id)) .calling)

/-- A step in user mode, with the message that has been received and the number printed.  `v` is
what `thisenv` points to. -/
def step (v : Env) : Pc → Option (Pc × List Msg × List Word)
  | .fork _ | .stopped _ => none
  | .forked p id => some (loop id p, [], [])
  | .recv k pc =>
    match recvStep v pc with
    | none => none
    | some (pc', []) => some (.recv k pc', [], [])
    | some (_, m :: _) => some (got m.1 k, [m], [])
  | .print p => some (.fork (some p), [], [p])
  | .send p id i .waiting => some (.send p id i (.returned v.envTf.tfRegs.regEax), [], [])
  | .send p id i (.returned ret) =>
    if ret = 0#32 then (sent id i p).map fun pc => (pc, [], [])
    else if ret = BitVec.ofInt 32 (-eIpcNotRecv) then some (.send p id i .yielding, [], [])
    else some (.stopped p, [], [])
  | .send _ _ _ _ => none

/-- A system call is not back, so no instruction of the program can be executed. -/
def Waits : Pc → Prop
  | .recv _ .waiting | .send _ _ _ .waiting => True
  | _ => False

instance : DecidablePred Waits := fun pc => by
  unfold Waits
  split <;> infer_instance

end Pc

/-- A trap that is no part of the protocol: an interrupt, a fault, or another system call. -/
def Quiet (t : Trap) : Prop :=
  t ≠ .syscall .exofork ∧ (∀ dstva, t ≠ .syscall (.ipcRecv dstva)) ∧
    ∀ envid value srcva perm stale, t ≠ .syscall (.ipcTrySend envid value srcva perm stale)

/-- The traps of a process other than `sys_exofork`. -/
inductive PcTrap (v : Env) : Pc → Trapframe → Trap → Pc → Prop
  | recv {k : Option (Word × Word)} {tf : Trapframe} :
      PcTrap v (.recv k .calling) tf (.syscall (.ipcRecv (recvArg 0#32))) (.recv k .waiting)
  | send {p : Option Word} {id i : Word} {tf : Trapframe} {stale : Option Word} :
      PcTrap v (.send p id i .calling) tf
        (.syscall (.ipcTrySend id i (recvArg 0#32) 0#32 stale)) (.send p id i .waiting)
  | yield {p : Option Word} {id i : Word} {tf : Trapframe} :
      PcTrap v (.send p id i .yielding) tf (.syscall .yield) (.send p id i .calling)
  | interrupt {pc : Pc} {t : Trap} (hw : pc.Waits) (ht : t = .timer ∨ t = .spurious) :
      PcTrap v pc v.envTf t pc
  | other {pc : Pc} {tf : Trapframe} {t : Trap} (hw : ¬ pc.Waits) (ht : Quiet t) :
      PcTrap v pc tf t pc

/-! ## The system -/

/-- The kernel, and the processes in the order of the chain: `umain` is process 0. -/
structure Chain where
  kernel : Kernel
  count : ℕ
  slot : ℕ → ℕ
  pc : ℕ → Pc
  /-- What has been sent to each process, and what its `ipc_recv` has returned. -/
  sent : ℕ → List Msg
  received : ℕ → List Msg
  printed : List Word

/-- `umain` starts, in slot `e`. -/
def Chain.start (s : Kernel) (e : ℕ) : Chain :=
  ⟨s, 1, fun _ => e, fun _ => .fork none, fun _ => [], fun _ => [], []⟩

/-- The slot that `sys_exofork` takes is one of the table, and no CPU is left in it. -/
structure Fresh (s : Kernel) (c : ℕ) (x : Entry) (s' : Kernel) (v : ℕ) : Prop where
  lt : v < nenv
  off : ∀ c', (s.cpus c').cpuEnv ≠ some v
  spares : Spares v s c x s'

/-- One step of the system.  The processes are not destroyed, others do not send to them, their
status is not set while they wait or run elsewhere, and `sys_exofork` takes no slot in which a CPU
is still. -/
inductive Chain.Step : Chain → Chain → Prop
  /-- A kernel entry of some CPU. -/
  | entry {m : Chain} {c : ℕ} {x : Entry} {s' : Kernel} {pc' : ℕ → Pc}
      (hx : CanEnter m.kernel c x) (hrun : m.kernel.entry c x = .ok s')
      (hspare : ∀ k < m.count, Spares (m.slot k) m.kernel c x s')
      (hstranger : (∀ k < m.count, (m.kernel.cpus c).cpuEnv ≠ some (m.slot k)) →
        ∀ k < m.count, sentTo (m.slot k) m.kernel c x = [])
      (hother : ∀ k < m.count, (m.kernel.cpus c).cpuEnv ≠ some (m.slot k) → pc' k = m.pc k)
      (hown : ∀ k < m.count, (m.kernel.cpus c).cpuEnv = some (m.slot k) → ∀ tf t, x = .trap tf t →
        PcTrap (m.kernel.envs (m.slot k)) (m.pc k) tf t (pc' k)) :
      Step m { m with
        kernel := s'
        pc := pc'
        sent := fun k => if k < m.count then m.sent k ++ sentTo (m.slot k) m.kernel c x else [] }
  /-- `sys_exofork` of process `k`. -/
  | fork {m : Chain} {c k v : ℕ} {tf : Trapframe} {s' : Kernel} {p : Option Word} {id : Word}
      (hk : k < m.count) (hpc : m.pc k = .fork p)
      (hc : (m.kernel.cpus c).cpuEnv = some (m.slot k))
      (hx : CanEnter m.kernel c (.trap tf (.syscall .exofork)))
      (hrun : m.kernel.entry c (.trap tf (.syscall .exofork)) = .ok s')
      (hspare : ∀ j < m.count, Spares (m.slot j) m.kernel c (.trap tf (.syscall .exofork)) s')
      (hnew : allocs m.kernel c (.trap tf (.syscall .exofork)) = [(v, id)])
      (hfresh : Fresh m.kernel c (.trap tf (.syscall .exofork)) s' v) :
      Step m { m with
        kernel := s'
        count := m.count + 1
        slot := Function.update m.slot m.count v
        pc := Function.update (Function.update m.pc k (.forked p id)) m.count (.recv none .calling)
        received := Function.update m.received m.count [] }
  /-- No environment is free, or no memory. -/
  | forkFails {m : Chain} {c k : ℕ} {tf : Trapframe} {s' : Kernel} {p : Option Word}
      (hk : k < m.count) (hpc : m.pc k = .fork p)
      (hc : (m.kernel.cpus c).cpuEnv = some (m.slot k))
      (hx : CanEnter m.kernel c (.trap tf (.syscall .exofork)))
      (hrun : m.kernel.entry c (.trap tf (.syscall .exofork)) = .ok s')
      (hspare : ∀ j < m.count, Spares (m.slot j) m.kernel c (.trap tf (.syscall .exofork)) s')
      (hnew : allocs m.kernel c (.trap tf (.syscall .exofork)) = []) :
      Step m { m with kernel := s', pc := Function.update m.pc k (.stopped p) }
  /-- A step of process `k` in user mode, on a CPU that runs it. -/
  | user {m : Chain} {c k : ℕ} {pc' : Pc} {l : List Msg} {o : List Word} (hk : k < m.count)
      (hc : (m.kernel.cpus c).cpuEnv = some (m.slot k)) (hu : (m.kernel.cpus c).userMode = true)
      (h : (m.pc k).step (m.kernel.envs (m.slot k)) = some (pc', l, o)) :
      Step m { m with
        pc := Function.update m.pc k pc'
        received := Function.update m.received k (m.received k ++ l)
        printed := m.printed ++ o }

end Primes
end PmakeOs
