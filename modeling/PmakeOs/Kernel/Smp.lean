import PmakeOs.Kernel.Syscall

/-!
# Several CPUs

Kernel code runs under the big kernel lock, so a kernel entry is one step: a CPU
takes the lock on its way in, and gives it back in `env_run` or `sched_halt`.  A
CPU enters by a trap from user mode, or straight into the scheduler, when it has
started (`mp_main`) or is woken from the halt loop.
-/

namespace PmakeOs
namespace Kernel

/-- `lock_kernel` on CPU `c`, which is in kernel mode from here on. -/
def enter (s : Kernel) (c : ℕ) : Kernel :=
  let s := { s with cpunum := c, kernelLock := some c }
  s.setCpu { s.thiscpu with cpuStatus := .started, userMode := false }

inductive Entry where
  | trap (tf : Trapframe) (t : Trap)
  | schedule

/-- The state in which the CPU leaves the kernel again. -/
def entry (s : Kernel) (c : ℕ) : Entry → Except Panic Kernel
  | .trap tf t => (s.enter c).trap tf t
  | .schedule => (s.enter c).schedYield

/-- The lock is free, and CPU `c` is where the entry comes from. -/
def CanEnter (s : Kernel) (c : ℕ) : Entry → Prop
  | .trap _ _ => s.kernelLock = none ∧ (s.cpus c).userMode = true
  | .schedule => s.kernelLock = none ∧ (s.cpus c).userMode = false ∧ (s.cpus c).cpuEnv = none

instance (s : Kernel) (c : ℕ) : (x : Entry) → Decidable (CanEnter s c x)
  | .trap _ _ => inferInstanceAs (Decidable (_ ∧ _))
  | .schedule => inferInstanceAs (Decidable (_ ∧ _ ∧ _))

/-- The state after an entry; the state before it if the kernel stops. -/
def after (s : Kernel) (c : ℕ) (x : Entry) : Kernel :=
  match s.entry c x with
  | .ok s' => s'
  | .error _ => s

/-- Environment `e` is the current one of a CPU other than `c`. -/
def Elsewhere (s : Kernel) (c e : ℕ) : Prop := ∃ c', c' ≠ c ∧ (s.cpus c').cpuEnv = some e

end Kernel
end PmakeOs
