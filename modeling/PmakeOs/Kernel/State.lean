import PmakeOs.Machine.Mmu
import Mathlib.Logic.Function.Basic

/-!
# The state of the kernel

One record holds everything the kernel code of `kern/` reads and writes: the
`pages` array with its free list, physical memory, the `envs` table with its
free list, the CPUs, and the big kernel lock.

* A `struct PageInfo *` is an index of `pages`, a `struct Env *` an index of
  `envs`, and a null pointer is `none`.  A kernel pointer into the window above
  `KERNBASE`, such as a `pde_t *`, is the frame it points into.
* `cpunum` is the CPU that executes.  Kernel code runs under the big kernel
  lock, so there is one at a time, and `curenv` is the environment of that CPU.
* The last fields of a `CpuInfo` are not in the source: they are what the
  hardware keeps, the loaded directory, the TLB, and whether the CPU is in user
  mode.
* `log` is a history of the calls that whole-run statements speak about.  No
  function reads it.
-/

namespace PmakeOs

/-- `struct PageInfo`.  The reference count is sixteen bits wide. -/
structure PageInfo where
  ppLink : Option ℕ
  ppRef : BitVec 16
  deriving DecidableEq

structure PushRegs where
  regEdi : Word
  regEsi : Word
  regEbp : Word
  regOesp : Word
  regEbx : Word
  regEdx : Word
  regEcx : Word
  regEax : Word
  deriving DecidableEq, Inhabited

structure Trapframe where
  tfRegs : PushRegs
  tfEs : BitVec 16
  tfDs : BitVec 16
  tfTrapno : Word
  tfErr : Word
  tfEip : Word
  tfCs : BitVec 16
  tfEflags : Word
  tfEsp : Word
  tfSs : BitVec 16
  deriving DecidableEq, Inhabited

inductive EnvStatus where
  | free
  | dying
  | runnable
  | running
  | notRunnable
  deriving DecidableEq

/-- The value of the status in the C enumeration. -/
def EnvStatus.toWord : EnvStatus → Word
  | .free => 0#32
  | .dying => 1#32
  | .runnable => 2#32
  | .running => 3#32
  | .notRunnable => 4#32

/-- `struct Env`.  `env_type` has a single value and is left out. -/
structure Env where
  envTf : Trapframe
  envLink : Option ℕ
  envId : Word
  envParentId : Word
  envStatus : EnvStatus
  envRuns : Word
  envCpunum : ℕ
  envPgdir : Option ℕ
  envPgfaultUpcall : Word
  envIpcRecving : Bool
  envIpcDstva : Word
  envIpcValue : Word
  envIpcFrom : Word
  envIpcPerm : Word
  deriving DecidableEq

inductive CpuStatus where
  | unused
  | started
  | halted
  deriving DecidableEq

/-- `struct CpuInfo`, with the part of the processor that the kernel drives. -/
structure CpuInfo where
  cpuStatus : CpuStatus
  cpuEnv : Option ℕ
  userMode : Bool
  cr3 : ℕ
  tlb : List (ℕ × Translation)
  deriving DecidableEq

/-- The calls that are recorded. -/
inductive Event where
  /-- `page_insert` stored frame `pp` for virtual page `vpn` of directory `d`. -/
  | insert (d vpn pp : ℕ)
  /-- `pgdir_walk` allocated frame `pp` as table `i` of directory `d`. -/
  | table (d i pp : ℕ)
  /-- `env_setup_vm` allocated frame `d` as a page directory. -/
  | directory (d : ℕ)
  /-- `sys_page_alloc` obtained frame `pp` for user data. -/
  | userPage (pp : ℕ)
  /-- CPU `c` called `env_free(e)`. -/
  | envFree (c e : ℕ)
  /-- CPU `c` entered environment `e` from the scheduler. -/
  | select (c e : ℕ)
  /-- CPU `c` went past the zombie check of `trap` on behalf of `e`. -/
  | dispatch (c e : ℕ)
  deriving DecidableEq

/-- The event is about pages or page tables. -/
def Event.isMemory : Event → Bool
  | .insert .. | .table .. | .directory .. | .userPage .. => true
  | _ => false

structure Kernel where
  npages : ℕ
  pages : ℕ → PageInfo
  pageFreeList : Option ℕ
  phys : Phys
  kernPgdir : ℕ
  envs : ℕ → Env
  envFreeList : Option ℕ
  cpus : ℕ → CpuInfo
  cpunum : ℕ
  kernelLock : Option ℕ
  userMemCheckAddr : Word
  log : List Event

/-- The recorded calls that are not about memory. -/
def Kernel.controlLog (s : Kernel) : List Event := s.log.filter fun ev => !ev.isMemory

/-- Why the kernel stops: a `panic`, or a fault taken in kernel mode. -/
inductive Panic where
  /-- "page_free can't free page which pp_ref is nonzero or pp_link is not NULL" -/
  | pageFree
  /-- "KADDR called with invalid pa" -/
  | kaddr
  /-- "pa2page called with invalid pa" -/
  | pa2page
  /-- "PADDR called with invalid kva" -/
  | paddr
  /-- "boot_map_region() out of memory" -/
  | bootMapRegion
  /-- "not enough memory", from `mmio_map_region` -/
  | mmioMapRegion
  /-- "'page_free_list' is a null pointer!" -/
  | nullFreeList
  /-- "region_alloc() faild" -/
  | regionAlloc
  /-- "Not ELF!" -/
  | notElf
  /-- "env_create() failed" -/
  | envCreate
  /-- A failed `assert`. -/
  | assertion
  /-- A kernel access through a null pointer, or past the mapped window. -/
  | kernelFault
  deriving DecidableEq

namespace Kernel

/-! ## Elementary updates -/

/-- `curenv`, the environment of the executing CPU. -/
def curenv (s : Kernel) : Option ℕ := (s.cpus s.cpunum).cpuEnv

/-- Store a word in frame `f`. -/
def setWord (s : Kernel) (f i : ℕ) (w : Word) : Kernel :=
  { s with phys := fun f' i' => if f' = f ∧ i' = i then w else s.phys f' i' }

/-- `memset` of a whole frame to zero. -/
def zeroFrame (s : Kernel) (f : ℕ) : Kernel :=
  { s with phys := fun f' i' => if f' = f then 0#32 else s.phys f' i' }

/-- `memcpy` of a whole frame. -/
def copyFrame (s : Kernel) (dst src : ℕ) : Kernel :=
  { s with phys := fun f' i' => if f' = dst then s.phys src i' else s.phys f' i' }

def setPage (s : Kernel) (pp : ℕ) (i : PageInfo) : Kernel :=
  { s with pages := Function.update s.pages pp i }

/-- `pp->pp_ref++` -/
def incRef (s : Kernel) (pp : ℕ) : Kernel :=
  s.setPage pp { s.pages pp with ppRef := (s.pages pp).ppRef + 1#16 }

def setEnv (s : Kernel) (e : ℕ) (v : Env) : Kernel :=
  { s with envs := Function.update s.envs e v }

def setStatus (s : Kernel) (e : ℕ) (st : EnvStatus) : Kernel :=
  s.setEnv e { s.envs e with envStatus := st }

/-- Change the executing CPU's record. -/
def setCpu (s : Kernel) (v : CpuInfo) : Kernel :=
  { s with cpus := Function.update s.cpus s.cpunum v }

/-- `thiscpu` -/
def thiscpu (s : Kernel) : CpuInfo := s.cpus s.cpunum

/-- `curenv = e` -/
def setCurenv (s : Kernel) (e : Option ℕ) : Kernel :=
  s.setCpu { s.thiscpu with cpuEnv := e }

/-- `lcr3`: load a directory, and with it an empty TLB. -/
def lcr3 (s : Kernel) (d : ℕ) : Kernel :=
  s.setCpu { s.thiscpu with cr3 := d, tlb := [] }

/-- `invlpg`: forget what is cached for the page of `va`. -/
def invlpg (s : Kernel) (va : Word) : Kernel :=
  s.setCpu { s.thiscpu with tlb := s.thiscpu.tlb.filter fun t => t.1 ≠ pgnum va }

/-- `unlock_kernel` -/
def unlockKernel (s : Kernel) : Kernel := { s with kernelLock := none }

def note (s : Kernel) (ev : Event) : Kernel := { s with log := ev :: s.log }

/-- Reading through a pointer that may be null. -/
def deref {α : Type} : Option α → Except Panic α
  | some a => .ok a
  | none => .error .kernelFault

@[simp] theorem deref_some {α : Type} (a : α) : deref (some a) = .ok a := rfl

@[simp] theorem deref_none {α : Type} : deref (none : Option α) = .error .kernelFault := rfl

@[simp] theorem ok_bind {ε α β : Type} (a : α) (f : α → Except ε β) :
    ((.ok a : Except ε α) >>= f) = f a := rfl

/-- A sequence that ends well has a first part that ends well. -/
theorem bind_eq_ok {ε α β : Type} {x : Except ε α} {f : α → Except ε β} {b : β} :
    (x >>= f) = .ok b ↔ ∃ a, x = .ok a ∧ f a = .ok b := by
  cases x with
  | error p =>
    constructor
    · intro h
      cases h
    · rintro ⟨a, h, -⟩
      cases h
  | ok a =>
    constructor
    · exact fun h => ⟨a, rfl, h⟩
    · rintro ⟨a', h, h'⟩
      obtain rfl := Except.ok.inj h
      exact h'

theorem deref_eq_ok {α : Type} {o : Option α} {a : α} (h : deref o = .ok a) : o = some a := by
  cases o with
  | none => simp at h
  | some b => simpa using h

end Kernel

/-! ## Error codes -/

def eBadEnv : ℤ := 2
def eInval : ℤ := 3
def eNoMem : ℤ := 4
def eNoFreeEnv : ℤ := 5
def eFault : ℤ := 6
def eIpcNotRecv : ℤ := 7

end PmakeOs
