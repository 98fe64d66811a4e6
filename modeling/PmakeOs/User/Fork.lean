import PmakeOs.Space.SelfMap

/-!
# `lib/fork.c`

`fork`, `duppage` and `pgfault`, with `set_pgfault_handler` of `lib/pgfault.c` and the stub of
`lib/syscall.c`, run by the current environment while nothing else runs.  The page tables are
read where user programs see them, at `UVPT`.

A system call is the handler of the kernel.  The switch of `syscall()`, which knows five numbers
only, is in `Kernel.syscall` and is left out here: every call reaches its handler.

The variable `_pgfault_handler` and the stacks are not part of the model: `fork` takes as
arguments whether a handler has been set and the address of `_pgfault_upcall`.  The stores that
`fork` makes to its own stack are left out.  `duppage` makes that page copy-on-write too, and the
fault of the next push replaces it, by way of the exception stack and `PFTEMP`.  So what is said of
`fork` about the entries of the parent and about words that stay does not hold of the page of its
stack, of the exception stack and of `PFTEMP`, and that fault needs pages of its own.  Of a fault
that `pgfault` handles, what `trap` does is there, and what `_pgfault_upcall` and `pgfault` push is
left out; how they get back is in `Trap.Upcall`.
-/

namespace PmakeOs

/-- `PTE_SHARE` -/
def pteShare : Word := 0x400#32

/-- `PTE_COW` -/
def pteCow : Word := 0x800#32

/-- `FEC_PR` -/
def fecPr : Word := 0x1#32

/-- `FEC_WR` -/
def fecWr : Word := 0x2#32

/-- `FEC_U` -/
def fecU : Word := 0x4#32

/-- `PFTEMP` -/
def pftemp : Word := 2#32 * BitVec.ofNat 32 ptsize - BitVec.ofNat 32 pgsize

/-- Why code of a user program does not go on. -/
inductive Stop where
  /-- `panic` -/
  | panic
  /-- A page fault that is not handled. -/
  | fault
  /-- A system call does not come back. -/
  | left
  /-- The kernel stops. -/
  | kernel (p : Panic)
  deriving DecidableEq

namespace User

open Kernel

/-! ## Memory -/

/-- A load of an aligned word. -/
def load (s : Kernel) (va : Word) : Except Stop Word :=
  match mmuWalk s.phys s.thiscpu.cr3 (pgnum va) with
  | none => .error .fault
  | some t => if t.user then .ok (s.phys t.ppn (va.toNat % pgsize / 4)) else .error .fault

/-- A store of an aligned word. -/
def store (s : Kernel) (va w : Word) : Except Stop Kernel :=
  match mmuWalk s.phys s.thiscpu.cr3 (pgnum va) with
  | none => .error .fault
  | some t =>
    if t.user ∧ t.write then .ok (s.setWord t.ppn (va.toNat % pgsize / 4) w) else .error .fault

/-- `memmove` between two pages, which copies words upwards. -/
def movePage (s : Kernel) (dst src : Word) : Except Stop Kernel :=
  (List.range (pgsize / 4)).foldlM (fun s k => do
    let w ← load s (src + BitVec.ofNat 32 (4 * k))
    store s (dst + BitVec.ofNat 32 (4 * k)) w) s

/-- `uvpd[i]` -/
def uvpdAt (s : Kernel) (i : ℕ) : Except Stop Word := load s (uvpd + BitVec.ofNat 32 (4 * i))

/-- `uvpt[n]` -/
def uvptAt (s : Kernel) (n : ℕ) : Except Stop Word := load s (uvpt + BitVec.ofNat 32 (4 * n))

/-! ## `lib/syscall.c` -/

/-- `syscall`.  The trap carries the call, not its number, and so reaches the handler: the switch of
the kernel's `syscall()` is left out. -/
def syscall (s : Kernel) (check : Bool) (y : Syscall) : Except Stop (ℤ × Kernel) :=
  match s.handle y with
  | .error p => .error (.kernel p)
  | .ok (.left, _) => .error .left
  | .ok (.ret ret, s) => if check = true ∧ 0 < ret then .error .panic else .ok (ret, s)

/-- `if ((r = ...) < 0) panic(...)` around a call. -/
def must (s : Kernel) (y : Syscall) : Except Stop Kernel := do
  let (r, s) ← syscall s true y
  if r < 0 then throw .panic
  return s

/-! ## `lib/pgfault.c` -/

/-- The page below `UXSTACKTOP`. -/
def uxstackVa : Word := uxstacktop - BitVec.ofNat 32 pgsize

/-- `set_pgfault_handler`; `first` if `_pgfault_handler` is zero. -/
def setPgfaultHandler (s : Kernel) (first : Bool) (upcall : Word) : Except Stop Kernel := do
  if first = true then
    let (eid, s) ← syscall s false .getenvid
    let s ← must s (.pageAlloc (BitVec.ofInt 32 eid) uxstackVa (pteU ||| pteP ||| pteW))
    must s (.envSetPgfaultUpcall (BitVec.ofInt 32 eid) upcall)
  else
    return s

/-! ## `lib/fork.c` -/

/-- `pgfault` -/
def pgfault (s : Kernel) (faultVa err : Word) : Except Stop Kernel := do
  if ¬ Has err fecWr then throw .panic
  if ¬ Has (← uvptAt s (pgnum faultVa)) pteCow then throw .panic
  let addr := rounddown faultVa (BitVec.ofNat 32 pgsize)
  let s ← must s (.pageMap 0#32 addr 0#32 pftemp (pteU ||| pteP))
  let s ← must s (.pageAlloc 0#32 addr (pteP ||| pteU ||| pteW))
  let s ← movePage s addr pftemp
  must s (.pageUnmap 0#32 pftemp)

/-- The error code of a write from user mode that faults. -/
def writeErr (s : Kernel) (va : Word) : Word :=
  fecU ||| fecWr ||| if (mmuWalk s.phys s.thiscpu.cr3 (pgnum va)).isSome then fecPr else 0#32

/-- A write to `va` has faulted, with the registers `tf`.  `trap` branches to the upcall of the
environment, or destroys it, and then something else runs. -/
def writeFault (s : Kernel) (tf : Trapframe) (va : Word) : Except Stop Kernel :=
  match s.trap { tf with tfErr := writeErr s va } (.pageFault va) with
  | .error p => .error (.kernel p)
  | .ok s' => if s'.curenv = s.curenv then .ok s' else .error .left

/-- A store of an aligned word, by a program whose handler is `pgfault`, with the registers
`tf`: after the handler the instruction is executed again. -/
def storeCow (s : Kernel) (tf : Trapframe) (va w : Word) : Except Stop Kernel :=
  match store s va w with
  | .error .fault => do
    let s' ← writeFault s tf va
    let s' ← pgfault s' va (writeErr s va)
    store s' va w
  | r => r

/-- `duppage`.  Of the results of `sys_page_map` only those of the second branch are looked
at. -/
def duppage (s : Kernel) (envid : Word) (pn : ℕ) : Except Stop (ℤ × Kernel) := do
  let addr := BitVec.ofNat 32 (pn * pgsize)
  if Has (← uvptAt s pn) pteShare then
    let (_, s) ← syscall s true (.pageMap 0#32 addr envid addr pteSyscall)
    return (0, s)
  else if Has (← uvptAt s pn) pteW ∨ Has (← uvptAt s pn) pteCow then
    let s ← must s (.pageMap 0#32 addr envid addr (pteCow ||| pteU ||| pteP))
    let s ← must s (.pageMap 0#32 addr 0#32 addr (pteCow ||| pteU ||| pteP))
    return (0, s)
  else
    let (_, s) ← syscall s true (.pageMap 0#32 addr envid addr (pteU ||| pteP))
    return (0, s)

/-- One round of the loop of `fork`. -/
def forkPage (envid : Word) (s : Kernel) (pn : ℕ) : Except Stop Kernel := do
  if Has (← uvpdAt s (pn / nptentries)) pteP then
    if Has (← uvptAt s pn) pteP then
      if Has (← uvptAt s pn) pteU then
        let (_, s) ← duppage s envid pn
        return s
      else return s
    else return s
  else return s

/-- The pages below `USTACKTOP`. -/
def ustackPages : ℕ := ustacktop.toNat / pgsize

/-- `fork`, in the parent. -/
def fork (s : Kernel) (first : Bool) (upcall : Word) : Except Stop (ℤ × Kernel) := do
  let s ← setPgfaultHandler s first upcall
  let (envid, s) ← syscall s false .exofork
  if envid = 0 then return (0, s)
  if envid < 0 then throw .panic
  let child := BitVec.ofInt 32 envid
  let s ← (List.range ustackPages).foldlM (forkPage child) s
  let s ← must s (.pageAlloc child uxstackVa (pteP ||| pteW ||| pteU))
  let (_, s) ← syscall s true (.envSetPgfaultUpcall child upcall)
  let s ← must s (.envSetStatus child EnvStatus.runnable.toWord)
  return (envid, s)

end User
end PmakeOs
