import PmakeOs.Kernel.Env

/-!
# `kern/syscall.c` and `kern/trap.c`: the handlers and the trap path

Every handler of `kern/syscall.c`, `page_fault_handler`, and the way in and out of
the kernel that `trap` puts around them.  A handler returns its `int`; the ones that
can end in the scheduler return a `Flow`.

`sys_ipc_try_send` reads `*pte` before it knows that `page_lookup` has stored
anything there.  What an uninitialised pointer gives is an argument of the model:
`stale` is the word found, or `none` if following the pointer faults.
-/

namespace PmakeOs
namespace Kernel

/-- The condition `ROUNDDOWN(va, PGSIZE) != va`. -/
def Unaligned (va : Word) : Prop := rounddown va (BitVec.ofNat 32 pgsize) ≠ va

instance (va : Word) : Decidable (Unaligned va) := inferInstanceAs (Decidable (_ ≠ _))

/-- `sys_exofork` -/
def sysExofork (s : Kernel) : Except Panic (ℤ × Kernel) := do
  let c ← deref s.curenv
  let (ret, e, s) ← s.envAlloc (s.envs c).envId
  if ret < 0 then return (ret, s)
  let e ← deref e
  let tf := (s.envs c).envTf
  let s := s.setEnv e { s.envs e with
    envTf := { tf with tfRegs := { tf.tfRegs with regEax := 0 } }
    envStatus := .notRunnable }
  return ((s.envs e).envId.toInt, s)

/-- `sys_env_set_status`.  Neither the old status nor the CPUs are looked at. -/
def sysEnvSetStatus (s : Kernel) (envid status : Word) : Except Panic (ℤ × Kernel) := do
  if status ≠ EnvStatus.notRunnable.toWord ∧ status ≠ EnvStatus.runnable.toWord then
    return (-eInval, s)
  let (ret, e) ← s.envid2env envid true
  if ret < 0 then return (ret, s)
  let e ← deref e
  let st := if status = EnvStatus.runnable.toWord then EnvStatus.runnable else .notRunnable
  return (0, s.setStatus e st)

/-- `sys_env_set_pgfault_upcall` -/
def sysEnvSetPgfaultUpcall (s : Kernel) (envid func : Word) : Except Panic (ℤ × Kernel) := do
  let (ret, e) ← s.envid2env envid true
  if ret ≠ 0 then return (-eBadEnv, s)
  let e ← deref e
  return (0, s.setEnv e { s.envs e with envPgfaultUpcall := func })

/-- `sys_page_alloc`.  Of `perm` only `PTE_U | PTE_P` is checked. -/
def sysPageAlloc (s : Kernel) (envid va perm : Word) : Except Panic (ℤ × Kernel) := do
  let (ret, e) ← s.envid2env envid true
  if ret ≠ 0 then return (ret, s)
  if utop ≤ va ∨ Unaligned va then return (-eInval, s)
  if perm &&& (pteU ||| pteP) ≠ pteU ||| pteP then return (-eInval, s)
  match ← s.pageAlloc allocZero with
  | (none, s) => return (-eNoMem, s)
  | (some pg, s) =>
    let s := s.note (.userPage pg)
    let e ← deref e
    let d ← deref (s.envs e).envPgdir
    let (ret, s) ← s.pageInsert d pg va perm
    if ret ≠ 0 then
      let s ← s.pageFree pg
      return (ret, s)
    return (0, s)

/-- `sys_page_map` -/
def sysPageMap (s : Kernel) (srcenvid srcva dstenvid dstva perm : Word) :
    Except Panic (ℤ × Kernel) := do
  let (ret, se) ← s.envid2env srcenvid true
  if ret ≠ 0 then return (ret, s)
  let (ret, de) ← s.envid2env dstenvid true
  if ret ≠ 0 then return (ret, s)
  if utop ≤ srcva ∨ utop ≤ dstva ∨ Unaligned srcva ∨ Unaligned dstva then return (-eInval, s)
  let se ← deref se
  let sd ← deref (s.envs se).envPgdir
  match ← s.pageLookup sd srcva with
  | none => return (-eInval, s)
  | some (pg, (t, j)) =>
    if perm &&& (pteU ||| pteP) ≠ pteU ||| pteP then return (-eInval, s)
    if ¬ Has (s.phys t j) pteW ∧ Has perm pteW then return (-eInval, s)
    let de ← deref de
    let dd ← deref (s.envs de).envPgdir
    s.pageInsert dd pg dstva perm

/-- `sys_page_unmap` -/
def sysPageUnmap (s : Kernel) (envid va : Word) : Except Panic (ℤ × Kernel) := do
  let (ret, e) ← s.envid2env envid true
  if ret ≠ 0 then return (ret, s)
  if utop ≤ va ∨ Unaligned va then return (-eInval, s)
  let e ← deref e
  let d ← deref (s.envs e).envPgdir
  let s ← s.pageRemove d va
  return (0, s)

/-- The page transfer of `sys_ipc_try_send`, from the test `srcva < UTOP` on: the
result code, and the state with `env_ipc_perm` set if a page moved. -/
def ipcTransfer (s : Kernel) (c r : ℕ) (srcva perm : Word) (stale : Option Word) :
    Except Panic (ℤ × Kernel) := do
  if utop ≤ srcva then return (0, s)
  let sd ← deref (s.envs c).envPgdir
  let look ← s.pageLookup sd srcva
  if Unaligned srcva then return (-eInval, s)
  let pte ← match look with
    | some (_, (t, j)) => pure (s.phys t j)
    | none => deref stale
  if pte &&& perm &&& 7#32 ≠ perm &&& 7#32 then return (-eInval, s)
  match look with
  | none => return (-eInval, s)
  | some (pg, _) =>
    if Has perm pteW ∧ ¬ Has pte pteW then return (-eInval, s)
    if (s.envs r).envIpcDstva < utop then
      let rd ← deref (s.envs r).envPgdir
      let (ret, s) ← s.pageInsert rd pg (s.envs r).envIpcDstva perm
      if ret ≠ 0 then return (ret, s)
      return (0, s.setEnv r { s.envs r with envIpcPerm := perm })
    else
      return (0, s)

/-- `sys_ipc_try_send` -/
def sysIpcTrySend (s : Kernel) (envid value srcva perm : Word) (stale : Option Word) :
    Except Panic (ℤ × Kernel) := do
  let (ret, r) ← s.envid2env envid false
  if ret ≠ 0 then return (ret, s)
  let r ← deref r
  if ¬ (s.envs r).envIpcRecving then return (-eIpcNotRecv, s)
  let c ← deref s.curenv
  let (ret, s) ← s.ipcTransfer c r srcva perm stale
  if ret ≠ 0 then return (ret, s)
  let v := s.envs r
  return (0, s.setEnv r { v with
    envIpcRecving := false
    envIpcFrom := (s.envs c).envId
    envIpcValue := value
    envStatus := .runnable
    envTf := { v.envTf with tfRegs := { v.envTf.tfRegs with regEax := 0 } } })

/-- `sys_ipc_recv`: it only returns on an error. -/
def sysIpcRecv (s : Kernel) (dstva : Word) : Except Panic (Flow × Kernel) := do
  if dstva < utop ∧ Unaligned dstva then return (.ret (-eInval), s)
  let c ← deref s.curenv
  let s := s.setEnv c { s.envs c with
    envIpcRecving := true, envStatus := .notRunnable, envIpcDstva := dstva }
  let s ← s.schedYield
  return (.left, s)

/-- `sys_env_destroy` -/
def sysEnvDestroy (s : Kernel) (envid : Word) : Except Panic (Flow × Kernel) := do
  let (r, e) ← s.envid2env envid true
  if r < 0 then return (.ret r, s)
  let e ← deref e
  let (fl, s) ← s.envDestroy e
  match fl with
  | .left => return (.left, s)
  | .ret _ => return (.ret 0, s)

/-- `sys_yield` -/
def sysYield (s : Kernel) : Except Panic (Flow × Kernel) := do
  let s ← s.schedYield
  return (.left, s)

/-- `sys_cputs`, without the text it prints: the check that precedes it. -/
def sysCputs (s : Kernel) (str len : Word) : Except Panic (Flow × Kernel) := do
  let c ← deref s.curenv
  if (s.envs c).envTf.tfCs &&& 3#16 ≠ 0#16 then
    s.userMemAssert c str len 0#32
  else
    return (.ret 0, s)

/-- `sys_getenvid` -/
def sysGetenvid (s : Kernel) : Except Panic (ℤ × Kernel) := do
  let c ← deref s.curenv
  return ((s.envs c).envId.toInt, s)

/-- The handlers of `kern/syscall.c` with their arguments.  `sys_cgetc` carries
the character the console delivers. -/
inductive Syscall where
  | cputs (str len : Word)
  | cgetc (ch : ℤ)
  | getenvid
  | envDestroy (envid : Word)
  | pageAlloc (envid va perm : Word)
  | pageMap (srcenvid srcva dstenvid dstva perm : Word)
  | pageUnmap (envid va : Word)
  | exofork
  | envSetStatus (envid status : Word)
  | envSetPgfaultUpcall (envid func : Word)
  | yield
  | ipcTrySend (envid value srcva perm : Word) (stale : Option Word)
  | ipcRecv (dstva : Word)

/-- A handler that always returns, as a flow. -/
def returning (x : Except Panic (ℤ × Kernel)) : Except Panic (Flow × Kernel) :=
  x.map fun p => (.ret p.1, p.2)

/-- Run a handler. -/
def handle (s : Kernel) : Syscall → Except Panic (Flow × Kernel)
  | .cputs str len => s.sysCputs str len
  | .cgetc ch => .ok (.ret ch, s)
  | .getenvid => returning s.sysGetenvid
  | .envDestroy envid => s.sysEnvDestroy envid
  | .pageAlloc envid va perm => returning (s.sysPageAlloc envid va perm)
  | .pageMap srcenvid srcva dstenvid dstva perm =>
      returning (s.sysPageMap srcenvid srcva dstenvid dstva perm)
  | .pageUnmap envid va => returning (s.sysPageUnmap envid va)
  | .exofork => returning s.sysExofork
  | .envSetStatus envid status => returning (s.sysEnvSetStatus envid status)
  | .envSetPgfaultUpcall envid func => returning (s.sysEnvSetPgfaultUpcall envid func)
  | .yield => s.sysYield
  | .ipcTrySend envid value srcva perm stale =>
      returning (s.sysIpcTrySend envid value srcva perm stale)
  | .ipcRecv dstva => s.sysIpcRecv dstva

/-! ## Page faults -/

/-- `UXSTACKTOP`: the top of the user exception stack. -/
def uxstacktop : Word := utop

/-- Store a byte at a virtual address, through the directory that is loaded. -/
def pokeByte (s : Kernel) (va : Word) (b : BitVec 8) : Except Panic Kernel :=
  match mmuWalk s.phys s.thiscpu.cr3 (pgnum va) with
  | none => .error .kernelFault
  | some t =>
    if t.write then
      let o := va.toNat % pgsize
      let w := s.phys t.ppn (o / 4)
      let lane := 8 * (o % 4)
      .ok (s.setWord t.ppn (o / 4) (w &&& ~~~ (0xFF#32 <<< lane) ||| b.setWidth 32 <<< lane))
    else .error .kernelFault

/-- Store the words of a structure from `va` on.  The address need not be aligned. -/
def pokeWords (s : Kernel) (va : Word) (ws : List Word) : Except Panic Kernel :=
  (List.range (4 * ws.length)).foldlM (fun s k =>
    s.pokeByte (va + BitVec.ofNat 32 k) ((ws.getD (k / 4) 0#32).extractLsb' (8 * (k % 4)) 8)) s

/-- `struct UTrapframe`, in the order of memory. -/
def utrapframe (faultVa : Word) (tf : Trapframe) : List Word :=
  [faultVa, tf.tfErr, tf.tfRegs.regEdi, tf.tfRegs.regEsi, tf.tfRegs.regEbp, tf.tfRegs.regOesp,
    tf.tfRegs.regEbx, tf.tfRegs.regEdx, tf.tfRegs.regEcx, tf.tfRegs.regEax, tf.tfEip, tf.tfEflags,
    tf.tfEsp]

/-- Where `page_fault_handler` puts the frame: below the trap-time stack pointer if
that is on the exception stack already, with a word between. -/
def utrapframeAddr (esp : Word) : Word :=
  let stacktop :=
    if uxstacktop - BitVec.ofNat 32 pgsize < esp ∧ esp < uxstacktop then esp else uxstacktop
  -- `sizeof(struct UTrapframe) + sizeof(uint32_t)`
  stacktop - 56#32

/-- `page_fault_handler` for an environment `c` that has an upcall. -/
def faultUpcall (s : Kernel) (c : ℕ) (faultVa : Word) : Except Panic (Flow × Kernel) := do
  let tf := (s.envs c).envTf
  let utr := utrapframeAddr tf.tfEsp
  match ← s.userMemAssert c utr 56#32 (pteU ||| pteW) with
  | (.left, s) => return (.left, s)
  | (.ret _, s) =>
    let s ← s.pokeWords utr (utrapframe faultVa tf)
    let v := s.envs c
    let s := s.setEnv c
      { v with envTf := { v.envTf with tfEip := v.envPgfaultUpcall, tfEsp := utr } }
    let s ← s.envRun c
    return (.left, s)

/-- `page_fault_handler`: branch to the upcall, or destroy the environment. -/
def pageFaultHandler (s : Kernel) (faultVa : Word) : Except Panic (Flow × Kernel) := do
  let c ← deref s.curenv
  if (s.envs c).envTf.tfCs &&& 3#16 = 0#16 then .error .kernelFault
  else if (s.envs c).envPgfaultUpcall ≠ 0#32 then s.faultUpcall c faultVa
  else s.envDestroy c

/-! ## Traps -/

/-- What brings a CPU from user mode into the kernel: the clock, a spurious
interrupt, a page fault, a trap that ends in `env_destroy(curenv)`, or a system
call. -/
inductive Trap where
  | timer
  | spurious
  | pageFault (faultVa : Word)
  | fault
  | syscall (c : Syscall)

/-- `trap_dispatch`, by the kind of trap.  The switch of `syscall()`, which dispatches only some of
the numbers, is left out: every system call reaches its handler. -/
def trapDispatch (s : Kernel) : Trap → Except Panic (Flow × Kernel)
  | .timer => s.sysYield
  | .spurious => .ok (.ret 0, s)
  | .pageFault faultVa => s.pageFaultHandler faultVa
  | .fault => do
    let c ← deref s.curenv
    s.envDestroy c
  | .syscall c => s.handle c

/-- The last lines of `trap`: back to the current environment if that makes
sense, else to the scheduler. -/
def trapReturn (s : Kernel) : Except Panic Kernel :=
  match s.curenv with
  | some c => if (s.envs c).envStatus = .running then s.envRun c else s.schedYield
  | none => s.schedYield

/-- `tf->tf_regs.reg_eax = r`, on the saved frame of `e`. -/
def setEax (s : Kernel) (e : ℕ) (r : ℤ) : Kernel :=
  let tf := (s.envs e).envTf
  s.setEnv e { s.envs e with
    envTf := { tf with tfRegs := { tf.tfRegs with regEax := BitVec.ofInt 32 r } } }

/-- `trap` from user mode, with the frame that the processor pushed. -/
def trap (s : Kernel) (tf : Trapframe) (t : Trap) : Except Panic Kernel := do
  let e ← deref s.curenv
  if (s.envs e).envStatus = .dying then
    let s ← s.envFree e
    (s.setCurenv none).schedYield
  else
    let s := s.note (.dispatch s.cpunum e)
    let s := s.setEnv e { s.envs e with envTf := tf }
    match ← s.trapDispatch t with
    | (.left, s) => return s
    | (.ret r, s) =>
      let s : Kernel := match t with
        | .syscall _ => s.setEax e r
        | _ => s
      s.trapReturn

end Kernel
end PmakeOs
