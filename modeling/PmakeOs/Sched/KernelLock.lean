import PmakeOs.Kernel.Syscall
import Mathlib.Logic.Relation

/-!
# The big kernel lock, step by step

Elsewhere a kernel entry is one step, from the trap to the way out.  This file is about
what makes that right: the lock that CPUs take on the way in and release on the way out.
Here a step is a single access to the lock, to `cpu_status` or to another CPU, and the
steps of any number of CPUs interleave.

A CPU is at a program point `Pc` of the functions that matter to the lock: `i386_init`,
`boot_aps` and `mp_main`, `trap` and `trap_dispatch`, the handlers, `env_destroy`,
`sched_yield`, `sched_halt` and `env_run`, `spin_lock` and `spin_unlock`.  What these
functions decide from the environments is left open: `Next` has a step for every branch,
and `next_of_handle` says that the handlers of the model take one of them.

The invariant `Guarded` ties the point of a CPU to the lock word, to the record of the
holder and to `cpu_status`.  The last decides whether `trap` takes the lock twice.
-/

namespace PmakeOs

open Kernel

namespace Smp

/-! ## Program points -/

/-- `tf_trapno`, as far as `trap_dispatch` looks at it. -/
inductive Trapno where
  | pageFault
  | breakpoint
  | syscall (x : Syscall)
  | spurious
  | timer
  /-- What `trap_dispatch` does not expect. -/
  | other

/-- The calls of `lock_kernel`. -/
inductive Caller where
  | i386Init
  | mpMain
  /-- `trap`, when the CPU was halted. -/
  | woken (user : Bool) (n : Trapno)
  /-- `trap`, from user mode. -/
  | user (n : Trapno)

/-- The calls of `unlock_kernel`. -/
inductive Exit where
  | envRun
  | schedHalt

/-- Inside of `spin_lock`: the test `holding`, the `xchg` that is repeated, and the record
of the holder. -/
inductive AcquirePc where
  | test
  | spin
  | record

/-- Inside of `spin_unlock`: the test `holding`, the record that is cleared, and the
`xchg`. -/
inductive ReleasePc where
  | test
  | clear
  | xchg

/-- Where a CPU is. -/
inductive Pc where
  /-- An AP that has not been started. -/
  | unused
  | i386Init
  | acquire (k : Caller) (p : AcquirePc)
  /-- `boot_aps` at CPU `k`, and whether it waits for it. -/
  | bootAps (k : ℕ) (waits : Bool)
  | envCreate
  | mpMain
  /-- `mp_main`, when `cpu_status` has been set. -/
  | mpStarted
  /-- The first lines of `trap`; `user` is `(tf->tf_cs & 3) == 3`. -/
  | trap (user : Bool) (n : Trapno)
  /-- `trap` at the test of the privilege level. -/
  | privilege (user : Bool) (n : Trapno)
  | zombieCheck (n : Trapno)
  | freeZombie
  | trapDispatch (user : Bool) (n : Trapno)
  | handler (x : Syscall)
  | pageFaultHandler
  | envDestroy
  /-- The last lines of `trap`. -/
  | trapTail
  | schedYield
  | schedHalt
  | envRun
  | release (k : Exit) (p : ReleasePc)
  | envPopTf
  /-- The last lines of `sched_halt`. -/
  | sti
  | user
  | halted
  /-- The kernel monitor, after `panic` or without a runnable environment. -/
  | stopped (held : Bool)
  /-- `hlt` in `trap`, after a panic of another CPU. -/
  | dead (user : Bool)
  /-- `panic` in `spin_lock`. -/
  | alreadyHolding
  /-- `panic` in `spin_unlock`. -/
  | cannotRelease

/-- Where `lock_kernel` returns to. -/
def Caller.after : Caller → Pc
  | i386Init => .bootAps 0 false
  | mpMain => .schedYield
  | woken u n => .privilege u n
  | user n => .zombieCheck n

/-- Where `unlock_kernel` returns to. -/
def Exit.after : Exit → Pc
  | envRun => .envPopTf
  | schedHalt => .sti

/-- The handler can return to `syscall`. -/
def returns : Syscall → Bool
  | .yield => false
  | _ => true

/-- **The steps of the code that touch nothing shared but environments and pages.** -/
inductive Next : Pc → Pc → Prop
  | i386Init : Next .i386Init (.acquire .i386Init .test)
  | envCreate : Next .envCreate .schedYield
  | mpStarted : Next .mpStarted (.acquire .mpMain .test)
  | fromUser {n : Trapno} : Next (.privilege true n) (.acquire (.user n) .test)
  | fromKernel {n : Trapno} : Next (.privilege false n) (.trapDispatch false n)
  | zombie {n : Trapno} : Next (.zombieCheck n) .freeZombie
  | freed : Next .freeZombie .schedYield
  | save {n : Trapno} : Next (.zombieCheck n) (.trapDispatch true n)
  -- `trap_dispatch`
  | pageFault : Next (.trapDispatch true .pageFault) .pageFaultHandler
  | breakpoint {u : Bool} : Next (.trapDispatch u .breakpoint) .trapTail
  | syscall {u : Bool} {x : Syscall} : Next (.trapDispatch u (.syscall x)) (.handler x)
  | invalid {u : Bool} {x : Syscall} : Next (.trapDispatch u (.syscall x)) .trapTail
  | spurious {u : Bool} : Next (.trapDispatch u .spurious) .trapTail
  | timer {u : Bool} : Next (.trapDispatch u .timer) .schedYield
  | unexpected : Next (.trapDispatch true .other) .envDestroy
  -- the handlers
  | ret {x : Syscall} (h : returns x = true) : Next (.handler x) .trapTail
  | cputs {str len : Word} : Next (.handler (.cputs str len)) .envDestroy
  | destroy {envid : Word} : Next (.handler (.envDestroy envid)) .envDestroy
  | yield : Next (.handler .yield) .schedYield
  | ipcRecv {dstva : Word} : Next (.handler (.ipcRecv dstva)) .schedYield
  | upcall : Next .pageFaultHandler .envRun
  | noUpcall : Next .pageFaultHandler .envDestroy
  -- `env_destroy` of another environment returns
  | destroyed : Next .envDestroy .trapTail
  | destroyedSelf : Next .envDestroy .schedYield
  | resume : Next .trapTail .envRun
  | reschedule : Next .trapTail .schedYield
  | found : Next .schedYield .envRun
  | notFound : Next .schedYield .schedHalt
  | monitor : Next .schedHalt (.stopped true)
  | unlock : Next .envRun (.release .envRun .test)
  | iret : Next .envPopTf .user
  | hlt : Next .sti .halted

/-- The code at this point can panic, other than in `spin_lock` and `spin_unlock`: an
assertion, a pointer into no page, a fault in kernel mode. -/
def Pc.canPanic : Pc → Bool
  | .bootAps .. | .envCreate | .privilege true _ | .zombieCheck _ | .freeZombie
  | .trapDispatch .. | .handler _ | .pageFaultHandler | .envDestroy | .trapTail | .schedYield
  | .schedHalt | .envRun => true
  | _ => false

/-- The CPU has set the lock word. -/
def Pc.owns : Pc → Bool
  | .acquire _ .record | .bootAps .. | .envCreate | .privilege false _ | .zombieCheck _
  | .freeZombie | .trapDispatch .. | .handler _ | .pageFaultHandler | .envDestroy | .trapTail
  | .schedYield | .schedHalt | .envRun | .release .. | .stopped true => true
  | _ => false

/-! ## The machine -/

/-- `struct spinlock` -/
structure Spinlock where
  locked : Bool
  cpu : Option ℕ

/-- The CPUs, and what they share.  `entries` and `releases` count, for each CPU, the
times that it came into the kernel (with the boot) and that it released the lock. -/
structure Machine where
  ncpu : ℕ
  lock : Spinlock
  cpuStatus : ℕ → CpuStatus
  panicstr : Bool
  pc : ℕ → Pc
  entries : ℕ → ℕ
  releases : ℕ → ℕ

namespace Machine

/-- `holding` -/
def Holding (m : Machine) (c : ℕ) : Prop := m.lock.locked = true ∧ m.lock.cpu = some c

def goto (m : Machine) (c : ℕ) (p : Pc) : Machine := { m with pc := Function.update m.pc c p }

def setStatus (m : Machine) (c : ℕ) (st : CpuStatus) : Machine :=
  { m with cpuStatus := Function.update m.cpuStatus c st }

/-- A trap brings the CPU into the kernel. -/
def come (m : Machine) (c : ℕ) : Machine :=
  { m with entries := Function.update m.entries c (m.entries c + 1) }

/-- The `xchg` of `spin_unlock`. -/
def unlocked (m : Machine) (c : ℕ) : Machine :=
  { m with
    lock := { m.lock with locked := false }
    releases := Function.update m.releases c (m.releases c + 1) }

/-- **One step of CPU `c`.** -/
inductive Step (m : Machine) (c : ℕ) : Machine → Prop
  | next {p : Pc} (h : Next (m.pc c) p) : Step m c (m.goto c p)
  | panic (h : (m.pc c).canPanic = true) :
      Step m c { m.goto c (.stopped (m.pc c).owns) with panicstr := true }
  -- `boot_aps`
  | skip (h : m.pc c = .bootAps c false) : Step m c (m.goto c (.bootAps (c + 1) false))
  | startap {k : ℕ} (h : m.pc c = .bootAps k false) (hlt : k < m.ncpu) (hne : k ≠ c) :
      Step m c ((m.goto k .mpMain).goto c (.bootAps k true))
  | isUp {k : ℕ} (h : m.pc c = .bootAps k true) (hst : m.cpuStatus k = .started) :
      Step m c (m.goto c (.bootAps (k + 1) false))
  | booted (h : m.pc c = .bootAps m.ncpu false) : Step m c (m.goto c .envCreate)
  /-- `mp_main` tells `boot_aps` that the CPU is up. -/
  | up (h : m.pc c = .mpMain) : Step m c ((m.setStatus c .started).goto c .mpStarted)
  -- `trap`
  | trapUser {n : Trapno} (h : m.pc c = .user) : Step m c ((m.come c).goto c (.trap true n))
  | interrupt {n : Trapno} (h : m.pc c = .halted) :
      Step m c ((m.come c).goto c (.trap false n))
  | dead {u : Bool} {n : Trapno} (h : m.pc c = .trap u n) (hp : m.panicstr = true) :
      Step m c (m.goto c (.dead u))
  | wasHalted {u : Bool} {n : Trapno} (h : m.pc c = .trap u n)
      (hst : m.cpuStatus c = .halted) :
      Step m c ((m.setStatus c .started).goto c (.acquire (.woken u n) .test))
  | wasRunning {u : Bool} {n : Trapno} (h : m.pc c = .trap u n)
      (hst : m.cpuStatus c ≠ .halted) :
      Step m c ((m.setStatus c .started).goto c (.privilege u n))
  /-- `sched_halt` -/
  | halt (h : m.pc c = .schedHalt) :
      Step m c ((m.setStatus c .halted).goto c (.release .schedHalt .test))
  -- `spin_lock`
  | again {k : Caller} (h : m.pc c = .acquire k .test) (hh : m.Holding c) :
      Step m c (m.goto c .alreadyHolding)
  | spin {k : Caller} (h : m.pc c = .acquire k .test) (hh : ¬ m.Holding c) :
      Step m c (m.goto c (.acquire k .spin))
  | pause {k : Caller} (h : m.pc c = .acquire k .spin) (hl : m.lock.locked = true) : Step m c m
  | take {k : Caller} (h : m.pc c = .acquire k .spin) (hl : m.lock.locked = false) :
      Step m c { m.goto c (.acquire k .record) with lock := { m.lock with locked := true } }
  | record {k : Caller} (h : m.pc c = .acquire k .record) :
      Step m c { m.goto c k.after with lock := { m.lock with cpu := some c } }
  -- `spin_unlock`
  | notHeld {k : Exit} (h : m.pc c = .release k .test) (hh : ¬ m.Holding c) :
      Step m c (m.goto c .cannotRelease)
  | held {k : Exit} (h : m.pc c = .release k .test) (hh : m.Holding c) :
      Step m c (m.goto c (.release k .clear))
  | clear {k : Exit} (h : m.pc c = .release k .clear) :
      Step m c { m.goto c (.release k .xchg) with lock := { m.lock with cpu := none } }
  | xchg {k : Exit} (h : m.pc c = .release k .xchg) : Step m c ((m.unlocked c).goto c k.after)

/-- The machine when CPU `b` is in `i386_init` and the others wait to be started; `st` is
what `mp_init` leaves in `cpu_status` of CPU `b`. -/
def boot (ncpu b : ℕ) (st : CpuStatus) : Machine where
  ncpu := ncpu
  lock := ⟨false, none⟩
  cpuStatus := Function.update (fun _ => .unused) b st
  panicstr := false
  pc := Function.update (fun _ => .unused) b .i386Init
  entries _ := 1
  releases _ := 0

/-- The machines that the CPUs reach, in any order of their steps. -/
def Reaches : Machine → Machine → Prop :=
  Relation.ReflTransGen fun m m' => ∃ c, Step m c m'

end Machine

/-! ## The invariant -/

/-- The record of the holder names the CPU. -/
def Pc.recorded : Pc → Bool
  | .acquire _ .record | .release _ .xchg => false
  | p => p.owns

/-- `cpu_status` of the CPU is `CPU_HALTED`. -/
def Pc.marked : Pc → Bool
  | .release .schedHalt _ | .sti | .halted | .trap false _ | .dead false => true
  | _ => false

/-- The lock is still to be released on this stay in the kernel. -/
def Pc.due : Pc → Bool
  | .envPopTf | .sti | .user | .halted => false
  | _ => true

/-- Neither panic of the lock, nor a CPU that was halted in user mode. -/
def Pc.fine : Pc → Bool
  | .alreadyHolding | .cannotRelease | .acquire (.woken true _) _ => false
  | _ => true

/-- The CPU boots, and has not started the CPUs from this one on. -/
def Pc.bootsFrom : Pc → Option ℕ
  | .i386Init | .acquire .i386Init _ => some 0
  | .bootAps k waits => some (if waits then k + 1 else k)
  | _ => none

/-- The two points are on the same side of everything that the lock is about. -/
structure Alike (p q : Pc) : Prop where
  owns : q.owns = p.owns
  recorded : q.recorded = p.recorded
  marked : q.marked = p.marked
  due : q.due = p.due
  fine : p.fine = true → q.fine = true
  boots : ∀ j, q.bootsFrom = some j → ∃ i ≤ j, p.bootsFrom = some i

theorem Next.alike {p q : Pc} (h : Next p q) : Alike p q := by
  cases h with
  | i386Init => exact ⟨rfl, rfl, rfl, rfl, fun _ => rfl, fun j hj => ⟨j, Nat.le_refl j, hj⟩⟩
  | _ => exact ⟨rfl, rfl, rfl, rfl, fun _ => rfl, fun j hj => nomatch hj⟩

namespace Machine

variable {m m' : Machine} {b c : ℕ} {p : Pc}

/-- **The lock word, the record and `cpu_status` are what the program points say.** -/
structure Guarded (b : ℕ) (m : Machine) : Prop where
  locked : ∀ c, (m.pc c).owns = true → m.lock.locked = true
  one : ∀ c c', (m.pc c).owns = true → (m.pc c').owns = true → c = c'
  cpu : ∀ c, m.lock.cpu = some c ↔ (m.pc c).recorded = true
  status : ∀ c, m.cpuStatus c = .halted ↔ (m.pc c).marked = true
  fine : ∀ c, (m.pc c).fine = true
  count : ∀ c, m.entries c = m.releases c + if (m.pc c).due then 1 else 0
  boots : ∀ c j, (m.pc c).bootsFrom = some j → c = b ∧ ∀ k, j ≤ k → k ≠ c → m.pc k = .unused

/-- What a step of CPU `c` to `p` has to show. -/
theorem Guarded.move (h : Guarded b m) (hpc : m'.pc = Function.update m.pc c p)
    (hlive : m.pc c = .unused → ∀ k j, k ≠ c → (m.pc k).bootsFrom = some j → c < j)
    (hlock : ∀ k, k ≠ c → (m.pc k).owns = true → m'.lock.locked = true)
    (howns : p.owns = true → m'.lock.locked = true ∧ ∀ k, k ≠ c → (m.pc k).owns = false)
    (hcpu : m'.lock.cpu = some c ↔ p.recorded = true)
    (hcpu' : ∀ k, k ≠ c → (m'.lock.cpu = some k ↔ m.lock.cpu = some k))
    (hst : m'.cpuStatus c = .halted ↔ p.marked = true)
    (hst' : ∀ k, k ≠ c → m'.cpuStatus k = m.cpuStatus k) (hfine : p.fine = true)
    (hcount : m'.entries c = m'.releases c + if p.due then 1 else 0)
    (hcount' : ∀ k, k ≠ c → m'.entries k = m.entries k ∧ m'.releases k = m.releases k)
    (hboot : ∀ j, p.bootsFrom = some j → ∃ i ≤ j, (m.pc c).bootsFrom = some i) :
    Guarded b m' := by
  have hself : m'.pc c = p := by rw [hpc, Function.update_self]
  have hother : ∀ k, k ≠ c → m'.pc k = m.pc k := by
    intro k hk
    rw [hpc, Function.update_of_ne hk]
  refine ⟨fun k hk => ?_, fun k k' hk hk' => ?_, fun k => ?_, fun k => ?_, fun k => ?_, fun k => ?_,
    fun k j hj => ?_⟩
  · rcases eq_or_ne k c with rfl | hne
    · rw [hself] at hk
      exact (howns hk).1
    · rw [hother k hne] at hk
      exact hlock k hne hk
  · rcases eq_or_ne k c with rfl | hne
    · rw [hself] at hk
      by_contra hk0
      rw [hother k' (Ne.symm hk0), (howns hk).2 k' (Ne.symm hk0)] at hk'
      cases hk'
    · rw [hother k hne] at hk
      rcases eq_or_ne k' c with rfl | hne'
      · rw [hself] at hk'
        rw [(howns hk').2 k hne] at hk
        cases hk
      · rw [hother k' hne'] at hk'
        exact h.one k k' hk hk'
  · rcases eq_or_ne k c with rfl | hne
    · rw [hself]
      exact hcpu
    · rw [hother k hne, hcpu' k hne]
      exact h.cpu k
  · rcases eq_or_ne k c with rfl | hne
    · rw [hself]
      exact hst
    · rw [hother k hne, hst' k hne]
      exact h.status k
  · rcases eq_or_ne k c with rfl | hne
    · rw [hself]
      exact hfine
    · rw [hother k hne]
      exact h.fine k
  · rcases eq_or_ne k c with rfl | hne
    · rw [hself]
      exact hcount
    · rw [hother k hne, (hcount' k hne).1, (hcount' k hne).2]
      exact h.count k
  · rcases eq_or_ne k c with rfl | hne
    · rw [hself] at hj
      obtain ⟨i, hi, hbi⟩ := hboot j hj
      obtain ⟨hb, hun⟩ := h.boots k i hbi
      refine ⟨hb, fun k' hk' hne' => ?_⟩
      rw [hother k' hne']
      exact hun k' (by omega) hne'
    · rw [hother k hne] at hj
      obtain ⟨hb, hun⟩ := h.boots k j hj
      refine ⟨hb, fun k' hk' hne' => ?_⟩
      rcases eq_or_ne k' c with rfl | hne''
      · -- an AP that has not been started makes no step
        have hlt := hlive (hun k' hk' hne') k j hne hj
        omega
      · rw [hother k' hne'']
        exact hun k' hk' hne'

/-- A step that neither the lock nor `cpu_status` sees. -/
theorem Guarded.alike (h : Guarded b m) (ha : Alike (m.pc c) p)
    (hpc : m'.pc = Function.update m.pc c p)
    (hlive : m.pc c = .unused → ∀ k j, k ≠ c → (m.pc k).bootsFrom = some j → c < j)
    (hlock : m'.lock = m.lock)
    (hst : m'.cpuStatus = m.cpuStatus) (hent : m'.entries = m.entries)
    (hrel : m'.releases = m.releases) : Guarded b m' := by
  refine h.move hpc hlive (fun k _ hk => ?_) (fun hp => ?_) ?_ (fun k _ => ?_) ?_ (fun k _ => ?_)
    (ha.fine (h.fine c)) ?_ (fun k _ => ?_) ha.boots
  · rw [hlock]
    exact h.locked k hk
  · rw [ha.owns] at hp
    refine ⟨?_, fun k hk => ?_⟩
    · rw [hlock]
      exact h.locked c hp
    · by_contra hk0
      exact hk (h.one k c (by simpa using hk0) hp)
  · rw [hlock, ha.recorded]
    exact h.cpu c
  · rw [hlock]
  · rw [hst, ha.marked]
    exact h.status c
  · rw [hst]
  · rw [hent, hrel, ha.due]
    exact h.count c
  · rw [hent, hrel]
    exact ⟨rfl, rfl⟩

/-- A step of CPU `c` that only moves it. -/
theorem Guarded.goto (h : Guarded b m) (ha : Alike (m.pc c) p) (hlive : m.pc c ≠ .unused) :
    Guarded b (m.goto c p) :=
  h.alike ha rfl (fun h0 => absurd h0 hlive) rfl rfl rfl rfl

/-- No CPU owns the lock while it is free. -/
theorem Guarded.owns_eq_false (h : Guarded b m) (hl : m.lock.locked = false) (k : ℕ) :
    (m.pc k).owns = false := by
  by_contra hk
  rw [h.locked k (by simpa using hk)] at hl
  cases hl

/-- The other CPUs do not own the lock that CPU `c` owns. -/
theorem Guarded.other (h : Guarded b m) (hc : (m.pc c).owns = true) {k : ℕ} (hk : k ≠ c) :
    (m.pc k).owns = false := by
  by_contra hk0
  exact hk (h.one k c (by simpa using hk0) hc)

/-- The record does not name a CPU that has not recorded itself. -/
theorem Guarded.cpu_ne (h : Guarded b m) (hc : (m.pc c).recorded = false) :
    m.lock.cpu ≠ some c := by
  intro h0
  rw [(h.cpu c).mp h0] at hc
  cases hc

theorem Guarded.holding (h : Guarded b m) (ho : (m.pc c).owns = true)
    (hr : (m.pc c).recorded = true) : m.Holding c :=
  ⟨h.locked c ho, (h.cpu c).mpr hr⟩

theorem alike_stopped (h : p.canPanic = true) : Alike p (.stopped p.owns) := by
  cases p with
  | privilege u n =>
    cases u with
    | true => exact ⟨rfl, rfl, rfl, rfl, fun _ => rfl, fun j hj => nomatch hj⟩
    | false => cases h
  | unused | i386Init | acquire | mpMain | mpStarted | trap | release | envPopTf | sti | user
  | halted | stopped | dead | alreadyHolding | cannotRelease => cases h
  | _ => exact ⟨rfl, rfl, rfl, rfl, fun _ => rfl, fun j hj => nomatch hj⟩

/-- A step that changes `cpu_status` of the CPU. -/
theorem Guarded.setStatus {st : CpuStatus} {q : Pc} (h : Guarded b m) (hp : m.pc c = q)
    (hlive : q ≠ .unused) (howns : p.owns = q.owns) (hrec : p.recorded = q.recorded)
    (hmark : st = .halted ↔ p.marked = true) (hdue : p.due = q.due) (hfine : p.fine = true)
    (hboot : p.bootsFrom = none) : Guarded b ((m.setStatus c st).goto c p) := by
  subst hp
  refine h.move rfl (fun h0 => absurd h0 hlive) (fun k _ hk => h.locked k hk) (fun hp => ?_) ?_
    (fun k _ => Iff.rfl) ?_ (fun k hk => ?_) hfine ?_ (fun k _ => ⟨rfl, rfl⟩) fun j hj => ?_
  · rw [howns] at hp
    exact ⟨h.locked c hp, fun k hk => h.other hp hk⟩
  · rw [hrec]
    exact h.cpu c
  · show Function.update m.cpuStatus c st c = .halted ↔ _
    rw [Function.update_self]
    exact hmark
  · exact Function.update_of_ne hk ..
  · rw [hdue]
    exact h.count c
  · rw [hboot] at hj
    cases hj

/-- A trap brings the CPU into the kernel. -/
theorem Guarded.come {u : Bool} {n : Trapno} (h : Guarded b m)
    (hp : m.pc c = if u then .user else .halted) : Guarded b ((m.come c).goto c (.trap u n)) := by
  have hfacts : m.pc c ≠ .unused ∧ (m.pc c).recorded = false ∧ (m.pc c).due = false ∧
      (m.pc c).marked = !u := by
    rw [hp]
    cases u
    · exact ⟨nofun, rfl, rfl, rfl⟩
    · exact ⟨nofun, rfl, rfl, rfl⟩
  obtain ⟨hlive, hrec, hdue, hmark⟩ := hfacts
  have hcount := h.count c
  rw [hdue] at hcount
  refine h.move rfl (fun h0 => absurd h0 hlive) (fun k _ hk => h.locked k hk) nofun ?_
    (fun k _ => Iff.rfl) ?_ (fun k _ => rfl) rfl ?_ (fun k hk => ⟨?_, rfl⟩) nofun
  · exact ⟨fun h0 => absurd h0 (h.cpu_ne hrec), nofun⟩
  · refine (h.status c).trans ?_
    rw [hmark]
    cases u <;> exact Iff.rfl
  · show Function.update m.entries c (m.entries c + 1) c = m.releases c + 1
    rw [Function.update_self, hcount]
    rfl
  · exact Function.update_of_ne hk ..

theorem Guarded.take {k : Caller} (h : Guarded b m) (hp : m.pc c = .acquire k .spin)
    (hl : m.lock.locked = false) : Guarded b
      { m.goto c (.acquire k .record) with lock := { m.lock with locked := true } } := by
  have hfine : (Pc.acquire k .spin).fine = true := hp ▸ h.fine c
  have hrec : (m.pc c).recorded = false := by rw [hp]; rfl
  have hst := h.status c
  have hcount := h.count c
  rw [hp] at hst hcount
  refine h.move rfl (fun h0 => by rw [hp] at h0; exact nomatch h0) (fun _ _ _ => rfl)
    (fun _ => ⟨rfl, fun k _ => h.owns_eq_false hl k⟩) ?_ (fun _ _ => Iff.rfl) hst (fun _ _ => rfl) ?_
    hcount (fun _ _ => ⟨rfl, rfl⟩) fun j hj => ?_
  · exact ⟨fun h0 => absurd h0 (h.cpu_ne hrec), nofun⟩
  · cases k with
    | woken u n =>
      cases u
      · rfl
      · cases hfine
    | _ => rfl
  · rw [hp]
    refine ⟨j, Nat.le_refl j, ?_⟩
    cases k with
    | i386Init => exact hj
    | _ => cases hj

theorem Guarded.record {k : Caller} (h : Guarded b m) (hp : m.pc c = .acquire k .record) :
    Guarded b { m.goto c k.after with lock := { m.lock with cpu := some c } } := by
  have hfine : (Pc.acquire k .record).fine = true := hp ▸ h.fine c
  have howns : (m.pc c).owns = true := by rw [hp]; rfl
  have hst := h.status c
  have hcount := h.count c
  rw [hp] at hst hcount
  -- no other CPU had recorded itself
  have hnone : ∀ k, k ≠ c → m.lock.cpu ≠ some k := by
    intro k hk
    refine h.cpu_ne ?_
    have hk0 := h.other howns hk
    revert hk0
    cases m.pc k with
    | acquire k' p' => cases p' <;> exact fun _ => rfl
    | release k' p' => cases p' <;> exact fun h0 => nomatch h0
    | _ => exact fun h0 => h0
  have hafter : k.after.owns = true ∧ k.after.recorded = true ∧ k.after.marked = false ∧
      k.after.due = true ∧ k.after.fine = true ∧
      ∀ j, k.after.bootsFrom = some j → (Pc.acquire k .record).bootsFrom = some j := by
    cases k with
    | i386Init => exact ⟨rfl, rfl, rfl, rfl, rfl, fun j hj => hj⟩
    | mpMain => exact ⟨rfl, rfl, rfl, rfl, rfl, nofun⟩
    | woken u n =>
      cases u
      · exact ⟨rfl, rfl, rfl, rfl, rfl, nofun⟩
      · cases hfine
    | user n => exact ⟨rfl, rfl, rfl, rfl, rfl, nofun⟩
  obtain ⟨haowns, harec, hamark, hadue, hafine, haboot⟩ := hafter
  refine h.move rfl (fun h0 => by rw [hp] at h0; exact nomatch h0) (fun _ _ _ => h.locked c howns)
    (fun _ => ⟨h.locked c howns, fun k hk => h.other howns hk⟩) ?_ (fun k hk => ?_) ?_ (fun _ _ => rfl)
    hafine ?_ (fun _ _ => ⟨rfl, rfl⟩) fun j hj => ?_
  · exact iff_of_true rfl harec
  · exact ⟨fun h0 => absurd (Option.some.inj h0).symm hk, fun h0 => absurd h0 (hnone k hk)⟩
  · rw [hamark]
    exact hst
  · rw [hadue]
    exact hcount
  · rw [hp]
    exact ⟨j, Nat.le_refl j, haboot j hj⟩

theorem Guarded.clear {k : Exit} (h : Guarded b m) (hp : m.pc c = .release k .clear) :
    Guarded b { m.goto c (.release k .xchg) with lock := { m.lock with cpu := none } } := by
  have howns : (m.pc c).owns = true := by rw [hp]; rfl
  have hcpu : m.lock.cpu = some c := (h.cpu c).mpr (by rw [hp]; rfl)
  have hst := h.status c
  have hcount := h.count c
  rw [hp] at hst hcount
  refine h.move rfl (fun h0 => by rw [hp] at h0; exact nomatch h0) (fun _ _ _ => h.locked c howns)
    (fun _ => ⟨h.locked c howns, fun k hk => h.other howns hk⟩) ?_ (fun k hk => ?_) ?_ (fun _ _ => rfl)
    rfl hcount (fun _ _ => ⟨rfl, rfl⟩) nofun
  · exact ⟨nofun, nofun⟩
  · rw [hcpu]
    exact ⟨nofun, fun h0 => absurd (Option.some.inj h0).symm hk⟩
  · cases k <;> exact hst

theorem Guarded.xchg {k : Exit} (h : Guarded b m) (hp : m.pc c = .release k .xchg) :
    Guarded b ((m.unlocked c).goto c k.after) := by
  have howns : (m.pc c).owns = true := by rw [hp]; rfl
  have hrec : (m.pc c).recorded = false := by rw [hp]; rfl
  have hst := h.status c
  have hcount := h.count c
  rw [hp] at hst hcount
  have hafter : k.after.owns = false ∧ k.after.recorded = false ∧
      k.after.marked = (Pc.release k .xchg).marked ∧ k.after.due = false ∧ k.after.fine = true ∧
      k.after.bootsFrom = none := by
    cases k <;> exact ⟨rfl, rfl, rfl, rfl, rfl, rfl⟩
  obtain ⟨haowns, harec, hamark, hadue, hafine, haboot⟩ := hafter
  refine h.move rfl (fun h0 => by rw [hp] at h0; exact nomatch h0) (fun k hk hk0 => ?_)
    (fun h0 => ?_) ?_ (fun _ _ => Iff.rfl) ?_ (fun _ _ => rfl) hafine ?_ (fun k hk => ⟨rfl, ?_⟩)
    fun j hj => ?_
  · rw [h.other howns hk] at hk0
    cases hk0
  · rw [haowns] at h0
    cases h0
  · rw [harec]
    exact ⟨fun h0 => absurd h0 (h.cpu_ne hrec), nofun⟩
  · rw [hamark]
    exact hst
  · show m.entries c = Function.update m.releases c (m.releases c + 1) c + _
    rw [Function.update_self, hadue, hcount]
    rfl
  · exact Function.update_of_ne hk ..
  · rw [haboot] at hj
    cases hj

/-- `boot_aps` starts a CPU that has not been started. -/
theorem Guarded.startap {k : ℕ} (h : Guarded b m) (hp : m.pc c = .bootAps k false) (hne : k ≠ c) :
    Guarded b ((m.goto k .mpMain).goto c (.bootAps k true)) := by
  have hboots : (m.pc c).bootsFrom = some k := by rw [hp]; rfl
  obtain ⟨hb, hun⟩ := h.boots c k hboots
  have hk := hun k (Nat.le_refl k) hne
  have h₁ : Guarded b (m.goto c (.bootAps k true)) := by
    refine h.goto ?_ (by rw [hp]; nofun)
    rw [hp]
    refine ⟨rfl, rfl, rfl, rfl, fun _ => rfl, fun j hj => ⟨k, ?_, rfl⟩⟩
    have hj' : k + 1 = j := Option.some.inj hj
    omega
  have hcomm : (m.goto k .mpMain).goto c (.bootAps k true) =
      (m.goto c (.bootAps k true)).goto k .mpMain := by
    unfold Machine.goto
    simp only [Function.update_comm hne]
  have hk₁ : (m.goto c (.bootAps k true)).pc k = .unused := by
    rw [← hk]
    exact Function.update_of_ne hne ..
  rw [hcomm]
  refine h₁.alike ?_ rfl (fun _ i j hi hj => ?_) rfl rfl rfl rfl
  · rw [hk₁]
    exact ⟨rfl, rfl, rfl, rfl, fun _ => rfl, nofun⟩
  · obtain ⟨hib, -⟩ := h₁.boots i j hj
    have hic : i = c := hib.trans hb.symm
    have hpi : (m.goto c (.bootAps k true)).pc i = .bootAps k true := by
      rw [hic]
      exact Function.update_self ..
    rw [hpi] at hj
    have hj' : k + 1 = j := Option.some.inj hj
    omega

/-- **A step keeps the invariant.** -/
theorem Guarded.step (h : Guarded b m) (hs : Step m c m') : Guarded b m' := by
  cases hs with
  | next hn =>
    refine h.goto hn.alike ?_
    intro h0
    rw [h0] at hn
    cases hn
  | panic hp =>
    refine h.alike (alike_stopped hp) rfl (fun h0 => ?_) rfl rfl rfl rfl
    rw [h0] at hp
    cases hp
  | skip hp =>
    refine h.goto ?_ (by rw [hp]; nofun)
    rw [hp]
    refine ⟨rfl, rfl, rfl, rfl, fun _ => rfl, fun j hj => ⟨c, ?_, rfl⟩⟩
    have hj' : c + 1 = j := Option.some.inj hj
    omega
  | startap hp _ hne => exact h.startap hp hne
  | @isUp k hp _ =>
    refine h.goto ?_ (by rw [hp]; nofun)
    rw [hp]
    exact ⟨rfl, rfl, rfl, rfl, fun _ => rfl, fun j hj => ⟨j, Nat.le_refl j, hj⟩⟩
  | booted hp =>
    refine h.goto ?_ (by rw [hp]; nofun)
    rw [hp]
    exact ⟨rfl, rfl, rfl, rfl, fun _ => rfl, nofun⟩
  | up hp => exact h.setStatus hp nofun rfl rfl (iff_of_false nofun nofun) rfl rfl rfl
  | trapUser hp => exact h.come (u := true) hp
  | interrupt hp => exact h.come (u := false) hp
  | @dead u n hp _ =>
    refine h.goto ?_ (by rw [hp]; nofun)
    rw [hp]
    cases u <;> exact ⟨rfl, rfl, rfl, rfl, fun _ => rfl, nofun⟩
  | @wasHalted u n hp hst =>
    have hmark := (h.status c).mp hst
    rw [hp] at hmark
    cases u with
    | true => cases hmark
    | false => exact h.setStatus hp nofun rfl rfl (iff_of_false nofun nofun) rfl rfl rfl
  | @wasRunning u n hp hst =>
    cases u with
    | true => exact h.setStatus hp nofun rfl rfl (iff_of_false nofun nofun) rfl rfl rfl
    | false => exact absurd ((h.status c).mpr (by rw [hp]; rfl)) hst
  | halt hp => exact h.setStatus hp nofun rfl rfl (iff_of_true rfl rfl) rfl rfl rfl
  | again hp hh => exact absurd hh.2 (h.cpu_ne (by rw [hp]; rfl))
  | @spin k hp _ =>
    refine h.goto ?_ (by rw [hp]; nofun)
    rw [hp]
    cases k with
    | i386Init => exact ⟨rfl, rfl, rfl, rfl, fun _ => rfl, fun j hj => ⟨j, Nat.le_refl j, hj⟩⟩
    | woken u n => cases u <;> exact ⟨rfl, rfl, rfl, rfl, fun h0 => h0, nofun⟩
    | _ => exact ⟨rfl, rfl, rfl, rfl, fun _ => rfl, nofun⟩
  | pause _ _ => exact h
  | take hp hl => exact h.take hp hl
  | record hp => exact h.record hp
  | notHeld hp hh => exact absurd (h.holding (by rw [hp]; rfl) (by rw [hp]; rfl)) hh
  | @held k hp _ =>
    refine h.goto ?_ (by rw [hp]; nofun)
    rw [hp]
    cases k <;> exact ⟨rfl, rfl, rfl, rfl, fun _ => rfl, nofun⟩
  | clear hp => exact h.clear hp
  | xchg hp => exact h.xchg hp

theorem guarded_boot (ncpu b : ℕ) {st : CpuStatus} (hst : st ≠ .halted) :
    Guarded b (boot ncpu b st) := by
  have hpc : ∀ k, (boot ncpu b st).pc k = if k = b then .i386Init else .unused := by
    intro k
    rcases eq_or_ne k b with rfl | hne
    · simp [boot]
    · simp [boot, hne]
  have hstat : ∀ k, (boot ncpu b st).cpuStatus k ≠ .halted := by
    intro k
    rcases eq_or_ne k b with rfl | hne
    · simpa [boot] using hst
    · simp [boot, hne]
  refine ⟨fun k hk => ?_, fun k k' hk _ => ?_, fun k => ?_, fun k => ?_, fun k => ?_, fun k => ?_,
    fun k j hj => ⟨?_, fun k' _ hk' => ?_⟩⟩
  · rw [hpc] at hk
    split at hk <;> cases hk
  · rw [hpc] at hk
    split at hk <;> cases hk
  · refine iff_of_false nofun ?_
    rw [hpc]
    split <;> exact nofun
  · refine iff_of_false (hstat k) ?_
    rw [hpc]
    split <;> exact nofun
  · rw [hpc]
    split <;> rfl
  · rw [hpc]
    split <;> rfl
  · by_contra hne
    rw [hpc, if_neg hne] at hj
    cases hj
  · have hkb : k = b := by
      by_contra hne
      rw [hpc, if_neg hne] at hj
      cases hj
    rw [hpc, if_neg]
    rintro rfl
    exact hk' hkb.symm

theorem Reaches.guarded {m₀ : Machine} (h0 : Guarded b m₀) (h : Reaches m₀ m) : Guarded b m := by
  induction h with
  | refl => exact h0
  | tail _ hs ih =>
    obtain ⟨c, hs⟩ := hs
    exact ih.step hs

/-! ## The protocol -/

/-- The CPU executes `trap_dispatch`, what it calls, or the scheduler. -/
def serves : Pc → Bool
  | .trapDispatch .. | .handler _ | .pageFaultHandler | .envDestroy | .freeZombie | .trapTail
  | .schedYield | .schedHalt | .envRun => true
  | _ => false

/-- The CPU has left the kernel: it runs an environment, or waits for an interrupt. -/
def Out (p : Pc) : Prop := p = .user ∨ p = .halted

/-- **What the lock is for.** -/
structure Protocol (m : Machine) : Prop where
  /-- One CPU at most is between `lock_kernel` and `unlock_kernel`. -/
  exclusive : ∀ c c', (m.pc c).owns = true → (m.pc c').owns = true → c = c'
  serves : ∀ c, serves (m.pc c) = true → m.Holding c
  /-- Each stay in the kernel ends with one release. -/
  released : ∀ c, Out (m.pc c) → m.releases c = m.entries c
  alreadyHolding : ∀ c, m.pc c ≠ .alreadyHolding
  cannotRelease : ∀ c, m.pc c ≠ .cannotRelease

theorem serves_owns (h : serves p = true) : p.owns = true ∧ p.recorded = true := by
  cases p with
  | trapDispatch | handler | pageFaultHandler | envDestroy | freeZombie | trapTail | schedYield
  | schedHalt | envRun => exact ⟨rfl, rfl⟩
  | _ => cases h

theorem Guarded.protocol (h : Guarded b m) : Protocol m where
  exclusive := h.one
  serves := fun c hc => by
    obtain ⟨ho, hr⟩ := serves_owns hc
    exact h.holding ho hr
  released := fun c hc => by
    have hcount := h.count c
    rcases hc with hp | hp
    · rw [hp] at hcount
      exact hcount.symm
    · rw [hp] at hcount
      exact hcount.symm
  alreadyHolding := fun c hc => by
    have hfine := h.fine c
    rw [hc] at hfine
    cases hfine
  cannotRelease := fun c hc => by
    have hfine := h.fine c
    rw [hc] at hfine
    cases hfine

/-- **The big kernel lock protocol**, for any number of CPUs and any order of steps. -/
theorem lock_protocol {ncpu b : ℕ} {st : CpuStatus} (hst : st ≠ .halted)
    (h : Reaches (boot ncpu b st) m) : Protocol m :=
  (Reaches.guarded (guarded_boot ncpu b hst) h).protocol

/-- The theorem for two CPUs: the first boots, starts the second and then an environment, and the
second, which has waited for the lock, is in the scheduler. -/
theorem lock_protocol_booted : ∃ m, Reaches (boot 2 0 .started) m ∧ m.pc 0 = .user ∧
    m.releases 0 = 1 ∧ m.pc 1 = .schedYield ∧ m.Holding 1 ∧ Protocol m := by
  have h0 : Reaches (boot 2 0 .started) (boot 2 0 .started) := .refl
  have h1 := h0.tail ⟨0, .next (p := .acquire .i386Init .test) .i386Init⟩
  have h2 := h1.tail ⟨0, .spin (k := .i386Init) rfl fun h => nomatch h.1⟩
  have h3 := h2.tail ⟨0, .take (k := .i386Init) rfl rfl⟩
  have h4 := h3.tail ⟨0, .record (k := .i386Init) rfl⟩
  have h5 := h4.tail ⟨0, .skip rfl⟩
  have h6 := h5.tail ⟨0, .startap (k := 1) rfl (by decide) (by decide)⟩
  -- the second CPU comes up, and finds the lock taken
  have h7 := h6.tail ⟨1, .up rfl⟩
  have h8 := h7.tail ⟨1, .next (p := .acquire .mpMain .test) .mpStarted⟩
  have h9 := h8.tail ⟨1, .spin (k := .mpMain) rfl fun h => nomatch h.2⟩
  have h10 := h9.tail ⟨1, .pause (k := .mpMain) rfl rfl⟩
  have h11 := h10.tail ⟨0, .isUp (k := 1) rfl rfl⟩
  have h12 := h11.tail ⟨0, .booted rfl⟩
  have h13 := h12.tail ⟨0, .next (p := .schedYield) .envCreate⟩
  have h14 := h13.tail ⟨0, .next (p := .envRun) .found⟩
  have h15 := h14.tail ⟨0, .next (p := .release .envRun .test) .unlock⟩
  have h16 := h15.tail ⟨0, .held (k := .envRun) rfl ⟨rfl, rfl⟩⟩
  have h17 := h16.tail ⟨0, .clear (k := .envRun) rfl⟩
  have h18 := h17.tail ⟨0, .xchg (k := .envRun) rfl⟩
  have h19 := h18.tail ⟨0, .next (p := .user) .iret⟩
  -- and now it gets the lock
  have h20 := h19.tail ⟨1, .take (k := .mpMain) rfl rfl⟩
  have h21 := h20.tail ⟨1, .record (k := .mpMain) rfl⟩
  have hst : CpuStatus.started ≠ .halted := nofun
  exact ⟨_, h21, rfl, rfl, rfl, ⟨rfl, rfl⟩, lock_protocol hst h21⟩

end Machine

/-! ## The handlers -/

theorem returning_ne_left {s' : Kernel} (y : Except Panic (ℤ × Kernel)) :
    returning y ≠ .ok (.left, s') := by
  cases y with
  | error p => exact nofun
  | ok z => exact nofun

/-- **A handler of the model goes where its program point leads.** -/
theorem next_of_handle {s s' : Kernel} {x : Syscall} {fl : Flow} (h : s.handle x = .ok (fl, s')) :
    match fl with
    | .ret _ => Next (.handler x) .trapTail
    | .left => Next (.handler x) .schedYield ∨ Next (.handler x) .envDestroy := by
  cases fl with
  | ret r =>
    refine .ret ?_
    cases x with
    | yield =>
      obtain ⟨s₁, -, h⟩ := bind_eq_ok.mp h
      exact nomatch (Prod.mk.inj (Except.ok.inj h)).1
    | _ => rfl
  | left =>
    cases x with
    | cputs str len => exact Or.inr .cputs
    | envDestroy envid => exact Or.inr .destroy
    | yield => exact Or.inl .yield
    | ipcRecv dstva => exact Or.inl .ipcRecv
    | cgetc ch => exact nomatch (Prod.mk.inj (Except.ok.inj h)).1
    | _ => exact absurd h (returning_ne_left _)

end Smp
end PmakeOs
