import PmakeOs.Machine.Bytes
import Mathlib.Logic.Function.Basic

/-!
# User-mode instructions

The instructions of the x86 that hand-written user code of this kernel consists of, on the
general registers, `eip`, `eflags` and memory seen through the MMU with user rights.  An
instruction that faults does nothing: it has no result here.

A program is a list of instructions, laid out one after the other from a base address, each
with the size of its encoding; `fetch` finds the instruction at an address.  `run_eq_execAll`
replaces the fetching by the list: a straight piece of the program that control enters at its
first instruction runs from one end to the other.
-/

namespace PmakeOs

open Lib

namespace X86

/-! ## Memory with user rights -/

/-- The byte at `va`, if user mode may read it. -/
def loadByte (m : Phys) (d : ℕ) (va : Word) : Option (BitVec 8) :=
  match mmuWalk m d (pgnum va) with
  | none => none
  | some t => if t.user then some (physByte m t.ppn (va.toNat % pgsize)) else none

/-- The word at `va`, of any alignment. -/
def loadWord (m : Phys) (d : ℕ) (va : Word) : Option Word := do
  let b0 ← loadByte m d va
  let b1 ← loadByte m d (va + 1#32)
  let b2 ← loadByte m d (va + 2#32)
  let b3 ← loadByte m d (va + 3#32)
  return ofBytes fun i => if i = 0 then b0 else if i = 1 then b1 else if i = 2 then b2 else b3

/-- User mode may write the byte at `va`. -/
def storable (m : Phys) (d : ℕ) (va : Word) : Bool :=
  match mmuWalk m d (pgnum va) with
  | none => false
  | some t => t.user && t.write

/-- Store a word at `va`, of any alignment. -/
def storeWord (m : Phys) (d : ℕ) (va w : Word) : Option Phys :=
  if (List.range 4).all fun k => storable m d (va + BitVec.ofNat 32 k) then
    some (putBytes m d va 4 (byte w))
  else none

theorem storeWord_eq {m : Phys} {d : ℕ} {va : Word} (w : Word)
    (h : ∀ k < 4, storable m d (va + BitVec.ofNat 32 k) = true) :
    storeWord m d va w = some (putBytes m d va 4 (byte w)) := by
  refine if_pos (List.all_eq_true.mpr fun k hk => h k ?_)
  rwa [List.mem_range] at hk

theorem loadWord_eq {m : Phys} {d : ℕ} {va w : Word}
    (h : ∀ k < 4, loadByte m d (va + BitVec.ofNat 32 k) = some (byte w k)) :
    loadWord m d va = some w := by
  have h0 := h 0 (by decide)
  rw [BitVec.add_zero] at h0
  unfold loadWord
  rw [h0, show va + 1#32 = va + BitVec.ofNat 32 1 from rfl, h 1 (by decide),
    show va + 2#32 = va + BitVec.ofNat 32 2 from rfl, h 2 (by decide),
    show va + 3#32 = va + BitVec.ofNat 32 3 from rfl, h 3 (by decide)]
  refine congrArg some (ofBytes_eq fun i hi => ?_)
  split_ifs with h0 h1 h2
  · rw [h0]
  · rw [h1]
  · rw [h2]
  · rw [show i = 3 by omega]

/-! ## Registers -/

/-- The general registers. -/
inductive Reg where
  | edi
  | esi
  | ebp
  | esp
  | ebx
  | edx
  | ecx
  | eax
  deriving DecidableEq

structure Cpu where
  regs : Reg → Word
  eip : Word
  eflags : Word

/-- `CF`, `PF`, `AF`, `ZF`, `SF` and `OF`. -/
def statusFlags : Word := 0x8D5#32

/-- The flags that user code without I/O privilege changes with `popfl`: the status flags,
`TF`, `DF`, `NT`, `AC` and `ID`. -/
def userFlags : Word := 0x244DD5#32

/-- `RF`, which `popfl` clears. -/
def resumeFlag : Word := 0x10000#32

/-- The number of ones in the lowest byte is even. -/
def evenParity (w : Word) : Bool :=
  (List.range 8).countP (fun i => w.getLsbD i) % 2 = 0

/-- The status flags of an addition. -/
def addFlags (a b : Word) : Word :=
  (if (a + b).toNat < a.toNat then 0x1#32 else 0#32) |||
  (if evenParity (a + b) then 0x4#32 else 0#32) |||
  ((a ^^^ b ^^^ (a + b)) &&& 0x10#32) |||
  (if a + b = 0#32 then 0x40#32 else 0#32) |||
  (if (a + b).msb then 0x80#32 else 0#32) |||
  (if a.msb = b.msb ∧ (a + b).msb ≠ a.msb then 0x800#32 else 0#32)

/-! ## Instructions -/

inductive Instr where
  /-- `pushl %r` -/
  | pushl (r : Reg)
  /-- `movl a, %r`, from an absolute address -/
  | movAbs (a : Word) (r : Reg)
  /-- `call *%r` -/
  | callReg (r : Reg)
  /-- `addl $n, %r` -/
  | addl (n : Word) (r : Reg)
  /-- `movl o(%b), %r` -/
  | load (o : Word) (b r : Reg)
  /-- `movl %r, o(%b)` -/
  | store (r : Reg) (o : Word) (b : Reg)
  | popal
  | popfl
  /-- `popl %r` -/
  | popl (r : Reg)
  /-- `lea o(%b), %r` -/
  | lea (o : Word) (b r : Reg)
  | ret

/-- The bytes of the encoding, with a displacement of one byte and `%esp` as the base of a load. -/
def Instr.size : Instr → ℕ
  | .pushl _ | .popal | .popfl | .popl _ | .ret => 1
  | .callReg _ => 2
  | .addl .. | .store .. => 3
  | .load .. | .lea .. => 4
  | .movAbs .. => 5

/-- The processor and the memory of a user environment. -/
structure State where
  cpu : Cpu
  mem : Phys

def Cpu.set (c : Cpu) (r : Reg) (w : Word) : Cpu :=
  { c with regs := Function.update c.regs r w }

/-- The eight words that `popal` takes off the stack, without that of `%esp`. -/
def popal (m : Phys) (d : ℕ) (c : Cpu) : Option Cpu := do
  let at' := fun k => loadWord m d (c.regs .esp + BitVec.ofNat 32 (4 * k))
  let edi ← at' 0
  let esi ← at' 1
  let ebp ← at' 2
  let _ ← at' 3
  let ebx ← at' 4
  let edx ← at' 5
  let ecx ← at' 6
  let eax ← at' 7
  return { c with regs := fun
    | .edi => edi
    | .esi => esi
    | .ebp => ebp
    | .esp => c.regs .esp + 32#32
    | .ebx => ebx
    | .edx => edx
    | .ecx => ecx
    | .eax => eax }

/-- One instruction, in the address space of `d`. -/
def exec (d : ℕ) (i : Instr) (σ : State) : Option State :=
  let c := σ.cpu
  let next := { c with eip := c.eip + BitVec.ofNat 32 i.size }
  let esp := c.regs .esp
  match i with
  | .pushl r => do
    let m ← storeWord σ.mem d (esp - 4#32) (c.regs r)
    return ⟨next.set .esp (esp - 4#32), m⟩
  | .movAbs a r => do
    let w ← loadWord σ.mem d a
    return ⟨next.set r w, σ.mem⟩
  | .callReg r => do
    let m ← storeWord σ.mem d (esp - 4#32) next.eip
    return ⟨{ c.set .esp (esp - 4#32) with eip := c.regs r }, m⟩
  | .addl n r =>
    some ⟨{ next.set r (c.regs r + n) with
      eflags := c.eflags &&& ~~~ statusFlags ||| addFlags (c.regs r) n }, σ.mem⟩
  | .load o b r => do
    let w ← loadWord σ.mem d (c.regs b + o)
    return ⟨next.set r w, σ.mem⟩
  | .store r o b => do
    let m ← storeWord σ.mem d (c.regs b + o) (c.regs r)
    return ⟨next, m⟩
  | .popal => do
    let c' ← popal σ.mem d next
    return ⟨c', σ.mem⟩
  | .popfl => do
    let w ← loadWord σ.mem d esp
    return ⟨{ next.set .esp (esp + 4#32) with
      eflags := c.eflags &&& ~~~ (userFlags ||| resumeFlag) ||| w &&& userFlags }, σ.mem⟩
  | .popl r => do
    let w ← loadWord σ.mem d esp
    -- the stack pointer moves first: `popl %esp` leaves what it has read
    return ⟨(next.set .esp (esp + 4#32)).set r w, σ.mem⟩
  | .lea o b r => some ⟨next.set r (c.regs b + o), σ.mem⟩
  | .ret => do
    let w ← loadWord σ.mem d esp
    return ⟨{ c.set .esp (esp + 4#32) with eip := w }, σ.mem⟩

/-! ## Programs -/

/-- The instruction at address `eip` of a program that is laid out from `base` on. -/
def fetch (base : Word) : List Instr → Word → Option Instr
  | [], _ => none
  | i :: l, eip => if eip = base then some i else fetch (base + BitVec.ofNat 32 i.size) l eip

/-- `n` instructions of the program at `base`. -/
def run (base : Word) (l : List Instr) (d : ℕ) : ℕ → State → Option State
  | 0, σ => some σ
  | n + 1, σ => do
    let i ← fetch base l σ.cpu.eip
    let σ ← exec d i σ
    run base l d n σ

/-- The instructions of a list one after the other. -/
def execAll (d : ℕ) : List Instr → State → Option State
  | [], σ => some σ
  | i :: l, σ => do
    let σ ← exec d i σ
    execAll d l σ

/-- The size of a program. -/
def codeSize (l : List Instr) : ℕ := (l.map Instr.size).sum

/-- The instruction goes on with the next. -/
def Instr.straight : Instr → Bool
  | .callReg _ | .ret => false
  | _ => true

theorem Instr.size_pos (i : Instr) : 0 < i.size := by
  cases i <;> simp [Instr.size]

theorem fetch_append (base : Word) (l : List Instr) (i : Instr) (l' : List Instr)
    (hsize : codeSize l + i.size ≤ 2 ^ 32) :
    fetch base (l ++ i :: l') (base + BitVec.ofNat 32 (codeSize l)) = some i := by
  induction l generalizing base with
  | nil => simp [fetch, codeSize]
  | cons j l ih =>
    have hj := j.size_pos
    have hi := i.size_pos
    have hsum : codeSize (j :: l) = j.size + codeSize l := by simp [codeSize]
    rw [hsum] at hsize ⊢
    have hne : base + BitVec.ofNat 32 (j.size + codeSize l) ≠ base := by
      intro h0
      have hnat := congrArg BitVec.toNat h0
      have := base.isLt
      rw [BitVec.toNat_add, BitVec.toNat_ofNat] at hnat
      omega
    rw [List.cons_append, fetch, if_neg hne, BitVec.ofNat_add, ← BitVec.add_assoc]
    exact ih _ (by omega)

theorem eip_of_popal {m : Phys} {d : ℕ} {c c' : Cpu} (h : popal m d c = some c') :
    c'.eip = c.eip := by
  simp only [popal, Option.bind_eq_bind, Option.bind_eq_some_iff] at h
  obtain ⟨_, -, _, -, _, -, _, -, _, -, _, -, _, -, _, -, h⟩ := h
  rw [← Option.some.inj h]

/-- A straight instruction moves `eip` past itself. -/
theorem eip_of_exec {d : ℕ} {i : Instr} {σ σ' : State} (hi : i.straight = true)
    (h : exec d i σ = some σ') : σ'.cpu.eip = σ.cpu.eip + BitVec.ofNat 32 i.size := by
  cases i with
  | callReg r => cases hi
  | ret => cases hi
  | addl n r =>
    obtain rfl := Option.some.inj h
    rfl
  | lea o b r =>
    obtain rfl := Option.some.inj h
    rfl
  | popal =>
    obtain ⟨c', hc, h⟩ := Option.bind_eq_some_iff.mp h
    obtain rfl := Option.some.inj h
    exact eip_of_popal hc
  | pushl r | movAbs a r | load o b r | store r o b | popfl | popl r =>
    obtain ⟨x, -, h⟩ := Option.bind_eq_some_iff.mp h
    obtain rfl := Option.some.inj h
    rfl

/-- **A straight piece of a program runs from one end to the other.** -/
theorem run_eq_execAll (base : Word) (d : ℕ) (l l' : List Instr) :
    ∀ (k : List Instr) (σ : State), codeSize (k ++ l) ≤ 2 ^ 32 →
      (∀ i ∈ l.dropLast, i.straight = true) → σ.cpu.eip = base + BitVec.ofNat 32 (codeSize k) →
      run base (k ++ (l ++ l')) d l.length σ = execAll d l σ := by
  induction l with
  | nil => exact fun _ _ _ _ _ => rfl
  | cons i l ih =>
    intro k σ hsize hstr heip
    have hsum : codeSize (k ++ i :: l) = codeSize k + i.size + codeSize l := by
      simp [codeSize, Nat.add_assoc]
    have hfetch : fetch base (k ++ (i :: l ++ l')) σ.cpu.eip = some i := by
      rw [heip, List.cons_append]
      exact fetch_append base k i (l ++ l') (by omega)
    rw [List.length_cons, run, hfetch, execAll]
    show (exec d i σ).bind _ = (exec d i σ).bind _
    cases hexec : exec d i σ with
    | none => rfl
    | some σ' =>
      show run base (k ++ (i :: l ++ l')) d l.length σ' = execAll d l σ'
      cases l with
      | nil => rfl
      | cons j l =>
        have hk : k ++ (i :: j :: l ++ l') = (k ++ [i]) ++ (j :: l ++ l') := by simp
        have hki : codeSize (k ++ [i]) = codeSize k + i.size := by simp [codeSize]
        rw [hk]
        refine ih (k ++ [i]) σ' ?_ (fun i' hi' => hstr i' ?_) ?_
        · rw [List.append_assoc]
          exact hsize
        · rw [List.dropLast_cons_cons]
          exact List.mem_cons_of_mem _ hi'
        · rw [eip_of_exec (hstr i (by simp)) hexec, heip, hki, BitVec.ofNat_add, BitVec.add_assoc]

end X86
end PmakeOs
