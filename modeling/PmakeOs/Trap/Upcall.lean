import PmakeOs.Machine.X86
import PmakeOs.Trap.Nested

/-!
# The upcall of a page fault, there and back

`lib/pfentry.S`.  The kernel resumes an environment that has faulted at `_pgfault_upcall`,
with the registers of the fault except `eip` and `esp`, which points to the `UTrapframe`.
The code calls the C handler and then puts the registers of the fault back, by way of the
word below the trap-time stack, where it stores the trap-time `eip`.

The C handler is any code: `Returned` is what is asked of it.
-/

namespace PmakeOs

open Lib X86

namespace Kernel

variable {s s₂ : Kernel} {ρ : ℕ → Role} {c d : ℕ} {va faultVa upcall handler : Word} {m m' : Phys}

/-! ## The code -/

/-- `_pgfault_upcall` up to the call, with the address of the variable `_pgfault_handler`. -/
def enterHandler (handler : Word) : List Instr :=
  [.pushl .esp, .movAbs handler .eax, .callReg .eax]

/-- The rest of `_pgfault_upcall`. -/
def leaveHandler : List Instr :=
  [ -- pop the function argument
    .addl 4#32 .esp,
    -- skip `utf_fault_va` and `utf_err`
    .addl 8#32 .esp,
    .load 40#32 .esp .eax,
    .load 32#32 .esp .ecx,
    -- the trap-time `eip` goes below the trap-time stack
    .store .ecx (-4#32) .eax,
    .popal,
    -- skip `utf_eip`
    .addl 4#32 .esp,
    .popfl,
    .popl .esp,
    .lea (-4#32) .esp .esp,
    .ret ]

/-- `_pgfault_upcall` -/
def pgfaultUpcall (handler : Word) : List Instr := enterHandler handler ++ leaveHandler

/-- The registers that `env_pop_tf` loads, and that a trap has saved. -/
def userCpu (tf : Trapframe) : Cpu where
  regs
    | .edi => tf.tfRegs.regEdi
    | .esi => tf.tfRegs.regEsi
    | .ebp => tf.tfRegs.regEbp
    | .esp => tf.tfEsp
    | .ebx => tf.tfRegs.regEbx
    | .edx => tf.tfRegs.regEdx
    | .ecx => tf.tfRegs.regEcx
    | .eax => tf.tfRegs.regEax
  eip := tf.tfEip
  eflags := tf.tfEflags

/-! ## The two pieces, instruction by instruction -/

theorem execAll_enterHandler (σ : State) {m₁ m₂ : Phys} {h : Word}
    (h1 : storeWord σ.mem d (σ.cpu.regs .esp - 4#32) (σ.cpu.regs .esp) = some m₁)
    (h2 : loadWord m₁ d handler = some h)
    (h3 : storeWord m₁ d (σ.cpu.regs .esp - 8#32) (σ.cpu.eip + 8#32) = some m₂) :
    ∃ σ', execAll d (enterHandler handler) σ = some σ' ∧ σ'.mem = m₂ ∧ σ'.cpu.eip = h ∧
      σ'.cpu.regs .esp = σ.cpu.regs .esp - 8#32 := by
  have hesp : σ.cpu.regs .esp - 4#32 - 4#32 = σ.cpu.regs .esp - 8#32 := by bv_omega
  have heip : σ.cpu.eip + 1#32 + 5#32 + 2#32 = σ.cpu.eip + 8#32 := by bv_omega
  simp only [enterHandler, execAll, X86.exec, Option.bind_eq_bind, h1, Option.bind_some, h2, Cpu.set,
    Instr.size, Function.update_self, ne_eq, reduceCtorEq, not_false_eq_true,
    Function.update_of_ne, hesp, heip, h3, Option.pure_def, Option.some.injEq, exists_eq_left', and_self]

theorem userFlags_popfl (old w : Word) :
    (old &&& ~~~ (userFlags ||| resumeFlag) ||| w &&& userFlags) &&& userFlags =
      w &&& userFlags := by
  apply BitVec.eq_of_getLsbD_eq
  intro i hi
  simp only [BitVec.getLsbD_and, BitVec.getLsbD_or, BitVec.getLsbD_not]
  cases userFlags.getLsbD i <;> simp

/-- The registers that the words of a `struct PushRegs` stand for, with another `esp`. -/
def poppedRegs (r : ℕ → Word) (esp : Word) : Reg → Word
  | .edi => r 0
  | .esi => r 1
  | .ebp => r 2
  | .esp => esp
  | .ebx => r 4
  | .edx => r 5
  | .ecx => r 6
  | .eax => r 7

theorem poppedRegs_esp (r : ℕ → Word) (esp : Word) : poppedRegs r esp .esp = esp := rfl

theorem update_poppedRegs (r : ℕ → Word) (esp esp' : Word) :
    Function.update (poppedRegs r esp) .esp esp' = poppedRegs r esp' := by
  funext x
  cases x <;> rfl

theorem popal_eq {cpu : Cpu} {r : ℕ → Word}
    (h : ∀ i < 8, loadWord m d (cpu.regs .esp + BitVec.ofNat 32 (4 * i)) = some (r i)) :
    popal m d cpu = some { cpu with regs := poppedRegs r (cpu.regs .esp + 32#32) } := by
  unfold popal
  simp only [h 0 (by decide), h 1 (by decide), h 2 (by decide), h 3 (by decide), h 4 (by decide),
    h 5 (by decide), h 6 (by decide), h 7 (by decide), Option.bind_eq_bind, Option.bind_some]
  refine congrArg some ?_
  congr 1

theorem execAll_leaveHandler (σ : State) {utr esp esp' eip eip' fl : Word} {r : ℕ → Word}
    (hesp : σ.cpu.regs .esp = utr - 4#32)
    (h12 : loadWord σ.mem d (utr + 48#32) = some esp)
    (h10 : loadWord σ.mem d (utr + 40#32) = some eip)
    (hst : storeWord σ.mem d (esp - 4#32) eip = some m)
    (hr : ∀ i < 8, loadWord m d (utr + 8#32 + BitVec.ofNat 32 (4 * i)) = some (r i))
    (h11 : loadWord m d (utr + 44#32) = some fl)
    (h12' : loadWord m d (utr + 48#32) = some esp')
    (hret : loadWord m d (esp' - 4#32) = some eip') :
    ∃ σ', execAll d leaveHandler σ = some σ' ∧ σ'.mem = m ∧ σ'.cpu.eip = eip' ∧
      σ'.cpu.regs = poppedRegs r esp' ∧ σ'.cpu.eflags &&& userFlags = fl &&& userFlags := by
  have a1 : utr - 4#32 + 4#32 + 8#32 = utr + 8#32 := by bv_omega
  have a2 : utr + 8#32 + 40#32 = utr + 48#32 := by bv_omega
  have a3 : utr + 8#32 + 32#32 = utr + 40#32 := by bv_omega
  have a4 : esp + -4#32 = esp - 4#32 := by bv_omega
  have a5 : utr + 40#32 + 4#32 = utr + 44#32 := by bv_omega
  have a6 : utr + 44#32 + 4#32 = utr + 48#32 := by bv_omega
  have a7 : esp' + -4#32 = esp' - 4#32 := by bv_omega
  have a8 : esp' - 4#32 + 4#32 = esp' := by bv_omega
  simp only [leaveHandler, execAll, X86.exec, Option.bind_eq_bind, Option.bind_some, Cpu.set,
    Instr.size, Function.update_self, ne_eq, reduceCtorEq, not_false_eq_true,
    Function.update_of_ne, hesp, a1, a2, a3, a4, h12, h10, hst, Option.pure_def]
  rw [popal_eq (r := r) ?_]
  · simp only [Option.bind_some, Function.update_self, Function.update_idem, ne_eq, reduceCtorEq,
      not_false_eq_true, Function.update_of_ne, poppedRegs_esp, update_poppedRegs, a3, a5, a6, a7, a8, h11,
      h12', hret, Option.some.injEq, exists_eq_left', userFlags_popfl, and_self]
  · simpa only [Function.update_self, ne_eq, reduceCtorEq, not_false_eq_true,
      Function.update_of_ne] using hr

theorem codeSize_enterHandler (handler : Word) : codeSize (enterHandler handler) = 8 := rfl

theorem run_enterHandler {cpu : Cpu} (h : cpu.eip = upcall) :
    run upcall (pgfaultUpcall handler) d 3 ⟨cpu, m⟩ =
      execAll d (enterHandler handler) ⟨cpu, m⟩ := by
  refine run_eq_execAll upcall d (enterHandler handler) leaveHandler [] _ ?_ ?_ ?_
  · rw [List.nil_append, codeSize_enterHandler]
    decide
  · simp [enterHandler, Instr.straight]
  · rw [h]
    simp [codeSize]

theorem run_leaveHandler {cpu : Cpu} (h : cpu.eip = upcall + 8#32) :
    run upcall (pgfaultUpcall handler) d 11 ⟨cpu, m⟩ = execAll d leaveHandler ⟨cpu, m⟩ := by
  have hall := run_eq_execAll upcall d leaveHandler [] (enterHandler handler) ⟨cpu, m⟩ ?_ ?_ ?_
  · rwa [List.append_nil] at hall
  · have hsum : codeSize (enterHandler handler ++ leaveHandler) = 36 := rfl
    rw [hsum]
    decide
  · simp [leaveHandler, Instr.straight]
  · rw [h, codeSize_enterHandler]

/-! ## Loads and stores of the environment -/

theorem storable_of_userWritable (h : UserWritable m d va) : storable m d va = true := by
  obtain ⟨-, t, ht, hu, hw⟩ := h
  simp only [storable, ht, hu, hw, Bool.and_self]

/-- User mode may read the page of `va`. -/
def UserReadable (m : Phys) (d : ℕ) (va : Word) : Prop :=
  pgnum va < upn ∧ ∃ t, mmuWalk m d (pgnum va) = some t ∧ t.user = true

theorem UserWritable.readable (h : UserWritable m d va) : UserReadable m d va := by
  obtain ⟨hlow, t, ht, hu, -⟩ := h
  exact ⟨hlow, t, ht, hu⟩

theorem loadByte_of_readable (h : UserReadable m d va) : loadByte m d va = byteAt m d va := by
  obtain ⟨-, t, ht, hu⟩ := h
  rw [byteAt_of_place (place_of_walk ht)]
  simp only [loadByte, ht, hu, if_true]

theorem byteAt_of_readable (h : UserReadable m d va) : ∃ b, byteAt m d va = some b := by
  obtain ⟨-, t, ht, -⟩ := h
  exact ⟨_, byteAt_of_place (place_of_walk ht)⟩

theorem loadWord_of_byteAt {w : Word}
    (hr : ∀ k < 4, UserReadable m d (va + BitVec.ofNat 32 k))
    (hb : ∀ k < 4, byteAt m d (va + BitVec.ofNat 32 k) = some (byte w k)) :
    loadWord m d va = some w := by
  refine loadWord_eq fun k hk => ?_
  rw [loadByte_of_readable (hr k hk), hb k hk]

/-- A word that user mode may read has a value. -/
theorem exists_loadWord (hr : ∀ k < 4, UserReadable m d (va + BitVec.ofNat 32 k)) :
    ∃ w, loadWord m d va = some w := by
  have h : ∀ k < 4, ∃ b, loadByte m d (va + BitVec.ofNat 32 k) = some b := fun k hk => by
    rw [loadByte_of_readable (hr k hk)]
    exact byteAt_of_readable (hr k hk)
  obtain ⟨b0, h0⟩ := h 0 (by decide)
  obtain ⟨b1, h1⟩ := h 1 (by decide)
  obtain ⟨b2, h2⟩ := h 2 (by decide)
  obtain ⟨b3, h3⟩ := h 3 (by decide)
  rw [BitVec.add_zero] at h0
  unfold loadWord
  rw [h0, show va + 1#32 = va + BitVec.ofNat 32 1 from rfl, h1,
    show va + 2#32 = va + BitVec.ofNat 32 2 from rfl, h2,
    show va + 3#32 = va + BitVec.ofNat 32 3 from rfl, h3]
  exact ⟨_, rfl⟩

theorem Spaces.readable_putBytes (hs : Spaces s ρ) (hd : dirsOf s c = some d) {n : ℕ}
    {b : ℕ → BitVec 8} (hw : ∀ k < n, UserWritable s.phys d (va + BitVec.ofNat 32 k)) {a : Word}
    (h : UserReadable s.phys d a) : UserReadable (putBytes s.phys d va n b) d a := by
  obtain ⟨hlow, t, ht, hu⟩ := h
  exact ⟨hlow, t, by rw [hs.walk_putBytes hd hw hlow, ht], hu⟩

theorem storeWord_of_writable {w : Word}
    (hw : ∀ k < 4, UserWritable m d (va + BitVec.ofNat 32 k)) :
    storeWord m d va w = some (putBytes m d va 4 (byte w)) :=
  X86.storeWord_eq w fun k hk => storable_of_userWritable (hw k hk)

/-! ## Memory that differs in one range -/

section Over

variable {a : Word} {n j l : ℕ} {b : ℕ → BitVec 8}

/-- Memory `m` is that of `s` except for the `n` bytes from `a` on. -/
structure Over (s : Kernel) (ρ : ℕ → Role) (d : ℕ) (a : Word) (n : ℕ) (m : Phys) : Prop where
  spaces : Spaces { s with phys := m } ρ
  walk : ∀ vpn < upn, mmuWalk m d vpn = mmuWalk s.phys d vpn
  writes : ∀ f o, physByte m f o ≠ physByte s.phys f o →
    ∃ k < n, place s.phys d (a + BitVec.ofNat 32 k) = some (f, o)

theorem Over.refl (hs : Spaces s ρ) : Over s ρ d a n s.phys :=
  ⟨hs, fun _ _ => rfl, fun _ _ h => absurd rfl h⟩

theorem Over.place_eq (h : Over s ρ d a n m) (hv : pgnum va < upn) :
    place m d va = place s.phys d va := by
  unfold place
  rw [h.walk _ hv]

theorem Over.readable (h : Over s ρ d a n m) (hr : UserReadable s.phys d va) :
    UserReadable m d va := by
  obtain ⟨hlow, t, ht, hu⟩ := hr
  exact ⟨hlow, t, (h.walk _ hlow).trans ht, hu⟩

theorem Over.writable (h : Over s ρ d a n m) (hw : UserWritable s.phys d va) :
    UserWritable m d va := by
  obtain ⟨hlow, t, ht, hr⟩ := hw
  exact ⟨hlow, t, (h.walk _ hlow).trans ht, hr⟩

/-- A store of `l` bytes into the range. -/
theorem Over.put (h : Over s ρ d a n m) (hd : dirsOf s c = some d) (hjl : j + l ≤ n)
    (hw : ∀ k < n, UserWritable s.phys d (a + BitVec.ofNat 32 k)) (b : ℕ → BitVec 8) :
    Over s ρ d a n (putBytes m d (a + BitVec.ofNat 32 j) l b) := by
  have hadd : ∀ k, a + BitVec.ofNat 32 j + BitVec.ofNat 32 k = a + BitVec.ofNat 32 (j + k) :=
    fun k => by rw [BitVec.ofNat_add, BitVec.add_assoc]
  have hw' : ∀ k < l, UserWritable m d (a + BitVec.ofNat 32 j + BitVec.ofNat 32 k) := by
    intro k hk
    rw [hadd]
    exact h.writable (hw _ (by omega))
  constructor
  · exact h.spaces.withPhys fun f hf => h.spaces.putBytes_frame hd hw' b hf
  · intro vpn hv
    exact (h.spaces.walk_putBytes hd hw' hv).trans (h.walk vpn hv)
  · intro f o hne
    by_cases hm : physByte m f o = physByte s.phys f o
    · rw [← hm] at hne
      obtain ⟨k, hk, hp⟩ := place_of_putBytes_ne hne
      refine ⟨j + k, by omega, ?_⟩
      rw [hadd] at hp
      rw [← hp, h.place_eq (hw _ (by omega)).1]
    · exact h.writes f o hm

/-- The bytes of the range after a store. -/
theorem Over.byteAt_put (h : Over s ρ d a n m) (hd : dirsOf s c = some d) (hjl : j + l ≤ n)
    (hn : n ≤ pgsize) (hw : ∀ k < n, UserWritable s.phys d (a + BitVec.ofNat 32 k))
    (b : ℕ → BitVec 8) {k : ℕ} (hk : k < n) :
    byteAt (putBytes m d (a + BitVec.ofNat 32 j) l b) d (a + BitVec.ofNat 32 k) =
      if j ≤ k ∧ k < j + l then some (b (k - j)) else byteAt m d (a + BitVec.ofNat 32 k) := by
  have hadd : ∀ k, a + BitVec.ofNat 32 j + BitVec.ofNat 32 k = a + BitVec.ofNat 32 (j + k) :=
    fun k => by rw [BitVec.ofNat_add, BitVec.add_assoc]
  have hw' : ∀ k < l, UserWritable m d (a + BitVec.ofNat 32 j + BitVec.ofNat 32 k) := by
    intro k hk
    rw [hadd]
    exact h.writable (hw _ (by omega))
  split_ifs with hin
  · have hb := h.spaces.byteAt_putBytes (b := b) hd hw' (by omega) (k := k - j) (by omega)
    rwa [hadd, Nat.add_sub_cancel' hin.1] at hb
  · refine h.spaces.byteAt_putBytes_of_ne hd hw' (hw k hk).1 fun i hi hp => ?_
    -- the two bytes have different offsets
    obtain ⟨-, t, ht, -⟩ := h.writable (hw k hk)
    have hplace := place_of_walk ht
    have hoff := offset_of_place (hp.trans hplace)
    rw [hadd] at hoff
    have := offset_injOn a (by omega) (by omega) hoff
    omega

end Over

/-! ## There -/

/-- The C handler has been called on the frame at `utr`. -/
structure Called (s : Kernel) (ρ : ℕ → Role) (d : ℕ) (utr : Word) (ws : List Word) (upcall : Word)
    (σ : State) : Prop where
  esp : σ.cpu.regs .esp = utr - 8#32
  /-- What has been written is below the stack top that was chosen. -/
  memory : Over s ρ d (utr - 8#32) 64 σ.mem
  ret : loadWord σ.mem d (utr - 8#32) = some (upcall + 8#32)
  arg : loadWord σ.mem d (utr - 4#32) = some utr
  frame : Holds σ.mem d (utr, ws)

/-- **The C handler is called on the frame of the fault.** -/
theorem called_of_fault (hs : Spaces s ρ) (hf : Faulting s c d)
    (hup : (s.envs c).envPgfaultUpcall = upcall)
    (hstack : ∀ k < 64, UserWritable s.phys d
      (utrapframeAddr (s.envs c).envTf.tfEsp - 8#32 + BitVec.ofNat 32 k))
    (hvar : ∀ k < 4, UserReadable s.phys d (handler + BitVec.ofNat 32 k)) (faultVa : Word) :
    ∃ s₁ σ, s.pageFaultHandler faultVa = .ok (.left, s₁) ∧
      run upcall (pgfaultUpcall handler) d 3 ⟨userCpu (s₁.envs c).envTf, s₁.phys⟩ = some σ ∧
      Called s ρ d (utrapframeAddr (s.envs c).envTf.tfEsp) (utrapframe faultVa (s.envs c).envTf)
        upcall σ := by
  have hutr : ∀ utr : Word, utr = utr - 8#32 + BitVec.ofNat 32 8 ∧
      utr - 4#32 = utr - 8#32 + BitVec.ofNat 32 4 ∧ utr - 8#32 = utr - 8#32 + BitVec.ofNat 32 0 :=
    fun utr => ⟨by bv_omega, by bv_omega, by bv_omega⟩
  obtain ⟨h8, h4, h0⟩ := hutr (utrapframeAddr (s.envs c).envTf.tfEsp)
  have hadd : ∀ (a : Word) (i k : ℕ), a + BitVec.ofNat 32 i + BitVec.ofNat 32 k =
      a + BitVec.ofNat 32 (i + k) := fun a i k => by rw [BitVec.ofNat_add, BitVec.add_assoc]
  have hadm : Admitted s c := admitted_of_writable hs hf fun k hk => by
    rw [h8, hadd]
    exact hstack _ (by omega)
  obtain ⟨s₁, hrun, hbr⟩ := hadm.branched hs hf faultVa
  have htf := hbr.envTf
  have hphys := hbr.phys
  generalize utrapframeAddr (s.envs c).envTf.tfEsp = utr at *
  -- the store of the kernel, `pushl %esp` and `call *%eax`
  have over₀ := (Over.refl (a := utr - 8#32) (n := 64) (d := d) hs).put (j := 8) (l := 52) hf.dir
    (by decide) hstack (bytesOf (utrapframe faultVa (s.envs c).envTf))
  have bytes₀ := fun k (hk : k < 64) => (Over.refl (a := utr - 8#32) (n := 64) (d := d) hs).byteAt_put
    (j := 8) (l := 52) hf.dir (by decide) (by decide) hstack
    (bytesOf (utrapframe faultVa (s.envs c).envTf)) hk
  rw [← h8, ← hphys] at over₀ bytes₀
  have over₁ := over₀.put (j := 4) (l := 4) hf.dir (by decide) hstack (byte utr)
  have bytes₁ := fun k (hk : k < 64) => over₀.byteAt_put (j := 4) (l := 4) hf.dir (by decide)
    (by decide) hstack (byte utr) hk
  have hst₁ : storeWord s₁.phys d (utr - 4#32) utr =
      some (putBytes s₁.phys d (utr - 4#32) 4 (byte utr)) := storeWord_of_writable fun k hk => by
    rw [h4, hadd]
    exact over₀.writable (hstack _ (by omega))
  rw [← h4] at over₁ bytes₁
  generalize putBytes s₁.phys d (utr - 4#32) 4 (byte utr) = m₁ at *
  have over₂ := over₁.put (j := 0) (l := 4) hf.dir (by decide) hstack (byte (upcall + 8#32))
  have bytes₂ := fun k (hk : k < 64) => over₁.byteAt_put (j := 0) (l := 4) hf.dir (by decide)
    (by decide) hstack (byte (upcall + 8#32)) hk
  have hst₂ : storeWord m₁ d (utr - 8#32) (upcall + 8#32) =
      some (putBytes m₁ d (utr - 8#32) 4 (byte (upcall + 8#32))) :=
    storeWord_of_writable fun k hk => over₁.writable (hstack _ (by omega))
  rw [← h0] at over₂ bytes₂
  generalize putBytes m₁ d (utr - 8#32) 4 (byte (upcall + 8#32)) = m₂ at *
  obtain ⟨h, hload⟩ := exists_loadWord fun k hk => over₁.readable (hvar k hk)
  have hesp : (userCpu (s₁.envs c).envTf).regs .esp = utr := by
    rw [htf]
    rfl
  have heip : (userCpu (s₁.envs c).envTf).eip = upcall := by
    rw [htf, ← hup]
    rfl
  obtain ⟨σ, hexec, hmem, -, hregs⟩ := execAll_enterHandler
    ⟨userCpu (s₁.envs c).envTf, s₁.phys⟩
    (by rw [hesp]; exact hst₁) hload (by rw [hesp, heip]; exact hst₂)
  refine ⟨s₁, σ, hrun, (run_enterHandler heip).trans hexec, hregs.trans (by rw [hesp]), ?_, ?_, ?_, ?_⟩
  · rw [hmem]
    exact over₂
  · rw [hmem]
    refine loadWord_of_byteAt (fun k hk => (over₂.writable (hstack k (by omega))).readable)
      fun k hk => ?_
    rw [bytes₂ k (by omega), if_pos ⟨Nat.zero_le k, by omega⟩, Nat.sub_zero]
  · rw [hmem, h4]
    refine loadWord_of_byteAt (fun k hk => ?_) fun k hk => ?_
    · rw [hadd]
      exact (over₂.writable (hstack _ (by omega))).readable
    · rw [hadd, bytes₂ _ (by omega), if_neg (by omega), bytes₁ _ (by omega), if_pos (by omega),
        Nat.add_sub_cancel_left]
  · intro k hk
    have hk' : k < 52 := hk
    dsimp only
    rw [hmem]
    nth_rewrite 1 [h8]
    rw [hadd, bytes₂ _ (by omega), if_neg (by omega), bytes₁ _ (by omega), if_neg (by omega),
      bytes₀ _ (by omega), if_pos (by omega), Nat.add_sub_cancel_left]

/-! ## And back -/

/-- The C handler has returned, in a state `s₂` of the kernel.  It has not changed the frame at
`utr` on which it was called, and the environment may write the word below `tesp`. -/
structure Returned (c d : ℕ) (utr tesp : Word) (σ : State) (s₂ : Kernel) (σ₂ : State) : Prop where
  spaces : ∃ ρ, Spaces s₂ ρ
  dir : dirsOf s₂ c = some d
  mem : σ₂.mem = s₂.phys
  eip : loadWord σ.mem d (σ.cpu.regs .esp) = some σ₂.cpu.eip
  esp : σ₂.cpu.regs .esp = σ.cpu.regs .esp + 4#32
  frame : ∀ k < 52, byteAt σ₂.mem d (utr + BitVec.ofNat 32 k) =
    byteAt σ.mem d (utr + BitVec.ofNat 32 k)
  stack : ∀ k < 52, UserWritable σ₂.mem d (utr + BitVec.ofNat 32 k)
  word : ∀ j < 4, UserWritable σ₂.mem d (tesp - 4#32 + BitVec.ofNat 32 j)

/-- No byte of the word below `tesp` is a byte of the frame under another address. -/
def Unaliased (m : Phys) (d : ℕ) (utr tesp : Word) : Prop :=
  ∀ j < 4, ∀ k < 52, place m d (tesp - 4#32 + BitVec.ofNat 32 j) =
    place m d (utr + BitVec.ofNat 32 k) → tesp - 4#32 + BitVec.ofNat 32 j = utr + BitVec.ofNat 32 k

/-- The words of a frame that is in memory. -/
theorem loadWord_of_holds {utr : Word} {ws : List Word} (h : Holds m d (utr, ws))
    (hr : ∀ k < 4 * ws.length, UserReadable m d (utr + BitVec.ofNat 32 k)) {i : ℕ}
    (hi : i < ws.length) : loadWord m d (utr + BitVec.ofNat 32 (4 * i)) = some (ws.getD i 0#32) := by
  have hadd : ∀ j, utr + BitVec.ofNat 32 (4 * i) + BitVec.ofNat 32 j =
      utr + BitVec.ofNat 32 (4 * i + j) := fun j => by rw [BitVec.ofNat_add, BitVec.add_assoc]
  refine loadWord_of_byteAt (fun j hj => ?_) fun j hj => ?_
  · rw [hadd]
    exact hr _ (by omega)
  · rw [hadd]
    refine (h (4 * i + j) (by dsimp only; omega)).trans ?_
    rw [bytesOf, show (4 * i + j) / 4 = i by omega, show (4 * i + j) % 4 = j by omega]

/-- The word below the trap-time stack pointer is below it, and not in the frame. -/
theorem word_ne_frame {esp : Word} (hlow : pgnum (esp - 4#32) < upn) {j : ℕ} (hj : j < 4) :
    (esp - 4#32 + BitVec.ofNat 32 j).toNat < esp.toNat ∧
    ∀ k < 52, esp - 4#32 + BitVec.ofNat 32 j ≠ utrapframeAddr esp + BitVec.ofNat 32 k := by
  have hge : 4 ≤ esp.toNat := by
    have hlt := esp.isLt
    rw [pgnum_eq, upn_eq, BitVec.toNat_sub, BitVec.toNat_ofNat] at hlow
    omega
  have hword : (esp - 4#32 + BitVec.ofNat 32 j).toNat = esp.toNat - 4 + j := by
    have hlt := esp.isLt
    rw [BitVec.toNat_add, BitVec.toNat_sub, BitVec.toNat_ofNat, BitVec.toNat_ofNat]
    omega
  refine ⟨by omega, fun k hk h0 => ?_⟩
  have hnat := congrArg BitVec.toNat h0
  rw [hword] at hnat
  by_cases hin : uxstackbase < esp ∧ esp < uxstacktop
  · -- the frame ends a word below the stack pointer
    have haddr : utrapframeAddr esp = esp - 56#32 := congrArg (· - 56#32) (if_pos hin)
    have hlo := hin.1
    rw [BitVec.lt_def, toNat_uxstackbase] at hlo
    rw [haddr, toNat_frame_add (by rw [toNat_uxstacktop, pgsize]; omega) (by omega)] at hnat
    omega
  · -- the frame is at the top of the exception stack, and the stack pointer is not on it
    have haddr : utrapframeAddr esp = uxstacktop - 56#32 := congrArg (· - 56#32) (if_neg hin)
    rw [BitVec.lt_def, BitVec.lt_def, toNat_uxstackbase, toNat_uxstacktop] at hin
    rw [haddr, toNat_frame_add (by rw [toNat_uxstacktop, pgsize]; omega) (by omega),
      toNat_uxstacktop] at hnat
    omega

/-- The trap-time state, from the frame. -/
theorem poppedRegs_utrapframe (faultVa : Word) (tf : Trapframe) :
    poppedRegs (fun i => (utrapframe faultVa tf).getD (2 + i) 0#32) tf.tfEsp = (userCpu tf).regs := by
  funext r
  cases r <;> rfl

/-- **From the return of the C handler to the state of the fault.** -/
theorem back_of_returned {σ σ₂ : State} {tf : Trapframe}
    (hc : Called s ρ d (utrapframeAddr tf.tfEsp) (utrapframe faultVa tf) upcall σ)
    (h : Returned c d (utrapframeAddr tf.tfEsp) tf.tfEsp σ s₂ σ₂)
    (hapart : Unaliased σ₂.mem d (utrapframeAddr tf.tfEsp) tf.tfEsp) :
    ∃ σ₃, run upcall (pgfaultUpcall handler) d 11 σ₂ = some σ₃ ∧
      σ₃.cpu.regs = (userCpu tf).regs ∧ σ₃.cpu.eip = (userCpu tf).eip ∧
      σ₃.cpu.eflags &&& userFlags = (userCpu tf).eflags &&& userFlags ∧
      loadWord σ₃.mem d (tf.tfEsp - 4#32) = some tf.tfEip ∧
      ∀ f o, physByte σ₃.mem f o ≠ physByte σ₂.mem f o →
        ∃ j < 4, place σ₂.mem d (tf.tfEsp - 4#32 + BitVec.ofNat 32 j) = some (f, o) := by
  obtain ⟨cpu, m₂⟩ := σ₂
  obtain ⟨⟨ρ₂, hs₂⟩, hd₂, hmem, heip, hesp, hframe, hstack, hword⟩ := h
  dsimp only at hmem heip hesp hframe hstack hword hapart ⊢
  subst hmem
  have hne : ∀ j < 4, ∀ k < 52, place s₂.phys d (tf.tfEsp - 4#32 + BitVec.ofNat 32 j) ≠
      place s₂.phys d (utrapframeAddr tf.tfEsp + BitVec.ofNat 32 k) := by
    intro j hj k hk h0
    have hlow := (hword 0 (by decide)).1
    rw [BitVec.add_zero] at hlow
    exact (word_ne_frame hlow hj).2 k hk (hapart j hj k hk h0)
  generalize utrapframeAddr tf.tfEsp = utr at *
  -- the frame, before and after the store of the trap-time `eip`
  have hhold : Holds s₂.phys d (utr, utrapframe faultVa tf) := fun k hk =>
    (hframe k hk).trans (hc.frame k hk)
  have hread : ∀ k < 4 * (utrapframe faultVa tf).length,
      UserReadable s₂.phys d (utr + BitVec.ofNat 32 k) := fun k hk => (hstack k hk).readable
  have hst := storeWord_of_writable (w := tf.tfEip) hword
  have hhold' : Holds (putBytes s₂.phys d (tf.tfEsp - 4#32) 4 (byte tf.tfEip)) d
      (utr, utrapframe faultVa tf) := by
    intro k hk
    refine (hs₂.byteAt_putBytes_of_ne hd₂ hword (hread k hk).1 fun j hj => ?_).trans (hhold k hk)
    exact hne j hj k hk
  have hread' := fun k hk => hs₂.readable_putBytes (b := byte tf.tfEip) hd₂ hword (hread k hk)
  have hret : loadWord (putBytes s₂.phys d (tf.tfEsp - 4#32) 4 (byte tf.tfEip)) d
      (tf.tfEsp - 4#32) = some tf.tfEip := by
    refine loadWord_of_byteAt (fun k hk => ?_) fun k hk => ?_
    · exact hs₂.readable_putBytes hd₂ hword (hword k hk).readable
    · exact hs₂.byteAt_putBytes hd₂ hword (by decide) hk
  have hwrites : ∀ f o, physByte (putBytes s₂.phys d (tf.tfEsp - 4#32) 4 (byte tf.tfEip)) f o ≠
      physByte s₂.phys f o →
      ∃ j < 4, place s₂.phys d (tf.tfEsp - 4#32 + BitVec.ofNat 32 j) = some (f, o) :=
    fun f o hfo => place_of_putBytes_ne hfo
  generalize putBytes s₂.phys d (tf.tfEsp - 4#32) 4 (byte tf.tfEip) = m at *
  have hentry : cpu.eip = upcall + 8#32 := by
    rw [hc.esp, hc.ret] at heip
    exact (Option.some.inj heip).symm
  have hsp : cpu.regs .esp = utr - 4#32 := by
    rw [hesp, hc.esp]
    bv_omega
  have hpop : ∀ i < 8, loadWord m d (utr + 8#32 + BitVec.ofNat 32 (4 * i)) =
      some ((utrapframe faultVa tf).getD (2 + i) 0#32) := by
    intro i hi
    have hload := loadWord_of_holds hhold' hread' (i := 2 + i) (by rw [length_utrapframe]; omega)
    rw [← hload, BitVec.add_assoc, show 8#32 = BitVec.ofNat 32 8 from rfl, ← BitVec.ofNat_add,
      Nat.mul_add]
  obtain ⟨σ₃, hexec, hmem₃, heip₃, hregs, hflags⟩ := execAll_leaveHandler
    ⟨cpu, s₂.phys⟩
    (r := fun i => (utrapframe faultVa tf).getD (2 + i) 0#32) hsp
    (loadWord_of_holds hhold hread (i := 12) (by rw [length_utrapframe]; decide))
    (loadWord_of_holds hhold hread (i := 10) (by rw [length_utrapframe]; decide)) hst hpop
    (loadWord_of_holds hhold' hread' (i := 11) (by rw [length_utrapframe]; decide))
    (loadWord_of_holds hhold' hread' (i := 12) (by rw [length_utrapframe]; decide)) hret
  refine ⟨σ₃, (run_leaveHandler hentry).trans hexec,
    hregs.trans (poppedRegs_utrapframe faultVa tf), heip₃, hflags, ?_, ?_⟩
  · rw [hmem₃]
    exact hret
  · rw [hmem₃]
    exact hwrites

/-- **The round trip of a page fault.** -/
theorem upcall_roundTrip (hs : Spaces s ρ) (hf : Faulting s c d)
    (hup : (s.envs c).envPgfaultUpcall = upcall)
    (hstack : ∀ k < 64, UserWritable s.phys d
      (utrapframeAddr (s.envs c).envTf.tfEsp - 8#32 + BitVec.ofNat 32 k))
    (hvar : ∀ k < 4, UserReadable s.phys d (handler + BitVec.ofNat 32 k)) (faultVa : Word) :
    ∃ s₁ σ, s.pageFaultHandler faultVa = .ok (.left, s₁) ∧
      run upcall (pgfaultUpcall handler) d 3 ⟨userCpu (s₁.envs c).envTf, s₁.phys⟩ = some σ ∧
      (∀ f o, physByte σ.mem f o ≠ physByte s.phys f o → ∃ k < 64, place s.phys d
        (utrapframeAddr (s.envs c).envTf.tfEsp - 8#32 + BitVec.ofNat 32 k) = some (f, o)) ∧
      ∀ s₂ σ₂, Returned c d (utrapframeAddr (s.envs c).envTf.tfEsp) (s.envs c).envTf.tfEsp σ s₂ σ₂ →
        Unaliased σ₂.mem d (utrapframeAddr (s.envs c).envTf.tfEsp) (s.envs c).envTf.tfEsp →
        ∃ σ₃, run upcall (pgfaultUpcall handler) d 11 σ₂ = some σ₃ ∧
          σ₃.cpu.regs = (userCpu (s.envs c).envTf).regs ∧
          σ₃.cpu.eip = (userCpu (s.envs c).envTf).eip ∧
          σ₃.cpu.eflags &&& userFlags = (userCpu (s.envs c).envTf).eflags &&& userFlags ∧
          (∀ f o, physByte σ₃.mem f o ≠ physByte σ₂.mem f o → ∃ j < 4, place σ₂.mem d
            ((s.envs c).envTf.tfEsp - 4#32 + BitVec.ofNat 32 j) = some (f, o)) ∧
          ∀ j < 4, ((s.envs c).envTf.tfEsp - 4#32 + BitVec.ofNat 32 j).toNat <
              (s.envs c).envTf.tfEsp.toNat ∧
            ∀ k < 52, (s.envs c).envTf.tfEsp - 4#32 + BitVec.ofNat 32 j ≠
              utrapframeAddr (s.envs c).envTf.tfEsp + BitVec.ofNat 32 k := by
  obtain ⟨s₁, σ, hrun, hcall, hc⟩ := called_of_fault hs hf hup hstack hvar faultVa
  refine ⟨s₁, σ, hrun, hcall, hc.memory.writes, fun s₂ σ₂ h hapart => ?_⟩
  obtain ⟨σ₃, hback, hregs, heip, hflags, -, hwrites⟩ := back_of_returned hc h hapart
  refine ⟨σ₃, hback, hregs, heip, hflags, hwrites, fun j hj => word_ne_frame ?_ hj⟩
  have hlow := (h.word 0 (by decide)).1
  rwa [BitVec.add_zero] at hlow

/-! ## A handler that returns at once -/

/-- The state after a C handler that does nothing. -/
def atOnce (σ : State) (eip : Word) : State :=
  ⟨{ σ.cpu with regs := Function.update σ.cpu.regs .esp (σ.cpu.regs .esp + 4#32), eip := eip }, σ.mem⟩

theorem returned_atOnce {utr tesp : Word} {ws : List Word} {σ : State}
    (hc : Called s ρ d utr ws upcall σ) (hd : dirsOf s c = some d)
    (hstack : ∀ k < 64, UserWritable s.phys d (utr - 8#32 + BitVec.ofNat 32 k))
    (hword : ∀ j < 4, UserWritable s.phys d (tesp - 4#32 + BitVec.ofNat 32 j)) :
    Returned c d utr tesp σ { s with phys := σ.mem } (atOnce σ (upcall + 8#32)) := by
  refine ⟨⟨ρ, hc.memory.spaces⟩, hd, rfl, ?_, ?_, fun _ _ => rfl, fun k hk => ?_,
    fun j hj => hc.memory.writable (hword j hj)⟩
  · rw [hc.esp]
    exact hc.ret
  · simp only [atOnce, Function.update_self]
  · have hadd : utr + BitVec.ofNat 32 k = utr - 8#32 + BitVec.ofNat 32 (8 + k) := by
      rw [BitVec.ofNat_add]
      bv_omega
    rw [hadd]
    exact hc.memory.writable (hstack _ (by omega))

/-- The pages of `faulted`. -/
theorem faulted_place (x : Word) (tf : Trapframe) {va : Word} {j : ℕ} (hj : j < nptentries)
    (hva : pgnum va = 954 * nptentries + j) (hp : Has ((faulted x tf).phys 3 j) pteP) :
    place (faulted x tf).phys 2 va = some (frame ((faulted x tf).phys 3 j), va.toNat % pgsize) := by
  have hwalk := faulted_walk x tf hj
  rw [← hva] at hwalk
  exact place_of_walk (hwalk.trans (if_pos hp))

theorem pgnum_of_toNat {va : Word} {j : ℕ} (h : (954 * 1024 + j) * 4096 ≤ va.toNat)
    (h' : va.toNat < (954 * 1024 + j + 1) * 4096) : pgnum va = 954 * nptentries + j := by
  rw [pgnum_eq, nptentries]
  omega

/-- A fault with the stack pointer forty-four bytes below `USTACKTOP`. -/
def ordinaryFrame : Trapframe := { userFrame (ustacktop - 44#32) with tfEip := 0x800030#32 }

/-- The entry maps a data frame for the user to write. -/
def StackPage (x : Word) : Prop :=
  (frame x = 4 ∨ frame x = 5) ∧ Has x pteP ∧ Has x pteU ∧ Has x pteW

instance (x : Word) : Decidable (StackPage x) := inferInstanceAs (Decidable (_ ∧ _))

theorem ordinary_stack (x : Word) {k : ℕ} (hk : k < 64) :
    UserWritable (faulted x ordinaryFrame).phys 2
      (utrapframeAddr ordinaryFrame.tfEsp - 8#32 + BitVec.ofNat 32 k) := by
  have hutr : (utrapframeAddr ordinaryFrame.tfEsp - 8#32).toNat = 955 * 2 ^ 22 - 64 := by decide
  have hadd : (utrapframeAddr ordinaryFrame.tfEsp - 8#32 + BitVec.ofNat 32 k).toNat =
      955 * 2 ^ 22 - 64 + k := by
    rw [BitVec.toNat_add, hutr, BitVec.toNat_ofNat]
    omega
  refine faulted_writable x ordinaryFrame ⟨?_, ?_⟩
  · rw [BitVec.le_def, hadd, toNat_uxstackbase]
    omega
  · rw [BitVec.lt_def, hadd, toNat_uxstacktop]
    omega

theorem ordinary_variable (x : Word) {k : ℕ} (hk : k < 4) :
    UserReadable (faulted x ordinaryFrame).phys 2 (uxstackbase + BitVec.ofNat 32 k) := by
  have hadd : (uxstackbase + BitVec.ofNat 32 k).toNat = 955 * 2 ^ 22 - 4096 + k := by
    rw [BitVec.toNat_add, toNat_uxstackbase, BitVec.toNat_ofNat]
    omega
  refine (faulted_writable x ordinaryFrame ⟨?_, ?_⟩).readable
  · rw [BitVec.le_def, hadd, toNat_uxstackbase]
    omega
  · rw [BitVec.lt_def, hadd, toNat_uxstacktop]
    omega

/-- The word below the stack pointer is on the page of the ordinary stack. -/
theorem toNat_ordinary_word {j : ℕ} (hj : j < 4) :
    (ordinaryFrame.tfEsp - 4#32 + BitVec.ofNat 32 j).toNat = 955 * 2 ^ 22 - 2 * 4096 - 48 + j := by
  have hesp : (ordinaryFrame.tfEsp - 4#32).toNat = 955 * 2 ^ 22 - 2 * 4096 - 48 := by decide
  rw [BitVec.toNat_add, hesp, BitVec.toNat_ofNat]
  omega

theorem ordinary_word {x : Word} (hx : StackPage x) {j : ℕ} (hj : j < 4) :
    UserWritable (faulted x ordinaryFrame).phys 2
      (ordinaryFrame.tfEsp - 4#32 + BitVec.ofNat 32 j) := by
  have hnat := toNat_ordinary_word hj
  have hpage : pgnum (ordinaryFrame.tfEsp - 4#32 + BitVec.ofNat 32 j) = 954 * nptentries + 1021 :=
    pgnum_of_toNat (by omega) (by omega)
  have htab : (faulted x ordinaryFrame).phys 3 1021 = x := by rw [faulted_table]; rfl
  refine ⟨?_, ⟨frame x, true, true⟩, ?_, rfl, rfl⟩
  · rw [hpage, upn_eq, nptentries]
    omega
  · rw [hpage, faulted_walk x ordinaryFrame (by decide), htab]
    simp only [hx.2.1, hx.2.2.1, hx.2.2.2, decide_true, if_true]

/-- The places of the word, and of the frame. -/
theorem ordinary_place_word {x : Word} (hx : StackPage x) {j : ℕ} (hj : j < 4) :
    place (faulted x ordinaryFrame).phys 2 (ordinaryFrame.tfEsp - 4#32 + BitVec.ofNat 32 j) =
      some (frame x, 4048 + j) := by
  have hnat := toNat_ordinary_word hj
  have htab : (faulted x ordinaryFrame).phys 3 1021 = x := by rw [faulted_table]; rfl
  rw [faulted_place x ordinaryFrame (j := 1021) (by decide) (pgnum_of_toNat (by omega) (by omega))
    (by rw [htab]; exact hx.2.1), htab, hnat, pgsize]
  congr 2
  omega

theorem ordinary_place_frame (x : Word) {k : ℕ} (hk : k < 52) :
    place (faulted x ordinaryFrame).phys 2
      (utrapframeAddr ordinaryFrame.tfEsp + BitVec.ofNat 32 k) = some (4, 4040 + k) := by
  have hutr : (utrapframeAddr ordinaryFrame.tfEsp).toNat = 955 * 2 ^ 22 - 56 := by decide
  have hnat : (utrapframeAddr ordinaryFrame.tfEsp + BitVec.ofNat 32 k).toNat =
      955 * 2 ^ 22 - 56 + k := by
    rw [BitVec.toNat_add, hutr, BitVec.toNat_ofNat]
    omega
  have htab : (faulted x ordinaryFrame).phys 3 1023 = 0x4007#32 := by rw [faulted_table]; rfl
  rw [faulted_place x ordinaryFrame (j := 1023) (by decide) (pgnum_of_toNat (by omega) (by omega))
    (by rw [htab]; decide), htab, hnat, pgsize, show frame 0x4007#32 = 4 by decide]
  congr 2
  omega

/-- The fault on the ordinary stack, and a handler that returns at once. -/
theorem ordinary_called {x : Word} (hx : StackPage x) : ∃ s₁ σ,
    (faulted x ordinaryFrame).pageFaultHandler 0#32 = .ok (.left, s₁) ∧
    run 0x800020#32 (pgfaultUpcall uxstackbase) 2 3 ⟨userCpu (s₁.envs 0).envTf, s₁.phys⟩ = some σ ∧
    Called (faulted x ordinaryFrame) faultedRoles 2 (utrapframeAddr ordinaryFrame.tfEsp)
      (utrapframe 0#32 ordinaryFrame) 0x800020#32 σ ∧
    Returned 0 2 (utrapframeAddr ordinaryFrame.tfEsp) ordinaryFrame.tfEsp σ
      { faulted x ordinaryFrame with phys := σ.mem } (atOnce σ 0x800028#32) := by
  have hs := faulted_spaces (Or.inr ⟨hx.2.1, hx.1⟩) ordinaryFrame
  have hf := faulted_faulting x ordinaryFrame (by decide)
  have hup : ((faulted x ordinaryFrame).envs 0).envPgfaultUpcall = 0x800020#32 := rfl
  obtain ⟨s₁, σ, hrun, hcall, hc⟩ := called_of_fault hs hf hup
    (fun k hk => ordinary_stack x hk) (fun k hk => ordinary_variable x hk) 0#32
  exact ⟨s₁, σ, hrun, hcall, hc, returned_atOnce hc hf.dir (fun k hk => ordinary_stack x hk)
    fun j hj => ordinary_word hx hj⟩

/-- The round trip of a fault on the ordinary stack, whose page is frame 5. -/
theorem upcall_roundTrip_ordinary : ∃ s₁ σ σ₃,
    (faulted 0x5007#32 ordinaryFrame).pageFaultHandler 0#32 = .ok (.left, s₁) ∧
    run 0x800020#32 (pgfaultUpcall uxstackbase) 2 3 ⟨userCpu (s₁.envs 0).envTf, s₁.phys⟩ = some σ ∧
    run 0x800020#32 (pgfaultUpcall uxstackbase) 2 11 (atOnce σ 0x800028#32) = some σ₃ ∧
    σ₃.cpu.regs = (userCpu ordinaryFrame).regs ∧ σ₃.cpu.eip = 0x800030#32 := by
  have hx : StackPage 0x5007#32 := by decide
  have hs := faulted_spaces (Or.inr ⟨hx.2.1, hx.1⟩) ordinaryFrame
  have hf := faulted_faulting 0x5007#32 ordinaryFrame (by decide)
  have hup : ((faulted 0x5007#32 ordinaryFrame).envs 0).envPgfaultUpcall = 0x800020#32 := rfl
  obtain ⟨s₁, σ, hrun, hcall, -, hback⟩ := upcall_roundTrip hs hf hup
    (fun k hk => ordinary_stack 0x5007#32 hk) (fun k hk => ordinary_variable 0x5007#32 hk) 0#32
  obtain ⟨s₁', σ', hrun', hcall', hc, hret⟩ := ordinary_called hx
  obtain ⟨-, rfl⟩ := Prod.mk.inj (Except.ok.inj (hrun'.symm.trans hrun))
  obtain rfl := Option.some.inj (hcall'.symm.trans hcall)
  have hapart : Unaliased σ'.mem 2 (utrapframeAddr ordinaryFrame.tfEsp) ordinaryFrame.tfEsp := by
    intro j hj k hk h0
    have hlow := (ordinary_word hx hj).1
    have hlow' : pgnum (utrapframeAddr ordinaryFrame.tfEsp + BitVec.ofNat 32 k) < upn :=
      pgnum_frame_lt _ (by omega)
    rw [hc.memory.place_eq hlow, hc.memory.place_eq hlow', ordinary_place_word hx hj,
      ordinary_place_frame _ hk] at h0
    exact absurd (Prod.mk.inj (Option.some.inj h0)).1 (by decide)
  obtain ⟨σ₃, hrun₃, hregs, heip, -⟩ := hback _ _ hret hapart
  exact ⟨s₁', σ', σ₃, hrun', hcall', hrun₃, hregs, heip⟩

/-- The frame with the trap-time `eip` for `edi`. -/
def aliasedFrame : Trapframe :=
  { ordinaryFrame with tfRegs := { ordinaryFrame.tfRegs with regEdi := ordinaryFrame.tfEip } }

theorem aliasedFrame_words : utrapframe 0#32 aliasedFrame =
    (utrapframe 0#32 ordinaryFrame).set 2 ordinaryFrame.tfEip := rfl

/-- An exception stack that is also the ordinary stack: the word with the trap-time `eip` is the
word of the frame with the trap-time `edi`. -/
theorem ordinary_aliased : ∃ s₁ σ σ₃,
    (faulted 0x4007#32 ordinaryFrame).pageFaultHandler 0#32 = .ok (.left, s₁) ∧
    run 0x800020#32 (pgfaultUpcall uxstackbase) 2 3 ⟨userCpu (s₁.envs 0).envTf, s₁.phys⟩ = some σ ∧
    Returned 0 2 (utrapframeAddr ordinaryFrame.tfEsp) ordinaryFrame.tfEsp σ
      { faulted 0x4007#32 ordinaryFrame with phys := σ.mem } (atOnce σ 0x800028#32) ∧
    run 0x800020#32 (pgfaultUpcall uxstackbase) 2 11 (atOnce σ 0x800028#32) = some σ₃ ∧
    σ₃.cpu.regs .edi ≠ (userCpu ordinaryFrame).regs .edi := by
  have hx : StackPage 0x4007#32 := by decide
  obtain ⟨s₁, σ, hrun, hcall, hc, hret⟩ := ordinary_called hx
  refine ⟨s₁, σ, ?_⟩
  have hs := hc.memory.spaces
  have hd : dirsOf { faulted 0x4007#32 ordinaryFrame with phys := σ.mem } 0 = some 2 := hret.dir
  have hword := hret.word
  have hplace : ∀ j < 4, place σ.mem 2 (ordinaryFrame.tfEsp - 4#32 + BitVec.ofNat 32 j) =
      some (4, 4048 + j) := fun j hj => by
    rw [hc.memory.place_eq (ordinary_word hx hj).1, ordinary_place_word hx hj]
    rfl
  have hplace' : ∀ k < 52, place σ.mem 2 (utrapframeAddr ordinaryFrame.tfEsp + BitVec.ofNat 32 k) =
      some (4, 4040 + k) := fun k hk => by
    rw [hc.memory.place_eq (pgnum_frame_lt _ (by omega)), ordinary_place_frame _ hk]
  have hst : storeWord σ.mem 2 (ordinaryFrame.tfEsp - 4#32) ordinaryFrame.tfEip =
      some (putBytes σ.mem 2 (ordinaryFrame.tfEsp - 4#32) 4 (byte ordinaryFrame.tfEip)) :=
    storeWord_of_writable hword
  have hread : ∀ k < 4 * (utrapframe 0#32 ordinaryFrame).length,
      UserReadable σ.mem 2 (utrapframeAddr ordinaryFrame.tfEsp + BitVec.ofNat 32 k) :=
    fun k hk => (hret.stack k hk).readable
  have hread' := fun k hk => hs.readable_putBytes (b := byte ordinaryFrame.tfEip) hd hword
    (hread k hk)
  have hplace₃ := fun k (hk : k < 52) => hs.place_putBytes (b := byte ordinaryFrame.tfEip) hd hword
    (hread k hk).1
  -- the frame after the store is that of a fault with another `edi`
  have hhold : Holds (putBytes σ.mem 2 (ordinaryFrame.tfEsp - 4#32) 4 (byte ordinaryFrame.tfEip)) 2
      (utrapframeAddr ordinaryFrame.tfEsp, utrapframe 0#32 aliasedFrame) := by
    intro k hk
    have hk' : k < 52 := hk
    dsimp only
    by_cases hedi : 8 ≤ k ∧ k < 12
    · have hpl : place σ.mem 2 (ordinaryFrame.tfEsp - 4#32 + BitVec.ofNat 32 (k - 8)) =
          some (4, 4040 + k) := by
        rw [hplace (k - 8) (by omega), show 4048 + (k - 8) = 4040 + k by omega]
      rw [byteAt_of_place ((hplace₃ k hk').trans (hplace' k hk')),
        physByte_putBytes_of_place (by decide) (k := k - 8) (by omega) hpl, bytesOf,
        show k / 4 = 2 by omega, show k % 4 = k - 8 by omega]
      rfl
    · refine (hs.byteAt_putBytes_of_ne hd hword (hread k hk').1 fun j hj h0 => ?_).trans
        ((hc.frame k hk').trans (congrArg some ?_))
      · rw [hplace j hj, hplace' k hk'] at h0
        have := (Prod.mk.inj (Option.some.inj h0)).2
        omega
      · have hne : 2 ≠ k / 4 := by omega
        rw [bytesOf, bytesOf, aliasedFrame_words, List.getD_eq_getElem?_getD,
          List.getD_eq_getElem?_getD, List.getElem?_set_ne hne]
  have heip : loadWord (putBytes σ.mem 2 (ordinaryFrame.tfEsp - 4#32) 4 (byte ordinaryFrame.tfEip)) 2
      (ordinaryFrame.tfEsp - 4#32) = some ordinaryFrame.tfEip := by
    refine loadWord_of_byteAt (fun k hk => ?_) fun k hk => ?_
    · exact hs.readable_putBytes hd hword (hword k hk).readable
    · exact hs.byteAt_putBytes hd hword (by decide) hk
  generalize putBytes σ.mem 2 (ordinaryFrame.tfEsp - 4#32) 4 (byte ordinaryFrame.tfEip) = m at *
  have hpop : ∀ i < 8, loadWord m 2
      (utrapframeAddr ordinaryFrame.tfEsp + 8#32 + BitVec.ofNat 32 (4 * i)) =
      some ((utrapframe 0#32 aliasedFrame).getD (2 + i) 0#32) := by
    intro i hi
    have hload := loadWord_of_holds hhold hread' (i := 2 + i) (by rw [length_utrapframe]; omega)
    rw [← hload, BitVec.add_assoc, show 8#32 = BitVec.ofNat 32 8 from rfl, ← BitVec.ofNat_add,
      Nat.mul_add]
  have hsp : (atOnce σ 0x800028#32).cpu.regs .esp = utrapframeAddr ordinaryFrame.tfEsp - 4#32 := by
    rw [hret.esp, hc.esp]
    generalize utrapframeAddr ordinaryFrame.tfEsp = utr
    bv_omega
  obtain ⟨σ₃, hexec, -, -, hregs, -⟩ := execAll_leaveHandler
    (atOnce σ 0x800028#32) (r := fun i => (utrapframe 0#32 aliasedFrame).getD (2 + i) 0#32) hsp
    (loadWord_of_holds hc.frame hread (i := 12) (by decide))
    (loadWord_of_holds hc.frame hread (i := 10) (by decide)) hst hpop
    (loadWord_of_holds hhold hread' (i := 11) (by decide))
    (loadWord_of_holds hhold hread' (i := 12) (by decide)) heip
  refine ⟨σ₃, hrun, hcall, hret, (run_leaveHandler rfl).trans hexec, ?_⟩
  rw [hregs]
  decide

/-- An exception stack that overflows: eight bytes are left on the page. -/
theorem overflow_destroyed : ∃ s, (∃ ρ, Spaces s ρ) ∧ Faulting s 0 2 ∧
    (∀ va, OnStack va → UserWritable s.phys 2 va) ∧ OnStack (s.envs 0).envTf.tfEsp ∧
    (∀ j < 4, UserWritable s.phys 2 ((s.envs 0).envTf.tfEsp - 4#32 + BitVec.ofNat 32 j)) ∧
    Destroyed s 0 0#32 := by
  have hs := faulted_spaces (Or.inl rfl) (userFrame (uxstackbase + 8#32))
  have hf := faulted_faulting 0#32 _ (userFrame_cs (uxstackbase + 8#32))
  have hesp : ((faulted 0#32 (userFrame (uxstackbase + 8#32))).envs 0).envTf.tfEsp =
      uxstackbase + 8#32 := rfl
  refine ⟨_, ⟨_, hs⟩, hf, fun va hva => faulted_writable 0#32 _ hva, ?_, fun j hj => ?_, ?_⟩
  · rw [hesp]
    decide
  · refine faulted_writable 0#32 _ ?_
    have hnat : (uxstackbase + 8#32 - 4#32 + BitVec.ofNat 32 j).toNat = 955 * 2 ^ 22 - 4096 + 4 + j := by
      have h4 : (uxstackbase + 8#32 - 4#32).toNat = 955 * 2 ^ 22 - 4096 + 4 := by decide
      rw [BitVec.toNat_add, h4, BitVec.toNat_ofNat]
      omega
    rw [hesp]
    constructor
    · rw [BitVec.le_def, hnat, toNat_uxstackbase]
      omega
    · rw [BitVec.lt_def, hnat, toNat_uxstacktop]
      omega
  · refine (destroyed_or_admitted hs hf 0#32).resolve_right fun hadm => ?_
    obtain ⟨-, t, ht, -⟩ := hadm.writable hs hf (k := 0) (by decide)
    rw [hesp] at ht
    have hpage : pgnum (utrapframeAddr (uxstackbase + 8#32) + BitVec.ofNat 32 0) =
        954 * nptentries + 1022 := by decide
    rw [hpage, faulted_walk _ _ (by decide), faulted_table] at ht
    exact absurd ht (by decide +revert)

/-- With the exception stack and the word below the stack pointer writable, and a handler that
leaves its frame alone, the environment may still be destroyed, and the registers may still
differ. -/
theorem not_upcall_roundTrip :
    (∃ s, (∃ ρ, Spaces s ρ) ∧ Faulting s 0 2 ∧ (∀ va, OnStack va → UserWritable s.phys 2 va) ∧
      OnStack (s.envs 0).envTf.tfEsp ∧
      (∀ j < 4, UserWritable s.phys 2 ((s.envs 0).envTf.tfEsp - 4#32 + BitVec.ofNat 32 j)) ∧
      Destroyed s 0 0#32) ∧
    ∃ s s₁ σ s₂ σ₂ σ₃, (∃ ρ, Spaces s ρ) ∧ Faulting s 0 2 ∧
      (∀ va, OnStack va → UserWritable s.phys 2 va) ∧
      s.pageFaultHandler 0#32 = .ok (.left, s₁) ∧
      run 0x800020#32 (pgfaultUpcall uxstackbase) 2 3 ⟨userCpu (s₁.envs 0).envTf, s₁.phys⟩ = some σ ∧
      Returned 0 2 (utrapframeAddr (s.envs 0).envTf.tfEsp) (s.envs 0).envTf.tfEsp σ s₂ σ₂ ∧
      run 0x800020#32 (pgfaultUpcall uxstackbase) 2 11 σ₂ = some σ₃ ∧
      σ₃.cpu.regs .edi ≠ (userCpu (s.envs 0).envTf).regs .edi := by
  refine ⟨overflow_destroyed, ?_⟩
  obtain ⟨s₁, σ, σ₃, hrun, hcall, hret, hback, hne⟩ := ordinary_aliased
  exact ⟨faulted 0x4007#32 ordinaryFrame, s₁, σ, _, _, σ₃,
    ⟨_, faulted_spaces (Or.inr (by decide)) ordinaryFrame⟩, faulted_faulting _ _ (by decide),
    fun va hva => faulted_writable _ _ hva, hrun, hcall, hret, hback, hne⟩

end Kernel
end PmakeOs
