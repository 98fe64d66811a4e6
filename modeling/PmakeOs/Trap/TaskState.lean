import PmakeOs.Calls.Frames
import Mathlib.Tactic.IntervalCases

/-!
# The task state segment and the I/O ports

`trap_init_percpu` of `kern/trap.c`, with the packed `struct Taskstate` and the segment
descriptor macro `SEG16` of `inc/mmu.h`, and the test that the processor makes when ring 3
executes an `in` or `out`.

The processor looks for the bit of a port in a bitmap that starts `ts_iomb` bytes into the
segment.  The kernel never stores `ts_iomb`, and `cpus` is in zeroed memory, so the bitmap
starts at offset zero: the segment itself is read as the bitmap.  Nearly all of it is
zero.  What closes a port is a set bit of the stack pointer `ts_esp0`, the one of the
selector `ts_ss0`, a bit of the byte behind the segment (which the descriptor's limit,
one too large, still covers), or that the bit lies beyond the limit.
-/

namespace PmakeOs
namespace Io

/-- `struct Taskstate` -/
structure Taskstate where
  tsLink : Word
  tsEsp0 : Word
  tsSs0 : BitVec 16
  tsPadding1 : BitVec 16
  tsEsp1 : Word
  tsSs1 : BitVec 16
  tsPadding2 : BitVec 16
  tsEsp2 : Word
  tsSs2 : BitVec 16
  tsPadding3 : BitVec 16
  tsCr3 : Word
  tsEip : Word
  tsEflags : Word
  tsEax : Word
  tsEcx : Word
  tsEdx : Word
  tsEbx : Word
  tsEsp : Word
  tsEbp : Word
  tsEsi : Word
  tsEdi : Word
  tsEs : BitVec 16
  tsPadding4 : BitVec 16
  tsCs : BitVec 16
  tsPadding5 : BitVec 16
  tsSs : BitVec 16
  tsPadding6 : BitVec 16
  tsDs : BitVec 16
  tsPadding7 : BitVec 16
  tsFs : BitVec 16
  tsPadding8 : BitVec 16
  tsGs : BitVec 16
  tsPadding9 : BitVec 16
  tsLdt : BitVec 16
  tsPadding10 : BitVec 16
  tsT : BitVec 16
  tsIomb : BitVec 16
  deriving DecidableEq

/-- Two halves of a word, the lower one first. -/
def pack (lo hi : BitVec 16) : Word := hi ++ lo

/-- The words of the structure in the order of memory. -/
def Taskstate.words (t : Taskstate) : List Word :=
  [t.tsLink, t.tsEsp0, pack t.tsSs0 t.tsPadding1, t.tsEsp1, pack t.tsSs1 t.tsPadding2, t.tsEsp2,
    pack t.tsSs2 t.tsPadding3, t.tsCr3, t.tsEip, t.tsEflags, t.tsEax, t.tsEcx, t.tsEdx, t.tsEbx,
    t.tsEsp, t.tsEbp, t.tsEsi, t.tsEdi, pack t.tsEs t.tsPadding4, pack t.tsCs t.tsPadding5,
    pack t.tsSs t.tsPadding6, pack t.tsDs t.tsPadding7, pack t.tsFs t.tsPadding8,
    pack t.tsGs t.tsPadding9, pack t.tsLdt t.tsPadding10, pack t.tsT t.tsIomb]

/-- `sizeof(struct Taskstate)` -/
def taskstateSize : ℕ := 104

/-- The segment in zeroed memory. -/
def Taskstate.zero : Taskstate :=
  ⟨0, 0, 0, 0, 0, 0, 0, 0, 0, 0, 0, 0, 0, 0, 0, 0, 0, 0, 0, 0, 0, 0, 0, 0, 0, 0, 0, 0, 0, 0, 0, 0,
    0, 0, 0, 0, 0⟩

/-- `struct CpuInfo` as it lies in memory. -/
structure CpuRecord where
  cpuId : BitVec 8
  cpuStatus : Word
  cpuEnv : Word
  cpuTs : Taskstate

def CpuRecord.words (c : CpuRecord) : List Word :=
  [c.cpuId.setWidth 32, c.cpuStatus, c.cpuEnv] ++ c.cpuTs.words

/-- `sizeof(struct CpuInfo)` -/
def cpuInfoSize : ℕ := 116

/-- `NCPU` -/
def ncpus : ℕ := 8

/-- `struct Segdesc` -/
structure Segdesc where
  sdLim15_0 : BitVec 16
  sdBase15_0 : BitVec 16
  sdBase23_16 : BitVec 8
  sdType : BitVec 4
  sdS : BitVec 1
  sdDpl : BitVec 2
  sdP : BitVec 1
  sdLim19_16 : BitVec 4
  sdAvl : BitVec 1
  sdRsv1 : BitVec 1
  sdDb : BitVec 1
  sdG : BitVec 1
  sdBase31_24 : BitVec 8
  deriving DecidableEq

/-- `SEG16` -/
def seg16 (type : BitVec 4) (base lim : Word) (dpl : BitVec 2) : Segdesc where
  sdLim15_0 := lim.setWidth 16
  sdBase15_0 := base.setWidth 16
  sdBase23_16 := (base >>> 16).setWidth 8
  sdType := type
  sdS := 1
  sdDpl := dpl
  sdP := 1
  sdLim19_16 := (lim >>> 16).setWidth 4
  sdAvl := 0
  sdRsv1 := 0
  sdDb := 1
  sdG := 0
  sdBase31_24 := (base >>> 24).setWidth 8

/-- The base address the processor puts together. -/
def Segdesc.base (d : Segdesc) : Word :=
  d.sdBase31_24.setWidth 32 <<< 24 ||| d.sdBase23_16.setWidth 32 <<< 16 |||
    d.sdBase15_0.setWidth 32

/-- The last offset inside the segment. -/
def Segdesc.limit (d : Segdesc) : ℕ :=
  let lim := d.sdLim19_16.toNat * 2 ^ 16 + d.sdLim15_0.toNat
  if d.sdG = 1 then lim * 4096 + 4095 else lim

/-! ## The processor's test -/

/-- The bits of the ports `port, …, port + width - 1` lie within the segment and are clear. -/
def BitmapAllows (mem : Word → BitVec 8) (d : Segdesc) (port width : ℕ) : Prop :=
  let iomb := (mem (d.base + 102#32)).toNat + 256 * (mem (d.base + 103#32)).toNat
  ∀ k < width, iomb + (port + k) / 8 ≤ d.limit ∧
    (mem (d.base + BitVec.ofNat 32 (iomb + (port + k) / 8))).getLsbD ((port + k) % 8) = false

/-- Ring 3 with flags `eflags` may use the ports: its I/O privilege level is 3, or the
bitmap allows it. -/
def IoAllowed (eflags : Word) (mem : Word → BitVec 8) (d : Segdesc) (port width : ℕ) : Prop :=
  eflags &&& 0x3000#32 = 0x3000#32 ∨ BitmapAllows mem d port width

/-! ## The kernel -/

/-- Where the linker has put `cpus`, and what the rest of memory holds. -/
structure Image where
  cpus : Word
  other : Word → BitVec 8

/-- The array `cpus`, the descriptor table, and for each CPU the descriptor in its task
register. -/
structure Tables where
  cpus : ℕ → CpuRecord
  gdt : ℕ → Segdesc
  tr : ℕ → Option Segdesc

/-- Byte `o` of a structure. -/
def byteOf (ws : List Word) (o : ℕ) : BitVec 8 := (ws.getD (o / 4) 0#32).extractLsb' (8 * (o % 4)) 8

/-- Memory, as a CPU reads it. -/
def Tables.byte (m : Image) (st : Tables) (a : Word) : BitVec 8 :=
  let o := (a - m.cpus).toNat
  if o < cpuInfoSize * ncpus then byteOf (st.cpus (o / cpuInfoSize)).words (o % cpuInfoSize)
  else m.other a

/-- `&cpus[i].cpu_ts` -/
def tssAddr (m : Image) (i : ℕ) : Word := m.cpus + BitVec.ofNat 32 (cpuInfoSize * i + 12)

/-- `ltr`: load the descriptor, and mark it busy. -/
def Tables.ltr (st : Tables) (i sel : ℕ) : Tables :=
  let d := st.gdt (sel / 8)
  { st with
    tr := Function.update st.tr i (some d)
    gdt := Function.update st.gdt (sel / 8) { d with sdType := d.sdType ||| 2 } }

/-- The value that `trap_init_percpu` gives `ts_esp0`. -/
def esp0 (cid : BitVec 8) : Word :=
  kstacktop - BitVec.ofNat 32 (cid.toNat * (kstksize + kstkgap))

/-- `trap_init_percpu`, on the CPU whose `cpunum()` is `i`. -/
def trapInitPercpu (m : Image) (i : ℕ) (st : Tables) : Tables :=
  let c := st.cpus i
  let cid := c.cpuId
  let st := { st with
    cpus := Function.update st.cpus i
      { c with cpuTs := { c.cpuTs with tsEsp0 := esp0 cid, tsSs0 := 0x10 } } }
  -- `STS_T32A`, and the size of the structure for its limit
  let d := seg16 9 (tssAddr m i) (BitVec.ofNat 32 taskstateSize) 0
  -- `GD_TSS0 >> 3`
  let st := { st with gdt := Function.update st.gdt (5 + cid.toNat) { d with sdS := 0 } }
  st.ltr i (0x28 + 8 * cid.toNat)

/-- The loop of `mp_init` over `n` processors. -/
def mpInit (n : ℕ) (st : Tables) : Tables :=
  { st with
    cpus := fun i => if i < n then { st.cpus i with cpuId := BitVec.ofNat 8 i } else st.cpus i }

/-- The rest of the kernel writes `cpu_status` and `cpu_env`. -/
def Tables.setRecord (st : Tables) (i : ℕ) (status env : Word) : Tables :=
  { st with
    cpus := Function.update st.cpus i { st.cpus i with cpuStatus := status, cpuEnv := env } }

/-- Zeroed memory, with some descriptor table. -/
def bss (gdt : ℕ → Segdesc) : Tables := ⟨fun _ => ⟨0, 0, 0, .zero⟩, gdt, fun _ => none⟩

/-- The states that the kernel reaches: `trap_init` on the boot CPU, which has no local APIC
yet and is number 0; `mp_init`; then `mp_main` on any CPU, and whatever else runs. -/
inductive Reachable (m : Image) : Tables → Prop
  | boot (gdt : ℕ → Segdesc) : Reachable m (trapInitPercpu m 0 (bss gdt))
  | mpInit (gdt : ℕ → Segdesc) (n : ℕ) (hn : n ≤ ncpus) :
      Reachable m (mpInit n (trapInitPercpu m 0 (bss gdt)))
  | mpMain {st : Tables} (i : ℕ) (hi : i < ncpus) (h : Reachable m st) :
      Reachable m (trapInitPercpu m i st)
  | other {st : Tables} (i : ℕ) (status env : Word) (h : Reachable m st) :
      Reachable m (st.setRecord i status env)

/-! ## What a CPU's segment holds -/

/-- The segment that `trap_init_percpu` leaves. -/
def initTs (cid : BitVec 8) : Taskstate := { Taskstate.zero with tsEsp0 := esp0 cid, tsSs0 := 0x10 }

/-- The descriptor that it makes. -/
def tssDesc (m : Image) (i : ℕ) : Segdesc :=
  { seg16 9 (tssAddr m i) (BitVec.ofNat 32 taskstateSize) 0 with sdS := 0 }

/-- Each segment is untouched, or as `trap_init_percpu` has left it. -/
structure Initialised (m : Image) (st : Tables) : Prop where
  desc : ∀ i d, st.tr i = some d → d = tssDesc m i ∧ (st.cpus i).cpuTs = initTs (st.cpus i).cpuId
  fresh : ∀ i, st.tr i = none → (st.cpus i).cpuTs = .zero

variable {m : Image} {st : Tables} {i : ℕ}

theorem trapInitPercpu_tr (m : Image) (i : ℕ) (st : Tables) :
    (trapInitPercpu m i st).tr = Function.update st.tr i (some (tssDesc m i)) := by
  have hidx : (0x28 + 8 * (st.cpus i).cpuId.toNat) / 8 = 5 + (st.cpus i).cpuId.toNat := by omega
  simp only [trapInitPercpu, Tables.ltr, hidx, Function.update_self]
  rfl

theorem trapInitPercpu_tr_self (m : Image) (i : ℕ) (st : Tables) :
    (trapInitPercpu m i st).tr i = some (tssDesc m i) := by
  rw [trapInitPercpu_tr, Function.update_self]

theorem Initialised.trapInitPercpu (h : Initialised m st) (i : ℕ) :
    Initialised m (trapInitPercpu m i st) := by
  have hts : (st.cpus i).cpuTs = .zero ∨ (st.cpus i).cpuTs = initTs (st.cpus i).cpuId := by
    cases htr : st.tr i with
    | none => exact Or.inl (h.fresh i htr)
    | some d => exact Or.inr (h.desc i d htr).2
  have hinit : { (st.cpus i).cpuTs with tsEsp0 := esp0 (st.cpus i).cpuId, tsSs0 := 0x10 } =
      initTs (st.cpus i).cpuId := by
    rcases hts with hts | hts <;> rw [hts] <;> rfl
  have hcpus : (Io.trapInitPercpu m i st).cpus = Function.update st.cpus i
      { st.cpus i with cpuTs := initTs (st.cpus i).cpuId } := by
    rw [← hinit]
    rfl
  constructor
  · intro j d hj
    rw [trapInitPercpu_tr] at hj
    rw [hcpus]
    rcases eq_or_ne j i with rfl | hne
    · rw [Function.update_self] at hj ⊢
      exact ⟨(Option.some.inj hj).symm, rfl⟩
    · rw [Function.update_of_ne hne] at hj ⊢
      exact h.desc j d hj
  · intro j hj
    rw [trapInitPercpu_tr] at hj
    rw [hcpus]
    rcases eq_or_ne j i with rfl | hne
    · rw [Function.update_self] at hj
      cases hj
    · rw [Function.update_of_ne hne] at hj ⊢
      exact h.fresh j hj

theorem initialised_bss (m : Image) (gdt : ℕ → Segdesc) : Initialised m (bss gdt) :=
  ⟨fun _ _ h => (nomatch h), fun _ _ => rfl⟩

/-- The number of the boot CPU is the one it already had. -/
theorem initialised_mpInit (m : Image) (gdt : ℕ → Segdesc) (n : ℕ) :
    Initialised m (mpInit n (trapInitPercpu m 0 (bss gdt))) := by
  have h := (initialised_bss m gdt).trapInitPercpu 0
  have htr : (trapInitPercpu m 0 (bss gdt)).tr =
      Function.update (fun _ => none) 0 (some (tssDesc m 0)) := trapInitPercpu_tr m 0 (bss gdt)
  constructor
  · intro j d hj
    have hj0 : j = 0 := by
      by_contra hne
      have hj' : (trapInitPercpu m 0 (bss gdt)).tr j = some d := hj
      rw [htr, Function.update_of_ne hne] at hj'
      cases hj'
    subst hj0
    obtain ⟨hd, hts⟩ := h.desc 0 d hj
    have hid : ((trapInitPercpu m 0 (bss gdt)).cpus 0).cpuId = 0#8 := rfl
    refine ⟨hd, ?_⟩
    unfold mpInit
    by_cases hn : 0 < n
    · simpa [hn, hid] using hts
    · simpa [hn] using hts
  · intro j hj
    have hts := h.fresh j hj
    unfold mpInit
    by_cases hn : j < n
    · simpa [hn] using hts
    · simpa [hn] using hts

/-- **In every reachable state the segments are as `trap_init_percpu` leaves them.** -/
theorem Reachable.initialised (h : Reachable m st) : Initialised m st := by
  induction h with
  | boot gdt => exact (initialised_bss m gdt).trapInitPercpu 0
  | mpInit gdt n hn => exact initialised_mpInit m gdt n
  | mpMain i hi h ih => exact ih.trapInitPercpu i
  | @other st i status env h ih =>
    have hcpu : ∀ j, ((st.setRecord i status env).cpus j).cpuTs = (st.cpus j).cpuTs ∧
        ((st.setRecord i status env).cpus j).cpuId = (st.cpus j).cpuId := by
      intro j
      rcases eq_or_ne j i with rfl | hne
      · simp [Tables.setRecord]
      · simp [Tables.setRecord, hne]
    constructor
    · intro j d hj
      obtain ⟨hd, hts⟩ := ih.desc j d hj
      rw [(hcpu j).1, (hcpu j).2]
      exact ⟨hd, hts⟩
    · intro j hj
      rw [(hcpu j).1]
      exact ih.fresh j hj

/-! ## The segment read as a bitmap -/

theorem seg16_base (type : BitVec 4) (base lim : Word) (dpl : BitVec 2) :
    (seg16 type base lim dpl).base = base := by
  apply BitVec.eq_of_getLsbD_eq
  intro j hj
  simp only [seg16, Segdesc.base, BitVec.getLsbD_or, BitVec.getLsbD_shiftLeft,
    BitVec.getLsbD_setWidth, BitVec.getLsbD_ushiftRight]
  by_cases h16 : j < 16
  · simp [h16, hj, show j < 24 by omega]
  · by_cases h24 : j < 24
    · simp [h16, h24, hj, show j - 16 < 8 by omega, show 16 + (j - 16) = j by omega,
        show j - 16 < 32 by omega]
    · simp [h16, h24, hj, show ¬ j - 16 < 8 by omega, show j - 24 < 8 by omega,
        show 24 + (j - 24) = j by omega, show j - 24 < 32 by omega]

theorem tssDesc_base (m : Image) (i : ℕ) : (tssDesc m i).base = tssAddr m i :=
  seg16_base 9 (tssAddr m i) (BitVec.ofNat 32 taskstateSize) 0

theorem tssDesc_limit (m : Image) (i : ℕ) : (tssDesc m i).limit = 104 := by
  show (BitVec.setWidth 4 (BitVec.ofNat 32 104 >>> 16)).toNat * 2 ^ 16 +
    (BitVec.setWidth 16 (BitVec.ofNat 32 104)).toNat = 104
  decide

theorem byteOf_getLsbD (ws : List Word) (o : ℕ) {b : ℕ} (hb : b < 8) :
    (byteOf ws o).getLsbD b = (ws.getD (o / 4) 0#32).getLsbD (8 * (o % 4) + b) := by
  rw [byteOf, BitVec.getLsbD_extractLsb']
  simp [hb]

/-- How far into `cpus` an offset from a segment is. -/
theorem toNat_tssAddr_add (m : Image) {o : ℕ} (hi : i < ncpus) (ho : o ≤ 104) :
    (tssAddr m i + BitVec.ofNat 32 o - m.cpus).toNat = cpuInfoSize * i + 12 + o := by
  rw [ncpus] at hi
  have h : tssAddr m i + BitVec.ofNat 32 o - m.cpus =
      BitVec.ofNat 32 (cpuInfoSize * i + 12) + BitVec.ofNat 32 o := by
    rw [tssAddr, BitVec.add_assoc, BitVec.add_comm, BitVec.add_sub_cancel]
  rw [h, BitVec.toNat_add, BitVec.toNat_ofNat, BitVec.toNat_ofNat, cpuInfoSize]
  omega

theorem byte_tss (m : Image) (st : Tables) {o : ℕ} (hi : i < ncpus) (ho : o < 104) :
    st.byte m (tssAddr m i + BitVec.ofNat 32 o) = byteOf (st.cpus i).cpuTs.words o := by
  have hoff := toNat_tssAddr_add m hi ho.le
  unfold Tables.byte
  simp only [hoff]
  rw [ncpus] at hi
  rw [cpuInfoSize, ncpus, if_pos (by omega), show (116 * i + 12 + o) / 116 = i by omega,
    show (116 * i + 12 + o) % 116 = 12 + o by omega]
  unfold byteOf CpuRecord.words
  rw [show (12 + o) / 4 = o / 4 + 3 by omega, show (12 + o) % 4 = o % 4 by omega]
  rfl

/-- The byte behind a segment: the number of the next CPU, or what the linker has put
behind the array. -/
def byteBehind (m : Image) (st : Tables) (i : ℕ) : BitVec 8 :=
  if i + 1 < ncpus then (st.cpus (i + 1)).cpuId else m.other (m.cpus + BitVec.ofNat 32 928)

theorem byte_behind (m : Image) (st : Tables) (hi : i < ncpus) :
    st.byte m (tssAddr m i + BitVec.ofNat 32 104) = byteBehind m st i := by
  have hoff := toNat_tssAddr_add m hi le_rfl
  unfold Tables.byte byteBehind
  simp only [hoff]
  rw [ncpus] at hi ⊢
  by_cases hlast : i + 1 < 8
  · rw [cpuInfoSize, if_pos (by omega), if_pos hlast,
      show (116 * i + 12 + 104) / 116 = i + 1 by omega,
      show (116 * i + 12 + 104) % 116 = 0 by omega]
    show ((st.cpus (i + 1)).cpuId.setWidth 32).extractLsb' 0 8 = (st.cpus (i + 1)).cpuId
    apply BitVec.eq_of_getLsbD_eq
    intro j hj
    rw [BitVec.getLsbD_extractLsb', BitVec.getLsbD_setWidth]
    simp [hj, show j < 32 by omega]
  · obtain rfl : i = 7 := by omega
    rw [cpuInfoSize, if_neg (by omega), if_neg hlast]
    rw [tssAddr, BitVec.add_assoc]
    rfl

/-- The bit of port `p` is closed, on a CPU with number `cid`: it is a set bit of `ts_esp0`
or of `ts_ss0`, or of the byte behind the segment, or it is past the limit. -/
def Closed (cid behind : BitVec 8) (p : ℕ) : Prop :=
  (32 ≤ p ∧ p < 64 ∧ (esp0 cid).getLsbD (p - 32) = true) ∨ p = 68 ∨
  (832 ≤ p ∧ p < 840 ∧ behind.getLsbD (p - 832) = true) ∨ 840 ≤ p

instance (cid behind : BitVec 8) (p : ℕ) : Decidable (Closed cid behind p) :=
  inferInstanceAs (Decidable (_ ∨ _ ∨ _ ∨ _))

/-- The words of an initialised segment are zero but for two. -/
theorem initTs_words (cid : BitVec 8) :
    (initTs cid).words = [0, esp0 cid, 0x10] ++ List.replicate 23 0 := by
  have hss : pack 0x10 0 = 0x10 := by decide
  have hzero : pack 0 0 = 0 := by decide
  simp only [Taskstate.words, initTs, Taskstate.zero, hss, hzero]
  rfl

theorem initTs_bit (cid : BitVec 8) {p : ℕ} (hp : p < 832) :
    (byteOf (initTs cid).words (p / 8)).getLsbD (p % 8) = true ↔
      (32 ≤ p ∧ p < 64 ∧ (esp0 cid).getLsbD (p - 32) = true) ∨ p = 68 := by
  rw [byteOf_getLsbD _ _ (Nat.mod_lt _ (by decide)), initTs_words,
    show p / 8 / 4 = p / 32 by omega, show 8 * (p / 8 % 4) + p % 8 = p % 32 by omega]
  by_cases h0 : p < 32
  · rw [show p / 32 = 0 by omega]
    simp [show ¬ 32 ≤ p by omega, show p ≠ 68 by omega]
  by_cases h1 : p < 64
  · rw [show p / 32 = 1 by omega, show p % 32 = p - 32 by omega]
    simp [h1, show 32 ≤ p by omega, show p ≠ 68 by omega]
  by_cases h2 : p < 96
  · rw [show p / 32 = 2 by omega, show p % 32 = p - 64 by omega]
    have hlt : p - 64 < 32 := by omega
    have h68 : p = 68 ↔ p - 64 = 4 := by omega
    simp only [h1, false_and, and_false, false_or, h68]
    show (0x10#32).getLsbD (p - 64) = true ↔ p - 64 = 4
    generalize p - 64 = q at hlt ⊢
    interval_cases q <;> decide
  · obtain ⟨q, hq⟩ : ∃ q, p / 32 = q + 3 := ⟨p / 32 - 3, by omega⟩
    rw [hq]
    have hzero : ([0, esp0 cid, 0x10] ++ List.replicate 23 (0 : Word)).getD (q + 3) 0#32 = 0#32 := by
      simp only [List.cons_append, List.nil_append, List.getD_cons_succ]
      rw [List.getD_eq_getElem?_getD, List.getElem?_replicate]
      split <;> rfl
    rw [hzero]
    simp [h1, show p ≠ 68 by omega]

/-- The kernel leaves `ts_iomb` at zero. -/
theorem iomb_eq (h : Initialised m st) (hi : i < ncpus) {d : Segdesc} (hd : st.tr i = some d) :
    (st.byte m (d.base + 102#32)).toNat + 256 * (st.byte m (d.base + 103#32)).toNat = 0 := by
  obtain ⟨rfl, hts⟩ := h.desc i d hd
  rw [tssDesc_base]
  have h102 := byte_tss m st (o := 102) hi (by decide)
  have h103 := byte_tss m st (o := 103) hi (by decide)
  rw [hts, initTs_words] at h102 h103
  rw [show 102#32 = BitVec.ofNat 32 102 from rfl, show 103#32 = BitVec.ofNat 32 103 from rfl, h102,
    h103]
  simp [byteOf]

/-- One bit of the bitmap. -/
theorem bit_closed (h : Initialised m st) (hi : i < ncpus) {d : Segdesc} (hd : st.tr i = some d)
    (p : ℕ) :
    ¬ (p / 8 ≤ d.limit ∧
        (st.byte m (d.base + BitVec.ofNat 32 (p / 8))).getLsbD (p % 8) = false) ↔
      Closed (st.cpus i).cpuId (byteBehind m st i) p := by
  obtain ⟨rfl, hts⟩ := h.desc i d hd
  rw [tssDesc_base, tssDesc_limit, not_and, Bool.not_eq_false]
  by_cases hlim : p / 8 ≤ 104
  · rw [imp_iff_right hlim]
    by_cases hin : p < 832
    · rw [byte_tss m st hi (by omega), hts, initTs_bit _ hin, Closed]
      constructor
      · rintro (h | h)
        · exact Or.inl h
        · exact Or.inr (Or.inl h)
      · rintro (h | h | ⟨h, -⟩ | h)
        · exact Or.inl h
        · exact Or.inr h
        · omega
        · omega
    · rw [show p / 8 = 104 by omega, byte_behind m st hi, show p % 8 = p - 832 by omega, Closed]
      constructor
      · exact fun h => Or.inr (Or.inr (Or.inl ⟨by omega, by omega, h⟩))
      · rintro (⟨-, h, -⟩ | h | ⟨-, -, h⟩ | h)
        · omega
        · omega
        · exact h
        · omega
  · constructor
    · exact fun _ => Or.inr (Or.inr (Or.inr (by omega)))
    · exact fun _ hle => absurd hle hlim

/-- **Ring 3 is denied a port exactly when one of the bits it needs is closed.**  In every
reachable state, for every CPU whose task register is loaded, every ring-3 frame and every
access of any width. -/
theorem ioDenied_iff (h : Reachable m st) (hi : i < ncpus) {d : Segdesc} (hd : st.tr i = some d)
    {U : BitVec 16 → Prop} {tf : Trapframe} (htf : Ring3 U tf) (port width : ℕ) :
    ¬ IoAllowed tf.tfEflags (st.byte m) d port width ↔
      ∃ k < width, Closed (st.cpus i).cpuId (byteBehind m st i) (port + k) := by
  have hiopl : ¬ tf.tfEflags &&& 0x3000#32 = 0x3000#32 := by
    rw [htf.flags.2]
    decide
  have hinit := h.initialised
  rw [IoAllowed, or_iff_right hiopl, BitmapAllows]
  simp only [iomb_eq hinit hi hd, Nat.zero_add, ← bit_closed hinit hi hd, not_forall, exists_prop]

/-! ### The keyboard -/

/-- One CPU, with the array at the start of the kernel's data. -/
def oneCpu : Image := ⟨0xF0120000#32, fun _ => 0⟩

/-- The state of `oneCpu` after `mp_init` has found one processor. -/
def oneCpuBooted : Tables := mpInit 1 (trapInitPercpu oneCpu 0 (bss fun _ => seg16 0 0 0 0))

theorem reachable_oneCpuBooted : Reachable oneCpu oneCpuBooted := .mpInit _ 1 (by decide)

theorem oneCpuBooted_tr : oneCpuBooted.tr 0 = some (tssDesc oneCpu 0) :=
  trapInitPercpu_tr_self oneCpu 0 _

/-- Port `0x44` is one of those that are closed. -/
theorem ioDenied_iff_timer :
    ¬ IoAllowed Kernel.freshTrapframe.tfEflags (oneCpuBooted.byte oneCpu) (tssDesc oneCpu 0) 0x44 1 :=
  (ioDenied_iff reachable_oneCpuBooted (by decide) oneCpuBooted_tr
    (Kernel.ring3_fresh fun _ => False) 0x44 1).mpr ⟨0, by decide, by decide⟩

/-- **User environments can read the keyboard controller**: its data port is `0x60`. -/
theorem not_ioDenied :
    ¬ ∀ (m : Image) (st : Tables) (i : ℕ) (d : Segdesc) (tf : Trapframe) (port width : ℕ),
      Reachable m st → i < ncpus → st.tr i = some d → Ring3 (fun _ => False) tf →
      port < 2 ^ 16 → width ∈ [1, 2, 4] → ¬ IoAllowed tf.tfEflags (st.byte m) d port width := by
  intro hall
  refine hall oneCpu oneCpuBooted 0 (tssDesc oneCpu 0) Kernel.freshTrapframe 0x60 1
    reachable_oneCpuBooted (by decide) oneCpuBooted_tr (Kernel.ring3_fresh _) (by decide)
    (by decide) (Or.inr ?_)
  unfold BitmapAllows
  decide +kernel

end Io
end PmakeOs
