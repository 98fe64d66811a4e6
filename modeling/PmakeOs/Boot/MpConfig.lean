import PmakeOs.Kernel.Boot
import PmakeOs.Lib.Offset
import PmakeOs.Lib.Reading
import Mathlib.Data.List.Induction
import Mathlib.Logic.Function.Basic

/-!
# `kern/mpconfig.c`: finding the processors

`mp_init` takes the processors from a table of the firmware.  `mpconfig` has looked at the
signature, the version, and the sum of the bytes of the table, whose length is in its header.
The number of its entries is there too, and nothing compares the two: the loop of `mp_init`
counts entries.

* `SetsUp` is what the rest of the kernel relies on: `mp_init` has read inside of the table
  only, and `bootcpu` is one of the registered processors.
* The loop makes `bootcpu` the next element of `cpus` before it looks whether there is one.
  After `NCPU` processors that is the element behind the array.
* `Suitable` says of which tables `SetsUp` holds.

Memory is a function from kernel addresses to bytes.  The reads of the table by `mp_init`
itself are recorded.
-/

namespace PmakeOs
namespace Mpconfig

open Lib

/-- What is printed. -/
inductive Message where
  /-- "SMP: Default configurations not implemented" -/
  | default
  /-- "SMP: Incorrect MP configuration table signature" -/
  | signature
  /-- "SMP: Bad MP configuration checksum" -/
  | checksum
  /-- "SMP: Unsupported MP version %d" -/
  | version (v : BitVec 8)
  /-- "SMP: Bad MP configuration extended checksum" -/
  | extended
  /-- "SMP: too many CPUs, CPU %d disabled" -/
  | disabled (apicid : BitVec 8)
  /-- "mpinit: unknown config type %x" -/
  | unknownType (t : BitVec 8)
  /-- "SMP: configuration not found, SMP disabled" -/
  | notFound
  /-- "SMP: CPU %d found %d CPU(s)" -/
  | found (cpuId : BitVec 8) (ncpu : ℕ)
  /-- "SMP: Setting IMCR to switch from PIC mode to symmetric I/O mode" -/
  | imcr
  deriving DecidableEq

section

variable (m : Word → BitVec 8) (npages : ℕ)

/-! ## `mpconfig` -/

/-- `KADDR` -/
def kaddr (pa : Word) : Except Panic Word :=
  if npages ≤ pgnum pa then .error .kaddr else .ok (pa + kernbase)

/-- The `uint16_t` at `a`. -/
def half (a : Word) : BitVec 16 := m (a + 1#32) ++ m a

/-- The `uint32_t` at `a`. -/
def word (a : Word) : Word := m (a + 3#32) ++ m (a + 2#32) ++ m (a + 1#32) ++ m a

/-- `memcmp(a, s, n) == 0` -/
def sameBytes (a : Word) : List (BitVec 8) → Bool
  | [] => true
  | b :: bs => m a = b && sameBytes (a + 1#32) bs

def sum (addr : Word) : ℕ → BitVec 8
  | 0 => 0#8
  | len + 1 => sum addr len + m (addr + BitVec.ofNat 32 len)

/-- `sizeof(struct mp)` -/
def sizeofMp : ℕ := 16

/-- The loop of `mpsearch1`, up to `stop`. -/
def mpsearchLoop (stop : Word) : ℕ → Word → Option Word
  | 0, _ => none
  | rounds + 1, mp =>
    if mp < stop then
      if sameBytes m mp [0x5F#8, 0x4D#8, 0x50#8, 0x5F#8] && sum m mp sizeofMp = 0#8 then some mp
      else mpsearchLoop stop rounds (mp + BitVec.ofNat 32 sizeofMp)
    else none

def mpsearch1 (a : Word) (len : ℕ) : Except Panic (Option Word) := do
  let mp ← kaddr npages a
  let stop ← kaddr npages (a + BitVec.ofNat 32 len)
  return mpsearchLoop m stop (len / sizeofMp) mp

def mpsearch : Except Panic (Option Word) := do
  let bda ← kaddr npages (0x40#32 <<< 4)
  let ebda := half m (bda + 0x0E#32)
  let mp ← if ebda ≠ 0#16 then mpsearch1 m npages (ebda.setWidth 32 <<< 4) 1024
    else mpsearch1 m npages ((half m (bda + 0x13#32)).setWidth 32 * 1024#32 - 1024#32) 1024
  match mp with
  | some mp => return some mp
  | none => mpsearch1 m npages 0xF0000#32 0x10000

/-- What `mpconfig` returns. -/
inductive Found where
  | nothing (out : List Message)
  | table (mp conf : Word)
  deriving DecidableEq

/-- `conf->length` -/
def length (conf : Word) : ℕ := (half m (conf + 4#32)).toNat

def mpconfig : Except Panic Found := do
  match ← mpsearch m npages with
  | none => return .nothing []
  | some mp =>
    if word m (mp + 4#32) = 0#32 ∨ m (mp + 11#32) ≠ 0#8 then return .nothing [.default]
    else
      let conf ← kaddr npages (word m (mp + 4#32))
      let version := m (conf + 6#32)
      let xlength := (half m (conf + 40#32)).toNat
      let xchecksum := m (conf + 42#32)
      if ¬ sameBytes m conf [0x50#8, 0x43#8, 0x4D#8, 0x50#8] then return .nothing [.signature]
      else if sum m conf (length m conf) ≠ 0#8 then return .nothing [.checksum]
      else if version ≠ 1#8 ∧ version ≠ 4#8 then return .nothing [.version version]
      else if sum m (conf + BitVec.ofNat 32 (length m conf)) xlength + xchecksum ≠ 0#8 then
        return .nothing [.extended]
      else return .table mp conf

/-! ## `mp_init` -/

/-- The variables of the file, with the two fields of `struct CpuInfo` that `mp_init` sets.
`bootcpu` is an index of `cpus`, and `stores` the indices of all stores to `cpus`. -/
structure Smp where
  cpuId : ℕ → BitVec 8
  cpuStatus : ℕ → CpuStatus
  stores : List ℕ
  bootcpu : ℕ
  ismp : Bool
  ncpu : ℕ
  lapicaddr : Word
  out : List Message

/-- The variables before `mp_init`. -/
def Smp.bss : Smp := ⟨fun _ => 0#8, fun _ => .unused, [], 0, false, 0, 0#32, []⟩

/-- `MPPROC` -/
def mpproc : BitVec 8 := 0#8

/-- `MPPROC_BOOT` -/
def mpprocBoot : BitVec 8 := 2#8

def readHalf (a : Word) : Reading Word (BitVec 16) := do
  let b₀ ← Reading.read m a
  let b₁ ← Reading.read m (a + 1#32)
  return b₁ ++ b₀

def readWord (a : Word) : Reading Word Word := do
  let b₀ ← Reading.read m a
  let b₁ ← Reading.read m (a + 1#32)
  let b₂ ← Reading.read m (a + 2#32)
  let b₃ ← Reading.read m (a + 3#32)
  return b₃ ++ b₂ ++ b₁ ++ b₀

/-- The processor entry at `p`. -/
def processor (p : Word) (x : Smp) : Reading Word Smp := do
  let flags ← Reading.read m (p + 3#32)
  let x := if flags &&& mpprocBoot ≠ 0#8 then { x with bootcpu := x.ncpu } else x
  if x.ncpu < ncpu then
    return { x with
      cpuId := Function.update x.cpuId x.ncpu (BitVec.ofNat 8 x.ncpu)
      stores := x.stores ++ [x.ncpu]
      ncpu := x.ncpu + 1 }
  else
    let apicid ← Reading.read m (p + 1#32)
    return { x with out := x.out ++ [.disabled apicid] }

/-- The loop of `mp_init`, for a number of entries from `p` on. -/
def entries : ℕ → Word → Smp → Reading Word Smp
  | 0, _, x => return x
  | n + 1, p, x => do
    let t ← Reading.read m p
    if t = mpproc then
      let x ← processor m p x
      entries n (p + 20#32) x
    else if t = 1#8 ∨ t = 2#8 ∨ t = 3#8 ∨ t = 4#8 then entries n (p + 8#32) x
    else return { x with ismp := false, out := x.out ++ [.unknownType t] }

/-- `bootcpu->cpu_status = CPU_STARTED` -/
def markBoot (x : Smp) : Smp :=
  { x with cpuStatus := Function.update x.cpuStatus x.bootcpu .started
           stores := x.stores ++ [x.bootcpu] }

/-- What follows the loop.  `mp->imcrp` is not in the table. -/
def finish (imcrp : BitVec 8) (x : Smp) : Smp :=
  let x := markBoot x
  if ¬ x.ismp then { x with ncpu := 1, lapicaddr := 0#32, out := x.out ++ [.notFound] }
  else
    let x := { x with out := x.out ++ [.found (x.cpuId x.bootcpu) x.ncpu] }
    if imcrp ≠ 0#8 then { x with out := x.out ++ [.imcr] } else x

/-- `mp_init` with the table `conf`.  The loop does not write to memory that it reads, so
`conf->entry` is read once. -/
def mpInitWith (mp conf : Word) : Reading Word Smp := do
  let lapicaddr ← readWord m (conf + 36#32)
  let n ← readHalf m (conf + 34#32)
  let x ← entries m n.toNat (conf + 44#32) { Smp.bss with ismp := true, lapicaddr := lapicaddr }
  return finish (m (mp + 12#32)) x

def mpInit : Except Panic (Reading Word Smp) := do
  match ← mpconfig m npages with
  | .nothing out => return pure { Smp.bss with out := out }
  | .table mp conf => return mpInitWith m mp conf

end

/-! ## What a table should be -/

/-- An entry of a table, with two fields that processor entries have. -/
structure Entry where
  off : ℕ
  type : BitVec 8
  apicid : BitVec 8
  flags : BitVec 8

/-- A processor. -/
def Entry.Proc (e : Entry) : Prop := e.type = mpproc

/-- It is flagged as the one that boots. -/
def Entry.Boot (e : Entry) : Prop := e.flags &&& mpprocBoot ≠ 0#8

/-- The type is in the specification. -/
def Entry.Known (e : Entry) : Prop :=
  e.Proc ∨ e.type = 1#8 ∨ e.type = 2#8 ∨ e.type = 3#8 ∨ e.type = 4#8

instance (e : Entry) : Decidable e.Proc := inferInstanceAs (Decidable (_ = _))
instance (e : Entry) : Decidable e.Boot := inferInstanceAs (Decidable (_ ≠ _))
instance (e : Entry) : Decidable e.Known := inferInstanceAs (Decidable (_ ∨ _))

section

variable (m : Word → BitVec 8) (conf : Word)

/-- The entry at an offset from the start of the table. -/
def entryAt (off : ℕ) : Entry :=
  let p := conf + BitVec.ofNat 32 off
  ⟨off, m p, m (p + 1#32), m (p + 3#32)⟩

/-- `n` entries from an offset on, up to the first of which the type is not known. -/
def entriesFrom : ℕ → ℕ → List Entry
  | 0, _ => []
  | n + 1, off =>
    let e := entryAt m conf off
    if e.Proc then e :: entriesFrom n (off + 20)
    else if e.Known then e :: entriesFrom n (off + 8)
    else [e]

/-- The entries of the table. -/
def tableEntries : List Entry := entriesFrom m conf (half m (conf + 34#32)).toNat 44

/-- The processors among some entries. -/
def procs (l : List Entry) : List Entry := l.filter (·.Proc)

/-- The address is in the table, as long as its header says it is. -/
def InTable (a : Word) : Prop := (a - conf).toNat < length m conf

/-- What the kernel needs of `mp_init`. -/
def SetsUp (mp : Word) : Prop :=
  ∃ x, Reads (InTable m conf) (mpInitWith m mp conf) x ∧ x.ncpu ≤ ncpu ∧ x.bootcpu < x.ncpu ∧
    (x.ismp = false → x.bootcpu = 0) ∧ ∀ i ∈ x.stores, i < ncpu

/-- Tables with which `mp_init` does what the kernel needs. -/
structure Suitable : Prop where
  /-- The table has a header up to `lapicaddr`. -/
  header : 40 ≤ length m conf
  /-- Every entry begins in the table, and a processor entry has its flags there. -/
  inside : ∀ e ∈ tableEntries m conf,
    e.off < length m conf ∧ (e.Proc → e.off + 3 < length m conf)
  /-- There is a processor, and none behind the first `NCPU` is flagged. -/
  known : (∀ e ∈ tableEntries m conf, e.Known) → procs (tableEntries m conf) ≠ [] ∧
    ∀ e ∈ (procs (tableEntries m conf)).drop ncpu, ¬ e.Boot
  /-- If `mp_init` falls back to one processor, none but the first is flagged. -/
  unknown : (∃ e ∈ tableEntries m conf, ¬ e.Known) →
    ∀ e ∈ (procs (tableEntries m conf)).drop 1, ¬ e.Boot

end

variable {m : Word → BitVec 8} {conf mp : Word} {npages n off k : ℕ} {x y : Smp} {e : Entry}
  {l : List Entry} {S : Word → Prop}

/-! ## The loop -/

/-- What `processor` makes of the variables. -/
def Entry.register (e : Entry) (x : Smp) : Smp :=
  let x := if e.Boot then { x with bootcpu := x.ncpu } else x
  if x.ncpu < ncpu then
    { x with
      cpuId := Function.update x.cpuId x.ncpu (BitVec.ofNat 8 x.ncpu)
      stores := x.stores ++ [x.ncpu]
      ncpu := x.ncpu + 1 }
  else { x with out := x.out ++ [.disabled e.apicid] }

/-- One round of the loop. -/
def step (x : Smp) (e : Entry) : Smp :=
  if e.Proc then e.register x
  else if e.Known then x
  else { x with ismp := false, out := x.out ++ [.unknownType e.type] }

theorem reads_processor (off : ℕ) (x : Smp)
    (h₁ : S (conf + BitVec.ofNat 32 off + 1#32)) (h₃ : S (conf + BitVec.ofNat 32 off + 3#32)) :
    Reads S (processor m (conf + BitVec.ofNat 32 off) x) ((entryAt m conf off).register x) := by
  unfold processor Entry.register
  refine Reads.bind (.read m h₃) ?_
  dsimp only
  generalize hx : (if m (conf + BitVec.ofNat 32 off + 3#32) &&& mpprocBoot ≠ 0#8 then
    { x with bootcpu := x.ncpu } else x) = x'
  have hx' : (if (entryAt m conf off).Boot then { x with bootcpu := x.ncpu } else x) = x' := hx
  rw [hx']
  by_cases hlt : x'.ncpu < ncpu
  · rw [if_pos hlt, if_pos hlt]
    exact .pure _
  · rw [if_neg hlt, if_neg hlt]
    exact Reads.bind (.read m h₁) (.pure _)

theorem of_reads_processor {p : Word} (h : Reads S (processor m p x) y) : S (p + 3#32) := by
  obtain ⟨_, hread, -⟩ := Reads.of_bind h
  exact hread.of_read

theorem add_ofNat (conf : Word) (off k : ℕ) : conf + BitVec.ofNat 32 off + BitVec.ofNat 32 k =
    conf + BitVec.ofNat 32 (off + k) := by
  rw [BitVec.add_assoc, BitVec.ofNat_add]

/-- The types of the other entries. -/
theorem known_iff (hproc : ¬ (entryAt m conf off).Proc) : (entryAt m conf off).Known ↔
    let t := m (conf + BitVec.ofNat 32 off)
    t = 1#8 ∨ t = 2#8 ∨ t = 3#8 ∨ t = 4#8 :=
  ⟨fun h => h.resolve_left hproc, Or.inr⟩

/-- **The loop reads** the type of each entry, and the flags of the processors. -/
theorem reads_entries (h : ∀ e ∈ entriesFrom m conf n off, S (conf + BitVec.ofNat 32 e.off) ∧
    (e.Proc → S (conf + BitVec.ofNat 32 e.off + 1#32) ∧
      S (conf + BitVec.ofNat 32 e.off + 3#32))) (x : Smp) :
    Reads S (entries m n (conf + BitVec.ofNat 32 off) x)
      ((entriesFrom m conf n off).foldl step x) := by
  induction n generalizing off x with
  | zero => exact .pure x
  | succ n ih =>
    rw [entriesFrom] at h ⊢
    rw [entries]
    by_cases hproc : (entryAt m conf off).Proc
    · rw [if_pos hproc] at h ⊢
      have hhead := h _ List.mem_cons_self
      obtain ⟨h₁, h₃⟩ := hhead.2 hproc
      refine Reads.bind (.read m hhead.1) ?_
      have htype : m (conf + BitVec.ofNat 32 off) = mpproc := hproc
      rw [if_pos htype]
      refine Reads.bind (reads_processor off x h₁ h₃) ?_
      rw [add_ofNat conf off 20, List.foldl_cons, step, if_pos hproc]
      exact ih (fun e he => h e (List.mem_cons_of_mem _ he)) _
    · rw [if_neg hproc] at h ⊢
      have htype : ¬ m (conf + BitVec.ofNat 32 off) = mpproc := hproc
      by_cases hknown : (entryAt m conf off).Known
      · rw [if_pos hknown] at h ⊢
        refine Reads.bind (.read m (h _ List.mem_cons_self).1) ?_
        rw [if_neg htype, if_pos ((known_iff hproc).mp hknown), add_ofNat conf off 8,
          List.foldl_cons, step, if_neg hproc, if_pos hknown]
        exact ih (fun e he => h e (List.mem_cons_of_mem _ he)) _
      · rw [if_neg hknown] at h ⊢
        refine Reads.bind (.read m (h _ List.mem_cons_self).1) ?_
        rw [if_neg htype, if_neg (mt (known_iff hproc).mpr hknown), List.foldl_cons, step,
          if_neg hproc, if_neg hknown]
        exact .pure _

theorem of_reads_entries (h : Reads S (entries m n (conf + BitVec.ofNat 32 off) x) y) :
    ∀ e ∈ entriesFrom m conf n off, S (conf + BitVec.ofNat 32 e.off) ∧
      (e.Proc → S (conf + BitVec.ofNat 32 e.off + 3#32)) := by
  induction n generalizing off x with
  | zero => exact fun e he => absurd he List.not_mem_nil
  | succ n ih =>
    rw [entries] at h
    obtain ⟨t, hread, h⟩ := Reads.of_bind h
    have htype := hread.of_read
    obtain rfl := hread.unique (S := S) (.read m htype)
    rw [entriesFrom]
    by_cases hproc : (entryAt m conf off).Proc
    · have heq : m (conf + BitVec.ofNat 32 off) = mpproc := hproc
      rw [if_pos heq] at h
      obtain ⟨x', hx', h⟩ := Reads.of_bind h
      rw [add_ofNat conf off 20] at h
      rw [if_pos hproc, List.forall_mem_cons]
      exact ⟨⟨htype, fun _ => of_reads_processor hx'⟩, ih h⟩
    · have hne : ¬ m (conf + BitVec.ofNat 32 off) = mpproc := hproc
      rw [if_neg hne] at h
      rw [if_neg hproc]
      have hhead : S (conf + BitVec.ofNat 32 (entryAt m conf off).off) ∧
          ((entryAt m conf off).Proc → S (conf + BitVec.ofNat 32 (entryAt m conf off).off + 3#32)) :=
        ⟨htype, fun h0 => absurd h0 hproc⟩
      by_cases hknown : (entryAt m conf off).Known
      · rw [if_pos ((known_iff hproc).mp hknown), add_ofNat conf off 8] at h
        rw [if_pos hknown, List.forall_mem_cons]
        exact ⟨hhead, ih h⟩
      · rw [if_neg hknown, List.forall_mem_singleton]
        exact hhead

/-! ## The processors -/

/-- The variables after some entries. -/
structure Registered (l : List Entry) (x : Smp) : Prop where
  ncpu_eq : x.ncpu = min (procs l).length ncpu
  bootcpu_lt_iff : ∀ k, 0 < k → k ≤ ncpu → (x.bootcpu < k ↔ ∀ e ∈ (procs l).drop k, ¬ e.Boot)
  bootcpu_lt : procs l ≠ [] → x.bootcpu < (procs l).length
  stores_lt : ∀ i ∈ x.stores, i < ncpu
  ismp_iff : x.ismp = true ↔ ∀ e ∈ l, e.Known

theorem procs_append_of_proc (l : List Entry) (h : e.Proc) : procs (l ++ [e]) = procs l ++ [e] := by
  rw [procs, List.filter_append, List.filter_cons_of_pos (by simpa using h), List.filter_nil]
  rfl

theorem procs_append_of_not_proc (l : List Entry) (h : ¬ e.Proc) : procs (l ++ [e]) = procs l := by
  rw [procs, List.filter_append, List.filter_cons_of_neg (by simpa using h), List.filter_nil]
  exact List.append_nil _

theorem forall_drop_append (l : List Entry) (e : Entry) (k : ℕ) :
    (∀ e' ∈ (l ++ [e]).drop k, ¬ e'.Boot) ↔
      (∀ e' ∈ l.drop k, ¬ e'.Boot) ∧ (k ≤ l.length → ¬ e.Boot) := by
  rw [List.drop_append, List.forall_mem_append]
  refine and_congr Iff.rfl ?_
  rcases Nat.lt_or_ge l.length k with hlt | hle
  · rw [List.drop_eq_nil_of_le (show [e].length ≤ k - l.length by
      rw [List.length_singleton]
      omega)]
    exact ⟨fun _ h => absurd h (by omega), fun _ e' he' => absurd he' List.not_mem_nil⟩
  · rw [show k - l.length = 0 by omega, List.drop_zero, List.forall_mem_singleton]
    exact ⟨fun h _ => h, fun h => h hle⟩

/-- What registering a processor does to each variable. -/
theorem register_fields (e : Entry) (x : Smp) :
    (e.register x).ismp = x.ismp ∧
      (e.register x).bootcpu = (if e.Boot then x.ncpu else x.bootcpu) ∧
      (e.register x).ncpu = (if x.ncpu < ncpu then x.ncpu + 1 else x.ncpu) ∧
      (e.register x).stores = if x.ncpu < ncpu then x.stores ++ [x.ncpu] else x.stores := by
  unfold Entry.register
  by_cases hboot : e.Boot
  · by_cases hroom : x.ncpu < ncpu
    · simp [hboot, hroom]
    · simp [hboot, hroom]
  · by_cases hroom : x.ncpu < ncpu
    · simp [hboot, hroom]
    · simp [hboot, hroom]

/-- **One more processor.** -/
theorem Registered.register (h : Registered l x) (he : e.Proc) :
    Registered (l ++ [e]) (e.register x) := by
  obtain ⟨hn, hboot, hlt, hstores, hismp⟩ := h
  obtain ⟨hismp', hboot', hn', hstores'⟩ := register_fields e x
  constructor
  · rw [hn', hn, procs_append_of_proc l he, List.length_append, List.length_singleton]
    split
    · omega
    · omega
  · intro k hk hkn
    rw [hboot', procs_append_of_proc l he, forall_drop_append]
    by_cases hf : e.Boot
    · -- the index is the number of processors so far
      rw [if_pos hf, hn]
      rcases Nat.lt_or_ge (procs l).length k with hlt' | hle
      · rw [List.drop_eq_nil_of_le hlt'.le]
        exact ⟨fun _ => ⟨fun e' he' => absurd he' List.not_mem_nil, fun h => absurd h (by omega)⟩,
          fun _ => by omega⟩
      · exact ⟨fun h => absurd h (by omega), fun h => absurd hf (h.2 hle)⟩
    · rw [if_neg hf, hboot k hk hkn]
      exact ⟨fun h => ⟨h, fun _ => hf⟩, And.left⟩
  · intro _
    rw [hboot', procs_append_of_proc l he, List.length_append, List.length_singleton]
    split
    · rw [hn]
      omega
    · by_cases hnil : procs l = []
      · have hzero := (hboot 1 (by decide) (by decide)).mpr
          (by rw [hnil]; exact fun e' he' => absurd he' List.not_mem_nil)
        omega
      · have hlt := hlt hnil
        omega
  · rw [hstores']
    split
    · rename_i hroom
      rw [List.forall_mem_append, List.forall_mem_singleton]
      exact ⟨hstores, hroom⟩
    · exact hstores
  · rw [hismp', hismp, List.forall_mem_append, List.forall_mem_singleton]
    exact ⟨fun h => ⟨h, Or.inl he⟩, And.left⟩

/-- **One more entry.** -/
theorem Registered.step (h : Registered l x) (e : Entry) : Registered (l ++ [e]) (step x e) := by
  unfold Mpconfig.step
  by_cases hproc : e.Proc
  · rw [if_pos hproc]
    exact h.register hproc
  · obtain ⟨hn, hboot, hlt, hstores, hismp⟩ := h
    rw [← procs_append_of_not_proc l hproc] at hn hlt
    simp only [← procs_append_of_not_proc l hproc] at hboot
    rw [if_neg hproc]
    by_cases hknown : e.Known
    · rw [if_pos hknown]
      refine ⟨hn, hboot, hlt, hstores, ?_⟩
      rw [hismp, List.forall_mem_append, List.forall_mem_singleton]
      exact ⟨fun h => ⟨h, hknown⟩, And.left⟩
    · rw [if_neg hknown]
      refine ⟨hn, hboot, hlt, hstores, ?_⟩
      rw [List.forall_mem_append, List.forall_mem_singleton]
      exact ⟨fun h => absurd h Bool.false_ne_true, fun h => absurd h.2 hknown⟩

/-- The variables at the start of the loop. -/
def start (lapicaddr : Word) : Smp := { Smp.bss with ismp := true, lapicaddr := lapicaddr }

theorem registered_foldl (l : List Entry) (lapicaddr : Word) :
    Registered l (l.foldl step (start lapicaddr)) := by
  induction l using List.reverseRecOn with
  | nil =>
    refine ⟨rfl, fun k hk _ => ⟨fun _ e he => absurd he ?_, fun _ => hk⟩, fun h => absurd rfl h,
      fun i hi => absurd hi List.not_mem_nil, fun _ e he => absurd he List.not_mem_nil, fun _ => rfl⟩
    rw [procs, List.filter_nil, List.drop_nil]
    exact List.not_mem_nil
  | append_singleton l e ih =>
    rw [List.foldl_append, List.foldl_cons, List.foldl_nil]
    exact ih.step e

/-! ## The whole function -/

theorem inTable_iff (hk : k < 2 ^ 32) :
    InTable m conf (conf + BitVec.ofNat 32 k) ↔ k < length m conf := by
  rw [InTable, toNat_add_ofNat_sub conf hk]

theorem off_of_mem (he : e ∈ entriesFrom m conf n off) : off ≤ e.off ∧ e.off ≤ off + 20 * n := by
  induction n generalizing off with
  | zero => exact absurd he List.not_mem_nil
  | succ n ih =>
    have hhead : off ≤ (entryAt m conf off).off ∧
        (entryAt m conf off).off ≤ off + 20 * (n + 1) :=
      ⟨Nat.le_refl off, Nat.le_add_right off _⟩
    rw [entriesFrom] at he
    split at he
    · rcases List.mem_cons.mp he with rfl | he
      · exact hhead
      · have := ih he
        omega
    · split at he
      · rcases List.mem_cons.mp he with rfl | he
        · exact hhead
        · have := ih he
          omega
      · rw [List.mem_singleton.mp he]
        exact hhead

theorem off_lt (he : e ∈ tableEntries m conf) : e.off + 3 < 2 ^ 32 := by
  have hoff := off_of_mem he
  have hn := (half m (conf + 34#32)).isLt
  omega

/-- What `mp_init` makes of a table. -/
def result (m : Word → BitVec 8) (mp conf : Word) : Smp :=
  finish (m (mp + 12#32)) ((tableEntries m conf).foldl step (start (word m (conf + 36#32))))

theorem reads_mpInitWith (mp : Word) (hS : ∀ k, 34 ≤ k → k < 40 → S (conf + BitVec.ofNat 32 k))
    (h : ∀ e ∈ tableEntries m conf, S (conf + BitVec.ofNat 32 e.off) ∧
      (e.Proc → S (conf + BitVec.ofNat 32 e.off + 1#32) ∧
        S (conf + BitVec.ofNat 32 e.off + 3#32))) :
    Reads S (mpInitWith m mp conf) (result m mp conf) := by
  have hword : Reads S (readWord m (conf + 36#32)) (word m (conf + 36#32)) := by
    refine Reads.bind (.read m (hS 36 (by decide) (by decide))) ?_
    refine Reads.bind (.read m ?_) (Reads.bind (.read m ?_) (Reads.bind (.read m ?_) (.pure _)))
    · rw [add_ofNat conf 36 1]
      exact hS 37 (by decide) (by decide)
    · rw [add_ofNat conf 36 2]
      exact hS 38 (by decide) (by decide)
    · rw [add_ofNat conf 36 3]
      exact hS 39 (by decide) (by decide)
  have hhalf : Reads S (readHalf m (conf + 34#32)) (half m (conf + 34#32)) := by
    refine Reads.bind (.read m (hS 34 (by decide) (by decide)))
      (Reads.bind (.read m ?_) (.pure _))
    rw [add_ofNat conf 34 1]
    exact hS 35 (by decide) (by decide)
  exact hword.bind (hhalf.bind ((reads_entries h _).bind (.pure _)))

theorem of_reads_mpInitWith (h : Reads S (mpInitWith m mp conf) x) :
    S (conf + BitVec.ofNat 32 39) ∧ ∀ e ∈ tableEntries m conf, S (conf + BitVec.ofNat 32 e.off) ∧
      (e.Proc → S (conf + BitVec.ofNat 32 e.off + 3#32)) := by
  obtain ⟨_, hword, h⟩ := Reads.of_bind h
  obtain ⟨c, hhalf, h⟩ := Reads.of_bind h
  obtain ⟨_, hentries, -⟩ := Reads.of_bind h
  have hcount : Reads (fun _ => True) (readHalf m (conf + 34#32)) (half m (conf + 34#32)) :=
    Reads.bind (.read m trivial) (Reads.bind (.read m trivial) (.pure _))
  obtain rfl := hhalf.unique hcount
  obtain ⟨_, -, hword⟩ := Reads.of_bind hword
  obtain ⟨_, -, hword⟩ := Reads.of_bind hword
  obtain ⟨_, -, hword⟩ := Reads.of_bind hword
  obtain ⟨_, hlast, -⟩ := Reads.of_bind hword
  have hlast := hlast.of_read
  rw [add_ofNat conf 36 3] at hlast
  exact ⟨hlast, of_reads_entries hentries⟩

/-- What `mp_init` leaves in the variables that `SetsUp` reads. -/
theorem result_fields (m : Word → BitVec 8) (mp conf : Word) :
    ∃ x, Registered (tableEntries m conf) x ∧ (result m mp conf).bootcpu = x.bootcpu ∧
      (result m mp conf).ismp = x.ismp ∧
      (result m mp conf).ncpu = (if x.ismp = true then x.ncpu else 1) ∧
      (result m mp conf).stores = x.stores ++ [x.bootcpu] := by
  refine ⟨_, registered_foldl _ (word m (conf + 36#32)), ?_⟩
  unfold result
  generalize (tableEntries m conf).foldl step (start (word m (conf + 36#32))) = x
  unfold finish markBoot
  dsimp only
  by_cases hismp : x.ismp = true
  · rw [if_neg (not_not.mpr hismp), if_pos hismp]
    split
    · exact ⟨rfl, rfl, rfl, rfl⟩
    · exact ⟨rfl, rfl, rfl, rfl⟩
  · rw [if_pos hismp, if_neg hismp]
    exact ⟨rfl, rfl, rfl, rfl⟩

theorem ncpu_result_le (m : Word → BitVec 8) (mp conf : Word) : (result m mp conf).ncpu ≤ ncpu := by
  obtain ⟨x, hx, -, -, hn, -⟩ := result_fields m mp conf
  rw [hn, hx.ncpu_eq]
  split
  · exact Nat.min_le_right _ _
  · decide

/-- Which tables are read inside of their length. -/
theorem reads_inTable_iff (m : Word → BitVec 8) (mp conf : Word) :
    Reads (InTable m conf) (mpInitWith m mp conf) (result m mp conf) ↔
      40 ≤ length m conf ∧ ∀ e ∈ tableEntries m conf,
        e.off < length m conf ∧ (e.Proc → e.off + 3 < length m conf) := by
  constructor
  · intro h
    obtain ⟨hlast, hall⟩ := of_reads_mpInitWith h
    refine ⟨(inTable_iff (by decide)).mp hlast, fun e he => ?_⟩
    have hoff := off_lt he
    obtain ⟨htype, hflags⟩ := hall e he
    refine ⟨(inTable_iff (by omega)).mp htype, fun hproc => ?_⟩
    have hflags := hflags hproc
    rw [add_ofNat conf e.off 3] at hflags
    exact (inTable_iff hoff).mp hflags
  · rintro ⟨hheader, hall⟩
    refine reads_mpInitWith mp (fun k _ hk => (inTable_iff (by omega)).mpr (by omega))
      fun e he => ?_
    have hoff := off_lt he
    obtain ⟨htype, hflags⟩ := hall e he
    refine ⟨(inTable_iff (by omega)).mpr htype, fun hproc => ?_⟩
    have hflags := hflags hproc
    rw [add_ofNat conf e.off 1, add_ofNat conf e.off 3]
    exact ⟨(inTable_iff (by omega)).mpr (by omega), (inTable_iff hoff).mpr hflags⟩

/-- **Which processor boots.** -/
theorem bootcpu_result_iff (m : Word → BitVec 8) (mp conf : Word) :
    ((result m mp conf).bootcpu < (result m mp conf).ncpu ∧
        ((result m mp conf).ismp = false → (result m mp conf).bootcpu = 0) ∧
        ∀ i ∈ (result m mp conf).stores, i < ncpu) ↔
      ((∀ e ∈ tableEntries m conf, e.Known) → procs (tableEntries m conf) ≠ [] ∧
        ∀ e ∈ (procs (tableEntries m conf)).drop ncpu, ¬ e.Boot) ∧
      ((∃ e ∈ tableEntries m conf, ¬ e.Known) →
        ∀ e ∈ (procs (tableEntries m conf)).drop 1, ¬ e.Boot) := by
  obtain ⟨x, hx, hboot, hismp, hn, hstores⟩ := result_fields m mp conf
  rw [hboot, hismp, hn, hstores, List.forall_mem_append, List.forall_mem_singleton]
  have height := hx.bootcpu_lt_iff ncpu (by decide) le_rfl
  have hone := hx.bootcpu_lt_iff 1 (by decide) (by decide)
  have hlen := hx.ncpu_eq
  by_cases hknown : ∀ e ∈ tableEntries m conf, e.Known
  · have hismp' := hx.ismp_iff.mpr hknown
    rw [if_pos hismp', hismp', hlen]
    constructor
    · rintro ⟨hlt, -, -⟩
      refine ⟨fun _ => ⟨fun hnil => ?_, height.mp (by omega)⟩, ?_⟩
      · rw [hnil, List.length_nil] at hlt
        omega
      · rintro ⟨e, he, hnot⟩
        exact absurd (hknown e he) hnot
    · rintro ⟨hgood, -⟩
      obtain ⟨hne, hdrop⟩ := hgood hknown
      have hlt := hx.bootcpu_lt hne
      have hlt' := height.mpr hdrop
      exact ⟨by omega, fun h => absurd h.symm Bool.false_ne_true, hx.stores_lt, hlt'⟩
  · have hismp' : x.ismp = false := Bool.eq_false_iff.mpr fun h => hknown (hx.ismp_iff.mp h)
    have hunknown : ∃ e ∈ tableEntries m conf, ¬ e.Known := by
      push Not at hknown
      exact hknown
    rw [hismp', if_neg Bool.false_ne_true]
    constructor
    · rintro ⟨hlt, -, -⟩
      exact ⟨fun h => absurd h hknown, fun _ => hone.mp hlt⟩
    · rintro ⟨-, hdrop⟩
      have hlt := hone.mpr (hdrop hunknown)
      have heq : ncpu = 8 := rfl
      exact ⟨hlt, fun _ => by omega, hx.stores_lt, by omega⟩

theorem setsUp_iff (m : Word → BitVec 8) (mp conf : Word) :
    SetsUp m conf mp ↔ Suitable m conf := by
  constructor
  · rintro ⟨x, hx, -, hprops⟩
    have hrun : Reads (fun _ => True) (mpInitWith m mp conf) (result m mp conf) :=
      reads_mpInitWith mp (fun _ _ _ => trivial) fun _ _ => ⟨trivial, fun _ => ⟨trivial, trivial⟩⟩
    obtain rfl := hx.unique hrun
    obtain ⟨hheader, hinside⟩ := (reads_inTable_iff m mp conf).mp hx
    obtain ⟨hknown, hunknown⟩ := (bootcpu_result_iff m mp conf).mp hprops
    exact ⟨hheader, hinside, hknown, hunknown⟩
  · rintro ⟨hheader, hinside, hknown, hunknown⟩
    exact ⟨result m mp conf, (reads_inTable_iff m mp conf).mpr ⟨hheader, hinside⟩,
      ncpu_result_le m mp conf, (bootcpu_result_iff m mp conf).mpr ⟨hknown, hunknown⟩⟩

/-- **With which tables `mp_init` sets up the processors.**  It ends with every table, and
with at most `NCPU` processors. -/
theorem mpInit_setsUp_iff (h : mpconfig m npages = .ok (.table mp conf)) :
    mpInit m npages = .ok (mpInitWith m mp conf) ∧
      (∃ x keys, (mpInitWith m mp conf).run = some (x, keys) ∧ x.ncpu ≤ ncpu) ∧
      (SetsUp m conf mp ↔ Suitable m conf) := by
  refine ⟨?_, ?_, setsUp_iff m mp conf⟩
  · show (mpconfig m npages >>= _) = _
    rw [h]
    rfl
  · have hrun : Reads (fun _ => True) (mpInitWith m mp conf) (result m mp conf) :=
      reads_mpInitWith mp (fun _ _ _ => trivial) fun _ _ => ⟨trivial, fun _ => ⟨trivial, trivial⟩⟩
    obtain ⟨keys, hkeys, -⟩ := hrun
    exact ⟨_, keys, hkeys, ncpu_result_le m mp conf⟩

/-- Memory with a pointer structure at the start of the extended BIOS data, and a table. -/
def firmware (table : List (BitVec 8)) (a : Word) : BitVec 8 :=
  if a = 0xF000040E#32 then 0xC0#8
  else if a = 0xF000040F#32 then 0x9F#8
  else if a < 0xF009FD00#32 then
    [0x5F#8, 0x4D#8, 0x50#8, 0x5F#8, 0x00#8, 0xFD#8, 0x09#8, 0x00#8, 0x01#8, 0x04#8, 0x9A#8].getD
      (a - 0xF009FC00#32).toNat 0#8
  else table.getD (a - 0xF009FD00#32).toNat 0#8

/-- The header of a table, as long as the number of its processors says. -/
def tableHeader (processors checksum : BitVec 8) : List (BitVec 8) :=
  [0x50#8, 0x43#8, 0x4D#8, 0x50#8, 44#8 + processors * 20#8, 0#8, 4#8, checksum] ++
    List.replicate 26 0#8 ++ [processors, 0#8, 0#8, 0#8, 0xE0#8, 0xFE#8, 0#8, 0#8, 0#8, 0#8]

/-- A processor entry. -/
def processorEntry (apicid flags : BitVec 8) : List (BitVec 8) :=
  [mpproc, apicid, 0x14#8, flags] ++ List.replicate 16 0#8

/-- One processor, which boots. -/
def oneProcessor : Word → BitVec 8 :=
  firmware (tableHeader 1#8 0x96#8 ++ processorEntry 0#8 3#8)

/-- Nine processors, of which the last one boots. -/
def nineProcessors : Word → BitVec 8 :=
  firmware (tableHeader 9#8 0x22#8 ++
    (List.range 8).flatMap (fun i => processorEntry (.ofNat 8 i) 1#8) ++
    processorEntry 8#8 3#8)

theorem mpInit_setsUp_iff_oneProcessor :
    mpconfig oneProcessor 16384 = .ok (.table 0xF009FC00#32 0xF009FD00#32) ∧
      SetsUp oneProcessor 0xF009FD00#32 0xF009FC00#32 := by
  have h : mpconfig oneProcessor 16384 = .ok (.table 0xF009FC00#32 0xF009FD00#32) := by
    decide +kernel
  refine ⟨h, (mpInit_setsUp_iff h).2.2.mpr ⟨?_, ?_, ?_, ?_⟩⟩
  · decide +kernel
  · decide +kernel
  · decide +kernel
  · decide +kernel

/-- The last of nine processors boots, and `bootcpu` is the element behind the array. -/
theorem not_mpInit_setsUp : ¬ ∀ (m : Word → BitVec 8) (npages : ℕ) (mp conf : Word),
    mpconfig m npages = .ok (.table mp conf) → SetsUp m conf mp := by
  intro h
  have haccept : mpconfig nineProcessors 16384 = .ok (.table 0xF009FC00#32 0xF009FD00#32) := by
    decide +kernel
  have hknown : ∀ e ∈ tableEntries nineProcessors 0xF009FD00#32, e.Known := by decide +kernel
  have hflagged : ∃ e ∈ (procs (tableEntries nineProcessors 0xF009FD00#32)).drop ncpu, e.Boot := by
    decide +kernel
  obtain ⟨e, he, hboot⟩ := hflagged
  exact (((setsUp_iff _ _ _).mp (h _ _ _ _ haccept)).known hknown).2 e he hboot

end Mpconfig
end PmakeOs
