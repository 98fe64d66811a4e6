import PmakeOs.Lib.BlockCopy
import PmakeOs.Machine.Mmu
import Mathlib.Logic.Function.Iterate

/-!
# `lib/string.c`: `memmove`

There are two versions of `memmove`.  The one that is compiled copies with a string
instruction of the processor, words if both pointers and the length allow it and bytes
otherwise, and backwards if the destination begins inside the source.  The other is a pair of
loops in C.  Both leave the memory that a copy through a buffer would (`copied`), for ranges
that do not wrap around the address space.

The alignment of the pointers is tested after they have been moved to the end of the ranges in
the backward case.  With a length that is a multiple of four this makes no difference.
-/

namespace PmakeOs
namespace Strings

open Lib

/-- The memory, and the registers of the string instructions. -/
structure Cpu where
  mem : Word → BitVec 8
  edi : Word
  esi : Word
  ecx : Word
  df : Bool

/-- One round of `movsb` (`w = 1`) or `movsl` (`w = 4`). -/
def movs (w : ℕ) (c : Cpu) : Cpu :=
  { c with
    mem := blit c.mem c.edi c.esi w
    edi := if c.df then c.edi - BitVec.ofNat 32 w else c.edi + BitVec.ofNat 32 w
    esi := if c.df then c.esi - BitVec.ofNat 32 w else c.esi + BitVec.ofNat 32 w
    ecx := c.ecx - 1#32 }

/-- `rep movsb` and `rep movsl` -/
def repMovs (w : ℕ) (c : Cpu) : Cpu :=
  if c.ecx = 0#32 then c else repMovs w (movs w c)
termination_by c.ecx.toNat
decreasing_by
  rename_i h
  have hpos : c.ecx.toNat ≠ 0 := fun hz => h (BitVec.eq_of_toNat_eq hz)
  show (c.ecx - 1#32).toNat < c.ecx.toNat
  rw [toNat_sub_eq, show (1#32).toNat = 1 from rfl]
  split <;> omega

/-- `(int) p % 4 == 0` -/
abbrev Aligned (p : Word) : Prop := p.toInt.tmod 4 = 0

/-- `memmove`, as it is compiled: what it returns, and the state of the processor. -/
def memmove (dst src n : Word) (c : Cpu) : Word × Cpu :=
  if src < dst ∧ dst < src + n then
    let s := src + n
    let d := dst + n
    let c :=
      if Aligned s ∧ Aligned d ∧ n % 4#32 = 0#32 then
        repMovs 4 { c with df := true, edi := d - 4#32, esi := s - 4#32, ecx := n / 4#32 }
      else
        repMovs 1 { c with df := true, edi := d - 1#32, esi := s - 1#32, ecx := n }
    (dst, { c with df := false })
  else if Aligned src ∧ Aligned dst ∧ n % 4#32 = 0#32 then
    (dst, repMovs 4 { c with df := false, edi := dst, esi := src, ecx := n / 4#32 })
  else
    (dst, repMovs 1 { c with df := false, edi := dst, esi := src, ecx := n })

/-- `memcpy` -/
def memcpy (dst src n : Word) (c : Cpu) : Word × Cpu := memmove dst src n c

/-! ## The version in C -/

/-- `while (n-- > 0) *--d = *--s;` -/
def copyDown : ℕ → Word → Word → (Word → BitVec 8) → Word → BitVec 8
  | 0, _, _, mem => mem
  | n + 1, d, s, mem =>
    copyDown n (d - 1#32) (s - 1#32) (Function.update mem (d - 1#32) (mem (s - 1#32)))

/-- `while (n-- > 0) *d++ = *s++;` -/
def copyUp : ℕ → Word → Word → (Word → BitVec 8) → Word → BitVec 8
  | 0, _, _, mem => mem
  | n + 1, d, s, mem => copyUp n (d + 1#32) (s + 1#32) (Function.update mem d (mem s))

/-- `memmove` of the `#else` branch: the memory it leaves. -/
def memmoveC (dst src n : Word) (mem : Word → BitVec 8) : Word → BitVec 8 :=
  if src < dst ∧ dst < src + n then copyDown n.toNat (dst + n) (src + n) mem
  else copyUp n.toNat dst src mem

/-! ## The string instruction -/

theorem repMovs_eq (w : ℕ) {k : ℕ} {c : Cpu} (h : c.ecx.toNat = k) :
    repMovs w c = (movs w)^[k] c := by
  induction k generalizing c with
  | zero => rw [repMovs, if_pos (BitVec.eq_of_toNat_eq h), Function.iterate_zero, id]
  | succ k ih =>
    have hne : c.ecx ≠ 0#32 := by
      intro hz
      rw [hz] at h
      exact absurd h (Nat.succ_ne_zero k).symm
    rw [repMovs, if_neg hne, Function.iterate_succ_apply]
    refine ih ?_
    show (c.ecx - 1#32).toNat = k
    rw [toNat_sub_eq, show (1#32).toNat = 1 from rfl]
    split <;> omega

section

variable {dst src : Word} {n w : ℕ} {mem : Word → BitVec 8}

/-- The state after `k` rounds upwards. -/
structure Up (dst src : Word) (mem : Word → BitVec 8) (w k : ℕ) (c : Cpu) : Prop where
  mem : c.mem = copied mem dst src 0 (w * k)
  edi : c.edi = dst + BitVec.ofNat 32 (w * k)
  esi : c.esi = src + BitVec.ofNat 32 (w * k)
  df : c.df = false

/-- The state after `k` rounds downwards from the end of a block of `n` bytes. -/
structure Down (dst src : Word) (mem : Word → BitVec 8) (n w k : ℕ) (c : Cpu) : Prop where
  mem : c.mem = copied mem dst src (n - w * k) n
  edi : c.edi = dst + BitVec.ofNat 32 n - BitVec.ofNat 32 (w * (k + 1))
  esi : c.esi = src + BitVec.ofNat 32 n - BitVec.ofNat 32 (w * (k + 1))
  df : c.df = true

theorem add_ofNat_sub (a : Word) {m : ℕ} (h : m ≤ n) :
    a + BitVec.ofNat 32 n - BitVec.ofNat 32 m = a + BitVec.ofNat 32 (n - m) := by
  obtain ⟨j, rfl⟩ := Nat.exists_eq_add_of_le' h
  rw [Nat.add_sub_cancel, BitVec.ofNat_add, ← BitVec.add_assoc, BitVec.add_sub_cancel]

/-- One round upwards. -/
theorem Up.movs {k : ℕ} {c : Cpu} (h : Up dst src mem w k c) (hk : w * (k + 1) ≤ n)
    (hsrc : src.toNat + n ≤ 2 ^ 32)
    (hdir : dst.toNat ≤ src.toNat ∨ src.toNat + n ≤ dst.toNat) :
    Up dst src mem w (k + 1) (movs w c) := by
  have hmul : w * (k + 1) = w * k + w := Nat.mul_succ w k
  refine ⟨?_, ?_, ?_, h.df⟩
  · show blit c.mem c.edi c.esi w = _
    rw [h.mem, h.edi, h.esi]
    refine blit_copied mem dst src (by omega) (fun i hi hlt => ?_) fun i => ?_
    · exact unread_up hsrc hdir (by omega) hi
    · omega
  · show (if c.df then _ else _) = _
    rw [h.df, if_neg Bool.false_ne_true, h.edi, hmul, BitVec.ofNat_add, BitVec.add_assoc]
  · show (if c.df then _ else _) = _
    rw [h.df, if_neg Bool.false_ne_true, h.esi, hmul, BitVec.ofNat_add, BitVec.add_assoc]

/-- One round downwards. -/
theorem Down.movs {k : ℕ} {c : Cpu} (h : Down dst src mem n w k c) (hk : w * (k + 1) ≤ n)
    (hsrc : src.toNat + n ≤ 2 ^ 32) (hdst : dst.toNat + n ≤ 2 ^ 32)
    (hdir : src.toNat < dst.toNat) : Down dst src mem n w (k + 1) (movs w c) := by
  have hmul : w * (k + 1) = w * k + w := Nat.mul_succ w k
  have hnext (a : Word) : a - BitVec.ofNat 32 (w * (k + 1)) - BitVec.ofNat 32 w =
      a - BitVec.ofNat 32 (w * (k + 1 + 1)) := by
    rw [Nat.mul_succ w (k + 1), BitVec.ofNat_add, sub_add_eq_sub_sub]
  refine ⟨?_, ?_, ?_, h.df⟩
  · show blit c.mem c.edi c.esi w = _
    rw [h.mem, h.edi, h.esi, add_ofNat_sub dst hk, add_ofNat_sub src hk]
    refine blit_copied mem dst src (by omega) (fun i hi hlt => ?_) fun i => ?_
    · exact unread_down hsrc hdst hdir (by omega) (by omega)
    · omega
  · show (if c.df then _ else _) = _
    rw [h.df, if_pos rfl, h.edi, hnext]
  · show (if c.df then _ else _) = _
    rw [h.df, if_pos rfl, h.esi, hnext]

/-- **A run upwards** copies the block. -/
theorem Up.iterate {k : ℕ} {c : Cpu} (h : Up dst src mem w 0 c) (hk : w * k ≤ n)
    (hsrc : src.toNat + n ≤ 2 ^ 32)
    (hdir : dst.toNat ≤ src.toNat ∨ src.toNat + n ≤ dst.toNat) :
    Up dst src mem w k ((Strings.movs w)^[k] c) := by
  induction k with
  | zero => exact h
  | succ k ih =>
    rw [Function.iterate_succ_apply']
    exact (ih ((Nat.mul_le_mul_left w (Nat.le_succ k)).trans hk)).movs hk hsrc hdir

/-- **A run downwards** copies the block. -/
theorem Down.iterate {k : ℕ} {c : Cpu} (h : Down dst src mem n w 0 c) (hk : w * k ≤ n)
    (hsrc : src.toNat + n ≤ 2 ^ 32) (hdst : dst.toNat + n ≤ 2 ^ 32)
    (hdir : src.toNat < dst.toNat) : Down dst src mem n w k ((Strings.movs w)^[k] c) := by
  induction k with
  | zero => exact h
  | succ k ih =>
    rw [Function.iterate_succ_apply']
    exact (ih ((Nat.mul_le_mul_left w (Nat.le_succ k)).trans hk)).movs hk hsrc hdst hdir

end

/-! ## Both versions copy -/

section

variable {dst src n : Word}

/-- The test at the start of `memmove`. -/
theorem backward_iff (hsrc : src.toNat + n.toNat ≤ 2 ^ 32) (hdst : dst.toNat + n.toNat ≤ 2 ^ 32) :
    src < dst ∧ dst < src + n ↔ src.toNat < dst.toNat ∧ dst.toNat < src.toNat + n.toNat := by
  rw [BitVec.lt_def, BitVec.lt_def, BitVec.toNat_add]
  refine and_congr_right fun hlt => ?_
  -- a source that ends with the address space would have to end below the destination
  rw [Nat.mod_eq_of_lt (by omega)]

/-- Upwards, in words or in bytes. -/
theorem repMovs_up {w k : ℕ} (hk : w * k = n.toNat) {c : Cpu} (hdf : c.df = false)
    (hedi : c.edi = dst) (hesi : c.esi = src) (hecx : c.ecx.toNat = k)
    (hsrc : src.toNat + n.toNat ≤ 2 ^ 32)
    (hdir : dst.toNat ≤ src.toNat ∨ src.toNat + n.toNat ≤ dst.toNat) :
    (repMovs w c).mem = copied c.mem dst src 0 n.toNat ∧ (repMovs w c).df = false := by
  have hstart : Up dst src c.mem w 0 c := by
    refine ⟨(copied_of_le _ _ _ le_rfl).symm, ?_, ?_, hdf⟩
    · rw [hedi]
      exact (BitVec.add_zero dst).symm
    · rw [hesi]
      exact (BitVec.add_zero src).symm
  have hend := hstart.iterate hk.le hsrc hdir
  rw [← repMovs_eq w hecx] at hend
  exact ⟨by rw [hend.mem, hk], hend.df⟩

/-- Downwards, in words or in bytes. -/
theorem repMovs_down {w k : ℕ} (hk : w * k = n.toNat) {c : Cpu} (hdf : c.df = true)
    (hedi : c.edi = dst + n - BitVec.ofNat 32 w) (hesi : c.esi = src + n - BitVec.ofNat 32 w)
    (hecx : c.ecx.toNat = k) (hsrc : src.toNat + n.toNat ≤ 2 ^ 32)
    (hdst : dst.toNat + n.toNat ≤ 2 ^ 32) (hdir : src.toNat < dst.toNat) :
    (repMovs w c).mem = copied c.mem dst src 0 n.toNat := by
  have hn : BitVec.ofNat 32 n.toNat = n := by rw [BitVec.ofNat_toNat, BitVec.setWidth_eq]
  have hstart : Down dst src c.mem n.toNat w 0 c := by
    refine ⟨(copied_of_le _ _ _ (by omega)).symm, ?_, ?_, hdf⟩
    · rw [hedi, hn, Nat.zero_add, Nat.mul_one]
    · rw [hesi, hn, Nat.zero_add, Nat.mul_one]
  have hend := hstart.iterate hk.le hsrc hdst hdir
  rw [← repMovs_eq w hecx] at hend
  rw [hend.mem, hk, Nat.sub_self]

/-- A quarter of a length that is a multiple of four. -/
theorem four_mul_toNat_div (h : n % 4#32 = 0#32) : 4 * (n / 4#32).toNat = n.toNat := by
  have hmod : n.toNat % 4 = 0 := by
    have := congrArg BitVec.toNat h
    rwa [BitVec.toNat_umod] at this
  rw [BitVec.toNat_udiv]
  show 4 * (n.toNat / 4) = n.toNat
  omega

/-- **The compiled version** leaves the block copied and the direction flag clear. -/
theorem memmove_eq (hsrc : src.toNat + n.toNat ≤ 2 ^ 32) (hdst : dst.toNat + n.toNat ≤ 2 ^ 32)
    (c : Cpu) : (memmove dst src n c).1 = dst ∧
      (memmove dst src n c).2.mem = copied c.mem dst src 0 n.toNat ∧
      (memmove dst src n c).2.df = false := by
  unfold memmove
  by_cases hback : src < dst ∧ dst < src + n
  · have hdir := (backward_iff hsrc hdst).mp hback
    rw [if_pos hback]
    refine ⟨rfl, ?_, rfl⟩
    dsimp only
    split
    · rename_i hword
      exact repMovs_down (four_mul_toNat_div hword.2.2) rfl rfl rfl rfl hsrc hdst hdir.1
    · exact repMovs_down (Nat.one_mul _) rfl rfl rfl rfl hsrc hdst hdir.1
  · have hdir : dst.toNat ≤ src.toNat ∨ src.toNat + n.toNat ≤ dst.toNat := by
      rw [backward_iff hsrc hdst] at hback
      omega
    rw [if_neg hback]
    split
    · rename_i hword
      exact ⟨rfl, repMovs_up (four_mul_toNat_div hword.2.2) rfl rfl rfl rfl hsrc hdir⟩
    · exact ⟨rfl, repMovs_up (Nat.one_mul _) rfl rfl rfl rfl hsrc hdir⟩

/-- An assignment of one byte. -/
theorem update_eq_blit (mem : Word → BitVec 8) (d s : Word) :
    Function.update mem d (mem s) = blit mem d s 1 := by
  funext a
  unfold blit
  rcases eq_or_ne a d with rfl | hne
  · rw [Function.update_self, sub_self, add_zero, if_pos (by decide)]
  · have hpos : ¬ (a - d).toNat < 1 := by
      intro hlt
      have hzero : a - d = 0#32 := BitVec.eq_of_toNat_eq (Nat.lt_one_iff.mp hlt)
      exact hne (sub_eq_zero.mp hzero)
    rw [Function.update_of_ne hne, if_neg hpos]

theorem copyUp_eq (mem : Word → BitVec 8) {k m : ℕ} (hk : k + m = n.toNat)
    (hsrc : src.toNat + n.toNat ≤ 2 ^ 32)
    (hdir : dst.toNat ≤ src.toNat ∨ src.toNat + n.toNat ≤ dst.toNat) :
    copyUp m (dst + BitVec.ofNat 32 k) (src + BitVec.ofNat 32 k) (copied mem dst src 0 k) =
      copied mem dst src 0 n.toNat := by
  induction m generalizing k with
  | zero =>
    obtain rfl : k = n.toNat := hk
    rfl
  | succ m ih =>
    have hone : blit (copied mem dst src 0 k) (dst + BitVec.ofNat 32 k) (src + BitVec.ofNat 32 k) 1 =
        copied mem dst src 0 (k + 1) := by
      refine blit_copied mem dst src (by omega) (fun i hi hlt => ?_) fun i => ?_
      · exact unread_up hsrc hdir (by omega) hi
      · omega
    rw [copyUp, update_eq_blit, hone, BitVec.add_assoc, BitVec.add_assoc]
    have hrest := ih (k := k + 1) (by omega)
    rw [BitVec.ofNat_add] at hrest
    exact hrest

theorem copyDown_eq (mem : Word → BitVec 8) {k : ℕ} (hk : k ≤ n.toNat)
    (hsrc : src.toNat + n.toNat ≤ 2 ^ 32) (hdst : dst.toNat + n.toNat ≤ 2 ^ 32)
    (hdir : src.toNat < dst.toNat) :
    copyDown k (dst + BitVec.ofNat 32 k) (src + BitVec.ofNat 32 k)
      (copied mem dst src k n.toNat) = copied mem dst src 0 n.toNat := by
  induction k with
  | zero => rfl
  | succ k ih =>
    have hpred (a : Word) : a + BitVec.ofNat 32 (k + 1) - 1#32 = a + BitVec.ofNat 32 k := by
      rw [BitVec.ofNat_add, ← BitVec.add_assoc, BitVec.add_sub_cancel]
    have hone : blit (copied mem dst src (k + 1) n.toNat) (dst + BitVec.ofNat 32 k)
        (src + BitVec.ofNat 32 k) 1 = copied mem dst src k n.toNat := by
      refine blit_copied mem dst src (by omega) (fun i hi hlt => ?_) fun i => ?_
      · exact unread_down hsrc hdst hdir (by omega) (by omega)
      · omega
    rw [copyDown, hpred, hpred, update_eq_blit, hone]
    exact ih (by omega)

/-- **The version in C** leaves the block copied. -/
theorem memmoveC_eq (hsrc : src.toNat + n.toNat ≤ 2 ^ 32) (hdst : dst.toNat + n.toNat ≤ 2 ^ 32)
    (mem : Word → BitVec 8) : memmoveC dst src n mem = copied mem dst src 0 n.toNat := by
  have hn : BitVec.ofNat 32 n.toNat = n := by rw [BitVec.ofNat_toNat, BitVec.setWidth_eq]
  unfold memmoveC
  by_cases hback : src < dst ∧ dst < src + n
  · have hdown := copyDown_eq mem le_rfl hsrc hdst ((backward_iff hsrc hdst).mp hback).1
    rw [copied_of_le _ _ _ le_rfl, hn] at hdown
    rw [if_pos hback, hdown]
  · have hdir : dst.toNat ≤ src.toNat ∨ src.toNat + n.toNat ≤ dst.toNat := by
      rw [backward_iff hsrc hdst] at hback
      omega
    have hup := copyUp_eq mem (Nat.zero_add n.toNat) hsrc hdir
    rw [copied_of_le _ _ _ le_rfl, BitVec.add_zero, BitVec.add_zero] at hup
    rw [if_neg hback, hup]

/-- **`memmove`.**  For ranges that do not wrap around, whatever their overlap and alignment,
the destination ends with what the source held, nothing else changes, the version in C does the
same, and the direction flag is clear. -/
theorem memmove_moves (hsrc : src.toNat + n.toNat ≤ 2 ^ 32) (hdst : dst.toNat + n.toNat ≤ 2 ^ 32)
    (c : Cpu) :
    (∀ i < n.toNat, (memmove dst src n c).2.mem (dst + BitVec.ofNat 32 i) =
      c.mem (src + BitVec.ofNat 32 i)) ∧
    (∀ a, (∀ i < n.toNat, a ≠ dst + BitVec.ofNat 32 i) →
      (memmove dst src n c).2.mem a = c.mem a) ∧
    (memmove dst src n c).2.mem = memmoveC dst src n c.mem ∧
    (memmove dst src n c).1 = dst ∧ (memmove dst src n c).2.df = false := by
  obtain ⟨hret, hmem, hdf⟩ := memmove_eq hsrc hdst c
  rw [hmem]
  refine ⟨fun i hi => copied_apply c.mem dst src n.isLt.le hi, fun a ha => ?_, ?_, hret, hdf⟩
  · exact copied_of_ne c.mem dst src ha
  · rw [memmoveC_eq hsrc hdst]

/-- Every byte holds the low byte of its address. -/
def countingCpu : Cpu := ⟨fun a => a.setWidth 8, 0#32, 0#32, 0#32, true⟩

/-- Eight bytes, moved up by two at the end of the address space, with the direction flag set. -/
theorem memmove_moves_last :
    (∀ i < 8, (memmove 0xfffffff8#32 0xfffffff6#32 8#32 countingCpu).2.mem
        (0xfffffff8#32 + BitVec.ofNat 32 i) = 0xf6#8 + BitVec.ofNat 8 i) ∧
      (∀ a, (∀ i < 8, a ≠ 0xfffffff8#32 + BitVec.ofNat 32 i) →
        (memmove 0xfffffff8#32 0xfffffff6#32 8#32 countingCpu).2.mem a = a.setWidth 8) ∧
      (memmove 0xfffffff8#32 0xfffffff6#32 8#32 countingCpu).2.mem =
        memmoveC 0xfffffff8#32 0xfffffff6#32 8#32 countingCpu.mem ∧
      (memmove 0xfffffff8#32 0xfffffff6#32 8#32 countingCpu).1 = 0xfffffff8#32 ∧
      (memmove 0xfffffff8#32 0xfffffff6#32 8#32 countingCpu).2.df = false := by
  obtain ⟨hdst, hrest⟩ :=
    @memmove_moves 0xfffffff8#32 0xfffffff6#32 8#32 (by decide) (by decide) countingCpu
  refine ⟨fun i hi => ?_, hrest⟩
  rw [hdst i hi]
  show (0xfffffff6#32 + BitVec.ofNat 32 i).setWidth 8 = _
  bv_omega

end

end Strings
end PmakeOs
