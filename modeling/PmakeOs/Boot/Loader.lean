import PmakeOs.Kernel.Load
import PmakeOs.Lib.Offset
import PmakeOs.Lib.Overlay

/-!
# `boot/main.c`: the boot loader

`bootmain` reads the ELF header and the program headers to a page of their own, and then loads
the segments one after the other.  The disk is read in sectors, so `readseg` rounds the start of
a segment down and its end up, and overwrites what is around it.  A comment says that this does
not matter, since the segments are loaded in increasing order.  The order repairs what is
overwritten behind a segment.  What is overwritten in front of it may be the end of a segment
that has been loaded already.

* `Loads` is what `bootmain` is for, for all segments at once.
* `Spared` says of which images it holds: every byte that the last sectors of later segments
  overwrite is one that they happen to have too.

The disk is the array of its bytes, and the controller is taken to become ready and to answer.
The program itself, its variables and its stack are not part of the memory here.
-/

namespace PmakeOs
namespace Bootmain

open Lib

abbrev Mem := Word → BitVec 8

/-- The fields of `struct Proghdr` that `bootmain` reads. -/
structure Segment where
  pOffset : Word
  pPa : Word
  pFilesz : Word
  pMemsz : Word
  deriving DecidableEq

/-- `SECTSIZE` -/
def sectsize : ℕ := 512

/-- `ELFHDR` -/
def elfhdr : Word := 0x10000#32

/-! ## Reading the disk -/

section

variable (disk : ℕ → BitVec 8)

/-- The sector that the ports `0x1F3` to `0x1F6` select; the high half of the last of them
selects the mode and the drive. -/
def lba (r₃ r₄ r₅ r₆ : BitVec 8) : ℕ := ((r₆ &&& 0x0F#8) ++ r₅ ++ r₄ ++ r₃).toNat

/-- `readsect`: one sector to `dst`. -/
def readsect (m : Mem) (dst offset : Word) : Mem :=
  let sector := lba (offset.setWidth 8) ((offset >>> 8).setWidth 8) ((offset >>> 16).setWidth 8)
    (((offset >>> 24) ||| 0xE0#32).setWidth 8)
  fun a => if (a - dst).toNat < sectsize then disk (sectsize * sector + (a - dst).toNat) else m a

/-- The loop of `readseg`. -/
def readsegLoop (endPa : Word) : ℕ → Mem → Word → Word → Option Mem
  | 0, _, _, _ => none
  | rounds + 1, m, pa, offset =>
    if pa < endPa then
      readsegLoop endPa rounds (readsect disk m pa offset) (pa + BitVec.ofNat 32 sectsize)
        (offset + 1#32)
    else some m

def readseg (rounds : ℕ) (m : Mem) (pa count offset : Word) : Option Mem :=
  readsegLoop disk (pa + count) rounds m (pa &&& ~~~ BitVec.ofNat 32 (sectsize - 1))
    (offset / BitVec.ofNat 32 sectsize + 1#32)

/-! ## `bootmain` -/

/-- The `uint32_t` at `a`. -/
def word (m : Mem) (a : Word) : Word := ofBytes fun i => m (a + BitVec.ofNat 32 i)

/-- The `uint16_t` at `a`. -/
def half (m : Mem) (a : Word) : BitVec 16 := m (a + 1#32) ++ m a

/-- The ELF header at `a`. -/
def elfAt (m : Mem) (a : Word) : Elf :=
  ⟨word m a, word m (a + 24#32), word m (a + 28#32), half m (a + 44#32)⟩

/-- The program header at `ph`. -/
def segmentAt (m : Mem) (ph : Word) : Segment :=
  ⟨word m (ph + 4#32), word m (ph + 12#32), word m (ph + 16#32), word m (ph + 20#32)⟩

/-- The loop that clears what is not in the file.  The header is read in every round, and `i`
is compared as an unsigned number. -/
def zeroLoop (ph : Word) : ℕ → Mem → Word → Option Mem
  | 0, _, _ => none
  | rounds + 1, m, i =>
    let s := segmentAt m ph
    if i < s.pMemsz - s.pFilesz then
      zeroLoop ph rounds (Function.update m (s.pPa + s.pFilesz + i) 0#8) (i + 1#32)
    else some m

/-- The loop over the program headers. -/
def loadLoop (rounds : ℕ) (eph : Word) : ℕ → Mem → Word → Option Mem
  | 0, _, _ => none
  | n + 1, m, ph =>
    if ph < eph then do
      let s := segmentAt m ph
      let m ← readseg disk rounds m s.pPa s.pMemsz s.pOffset
      let m ← zeroLoop ph rounds m 0#32
      loadLoop rounds eph n m (ph + 32#32)
    else some m

/-- How `bootmain` ends. -/
inductive Outcome where
  /-- The loop at `bad`. -/
  | bad
  /-- The jump to `e_entry`, and the memory then. -/
  | entered (eEntry : Word) (m : Mem)

/-- `bootmain`, with a bound on the rounds of every loop. -/
def bootmain (rounds : ℕ) (m : Mem) : Option Outcome := do
  let m ← readseg disk rounds m elfhdr (BitVec.ofNat 32 (sectsize * 8)) 0#32
  let elf := elfAt m elfhdr
  if elf.eMagic ≠ elfMagic then return .bad
  else
    let ph := elfhdr + elf.ePhoff
    let eph := ph + 32#32 * elf.ePhnum.setWidth 32
    let m ← loadLoop disk rounds eph rounds m ph
    return .entered (elfAt m elfhdr).eEntry m

/-! ## What it should do -/

/-- The kernel image, from the second sector on. -/
def image : Image := fun k => disk (sectsize + k)

end

/-- Program header `k` of an image. -/
def segment (binary : Image) (k : ℕ) : Segment :=
  let ph := binary.elf.ePhoff.toNat + 32 * k
  ⟨binary.word (ph + 4), binary.word (ph + 12), binary.word (ph + 16), binary.word (ph + 20)⟩

/-- The address is in the segment. -/
def Segment.Has (s : Segment) (a : ℕ) : Prop := s.pPa.toNat ≤ a ∧ a < s.pPa.toNat + s.pMemsz.toNat

/-- The address is in a sector that `readseg` transfers for the segment. -/
def Segment.Sector (s : Segment) (a : ℕ) : Prop :=
  s.pPa.toNat / sectsize * sectsize ≤ a ∧
    a < (s.pPa.toNat + s.pMemsz.toNat + (sectsize - 1)) / sectsize * sectsize

instance (s : Segment) (a : ℕ) : Decidable (s.Has a) := inferInstanceAs (Decidable (_ ∧ _))
instance (s : Segment) (a : ℕ) : Decidable (s.Sector a) := inferInstanceAs (Decidable (_ ∧ _))

/-- The byte of the file for an address, also in front of the segment and behind it. -/
def Segment.fileByte (binary : Image) (s : Segment) (a : ℕ) : BitVec 8 :=
  binary (s.pOffset.toNat + a - s.pPa.toNat)

/-- The byte that an address of the segment should have. -/
def Segment.wanted (binary : Image) (s : Segment) (a : ℕ) : BitVec 8 :=
  if a < s.pPa.toNat + s.pFilesz.toNat then s.fileByte binary a else 0#8

/-- Images as the boot loader expects them. -/
structure Wellformed (binary : Image) : Prop where
  magic : binary.elf.eMagic = elfMagic
  fits : binary.elf.ePhoff.toNat + 32 * binary.elf.ePhnum.toNat ≤ 4096
  increasing : ∀ i j, i < j → j < binary.elf.ePhnum.toNat →
    (segment binary i).pPa ≤ (segment binary j).pPa
  disjoint : ∀ i j, i < j → j < binary.elf.ePhnum.toNat → ∀ a,
    ¬ ((segment binary i).Has a ∧ (segment binary j).Has a)
  outside : ∀ k < binary.elf.ePhnum.toNat,
    (segment binary k).pPa.toNat + (segment binary k).pMemsz.toNat ≤ elfhdr.toNat ∨
      elfhdr.toNat + 4096 ≤ (segment binary k).pPa.toNat
  filesz : ∀ k < binary.elf.ePhnum.toNat, (segment binary k).pFilesz ≤ (segment binary k).pMemsz
  congr : ∀ k < binary.elf.ePhnum.toNat,
    (segment binary k).pPa.toNat % sectsize = (segment binary k).pOffset.toNat % sectsize
  noWrap : ∀ k < binary.elf.ePhnum.toNat,
    (segment binary k).pPa.toNat + (segment binary k).pMemsz.toNat < 2 ^ 32

/-- `bootmain` comes to the jump, and all segments are in memory. -/
def Loads (disk : ℕ → BitVec 8) (m : Mem) : Prop :=
  ∃ m', (∃ n, ∀ rounds, n ≤ rounds →
      bootmain disk rounds m = some (.entered (image disk).elf.eEntry m')) ∧
    ∀ k < (image disk).elf.ePhnum.toNat, ∀ a : Word, (segment (image disk) k).Has a.toNat →
      m' a = (segment (image disk) k).wanted (image disk) a.toNat

/-- What is loaded is not damaged. -/
structure Spared (binary : Image) : Prop where
  /-- No segment reaches into the last sector of the address space. -/
  top : ∀ k < binary.elf.ePhnum.toNat,
    (segment binary k).pPa.toNat + (segment binary k).pMemsz.toNat ≤ 2 ^ 32 - sectsize
  /-- If a later segment `j` is the last one for which an address of segment `i` is
  overwritten, the byte of its file is the one that segment `i` has there. -/
  shared : ∀ i j, i < j → j < binary.elf.ePhnum.toNat → ∀ a, (segment binary i).Has a →
    (segment binary j).Sector a →
    (∀ k, j < k → k < binary.elf.ePhnum.toNat → ¬ (segment binary k).Sector a) →
    (segment binary j).fileByte binary a = (segment binary i).wanted binary a

variable {disk : ℕ → BitVec 8} {binary : Image} {m m' : Mem} {s : Segment} {i j k n rounds : ℕ}

/-! ## One sector -/

theorem toNat_append_eq {v w : ℕ} (x : BitVec v) (y : BitVec w) :
    (x ++ y).toNat = x.toNat * 2 ^ w + y.toNat := by
  rw [BitVec.toNat_append, ← Nat.shiftLeft_add_eq_or_of_lt y.isLt, Nat.shiftLeft_eq]

/-- The mode bits do not get in the way. -/
theorem low_nibble {v : Word} (h : v.toNat < 16) :
    ((v ||| 0xE0#32).setWidth 8 &&& 0x0F#8).toNat = v.toNat := by
  obtain ⟨k, hk⟩ : ∃ k, v.toNat = k := ⟨_, rfl⟩
  have hv : v = BitVec.ofNat 32 k := by
    rw [← hk, BitVec.ofNat_toNat, BitVec.setWidth_eq]
  rw [hk] at h
  subst hv
  interval_cases k <;> decide

theorem lba_eq {offset : Word} (h : offset.toNat < 2 ^ 28) :
    lba (offset.setWidth 8) ((offset >>> 8).setWidth 8) ((offset >>> 16).setWidth 8)
      (((offset >>> 24) ||| 0xE0#32).setWidth 8) = offset.toNat := by
  have hhigh : (offset >>> 24).toNat = offset.toNat / 2 ^ 24 := by
    rw [BitVec.toNat_ushiftRight, Nat.shiftRight_eq_div_pow]
  rw [lba, toNat_append_eq, toNat_append_eq, toNat_append_eq, low_nibble (by omega), hhigh,
    BitVec.toNat_setWidth, BitVec.toNat_setWidth, BitVec.toNat_setWidth, BitVec.toNat_ushiftRight,
    BitVec.toNat_ushiftRight, Nat.shiftRight_eq_div_pow, Nat.shiftRight_eq_div_pow]
  omega

theorem readsect_at (disk : ℕ → BitVec 8) (m : Mem) {pa offset : Word}
    (hpa : pa.toNat + sectsize ≤ 2 ^ 32) (hoff : offset.toNat < 2 ^ 28) (a : Word) :
    readsect disk m pa offset a =
      if pa.toNat ≤ a.toNat ∧ a.toNat < pa.toNat + sectsize then
        disk (sectsize * offset.toNat + (a.toNat - pa.toNat))
      else m a := by
  have ha := a.isLt
  have hp := pa.isLt
  rw [sectsize] at hpa
  rw [readsect, lba_eq hoff]
  dsimp only
  rw [BitVec.toNat_sub, sectsize]
  by_cases hin : pa.toNat ≤ a.toNat ∧ a.toNat < pa.toNat + 512
  · have hsub : (2 ^ 32 - pa.toNat + a.toNat) % 2 ^ 32 = a.toNat - pa.toNat := by omega
    rw [hsub, if_pos (by omega), if_pos hin]
  · rw [if_neg (by omega), if_neg hin]

/-! ## One segment -/

/-- The end of the last sector. -/
def sectorEnd (endPa : ℕ) : ℕ := (endPa + (sectsize - 1)) / sectsize * sectsize

/-- **The sectors up to `endPa`** are transferred. -/
theorem readsegLoop_eq {pa endPa offset : Word} (hend : endPa.toNat ≤ 2 ^ 32 - sectsize)
    (halign : pa.toNat % sectsize = 0)
    (hoff : offset.toNat + (sectorEnd endPa.toNat - pa.toNat) / sectsize < 2 ^ 28)
    (hrounds : (sectorEnd endPa.toNat - pa.toNat) / sectsize < rounds) :
    readsegLoop disk endPa rounds m pa offset = some fun a =>
      if pa.toNat ≤ a.toNat ∧ a.toNat < sectorEnd endPa.toNat then
        disk (sectsize * offset.toNat + (a.toNat - pa.toNat))
      else m a := by
  unfold sectorEnd sectsize at *
  induction rounds generalizing m pa offset with
  | zero => omega
  | succ rounds ih =>
    rw [readsegLoop]
    by_cases hlt : pa < endPa
    · have hlt' : pa.toNat < endPa.toNat := hlt
      have hnext : (pa + BitVec.ofNat 32 512).toNat = pa.toNat + 512 :=
        toNat_add_ofNat (by omega)
      have hoff' : (offset + 1#32).toNat = offset.toNat + 1 := toNat_add_ofNat (by omega)
      rw [if_pos hlt]
      show readsegLoop disk endPa rounds _ (pa + BitVec.ofNat 32 512) _ = _
      rw [ih (by rw [hnext]; omega) (by rw [hnext, hoff']; omega) (by rw [hnext]; omega)]
      refine congrArg some (funext fun a => ?_)
      rw [hnext, hoff', readsect_at disk m (by rw [sectsize]; omega) (by omega), sectsize]
      by_cases hin : pa.toNat + 512 ≤ a.toNat ∧ a.toNat < (endPa.toNat + 511) / 512 * 512
      · rw [if_pos hin, if_pos (by omega)]
        exact congrArg disk (by omega)
      · rw [if_neg hin]
        by_cases hfirst : pa.toNat ≤ a.toNat ∧ a.toNat < pa.toNat + 512
        · rw [if_pos hfirst, if_pos (by omega)]
        · rw [if_neg hfirst, if_neg (by omega)]
    · have hge : endPa.toNat ≤ pa.toNat := Nat.not_lt.mp hlt
      rw [if_neg hlt]
      refine congrArg some (funext fun a => ?_)
      rw [if_neg (by omega)]

/-- If the end is in the last sector of all, the next start wraps around to zero. -/
theorem readsegLoop_eq_none {pa endPa : Word} (hend : 2 ^ 32 - sectsize < endPa.toNat)
    (halign : pa.toNat % sectsize = 0) (offset : Word) :
    readsegLoop disk endPa rounds m pa offset = none := by
  unfold sectsize at *
  induction rounds generalizing m pa offset with
  | zero => rfl
  | succ rounds ih =>
    have hpa := pa.isLt
    have hlt : pa < endPa := by
      rw [BitVec.lt_def]
      omega
    rw [readsegLoop, if_pos hlt]
    refine ih ?_ _
    rw [BitVec.toNat_add]
    show (pa.toNat + 512) % 2 ^ 32 % 512 = 0
    omega

theorem toNat_and_not_mask (pa : Word) : (pa &&& ~~~ BitVec.ofNat 32 (sectsize - 1)).toNat =
    pa.toNat / sectsize * sectsize := by
  have heq : pa &&& ~~~ BitVec.ofNat 32 (sectsize - 1) = (pa >>> 9) <<< 9 := by
    apply BitVec.eq_of_getLsbD_eq
    intro i hi
    have hmask : (BitVec.ofNat 32 (sectsize - 1)).getLsbD i = decide (i < 9) := by
      interval_cases i <;> decide
    rw [BitVec.getLsbD_and, BitVec.getLsbD_not, hmask, BitVec.getLsbD_shiftLeft,
      BitVec.getLsbD_ushiftRight]
    by_cases h9 : i < 9
    · simp [h9]
    · simp [h9, hi, show 9 + (i - 9) = i by omega]
  have hpa := pa.isLt
  rw [heq, BitVec.toNat_shiftLeft, BitVec.toNat_ushiftRight, Nat.shiftRight_eq_div_pow,
    Nat.shiftLeft_eq, sectsize]
  omega

/-- **What `readseg` transfers**: the bytes of the file, up to the borders of the sectors. -/
theorem readseg_eq (htop : s.pPa.toNat + s.pMemsz.toNat ≤ 2 ^ 32 - sectsize)
    (hcongr : s.pPa.toNat % sectsize = s.pOffset.toNat % sectsize) (hr : 2 ^ 32 ≤ rounds) :
    readseg disk rounds m s.pPa s.pMemsz s.pOffset = some fun a =>
      if s.Sector a.toNat then s.fileByte (image disk) a.toNat else m a := by
  have hsum : (s.pPa + s.pMemsz).toNat = s.pPa.toNat + s.pMemsz.toNat := by
    rw [sectsize] at htop
    rw [BitVec.toNat_add]
    omega
  have hdown := toNat_and_not_mask s.pPa
  have hoff : (s.pOffset / BitVec.ofNat 32 sectsize + 1#32).toNat =
      s.pOffset.toNat / sectsize + 1 := by
    have ho := s.pOffset.isLt
    rw [BitVec.toNat_add, BitVec.toNat_udiv]
    show (s.pOffset.toNat / 512 + 1) % 2 ^ 32 = s.pOffset.toNat / 512 + 1
    omega
  have ho := s.pOffset.isLt
  have hend : sectorEnd (s.pPa + s.pMemsz).toNat ≤ 2 ^ 32 - sectsize := by
    rw [hsum, sectorEnd]
    unfold sectsize at *
    omega
  rw [readseg, readsegLoop_eq (by rw [hsum]; exact htop) (by rw [hdown, Nat.mul_mod_left])
    (by rw [hoff]; unfold sectsize at *; omega) (by unfold sectsize at *; omega)]
  refine congrArg some (funext fun a => ?_)
  rw [hdown, hoff, hsum]
  by_cases hin : s.Sector a.toNat
  · obtain ⟨hlow, hhigh⟩ := hin
    rw [if_pos ⟨hlow, hhigh⟩, if_pos ⟨hlow, hhigh⟩, Segment.fileByte, image]
    unfold sectsize at *
    exact congrArg disk (by omega)
  · rw [if_neg hin]
    exact if_neg hin

/-! ## The headers -/

/-- The first page of the image is at `ELFHDR`. -/
def Scratch (binary : Image) (m : Mem) : Prop :=
  ∀ a : Word, elfhdr.toNat ≤ a.toNat → a.toNat < elfhdr.toNat + 4096 →
    m a = binary (a.toNat - elfhdr.toNat)

/-- Where program header `k` is. -/
def header (binary : Image) (k : ℕ) : Word :=
  elfhdr + binary.elf.ePhoff + BitVec.ofNat 32 (32 * k)

theorem toNat_elfhdr : elfhdr.toNat = 65536 := by decide

theorem ofBytes_congr {b b' : ℕ → BitVec 8} (h : ∀ i < 4, b i = b' i) : ofBytes b = ofBytes b' := by
  rw [ofBytes, ofBytes, h 0 (by decide), h 1 (by decide), h 2 (by decide), h 3 (by decide)]

/-- A word of the page. -/
theorem word_of_scratch (h : Scratch binary m) {a : Word} {off : ℕ}
    (ha : a.toNat = elfhdr.toNat + off) (hoff : off + 4 ≤ 4096) : word m a = binary.word off := by
  rw [toNat_elfhdr] at ha
  refine ofBytes_congr fun i hi => ?_
  have hadd : (a + BitVec.ofNat 32 i).toNat = a.toNat + i := toNat_add_ofNat (by omega)
  rw [h _ (by rw [hadd, toNat_elfhdr]; omega) (by rw [hadd, toNat_elfhdr]; omega), hadd,
    toNat_elfhdr]
  exact congrArg binary (by omega)

theorem elfAt_of_scratch (h : Scratch binary m) : elfAt m elfhdr = binary.elf := by
  have hhalf : half m (elfhdr + 44#32) = binary.half 44 := by
    rw [half, Image.half, h _ (by decide) (by decide), h _ (by decide) (by decide)]
    rfl
  have hword : ∀ off, off < 32 →
      word m (elfhdr + BitVec.ofNat 32 off) = binary.word off := by
    intro off hoff
    exact word_of_scratch h (toNat_add_ofNat (by rw [toNat_elfhdr]; omega)) (by omega)
  rw [elfAt, Image.elf, hhalf, ← BitVec.add_zero elfhdr, hword 0 (by decide),
    BitVec.add_zero, hword 24 (by decide), hword 28 (by decide)]

theorem toNat_header (hw : Wellformed binary) (hk : k ≤ binary.elf.ePhnum.toNat) :
    (header binary k).toNat = elfhdr.toNat + (binary.elf.ePhoff.toNat + 32 * k) := by
  have hfits := hw.fits
  have hsum : (elfhdr + binary.elf.ePhoff).toNat = elfhdr.toNat + binary.elf.ePhoff.toNat := by
    rw [BitVec.toNat_add, toNat_elfhdr]
    omega
  rw [header, toNat_add_ofNat (by rw [hsum, toNat_elfhdr]; omega), hsum, Nat.add_assoc]

theorem segmentAt_of_scratch (hw : Wellformed binary) (h : Scratch binary m)
    (hk : k < binary.elf.ePhnum.toNat) : segmentAt m (header binary k) = segment binary k := by
  have hfits := hw.fits
  have hhead := toNat_header hw hk.le
  have hfield : ∀ off, off + 4 ≤ 32 → word m (header binary k + BitVec.ofNat 32 off) =
      binary.word (binary.elf.ePhoff.toNat + 32 * k + off) := by
    intro off hoff
    refine word_of_scratch h ?_ (by omega)
    rw [toNat_add_ofNat (by rw [hhead, toNat_elfhdr]; omega), hhead, Nat.add_assoc]
  rw [segmentAt, segment, hfield 4 (by decide), hfield 12 (by decide), hfield 16 (by decide),
    hfield 20 (by decide)]

/-- The first transfer. -/
theorem readseg_header (disk : ℕ → BitVec 8) (m : Mem) : ∃ m', Scratch (image disk) m' ∧
    ∀ rounds, 2 ^ 32 ≤ rounds →
      readseg disk rounds m elfhdr (BitVec.ofNat 32 (sectsize * 8)) 0#32 = some m' := by
  refine ⟨_, fun a hlow hhigh => ?_, fun rounds hr => @readseg_eq disk m
    ⟨0#32, elfhdr, 0#32, BitVec.ofNat 32 (sectsize * 8)⟩ rounds (by decide) (by decide) hr⟩
  rw [toNat_elfhdr] at hlow hhigh
  have hin : (⟨0#32, elfhdr, 0#32, BitVec.ofNat 32 (sectsize * 8)⟩ : Segment).Sector a.toNat := by
    show 65536 / 512 * 512 ≤ a.toNat ∧ a.toNat < (65536 + 4096 + 511) / 512 * 512
    omega
  rw [if_pos hin]
  exact congrArg (image disk) (congrArg (· - elfhdr.toNat) (Nat.zero_add _))

/-! ## The loop over the headers -/

/-- What is stored at an address for segment `k`. -/
def writes (binary : Image) (k : ℕ) (a : Word) : Option (BitVec 8) :=
  let s := segment binary k
  if s.Has a.toNat ∧ s.pPa.toNat + s.pFilesz.toNat ≤ a.toNat then some 0#8
  else if s.Sector a.toNat then some (s.fileByte binary a.toNat)
  else none

theorem Segment.Has.sector {a : ℕ} (h : s.Has a) : s.Sector a := by
  obtain ⟨hlow, hhigh⟩ := h
  unfold Segment.Sector sectsize
  omega

/-- The sectors of a segment are apart from the page of the headers. -/
theorem Wellformed.sector_outside (hw : Wellformed binary) (hk : k < binary.elf.ePhnum.toNat)
    {a : ℕ} (ha : (segment binary k).Sector a) :
    a < elfhdr.toNat ∨ elfhdr.toNat + 4096 ≤ a := by
  obtain ⟨hlow, hhigh⟩ := ha
  rw [toNat_elfhdr]
  rw [sectsize] at hlow hhigh
  rcases hw.outside k hk with h | h
  · rw [toNat_elfhdr] at h
    omega
  · rw [toNat_elfhdr] at h
    omega

theorem writes_ne_none_iff {a : Word} :
    writes binary k a ≠ none ↔ (segment binary k).Sector a.toNat := by
  unfold writes
  dsimp only
  split
  · rename_i h
    exact ⟨fun _ => h.1.sector, fun _ => Option.some_ne_none _⟩
  · split
    · rename_i h
      exact ⟨fun _ => h, fun _ => Option.some_ne_none _⟩
    · rename_i h
      exact ⟨fun h0 => absurd rfl h0, fun h0 => absurd h0 h⟩

/-- Loading a segment leaves the headers alone. -/
theorem Scratch.overlay (h : Scratch binary m) (hw : Wellformed binary)
    (hk : k < binary.elf.ePhnum.toNat) :
    Scratch binary fun a => (writes binary k a).getD (m a) := by
  intro a hlow hhigh
  have hnone : writes binary k a = none := by
    by_contra hne
    have hout := hw.sector_outside hk (writes_ne_none_iff.mp hne)
    omega
  dsimp only
  rw [hnone]
  exact h a hlow hhigh

/-- **The rest of a segment is cleared.** -/
theorem zeroLoop_eq (hw : Wellformed binary) (hk : k < binary.elf.ePhnum.toNat)
    (h : Scratch binary m) {i : Word}
    (hi : (segment binary k).pFilesz.toNat + i.toNat ≤ (segment binary k).pMemsz.toNat)
    (hr : (segment binary k).pMemsz.toNat - (segment binary k).pFilesz.toNat - i.toNat < rounds) :
    zeroLoop (header binary k) rounds m i = some fun a =>
      if (segment binary k).pPa.toNat + (segment binary k).pFilesz.toNat + i.toNat ≤ a.toNat ∧
        a.toNat < (segment binary k).pPa.toNat + (segment binary k).pMemsz.toNat then 0#8
      else m a := by
  have hnw := hw.noWrap k hk
  have hout := hw.outside k hk
  have hsub : ((segment binary k).pMemsz - (segment binary k).pFilesz).toNat =
      (segment binary k).pMemsz.toNat - (segment binary k).pFilesz.toNat :=
    BitVec.toNat_sub_of_le (hw.filesz k hk)
  induction rounds generalizing m i with
  | zero => omega
  | succ rounds ih =>
    rw [zeroLoop, segmentAt_of_scratch hw h hk]
    by_cases hlt : i < (segment binary k).pMemsz - (segment binary k).pFilesz
    · have hlt' := BitVec.lt_def.mp hlt
      rw [hsub] at hlt'
      have hnext : (i + 1#32).toNat = i.toNat + 1 := toNat_add_ofNat (by omega)
      have haddr : ((segment binary k).pPa + (segment binary k).pFilesz + i).toNat =
          (segment binary k).pPa.toNat + (segment binary k).pFilesz.toNat + i.toNat := by
        rw [BitVec.toNat_add, BitVec.toNat_add]
        omega
      have hscratch : Scratch binary (Function.update m
          ((segment binary k).pPa + (segment binary k).pFilesz + i) 0#8) := by
        intro a hlow hhigh
        have hne : a ≠ (segment binary k).pPa + (segment binary k).pFilesz + i := by
          rintro rfl
          rw [haddr] at hlow hhigh
          omega
        rw [Function.update_of_ne hne]
        exact h a hlow hhigh
      rw [if_pos hlt, ih hscratch (by omega) (by omega), hnext]
      refine congrArg some (funext fun a => ?_)
      rcases eq_or_ne a ((segment binary k).pPa + (segment binary k).pFilesz + i) with rfl | hne
      · rw [Function.update_self, ite_self, haddr, if_pos (by omega)]
      · have hne' : a.toNat ≠ (segment binary k).pPa.toNat + (segment binary k).pFilesz.toNat +
            i.toNat := fun h0 => hne (BitVec.eq_of_toNat_eq (h0.trans haddr.symm))
        rw [Function.update_of_ne hne]
        exact if_congr (by omega) rfl rfl
    · have hge := Nat.not_lt.mp hlt
      rw [hsub] at hge
      rw [if_neg hlt]
      refine congrArg some (funext fun a => ?_)
      rw [if_neg (by omega)]

/-- **One segment.** -/
theorem load_segment (hw : Wellformed (image disk)) (hk : k < (image disk).elf.ePhnum.toNat)
    (h : Scratch (image disk) m) (hr : 2 ^ 32 ≤ rounds)
    (htop : (segment (image disk) k).pPa.toNat + (segment (image disk) k).pMemsz.toNat ≤
      2 ^ 32 - sectsize) :
    ∃ m₁, readseg disk rounds m (segment (image disk) k).pPa (segment (image disk) k).pMemsz
        (segment (image disk) k).pOffset = some m₁ ∧
      zeroLoop (header (image disk) k) rounds m₁ 0#32 =
        some fun a => (writes (image disk) k a).getD (m a) := by
  refine ⟨_, readseg_eq htop (hw.congr k hk) hr, ?_⟩
  have hscratch : Scratch (image disk) fun a => if (segment (image disk) k).Sector a.toNat then
      (segment (image disk) k).fileByte (image disk) a.toNat else m a := by
    intro a hlow hhigh
    have hnot : ¬ (segment (image disk) k).Sector a.toNat := by
      intro hsec
      have hout := hw.sector_outside hk hsec
      omega
    dsimp only
    rw [if_neg hnot]
    exact h a hlow hhigh
  have hle := BitVec.le_def.mp (hw.filesz k hk)
  have hm := (segment (image disk) k).pMemsz.isLt
  have hzero : (0#32).toNat = 0 := rfl
  rw [zeroLoop_eq hw hk hscratch (by omega) (by omega)]
  refine congrArg some (funext fun a => ?_)
  rw [writes, hzero, Nat.add_zero]
  by_cases hbss : (segment (image disk) k).Has a.toNat ∧
      (segment (image disk) k).pPa.toNat + (segment (image disk) k).pFilesz.toNat ≤ a.toNat
  · rw [if_pos hbss, if_pos ⟨hbss.2, hbss.1.2⟩, Option.getD_some]
  · rw [if_neg hbss, if_neg fun h0 => hbss ⟨⟨by omega, h0.2⟩, h0.1⟩]
    split
    · rw [Option.getD_some]
    · rw [Option.getD_none]

theorem scratch_overlays (hw : Wellformed binary) (h : Scratch binary m)
    (hk : k ≤ binary.elf.ePhnum.toNat) : Scratch binary (overlays m (writes binary) k) := by
  induction k with
  | zero => exact h
  | succ k ih => exact (ih (by omega)).overlay hw hk

theorem header_lt_iff (hw : Wellformed binary) (hk : k ≤ binary.elf.ePhnum.toNat) :
    header binary k < header binary binary.elf.ePhnum.toNat ↔ k < binary.elf.ePhnum.toNat := by
  rw [BitVec.lt_def, toNat_header hw hk, toNat_header hw le_rfl]
  omega

theorem header_succ (binary : Image) (k : ℕ) : header binary k + 32#32 = header binary (k + 1) := by
  rw [header, header, BitVec.add_assoc, Nat.mul_succ, BitVec.ofNat_add]

/-- The round for segment `k`. -/
theorem loadLoop_succ (hw : Wellformed (image disk)) (h : Scratch (image disk) m)
    (hr : 2 ^ 32 ≤ rounds) (hk : k < (image disk).elf.ePhnum.toNat)
    (htop : (segment (image disk) k).pPa.toNat + (segment (image disk) k).pMemsz.toNat ≤
      2 ^ 32 - sectsize) :
    loadLoop disk rounds (header (image disk) (image disk).elf.ePhnum.toNat) (n + 1)
        (overlays m (writes (image disk)) k) (header (image disk) k) =
      loadLoop disk rounds (header (image disk) (image disk).elf.ePhnum.toNat) n
        (overlays m (writes (image disk)) (k + 1)) (header (image disk) (k + 1)) := by
  have hscratch := scratch_overlays hw h hk.le
  obtain ⟨m₁, hread, hzero⟩ := load_segment hw hk hscratch hr htop
  rw [loadLoop, if_pos ((header_lt_iff hw hk.le).mpr hk), segmentAt_of_scratch hw hscratch hk]
  dsimp only
  rw [hread]
  show (zeroLoop _ rounds m₁ 0#32 >>= _) = _
  rw [hzero, ← header_succ]
  rfl

/-- **All segments**, one over the other. -/
theorem loadLoop_eq (hw : Wellformed (image disk)) (h : Scratch (image disk) m)
    (hr : 2 ^ 32 ≤ rounds)
    (htop : ∀ k < (image disk).elf.ePhnum.toNat, (segment (image disk) k).pPa.toNat +
      (segment (image disk) k).pMemsz.toNat ≤ 2 ^ 32 - sectsize)
    (hk : k ≤ (image disk).elf.ePhnum.toNat) (hn : (image disk).elf.ePhnum.toNat - k < n) :
    loadLoop disk rounds (header (image disk) (image disk).elf.ePhnum.toNat) n
        (overlays m (writes (image disk)) k) (header (image disk) k) =
      some (overlays m (writes (image disk)) (image disk).elf.ePhnum.toNat) := by
  induction n generalizing k with
  | zero => omega
  | succ n ih =>
    rcases Nat.eq_or_lt_of_le hk with rfl | hlt
    · rw [loadLoop, if_neg fun h0 => Nat.lt_irrefl _ ((header_lt_iff hw le_rfl).mp h0)]
    · rw [loadLoop_succ hw h hr hlt (htop k hlt)]
      exact ih hlt (by omega)

/-- Loading a segment that reaches into the last sector of all does not end. -/
theorem loadLoop_eq_none (hw : Wellformed (image disk)) (h : Scratch (image disk) m)
    (hr : 2 ^ 32 ≤ rounds) (hj : j < (image disk).elf.ePhnum.toNat)
    (hbad : 2 ^ 32 - sectsize <
      (segment (image disk) j).pPa.toNat + (segment (image disk) j).pMemsz.toNat)
    (hfirst : ∀ k < j, (segment (image disk) k).pPa.toNat +
      (segment (image disk) k).pMemsz.toNat ≤ 2 ^ 32 - sectsize) (hk : k ≤ j) :
    loadLoop disk rounds (header (image disk) (image disk).elf.ePhnum.toNat) n
        (overlays m (writes (image disk)) k) (header (image disk) k) = none := by
  induction n generalizing k with
  | zero => rfl
  | succ n ih =>
    rcases Nat.eq_or_lt_of_le hk with rfl | hlt
    · have hnw := hw.noWrap k hj
      have hsum : ((segment (image disk) k).pPa + (segment (image disk) k).pMemsz).toNat =
          (segment (image disk) k).pPa.toNat + (segment (image disk) k).pMemsz.toNat := by
        rw [BitVec.toNat_add, Nat.mod_eq_of_lt hnw]
      rw [loadLoop, if_pos ((header_lt_iff hw hj.le).mpr hj),
        segmentAt_of_scratch hw (scratch_overlays hw h hj.le) hj]
      dsimp only
      rw [readseg, readsegLoop_eq_none (by rw [hsum]; exact hbad)
        (by rw [toNat_and_not_mask, Nat.mul_mod_left])]
      rfl
    · rw [loadLoop_succ hw h hr (by omega) (hfirst k hlt)]
      exact ih hlt

/-! ## The whole loader -/

theorem eph_eq (binary : Image) : elfhdr + binary.elf.ePhoff +
    32#32 * binary.elf.ePhnum.setWidth 32 = header binary binary.elf.ePhnum.toNat := by
  have hmul : 32#32 * binary.elf.ePhnum.setWidth 32 =
      BitVec.ofNat 32 (32 * binary.elf.ePhnum.toNat) := by
    apply BitVec.eq_of_toNat_eq
    have hn := binary.elf.ePhnum.isLt
    rw [BitVec.toNat_mul, BitVec.toNat_setWidth, BitVec.toNat_ofNat, BitVec.toNat_ofNat,
      Nat.mod_eq_of_lt (show binary.elf.ePhnum.toNat < 2 ^ 32 by omega)]
  rw [header, hmul]

/-- `bootmain`, after the headers have been read. -/
theorem bootmain_eq (hw : Wellformed (image disk)) (m : Mem) :
    ∃ m₀, Scratch (image disk) m₀ ∧ ∀ rounds, 2 ^ 32 ≤ rounds → bootmain disk rounds m =
      (loadLoop disk rounds (header (image disk) (image disk).elf.ePhnum.toNat) rounds m₀
        (header (image disk) 0)).map fun m' => .entered (elfAt m' elfhdr).eEntry m' := by
  obtain ⟨m₀, hscratch, hread⟩ := readseg_header disk m
  refine ⟨m₀, hscratch, fun rounds hr => ?_⟩
  have helf := elfAt_of_scratch hscratch
  have hzero : header (image disk) 0 = elfhdr + (image disk).elf.ePhoff := BitVec.add_zero _
  unfold bootmain
  rw [hread rounds hr]
  show (if (elfAt m₀ elfhdr).eMagic ≠ elfMagic then _ else _) = _
  rw [helf, if_neg (not_not.mpr hw.magic), eph_eq, ← hzero]
  cases loadLoop disk rounds (header (image disk) (image disk).elf.ePhnum.toNat) rounds m₀
    (header (image disk) 0) with
  | none => rfl
  | some m' => rfl

/-- **Where the last writer comes from.**  All segments are in memory exactly if those that
overwrite an earlier one happen to have its bytes. -/
theorem wanted_iff (hw : Wellformed binary) (m : Mem) :
    (∀ k < binary.elf.ePhnum.toNat, ∀ a : Word, (segment binary k).Has a.toNat →
      overlays m (writes binary) binary.elf.ePhnum.toNat a =
        (segment binary k).wanted binary a.toNat) ↔
    ∀ i j, i < j → j < binary.elf.ePhnum.toNat → ∀ a, (segment binary i).Has a →
      (segment binary j).Sector a →
      (∀ k, j < k → k < binary.elf.ePhnum.toNat → ¬ (segment binary k).Sector a) →
      (segment binary j).fileByte binary a = (segment binary i).wanted binary a := by
  have hlast : ∀ j, j < binary.elf.ePhnum.toNat → ∀ (a : Word) b, writes binary j a = some b →
      (∀ k, j < k → k < binary.elf.ePhnum.toNat → ¬ (segment binary k).Sector a.toNat) →
      overlays m (writes binary) binary.elf.ePhnum.toNat a = b := by
    intro j hj a b hb hno
    refine overlays_of_last hj hb fun k hjk hk => ?_
    by_contra hne
    exact hno k hjk hk (writes_ne_none_iff.mp hne)
  -- a later segment stores a byte of its file
  have hfile : ∀ i j, i < j → j < binary.elf.ePhnum.toNat → ∀ a : Word,
      (segment binary i).Has a.toNat → (segment binary j).Sector a.toNat →
      writes binary j a = some ((segment binary j).fileByte binary a.toNat) := by
    intro i j hij hj a hi hsec
    rw [writes]
    rw [if_neg fun h0 => hw.disjoint i j hij hj a.toNat ⟨hi, h0.1⟩, if_pos hsec]
  constructor
  · intro h i j hij hj a hi hsec hno
    have hlt : a < 2 ^ 32 := by
      have hnw := hw.noWrap i (by omega)
      have hhigh := hi.2
      omega
    obtain ⟨a, rfl⟩ : ∃ x : Word, x.toNat = a := ⟨BitVec.ofNat 32 a, by
      rw [BitVec.toNat_ofNat, Nat.mod_eq_of_lt hlt]⟩
    rw [← h i (by omega) a hi, hlast j hj a _ (hfile i j hij hj a hi hsec) hno]
  · intro h k hk a ha
    obtain ⟨j, hkj, hj, hne, hno⟩ := exists_last hk (writes_ne_none_iff.mpr ha.sector)
    have hsec := writes_ne_none_iff.mp hne
    have hno' : ∀ k', j < k' → k' < binary.elf.ePhnum.toNat →
        ¬ (segment binary k').Sector a.toNat :=
      fun k' hjk hk' h0 => writes_ne_none_iff.mpr h0 (hno k' hjk hk')
    rcases Nat.eq_or_lt_of_le hkj with rfl | hlt
    · -- nobody has overwritten it
      refine hlast k hk a _ ?_ hno'
      rw [writes, Segment.wanted]
      by_cases hin : a.toNat < (segment binary k).pPa.toNat + (segment binary k).pFilesz.toNat
      · rw [if_neg fun h0 => Nat.not_le.mpr hin h0.2, if_pos hsec, if_pos hin]
      · rw [if_pos ⟨ha, Nat.not_lt.mp hin⟩, if_neg hin]
    · rw [hlast j hj a _ (hfile k j hlt hj a ha hsec) hno']
      exact h k j hlt hj a.toNat ha hsec hno'

theorem loads_iff (h : Wellformed (image disk)) (m : Mem) :
    Loads disk m ↔ Spared (image disk) := by
  obtain ⟨m₀, hscratch, hboot⟩ := bootmain_eq h m
  have hend : (∀ k < (image disk).elf.ePhnum.toNat, (segment (image disk) k).pPa.toNat +
      (segment (image disk) k).pMemsz.toNat ≤ 2 ^ 32 - sectsize) → ∀ rounds, 2 ^ 32 ≤ rounds →
      bootmain disk rounds m = some (.entered (image disk).elf.eEntry
        (overlays m₀ (writes (image disk)) (image disk).elf.ePhnum.toNat)) := by
    intro htop rounds hr
    have hn := (image disk).elf.ePhnum.isLt
    have hrun := loadLoop_eq h hscratch hr htop (Nat.zero_le _)
      (show (image disk).elf.ePhnum.toNat - 0 < rounds by omega)
    rw [hboot rounds hr]
    show Option.map _ (loadLoop disk rounds _ rounds (overlays m₀ (writes (image disk)) 0) _) = _
    rw [hrun, Option.map_some, elfAt_of_scratch (scratch_overlays h hscratch le_rfl)]
  constructor
  · rintro ⟨m', ⟨n, hn⟩, hloaded⟩
    have htop : ∀ k < (image disk).elf.ePhnum.toNat, (segment (image disk) k).pPa.toNat +
        (segment (image disk) k).pMemsz.toNat ≤ 2 ^ 32 - sectsize := by
      intro k
      induction k using Nat.strong_induction_on with
      | _ k ih =>
        intro hk
        by_contra hbad
        have hnone := loadLoop_eq_none (n := max n (2 ^ 32)) h hscratch (le_max_right n _) hk
          (Nat.not_le.mp hbad) (fun i hi => ih i hi (by omega)) (Nat.zero_le k)
        have hsome := hn _ (le_max_left n (2 ^ 32))
        rw [hboot _ (le_max_right _ _)] at hsome
        change Option.map _
          (loadLoop disk _ _ _ (overlays m₀ (writes (image disk)) 0) _) = _ at hsome
        rw [hnone] at hsome
        cases hsome
    refine ⟨htop, (wanted_iff h m₀).mp fun k hk a ha => ?_⟩
    have hsome := hn _ (le_max_left n (2 ^ 32))
    rw [hend htop _ (le_max_right _ _)] at hsome
    obtain ⟨-, rfl⟩ := Outcome.entered.inj (Option.some.inj hsome)
    exact hloaded k hk a ha
  · rintro ⟨htop, hshared⟩
    exact ⟨_, ⟨2 ^ 32, hend htop⟩, (wanted_iff h m₀).mpr hshared⟩

/-- Segments that share no block are loaded. -/
theorem Spared.of_apart
    (htop : ∀ k < binary.elf.ePhnum.toNat,
      (segment binary k).pPa.toNat + (segment binary k).pMemsz.toNat ≤ 2 ^ 32 - sectsize)
    (hapart : ∀ i j, i < j → j < binary.elf.ePhnum.toNat → ∀ a,
      ¬ ((segment binary i).Has a ∧ (segment binary j).Sector a)) : Spared binary :=
  ⟨htop, fun i j hij hj a hi hsec _ => absurd ⟨hi, hsec⟩ (hapart i j hij hj a)⟩

/-! ## Two segments -/

/-- A disk whose image has two program headers, behind the ELF header. -/
def twoSegments (s t : Segment) (rest : Image) : ℕ → BitVec 8 := fun k =>
  let words : List (ℕ × Word) := [(0, elfMagic), (28, 52#32), (44, 2#32), (56, s.pOffset),
    (64, s.pPa), (68, s.pFilesz), (72, s.pMemsz), (88, t.pOffset), (96, t.pPa), (100, t.pFilesz),
    (104, t.pMemsz)]
  match words.find? fun w => w.1 ≤ k - sectsize && k - sectsize < w.1 + 4 with
  | some w => (w.2 >>> (8 * (k - sectsize - w.1))).setWidth 8
  | none => rest (k - sectsize)

theorem Wellformed.of_two {t : Segment} (hmagic : binary.elf.eMagic = elfMagic)
    (hoff : binary.elf.ePhoff = 52#32) (hn : binary.elf.ePhnum = 2#16)
    (hs : segment binary 0 = s) (ht : segment binary 1 = t)
    (happart : s.pPa.toNat + s.pMemsz.toNat ≤ t.pPa.toNat)
    (hout : elfhdr.toNat + 4096 ≤ s.pPa.toNat)
    (hfilesz : s.pFilesz ≤ s.pMemsz ∧ t.pFilesz ≤ t.pMemsz)
    (hcongr : s.pPa.toNat % sectsize = s.pOffset.toNat % sectsize ∧
      t.pPa.toNat % sectsize = t.pOffset.toNat % sectsize)
    (hend : t.pPa.toNat + t.pMemsz.toNat < 2 ^ 32) : Wellformed binary := by
  have hcount : binary.elf.ePhnum.toNat = 2 := by rw [hn]; rfl
  have hboth : ∀ {p : Segment → Prop}, p s → p t → ∀ k < binary.elf.ePhnum.toNat,
      p (segment binary k) := by
    intro p h0 h1 k hk
    rw [hcount] at hk
    interval_cases k
    · rwa [hs]
    · rwa [ht]
  have hpair : ∀ {p : Segment → Segment → Prop}, p s t → ∀ i j, i < j →
      j < binary.elf.ePhnum.toNat → p (segment binary i) (segment binary j) := by
    intro p h i j hij hj
    rw [hcount] at hj
    obtain rfl : i = 0 := by omega
    obtain rfl : j = 1 := by omega
    rwa [hs, ht]
  exact {
    magic := hmagic
    fits := by rw [hoff, hcount]; decide
    increasing := hpair (p := fun s t => s.pPa ≤ t.pPa) (BitVec.le_def.mpr (by omega))
    disjoint := hpair (p := fun s t => ∀ a, ¬ (s.Has a ∧ t.Has a)) fun a h0 => by
      have hlow := h0.2.1
      have hhigh := h0.1.2
      omega
    outside := hboth (p := fun s => s.pPa.toNat + s.pMemsz.toNat ≤ elfhdr.toNat ∨
      elfhdr.toNat + 4096 ≤ s.pPa.toNat) (Or.inr hout) (Or.inr (by omega))
    filesz := hboth (p := fun s => s.pFilesz ≤ s.pMemsz) hfilesz.1 hfilesz.2
    congr := hboth (p := fun s => s.pPa.toNat % sectsize = s.pOffset.toNat % sectsize)
      hcongr.1 hcongr.2
    noWrap := hboth (p := fun s => s.pPa.toNat + s.pMemsz.toNat < 2 ^ 32) (by omega) hend }

/-- The segments are in blocks of their own. -/
def apart : ℕ → BitVec 8 :=
  twoSegments ⟨0x1000#32, 0x100000#32, 4#32, 8#32⟩ ⟨0x1200#32, 0x100200#32, 4#32, 4#32⟩
    fun _ => 7#8

/-- The second segment begins in the middle of the block that the first one is in. -/
def joined : ℕ → BitVec 8 :=
  twoSegments ⟨0x1000#32, 0x100000#32, 16#32, 16#32⟩ ⟨0x2100#32, 0x100100#32, 16#32, 16#32⟩
    fun k => if k < 0x2000 then 1#8 else 0#8

/-- The headers that are read from `apart`. -/
theorem headers_apart : ((image apart).elf.eMagic = elfMagic ∧
    (image apart).elf.ePhoff = 52#32 ∧ (image apart).elf.ePhnum = 2#16) ∧
    segment (image apart) 0 = ⟨0x1000#32, 0x100000#32, 4#32, 8#32⟩ ∧
    segment (image apart) 1 = ⟨0x1200#32, 0x100200#32, 4#32, 4#32⟩ := by
  decide +kernel

theorem segment_apart_zero :
    segment (image apart) 0 = ⟨0x1000#32, 0x100000#32, 4#32, 8#32⟩ := headers_apart.2.1

theorem segment_apart_one :
    segment (image apart) 1 = ⟨0x1200#32, 0x100200#32, 4#32, 4#32⟩ := headers_apart.2.2

theorem wellformed_apart : Wellformed (image apart) :=
  .of_two headers_apart.1.1 headers_apart.1.2.1 headers_apart.1.2.2 segment_apart_zero
    segment_apart_one (by decide) (by decide) (by decide) (by decide) (by decide)

/-- The headers that are read from `joined`. -/
theorem headers_joined : ((image joined).elf.eMagic = elfMagic ∧
    (image joined).elf.ePhoff = 52#32 ∧ (image joined).elf.ePhnum = 2#16) ∧
    segment (image joined) 0 = ⟨0x1000#32, 0x100000#32, 16#32, 16#32⟩ ∧
    segment (image joined) 1 = ⟨0x2100#32, 0x100100#32, 16#32, 16#32⟩ := by
  decide +kernel

theorem segment_joined_zero :
    segment (image joined) 0 = ⟨0x1000#32, 0x100000#32, 16#32, 16#32⟩ := headers_joined.2.1

theorem segment_joined_one :
    segment (image joined) 1 = ⟨0x2100#32, 0x100100#32, 16#32, 16#32⟩ := headers_joined.2.2

theorem wellformed_joined : Wellformed (image joined) :=
  .of_two headers_joined.1.1 headers_joined.1.2.1 headers_joined.1.2.2 segment_joined_zero
    segment_joined_one (by decide) (by decide) (by decide) (by decide) (by decide)

theorem spared_apart : Spared (image apart) := by
  have hn : (image apart).elf.ePhnum.toNat = 2 := by
    rw [headers_apart.1.2.2]
    rfl
  refine .of_apart (fun k hk => ?_) fun i j hij hj a h0 => ?_
  · rw [hn] at hk
    interval_cases k
    · rw [segment_apart_zero]
      decide
    · rw [segment_apart_one]
      decide
  · rw [hn] at hj
    obtain rfl : i = 0 := by omega
    obtain rfl : j = 1 := by omega
    rw [segment_apart_zero, segment_apart_one] at h0
    have hhigh : a < 0x100000 + 8 := h0.1.2
    have hlow : 0x100200 / 512 * 512 ≤ a := h0.2.1
    omega

/-- The second segment brings the first byte of the first one along. -/
theorem not_spared_joined : ¬ Spared (image joined) := by
  intro h
  have hn : (image joined).elf.ePhnum.toNat = 2 := by
    rw [headers_joined.1.2.2]
    rfl
  have heq := h.shared 0 1 (by decide) (by rw [hn]; decide) 0x100000
    (by rw [segment_joined_zero]; decide) (by rw [segment_joined_one]; decide)
    fun k hk hk' => by omega
  rw [segment_joined_zero, segment_joined_one] at heq
  exact absurd heq (by decide +kernel)

/-- **Which images are loaded.**  Whole sectors do no harm exactly if the file has, in front of
a segment that begins in the middle of a block, what an earlier segment has there. -/
theorem bootmain_loads_iff (h : Wellformed (image disk)) (m : Mem) :
    Loads disk m ↔ Spared (image disk) :=
  loads_iff h m

theorem bootmain_loads_iff_apart : Wellformed (image apart) ∧ Loads apart fun _ => 0#8 :=
  ⟨wellformed_apart, (bootmain_loads_iff wellformed_apart _).mpr spared_apart⟩

/-- **The comment in `readseg`** is wrong: the order does not help a segment whose last block is
the first one of the next. -/
theorem not_bootmain_loads : ¬ ∀ disk m, Wellformed (image disk) → Loads disk m := by
  intro h
  exact not_spared_joined ((loads_iff wellformed_joined _).mp (h joined (fun _ => 0#8)
    wellformed_joined))

end Bootmain
end PmakeOs
