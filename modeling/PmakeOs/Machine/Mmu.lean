import PmakeOs.Lib.PackedWord

/-!
# Addresses, page-table entries and the memory layout

`inc/mmu.h`, `inc/memlayout.h` and the rounding macros of `inc/types.h`.

A linear address is ten bits of directory index, ten bits of table index and
twelve bits of offset; a page-table or page-directory entry is twenty bits of
frame number above twelve bits of flags.  The macros are written here as the
source writes them, on 32-bit words, and each is followed by the arithmetic
reading that later proofs use: `pdx la = la / 2 ^ 22`, `ptx la = la / 2 ^ 12 % 2 ^ 10`,
`frame w = w / 2 ^ 12`.

The processor's own walk of the two levels is `mmuWalk`.  `CR4_PSE` is never set
by this kernel, so the `PTE_PS` bit has no effect and every walk has two levels.
-/

namespace PmakeOs

open Lib

/-- A 32-bit machine word: `uint32_t`, `uintptr_t`, `physaddr_t`, `pte_t`,
`pde_t`, a pointer, or the bits of an `int`. -/
abbrev Word := BitVec 32

/-! ## Linear addresses -/

/-- `PGSIZE`. -/
def pgsize : ℕ := 4096

/-- `NPDENTRIES`. -/
def npdentries : ℕ := 1024

/-- `NPTENTRIES`. -/
def nptentries : ℕ := 1024

/-- `PTSIZE`: the bytes mapped by one directory entry. -/
def ptsize : ℕ := pgsize * nptentries

/-- `PGNUM`: the page number field of an address. -/
def pgnum (la : Word) : ℕ := (la >>> 12).toNat

/-- `PDX`: the page directory index. -/
def pdx (la : Word) : ℕ := ((la >>> 22) &&& 0x3FF#32).toNat

/-- `PTX`: the page table index. -/
def ptx (la : Word) : ℕ := ((la >>> 12) &&& 0x3FF#32).toNat

/-- `PGADDR`: an address from its indices and offset. -/
def pgaddr (d t o : ℕ) : Word :=
  BitVec.ofNat 32 d <<< 22 ||| BitVec.ofNat 32 t <<< 12 ||| BitVec.ofNat 32 o

theorem pgnum_eq (la : Word) : pgnum la = la.toNat / 2 ^ 12 := by
  rw [pgnum, BitVec.toNat_ushiftRight, Nat.shiftRight_eq_div_pow]

theorem ptx_eq (la : Word) : ptx la = la.toNat / 2 ^ 12 % 2 ^ 10 := by
  have h := toNat_and_mask (la >>> 12) (show 10 ≤ 32 by decide)
  rw [BitVec.toNat_ushiftRight, Nat.shiftRight_eq_div_pow] at h
  exact h

theorem pdx_eq (la : Word) : pdx la = la.toNat / 2 ^ 22 := by
  have h := toNat_and_mask (la >>> 22) (show 10 ≤ 32 by decide)
  rw [BitVec.toNat_ushiftRight, Nat.shiftRight_eq_div_pow] at h
  refine h.trans (Nat.mod_eq_of_lt ?_)
  have hla := la.isLt
  omega

theorem pdx_lt (la : Word) : pdx la < npdentries := by
  have hla := la.isLt
  rw [pdx_eq, npdentries]
  omega

theorem ptx_lt (la : Word) : ptx la < nptentries := by
  rw [ptx_eq, nptentries]
  omega

/-- The page number is the two indices put together. -/
theorem pgnum_eq_pdx_ptx (la : Word) : pgnum la = pdx la * nptentries + ptx la := by
  rw [pgnum_eq, pdx_eq, ptx_eq, nptentries]
  omega

theorem pgnum_div (la : Word) : pgnum la / nptentries = pdx la := by
  rw [pgnum_eq, pdx_eq, nptentries]
  omega

theorem pgnum_mod (la : Word) : pgnum la % nptentries = ptx la := by
  rw [pgnum_eq, ptx_eq]
  rfl

theorem toNat_pgaddr {d t : ℕ} (hd : d < npdentries) (ht : t < nptentries) :
    (pgaddr d t 0).toNat = d * 2 ^ 22 + t * 2 ^ 12 := by
  rw [npdentries] at hd
  rw [nptentries] at ht
  have ht' : t <<< 12 < 2 ^ 22 := by rw [Nat.shiftLeft_eq]; omega
  simp only [pgaddr, BitVec.toNat_or, BitVec.toNat_shiftLeft, BitVec.toNat_ofNat,
    Nat.zero_mod, Nat.or_zero]
  rw [Nat.mod_eq_of_lt (show d < 2 ^ 32 by omega), Nat.mod_eq_of_lt (show t < 2 ^ 32 by omega),
    Nat.mod_eq_of_lt (show d <<< 22 < 2 ^ 32 by rw [Nat.shiftLeft_eq]; omega),
    Nat.mod_eq_of_lt (show t <<< 12 < 2 ^ 32 by rw [Nat.shiftLeft_eq]; omega),
    ← Nat.shiftLeft_add_eq_or_of_lt ht', Nat.shiftLeft_eq, Nat.shiftLeft_eq]

theorem pdx_pgaddr {d t : ℕ} (hd : d < npdentries) (ht : t < nptentries) :
    pdx (pgaddr d t 0) = d := by
  rw [pdx_eq, toNat_pgaddr hd ht]
  rw [nptentries] at ht
  omega

theorem ptx_pgaddr {d t : ℕ} (hd : d < npdentries) (ht : t < nptentries) :
    ptx (pgaddr d t 0) = t := by
  rw [ptx_eq, toNat_pgaddr hd ht]
  rw [nptentries] at ht
  omega

/-! ## Rounding -/

/-- `ROUNDDOWN`. -/
def rounddown (a n : Word) : Word := a - a % n

/-- `ROUNDUP`: both the sum and the difference wrap. -/
def roundup (a n : Word) : Word := rounddown (a + n - 1) n

theorem toNat_rounddown (a n : Word) : (rounddown a n).toNat = a.toNat - a.toNat % n.toNat := by
  have hle : a % n ≤ a := by
    rw [BitVec.le_def, BitVec.toNat_umod]
    exact Nat.mod_le _ _
  rw [rounddown, BitVec.toNat_sub_of_le hle, BitVec.toNat_umod]

theorem toNat_roundup {a : Word} (h : a.toNat + 4095 < 2 ^ 32) :
    (roundup a (BitVec.ofNat 32 pgsize)).toNat = (a.toNat + 4095) / 4096 * 4096 := by
  have hpg : (BitVec.ofNat 32 pgsize).toNat = 4096 := by decide
  have hsum : (a + BitVec.ofNat 32 pgsize - 1).toNat = a.toNat + 4095 := by
    rw [BitVec.toNat_sub, BitVec.toNat_add, hpg]
    have h1 : (1 : Word).toNat = 1 := by decide
    rw [h1]
    omega
  rw [roundup, toNat_rounddown, hsum, hpg]
  omega

/-- A sum that wraps is rounded to a small address. -/
theorem toNat_roundup_of_wrap {a : Word} (h : 2 ^ 32 ≤ a.toNat + 4095) :
    (roundup a (BitVec.ofNat 32 pgsize)).toNat < 4096 := by
  have hpg : (BitVec.ofNat 32 pgsize).toNat = 4096 := by decide
  have ha := a.isLt
  have hsum : (a + BitVec.ofNat 32 pgsize - 1).toNat = a.toNat + 4095 - 2 ^ 32 := by
    rw [BitVec.toNat_sub, BitVec.toNat_add, hpg]
    have h1 : (1 : Word).toNat = 1 := by decide
    rw [h1]
    omega
  rw [roundup, toNat_rounddown, hsum, hpg]
  omega

/-! ## Entry flags -/

/-- `PTE_P`: present. -/
def pteP : Word := 0x001#32

/-- `PTE_W`: writeable. -/
def pteW : Word := 0x002#32

/-- `PTE_U`: user. -/
def pteU : Word := 0x004#32

/-- `PTE_PWT`: write-through. -/
def ptePwt : Word := 0x008#32

/-- `PTE_PCD`: cache-disable. -/
def ptePcd : Word := 0x010#32

/-- `PTE_AVAIL`: the bits left to software. -/
def pteAvail : Word := 0xE00#32

/-- `PTE_SYSCALL`: the flags a system call may name. -/
def pteSyscall : Word := pteAvail ||| pteP ||| pteW ||| pteU

/-- The C condition `w & f`. -/
def Has (w f : Word) : Prop := w &&& f ≠ 0#32

instance (w f : Word) : Decidable (Has w f) := inferInstanceAs (Decidable (_ ≠ _))

/-- `PTE_ADDR`. -/
def pteAddr (w : Word) : Word := w &&& ~~~ 0xFFF#32

/-- The frame an entry points to, `PGNUM(PTE_ADDR(w))`. -/
def frame (w : Word) : ℕ := pgnum (pteAddr w)

/-- `page2pa`: the address of frame `p`.  A `struct PageInfo *` is represented
by its index in `pages`, which is the frame number. -/
def page2pa (p : ℕ) : Word := BitVec.ofNat 32 p <<< 12

theorem frame_eq (w : Word) : frame w = w.toNat / 2 ^ 12 := by
  rw [frame, pgnum_eq]
  exact toNat_and_not_mask_div w 12

theorem frame_lt (w : Word) : frame w < 2 ^ 20 := by
  have hw := w.isLt
  rw [frame_eq]
  omega

theorem pgnum_pteAddr (w : Word) : pgnum (pteAddr w) = frame w := rfl

theorem toNat_page2pa {p : ℕ} (hp : p < 2 ^ 20) : (page2pa p).toNat = p * 2 ^ 12 := by
  rw [page2pa, BitVec.toNat_shiftLeft, BitVec.toNat_ofNat, Nat.mod_eq_of_lt (by omega),
    Nat.shiftLeft_eq, Nat.mod_eq_of_lt (by omega)]

theorem pgnum_page2pa {p : ℕ} (hp : p < 2 ^ 20) : pgnum (page2pa p) = p := by
  rw [pgnum_eq, toNat_page2pa hp]
  omega

theorem frame_page2pa {p : ℕ} (hp : p < 2 ^ 20) : frame (page2pa p) = p := by
  rw [frame_eq, toNat_page2pa hp]
  omega

/-- **Or-ing flags into an entry or-s their upper bits into the frame number.** -/
theorem frame_or (a b : Word) : frame (a ||| b) = frame a ||| frame b := by
  rw [frame_eq, frame_eq, frame_eq, toNat_or_div]

theorem frame_of_lt {w : Word} (h : w.toNat < 2 ^ 12) : frame w = 0 := by
  rw [frame_eq, Nat.div_eq_of_lt h]

theorem frame_or_of_lt (a : Word) {b : Word} (h : b.toNat < 2 ^ 12) :
    frame (a ||| b) = frame a := by
  rw [frame_or, frame_of_lt h, Nat.or_zero]

@[simp] theorem has_or (a b f : Word) : Has (a ||| b) f ↔ Has a f ∨ Has b f := by
  unfold Has
  rw [BitVec.and_or_distrib_right, ne_eq, BitVec.or_eq_zero_iff]
  tauto

@[simp] theorem not_has_zero (f : Word) : ¬ Has 0#32 f := by
  simp [Has]

/-- An address of a frame carries no flag. -/
theorem not_has_page2pa (p : ℕ) {f : Word} (hf : f.toNat < 2 ^ 12) : ¬ Has (page2pa p) f := by
  unfold Has
  rw [not_not]
  apply BitVec.eq_of_getLsbD_eq
  intro i _
  rw [BitVec.getLsbD_and, page2pa, BitVec.getLsbD_shiftLeft]
  by_cases hi : i < 12
  · simp [hi]
  · have hfi : f.getLsbD i = false := by
      rw [← BitVec.testBit_toNat]
      exact Nat.testBit_lt_two_pow (lt_of_lt_of_le hf (Nat.pow_le_pow_right (by omega) (by omega)))
    simp [hfi]

/-! ## The memory layout -/

/-- `KERNBASE`: all of physical memory is mapped from here on. -/
def kernbase : Word := 0xF0000000#32

/-- `KSTACKTOP`. -/
def kstacktop : Word := kernbase

/-- `KSTKSIZE`: the size of a kernel stack. -/
def kstksize : ℕ := 8 * pgsize

/-- `KSTKGAP`: the size of the gap below a kernel stack. -/
def kstkgap : ℕ := 8 * pgsize

/-- `MMIOLIM`. -/
def mmiolim : Word := kstacktop - BitVec.ofNat 32 ptsize

/-- `MMIOBASE`. -/
def mmiobase : Word := mmiolim - BitVec.ofNat 32 ptsize

/-- `ULIM`: no user access from here on. -/
def ulim : Word := mmiobase

/-- `UVPT`: the page tables, seen through the directory's entry for itself. -/
def uvpt : Word := ulim - BitVec.ofNat 32 ptsize

/-- `UPAGES`: the read-only copy of `pages`. -/
def upages : Word := uvpt - BitVec.ofNat 32 ptsize

/-- `UENVS`: the read-only copy of `envs`. -/
def uenvs : Word := upages - BitVec.ofNat 32 ptsize

/-- `UTOP`: the top of the memory a user environment manages. -/
def utop : Word := uenvs

/-- `USTACKTOP`. -/
def ustacktop : Word := utop - BitVec.ofNat 32 (2 * pgsize)

/-- The frames the window above `KERNBASE` reaches: 256 MB. -/
def kernWindow : ℕ := 2 ^ 16

theorem toNat_utop : utop.toNat = 955 * 2 ^ 22 := by decide

theorem toNat_uvpt : uvpt.toNat = 957 * 2 ^ 22 := by decide

theorem toNat_ulim : ulim.toNat = 958 * 2 ^ 22 := by decide

theorem pdx_utop : pdx utop = 955 := by decide

theorem pdx_uvpt : pdx uvpt = 957 := by decide

/-- An address is below `UTOP` exactly when its directory index is. -/
theorem lt_utop_iff (va : Word) : va < utop ↔ pdx va < pdx utop := by
  rw [BitVec.lt_def, toNat_utop, pdx_utop, pdx_eq]
  omega

/-! ## The walk of the processor -/

/-- Physical memory by frames: `m f i` is word `i` of frame `f`. -/
abbrev Phys := ℕ → ℕ → Word

/-- What the processor knows about a virtual page once it has walked the
tables: the frame, and the rights that both levels grant. -/
structure Translation where
  /-- The frame. -/
  ppn : ℕ
  /-- User mode may use the page. -/
  user : Bool
  /-- The page may be written. -/
  write : Bool
  deriving DecidableEq

/-- The walk of the x86 MMU from directory `d` for virtual page `vpn`.  A right
holds when the directory entry and the table entry both grant it. -/
def mmuWalk (m : Phys) (d vpn : ℕ) : Option Translation :=
  let pde := m d (vpn / nptentries)
  let pte := m (frame pde) (vpn % nptentries)
  if Has pde pteP ∧ Has pte pteP then
    some ⟨frame pte, decide (Has pde pteU ∧ Has pte pteU), decide (Has pde pteW ∧ Has pte pteW)⟩
  else none

end PmakeOs
