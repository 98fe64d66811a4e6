import PmakeOs.Kernel.Syscall
import PmakeOs.Lib.Bytes

/-!
# `kern/env.c`: the first programs

`region_alloc`, `load_icode` and `env_create`, with the two structures of `inc/elf.h` that
they read.

The image is the array of its bytes.  It is linked into the kernel's data, above `KERNBASE`,
and none of these functions writes there, so it is a parameter and not a part of memory;
what is loaded goes to user memory through the directory that `lcr3` has loaded.  The fields
of the headers that nothing reads are left out.
-/

namespace PmakeOs

open Lib

/-! ## The image -/

/-- An image, byte by byte. -/
abbrev Image := ℕ → BitVec 8

/-- A `uint32_t` of the image. -/
def Image.word (binary : Image) (off : ℕ) : Word := ofBytes fun i => binary (off + i)

/-- A `uint16_t` of the image. -/
def Image.half (binary : Image) (off : ℕ) : BitVec 16 := binary (off + 1) ++ binary off

/-- `struct Elf` -/
structure Elf where
  eMagic : Word
  eEntry : Word
  ePhoff : Word
  ePhnum : BitVec 16
  deriving DecidableEq

/-- `ELF_MAGIC` -/
def elfMagic : Word := 0x464C457F#32

/-- `(struct Elf *)binary` -/
def Image.elf (binary : Image) : Elf :=
  ⟨binary.word 0, binary.word 24, binary.word 28, binary.half 44⟩

/-- `struct Proghdr` -/
structure Proghdr where
  pType : Word
  pOffset : Word
  pVa : Word
  pFilesz : Word
  pMemsz : Word
  deriving DecidableEq

/-- `ELF_PROG_LOAD` -/
def elfProgLoad : Word := 1#32

/-- The program header `ph + k`. -/
def Image.proghdr (binary : Image) (k : ℕ) : Proghdr :=
  let ph := binary.elf.ePhoff.toNat + 32 * k
  ⟨binary.word ph, binary.word (ph + 4), binary.word (ph + 8), binary.word (ph + 16),
    binary.word (ph + 20)⟩

namespace Kernel

/-! ## Loading -/

/-- The loop of `region_alloc` over the pages from `va` up to `stop`.  The first argument
bounds the iterations; `2 ^ 20` pages are all there are. -/
def regionAllocLoop (e : ℕ) (stop : Word) : ℕ → Word → Kernel → Except Panic Kernel
  | 0, _, s => .ok s
  | fuel + 1, va, s =>
    if va < stop then do
      match ← s.pageAlloc 0#32 with
      | (none, _) => .error .regionAlloc
      | (some pp, s) =>
        let d ← deref (s.envs e).envPgdir
        let (r, s) ← s.pageInsert d pp va (pteW ||| pteU)
        if r = -eNoMem then .error .regionAlloc
        else regionAllocLoop e stop fuel (va + BitVec.ofNat 32 pgsize) s
    else .ok s

/-- `region_alloc` -/
def regionAlloc (s : Kernel) (e : ℕ) (va len : Word) : Except Panic Kernel :=
  regionAllocLoop e (roundup (va + len) (BitVec.ofNat 32 pgsize)) (2 ^ 20)
    (rounddown va (BitVec.ofNat 32 pgsize)) s

/-- Store `n` bytes from `va` on. -/
def pokeBytes (s : Kernel) (va : Word) (n : ℕ) (b : ℕ → BitVec 8) : Except Panic Kernel :=
  (List.range n).foldlM (fun s k => s.pokeByte (va + BitVec.ofNat 32 k) (b k)) s

/-- `memset` -/
def memset (s : Kernel) (v : Word) (c : BitVec 8) (n : Word) : Except Panic Kernel :=
  s.pokeBytes v n.toNat fun _ => c

/-- `memcpy` out of the image. -/
def memcpy (s : Kernel) (dst : Word) (src : ℕ → BitVec 8) (n : Word) : Except Panic Kernel :=
  s.pokeBytes dst n.toNat src

/-- One round of the loop of `load_icode`: one program header. -/
def loadProghdr (e : ℕ) (binary : Image) (s : Kernel) (k : ℕ) : Except Panic Kernel := do
  let ph := binary.proghdr k
  if ph.pType = elfProgLoad then
    let s ← s.regionAlloc e ph.pVa ph.pMemsz
    let s ← s.memset ph.pVa 0#8 ph.pMemsz
    s.memcpy ph.pVa (fun i => binary (ph.pOffset.toNat + i)) ph.pFilesz
  else return s

/-- `load_icode` -/
def loadIcode (s : Kernel) (e : ℕ) (binary : Image) : Except Panic Kernel := do
  if binary.elf.eMagic ≠ elfMagic then .error .notElf
  else match (s.envs e).envPgdir with
  | none => .error .paddr
  | some d =>
    let s := s.lcr3 d
    let s ← (List.range binary.elf.ePhnum.toNat).foldlM (loadProghdr e binary) s
    let s := s.lcr3 s.kernPgdir
    let v := s.envs e
    let s := s.setEnv e { v with envTf := { v.envTf with tfEip := binary.elf.eEntry } }
    s.regionAlloc e (ustacktop - BitVec.ofNat 32 pgsize) (BitVec.ofNat 32 pgsize)

/-- `env_create` -/
def envCreate (s : Kernel) (binary : Image) : Except Panic Kernel := do
  let (r, o, s) ← s.envAlloc 0#32
  if r < 0 then .error .envCreate
  else
    let e ← deref o
    s.loadIcode e binary

end Kernel
end PmakeOs
