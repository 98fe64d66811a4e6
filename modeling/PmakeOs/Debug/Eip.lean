import PmakeOs.Lib.Bytes
import PmakeOs.Lib.Reading
import PmakeOs.Kernel.Pmap
import PmakeOs.Debug.Stabs

/-!
# `kern/kdebug.c`: what is known of an address

`debuginfo_eip` finds the file, the function and the line of an instruction in a table of
stabs.  For a user address the table is where the user program says it is, and anything may
be in it.

* Memory is what the kernel sees at each address, byte by byte.  The tables are behind
  pointers, as in the source.
* Every index at which `stabs[]` is read is recorded.  An expression that reads several fields
  of one entry reads it once.
* `stabBinsearchR` is `stab_binsearch` with its reads, and does what `stabBinsearch` does:
  see `reads_stabBinsearchR`.
* The first argument of a function bounds the rounds of each of its loops, where the bound is
  not clear from the source.
-/

namespace PmakeOs
namespace Kdebug

open Lib

/-! ## The tables -/

/-- `struct Stab`, without `n_other`, which nothing reads. -/
structure StabEntry extends Stab where
  nStrx : Word
  nDesc : BitVec 16

/-- What the search reads of a table. -/
abbrev stabsOf (table : ℤ → StabEntry) (i : ℤ) : Stab := (table i).toStab

/-- `struct UserStabData` -/
structure UserStabData where
  stabs : Word
  stabEnd : Word
  stabstr : Word
  stabstrEnd : Word

/-- `stab_end - stabs`.  The compiler divides the distance by 12 with a shift and the inverse
of 3, which is exact if the pointers are a whole number of entries apart. -/
def UserStabData.count (d : UserStabData) : ℤ :=
  ((d.stabEnd - d.stabs).sshiftRight 2 * 0xAAAAAAAB#32).toInt

/-- The word at `a`. -/
def wordAt (m : Word → BitVec 8) (a : Word) : Word := ofBytes fun i => m (a + BitVec.ofNat 32 i)

/-- `stabs[i]` -/
def UserStabData.stab (d : UserStabData) (m : Word → BitVec 8) (i : ℤ) : StabEntry :=
  let p := d.stabs + BitVec.ofInt 32 (12 * i)
  { nStrx := wordAt m p
    nType := m (p + 4#32)
    nDesc := m (p + 7#32) ++ m (p + 6#32)
    nValue := wordAt m (p + 8#32) }

/-- `USTABDATA` -/
def ustabdata : Word := BitVec.ofNat 32 (ptsize / 2)

/-- The first part of `debuginfo_eip`: the tables, if they can be used.  The linker provides
those of the kernel, `linked`; `e` is the slot of `curenv`. -/
def findStabs (s : Kernel) (e : ℕ) (m : Word → BitVec 8) (linked : UserStabData) (addr : Word) :
    Except Panic (Option UserStabData × Kernel) := do
  if ulim ≤ addr then return (some linked, s)
  else
    let (r, s) ← s.userMemCheck e ustabdata 16#32 (pteU ||| pteP)
    if r ≠ 0 then return (none, s)
    else
      let d : UserStabData :=
        { stabs := wordAt m ustabdata
          stabEnd := wordAt m (ustabdata + 4#32)
          stabstr := wordAt m (ustabdata + 8#32)
          stabstrEnd := wordAt m (ustabdata + 12#32) }
      let (r, s) ← s.userMemCheck e d.stabs (BitVec.ofInt 32 (d.count * 12)) (pteU ||| pteP)
      if r ≠ 0 then return (none, s)
      else
        let (r, s) ← s.userMemCheck e d.stabstr (d.stabstrEnd - d.stabstr) (pteU ||| pteP)
        if r ≠ 0 then return (none, s)
        else return (some d, s)

/-! ## The search, with its reads -/

section

variable (table : ℤ → StabEntry) (type : ℤ)

/-- As `scanDown`. -/
def scanDownR : ℕ → ℤ → Reading ℤ ℤ
  | 0, m => return m
  | n + 1, m => do
    let stab ← Reading.read table m
    if (stab.nType.toNat : ℤ) ≠ type then scanDownR n (m - 1) else return m

/-- As `round`. -/
def roundR (x : Search) : Reading ℤ Search := do
  let trueM := (x.l + x.r) / 2
  let m ← scanDownR table type (trueM + 1 - x.l).toNat trueM
  if m < x.l then return { x with l := trueM + 1 }
  else
    let x := { x with anyMatches := true }
    let stab ← Reading.read table m
    if stab.nValue < x.addr then return { x with regionLeft := m, l := trueM + 1 }
    else if x.addr < stab.nValue then return { x with regionRight := m - 1, r := m - 1 }
    else return { x with regionLeft := m, l := m, addr := x.addr + 1#32 }

/-- As `loop`. -/
def loopR : ℕ → Search → Reading ℤ Search
  | 0, x => do if x.l ≤ x.r then Reading.lift none else return x
  | fuel + 1, x => do
    if x.l ≤ x.r then
      let x ← roundR table type x
      loopR fuel x
    else return x

/-- As `fixUp`. -/
def fixUpR (x : Search) : Reading ℤ (ℤ × ℤ) := do
  if ¬ x.anyMatches then return (x.regionLeft, x.regionLeft - 1)
  else
    let l ← scanDownR table type (x.regionRight - x.regionLeft).toNat x.regionRight
    return (l, x.regionRight)

/-- `stab_binsearch`: `*region_left` and `*region_right` at the end. -/
def stabBinsearchR (fuel : ℕ) (left right : ℤ) (addr : Word) : Reading ℤ (ℤ × ℤ) := do
  let x ← loopR table type fuel ⟨left, right, addr, left, right, false⟩
  fixUpR table type x

end

/-! ## `debuginfo_eip` -/

def nFun : ℤ := 0x24
def nSline : ℤ := 0x44
def nSo : ℤ := 0x64
def nSol : ℤ := 0x84
def nPsym : ℤ := 0xA0

/-- A `const char *`: the constant `"<unknown>"`, or an address. -/
inductive Text where
  | unknown
  | mem (p : Word)

/-- `struct Eipdebuginfo` -/
structure Eipdebuginfo where
  eipFile : Text
  eipLine : ℤ
  eipFnName : Text
  eipFnNamelen : ℤ
  eipFnAddr : Word
  eipFnNarg : ℤ

/-- `*info` at the beginning. -/
def Eipdebuginfo.init (addr : Word) : Eipdebuginfo := ⟨.unknown, 0, .unknown, 9, addr, 0⟩

/-- `strfind` -/
def strfind (m : Word → BitVec 8) (c : BitVec 8) : ℕ → Word → Option Word
  | 0, _ => none
  | fuel + 1, s =>
    if m s = 0#8 then some s
    else if m s = c then some s
    else strfind m c fuel (s + 1#32)

/-- `strfind(name, ':') - name` -/
def namelen (m : Word → BitVec 8) (fuel : ℕ) : Text → Option ℤ
  | .unknown => some 9
  | .mem p => (strfind m 0x3A#8 fuel p).map fun q => (q - p).toInt

/-- `stabstr + stab.n_strx`, if that is in the string table; otherwise the text stays. -/
def UserStabData.text (d : UserStabData) (stab : StabEntry) (old : Text) : Text :=
  if stab.nStrx < d.stabstrEnd - d.stabstr then .mem (d.stabstr + stab.nStrx) else old

section

variable (fuel : ℕ) (m : Word → BitVec 8) (d : UserStabData)

/-- The function: `*info`, the address in it, and `lline` and `rline`. -/
def findFun (addr : Word) (info : Eipdebuginfo) (lfile rfile lfun rfun : ℤ) :
    Reading ℤ (Eipdebuginfo × Word × ℤ × ℤ) := do
  if lfun ≤ rfun then
    let stab ← Reading.read (d.stab m) lfun
    return ({ info with eipFnName := d.text stab info.eipFnName, eipFnAddr := stab.nValue },
      addr - stab.nValue, lfun, rfun)
  else
    return ({ info with eipFnAddr := addr }, addr, lfile, rfile)

/-- The stab for the line, if there is one.  With an `N_SOL` stab in the function, the stab is
not looked for. -/
def findLine (addr fnAddr : Word) (lfile rfile lline rline : ℤ) : Reading ℤ (Option ℤ) := do
  let (olline, orline) ← stabBinsearchR (d.stab m) nSol fuel lline rline
    ((if lline = lfile ∧ rline = rfile then 0#32 else addr) + fnAddr)
  if olline > orline then
    let (lline, rline) ← stabBinsearchR (d.stab m) nSline fuel lline rline addr
    if lline > rline then return none else return some lline
  else return some lline

/-- `while (lline >= lfile && …) lline--`, where the other condition allows `n` rounds. -/
def fileBack : ℕ → ℤ → Reading ℤ ℤ
  | 0, lline => return lline
  | n + 1, lline => do
    let stab ← Reading.read (d.stab m) lline
    if (stab.nType.toNat : ℤ) ≠ nSol ∧ ((stab.nType.toNat : ℤ) ≠ nSo ∨ stab.nValue = 0#32) then
      fileBack n (lline - 1)
    else return lline

/-- The name of the file, from the line back. -/
def findFile (info : Eipdebuginfo) (lfile lline : ℤ) : Reading ℤ Eipdebuginfo := do
  let lline ← fileBack m d (lline + 1 - lfile).toNat lline
  if lfile ≤ lline then
    let stab ← Reading.read (d.stab m) lline
    return { info with eipFile := d.text stab info.eipFile }
  else return info

/-- The arguments behind the function's stab, where `lline < rfun` allows `n` rounds. -/
def countArgs : ℕ → ℤ → ℤ → Reading ℤ ℤ
  | 0, _, narg => return narg
  | n + 1, lline, narg => do
    let stab ← Reading.read (d.stab m) lline
    if (stab.nType.toNat : ℤ) = nPsym then countArgs n (lline + 1) (narg + 1)
    else return narg

/-- `info->eip_fn_narg` -/
def funArgs (lfun rfun : ℤ) : Reading ℤ ℤ :=
  if lfun < rfun then countArgs m d (rfun - (lfun + 1)).toNat (lfun + 1) 0 else return 0

/-- What follows when the line is found. -/
def fillLine (info : Eipdebuginfo) (lfile lfun rfun lline : ℤ) : Reading ℤ Eipdebuginfo := do
  let stab ← Reading.read (d.stab m) lline
  let info ← findFile m d { info with eipLine := stab.nDesc.toNat } lfile lline
  let narg ← funArgs m d lfun rfun
  return { info with eipFnNarg := narg }

/-- What follows when the range for the line is chosen. -/
def fillFrom (addr : Word) (info : Eipdebuginfo) (lfile rfile lfun rfun lline rline : ℤ) :
    Reading ℤ (ℤ × Eipdebuginfo) := do
  let len ← Reading.lift (namelen m fuel info.eipFnName)
  let info := { info with eipFnNamelen := len }
  let found ← findLine fuel m d addr info.eipFnAddr lfile rfile lline rline
  match found with
  | none => return (-1, info)
  | some lline => do
    let info ← fillLine m d info lfile lfun rfun lline
    return (0, info)

/-- What follows the search for the function. -/
def fillFun (addr : Word) (info : Eipdebuginfo) (lfile rfile lfun rfun : ℤ) :
    Reading ℤ (ℤ × Eipdebuginfo) := do
  let (info, addr, lline, rline) ← findFun m d addr info lfile rfile lfun rfun
  fillFrom fuel m d addr info lfile rfile lfun rfun lline rline

/-- The rest of `debuginfo_eip`: the result and `*info`. -/
def lookUp (addr : Word) : Reading ℤ (ℤ × Eipdebuginfo) := do
  let info := Eipdebuginfo.init addr
  if d.stabstrEnd ≤ d.stabstr ∨ m (d.stabstrEnd - 1#32) ≠ 0#8 then return (-1, info)
  else
    let (lfile, rfile) ← stabBinsearchR (d.stab m) nSo fuel 0 (d.count - 1) addr
    if lfile = 0 then return (-1, info)
    else
      let (lfun, rfun) ← stabBinsearchR (d.stab m) nFun fuel lfile rfile addr
      fillFun fuel m d addr info lfile rfile lfun rfun

/-- `debuginfo_eip`: the result and `*info`, with the indices read. -/
def debuginfoEip (s : Kernel) (e : ℕ) (linked : UserStabData) (addr : Word) :
    Except Panic (Option ((ℤ × Eipdebuginfo) × List ℤ) × Kernel) := do
  let (found, s) ← findStabs s e m linked addr
  match found with
  | none => return (some ((-1, .init addr), []), s)
  | some d => return ((lookUp fuel m d addr).run, s)

end

end Kdebug
end PmakeOs
