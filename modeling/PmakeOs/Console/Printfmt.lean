import PmakeOs.Lib.Sink
import PmakeOs.Machine.Mmu

/-!
# `lib/printfmt.c`: formatted output

`vprintfmt`, which the kernel and the user library share, over an arbitrary `putch` and an
arbitrary sink for its `putdat`.

* The format string is the list of its bytes; its end is the terminating zero.
* The arguments are the words on the stack from `ap` on.  A `long long` takes two.
* Strings that are arguments are read from memory, byte by byte; `m a` is `none` where
  nothing is mapped, and reading there stops the run.  Each read is recorded, also the
  last one of a run that stops.
* `int`s are 32 bits wide and wrap.

A directive that is not recognised prints its `%` and is then read once more as plain
text: the loop that moves `fmt` back ends behind the `%` that began the directive, since
none of the flags before is a `%`.
-/

namespace PmakeOs
namespace Printfmt

open Lib

/-- The byte of a character. -/
def chr (c : Char) : BitVec 8 := BitVec.ofNat 8 c.toNat

/-- The bytes of a string constant. -/
def str (s : String) : List (BitVec 8) := s.toList.map chr

/-- A byte that a `char *` points to: in memory, or in one of the constants of this file. -/
inductive Loc where
  | mem (a : Word)
  | lit (s : List (BitVec 8)) (i : ℕ)
  deriving DecidableEq

/-- `p++` -/
def Loc.next : Loc → Loc
  | .mem a => .mem (a + 1#32)
  | .lit s i => .lit s (i + 1)

/-- `*p`, if there is something. -/
def Loc.read (m : Word → Option (BitVec 8)) : Loc → Option (BitVec 8)
  | .mem a => m a
  | .lit s i => some (s.getD i 0#8)

/-- Why a run does not return. -/
inductive Stuck where
  /-- A byte was read where nothing is mapped. -/
  | fault
  /-- All of memory is one string without an end. -/
  | loops
  deriving DecidableEq

/-- The arguments taken so far, and the bytes read, latest first. -/
structure Run where
  ap : ℕ
  reads : List Loc

/-- A function of this file, with `putdat` of type `σ`. -/
abbrev Fmt (σ : Type) := Out Stuck Run σ

section

variable {σ : Type} (put : ℤ → σ → σ) (m : Word → Option (BitVec 8)) (args : ℕ → Word)

/-- `putch(ch, putdat)` -/
def putch (ch : ℤ) : Fmt σ Unit := Out.put put ch

/-- `*p` -/
def peek (p : Loc) : Fmt σ (BitVec 8) := Out.own fun r =>
  match p.read m with
  | some b => .ok b { r with reads := p :: r.reads }
  | none => .error .fault { r with reads := p :: r.reads }

/-- `va_arg(ap, int)`, and every other type of that size. -/
def vaArg : Fmt σ Word := Out.own fun r => .ok (args r.ap) { r with ap := r.ap + 1 }

/-- A string without an end. -/
def spin {α : Type} : Fmt σ α := Out.own fun r => .error .loops r

/-- A loop that calls `putch` a number of times with the same character. -/
def putTimes (ch : ℤ) : ℕ → Fmt σ Unit
  | 0 => pure ()
  | n + 1 => do
    putch put ch
    putTimes ch n

/-- The base of a number. -/
inductive Base where
  | oct
  | dec
  | hex
  deriving DecidableEq

def Base.toNat : Base → ℕ
  | .oct => 8
  | .dec => 10
  | .hex => 16

theorem Base.one_lt (b : Base) : 1 < b.toNat := by cases b <;> decide

/-- `"0123456789abcdef"[d]` -/
def digit (d : ℕ) : ℤ := ((str "0123456789abcdef").getD d 0#8).toNat

/-- `printnum` -/
def printnum (num : ℕ) (base : Base) (width : Word) (padc : BitVec 8) : Fmt σ Unit := do
  if _ : base.toNat ≤ num then
    printnum (num / base.toNat) base (width - 1#32) padc
  else
    -- `while (--width > 0)`
    putTimes put padc.toNat (width - 1#32).toInt.toNat
  putch put (digit (num % base.toNat))
termination_by num
decreasing_by exact Nat.div_lt_self (by have := base.one_lt; omega) base.one_lt

theorem printnum_eq (num : ℕ) (base : Base) (width : Word) (padc : BitVec 8) :
    printnum put num base width padc =
      (if base.toNat ≤ num then printnum put (num / base.toNat) base (width - 1#32) padc
        else putTimes put padc.toNat (width - 1#32).toInt.toNat) >>=
      fun _ => putch put (digit (num % base.toNat)) := by
  rw [printnum]
  split <;> rfl

/-- What the flags of a directive set. -/
structure Flags where
  padc : BitVec 8
  width : Word
  precision : Word
  lflag : ℕ
  altflag : Bool

/-- The values at the start of a directive. -/
def Flags.default : Flags := ⟨chr ' ', -1#32, -1#32, 0, false⟩

/-- `getuint` -/
def getuint (lflag : ℕ) : Fmt σ ℕ := do
  if 2 ≤ lflag then
    let lo ← vaArg args
    let hi ← vaArg args
    return (hi ++ lo).toNat
  else
    let w ← vaArg args
    return w.toNat

/-- `getint` -/
def getint (lflag : ℕ) : Fmt σ ℤ := do
  if 2 ≤ lflag then
    let lo ← vaArg args
    let hi ← vaArg args
    return (hi ++ lo).toInt
  else
    let w ← vaArg args
    return w.toInt

/-- The number of a `%d`: the sign, then the digits of `num = -(long long) num`. -/
def printSigned (num : ℤ) (fl : Flags) : Fmt σ Unit := do
  if num < 0 then
    putch put (chr '-').toNat
    printnum put (-num).toNat .dec fl.width fl.padc
  else
    printnum put num.toNat .dec fl.width fl.padc

/-- `strnlen`, with the count so far. -/
def strnlen : ℕ → Loc → Word → Fmt σ Word
  | 0, _, n => pure n
  | size + 1, s, n => do
    let ch ← peek m s
    if ch = 0#8 then return n
    strnlen size s.next (n + 1#32)

/-- `putch` for a character of a string. -/
def putOne (altflag : Bool) (ch : BitVec 8) : Fmt σ Unit :=
  if altflag ∧ (ch.toInt < (chr ' ').toInt ∨ (chr '~').toInt < ch.toInt) then
    putch put (chr '?').toNat
  else
    putch put ch.toInt

/-- The loop over the characters of a string, which returns what is left of the width.
The byte is read before the precision is tested.  The first argument bounds the rounds:
after `2 ^ 32` of them every address has been read. -/
def strLoop (altflag : Bool) : ℕ → Loc → Word → Word → Fmt σ Word
  | 0, _, _, _ => spin
  | fuel + 1, p, precision, width => do
    let ch ← peek m p
    if ch = 0#8 then return width
    if precision.toInt < 0 then
      putOne put altflag ch
      strLoop altflag fuel p.next precision (width - 1#32)
    else if 0 ≤ (precision - 1#32).toInt then
      putOne put altflag ch
      strLoop altflag fuel p.next (precision - 1#32) (width - 1#32)
    else
      return width

/-- The padding on the left of a string, which returns what is left of the width. -/
def padLeft (p : Loc) (fl : Flags) : Fmt σ Word := do
  if 0 < fl.width.toInt ∧ fl.padc ≠ chr '-' then
    let n ← strnlen m fl.precision.toNat p 0#32
    let width := fl.width - n
    putTimes put fl.padc.toNat width.toInt.toNat
    return if 0 < width.toInt then 0#32 else width
  else
    return fl.width

/-- The body of `case 's'`, for a pointer that is not null. -/
def printString (p : Loc) (fl : Flags) : Fmt σ Unit := do
  let width ← padLeft put m p fl
  let width ← strLoop put m fl.altflag (2 ^ 32) p fl.precision width
  putTimes put (chr ' ').toNat width.toInt.toNat

/-- `error_string`, and `MAXERROR`. -/
def errorStrings : List (Option (List (BitVec 8))) :=
  [none, some (str "unspecified error"), some (str "bad environment"),
    some (str "invalid parameter"), some (str "out of memory"), some (str "out of environments"),
    some (str "segmentation fault"), some (str "env is not recving"),
    some (str "unexpected end of file")]

/-- The message of an error code that is not negative, unless there is none.  The index
of the least `int`, which is its own negative, is `0` in a table of four-byte pointers. -/
def errorString (err : Word) : Option (List (BitVec 8)) :=
  if 9 ≤ err.toInt then none else errorStrings.getD (err.toNat % 2 ^ 30) none

/-- `printfmt` of a constant text. -/
def putStr : List (BitVec 8) → Fmt σ Unit
  | [] => pure ()
  | ch :: s => do
    putch put ch.toNat
    putStr s

/-- The body of `case 'e'`, with its two calls of `printfmt` written out: the formats are
`"error %d"` and `"%s"`. -/
def printError (err : Word) : Fmt σ Unit :=
  let err := if err.toInt < 0 then -err else err
  match errorString err with
  | none => do
    putStr put (str "error ")
    printSigned put err.toInt .default
  | some p => printString put m (.lit p 0) .default

/-! ## The format -/

/-- The loop over the digits of a width or a precision. -/
def number (precision : Word) : List (BitVec 8) → Word × List (BitVec 8)
  | [] => (precision, [])
  | ch :: fmt =>
    if chr '0' ≤ ch ∧ ch ≤ chr '9' then
      number (precision * 10#32 + ch.setWidth 32 - 48#32) fmt
    else (precision, ch :: fmt)

/-- The label `process_precision`. -/
def Flags.processPrecision (fl : Flags) : Flags :=
  if fl.width.toInt < 0 then { fl with width := fl.precision, precision := -1#32 } else fl

/-- The body of `case '.'`. -/
def Flags.dot (fl : Flags) : Flags :=
  { fl with width := if fl.width.toInt < 0 then 0#32 else fl.width }

/-- A directive: its flags, the character that ends it, what follows in the format, and the
arguments taken. -/
structure Directive where
  flags : Flags
  conv : BitVec 8
  rest : List (BitVec 8)
  ap : ℕ

theorem length_number (precision : Word) (fmt : List (BitVec 8)) :
    (number precision fmt).2.length ≤ fmt.length := by
  induction fmt generalizing precision with
  | nil => exact le_rfl
  | cons ch fmt ih =>
    unfold number
    split
    · exact (ih _).trans (Nat.le_succ _)
    · exact le_rfl

theorem length_number_cons {ch : BitVec 8} (h : chr '1' ≤ ch ∧ ch ≤ chr '9') (precision : Word)
    (fmt : List (BitVec 8)) : (number precision (ch :: fmt)).2.length < (ch :: fmt).length := by
  have h0 : chr '0' ≤ ch ∧ ch ≤ chr '9' := ⟨BitVec.le_trans (by decide) h.1, h.2⟩
  rw [number, if_pos h0]
  exact Nat.lt_succ_of_le (length_number _ fmt)

/-- The label `reswitch`: read flags up to a character that is none. -/
def reswitch (fmt : List (BitVec 8)) (fl : Flags) (ap : ℕ) : Directive :=
  match fmt with
  | [] => ⟨fl, 0#8, [], ap⟩
  | ch :: fmt =>
    if ch = chr '-' then reswitch fmt { fl with padc := chr '-' } ap
    else if ch = chr '0' then reswitch fmt { fl with padc := chr '0' } ap
    else if _ : chr '1' ≤ ch ∧ ch ≤ chr '9' then
      reswitch (number 0#32 (ch :: fmt)).2
        { fl with precision := (number 0#32 (ch :: fmt)).1 }.processPrecision ap
    else if ch = chr '*' then
      reswitch fmt { fl with precision := args ap }.processPrecision (ap + 1)
    else if ch = chr '.' then reswitch fmt fl.dot ap
    else if ch = chr '#' then reswitch fmt { fl with altflag := true } ap
    else if ch = chr 'l' then reswitch fmt { fl with lflag := fl.lflag + 1 } ap
    else ⟨fl, ch, fmt, ap⟩
termination_by fmt.length
decreasing_by all_goals first | exact length_number_cons ‹_› _ _ | exact Nat.lt_succ_self _

theorem length_reswitch (fmt : List (BitVec 8)) (fl : Flags) (ap : ℕ) :
    (reswitch args fmt fl ap).rest.length ≤ fmt.length := by
  fun_induction reswitch args fmt fl ap with
  | case4 _ _ _ fmt _ _ hd ih => exact ih.trans (length_number_cons hd 0#32 fmt).le
  | _ => simp_all only [List.length_cons, List.length_nil]; omega

/-- `ap`, before a directive. -/
def getAp : Fmt σ ℕ := Out.own fun r => .ok r.ap r

/-- `ap`, after the flags. -/
def setAp (ap : ℕ) : Fmt σ Unit := Out.own fun r => .ok () { r with ap := ap }

/-- The switch on the character that ends a directive; `none` is the label `default`. -/
def convert (d : Directive) : Option (Fmt σ Unit) :=
  if d.conv = chr 'c' then some do
    let w ← vaArg args
    putch put w.toInt
  else if d.conv = chr 'e' then some do
    let w ← vaArg args
    printError put m w
  else if d.conv = chr 's' then some do
    let w ← vaArg args
    printString put m (if w = 0#32 then .lit (str "(null)") 0 else .mem w) d.flags
  else if d.conv = chr 'd' then some do
    let num ← getint args d.flags.lflag
    printSigned put num d.flags
  else if d.conv = chr 'u' then some do
    let num ← getuint args d.flags.lflag
    printnum put num .dec d.flags.width d.flags.padc
  else if d.conv = chr 'o' then some do
    let num ← getuint args d.flags.lflag
    printnum put num .oct d.flags.width d.flags.padc
  else if d.conv = chr 'p' then some do
    putch put (chr '0').toNat
    putch put (chr 'x').toNat
    let w ← vaArg args
    printnum put w.toNat .hex d.flags.width d.flags.padc
  else if d.conv = chr 'x' then some do
    let num ← getuint args d.flags.lflag
    printnum put num .hex d.flags.width d.flags.padc
  else if d.conv = chr '%' then some (putch put (chr '%').toNat)
  else none

/-- `vprintfmt` -/
def vprintfmt (fmt : List (BitVec 8)) : Fmt σ Unit :=
  match fmt with
  | [] => pure ()
  | ch :: fmt =>
    if ch = chr '%' then do
      let ap ← getAp
      setAp (reswitch args fmt .default ap).ap
      match convert put m args (reswitch args fmt .default ap) with
      | some act => do
        act
        vprintfmt (reswitch args fmt .default ap).rest
      | none => do
        putch put (chr '%').toNat
        vprintfmt fmt
    else if ch = 0#8 then pure ()
    else do
      putch put ch.toNat
      vprintfmt fmt
termination_by fmt.length
decreasing_by
  · exact Nat.lt_succ_of_le (length_reswitch args fmt .default ap)
  · exact Nat.lt_succ_self _
  · exact Nat.lt_succ_self _

variable {m} in
/-- A byte that is there. -/
theorem peek_some {p : Loc} {b : BitVec 8} (h : p.read m = some b) (r : Run) (s : σ) :
    peek m p (r, s) = .ok b ({ r with reads := p :: r.reads }, s) := by
  unfold peek Out.own
  simp only [h]

theorem putTimes_snoc (ch : ℤ) (n : ℕ) (r : Run) (l : List ℤ) :
    putTimes snoc ch n (r, l) = .ok () (r, l ++ List.replicate n ch) := by
  induction n generalizing l with
  | zero =>
    rw [List.replicate_zero, List.append_nil]
    rfl
  | succ n ih =>
    rw [putTimes, bind_apply]
    refine (ih (l ++ [ch])).trans ?_
    rw [List.append_assoc, List.singleton_append, List.replicate_succ]

/-- Without a width there is no padding on the left. -/
theorem padLeft_of_width (p : Loc) {fl : Flags} (hw : fl.width.toInt ≤ 0) :
    padLeft put m p fl = pure fl.width :=
  if_neg fun h => absurd h.1 (by omega)

/-- The directive `%s`. -/
theorem convert_string {d : Directive} (hd : d.conv = chr 's') :
    convert put m args d = some (vaArg args >>= fun w =>
      printString put m (if w = 0#32 then .lit (str "(null)") 0 else .mem w) d.flags) := by
  unfold convert
  rw [if_neg (by rw [hd]; decide), if_neg (by rw [hd]; decide), if_pos hd]

/-- What `vprintfmt` does at a `%`: the flags are read, and then the switch is made. -/
theorem vprintfmt_directive (fmt : List (BitVec 8)) (r : Run) (s : σ) :
    vprintfmt put m args (chr '%' :: fmt) (r, s) =
      (match convert put m args (reswitch args fmt .default r.ap) with
        | some act => act >>= fun _ =>
            vprintfmt put m args (reswitch args fmt .default r.ap).rest
        | none => putch put (chr '%').toNat >>= fun _ => vprintfmt put m args fmt)
        ({ r with ap := (reswitch args fmt .default r.ap).ap }, s) := by
  rw [vprintfmt, if_pos rfl, bind_apply]
  show (setAp _ >>= fun _ => _) (r, s) = _
  rw [bind_apply]
  rfl

end

end Printfmt
end PmakeOs
