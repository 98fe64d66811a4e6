import PmakeOs.Console.Input
import PmakeOs.Console.Printfmt

/-!
# `kern/console.c`: the keyboard

`kbd_proc_data` turns the bytes of the keyboard controller into characters.  It keeps one word
`shift`, with a bit for each kind of modifier key, for each lock and for the escape byte `E0`, and
looks the character up in one of three tables.
-/

namespace PmakeOs
namespace Keyboard

open Lib Console Printfmt

/-! ## The tables -/

/-- `SHIFT`, `CTL` and `ALT` -/
def shiftBit : Word := 1#32
def ctl : Word := 2#32
def alt : Word := 4#32

/-- `CAPSLOCK`, `NUMLOCK` and `SCROLLLOCK` -/
def capslock : Word := 8#32
def numlock : Word := 16#32
def scrolllock : Word := 32#32

/-- `E0ESC` -/
def e0esc : Word := 64#32

/-- `KEY_DEL` -/
def keyDel : BitVec 8 := 0xE9#8

/-- An array of bytes: the entries from 0 on, and those with a designator. -/
def table (entries : List (BitVec 8)) (designated : List (ℕ × BitVec 8)) (i : BitVec 8) :
    BitVec 8 :=
  match designated.lookup i.toNat with
  | some c => c
  | none => entries.getD i.toNat 0#8

/-- `shiftcode` -/
def shiftcode : BitVec 8 → BitVec 8 :=
  table [] [(0x1D, 2#8), (0x2A, 1#8), (0x36, 1#8), (0x38, 4#8), (0x9D, 2#8), (0xB8, 4#8)]

/-- `togglecode` -/
def togglecode : BitVec 8 → BitVec 8 :=
  table [] [(0x3A, 8#8), (0x45, 16#8), (0x46, 32#8)]

/-- The keys behind the escape that have the same character in `normalmap` and `shiftmap`:
`KEY_HOME`, Enter and the division of the keypad, `KEY_UP`, `KEY_PGUP`, `KEY_LF`, `KEY_RT`,
`KEY_END`, `KEY_DN`, `KEY_PGDN`, `KEY_INS` and `KEY_DEL`. -/
def escaped : List (ℕ × BitVec 8) :=
  [(0xC7, 0xE0#8), (0x9C, 10#8), (0xB5, 0x2F#8), (0xC8, 0xE2#8), (0xC9, 0xE6#8), (0xCB, 0xE4#8),
    (0xCD, 0xE5#8), (0xCF, 0xE1#8), (0xD0, 0xE3#8), (0xD1, 0xE7#8), (0xD2, 0xE8#8), (0xD3, keyDel)]

/-- `normalmap` -/
def normalmap : BitVec 8 → BitVec 8 :=
  table ([0#8, 0x1B#8] ++ str "1234567890-=" ++ [8#8, 9#8] ++ str "qwertyuiop[]" ++
    [10#8, 0#8] ++ str "asdfghjkl;'\x60" ++ [0#8] ++ str "\\zxcvbnm,./" ++ [0#8] ++
    str "*" ++ [0#8] ++ str " " ++ List.replicate 13 0#8 ++ str "789-456+1230.")
    escaped

/-- `shiftmap` -/
def shiftmap : BitVec 8 → BitVec 8 :=
  table ([0#8, 0x1B#8] ++ str "!@#$%^&*()_+" ++ [8#8, 9#8] ++ str "QWERTYUIOP\x7b\x7d" ++
    [10#8, 0#8] ++ str "ASDFGHJKL:\"~" ++ [0#8] ++ str "|ZXCVBNM<>?" ++ [0#8] ++
    str "*" ++ [0#8] ++ str " " ++ List.replicate 13 0#8 ++ str "789-456+1230.")
    escaped

/-- `C(x)`, of the characters of a string constant. -/
def control (s : String) : List (BitVec 8) := (str s).map fun c => c - 0x40#8

/-- `ctlmap`.  `KEY_HOME` has another place here. -/
def ctlmap : BitVec 8 → BitVec 8 :=
  table (List.replicate 16 0#8 ++ control "QWERTYUIOP" ++ [0#8, 0#8, 13#8, 0#8] ++
    control "ASDFGHJKL" ++ [0#8, 0#8, 0#8, 0#8] ++ control "\\ZXCVBNM" ++ [0#8, 0#8] ++
    control "/" ++ [0#8, 0#8])
    [(0x97, 0xE0#8), (0xB5, 0x2F#8 - 0x40#8), (0xC8, 0xE2#8), (0xC9, 0xE6#8), (0xCB, 0xE4#8),
      (0xCD, 0xE5#8), (0xCF, 0xE1#8), (0xD0, 0xE3#8), (0xD1, 0xE7#8), (0xD2, 0xE8#8),
      (0xD3, keyDel)]

/-- `charcode[i]` -/
def charcode (i : Word) : BitVec 8 → BitVec 8 :=
  if i = 0#32 then normalmap else if i = 1#32 then shiftmap else ctlmap

/-! ## `kbd_proc_data` -/

/-- The variable `shift`, and how often the reset port has been written to. -/
structure Kbd where
  shift : Word
  resets : ℕ

/-- The variables at the start. -/
def Kbd.zero : Kbd := ⟨0#32, 0⟩

/-- Upper case to lower case, and lower case to upper case. -/
def swapCase (c : BitVec 8) : BitVec 8 :=
  if 'a'.toNat ≤ c.toNat ∧ c.toNat ≤ 'z'.toNat then c + (0x41#8 - 0x61#8)
  else if 'A'.toNat ≤ c.toNat ∧ c.toNat ≤ 'Z'.toNat then c + (0x61#8 - 0x41#8)
  else c

/-- The character at place `i` of the tables, when `shift` has been brought up to date. -/
def lookUp (shift : Word) (i : BitVec 8) : BitVec 8 :=
  let c := charcode (shift &&& (ctl ||| shiftBit)) i
  if shift &&& capslock ≠ 0#32 then swapCase c else c

/-- The last part of `kbd_proc_data`: a key with place `i` has been pressed. -/
def Kbd.pressed (i : BitVec 8) (k : Kbd) : BitVec 8 × Kbd :=
  let shift := (k.shift ||| (shiftcode i).setWidth 32) ^^^ (togglecode i).setWidth 32
  let c := lookUp shift i
  (c, ⟨shift, if ~~~shift &&& (ctl ||| alt) = 0#32 ∧ c = keyDel then k.resets + 1 else k.resets⟩)

/-- The branch of `kbd_proc_data` for a key that has been released. -/
def Kbd.released (i : BitVec 8) (k : Kbd) : Kbd :=
  { k with shift := k.shift &&& ~~~((shiftcode i).setWidth 32 ||| e0esc) }

/-- `kbd_proc_data`, when a byte of the keyboard has been read: the character, or zero. -/
def procByte (data : BitVec 8) (k : Kbd) : BitVec 8 × Kbd :=
  if data = 0xE0#8 then (0#8, { k with shift := k.shift ||| e0esc })
  else if data &&& 0x80#8 ≠ 0#8 then
    (0#8, k.released (if k.shift &&& e0esc ≠ 0#32 then data else data &&& 0x7F#8))
  else if k.shift &&& e0esc ≠ 0#32 then
    { k with shift := k.shift &&& ~~~e0esc }.pressed (data ||| 0x80#8)
  else
    k.pressed data

/-- `KBS_DIB` and `KBS_TERR` -/
def kbsDib : BitVec 8 := 0x01#8
def kbsTerr : BitVec 8 := 0x20#8

/-- `kbd_proc_data`, over what the status port and the data port deliver. -/
def kbdProcData (stat data : BitVec 8) (k : Kbd) : ℤ × Kbd :=
  if stat &&& kbsDib = 0#8 then (-1, k)
  else if stat &&& kbsTerr ≠ 0#8 then (-1, k)
  else ((procByte data k).1.toNat, (procByte data k).2)

/-- The results of `kbd_proc_data` in `cons_intr`, while the ports deliver these values. -/
def results : List (BitVec 8 × BitVec 8) → Kbd → List ℤ × Kbd
  | [], k => ([], k)
  | (stat, data) :: ports, k =>
    let (c, k') := kbdProcData stat data k
    if c = -1 then ([c], k')
    else
      let (cs, k'') := results ports k'
      (c :: cs, k'')

/-- `kbd_intr` -/
def kbdIntr (ports : List (BitVec 8 × BitVec 8)) (k : Kbd) (s : Cons) : Kbd × Cons :=
  ((results ports k).2, consIntr (results ports k).1 s)

/-- What the ports deliver while the controller holds some bytes of the keyboard. -/
def holding (bytes : List (BitVec 8)) : List (BitVec 8 × BitVec 8) :=
  bytes.map (fun data => (kbsDib, data)) ++ [(0#8, 0#8)]

/-- The characters that some bytes make, with zeros. -/
def decode : List (BitVec 8) → Kbd → List (BitVec 8) × Kbd
  | [], k => ([], k)
  | data :: bytes, k =>
    let (c, k') := procByte data k
    let (cs, k'') := decode bytes k'
    (c :: cs, k'')

theorem decode_cons (data : BitVec 8) (bytes : List (BitVec 8)) (k : Kbd) :
    decode (data :: bytes) k = ((procByte data k).1 :: (decode bytes (procByte data k).2).1,
      (decode bytes (procByte data k).2).2) := rfl

theorem decode_append (l l' : List (BitVec 8)) (k : Kbd) :
    decode (l ++ l') k =
      ((decode l k).1 ++ (decode l' (decode l k).2).1, (decode l' (decode l k).2).2) := by
  induction l generalizing k with
  | nil => rfl
  | cons data l ih =>
    rw [List.cons_append, decode_cons, decode_cons, ih]
    rfl

/-- **An interrupt hands the characters of all bytes to the queue.** -/
theorem kbdIntr_holding (bytes : List (BitVec 8)) (k : Kbd) (s : Cons) :
    kbdIntr (holding bytes) k s =
      ((decode bytes k).2, consIntr (values (decode bytes k).1) s) := by
  have hresults : results (holding bytes) k =
      (values (decode bytes k).1 ++ [-1], (decode bytes k).2) := by
    induction bytes generalizing k with
    | nil => rfl
    | cons data bytes ih =>
      have hproc : kbdProcData kbsDib data k =
          (((procByte data k).1.toNat : ℤ), (procByte data k).2) := rfl
      have hne : ¬ (((procByte data k).1.toNat : ℤ) = -1) := by omega
      show results ((kbsDib, data) :: holding bytes) k = _
      rw [results, hproc]
      dsimp only
      rw [if_neg hne, ih, decode_cons]
      rfl
  have hend : ∀ (l : List (BitVec 8)) (s : Cons),
      consIntr (values l ++ [-1]) s = consIntr (values l) s := by
    intro l
    induction l with
    | nil => exact fun _ => rfl
    | cons c l ih =>
      intro s
      have hne : ¬ ((c.toNat : ℤ) = -1) := by omega
      show consIntr ((c.toNat : ℤ) :: (values l ++ [-1])) s = consIntr ((c.toNat : ℤ) :: values l) s
      rw [consIntr, consIntr, if_neg hne, if_neg hne, ih, ih]
  rw [kbdIntr, hresults, hend]

end Keyboard
end PmakeOs
