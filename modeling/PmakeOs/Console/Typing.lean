import PmakeOs.Console.Keyboard
import PmakeOs.Console.Readline
import Mathlib.Data.Fintype.Option

/-!
# Typing on the keyboard

A `Board` is the keyboard as its user sees it: the keys that are down, and the locks that are on.
`kbd_proc_data` sees bytes only, and keeps one bit for the two keys of a modifier.  It follows the
board after every stroke exactly when no key of a modifier is released while the other one is
down, and no lock is held down until it repeats (`follows_iff`).

With the queue of `Console.Input` and the editor of `Readline`, a line that is typed is the line
that `readline` returns (`readline_typed`).
-/

namespace PmakeOs
namespace Keyboard

open Lib Console

/-! ## Keys -/

/-- A key: its scan code, and whether the escape byte comes first.  No key has the code `60`, of
which the release would be an escape byte.  `Pause`, which sends six bytes from `E1` on and none
when it is released, is not among them. -/
structure Key where
  code : BitVec 8
  extended : Bool
  lt : code < 0x80#8
  ne : code ≠ 0x60#8
  deriving DecidableEq

/-- The place of a key in the tables. -/
def Key.index (k : Key) : BitVec 8 := if k.extended then k.code ||| 0x80#8 else k.code

inductive Modifier where
  | shift
  | ctl
  | alt
  deriving DecidableEq

instance : Fintype Modifier := ⟨{.shift, .ctl, .alt}, fun m => by cases m <;> decide⟩

inductive Lock where
  | caps
  | num
  | scroll
  deriving DecidableEq

instance : Fintype Lock := ⟨{.caps, .num, .scroll}, fun l => by cases l <;> decide⟩

/-- The keys of a modifier. -/
def Modifier.left : Modifier → Key
  | .shift => ⟨0x2A#8, false, by decide, by decide⟩
  | .ctl => ⟨0x1D#8, false, by decide, by decide⟩
  | .alt => ⟨0x38#8, false, by decide, by decide⟩

def Modifier.right : Modifier → Key
  | .shift => ⟨0x36#8, false, by decide, by decide⟩
  | .ctl => ⟨0x1D#8, true, by decide, by decide⟩
  | .alt => ⟨0x38#8, true, by decide, by decide⟩

def Modifier.bit : Modifier → Word
  | .shift => shiftBit
  | .ctl => Keyboard.ctl
  | .alt => Keyboard.alt

def Lock.key : Lock → Key
  | .caps => ⟨0x3A#8, false, by decide, by decide⟩
  | .num => ⟨0x45#8, false, by decide, by decide⟩
  | .scroll => ⟨0x46#8, false, by decide, by decide⟩

def Lock.bit : Lock → Word
  | .caps => capslock
  | .num => numlock
  | .scroll => scrolllock

/-- The modifier that a key belongs to. -/
def Key.modifier (k : Key) : Option Modifier :=
  [Modifier.shift, .ctl, .alt].find? fun m => k = m.left ∨ k = m.right

/-- The lock that a key switches. -/
def Key.lock (k : Key) : Option Lock := [Lock.caps, .num, .scroll].find? fun l => k = l.key

/-- `Del`, which is not the one of the keypad. -/
def deleteKey : Key := ⟨0x53#8, true, by decide, by decide⟩

/-! ## The board -/

/-- The keys that are down, and the locks that are on. -/
structure Board where
  down : Key → Bool
  lit : Lock → Bool

def Board.zero : Board := ⟨fun _ => false, fun _ => false⟩

/-- A key of the modifier is down. -/
def Board.holds (b : Board) (m : Modifier) : Bool := b.down m.left || b.down m.right

/-- What is on the key, with the modifiers that are held and the locks that are on. -/
def Board.char (b : Board) (k : Key) : BitVec 8 :=
  let c := (if b.holds .ctl then ctlmap else if b.holds .shift then shiftmap else normalmap) k.index
  if b.lit .caps then swapCase c else c

/-- What happens to a key. -/
inductive Stroke where
  | press (k : Key)
  /-- The keyboard repeats a key that is held down. -/
  | again (k : Key)
  | release (k : Key)

/-- The board after a stroke. -/
def Board.after (b : Board) : Stroke → Board
  | .press k => ⟨Function.update b.down k true, fun l => xor (b.lit l) (decide (k.lock = some l))⟩
  | .again k => { b with down := Function.update b.down k true }
  | .release k => { b with down := Function.update b.down k false }

/-- The board, the characters that have been typed, and how often it was `Ctrl`-`Alt`-`Del`. -/
structure Desk where
  board : Board
  typed : List (BitVec 8)
  resets : ℕ

def Desk.zero : Desk := ⟨.zero, [], 0⟩

/-- A key that is down types. -/
def Desk.types (d : Desk) (k : Key) : Desk :=
  { d with
    typed := d.typed ++ chars [d.board.char k]
    resets := if d.board.holds .ctl ∧ d.board.holds .alt ∧ k = deleteKey then d.resets + 1
      else d.resets }

def Desk.step (d : Desk) (e : Stroke) : Desk :=
  let d := { d with board := d.board.after e }
  match e with
  | .press k | .again k => d.types k
  | .release _ => d

/-- The desk after some strokes. -/
def desk (es : List Stroke) : Desk := es.foldl Desk.step .zero

/-! ## Bytes -/

/-- The escape byte of an extended key. -/
def Key.escape (k : Key) : List (BitVec 8) := if k.extended then [0xE0#8] else []

/-- What the keyboard sends for a stroke. -/
def Stroke.bytes : Stroke → List (BitVec 8)
  | .press k | .again k => k.escape ++ [k.code]
  | .release k => k.escape ++ [k.code ||| 0x80#8]

/-- What it sends for some strokes. -/
def bytesOf (es : List Stroke) : List (BitVec 8) := es.flatMap Stroke.bytes

/-- The flags that are set. -/
def flagWord (onShift onCtl onAlt onCaps onNum onScroll : Bool) : Word :=
  (if onShift then shiftBit else 0#32) ||| (if onCtl then ctl else 0#32) |||
    (if onAlt then alt else 0#32) ||| (if onCaps then capslock else 0#32) |||
    (if onNum then numlock else 0#32) ||| (if onScroll then scrolllock else 0#32)

/-- `shift`, for the modifiers that are held and the locks that are on. -/
def Board.flags (b : Board) : Word :=
  flagWord (b.holds .shift) (b.holds .ctl) (b.holds .alt) (b.lit .caps) (b.lit .num) (b.lit .scroll)

/-- The driver has understood the strokes: it knows the modifiers and the locks, has returned the
characters that were typed, and has told the machine to reset as often as it should. -/
structure Follows (es : List Stroke) : Prop where
  shift : (decode (bytesOf es) .zero).2.shift = (desk es).board.flags
  typed : chars (decode (bytesOf es) .zero).1 = (desk es).typed
  resets : (decode (bytesOf es) .zero).2.resets = (desk es).resets

/-- The stroke is not the release of a key of a modifier of which the other key is down, nor the
repetition of a lock. -/
def Board.Regular (b : Board) : Stroke → Prop
  | .press _ => True
  | .again k => k.lock = none
  | .release k => ∀ k', k' ≠ k → k'.modifier = k.modifier → k.modifier ≠ none → b.down k' = false

/-- All strokes are of that kind. -/
def Careful (es : List Stroke) : Prop :=
  ∀ pre e, pre ++ [e] <+: es → (desk pre).board.Regular e

/-! ## Scan codes -/

/-- What the tables say of a key, and of which key they say it. -/
theorem Key.table_facts (k : Key) :
    (k.code ≠ 0xE0#8 ∧ k.code &&& 0x80#8 = 0#8 ∧ k.code ||| 0x80#8 ≠ 0xE0#8 ∧
      (k.code ||| 0x80#8) &&& 0x80#8 ≠ 0#8 ∧ (k.code ||| 0x80#8) &&& 0x7F#8 = k.code) ∧
    ((shiftcode k.index).setWidth 32 = (k.modifier.map Modifier.bit).getD 0#32 ∧
      (togglecode k.index).setWidth 32 = (k.lock.map Lock.bit).getD 0#32) ∧
    (∀ m, k.modifier = some m ↔ k = m.left ∨ k = m.right) ∧
    (ctlmap k.index = keyDel ↔ k = deleteKey) := by
  obtain ⟨code, extended, hlt, hne⟩ := k
  revert code extended
  decide +kernel

theorem Key.code_facts (k : Key) : k.code ≠ 0xE0#8 ∧ k.code &&& 0x80#8 = 0#8 ∧
    k.code ||| 0x80#8 ≠ 0xE0#8 ∧ (k.code ||| 0x80#8) &&& 0x80#8 ≠ 0#8 ∧
    (k.code ||| 0x80#8) &&& 0x7F#8 = k.code :=
  k.table_facts.1

/-- `shiftcode` has the modifiers. -/
theorem shiftcode_index (k : Key) :
    (shiftcode k.index).setWidth 32 = (k.modifier.map Modifier.bit).getD 0#32 :=
  k.table_facts.2.1.1

/-- `togglecode` has the locks. -/
theorem togglecode_index (k : Key) :
    (togglecode k.index).setWidth 32 = (k.lock.map Lock.bit).getD 0#32 :=
  k.table_facts.2.1.2

theorem modifier_eq_some {k : Key} {m : Modifier} :
    k.modifier = some m ↔ k = m.left ∨ k = m.right :=
  k.table_facts.2.2.1 m

/-- Only `Del` has the character `KEY_DEL` in `ctlmap`. -/
theorem ctlmap_index_eq_keyDel (k : Key) : ctlmap k.index = keyDel ↔ k = deleteKey :=
  k.table_facts.2.2.2

theorem swapCase_eq_keyDel (c : BitVec 8) : swapCase c = keyDel ↔ c = keyDel := by
  have hvals : 'a'.toNat = 97 ∧ 'z'.toNat = 122 ∧ 'A'.toNat = 65 ∧ 'Z'.toNat = 90 := by decide
  rw [swapCase, keyDel, hvals.1, hvals.2.1, hvals.2.2.1, hvals.2.2.2]
  split_ifs with hlower hupper
  · bv_omega
  · bv_omega
  · exact Iff.rfl

/-! ## The word `shift` -/

/-- What the operations of `kbd_proc_data` on `shift` do to its bits. -/
theorem flagWord_facts (f1 f2 f3 g1 g2 g3 : Bool) :
    (∀ (m : Option Modifier) (l : Option Lock),
      flagWord (f1 || decide (m = some .shift)) (f2 || decide (m = some .ctl))
          (f3 || decide (m = some .alt)) (xor g1 (decide (l = some .caps)))
          (xor g2 (decide (l = some .num))) (xor g3 (decide (l = some .scroll))) =
        (flagWord f1 f2 f3 g1 g2 g3 ||| (m.map Modifier.bit).getD 0#32) ^^^
          (l.map Lock.bit).getD 0#32) ∧
    (∀ l : Option Lock,
      flagWord f1 f2 f3 g1 g2 g3 = flagWord f1 f2 f3 (xor g1 (decide (l = some .caps)))
          (xor g2 (decide (l = some .num))) (xor g3 (decide (l = some .scroll))) ↔ l = none) ∧
    (∀ m : Option Modifier,
      flagWord (f1 && !decide (m = some .shift)) (f2 && !decide (m = some .ctl))
          (f3 && !decide (m = some .alt)) g1 g2 g3 =
        flagWord f1 f2 f3 g1 g2 g3 &&& ~~~(m.map Modifier.bit).getD 0#32) ∧
    ((flagWord f1 f2 f3 g1 g2 g3 &&& shiftBit ≠ 0#32 ↔ f1 = true) ∧
      (flagWord f1 f2 f3 g1 g2 g3 &&& ctl ≠ 0#32 ↔ f2 = true) ∧
      (flagWord f1 f2 f3 g1 g2 g3 &&& alt ≠ 0#32 ↔ f3 = true)) ∧
    flagWord f1 f2 f3 g1 g2 g3 &&& e0esc = 0#32 ∧
    (flagWord f1 f2 f3 g1 g2 g3 &&& (ctl ||| shiftBit) =
        if f2 then (if f1 then 3#32 else 2#32) else (if f1 then 1#32 else 0#32)) ∧
    (flagWord f1 f2 f3 g1 g2 g3 &&& capslock ≠ 0#32 ↔ g1 = true) ∧
    (~~~flagWord f1 f2 f3 g1 g2 g3 &&& (ctl ||| alt) = 0#32 ↔ f2 = true ∧ f3 = true) := by
  revert f1 f2 f3 g1 g2 g3
  decide +kernel

/-- The board after a press of `k`, by its modifiers and locks. -/
theorem holds_press (b : Board) (k : Key) (m : Modifier) :
    (b.after (.press k)).holds m = (b.holds m || decide (k.modifier = some m)) := by
  have hd : (b.after (.press k)).holds m =
      (Function.update b.down k true m.left || Function.update b.down k true m.right) := rfl
  rw [hd, Board.holds]
  by_cases hk : k.modifier = some m
  · rw [decide_eq_true hk, Bool.or_true]
    rcases modifier_eq_some.mp hk with rfl | rfl
    · rw [Function.update_self, Bool.true_or]
    · rw [Function.update_self, Bool.or_true]
  · have hne : ¬ (k = m.left ∨ k = m.right) := mt modifier_eq_some.mpr hk
    push Not at hne
    rw [decide_eq_false hk, Bool.or_false, Function.update_of_ne hne.1.symm,
      Function.update_of_ne hne.2.symm]

/-- What `kbd_proc_data` does to `shift` when a key is pressed. -/
theorem flags_press (b : Board) (k : Key) :
    (b.after (.press k)).flags = (b.flags ||| (shiftcode k.index).setWidth 32) ^^^
      (togglecode k.index).setWidth 32 := by
  rw [shiftcode_index, togglecode_index, Board.flags, Board.flags,
    ← (flagWord_facts _ _ _ _ _ _).1, holds_press, holds_press, holds_press]
  rfl

/-- A repetition does to `shift` what a press does, which is wrong for a lock. -/
theorem flags_again_iff (b : Board) (k : Key) :
    (b.after (.again k)).flags = (b.after (.press k)).flags ↔ k.lock = none :=
  (flagWord_facts _ _ _ _ _ _).2.1 k.lock

/-- The bits of the modifiers in `shift`. -/
theorem flags_and_bit (b : Board) (m : Modifier) : b.flags &&& m.bit ≠ 0#32 ↔ b.holds m = true := by
  obtain ⟨-, -, -, ⟨h1, h2, h3⟩, -⟩ := flagWord_facts (b.holds .shift) (b.holds .ctl)
    (b.holds .alt) (b.lit .caps) (b.lit .num) (b.lit .scroll)
  cases m
  · exact h1
  · exact h2
  · exact h3

/-- **A release clears the bit of its modifier**, which is right if the other key is not down. -/
theorem flags_release_iff (b : Board) (k : Key) :
    (b.after (.release k)).flags = b.flags &&& ~~~(shiftcode k.index).setWidth 32 ↔
      b.Regular (.release k) := by
  have hdown : ∀ k', (b.after (.release k)).down k' = (b.down k' && !decide (k' = k)) := by
    intro k'
    show Function.update b.down k false k' = _
    by_cases hk : k' = k
    · rw [hk, Function.update_self, decide_eq_true rfl, Bool.not_true, Bool.and_false]
    · rw [Function.update_of_ne hk, decide_eq_false hk, Bool.not_false, Bool.and_true]
  constructor
  · intro heq k' hne hmod hsome
    obtain ⟨m, hm⟩ := Option.ne_none_iff_exists'.mp hsome
    by_contra hk'
    -- the other key is down, so the modifier is held
    have hholds : (b.after (.release k)).holds m = true := by
      have hd : (b.after (.release k)).down k' = true := by
        rw [hdown, decide_eq_false hne, Bool.not_false, Bool.and_true]
        exact eq_true_of_ne_false hk'
      rw [Board.holds, Bool.or_eq_true]
      rcases modifier_eq_some.mp (hmod.trans hm) with rfl | rfl
      · exact Or.inl hd
      · exact Or.inr hd
    have hbit := (flags_and_bit _ _).mpr hholds
    rw [heq, shiftcode_index, hm] at hbit
    refine hbit ?_
    show b.flags &&& ~~~m.bit &&& m.bit = 0#32
    rw [BitVec.and_assoc, BitVec.and_comm (~~~m.bit), BitVec.and_not_self]
    exact BitVec.and_zero
  · intro hreg
    have hholds : ∀ m, (b.after (.release k)).holds m =
        (b.holds m && !decide (k.modifier = some m)) := by
      intro m
      rw [Board.holds, hdown, hdown, Board.holds]
      by_cases hm : k.modifier = some m
      · have hother : ∀ k', k' = m.left ∨ k' = m.right →
            (b.down k' && !decide (k' = k)) = false := by
          intro k' hk'
          by_cases hk : k' = k
          · rw [decide_eq_true hk, Bool.not_true, Bool.and_false]
          · rw [hreg k' hk ((modifier_eq_some.mpr hk').trans hm.symm) (by rw [hm]; exact nofun),
              Bool.false_and]
        rw [hother _ (Or.inl rfl), hother _ (Or.inr rfl), decide_eq_true hm, Bool.not_true,
          Bool.and_false, Bool.or_false]
      · have hne : ¬ (k = m.left ∨ k = m.right) := mt modifier_eq_some.mpr hm
        push Not at hne
        rw [decide_eq_false hne.1.symm, decide_eq_false hne.2.symm, decide_eq_false hm]
        simp
    rw [shiftcode_index, Board.flags, Board.flags, ← (flagWord_facts _ _ _ _ _ _).2.2.1, hholds,
      hholds, hholds]
    rfl

/-! ## The bytes of a stroke -/

theorem flags_escape (b : Board) : b.flags &&& e0esc = 0#32 :=
  (flagWord_facts _ _ _ _ _ _).2.2.2.2.1

/-- The character that `kbd_proc_data` looks up. -/
theorem lookUp_flags (b : Board) (k : Key) : lookUp b.flags k.index = b.char k := by
  obtain ⟨-, -, -, -, -, hmode, hcaps, -⟩ := flagWord_facts (b.holds .shift) (b.holds .ctl)
    (b.holds .alt) (b.lit .caps) (b.lit .num) (b.lit .scroll)
  have hchar : charcode (b.flags &&& (ctl ||| shiftBit)) =
      if b.holds .ctl then ctlmap else if b.holds .shift then shiftmap else normalmap := by
    rw [Board.flags, hmode]
    cases b.holds .ctl <;> cases b.holds .shift <;> rfl
  rw [lookUp, hchar, Board.char]
  exact if_congr hcaps rfl rfl

/-- When `kbd_proc_data` writes to the reset port. -/
theorem resets_flags (b : Board) (k : Key) :
    ~~~b.flags &&& (ctl ||| alt) = 0#32 ∧ b.char k = keyDel ↔
      b.holds .ctl = true ∧ b.holds .alt = true ∧ k = deleteKey := by
  have hboth : ~~~b.flags &&& (ctl ||| alt) = 0#32 ↔ b.holds .ctl = true ∧ b.holds .alt = true :=
    (flagWord_facts _ _ _ _ _ _).2.2.2.2.2.2.2
  rw [hboth, and_assoc]
  refine and_congr_right fun hctl => and_congr_right fun _ => ?_
  rw [Board.char, if_pos hctl, ← ctlmap_index_eq_keyDel]
  cases b.lit .caps
  · exact Iff.rfl
  · exact swapCase_eq_keyDel _

section Bytes

variable {s : Kbd} (k : Key)

/-- The zeros that the escape byte leads to. -/
def Key.silence (k : Key) : List (BitVec 8) := if k.extended then [0#8] else []

theorem and_not_escape {w : Word} (hw : w &&& e0esc = 0#32) : w &&& ~~~e0esc = w := by
  refine BitVec.eq_of_getLsbD_eq fun i hi => ?_
  have hbit := congrArg (fun w => w.getLsbD i) hw
  simp only [BitVec.getLsbD_and, BitVec.getLsbD_not, BitVec.getLsbD_zero] at hbit ⊢
  cases hwi : w.getLsbD i <;> simp_all

theorem escape_cleared {w : Word} (hw : w &&& e0esc = 0#32) :
    (w ||| e0esc) &&& e0esc ≠ 0#32 ∧ (w ||| e0esc) &&& ~~~e0esc = w := by
  constructor
  · rw [BitVec.and_or_distrib_right, hw]
    decide
  · rw [BitVec.and_or_distrib_right, and_not_escape hw, BitVec.and_not_self]
    exact BitVec.or_zero

/-- The bytes of a press, or of a repetition. -/
theorem decode_pressed (hs : s.shift &&& e0esc = 0#32) :
    decode (k.escape ++ [k.code]) s =
      (k.silence ++ [(s.pressed k.index).1], (s.pressed k.index).2) := by
  obtain ⟨hE, hmake, -⟩ := k.code_facts
  have hmake' : ¬ (k.code &&& 0x80#8 ≠ 0#8) := not_not.mpr hmake
  cases hext : k.extended with
  | false =>
    have hproc : procByte k.code s = s.pressed k.code := by
      rw [procByte, if_neg hE, if_neg hmake', if_neg (not_not.mpr hs)]
    rw [Key.escape, Key.silence, Key.index, hext]
    show ((procByte k.code s).1 :: [], (procByte k.code s).2) = _
    rw [hproc]
    rfl
  | true =>
    obtain ⟨hset, hclear⟩ := escape_cleared hs
    have hproc : procByte k.code { s with shift := s.shift ||| e0esc } =
        s.pressed (k.code ||| 0x80#8) := by
      rw [procByte, if_neg hE, if_neg hmake', if_pos hset, hclear]
    rw [Key.escape, Key.silence, Key.index, hext]
    show (0#8 :: (procByte k.code { s with shift := s.shift ||| e0esc }).1 :: [],
      (procByte k.code { s with shift := s.shift ||| e0esc }).2) = _
    rw [hproc]
    rfl

/-- The bytes of a release. -/
theorem decode_released (hs : s.shift &&& e0esc = 0#32) :
    decode (k.escape ++ [k.code ||| 0x80#8]) s = (k.silence ++ [0#8],
      { s with shift := s.shift &&& ~~~(shiftcode k.index).setWidth 32 }) := by
  obtain ⟨-, -, hE, hbreak, hcode⟩ := k.code_facts
  cases hext : k.extended with
  | false =>
    have hproc : procByte (k.code ||| 0x80#8) s = (0#8, s.released k.code) := by
      rw [procByte, if_neg hE, if_pos hbreak, if_neg (not_not.mpr hs), hcode]
    rw [Key.escape, Key.silence, Key.index, hext]
    show ((procByte (k.code ||| 0x80#8) s).1 :: [], (procByte (k.code ||| 0x80#8) s).2) = _
    rw [hproc, Kbd.released, BitVec.not_or, BitVec.and_comm (~~~_), ← BitVec.and_assoc,
      and_not_escape hs]
    rfl
  | true =>
    obtain ⟨hset, hclear⟩ := escape_cleared hs
    have hproc : procByte (k.code ||| 0x80#8) { s with shift := s.shift ||| e0esc } =
        (0#8, { s with shift := s.shift ||| e0esc }.released (k.code ||| 0x80#8)) := by
      rw [procByte, if_neg hE, if_pos hbreak, if_pos hset]
    rw [Key.escape, Key.silence, Key.index, hext]
    show (0#8 :: (procByte (k.code ||| 0x80#8) { s with shift := s.shift ||| e0esc }).1 :: [],
      (procByte (k.code ||| 0x80#8) { s with shift := s.shift ||| e0esc }).2) = _
    rw [hproc, Kbd.released, BitVec.not_or, BitVec.and_comm (~~~_), ← BitVec.and_assoc, hclear]
    rfl

end Bytes

/-! ## The driver follows the board -/

section Run

variable {es : List Stroke} {e : Stroke} {k : Key}

theorem desk_snoc (es : List Stroke) (e : Stroke) : desk (es ++ [e]) = (desk es).step e :=
  List.foldl_append

theorem decode_bytesOf_snoc (es : List Stroke) (e : Stroke) :
    decode (bytesOf (es ++ [e])) .zero =
      ((decode (bytesOf es) .zero).1 ++ (decode e.bytes (decode (bytesOf es) .zero).2).1,
        (decode e.bytes (decode (bytesOf es) .zero).2).2) := by
  have hbytes : bytesOf (es ++ [e]) = bytesOf es ++ e.bytes := by
    rw [bytesOf, List.flatMap_append, List.flatMap_singleton]
    rfl
  rw [hbytes, decode_append]

theorem chars_silence (k : Key) (l : List (BitVec 8)) : chars (k.silence ++ l) = chars l := by
  unfold Key.silence
  split
  · exact List.filter_cons_of_neg (by decide)
  · rfl

theorem chars_append (l l' : List (BitVec 8)) : chars (l ++ l') = chars l ++ chars l' :=
  List.filter_append ..

/-- A key that types, on a board with the flags that `kbd_proc_data` has computed. -/
theorem Follows.types (h : Follows es) {b : Board} (hbytes : e.bytes = k.escape ++ [k.code])
    (hstep : (desk es).step e = { desk es with board := b }.types k)
    (hflags : ((decode (bytesOf es) .zero).2.pressed k.index).2.shift = b.flags) :
    Follows (es ++ [e]) := by
  generalize hs : (decode (bytesOf es) .zero).2 = s at hflags
  have hclear : s.shift &&& e0esc = 0#32 := by
    rw [← hs, h.shift]
    exact flags_escape _
  have hchar : (s.pressed k.index).1 = b.char k := by
    rw [← lookUp_flags, ← hflags]
    rfl
  have hdecode := decode_bytesOf_snoc es e
  rw [hs, hbytes, decode_pressed k hclear] at hdecode
  refine ⟨?_, ?_, ?_⟩
  · rw [hdecode, desk_snoc, hstep]
    exact hflags
  · rw [hdecode, desk_snoc, hstep]
    show chars ((decode (bytesOf es) .zero).1 ++ (k.silence ++ [(s.pressed k.index).1])) = _
    rw [chars_append, chars_silence, h.typed, hchar]
    rfl
  · rw [hdecode, desk_snoc, hstep]
    show (if ~~~(s.pressed k.index).2.shift &&& (ctl ||| alt) = 0#32 ∧
      (s.pressed k.index).1 = keyDel then s.resets + 1 else s.resets) = _
    rw [hflags, hchar, ← hs, h.resets]
    exact if_congr (resets_flags b k) rfl rfl

/-- **One stroke**: the driver goes on following if the stroke is regular, and not otherwise. -/
theorem Follows.step_iff (h : Follows es) (e : Stroke) :
    Follows (es ++ [e]) ↔ (desk es).board.Regular e := by
  have hshift := h.shift
  have hclear : (decode (bytesOf es) .zero).2.shift &&& e0esc = 0#32 := by
    rw [hshift]
    exact flags_escape _
  cases e with
  | press k =>
    refine iff_of_true (h.types (b := (desk es).board.after (.press k)) rfl rfl ?_) trivial
    rw [flags_press, ← hshift]
    rfl
  | again k =>
    have hpressed : ((decode (bytesOf es) .zero).2.pressed k.index).2.shift =
        ((desk es).board.after (.press k)).flags := by
      rw [flags_press, ← hshift]
      rfl
    refine Iff.trans ⟨fun h' => ?_, fun heq => ?_⟩ (flags_again_iff (desk es).board k)
    · have hshift' := h'.shift
      rw [decode_bytesOf_snoc, desk_snoc] at hshift'
      rw [← hpressed]
      have hdecode := decode_pressed k hclear
      rw [show Stroke.bytes (.again k) = k.escape ++ [k.code] from rfl, hdecode] at hshift'
      exact hshift'.symm
    · refine h.types (b := (desk es).board.after (.again k)) rfl rfl ?_
      rw [hpressed, heq]
  | release k =>
    have hdecode := decode_bytesOf_snoc es (.release k)
    rw [show Stroke.bytes (.release k) = k.escape ++ [k.code ||| 0x80#8] from rfl,
      decode_released k hclear] at hdecode
    refine Iff.trans ⟨fun h' => ?_, fun heq => ⟨?_, ?_, ?_⟩⟩ (flags_release_iff (desk es).board k)
    · have hshift' := h'.shift
      rw [hdecode, desk_snoc] at hshift'
      rw [← hshift]
      exact hshift'.symm
    · rw [hdecode, desk_snoc]
      rw [← hshift] at heq
      exact heq.symm
    · rw [hdecode, desk_snoc]
      show chars ((decode (bytesOf es) .zero).1 ++ (k.silence ++ [0#8])) = (desk es).typed
      rw [chars_append, chars_silence, h.typed]
      exact List.append_nil _
    · rw [hdecode, desk_snoc]
      exact h.resets

theorem careful_snoc_iff (es : List Stroke) (e : Stroke) :
    Careful (es ++ [e]) ↔ Careful es ∧ (desk es).board.Regular e := by
  constructor
  · intro h
    exact ⟨fun pre e' hpre => h pre e' (hpre.trans (List.prefix_append _ _)),
      h es e List.prefix_rfl⟩
  · rintro ⟨h, he⟩ pre e' hpre
    rcases List.prefix_concat_iff.mp hpre with heq | hpre
    · obtain ⟨rfl, hlast⟩ := List.append_inj' heq rfl
      rw [(List.cons.inj hlast).1]
      exact he
    · exact h pre e' hpre

theorem follows_nil : Follows [] := ⟨by decide, rfl, rfl⟩

/-- Regular strokes are followed. -/
theorem Careful.follows (h : Careful es) : Follows es := by
  induction es using List.reverseRecOn with
  | nil => exact follows_nil
  | append_singleton es e ih =>
    obtain ⟨hes, he⟩ := (careful_snoc_iff es e).mp h
    exact ((ih hes).step_iff e).mpr he

/-- **The driver follows the board, stroke after stroke, exactly if every stroke is regular.** -/
theorem follows_iff (es : List Stroke) : (∀ pre, pre <+: es → Follows pre) ↔ Careful es := by
  constructor
  · intro h pre e hpre
    exact ((h pre ((List.prefix_append _ _).trans hpre)).step_iff e).mp (h _ hpre)
  · intro h pre hpre
    have hpre' : Careful pre := fun pre' e hpre' => h pre' e (hpre'.trans hpre)
    exact hpre'.follows

/-! ## What can be typed -/

/-- The text can be typed, and then all keys are up. -/
def Typable (text : List (BitVec 8)) : Prop :=
  ∃ es, Careful es ∧ (desk es).typed = text ∧ (desk es).board = .zero

theorem Board.after_press (b : Board) (hlock : k.lock = none) :
    b.after (.press k) = { b with down := Function.update b.down k true } := by
  unfold Board.after
  dsimp only
  rw [hlock]
  congr 1
  funext l
  exact Bool.xor_false _

theorem Board.press_release {b : Board} (hlock : k.lock = none) (hup : b.down k = false) :
    (b.after (.press k)).after (.release k) = b := by
  rw [b.after_press hlock, Board.after]
  dsimp only
  rw [Function.update_idem, ← hup, Function.update_eq_self]

/-- What a key that is no modifier types does not depend on itself. -/
theorem Board.char_press (b : Board) (hmod : k.modifier = none) (hlock : k.lock = none) :
    (b.after (.press k)).char k = b.char k := by
  have hholds : ∀ m, (b.after (.press k)).holds m = b.holds m := by
    intro m
    rw [holds_press, hmod, decide_eq_false nofun, Bool.or_false]
  rw [Board.char, Board.char, hholds, hholds, b.after_press hlock]

/-- A key that is neither a modifier nor a lock is pressed and released. -/
theorem tap (hcareful : Careful es) (hmod : k.modifier = none) (hlock : k.lock = none)
    (hup : (desk es).board.down k = false) :
    Careful (es ++ [.press k] ++ [.release k]) ∧
      (desk (es ++ [.press k] ++ [.release k])).typed =
        (desk es).typed ++ chars [(desk es).board.char k] ∧
      (desk (es ++ [.press k] ++ [.release k])).board = (desk es).board := by
  refine ⟨?_, ?_, ?_⟩
  · rw [careful_snoc_iff, careful_snoc_iff]
    exact ⟨⟨hcareful, trivial⟩, fun k' _ _ hne => absurd hmod hne⟩
  · rw [desk_snoc, desk_snoc]
    show (desk es).typed ++ chars [((desk es).board.after (.press k)).char k] = _
    rw [Board.char_press _ hmod hlock]
  · rw [desk_snoc, desk_snoc]
    exact Board.press_release hlock hup

/-- A key that is neither a modifier nor a lock types, alone and while a shift key is down. -/
theorem Typable.concat {text : List (BitVec 8)} (h : Typable text) (hmod : k.modifier = none)
    (hlock : k.lock = none) :
    Typable (text ++ chars [normalmap k.index]) ∧ Typable (text ++ chars [shiftmap k.index]) := by
  obtain ⟨es, hcareful, rfl, hboard⟩ := h
  have hne : k ≠ Modifier.shift.left := by
    rintro rfl
    exact absurd hmod (by decide)
  constructor
  · obtain ⟨h1, h2, h3⟩ := tap hcareful hmod hlock (by rw [hboard]; rfl)
    refine ⟨_, h1, ?_, h3.trans hboard⟩
    rw [h2, hboard]
    rfl
  · -- the shift key goes down before, and up behind
    have hheld : Careful (es ++ [.press Modifier.shift.left]) :=
      (careful_snoc_iff _ _).mpr ⟨hcareful, trivial⟩
    have hdesk : (desk (es ++ [.press Modifier.shift.left])).board =
        Board.zero.after (.press Modifier.shift.left) := by
      rw [desk_snoc, ← hboard]
      rfl
    have htyped : (desk (es ++ [.press Modifier.shift.left])).typed = (desk es).typed := by
      rw [desk_snoc]
      have hchar : chars [(Board.zero.after (.press Modifier.shift.left)).char
          Modifier.shift.left] = [] := by
        decide +kernel
      show (desk es).typed ++ chars [((desk es).board.after (.press Modifier.shift.left)).char
        Modifier.shift.left] = _
      rw [hboard, hchar, List.append_nil]
    obtain ⟨h1, h2, h3⟩ := tap hheld hmod hlock (by
      rw [hdesk]
      exact Function.update_of_ne hne _ _)
    refine ⟨_, (careful_snoc_iff _ (.release Modifier.shift.left)).mpr ⟨h1, ?_⟩, ?_, ?_⟩
    · rw [h3, hdesk]
      intro k' hne' hk' _
      exact Function.update_of_ne hne' _ _
    · rw [desk_snoc]
      refine h2.trans ?_
      rw [htyped, hdesk]
      rfl
    · rw [desk_snoc]
      have hup := congrArg (fun b => Board.after b (.release Modifier.shift.left)) (h3.trans hdesk)
      exact hup.trans (Board.press_release (by decide) rfl)

/-- The scan codes of the keys with the printable characters, from the blank on. -/
def scanCodes : List (Fin 88) :=
  [57, 2, 40, 4, 5, 6, 8, 40, 10, 11, 9, 13, 51, 12, 52, 53, 11, 2, 3, 4, 5, 6, 7, 8, 9, 10, 39, 39,
    51, 13, 52, 53, 3, 30, 48, 46, 32, 18, 33, 34, 35, 23, 36, 37, 38, 50, 49, 24, 25, 16, 19, 31,
    20, 22, 47, 17, 45, 21, 44, 26, 43, 27, 7, 12, 41, 30, 48, 46, 32, 18, 33, 34, 35, 23, 36, 37,
    38, 50, 49, 24, 25, 16, 19, 31, 20, 22, 47, 17, 45, 21, 44, 26, 43, 27, 41]

/-- The key of a scan code. -/
def keyAt (i : Fin 88) : Key :=
  have hfacts : ∀ i : Fin 88, BitVec.ofNat 8 i < 0x80#8 ∧ BitVec.ofNat 8 i ≠ 0x60#8 := by decide
  ⟨BitVec.ofNat 8 i, false, (hfacts i).1, (hfacts i).2⟩

/-- Every printable character is on some key. -/
theorem exists_key (c : BitVec 8) (hlo : 32 ≤ c.toNat) (hhi : c.toNat < 127) :
    ∃ k : Key, k.modifier = none ∧ k.lock = none ∧
      (chars [normalmap k.index] = [c] ∨ chars [shiftmap k.index] = [c]) := by
  have hall : ∀ n < 95, (keyAt (scanCodes.getD n 0)).modifier = none ∧
      (keyAt (scanCodes.getD n 0)).lock = none ∧
      (chars [normalmap (keyAt (scanCodes.getD n 0)).index] = [BitVec.ofNat 8 (32 + n)] ∨
        chars [shiftmap (keyAt (scanCodes.getD n 0)).index] = [BitVec.ofNat 8 (32 + n)]) := by
    decide +kernel
  have hc := hall (c.toNat - 32) (by omega)
  rw [Nat.add_sub_cancel' hlo, BitVec.ofNat_toNat, BitVec.setWidth_eq] at hc
  exact ⟨_, hc⟩

theorem typable_of_printable {text : List (BitVec 8)}
    (h : ∀ c ∈ text, 32 ≤ c.toNat ∧ c.toNat < 127) : Typable text := by
  induction text using List.reverseRecOn with
  | nil => exact ⟨[], fun pre e hpre => absurd (List.prefix_nil.mp hpre) (by simp), rfl, rfl⟩
  | append_singleton text c ih =>
    have htext := ih fun c' hc' => h c' (List.mem_append_left _ hc')
    obtain ⟨hlo, hhi⟩ := h c (List.mem_append_right _ (List.mem_singleton_self c))
    obtain ⟨k, hmod, hlock, hchar⟩ := exists_key c hlo hhi
    rcases hchar with hchar | hchar
    · rw [← hchar]
      exact (htext.concat hmod hlock).1
    · rw [← hchar]
      exact (htext.concat hmod hlock).2

/-- The key that ends a line. -/
def enterKey : Key := ⟨0x1C#8, false, by decide, by decide⟩

/-- **Every line of printable characters can be typed.** -/
theorem exists_careful {text : List (BitVec 8)} (h : ∀ c ∈ text, 32 ≤ c.toNat ∧ c.toNat < 127) :
    ∃ es, Careful es ∧ (desk es).typed = text ++ [10#8] := by
  obtain ⟨es, hcareful, htyped, -⟩ :=
    ((typable_of_printable h).concat (k := enterKey) (by decide) (by decide)).1
  exact ⟨es, hcareful, htyped⟩

end Run

end Keyboard
end PmakeOs
