import PmakeOs.Machine.Mmu
import Mathlib.Data.List.Basic
import Mathlib.Tactic.IntervalCases

/-!
# `kern/console.c`: the text screen

`cga_putc` keeps the screen as one array of `CRT_SIZE` cells with a 16-bit position.  Newline
and the last cell of the screen move the position to `CRT_SIZE` and no further, and the single
scroll at the end of the function brings it back.  A tab calls `cons_putc` for each of its
blanks, so it may scroll in the middle, and has nothing left to scroll at its own end.

The array is compared with a terminal of 25 rows and 80 columns.
-/

namespace PmakeOs
namespace Console

/-- `CRT_ROWS` -/
def crtRows : ℕ := 25

/-- `CRT_COLS` -/
def crtCols : ℕ := 80

/-- `CRT_SIZE` -/
def crtSize : ℕ := crtRows * crtCols

/-- `crt_buf` and `crt_pos`, the position of the hardware's cursor, the characters sent to the
serial port and to the printer, and the indices of `crt_buf` that were stored to. -/
structure Crt where
  buf : ℕ → BitVec 16
  pos : BitVec 16
  cursor : BitVec 16
  ports : List Word
  stores : List ℕ

/-- `crt_buf[i] = x` -/
def Crt.store (i : ℕ) (x : BitVec 16) (s : Crt) : Crt :=
  { s with buf := Function.update s.buf i x, stores := i :: s.stores }

/-- `serial_putc` and `lpt_putc` -/
def Crt.toPorts (c : Word) (s : Crt) : Crt := { s with ports := s.ports ++ [c] }

/-- `memmove` of all rows but the first to the row above. -/
def Crt.moveUp (s : Crt) : Crt :=
  { s with
    buf := fun i => if i < crtSize - crtCols then s.buf (i + crtCols) else s.buf i
    stores := List.range (crtSize - crtCols) ++ s.stores }

/-- A blank with the attribute `0x07`. -/
def blank : BitVec 16 := 0x0720#16

/-- The scroll at the end of `cga_putc`. -/
def Crt.scroll (s : Crt) : Crt :=
  if crtSize ≤ s.pos.toNat then
    let s := s.moveUp
    let s := (List.range' (crtSize - crtCols) crtCols).foldl (fun s i => s.store i blank) s
    { s with pos := s.pos - BitVec.ofNat 16 crtCols }
  else s

/-- A character without an attribute gets `0x07`. -/
def withAttribute (c : Word) : Word := if c &&& ~~~0xff#32 = 0#32 then c ||| 0x0700#32 else c

/-- The cell that erases, with the attribute of `c`. -/
def eraser (c : Word) : BitVec 16 := ((c &&& ~~~0xff#32) ||| 0x20#32).setWidth 16

/-- `cga_putc`.  A tab calls `cons_putc(' ')` five times. -/
def cgaPutc (c : Word) (s : Crt) : Crt :=
  let c := withAttribute c
  let s :=
    if c &&& 0xff#32 = 8#32 then
      if 0 < s.pos.toNat then
        let s := { s with pos := s.pos - 1#16 }
        s.store s.pos.toNat (eraser c)
      else s
    else if c &&& 0xff#32 = 10#32 then
      let s := { s with pos := s.pos + BitVec.ofNat 16 crtCols }
      { s with pos := s.pos - s.pos % BitVec.ofNat 16 crtCols }
    else if c &&& 0xff#32 = 13#32 then
      { s with pos := s.pos - s.pos % BitVec.ofNat 16 crtCols }
    else if _ : c &&& 0xff#32 = 9#32 then
      let s := cgaPutc 0x20#32 (s.toPorts 0x20#32)
      let s := cgaPutc 0x20#32 (s.toPorts 0x20#32)
      let s := cgaPutc 0x20#32 (s.toPorts 0x20#32)
      let s := cgaPutc 0x20#32 (s.toPorts 0x20#32)
      cgaPutc 0x20#32 (s.toPorts 0x20#32)
    else
      let s := s.store s.pos.toNat (c.setWidth 16)
      { s with pos := s.pos + 1#16 }
  let s := s.scroll
  { s with cursor := s.pos }
termination_by if withAttribute c &&& 0xff#32 = 9#32 then 1 else 0
decreasing_by
  all_goals
    rw [if_neg (by decide), if_pos ‹_›]
    exact Nat.zero_lt_one

/-- `cons_putc` -/
def consPutc (c : Word) (s : Crt) : Crt := cgaPutc c (s.toPorts c)

/-! ## The terminal -/

/-- A terminal with its cursor on the screen. -/
structure Terminal where
  cell : ℕ → ℕ → BitVec 16
  row : ℕ
  col : ℕ
  row_lt : row < 25
  col_lt : col < 80

namespace Terminal

/-- Write at the cursor. -/
def write (x : BitVec 16) (t : Terminal) : Terminal :=
  { t with cell := fun r c => if r = t.row ∧ c = t.col then x else t.cell r c }

/-- The cursor to the start of the next line.  Below the last line there is none, so the lines
move up and the last one becomes blank. -/
def nextLine (t : Terminal) : Terminal :=
  if h : t.row + 1 < 25 then { t with row := t.row + 1, col := 0, row_lt := h, col_lt := by decide }
  else
    { t with
      cell := fun r c => if r + 1 < 25 then t.cell (r + 1) c else blank
      col := 0
      col_lt := by decide }

/-- The cursor to the next cell. -/
def advance (t : Terminal) : Terminal :=
  if h : t.col + 1 < 80 then { t with col := t.col + 1, col_lt := h } else t.nextLine

/-- The cursor to the cell before, if there is one, which is erased. -/
def erase (x : BitVec 16) (t : Terminal) : Terminal :=
  if t.col ≠ 0 then { t with col := t.col - 1, col_lt := by have := t.col_lt; omega }.write x
  else if t.row ≠ 0 then
    { t with row := t.row - 1, col := 79, row_lt := by have := t.row_lt; omega,
             col_lt := by decide }.write x
  else t

/-- Show a cell and go on. -/
def put (x : BitVec 16) (t : Terminal) : Terminal := (t.write x).advance

/-- One character: backspace, newline, carriage return, tab, or a cell to show. -/
def putc (c : Word) (t : Terminal) : Terminal :=
  match (c &&& 0xff#32).toNat with
  | 8 => t.erase (eraser (withAttribute c))
  | 10 => t.nextLine
  | 13 => { t with col := 0, col_lt := by decide }
  | 9 => ((((t.put blank).put blank).put blank).put blank).put blank
  | _ => t.put ((withAttribute c).setWidth 16)

end Terminal

/-- The terminal that an array and a position on the screen show. -/
def Crt.terminal (s : Crt) (h : s.pos.toNat < crtSize) : Terminal where
  cell r c := s.buf (80 * r + c)
  row := s.pos.toNat / 80
  col := s.pos.toNat % 80
  row_lt := by rw [crtSize, crtRows, crtCols] at h; omega
  col_lt := Nat.mod_lt _ (by decide)

/-- The array and the position are those of the terminal. -/
structure Shows (s : Crt) (t : Terminal) : Prop where
  pos : s.pos.toNat = 80 * t.row + t.col
  cells : ∀ r c, r < 25 → c < 80 → s.buf (80 * r + c) = t.cell r c
  bounded : ∀ i ∈ s.stores, i < crtSize

/-! ## The scroll -/

theorem foldl_store_buf (l : List ℕ) (x : BitVec 16) (s : Crt) (j : ℕ) :
    (l.foldl (fun s i => s.store i x) s).buf j = if j ∈ l then x else s.buf j := by
  induction l generalizing s with
  | nil => rw [List.foldl_nil, if_neg List.not_mem_nil]
  | cons i l ih =>
    rw [List.foldl_cons, ih]
    by_cases hl : j ∈ l
    · rw [if_pos hl, if_pos (List.mem_cons_of_mem i hl)]
    · rw [if_neg hl]
      show Function.update s.buf i x j = _
      rcases eq_or_ne j i with rfl | hne
      · rw [Function.update_self, if_pos List.mem_cons_self]
      · rw [Function.update_of_ne hne, if_neg (List.not_mem_cons_of_ne_of_not_mem hne hl)]

theorem foldl_store_pos (l : List ℕ) (x : BitVec 16) (s : Crt) :
    (l.foldl (fun s i => s.store i x) s).pos = s.pos := by
  induction l generalizing s with
  | nil => rfl
  | cons i l ih => exact ih _

theorem foldl_store_stores (l : List ℕ) (x : BitVec 16) (s : Crt) :
    (l.foldl (fun s i => s.store i x) s).stores = l.reverse ++ s.stores := by
  induction l generalizing s with
  | nil => rfl
  | cons i l ih =>
    rw [List.foldl_cons, ih, List.reverse_cons, List.append_assoc]
    rfl

/-- On the screen there is nothing to scroll. -/
theorem scroll_of_lt {s : Crt} (h : s.pos.toNat < crtSize) : s.scroll = s :=
  if_neg (not_le.mpr h)

/-- The position behind the last cell: the cells move up by one row and the last row becomes
blank. -/
theorem scroll_of_eq {s : Crt} (h : s.pos.toNat = 2000) (hb : ∀ i ∈ s.stores, i < crtSize) :
    s.scroll.pos.toNat = 1920 ∧
      (∀ j, s.scroll.buf j =
        if 1920 ≤ j ∧ j < 2000 then blank else if j < 1920 then s.buf (j + 80) else s.buf j) ∧
      ∀ i ∈ s.scroll.stores, i < crtSize := by
  have hsize : crtSize = 2000 := rfl
  unfold Crt.scroll
  rw [if_pos (by rw [hsize, h])]
  dsimp only
  refine ⟨?_, fun j => ?_, fun i hi => ?_⟩
  · rw [foldl_store_pos]
    show (s.pos - 80#16).toNat = 1920
    rw [BitVec.toNat_sub, h]
    rfl
  · rw [foldl_store_buf]
    simp only [List.mem_range'_1, hsize, crtCols]
    rfl
  · rw [foldl_store_stores] at hi
    rcases List.mem_append.mp hi with hi | hi
    · rw [List.mem_reverse, List.mem_range'_1] at hi
      exact hi.2
    · rcases List.mem_append.mp hi with hi | hi
      · have hlt := List.mem_range.mp hi
        omega
      · exact hb i hi

/-! ## One character -/

section

variable {s : Crt} {t : Terminal}

theorem Shows.pos_lt (h : Shows s t) : s.pos.toNat < crtSize := by
  have hrow := t.row_lt
  have hcol := t.col_lt
  rw [h.pos]
  show 80 * t.row + t.col < 2000
  omega

/-- The position at the start of the next line, before the scroll. -/
theorem shows_nextLine (hpos : s.pos.toNat = 80 * (t.row + 1))
    (hcells : ∀ r c, r < 25 → c < 80 → s.buf (80 * r + c) = t.cell r c)
    (hb : ∀ i ∈ s.stores, i < crtSize) : Shows s.scroll t.nextLine := by
  have hrow := t.row_lt
  unfold Terminal.nextLine
  split
  · rename_i hnext
    rw [scroll_of_lt (by rw [hpos]; show _ < 2000; omega)]
    exact ⟨hpos, hcells, hb⟩
  · rename_i hlast
    obtain ⟨hpos', hbuf, hb'⟩ := scroll_of_eq (show s.pos.toNat = 2000 by omega) hb
    refine ⟨?_, fun r c hr hc => ?_, hb'⟩
    · rw [hpos']
      show 1920 = 80 * t.row + 0
      omega
    · rw [hbuf]
      show _ = if r + 1 < 25 then t.cell (r + 1) c else blank
      by_cases hr' : r + 1 < 25
      · rw [if_neg (by omega), if_pos (by omega), if_pos hr', ← hcells (r + 1) c hr' hc]
        congr 1
        omega
      · rw [if_pos (by omega), if_neg hr']

/-- The position at the next cell, before the scroll. -/
theorem shows_advance (hpos : s.pos.toNat = 80 * t.row + t.col + 1)
    (hcells : ∀ r c, r < 25 → c < 80 → s.buf (80 * r + c) = t.cell r c)
    (hb : ∀ i ∈ s.stores, i < crtSize) : Shows s.scroll t.advance := by
  have hrow := t.row_lt
  have hcol := t.col_lt
  unfold Terminal.advance
  split
  · rename_i hnext
    rw [scroll_of_lt (by rw [hpos]; show _ < 2000; omega)]
    exact ⟨hpos, hcells, hb⟩
  · exact shows_nextLine (by omega) hcells hb

/-- A store at the cursor. -/
theorem Shows.store (h : Shows s t) (x : BitVec 16) :
    Shows (s.store s.pos.toNat x) (t.write x) := by
  have hcol := t.col_lt
  refine ⟨h.pos, fun r c hr hc => ?_, fun i hi => ?_⟩
  · show Function.update s.buf s.pos.toNat x _ = if _ then x else t.cell r c
    by_cases hat : r = t.row ∧ c = t.col
    · rw [if_pos hat, hat.1, hat.2, ← h.pos, Function.update_self]
    · rw [if_neg hat, Function.update_of_ne, h.cells r c hr hc]
      rw [h.pos]
      intro heq
      exact hat ⟨by omega, by omega⟩
  · rcases List.mem_cons.mp hi with rfl | hi
    · exact h.pos_lt
    · exact h.bounded i hi

/-- A backspace. -/
theorem Shows.backspace (h : Shows s t) (x : BitVec 16) :
    Shows (if 0 < s.pos.toNat then
      ({ s with pos := s.pos - 1#16 } : Crt).store (s.pos - 1#16).toNat x else s) (t.erase x) := by
  have hpos := h.pos
  have hlt := s.pos.isLt
  have hpred (hp : 0 < s.pos.toNat) : (s.pos - 1#16).toNat = s.pos.toNat - 1 := by
    rw [BitVec.toNat_sub_of_le]
    · rfl
    · exact hp
  unfold Terminal.erase
  split
  · rename_i hp
    split
    · rename_i hcol
      have hs : Shows { s with pos := s.pos - 1#16 }
          { t with col := t.col - 1, col_lt := by have := t.col_lt; omega } :=
        ⟨by rw [hpred hp, hpos]; show _ = 80 * t.row + (t.col - 1); omega, h.cells, h.bounded⟩
      exact hs.store x
    · rename_i hcol
      rw [if_pos (show t.row ≠ 0 by omega)]
      have hs : Shows { s with pos := s.pos - 1#16 }
          { t with row := t.row - 1, col := 79, row_lt := by have := t.row_lt; omega,
                   col_lt := by decide } :=
        ⟨by rw [hpred hp, hpos]; show _ = 80 * (t.row - 1) + 79; omega, h.cells, h.bounded⟩
      exact hs.store x
  · rename_i hp
    rw [if_neg (show ¬ t.col ≠ 0 by omega), if_neg (show ¬ t.row ≠ 0 by omega)]
    exact h

/-- The position of a line's first cell. -/
theorem toNat_sub_mod (p : BitVec 16) :
    (p - p % BitVec.ofNat 16 crtCols).toNat = p.toNat - p.toNat % 80 := by
  have hmod : (p % BitVec.ofNat 16 crtCols).toNat = p.toNat % 80 := BitVec.toNat_umod
  have hle := Nat.mod_le p.toNat 80
  rw [BitVec.toNat_sub_of_le (by rw [BitVec.le_def, hmod]; exact hle), hmod]

theorem withAttribute_low (c : Word) : withAttribute c &&& 0xff#32 = c &&& 0xff#32 := by
  unfold withAttribute
  split
  · ext i hi
    simp only [BitVec.getElem_and, BitVec.getElem_or]
    interval_cases i <;> simp
  · rfl

/-- The cursor does not matter for what is shown. -/
theorem Shows.withCursor (h : Shows s t) (p : BitVec 16) : Shows { s with cursor := p } t :=
  ⟨h.pos, h.cells, h.bounded⟩

theorem Shows.toPorts (h : Shows s t) (c : Word) : Shows (s.toPorts c) t :=
  ⟨h.pos, h.cells, h.bounded⟩

/-- What is left of `cga_putc` when the position is on the screen. -/
theorem Shows.finish (h : Shows s t) : Shows { s.scroll with cursor := s.scroll.pos } t := by
  rw [scroll_of_lt h.pos_lt]
  exact h.withCursor _

/-- A character that is shown. -/
theorem Shows.cgaPutc_cell (h : Shows s t) {c : Word} (h8 : c &&& 0xff#32 ≠ 8#32)
    (h10 : c &&& 0xff#32 ≠ 10#32) (h13 : c &&& 0xff#32 ≠ 13#32) (h9 : c &&& 0xff#32 ≠ 9#32) :
    Shows (cgaPutc c s) (t.put ((withAttribute c).setWidth 16)) := by
  have hlow := withAttribute_low c
  rw [cgaPutc]
  dsimp only
  rw [if_neg (by rw [hlow]; exact h8), if_neg (by rw [hlow]; exact h10),
    if_neg (by rw [hlow]; exact h13), dif_neg (by rw [hlow]; exact h9)]
  have hs := h.store ((withAttribute c).setWidth 16)
  have hlt : s.pos.toNat < 2000 := h.pos_lt
  refine Shows.withCursor ?_ _
  refine shows_advance (t := t.write _) ?_ hs.cells hs.bounded
  show (s.pos + 1#16).toNat = 80 * t.row + t.col + 1
  rw [BitVec.toNat_add_of_lt (by show _ + 1 < 2 ^ 16; omega), h.pos]
  rfl

/-- The blank of a tab. -/
theorem Shows.cgaPutc_space (h : Shows s t) :
    Shows (cgaPutc 0x20#32 (s.toPorts 0x20#32)) (t.put blank) :=
  (h.toPorts _).cgaPutc_cell (by decide) (by decide) (by decide) (by decide)

/-- **One character.** -/
theorem Shows.cgaPutc (h : Shows s t) (c : Word) : Shows (cgaPutc c s) (t.putc c) := by
  have hlow := withAttribute_low c
  have hlt : s.pos.toNat < 2000 := h.pos_lt
  have hrow := t.row_lt
  have hcol := t.col_lt
  have hnat {k : ℕ} (hk : k < 2 ^ 32) (hc : c &&& 0xff#32 = BitVec.ofNat 32 k) :
      (c &&& 0xff#32).toNat = k := by
    rw [hc, BitVec.toNat_ofNat, Nat.mod_eq_of_lt hk]
  unfold Terminal.putc
  by_cases h8 : c &&& 0xff#32 = 8#32
  · rw [hnat (by decide) h8, Console.cgaPutc]
    dsimp only
    rw [hlow, if_pos h8]
    exact (h.backspace _).finish
  by_cases h10 : c &&& 0xff#32 = 10#32
  · rw [hnat (by decide) h10, Console.cgaPutc]
    dsimp only
    rw [hlow, if_neg h8, if_pos h10]
    refine Shows.withCursor ?_ _
    refine shows_nextLine ?_ h.cells h.bounded
    rw [toNat_sub_mod, BitVec.toNat_add_of_lt (by show _ + 80 < 2 ^ 16; omega), h.pos]
    show 80 * t.row + t.col + 80 - (80 * t.row + t.col + 80) % 80 = _
    omega
  by_cases h13 : c &&& 0xff#32 = 13#32
  · rw [hnat (by decide) h13, Console.cgaPutc]
    dsimp only
    rw [hlow, if_neg h8, if_neg h10, if_pos h13]
    have hs : Shows { s with pos := s.pos - s.pos % BitVec.ofNat 16 crtCols }
        { t with col := 0, col_lt := by decide } := by
      refine ⟨?_, h.cells, h.bounded⟩
      rw [toNat_sub_mod, h.pos]
      show _ = 80 * t.row + 0
      omega
    exact hs.finish
  by_cases h9 : c &&& 0xff#32 = 9#32
  · rw [hnat (by decide) h9, Console.cgaPutc]
    dsimp only
    rw [hlow, if_neg h8, if_neg h10, if_neg h13, dif_pos h9]
    exact h.cgaPutc_space.cgaPutc_space.cgaPutc_space.cgaPutc_space.cgaPutc_space.finish
  · have hne {k : ℕ} (hc : c &&& 0xff#32 ≠ BitVec.ofNat 32 k) : (c &&& 0xff#32).toNat ≠ k := by
      rintro rfl
      exact hc (by rw [BitVec.ofNat_toNat, BitVec.setWidth_eq])
    split
    · exact absurd ‹_› (hne h8)
    · exact absurd ‹_› (hne h10)
    · exact absurd ‹_› (hne h13)
    · exact absurd ‹_› (hne h9)
    · exact h.cgaPutc_cell h8 h10 h13 h9

end

/-! ## Any sequence of characters -/

theorem shows_terminal {s : Crt} (h : s.pos.toNat < crtSize) (hb : ∀ i ∈ s.stores, i < crtSize) :
    Shows s (s.terminal h) :=
  ⟨(Nat.div_add_mod s.pos.toNat 80).symm, fun _ _ _ _ => rfl, hb⟩

theorem shows_run (cs : List Word) {s : Crt} {t : Terminal} (h : Shows s t) :
    Shows (cs.foldl (fun s c => consPutc c s) s) (cs.foldl (fun t c => t.putc c) t) := by
  induction cs generalizing s t with
  | nil => exact h
  | cons c cs ih => exact ih ((h.toPorts c).cgaPutc c)

/-- **The screen is the terminal.**  From any position on the screen, after any sequence of
characters, the position is on the screen again, all stores were to cells of the screen, and
cell for cell and at the same position the array is what the terminal shows. -/
theorem consPutc_shows (cs : List Word) {s : Crt} (hpos : s.pos.toNat < crtSize)
    (hnew : s.stores = []) :
    let s' := cs.foldl (fun s c => consPutc c s) s
    let t := cs.foldl (fun t c => t.putc c) (s.terminal hpos)
    (∀ i ∈ s'.stores, i < crtSize) ∧ s'.pos.toNat < crtSize ∧
      s'.pos.toNat = 80 * t.row + t.col ∧
      ∀ r c, r < 25 → c < 80 → s'.buf (80 * r + c) = t.cell r c := by
  intro s' t
  have hstart : Shows s (s.terminal hpos) :=
    shows_terminal hpos fun i hi => absurd (hnew ▸ hi) List.not_mem_nil
  have hend : Shows s' t := shows_run cs hstart
  exact ⟨hend.bounded, hend.pos_lt, hend.pos, hend.cells⟩

/-- A newline on the last line of the screen. -/
theorem consPutc_shows_newline :
    (consPutc 10#32 ⟨fun _ => blank, 1950#16, 0#16, [], []⟩).pos.toNat < crtSize :=
  (consPutc_shows [10#32] (s := ⟨fun _ => blank, 1950#16, 0#16, [], []⟩) (by decide) rfl).2.1

end Console
end PmakeOs
