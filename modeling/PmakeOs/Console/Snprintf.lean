import PmakeOs.Console.Cprintf
import PmakeOs.Kernel.State
import PmakeOs.Lib.Offset

/-!
# `vsnprintf`: formatted output into a buffer

`vsnprintf` gives `vprintfmt` a `putch` that counts every character and stores those for
which there is room, and afterwards stores a zero where the next character would have gone.
Since the pointer that moves stops at the last byte of the buffer, the zero always has a
place.

The strings among the arguments lie outside the buffer: they are read as they were before
the call.
-/

namespace PmakeOs
namespace Printfmt

open Lib

/-- `struct sprintbuf`, with the memory that its pointers point into and the addresses that
have been stored to. -/
structure Sprintbuf where
  buf : Word
  ebuf : Word
  cnt : Word
  mem : Word → BitVec 8
  stores : List Word

/-- `*p = ch` -/
def Sprintbuf.store (b : Sprintbuf) (p : Word) (ch : BitVec 8) : Sprintbuf :=
  { b with mem := Function.update b.mem p ch, stores := p :: b.stores }

/-- `sprintputch` -/
def sprintputch (ch : ℤ) (b : Sprintbuf) : Sprintbuf :=
  let b := { b with cnt := b.cnt + 1#32 }
  if b.buf < b.ebuf then { b.store b.buf (BitVec.ofInt 8 ch) with buf := b.buf + 1#32 } else b

/-- `vsnprintf`: what it returns, and the memory it leaves. -/
def vsnprintf (m : Word → Option (BitVec 8)) (args : ℕ → Word) (fmt : List (BitVec 8))
    (buf n : Word) (mem : Word → BitVec 8) : Except Stuck (Word × Sprintbuf) :=
  let b : Sprintbuf := ⟨buf, buf + n - 1#32, 0#32, mem, []⟩
  if buf = 0#32 ∨ n.toInt < 1 then .ok (BitVec.ofInt 32 (-eInval), b)
  else
    match vprintfmt sprintputch m args fmt (⟨0, []⟩, b) with
    | .ok _ p => .ok (p.2.cnt, p.2.store p.2.buf 0#8)
    | .error e _ => .error e

/-! ## What is in the buffer -/

/-- The byte at an offset, after the entries of `l` have been stored from offset `0` on as far
as there is room for them in front of the last of `n` bytes. -/
def stored (l : List ℤ) (n : ℕ) (old : BitVec 8) (i : ℕ) : BitVec 8 :=
  if i < min l.length (n - 1) then BitVec.ofInt 8 (l.getD i 0) else old

theorem stored_snoc_of_lt {l : List ℤ} {n : ℕ} (ch : ℤ) (h : l.length < n - 1) (old : BitVec 8)
    (i : ℕ) : stored (l ++ [ch]) n old i =
      if i = l.length then BitVec.ofInt 8 ch else stored l n old i := by
  unfold stored
  rw [List.length_append, List.length_singleton]
  rcases lt_trichotomy i l.length with hi | rfl | hi
  · rw [if_pos (by omega), if_neg (by omega), if_pos (by omega), List.getD_append _ _ _ _ hi]
  · rw [if_pos (by omega), if_pos rfl, List.getD_append_right _ _ _ _ le_rfl, Nat.sub_self]
    rfl
  · rw [if_neg (by omega), if_neg (by omega), if_neg (by omega)]

theorem stored_snoc_of_le {l : List ℤ} {n : ℕ} (ch : ℤ) (h : n - 1 ≤ l.length) (old : BitVec 8)
    (i : ℕ) : stored (l ++ [ch]) n old i = stored l n old i := by
  unfold stored
  rw [List.length_append, List.length_singleton, Nat.min_eq_right h, Nat.min_eq_right (by omega)]
  by_cases hi : i < n - 1
  · rw [if_pos hi, if_pos hi, List.getD_append _ _ _ _ (by omega)]
  · rw [if_neg hi, if_neg hi]

/-- The characters `l` have been put into the `n` bytes from `buf` on. -/
structure Filled (buf : Word) (n : ℕ) (mem : Word → BitVec 8) (l : List ℤ) (b : Sprintbuf) :
    Prop where
  next : b.buf = buf + BitVec.ofNat 32 (min l.length (n - 1))
  limit : b.ebuf = buf + BitVec.ofNat 32 n - 1#32
  cnt : b.cnt = BitVec.ofNat 32 l.length
  bytes : ∀ a, b.mem a = stored l n (mem a) (a - buf).toNat
  stores : ∀ a ∈ b.stores, (a - buf).toNat < n

theorem filled_nil (buf : Word) (n : ℕ) (mem : Word → BitVec 8) :
    Filled buf n mem [] ⟨buf, buf + BitVec.ofNat 32 n - 1#32, 0#32, mem, []⟩ := by
  refine ⟨?_, rfl, rfl, fun a => ?_, fun a ha => absurd ha List.not_mem_nil⟩
  · rw [List.length_nil, Nat.zero_min]
    exact (BitVec.add_zero buf).symm
  · rw [stored, List.length_nil, Nat.zero_min, if_neg (Nat.not_lt_zero _)]

section

variable {buf : Word} {n : ℕ} {mem : Word → BitVec 8} {l : List ℤ} {b : Sprintbuf}

/-- The test `b->buf < b->ebuf` asks whether there is room, if the buffer does not wrap
around. -/
theorem Filled.room (h : Filled buf n mem l b) (hn : 1 ≤ n) (hbuf : buf.toNat + n ≤ 2 ^ 32) :
    b.buf < b.ebuf ↔ l.length < n - 1 := by
  have hlt := buf.isLt
  have he : b.ebuf = buf + BitVec.ofNat 32 (n - 1) := by
    obtain ⟨k, rfl⟩ := Nat.exists_eq_add_of_le' hn
    rw [h.limit, Nat.add_sub_cancel, BitVec.ofNat_add, ← BitVec.add_assoc, BitVec.add_sub_cancel]
  rw [h.next, he, BitVec.lt_def, BitVec.toNat_add, BitVec.toNat_add, BitVec.toNat_ofNat,
    BitVec.toNat_ofNat, Nat.mod_eq_of_lt (show min l.length (n - 1) < 2 ^ 32 by omega),
    Nat.mod_eq_of_lt (show n - 1 < 2 ^ 32 by omega), Nat.mod_eq_of_lt (by omega),
    Nat.mod_eq_of_lt (by omega)]
  omega

/-- **One character.** -/
theorem Filled.sprintputch (h : Filled buf n mem l b) (hn : 1 ≤ n) (hbuf : buf.toNat + n ≤ 2 ^ 32)
    (ch : ℤ) : Filled buf n mem (l ++ [ch]) (sprintputch ch b) := by
  have hcnt : b.cnt + 1#32 = BitVec.ofNat 32 (l ++ [ch]).length := by
    rw [h.cnt, List.length_append, List.length_singleton, BitVec.ofNat_add]
  have hlen : (l ++ [ch]).length = l.length + 1 := List.length_append
  unfold Printfmt.sprintputch
  dsimp only
  by_cases hroom : l.length < n - 1
  · rw [if_pos ((h.room hn hbuf).mpr hroom)]
    have hat : b.buf = buf + BitVec.ofNat 32 l.length := by
      rw [h.next, Nat.min_eq_left hroom.le]
    refine ⟨?_, h.limit, hcnt, fun a => ?_, fun a ha => ?_⟩
    · show b.buf + 1#32 = _
      rw [hat, hlen, Nat.min_eq_left (by omega), BitVec.ofNat_add, BitVec.add_assoc]
    · show Function.update b.mem b.buf _ a = _
      rw [stored_snoc_of_lt ch hroom, hat]
      rcases eq_or_ne a (buf + BitVec.ofNat 32 l.length) with rfl | hne
      · rw [Function.update_self, toNat_add_ofNat_sub buf (by omega), if_pos rfl]
      · rw [Function.update_of_ne hne, h.bytes, if_neg fun hoff => hne (eq_add_of_toNat_sub hoff)]
    · rcases List.mem_cons.mp ha with rfl | ha
      · show (b.buf - buf).toNat < n
        rw [hat, toNat_add_ofNat_sub buf (by omega)]
        omega
      · exact h.stores a ha
  · rw [if_neg fun hlt => hroom ((h.room hn hbuf).mp hlt)]
    refine ⟨?_, h.limit, hcnt, fun a => ?_, h.stores⟩
    · show b.buf = _
      rw [h.next, hlen, Nat.min_eq_right (by omega), Nat.min_eq_right (by omega)]
    · rw [stored_snoc_of_le ch (by omega)]
      exact h.bytes a

/-- **Any number of characters**, also more than there is room for. -/
theorem filled_pour (l : List ℤ) {l₀ : List ℤ} (h : Filled buf n mem l₀ b) (hn : 1 ≤ n)
    (hbuf : buf.toNat + n ≤ 2 ^ 32) : Filled buf n mem (l₀ ++ l) (pour sprintputch b l) := by
  induction l generalizing l₀ b with
  | nil =>
    rw [List.append_nil]
    exact h
  | cons c l ih =>
    have hc := ih (h.sprintputch hn hbuf c)
    rw [List.append_assoc, List.singleton_append] at hc
    exact hc

end

/-! ## The whole call -/

/-- The memory after a call that leaves the text of `cs` in the `n` bytes from `buf` on: the
characters that fit, a zero, and what was there before. -/
structure HoldsText (buf : Word) (n : ℕ) (mem : Word → BitVec 8) (cs : List ℤ) (b : Sprintbuf) :
    Prop where
  text : ∀ i (hi : i < min cs.length (n - 1)),
    b.mem (buf + BitVec.ofNat 32 i) = BitVec.ofInt 8 (cs.get ⟨i, by omega⟩)
  zero : b.mem (buf + BitVec.ofNat 32 (min cs.length (n - 1))) = 0#8
  frame : ∀ a, (∀ i ≤ min cs.length (n - 1), a ≠ buf + BitVec.ofNat 32 i) → b.mem a = mem a
  stores : ∀ a ∈ b.stores, ∃ i < n, a = buf + BitVec.ofNat 32 i

/-- The zero at the end. -/
theorem Filled.holdsText {buf : Word} {n : ℕ} {mem : Word → BitVec 8} {cs : List ℤ}
    {b : Sprintbuf} (h : Filled buf n mem cs b) (hn : 1 ≤ n) (hbuf : buf.toNat + n ≤ 2 ^ 32) :
    HoldsText buf n mem cs (b.store b.buf 0#8) := by
  have hlt : min cs.length (n - 1) < n := by omega
  have hoff {i : ℕ} (hi : i < n) : (buf + BitVec.ofNat 32 i - buf).toNat = i :=
    toNat_add_ofNat_sub buf (by omega)
  refine ⟨fun i hi => ?_, ?_, fun a ha => ?_, fun a ha => ?_⟩
  · show Function.update b.mem b.buf 0#8 _ = _
    rw [Function.update_of_ne, h.bytes, hoff (by omega), stored, if_pos hi, List.getD_eq_getElem _ _]
    · rfl
    · intro heq
      have hval := congrArg (fun a => (a - buf).toNat) (heq.trans h.next)
      rw [hoff (by omega), hoff hlt] at hval
      omega
  · show Function.update b.mem b.buf 0#8 _ = _
    rw [h.next, Function.update_self]
  · show Function.update b.mem b.buf 0#8 a = _
    rw [Function.update_of_ne, h.bytes, stored, if_neg]
    · exact fun hlt => ha _ hlt.le (eq_add_of_toNat_sub rfl)
    · rw [h.next]
      exact ha _ le_rfl
  · rcases List.mem_cons.mp ha with rfl | ha
    · exact ⟨_, hlt, h.next⟩
    · exact ⟨_, h.stores a ha, eq_add_of_toNat_sub rfl⟩

section

variable {m : Word → Option (BitVec 8)} {args : ℕ → Word} {fmt : List (BitVec 8)} {r : Run}
  {cs : List ℤ} {buf n : Word}

/-- **`vsnprintf` leaves as much of the text as fits, with a zero behind it, in the array of `n`
bytes at `buf`, and returns the length of all of it.** -/
theorem vsnprintf_holdsText (mem : Word → BitVec 8) (hnull : buf ≠ 0#32) (hn : 1 ≤ n.toInt)
    (hbuf : buf.toNat + n.toNat ≤ 2 ^ 32)
    (h : vprintfmt snoc m args fmt (⟨0, []⟩, []) = .ok () (r, cs)) (hcs : cs.length < 2 ^ 31) :
    ∃ ret b, vsnprintf m args fmt buf n mem = .ok (ret, b) ∧
      ret.toInt = cs.length ∧ HoldsText buf n.toNat mem cs b := by
  have hpos : 1 ≤ n.toNat := by
    rcases Nat.eq_zero_or_pos n.toNat with hzero | hpos
    · rw [BitVec.toInt_eq_toNat_cond, hzero] at hn
      exact absurd hn (by decide)
    · exact hpos
  have hstart := filled_nil buf n.toNat mem
  rw [BitVec.ofNat_toNat, BitVec.setWidth_eq] at hstart
  have hend := filled_pour cs hstart hpos hbuf
  rw [List.nil_append] at hend
  have hrun : vprintfmt sprintputch m args fmt
      (⟨0, []⟩, ⟨buf, buf + n - 1#32, 0#32, mem, []⟩) = _ :=
    (follows_vprintfmt fmt).run ⟨0, []⟩ []
  rw [h, withSink] at hrun
  dsimp only at hrun
  generalize pour sprintputch _ cs = b at hend hrun
  refine ⟨b.cnt, b.store b.buf 0#8, ?_, ?_, hend.holdsText hpos hbuf⟩
  · unfold vsnprintf
    rw [if_neg (not_or.mpr ⟨hnull, by omega⟩), hrun]
  · rw [hend.cnt, BitVec.toInt_ofNat']
    exact Int.bmod_eq_of_le (by omega) (by omega)

theorem vprintfmt_word (m : Word → Option (BitVec 8)) (args : ℕ → Word) :
    vprintfmt snoc m args [chr 'H', chr 'e', chr 'y', chr '!'] (⟨0, []⟩, []) =
      .ok () (⟨0, []⟩, [72, 101, 121, 33]) := by
  rw [vprintfmt, if_neg (by decide), if_neg (by decide), vprintfmt, if_neg (by decide),
    if_neg (by decide), vprintfmt, if_neg (by decide), if_neg (by decide), vprintfmt,
    if_neg (by decide), if_neg (by decide), vprintfmt]
  rfl

/-- Four characters in a buffer of three bytes: two of them fit. -/
theorem vsnprintf_holdsText_word :
    ∃ ret b, vsnprintf (fun _ => none) (fun _ => 0#32) [chr 'H', chr 'e', chr 'y', chr '!'] 4096#32
        3#32 (fun _ => 7#8) = .ok (ret, b) ∧
      ret.toInt = 4 ∧ HoldsText 4096#32 3 (fun _ => 7#8) [72, 101, 121, 33] b :=
  vsnprintf_holdsText _ (by decide) (by decide) (by decide) (vprintfmt_word _ _) (by decide)

end

end Printfmt
end PmakeOs
