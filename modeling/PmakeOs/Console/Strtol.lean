import PmakeOs.Console.Fields

/-!
# `strtol` reads what `vprintfmt` writes

`strtol` of `lib/string.c`, on the bytes of a string up to its terminating zero.  It returns
the value, modulo `2 ^ 32`, and what is left of the string.

It undoes the conversions of `vprintfmt`: both agree on the digits, the fold of `strtol` is the
inverse of the division by the base in `printnum` (`foldl_numeral`), and at the least `long`,
whose magnitude is no `long`, the two negations wrap around in the same way.
-/

namespace PmakeOs
namespace Printfmt

open Lib

/-- The digit that a character stands for. -/
def digitOf (c : BitVec 8) : Option ℤ :=
  if (chr '0').toInt ≤ c.toInt ∧ c.toInt ≤ (chr '9').toInt then some (c.toInt - (chr '0').toInt)
  else if (chr 'a').toInt ≤ c.toInt ∧ c.toInt ≤ (chr 'z').toInt then
    some (c.toInt - (chr 'a').toInt + 10)
  else if (chr 'A').toInt ≤ c.toInt ∧ c.toInt ≤ (chr 'Z').toInt then
    some (c.toInt - (chr 'A').toInt + 10)
  else none

/-- The loop over the digits.  The terminating zero is none. -/
def strtolLoop (base : ℤ) (val : Word) : List (BitVec 8) → Word × List (BitVec 8)
  | [] => (val, [])
  | c :: s =>
    match digitOf c with
    | none => (val, c :: s)
    | some dig =>
      if base ≤ dig then (val, c :: s)
      else strtolLoop base (val * BitVec.ofInt 32 base + BitVec.ofInt 32 dig) s

/-- The sign, and what follows it. -/
def strtolSign (s : List (BitVec 8)) : Bool × List (BitVec 8) :=
  if s.getD 0 0#8 = chr '+' then (false, s.drop 1)
  else if s.getD 0 0#8 = chr '-' then (true, s.drop 1)
  else (false, s)

/-- The base, and what follows its prefix. -/
def strtolBase (base : ℤ) (s : List (BitVec 8)) : ℤ × List (BitVec 8) :=
  if (base = 0 ∨ base = 16) ∧ (s.getD 0 0#8 = chr '0' ∧ s.getD 1 0#8 = chr 'x') then
    (16, s.drop 2)
  else if base = 0 ∧ s.getD 0 0#8 = chr '0' then (8, s.drop 1)
  else if base = 0 then (10, s)
  else (base, s)

/-- `strtol`: the value, and the string that `*endptr` points to. -/
def strtol (s : List (BitVec 8)) (base : ℤ) : Word × List (BitVec 8) :=
  let s := s.dropWhile fun c => c = chr ' ' ∨ c = chr '\t'
  let (neg, s) := strtolSign s
  let (base, s) := strtolBase base s
  let (val, s) := strtolLoop base 0#32 s
  (if neg then -val else val, s)

/-! ## The digits -/

/-- The byte of a digit. -/
def digitChar (d : ℕ) : BitVec 8 := BitVec.ofInt 8 (digit d)

theorem digitOf_digitChar {d : ℕ} (hd : d < 16) : digitOf (digitChar d) = some (d : ℤ) := by
  interval_cases d <;> decide

/-- A digit is none of the characters that `strtol` looks for in front of them. -/
theorem digitChar_ne {d : ℕ} (hd : d < 16) :
    digitChar d ≠ chr ' ' ∧ digitChar d ≠ chr '\t' ∧ digitChar d ≠ chr '+' ∧
      digitChar d ≠ chr '-' ∧ digitChar d ≠ chr 'x' := by
  interval_cases d <;> decide

/-- **The loop folds the digits**, modulo `2 ^ 32`. -/
theorem strtolLoop_digits {b : ℕ} (hb : b ≤ 16) {ds : List ℕ} (hds : ∀ d ∈ ds, d < b) (v : ℕ) :
    strtolLoop b (BitVec.ofNat 32 v) (ds.map digitChar) =
      (BitVec.ofNat 32 (ds.foldl (fun v d => v * b + d) v), []) := by
  induction ds generalizing v with
  | nil => rfl
  | cons d ds ih =>
    have hd := hds d List.mem_cons_self
    have hstep : BitVec.ofNat 32 v * BitVec.ofInt 32 b + BitVec.ofInt 32 d =
        BitVec.ofNat 32 (v * b + d) := by
      rw [BitVec.ofInt_natCast, BitVec.ofInt_natCast, BitVec.ofNat_add, BitVec.ofNat_mul]
    rw [List.map_cons, strtolLoop, digitOf_digitChar (hd.trans_le hb)]
    dsimp only
    rw [if_neg (by omega), hstep, ih fun d' hd' => hds d' (List.mem_cons_of_mem d hd')]
    rfl

theorem strtolLoop_numeral (base : Base) (n : ℕ) :
    strtolLoop base.toNat 0#32 ((numeral base.toNat n).map digitChar) = (BitVec.ofNat 32 n, []) := by
  have hb : base.toNat ≤ 16 := by cases base <;> decide
  have hlt : ∀ d ∈ numeral base.toNat n, d < base.toNat := fun d hd =>
    lt_of_mem_numeral base.one_lt hd
  have hloop := strtolLoop_digits hb hlt 0
  rw [foldl_numeral base.one_lt] at hloop
  exact hloop

/-! ## What comes before them -/

/-- The bytes of a numeral. -/
def numeralBytes (base : Base) (n : ℕ) : List (BitVec 8) := (numeral base.toNat n).map digitChar

theorem numeralBytes_cons (base : Base) (n : ℕ) :
    ∃ d s, numeralBytes base n = digitChar d :: s ∧ d < 16 ∧ s.getD 0 0#8 ≠ chr 'x' := by
  have hb : base.toNat ≤ 16 := by cases base <;> decide
  have hlt : ∀ d ∈ numeral base.toNat n, d < 16 := fun d hd =>
    (lt_of_mem_numeral base.one_lt hd).trans_le hb
  obtain ⟨d, ds, hds⟩ := List.exists_cons_of_length_pos (length_numeral_pos base.toNat n)
  refine ⟨d, ds.map digitChar, ?_, ?_, ?_⟩
  · rw [numeralBytes, hds, List.map_cons]
  · exact hlt d (by rw [hds]; exact List.mem_cons_self)
  · cases ds with
    | nil => decide
    | cons d' ds =>
      have hd' : d' < 16 := hlt d' (by rw [hds]; exact List.mem_cons_of_mem _ List.mem_cons_self)
      exact (digitChar_ne hd').2.2.2.2

/-- A string that begins with a digit has no blanks and no sign. -/
theorem strtol_of_digit {d : ℕ} (hd : d < 16) (s : List (BitVec 8)) (base : ℤ) :
    strtol (digitChar d :: s) base =
      strtolLoop (strtolBase base (digitChar d :: s)).1 0#32 (strtolBase base (digitChar d :: s)).2 := by
  obtain ⟨h₁, h₂, h₃, h₄, -⟩ := digitChar_ne hd
  have hdrop : (digitChar d :: s).dropWhile (fun c => c = chr ' ' ∨ c = chr '\t') =
      digitChar d :: s :=
    List.dropWhile_cons_of_neg (by simpa using ⟨h₁, h₂⟩)
  have hsign : strtolSign (digitChar d :: s) = (false, digitChar d :: s) := by
    unfold strtolSign
    rw [List.getD_cons_zero, if_neg h₃, if_neg h₄]
  unfold strtol
  dsimp only
  rw [hdrop, hsign]
  rfl

/-- Behind a minus sign. -/
theorem strtol_of_minus (s : List (BitVec 8)) (base : ℤ) :
    strtol (chr '-' :: s) base =
      (-(strtolLoop (strtolBase base s).1 0#32 (strtolBase base s).2).1,
        (strtolLoop (strtolBase base s).1 0#32 (strtolBase base s).2).2) := by
  have hdrop : (chr '-' :: s).dropWhile (fun c => c = chr ' ' ∨ c = chr '\t') = chr '-' :: s :=
    List.dropWhile_cons_of_neg (by decide)
  have hsign : strtolSign (chr '-' :: s) = (true, s) := by
    unfold strtolSign
    rw [List.getD_cons_zero, if_neg (by decide), if_pos rfl]
    rfl
  unfold strtol
  dsimp only
  rw [hdrop, hsign]
  rfl

/-- A base that is given and whose prefix is not there. -/
theorem strtolBase_numeral (base : Base) (n : ℕ) :
    strtolBase base.toNat (numeralBytes base n) = ((base.toNat : ℤ), numeralBytes base n) := by
  obtain ⟨d, s, hds, -, hx⟩ := numeralBytes_cons base n
  have hne : ((base.toNat : ℕ) : ℤ) ≠ 0 := by cases base <;> decide
  unfold strtolBase
  rw [if_neg, if_neg fun h => hne h.1, if_neg hne]
  rw [hds]
  exact fun h => hx h.2.2

/-- **A numeral, read in its own base.** -/
theorem strtol_numeral (base : Base) (n : ℕ) :
    strtol (numeralBytes base n) base.toNat = (BitVec.ofNat 32 n, []) := by
  obtain ⟨d, s, hds, hd, -⟩ := numeralBytes_cons base n
  have h := strtol_of_digit hd s base.toNat
  rw [← hds, strtolBase_numeral] at h
  rw [h]
  exact strtolLoop_numeral base n

theorem strtol_minus_numeral (base : Base) (n : ℕ) :
    strtol (chr '-' :: numeralBytes base n) base.toNat = (-BitVec.ofNat 32 n, []) := by
  have hloop : strtolLoop base.toNat 0#32 (numeralBytes base n) = _ := strtolLoop_numeral base n
  rw [strtol_of_minus, strtolBase_numeral]
  dsimp only
  rw [hloop]

/-- A hexadecimal numeral behind its prefix. -/
theorem strtol_hex (n : ℕ) :
    strtol (str "0x" ++ numeralBytes .hex n) 0 = (BitVec.ofNat 32 n, []) := by
  have hzero : str "0x" ++ numeralBytes .hex n = digitChar 0 :: (chr 'x' :: numeralBytes .hex n) := rfl
  have hbase : strtolBase 0 (digitChar 0 :: (chr 'x' :: numeralBytes .hex n)) =
      (16, numeralBytes .hex n) := by
    unfold strtolBase
    rw [if_pos ⟨Or.inl rfl, rfl, rfl⟩]
    rfl
  rw [hzero, strtol_of_digit (by decide), hbase]
  exact strtolLoop_numeral .hex n

/-- An octal numeral behind its prefix. -/
theorem strtol_oct (n : ℕ) :
    strtol (str "0" ++ numeralBytes .oct n) 0 = (BitVec.ofNat 32 n, []) := by
  obtain ⟨d, s, hds, hd, -⟩ := numeralBytes_cons .oct n
  have hzero : str "0" ++ numeralBytes .oct n = digitChar 0 :: numeralBytes .oct n := rfl
  have hbase : strtolBase 0 (digitChar 0 :: numeralBytes .oct n) = (8, numeralBytes .oct n) := by
    unfold strtolBase
    rw [if_neg, if_pos ⟨rfl, rfl⟩]
    · rfl
    · rw [hds]
      exact fun h => (digitChar_ne hd).2.2.2.2 h.2.2
  rw [hzero, strtol_of_digit (by decide), hbase]
  exact strtolLoop_numeral .oct n

/-! ## The round trip -/

/-- A conversion without width prints the sign and the digits. -/
theorem vprintfmt_plain (m : Word → Option (BitVec 8)) (v : Word) (cv : Conv) :
    ∃ r, vprintfmt snoc m (fun _ => v) [chr '%', cv.byte] (⟨0, []⟩, []) =
      .ok () (r, sign (Numeric.value ⟨[], .none, .int, cv⟩ fun _ => v) ++
        digits cv.base (Numeric.value ⟨[], .none, .int, cv⟩ fun _ => v).natAbs) := by
  have hrun : vprintfmt snoc m (fun _ => v) (Numeric.bytes ⟨[], .none, .int, cv⟩ ++ [])
      (⟨0, []⟩, []) = _ := vprintfmt_numeric ⟨[], .none, .int, cv⟩ [] ⟨0, []⟩ []
  have hle := length_digits_le cv.base
    (Numeric.natAbs_value_lt ⟨[], .none, .int, cv⟩ fun _ => v)
  have hpad : (-1#32 - BitVec.ofNat 32 (digits cv.base
      (Numeric.value ⟨[], .none, .int, cv⟩ fun _ => v).natAbs).length).toInt.toNat = 0 := by
    generalize (digits _ _).length = k at hle
    interval_cases k <;> rfl
  have hemit : emitted cv.base (chr ' ') (-1#32) (Numeric.value ⟨[], .none, .int, cv⟩ fun _ => v) =
      sign (Numeric.value ⟨[], .none, .int, cv⟩ fun _ => v) ++
        digits cv.base (Numeric.value ⟨[], .none, .int, cv⟩ fun _ => v).natAbs := by
    rw [emitted, hpad, List.replicate_zero, List.append_nil]
    rfl
  rw [vprintfmt] at hrun
  refine ⟨⟨1, []⟩, ?_⟩
  rw [← hemit]
  exact hrun

/-- The text of a conversion without width, behind `pre`, reads back as the value, and nothing
of it is left. -/
def ReadsBack (m : Word → Option (BitVec 8)) (v : Word) (cv : Conv) (pre : List (BitVec 8))
    (base : ℤ) : Prop :=
  ∃ r cs, vprintfmt snoc m (fun _ => v) [chr '%', cv.byte] (⟨0, []⟩, []) = .ok () (r, cs) ∧
    strtol (pre ++ cs.map (BitVec.ofInt 8)) base = (v, [])

theorem ofNat_toNat_eq (v : Word) : BitVec.ofNat 32 v.toNat = v := by
  rw [BitVec.ofNat_toNat, BitVec.setWidth_eq]

theorem map_digits (base : Base) (n : ℕ) :
    (digits base n).map (BitVec.ofInt 8) = numeralBytes base n := by
  rw [digits, List.map_map]
  rfl

/-- The unsigned conversions. -/
theorem readsBack_unsigned (m : Word → Option (BitVec 8)) (v : Word) {cv : Conv} (hcv : cv ≠ .d)
    {pre : List (BitVec 8)} {base : ℤ}
    (h : strtol (pre ++ numeralBytes cv.base v.toNat) base = (BitVec.ofNat 32 v.toNat, [])) :
    ReadsBack m v cv pre base := by
  obtain ⟨r, hrun⟩ := vprintfmt_plain m v cv
  have hvalue : Numeric.value ⟨[], .none, .int, cv⟩ (fun _ => v) = (v.toNat : ℤ) := by
    cases cv <;> first | rfl | exact absurd rfl hcv
  rw [hvalue, sign, if_neg (by omega), List.nil_append, Int.natAbs_natCast] at hrun
  refine ⟨r, _, hrun, ?_⟩
  rw [map_digits, h, ofNat_toNat_eq]

/-- The signed conversion. -/
theorem readsBack_signed (m : Word → Option (BitVec 8)) (v : Word) : ReadsBack m v .d [] 10 := by
  obtain ⟨r, hrun⟩ := vprintfmt_plain m v .d
  refine ⟨r, _, hrun, ?_⟩
  show strtol ((sign v.toInt ++ digits .dec v.toInt.natAbs).map (BitVec.ofInt 8)) 10 = _
  rw [List.map_append, map_digits]
  by_cases hneg : v.toInt < 0
  · have hmag : -BitVec.ofNat 32 v.toInt.natAbs = v := by
      rw [← BitVec.ofInt_natCast, ← BitVec.ofInt_neg, Int.ofNat_natAbs_of_nonpos hneg.le, neg_neg,
        BitVec.ofInt_toInt]
    rw [sign, if_pos hneg]
    refine (strtol_minus_numeral .dec _).trans ?_
    rw [hmag]
  · have hmag : BitVec.ofNat 32 v.toInt.natAbs = v := by
      rw [← BitVec.ofInt_natCast, Int.natAbs_of_nonneg (not_lt.mp hneg), BitVec.ofInt_toInt]
    rw [sign, if_neg hneg]
    refine (strtol_numeral .dec _).trans ?_
    rw [hmag]

/-- **`strtol` undoes the conversions**: decimal with its sign, and octal and hexadecimal in
their base or behind their prefix.  It stops at the end of the text. -/
theorem strtol_readsBack (m : Word → Option (BitVec 8)) (v : Word) :
    ReadsBack m v .d [] 10 ∧ ReadsBack m v .o [] 8 ∧ ReadsBack m v .x [] 16 ∧
      ReadsBack m v .x (str "0x") 0 ∧ ReadsBack m v .o (str "0") 0 :=
  ⟨readsBack_signed m v,
    readsBack_unsigned m v (by decide) (strtol_numeral .oct _),
    readsBack_unsigned m v (by decide) (strtol_numeral .hex _),
    readsBack_unsigned m v (by decide) (strtol_hex _),
    readsBack_unsigned m v (by decide) (strtol_oct _)⟩

end Printfmt
end PmakeOs
