import PmakeOs.Console.Numbers

/-!
# Fields

The field that a numeric directive asks for has its sign and digits in as many characters as
the width says: at the right behind blanks, at the right with zeros between the sign and the
digits, or at the left.  What `vprintfmt` writes is that field when there is nothing to pad.
When there is, the sign comes first and is not counted, and with the flag `-` the padding is on
the wrong side and consists of the character in `padc`.
-/

namespace PmakeOs
namespace Printfmt

open Lib

/-- The sign of a number, as it is printed. -/
def sign (v : ℤ) : List ℤ := if v < 0 then [((chr '-').toNat : ℤ)] else []

/-- A field of `width` characters, or as many as it takes.  The flag `-` goes before `0`. -/
def field (flags : List Flag) (width : ℤ) (sgn ds : List ℤ) : List ℤ :=
  let n := (width - (sgn.length + ds.length)).toNat
  if Flag.minus ∈ flags then sgn ++ ds ++ List.replicate n ((chr ' ').toNat : ℤ)
  else if Flag.zero ∈ flags then sgn ++ List.replicate n ((chr '0').toNat : ℤ) ++ ds
  else List.replicate n ((chr ' ').toNat : ℤ) ++ sgn ++ ds

theorem length_field (flags : List Flag) (width : ℤ) (sgn ds : List ℤ) :
    ((field flags width sgn ds).length : ℤ) = max width (sgn.length + ds.length) := by
  have hlen : (field flags width sgn ds).length =
      (width - (sgn.length + ds.length)).toNat + (sgn.length + ds.length) := by
    unfold field
    dsimp only
    split
    · simp only [List.length_append, List.length_replicate]
      omega
    · split
      · simp only [List.length_append, List.length_replicate]
        omega
      · simp only [List.length_append, List.length_replicate]
        omega
  rw [hlen]
  omega

/-- With nothing to pad all three are the same. -/
theorem field_of_le (flags : List Flag) {width : ℤ} {sgn ds : List ℤ}
    (h : width ≤ sgn.length + ds.length) : field flags width sgn ds = sgn ++ ds := by
  have hn : (width - (sgn.length + ds.length)).toNat = 0 := by omega
  unfold field
  dsimp only
  rw [hn]
  split
  · exact List.append_nil _
  · split
    · rw [List.replicate_zero, List.append_nil]
    · rfl

namespace Numeric

/-- The field that a directive asks for. -/
def intended (q : Numeric) (width : ℤ) (v : ℤ) : List ℤ :=
  field q.flags width (sign v) (digits q.conv.base v.natAbs)

/-- Nothing is left to pad behind the digits, or there is neither a sign nor the flag `-`, nor a
negative width. -/
def PadsWell (q : Numeric) (width : Word) (v : ℤ) : Prop :=
  (width - BitVec.ofNat 32 (digits q.conv.base v.natAbs).length).toInt ≤ 0 ∨
    (0 ≤ v ∧ Flag.minus ∉ q.flags ∧ 0 ≤ width.toInt)

theorem natAbs_value_lt (q : Numeric) (args : ℕ → Word) : (q.value args).natAbs < 2 ^ 64 := by
  have hi := (args 1 ++ args 0).isLt
  have hlo := (args 0).isLt
  have h₁ := (args 1 ++ args 0).toInt_lt
  have h₂ := (args 1 ++ args 0).le_toInt
  have h₃ := (args 0).toInt_lt
  have h₄ := (args 0).le_toInt
  unfold value
  split <;> omega

end Numeric

/-- A number of 64 bits has at most 22 digits. -/
theorem length_digits_le (base : Base) {n : ℕ} (h : n < 2 ^ 64) :
    (digits base n).length ≤ 22 := by
  rw [digits, List.length_map]
  refine length_numeral_le base.one_lt (by decide) (h.trans_le ?_)
  cases base <;> decide

theorem length_digits_pos (base : Base) (n : ℕ) : 0 < (digits base n).length := by
  rw [digits, List.length_map]
  exact length_numeral_pos _ _

theorem digit_ne_space {d : ℕ} (hd : d < 16) : digit d ≠ ((chr ' ').toNat : ℤ) := by
  interval_cases d <;> decide

theorem not_mem_digits (base : Base) (n : ℕ) : ((chr ' ').toNat : ℤ) ∉ digits base n := by
  intro h
  obtain ⟨d, hd, heq⟩ := List.mem_map.mp h
  have hlt := lt_of_mem_numeral base.one_lt hd
  refine digit_ne_space (hlt.trans_le ?_) heq
  cases base <;> decide

/-- The padding that `printnum` computes is what is left of the width, unless the width is
negative. -/
theorem toInt_width_sub {width : Word} {k : ℕ} (hk : k ≤ 22) (hw : 0 ≤ width.toInt) :
    (width - BitVec.ofNat 32 k).toInt = width.toInt - k := by
  have hlt := width.toInt_lt
  have hofNat : (BitVec.ofNat 32 k).toInt = k := by
    rw [BitVec.toInt_ofNat', Int.bmod_eq_of_le (by omega) (by omega)]
  rw [BitVec.toInt_sub, hofNat, Int.bmod_eq_of_le (by omega) (by omega)]

/-- Without padding, the width is at most the number of digits. -/
theorem toInt_le_of_sub {width : Word} {k : ℕ} (hk : k ≤ 22)
    (h : (width - BitVec.ofNat 32 k).toInt ≤ 0) : width.toInt ≤ k := by
  rcases lt_or_ge width.toInt 0 with hneg | hpos
  · omega
  · rw [toInt_width_sub hk hpos] at h
    omega

/-- With the flag `0` alone, or none, `padc` is what the field is filled with. -/
theorem padc_of_not_minus {flags : List Flag} (h : Flag.minus ∉ flags) :
    flags.foldl (fun _ f => f.byte) (chr ' ') =
      if Flag.zero ∈ flags then chr '0' else chr ' ' := by
  have hall : ∀ c, flags.foldl (fun _ f => f.byte) c = if Flag.zero ∈ flags then chr '0' else c := by
    induction flags with
    | nil =>
      intro c
      rw [if_neg List.not_mem_nil]
      rfl
    | cons f flags ih =>
      intro c
      have hf : f = .zero := by
        cases f with
        | minus => exact absurd List.mem_cons_self h
        | zero => rfl
      rw [List.foldl_cons, ih (fun hm => h (List.mem_cons_of_mem f hm)), hf,
        if_pos List.mem_cons_self]
      split
      · rfl
      · rfl
  exact hall _

/-- **What is written is the field exactly when it pads well.** -/
theorem emitted_eq_intended_iff (q : Numeric) (width : Word) {v : ℤ} (hv : v.natAbs < 2 ^ 64) :
    emitted q.conv.base q.padc width v = q.intended width.toInt v ↔ q.PadsWell width v := by
  have hle := length_digits_le q.conv.base hv
  have hpos := length_digits_pos q.conv.base v.natAbs
  have hblank := not_mem_digits q.conv.base v.natAbs
  unfold emitted Numeric.intended Numeric.PadsWell
  change sign v ++ _ ++ _ = _ ↔ _
  generalize digits q.conv.base v.natAbs = ds at hle hpos hblank ⊢
  have hsub := @toInt_le_of_sub width ds.length hle
  have hno (hw : 0 ≤ width.toInt) := toInt_width_sub hle hw
  generalize (width - BitVec.ofNat 32 ds.length).toInt = p at hsub hno ⊢
  constructor
  · intro heq
    by_cases hp : p ≤ 0
    · exact Or.inl hp
    have hlen := congrArg (fun l : List ℤ => (l.length : ℤ)) heq
    simp only [length_field, List.length_append, List.length_replicate, Nat.cast_add] at hlen
    have hwidth : 0 ≤ width.toInt := by omega
    have hsgn : (sign v).length = 0 := by
      have := hno hwidth
      omega
    have hv0 : 0 ≤ v := by
      by_contra hneg
      rw [sign, if_pos (by omega)] at hsgn
      exact absurd hsgn (Nat.succ_ne_zero 0)
    refine Or.inr ⟨hv0, fun hminus => ?_, hwidth⟩
    -- the last character is a digit, where the field ends with a blank
    have hn : (width.toInt - ((sign v).length + ds.length)).toNat = p.toNat := by
      have := hno hwidth
      omega
    unfold field at heq
    dsimp only at heq
    rw [if_pos hminus, hn] at heq
    obtain ⟨k, hk⟩ : ∃ k, p.toNat = k + 1 := ⟨p.toNat - 1, by omega⟩
    have hlast := congrArg List.getLast? heq
    rw [List.getLast?_append_of_ne_nil _ (List.length_pos_iff.mp hpos), hk,
      List.replicate_succ' (a := ((chr ' ').toNat : ℤ)), ← List.append_assoc _ _ [_],
      List.getLast?_concat] at hlast
    exact hblank (List.mem_of_getLast? hlast)
  · rintro (hp | ⟨hv0, hminus, hwidth⟩)
    · rw [field_of_le q.flags (by have := hsub hp; omega), show p.toNat = 0 by omega,
        List.replicate_zero, List.append_nil]
    · have hsgn : sign v = [] := if_neg (by omega)
      have hn : (width.toInt - (([] : List ℤ).length + ds.length)).toNat = p.toNat := by
        have := hno hwidth
        simp only [List.length_nil]
        omega
      unfold field
      dsimp only
      rw [hsgn, if_neg hminus, Numeric.padc, padc_of_not_minus hminus, hn]
      split
      · rfl
      · rw [List.nil_append, List.append_nil]

/-- A numeric directive, as a format of its own, writes the field that it asks for. -/
def WritesField (m : Word → Option (BitVec 8)) (args : ℕ → Word) (q : Numeric) (r : Run)
    (l : List ℤ) : Prop :=
  ∃ r', vprintfmt snoc m args q.bytes (r, l) =
    .ok () (r', l ++ q.intended (q.width.value (args r.ap)).toInt
      (q.value fun i => args (r.ap + q.width.taken + i)))

/-- **The numeric conversions write the field they are asked for exactly when the digits fill
the width, or there is neither a sign nor the flag `-`.** -/
theorem writesField_iff (m : Word → Option (BitVec 8)) (args : ℕ → Word) (q : Numeric) (r : Run)
    (l : List ℤ) :
    WritesField m args q r l ↔
      q.PadsWell (q.width.value (args r.ap)) (q.value fun i => args (r.ap + q.width.taken + i)) := by
  have hrun : vprintfmt snoc m args (q.bytes ++ []) (r, l) = _ := vprintfmt_numeric q [] r l
  rw [List.append_nil, vprintfmt] at hrun
  rw [← emitted_eq_intended_iff q _ (q.natAbs_value_lt _)]
  unfold WritesField
  rw [hrun]
  constructor
  · rintro ⟨r', h⟩
    have hsink := (Prod.mk.inj (EStateM.Result.ok.inj h).2).2
    exact List.append_cancel_left hsink
  · intro h
    rw [← h]
    exact ⟨_, rfl⟩

/-- The directive `%5d`. -/
def fiveD : Numeric := ⟨[], .inFormat 5 (by decide), .int, .d⟩

/-- **With a width, a negative number takes one character too many.** -/
theorem not_writesField :
    ¬ ∀ (m : Word → Option (BitVec 8)) (args : ℕ → Word) (q : Numeric) (r : Run) (l : List ℤ),
      WritesField m args q r l := by
  intro hall
  have h := hall (fun _ => none) (fun _ => -42#32) fiveD ⟨0, []⟩ []
  rw [writesField_iff] at h
  have hds : digits Base.dec 42 = [52, 50] := by
    rw [digits, numeral_of_le (by decide) (by decide), numeral_of_lt (by decide)]
    decide
  rcases h with h | ⟨h, -⟩
  · replace h : (5#32 - BitVec.ofNat 32 (digits Base.dec 42).length).toInt ≤ 0 := h
    rw [hds] at h
    exact absurd h (by decide)
  · exact absurd h (by decide)

end Printfmt
end PmakeOs
