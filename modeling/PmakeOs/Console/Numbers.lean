import PmakeOs.Console.Printfmt
import PmakeOs.Lib.Numeral
import Mathlib.Data.BitVec

/-!
# The numeric conversions of `vprintfmt`

`printnum` writes the digits of a number from the most significant on, with the padding in
front of them (`printnum_run`).  The sign of a negative number has been written by then, and is
not counted in the width; and the character that the flag `-` leaves in `padc` is used as
padding like any other, on the left.

A directive is spelled by its flags, its width, its size and its conversion, and read back by
`reswitch` (`reswitch_spelling`).
-/

namespace PmakeOs
namespace Printfmt

open Lib

section

variable {m : Word → Option (BitVec 8)} {args : ℕ → Word}

/-! ## `printnum` -/

/-- The digits of a number, as they are printed. -/
def digits (base : Base) (num : ℕ) : List ℤ := (numeral base.toNat num).map digit

/-- **`printnum` writes the padding and the digits.**  The width counts down once for each
digit. -/
theorem printnum_run (num : ℕ) (base : Base) (width : Word) (padc : BitVec 8) (r : Run)
    (l : List ℤ) :
    printnum snoc num base width padc (r, l) =
      .ok () (r, l ++ List.replicate (width - BitVec.ofNat 32 (digits base num).length).toInt.toNat
        (padc.toNat : ℤ) ++ digits base num) := by
  induction num using Nat.strong_induction_on generalizing width with
  | _ num ih =>
    rw [printnum_eq, bind_apply]
    unfold digits
    by_cases hle : base.toNat ≤ num
    · have hdiv : num / base.toNat < num := Nat.div_lt_self (by have := base.one_lt; omega) base.one_lt
      have hwidth (k : ℕ) : width - 1#32 - BitVec.ofNat 32 k = width - BitVec.ofNat 32 (k + 1) := by
        rw [BitVec.ofNat_add, BitVec.add_comm, sub_add_eq_sub_sub]
      rw [if_pos hle, ih _ hdiv, hwidth, numeral_of_le base.one_lt hle, List.map_append,
        List.length_append, List.map_singleton, List.length_singleton, ← List.append_assoc]
      rfl
    · rw [if_neg hle, putTimes_snoc, numeral_of_lt (not_le.mp hle), Nat.mod_eq_of_lt (not_le.mp hle)]
      rfl

theorem printSigned_run (num : ℤ) (fl : Flags) (r : Run) (l : List ℤ) :
    printSigned snoc num fl (r, l) =
      .ok () (r, l ++ ((if num < 0 then [((chr '-').toNat : ℤ)] else []) ++
        List.replicate (fl.width - BitVec.ofNat 32 (digits .dec num.natAbs).length).toInt.toNat
          (fl.padc.toNat : ℤ) ++ digits .dec num.natAbs)) := by
  unfold printSigned
  split
  · rename_i hneg
    rw [bind_apply]
    show printnum snoc (-num).toNat .dec fl.width fl.padc (r, l ++ [((chr '-').toNat : ℤ)]) = _
    rw [printnum_run, show (-num).toNat = num.natAbs by omega]
    simp only [List.append_assoc]
  · rw [printnum_run, show num.toNat = num.natAbs by omega, List.nil_append, List.append_assoc]

end

/-! ## Directives -/

/-- A flag in front of the width. -/
inductive Flag where
  | minus
  | zero
  deriving DecidableEq

def Flag.byte : Flag → BitVec 8
  | .minus => chr '-'
  | .zero => chr '0'

/-- The width of a directive: none, a positive `int` in the format, or one that is an
argument. -/
inductive Width where
  | none
  | inFormat (w : ℕ) (h : 0 < w ∧ w < 2 ^ 31)
  | star

/-- A decimal digit in the format. -/
def digitByte (d : ℕ) : BitVec 8 := BitVec.ofNat 8 (48 + d)

def Width.bytes : Width → List (BitVec 8)
  | .none => []
  | .inFormat w _ => (numeral 10 w).map digitByte
  | .star => [chr '*']

/-- The value of the width, where the next argument is `arg`. -/
def Width.value (arg : Word) : Width → Word
  | .none => -1#32
  | .inFormat w _ => BitVec.ofNat 32 w
  | .star => arg

/-- The number of arguments it takes. -/
def Width.taken : Width → ℕ
  | .star => 1
  | _ => 0

/-- The size of the value: none, `l` or `ll`. -/
inductive Size where
  | int
  | long
  | longLong
  deriving DecidableEq

def Size.count : Size → ℕ
  | .int => 0
  | .long => 1
  | .longLong => 2

/-- The numeric conversions. -/
inductive Conv where
  | d
  | u
  | o
  | x
  deriving DecidableEq

def Conv.byte : Conv → BitVec 8
  | .d => chr 'd'
  | .u => chr 'u'
  | .o => chr 'o'
  | .x => chr 'x'

def Conv.base : Conv → Base
  | .d => .dec
  | .u => .dec
  | .o => .oct
  | .x => .hex

/-- A directive that prints a number. -/
structure Numeric where
  flags : List Flag
  width : Width
  size : Size
  conv : Conv

namespace Numeric

/-- The directive behind its `%`, as it is spelled in a format. -/
def tail (q : Numeric) : List (BitVec 8) :=
  q.flags.map Flag.byte ++ (q.width.bytes ++ (List.replicate q.size.count (chr 'l') ++ [q.conv.byte]))

/-- The directive, as it is spelled in a format. -/
def bytes (q : Numeric) : List (BitVec 8) := chr '%' :: q.tail

/-- The value that it prints, where `args` are the arguments behind its width. -/
def value (q : Numeric) (args : ℕ → Word) : ℤ :=
  match q.conv, q.size with
  | .d, .longLong => (args 1 ++ args 0).toInt
  | .d, _ => (args 0).toInt
  | _, .longLong => (args 1 ++ args 0).toNat
  | _, _ => (args 0).toNat

/-- The padding character that the flags leave in `padc`. -/
def padc (q : Numeric) : BitVec 8 := q.flags.foldl (fun _ f => f.byte) (chr ' ')

end Numeric

/-- The characters that are no flag and no width: those at which `reswitch` ends. -/
def EndsFlags (c : BitVec 8) : Prop :=
  c ≠ chr '-' ∧ c ≠ chr '0' ∧ ¬ (chr '1' ≤ c ∧ c ≤ chr '9') ∧ c ≠ chr '*' ∧ c ≠ chr '.' ∧
    c ≠ chr '#' ∧ c ≠ chr 'l'

instance (c : BitVec 8) : Decidable (EndsFlags c) := by unfold EndsFlags; infer_instance

section

variable (args : ℕ → Word)

theorem reswitch_ends {c : BitVec 8} (hc : EndsFlags c) (fmt : List (BitVec 8)) (fl : Flags)
    (ap : ℕ) : reswitch args (c :: fmt) fl ap = ⟨fl, c, fmt, ap⟩ := by
  obtain ⟨h₁, h₂, h₃, h₄, h₅, h₆, h₇⟩ := hc
  rw [reswitch, if_neg h₁, if_neg h₂, dif_neg h₃, if_neg h₄, if_neg h₅, if_neg h₆, if_neg h₇]

theorem reswitch_flag (f : Flag) (fmt : List (BitVec 8)) (fl : Flags) (ap : ℕ) :
    reswitch args (f.byte :: fmt) fl ap = reswitch args fmt { fl with padc := f.byte } ap := by
  cases f with
  | minus =>
    rw [reswitch, if_pos (show Flag.minus.byte = chr '-' from rfl)]
    rfl
  | zero =>
    rw [reswitch, if_neg (show Flag.zero.byte ≠ chr '-' by decide),
      if_pos (show Flag.zero.byte = chr '0' from rfl)]
    rfl

theorem reswitch_flags (fs : List Flag) (fmt : List (BitVec 8)) (fl : Flags) (ap : ℕ) :
    reswitch args (fs.map Flag.byte ++ fmt) fl ap =
      reswitch args fmt { fl with padc := fs.foldl (fun _ f => f.byte) fl.padc } ap := by
  induction fs generalizing fl with
  | nil => rfl
  | cons f fs ih =>
    rw [List.map_cons, List.cons_append, reswitch_flag, ih]
    rfl

theorem reswitch_l (k : ℕ) (fmt : List (BitVec 8)) (fl : Flags) (ap : ℕ) :
    reswitch args (List.replicate k (chr 'l') ++ fmt) fl ap =
      reswitch args fmt { fl with lflag := fl.lflag + k } ap := by
  induction k generalizing fl with
  | zero => rfl
  | succ k ih =>
    rw [List.replicate_succ, List.cons_append, reswitch, if_neg (by decide), if_neg (by decide),
      dif_neg (by decide), if_neg (by decide), if_neg (by decide), if_neg (by decide), if_pos rfl, ih]
    rw [Nat.add_assoc, Nat.add_comm 1]

/-- A character that cannot continue a number. -/
def NoDigit (fmt : List (BitVec 8)) : Prop :=
  ∀ c ∈ fmt.head?, ¬ (chr '0' ≤ c ∧ c ≤ chr '9')

theorem digitByte_mem {d : ℕ} (hd : d < 10) : chr '0' ≤ digitByte d ∧ digitByte d ≤ chr '9' := by
  interval_cases d <;> decide

theorem digitByte_setWidth {d : ℕ} (hd : d < 10) :
    (digitByte d).setWidth 32 - 48#32 = BitVec.ofNat 32 d := by
  interval_cases d <;> rfl

/-- The loop over the digits of a width computes modulo `2 ^ 32`. -/
theorem number_digits {ds : List ℕ} (hds : ∀ d ∈ ds, d < 10) {fmt : List (BitVec 8)}
    (hfmt : NoDigit fmt) (v : ℕ) :
    number (BitVec.ofNat 32 v) (ds.map digitByte ++ fmt) =
      (BitVec.ofNat 32 (ds.foldl (fun v d => v * 10 + d) v), fmt) := by
  induction ds generalizing v with
  | nil =>
    cases fmt with
    | nil => rfl
    | cons c fmt => exact if_neg (hfmt c rfl)
  | cons d ds ih =>
    have hd := hds d List.mem_cons_self
    have hstep : BitVec.ofNat 32 v * 10#32 + (digitByte d).setWidth 32 - 48#32 =
        BitVec.ofNat 32 (v * 10 + d) := by
      rw [BitVec.ofNat_add, BitVec.ofNat_mul, ← digitByte_setWidth hd, add_sub_assoc]
    rw [List.map_cons, List.cons_append, number, if_pos (digitByte_mem hd), hstep,
      ih fun d' hd' => hds d' (List.mem_cons_of_mem d hd')]
    rfl

/-- What a width leaves in the flags. -/
theorem reswitch_width (w : Width) {fmt : List (BitVec 8)} (hfmt : NoDigit fmt) {fl : Flags}
    (hw : fl.width = -1#32) (hp : fl.precision = -1#32) (ap : ℕ) :
    reswitch args (w.bytes ++ fmt) fl ap =
      reswitch args fmt { fl with width := w.value (args ap) } (ap + w.taken) := by
  have hprocess (p : Word) : ({ fl with precision := p } : Flags).processPrecision =
      { fl with width := p } := by
    unfold Flags.processPrecision
    rw [if_pos (by rw [hw]; decide), ← hp]
  cases w with
  | none =>
    show reswitch args fmt fl ap = reswitch args fmt { fl with width := -1#32 } ap
    rw [← hw]
  | star =>
    show reswitch args (chr '*' :: fmt) fl ap = _
    rw [reswitch, if_neg (by decide), if_neg (by decide), dif_neg (by decide), if_pos rfl, hprocess]
    rfl
  | inFormat w h =>
    obtain ⟨d, ds, hds, hpos⟩ := numeral_eq_cons (b := 10) h.1.ne'
    have hlt : ∀ d' ∈ numeral 10 w, d' < 10 := fun d' hd' => lt_of_mem_numeral (by decide) hd'
    have hd : d < 10 := hlt d (by rw [hds]; exact List.mem_cons_self)
    have hnumber := number_digits hlt hfmt 0
    rw [foldl_numeral (by decide)] at hnumber
    have hfirst : digitByte d ≠ chr '-' ∧ digitByte d ≠ chr '0' ∧
        (chr '1' ≤ digitByte d ∧ digitByte d ≤ chr '9') := by
      interval_cases d <;> decide
    show reswitch args ((numeral 10 w).map digitByte ++ fmt) fl ap = _
    rw [hds, List.map_cons, List.cons_append] at hnumber ⊢
    rw [reswitch, if_neg hfirst.1, if_neg hfirst.2.1, dif_pos hfirst.2.2, hnumber, hprocess]
    rfl

theorem endsFlags_conv (cv : Conv) : EndsFlags cv.byte := by cases cv <;> decide

theorem noDigit_size (sz : Size) (cv : Conv) (rest : List (BitVec 8)) :
    NoDigit (List.replicate sz.count (chr 'l') ++ ([cv.byte] ++ rest)) := by
  intro c hc
  obtain rfl | rfl : chr 'l' = c ∨ cv.byte = c := by
    cases sz with
    | int => exact Or.inr (Option.some.inj hc)
    | long => exact Or.inl (Option.some.inj hc)
    | longLong => exact Or.inl (Option.some.inj hc)
  · decide
  · cases cv <;> decide

/-- **What `reswitch` reads of a directive.** -/
theorem reswitch_spelling (q : Numeric) (rest : List (BitVec 8)) (ap : ℕ) :
    reswitch args (q.tail ++ rest) .default ap =
      ⟨⟨q.padc, q.width.value (args ap), -1#32, q.size.count, false⟩, q.conv.byte, rest,
        ap + q.width.taken⟩ := by
  have hsize := noDigit_size q.size q.conv rest
  rw [Numeric.tail, List.append_assoc, reswitch_flags, List.append_assoc, List.append_assoc,
    reswitch_width args q.width hsize rfl rfl, reswitch_l, List.singleton_append,
    reswitch_ends args (endsFlags_conv q.conv)]
  rw [show (Flags.default.lflag + q.size.count) = q.size.count from Nat.zero_add _]
  rfl

end

/-- What the code writes for a value: the sign, the padding, the digits. -/
def emitted (base : Base) (padc : BitVec 8) (width : Word) (v : ℤ) : List ℤ :=
  (if v < 0 then [((chr '-').toNat : ℤ)] else []) ++
    List.replicate (width - BitVec.ofNat 32 (digits base v.natAbs).length).toInt.toNat
      (padc.toNat : ℤ) ++ digits base v.natAbs

/-- The number of arguments that a value takes. -/
def Size.words : Size → ℕ
  | .longLong => 2
  | _ => 1

section

variable {m : Word → Option (BitVec 8)} {args : ℕ → Word}

theorem getint_run (sz : Size) (r : Run) (l : List ℤ) :
    getint args sz.count (r, l) =
      .ok (Numeric.value ⟨[], .none, sz, .d⟩ fun i => args (r.ap + i))
        ({ r with ap := r.ap + sz.words }, l) := by
  cases sz <;> rfl

theorem getuint_run (args : ℕ → Word) (sz : Size) {cv : Conv} (hcv : cv ≠ .d) (r : Run) (l : List ℤ) :
    ∃ n : ℕ, (n : ℤ) = Numeric.value ⟨[], .none, sz, cv⟩ (fun i => args (r.ap + i)) ∧
      getuint args sz.count (r, l) = .ok n ({ r with ap := r.ap + sz.words }, l) := by
  cases sz with
  | longLong =>
    refine ⟨(args (r.ap + 1) ++ args r.ap).toNat, ?_, rfl⟩
    cases cv <;> first | rfl | exact absurd rfl hcv
  | int =>
    refine ⟨(args r.ap).toNat, ?_, rfl⟩
    cases cv <;> first | rfl | exact absurd rfl hcv
  | long =>
    refine ⟨(args r.ap).toNat, ?_, rfl⟩
    cases cv <;> first | rfl | exact absurd rfl hcv

theorem value_eq (q : Numeric) (args : ℕ → Word) :
    q.value args = Numeric.value ⟨[], .none, q.size, q.conv⟩ args := by
  unfold Numeric.value
  rfl

/-- An unsigned number, written without a sign. -/
theorem printnum_emitted (n : ℕ) (base : Base) (width : Word) (padc : BitVec 8) (r : Run)
    (l : List ℤ) :
    printnum snoc n base width padc (r, l) = .ok () (r, l ++ emitted base padc width n) := by
  rw [printnum_run, emitted, if_neg (by omega), List.nil_append, Int.natAbs_natCast,
    List.append_assoc]

/-- A directive for an unsigned number. -/
theorem unsigned_run {q : Numeric} (hcv : q.conv ≠ .d) (fl : Flags) (hl : fl.lflag = q.size.count)
    (r : Run) (l : List ℤ) :
    (getuint args fl.lflag >>= fun n => printnum snoc n q.conv.base fl.width fl.padc) (r, l) =
      .ok () ({ r with ap := r.ap + q.size.words },
        l ++ emitted q.conv.base fl.padc fl.width (q.value fun i => args (r.ap + i))) := by
  obtain ⟨n, hn, hget⟩ := getuint_run args q.size hcv r l
  rw [bind_apply, hl, hget]
  show printnum snoc n q.conv.base fl.width fl.padc _ = _
  rw [printnum_emitted, hn, value_eq q]

/-- The branch of `%d`. -/
theorem convert_signed {d : Directive} (hd : d.conv = Conv.d.byte) :
    convert snoc m args d =
      some (getint args d.flags.lflag >>= fun num => printSigned snoc num d.flags) := by
  unfold convert
  rw [if_neg (by rw [hd]; decide), if_neg (by rw [hd]; decide), if_neg (by rw [hd]; decide),
    if_pos (show d.conv = chr 'd' from hd)]

/-- The branches of `%u`, `%o` and `%x`. -/
theorem convert_unsigned {d : Directive} {cv : Conv} (hcv : cv ≠ .d) (hd : d.conv = cv.byte) :
    convert snoc m args d =
      some (getuint args d.flags.lflag >>= fun n =>
        printnum snoc n cv.base d.flags.width d.flags.padc) := by
  unfold convert
  cases cv with
  | d => exact absurd rfl hcv
  | u =>
    rw [if_neg (by rw [hd]; decide), if_neg (by rw [hd]; decide), if_neg (by rw [hd]; decide),
      if_neg (by rw [hd]; decide), if_pos (show d.conv = chr 'u' from hd)]
    rfl
  | o =>
    rw [if_neg (by rw [hd]; decide), if_neg (by rw [hd]; decide), if_neg (by rw [hd]; decide),
      if_neg (by rw [hd]; decide), if_neg (by rw [hd]; decide), if_pos (show d.conv = chr 'o' from hd)]
    rfl
  | x =>
    rw [if_neg (by rw [hd]; decide), if_neg (by rw [hd]; decide), if_neg (by rw [hd]; decide),
      if_neg (by rw [hd]; decide), if_neg (by rw [hd]; decide), if_neg (by rw [hd]; decide),
      if_neg (by rw [hd]; decide), if_pos (show d.conv = chr 'x' from hd)]
    rfl

/-- **A numeric directive** takes its width and its value from the arguments and writes one
field. -/
theorem vprintfmt_numeric (q : Numeric) (rest : List (BitVec 8)) (r : Run) (l : List ℤ) :
    vprintfmt snoc m args (q.bytes ++ rest) (r, l) =
      vprintfmt snoc m args rest ({ r with ap := r.ap + q.width.taken + q.size.words },
        l ++ emitted q.conv.base q.padc (q.width.value (args r.ap))
          (q.value fun i => args (r.ap + q.width.taken + i))) := by
  rw [Numeric.bytes, List.cons_append, vprintfmt_directive, reswitch_spelling]
  rcases eq_or_ne q.conv .d with hcv | hcv
  · rw [hcv, convert_signed rfl]
    dsimp only
    rw [bind_apply, bind_apply, getint_run]
    dsimp only
    rw [printSigned_run, value_eq q, hcv]
    rfl
  · rw [convert_unsigned hcv rfl]
    dsimp only
    rw [bind_apply, unsigned_run hcv ⟨q.padc, q.width.value (args r.ap), -1#32, q.size.count, false⟩ rfl]

end

end Printfmt
end PmakeOs
