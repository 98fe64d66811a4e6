import PmakeOs.Console.Cprintf
import Mathlib.Data.List.TakeWhile

/-!
# The pieces of a format

A format is cut at its escapes: a `%`, the flags behind it and the character that ends them,
which may be missing at the end of the format.  `vprintfmt` handles the pieces one after the
other, as if each was a format of its own (`vprintfmt_pieces`).  An escape that ends with no
conversion is printed as it stands: its `%` by the default case, and the rest of it as plain
text.

Every piece returns, if the strings that the arguments point to have an end.
-/

namespace PmakeOs
namespace Printfmt

open Lib

/-- The characters that may stand between a `%` and its conversion. -/
def IsFlag (c : BitVec 8) : Prop :=
  c = chr '-' ∨ (chr '0' ≤ c ∧ c ≤ chr '9') ∨ c = chr '*' ∨ c = chr '.' ∨ c = chr '#' ∨ c = chr 'l'

instance : DecidablePred IsFlag := fun c => by unfold IsFlag; infer_instance

/-- What belongs to an escape behind its `%`. -/
def escape (fmt : List (BitVec 8)) : List (BitVec 8) :=
  fmt.takeWhile IsFlag ++ (fmt.dropWhile IsFlag).take 1

/-- What follows the escape. -/
def afterEscape (fmt : List (BitVec 8)) : List (BitVec 8) := (fmt.dropWhile IsFlag).drop 1

theorem escape_append (fmt : List (BitVec 8)) : escape fmt ++ afterEscape fmt = fmt := by
  rw [escape, afterEscape, List.append_assoc, List.take_append_drop, List.takeWhile_append_dropWhile]

theorem length_afterEscape (fmt : List (BitVec 8)) : (afterEscape fmt).length ≤ fmt.length := by
  have h := congrArg List.length (escape_append fmt)
  rw [List.length_append] at h
  omega

/-- The pieces of a format. -/
def pieces (fmt : List (BitVec 8)) : List (List (BitVec 8)) :=
  match fmt with
  | [] => []
  | c :: fmt =>
    if c = chr '%' then (c :: escape fmt) :: pieces (afterEscape fmt)
    else [c] :: pieces fmt
termination_by fmt.length
decreasing_by
  · exact Nat.lt_succ_of_le (length_afterEscape fmt)
  · exact Nat.lt_succ_self _

/-- The characters that end a directive. -/
def conversions : List (BitVec 8) :=
  [chr 'c', chr 'e', chr 's', chr 'd', chr 'u', chr 'o', chr 'p', chr 'x', chr '%']

/-- An escape in which no conversion follows the flags: another character, or nothing. -/
def Unrecognised (p : List (BitVec 8)) : Prop :=
  ∃ e, p = chr '%' :: e ∧ (e.dropWhile IsFlag).headD 0#8 ∉ conversions

/-- Nothing is lost. -/
theorem flatten_pieces (fmt : List (BitVec 8)) : (pieces fmt).flatten = fmt := by
  fun_induction pieces fmt with
  | case1 => rfl
  | case2 fmt ih => rw [List.flatten_cons, ih, List.cons_append, escape_append]
  | case3 c fmt hc ih => rw [List.flatten_cons, ih, List.singleton_append]

/-! ## What `reswitch` reads -/

theorem escape_cons {c : BitVec 8} (hc : IsFlag c) (fmt : List (BitVec 8)) :
    escape (c :: fmt) = c :: escape fmt := by
  rw [escape, List.takeWhile_cons_of_pos (by simpa using hc),
    List.dropWhile_cons_of_pos (by simpa using hc), List.cons_append]
  rfl

theorem escape_cons_of_not {c : BitVec 8} (hc : ¬ IsFlag c) (fmt : List (BitVec 8)) :
    escape (c :: fmt) = [c] := by
  rw [escape, List.takeWhile_cons_of_neg (by simpa using hc),
    List.dropWhile_cons_of_neg (by simpa using hc)]
  rfl

theorem isFlag_of_digit {c : BitVec 8} (h : chr '0' ≤ c ∧ c ≤ chr '9') : IsFlag c := Or.inr (Or.inl h)

theorem dropWhile_number (precision : Word) (fmt : List (BitVec 8)) :
    (number precision fmt).2.dropWhile IsFlag = fmt.dropWhile IsFlag := by
  induction fmt generalizing precision with
  | nil => rfl
  | cons c fmt ih =>
    rw [number]
    split
    · rename_i hd
      rw [ih, List.dropWhile_cons_of_pos (by simpa using isFlag_of_digit hd)]
    · rfl

theorem number_escape (precision : Word) (fmt : List (BitVec 8)) :
    number precision (escape fmt) = ((number precision fmt).1, escape (number precision fmt).2) := by
  induction fmt generalizing precision with
  | nil => rfl
  | cons c fmt ih =>
    by_cases hd : chr '0' ≤ c ∧ c ≤ chr '9'
    · rw [escape_cons (isFlag_of_digit hd), number, if_pos hd, ih, number, if_pos hd]
    · rw [number, if_neg hd]
      by_cases hc : IsFlag c
      · rw [escape_cons hc, number, if_neg hd]
      · rw [escape_cons_of_not hc, number, if_neg hd]

theorem dropWhile_flag {c : BitVec 8} (hc : IsFlag c) (fmt : List (BitVec 8)) :
    (c :: fmt).dropWhile IsFlag = fmt.dropWhile IsFlag :=
  List.dropWhile_cons_of_pos (by simpa using hc)

theorem dropWhile_not_flag {c : BitVec 8} (hc : ¬ IsFlag c) (fmt : List (BitVec 8)) :
    (c :: fmt).dropWhile IsFlag = c :: fmt :=
  List.dropWhile_cons_of_neg (by simpa using hc)

/-- A character at which `reswitch` ends is no flag. -/
theorem not_isFlag {c : BitVec 8} (h₁ : c ≠ chr '-') (h₂ : c ≠ chr '0')
    (h₃ : ¬ (chr '1' ≤ c ∧ c ≤ chr '9')) (h₄ : c ≠ chr '*') (h₅ : c ≠ chr '.') (h₆ : c ≠ chr '#')
    (h₇ : c ≠ chr 'l') : ¬ IsFlag c := by
  rintro (h | ⟨hlo, hhi⟩ | h | h | h | h)
  · exact h₁ h
  · refine h₃ ⟨?_, hhi⟩
    have hne : c.toNat ≠ 48 := fun h => h₂ (BitVec.eq_of_toNat_eq h)
    have hle : 48 ≤ c.toNat := hlo
    show 49 ≤ c.toNat
    omega
  · exact h₄ h
  · exact h₅ h
  · exact h₆ h
  · exact h₇ h

/-- `d` is what is read from `fmt`: the flags and one more character. -/
structure ReadsEscape (fmt : List (BitVec 8)) (d d' : Directive) : Prop where
  conv : d.conv = (fmt.dropWhile IsFlag).headD 0#8
  rest : d.rest = afterEscape fmt
  alone : d' = { d with rest := [] }

theorem ReadsEscape.flag {fmt fmt' : List (BitVec 8)} {d d' : Directive}
    (h : ReadsEscape fmt d d') (hfmt : fmt'.dropWhile IsFlag = fmt.dropWhile IsFlag) :
    ReadsEscape fmt' d d' := by
  refine ⟨?_, ?_, h.alone⟩
  · rw [hfmt]
    exact h.conv
  · rw [afterEscape, hfmt]
    exact h.rest

/-- **`reswitch` reads an escape**, and what stands behind the escape does not matter to it. -/
theorem readsEscape_reswitch (args : ℕ → Word) (fmt : List (BitVec 8)) (fl : Flags) (ap : ℕ) :
    ReadsEscape fmt (reswitch args fmt fl ap) (reswitch args (escape fmt) fl ap) := by
  fun_induction reswitch args fmt fl ap with
  | case1 fl ap =>
    refine ⟨rfl, rfl, ?_⟩
    rw [show escape [] = [] from rfl, reswitch]
  | case2 fl ap fmt ih =>
    have hc : IsFlag (chr '-') := by decide
    rw [escape_cons hc, reswitch, if_pos rfl]
    exact ih.flag (dropWhile_flag hc fmt)
  | case3 fl ap fmt h₁ ih =>
    have hc : IsFlag (chr '0') := by decide
    rw [escape_cons hc, reswitch, if_neg h₁, if_pos rfl]
    exact ih.flag (dropWhile_flag hc fmt)
  | case4 fl ap c fmt h₁ h₂ h₃ ih =>
    have hc : IsFlag c := isFlag_of_digit ⟨BitVec.le_trans (by decide) h₃.1, h₃.2⟩
    rw [escape_cons hc, reswitch, if_neg h₁, if_neg h₂, dif_pos h₃, ← escape_cons hc, number_escape]
    exact ih.flag (dropWhile_number _ _).symm
  | case5 fl ap fmt h₁ h₂ h₃ ih =>
    have hc : IsFlag (chr '*') := by decide
    rw [escape_cons hc, reswitch, if_neg h₁, if_neg h₂, dif_neg h₃, if_pos rfl]
    exact ih.flag (dropWhile_flag hc fmt)
  | case6 fl ap fmt h₁ h₂ h₃ h₄ ih =>
    have hc : IsFlag (chr '.') := by decide
    rw [escape_cons hc, reswitch, if_neg h₁, if_neg h₂, dif_neg h₃, if_neg h₄, if_pos rfl]
    exact ih.flag (dropWhile_flag hc fmt)
  | case7 fl ap fmt h₁ h₂ h₃ h₄ h₅ ih =>
    have hc : IsFlag (chr '#') := by decide
    rw [escape_cons hc, reswitch, if_neg h₁, if_neg h₂, dif_neg h₃, if_neg h₄, if_neg h₅, if_pos rfl]
    exact ih.flag (dropWhile_flag hc fmt)
  | case8 fl ap fmt h₁ h₂ h₃ h₄ h₅ h₆ ih =>
    have hc : IsFlag (chr 'l') := by decide
    rw [escape_cons hc, reswitch, if_neg h₁, if_neg h₂, dif_neg h₃, if_neg h₄, if_neg h₅, if_neg h₆,
      if_pos rfl]
    exact ih.flag (dropWhile_flag hc fmt)
  | case9 fl ap c fmt h₁ h₂ h₃ h₄ h₅ h₆ h₇ =>
    have hc : ¬ IsFlag c := not_isFlag h₁ h₂ h₃ h₄ h₅ h₆ h₇
    refine ⟨?_, ?_, ?_⟩
    · rw [dropWhile_not_flag hc]
      rfl
    · rw [afterEscape, dropWhile_not_flag hc]
      rfl
    · rw [escape_cons_of_not hc, reswitch, if_neg h₁, if_neg h₂, dif_neg h₃, if_neg h₄, if_neg h₅,
        if_neg h₆, if_neg h₇]

/-! ## One piece after the other -/

section

variable {σ : Type} (put : ℤ → σ → σ) (m : Word → Option (BitVec 8)) (args : ℕ → Word)

/-- The default case is taken for every other character. -/
theorem convert_eq_none_iff (d : Directive) :
    convert put m args d = none ↔ d.conv ∉ conversions := by
  unfold convert conversions
  simp only [List.mem_cons, List.not_mem_nil, or_false, not_or]
  repeat' split
  all_goals simp_all

/-- The pieces, each of them a format of its own. -/
def printPieces : List (List (BitVec 8)) → Fmt σ Unit
  | [] => pure ()
  | p :: ps => do
    vprintfmt put m args p
    printPieces ps

/-- Plain text is printed as it stands. -/
theorem vprintfmt_plainText {p : List (BitVec 8)} (hp : ∀ c ∈ p, c ≠ chr '%' ∧ c ≠ 0#8)
    (fmt : List (BitVec 8)) :
    vprintfmt put m args (p ++ fmt) = putStr put p >>= fun _ => vprintfmt put m args fmt := by
  induction p with
  | nil => rw [putStr, List.nil_append, pure_bind]
  | cons c p ih =>
    obtain ⟨hpct, hzero⟩ := hp c List.mem_cons_self
    rw [List.cons_append, vprintfmt, if_neg hpct, if_neg hzero, putStr, bind_assoc,
      ih fun c' hc' => hp c' (List.mem_cons_of_mem c hc')]

theorem not_flag_percent : ¬ IsFlag (chr '%') := by decide

/-- Apart from its last character an escape has no `%`. -/
theorem ne_percent_of_mem_escape {fmt : List (BitVec 8)}
    (h : (fmt.dropWhile IsFlag).headD 0#8 ≠ chr '%') {c : BitVec 8} (hc : c ∈ escape fmt) :
    c ≠ chr '%' := by
  rcases List.mem_append.mp hc with hc | hc
  · have hflag : IsFlag c := by simpa using List.mem_takeWhile_imp hc
    rintro rfl
    exact not_flag_percent hflag
  · cases hd : fmt.dropWhile IsFlag with
    | nil =>
      rw [hd] at hc
      exact absurd hc List.not_mem_nil
    | cons c' l =>
      rw [hd] at hc h
      rw [List.mem_singleton.mp hc]
      exact h

theorem mem_of_mem_escape {fmt : List (BitVec 8)} {c : BitVec 8} (hc : c ∈ escape fmt) : c ∈ fmt := by
  rw [← escape_append fmt]
  exact List.mem_append_left _ hc

/-- An escape that is not recognised prints itself. -/
theorem vprintfmt_unrecognised {fmt : List (BitVec 8)} (hzero : ∀ c ∈ fmt, c ≠ 0#8)
    (h : (fmt.dropWhile IsFlag).headD 0#8 ∉ conversions) (r : Run) (z : σ) :
    vprintfmt put m args (chr '%' :: fmt) (r, z) =
      (putStr put (chr '%' :: escape fmt) >>= fun _ => vprintfmt put m args (afterEscape fmt))
        ({ r with ap := (reswitch args fmt .default r.ap).ap }, z) := by
  have hread := readsEscape_reswitch args fmt .default r.ap
  have hnone : convert put m args (reswitch args fmt .default r.ap) = none := by
    rw [convert_eq_none_iff, hread.conv]
    exact h
  have hpct : (fmt.dropWhile IsFlag).headD 0#8 ≠ chr '%' := by
    intro heq
    exact h (heq ▸ by decide)
  have hplain := vprintfmt_plainText put m args
    (fun c hc => ⟨ne_percent_of_mem_escape hpct hc, hzero c (mem_of_mem_escape hc)⟩)
    (afterEscape fmt)
  rw [escape_append] at hplain
  rw [vprintfmt_directive, hnone, putStr, bind_assoc]
  dsimp only
  rw [hplain]

theorem dropWhile_escape (fmt : List (BitVec 8)) :
    (escape fmt).dropWhile IsFlag = (fmt.dropWhile IsFlag).take 1 := by
  induction fmt with
  | nil => rfl
  | cons c fmt ih =>
    by_cases hc : IsFlag c
    · rw [escape_cons hc, dropWhile_flag hc, dropWhile_flag hc, ih]
    · rw [escape_cons_of_not hc, dropWhile_not_flag hc, dropWhile_not_flag hc]
      rfl

theorem headD_escape (fmt : List (BitVec 8)) :
    ((escape fmt).dropWhile IsFlag).headD 0#8 = (fmt.dropWhile IsFlag).headD 0#8 := by
  rw [dropWhile_escape]
  cases fmt.dropWhile IsFlag <;> rfl

theorem afterEscape_escape (fmt : List (BitVec 8)) : afterEscape (escape fmt) = [] := by
  rw [afterEscape, dropWhile_escape, List.drop_take]
  rfl

theorem escape_escape (fmt : List (BitVec 8)) : escape (escape fmt) = escape fmt := by
  have h := escape_append (escape fmt)
  rwa [afterEscape_escape, List.append_nil] at h

/-- An escape that is not recognised, as a format of its own. -/
theorem vprintfmt_escape {e : List (BitVec 8)} (hzero : ∀ c ∈ e, c ≠ 0#8)
    (h : (e.dropWhile IsFlag).headD 0#8 ∉ conversions) (he : escape e = e) (r : Run) (z : σ) :
    vprintfmt put m args (chr '%' :: e) (r, z) =
      putStr put (chr '%' :: e) ({ r with ap := (reswitch args e .default r.ap).ap }, z) := by
  have hnone : afterEscape e = [] := by
    rw [← he]
    exact afterEscape_escape e
  rw [vprintfmt_unrecognised put m args hzero h, hnone, he, vprintfmt]
  exact congrFun (bind_pure_unit (x := putStr put (chr '%' :: e))) _

/-- **A format is its pieces.** -/
theorem vprintfmt_pieces {fmt : List (BitVec 8)} (hzero : ∀ c ∈ fmt, c ≠ 0#8) :
    vprintfmt put m args fmt = printPieces put m args (pieces fmt) := by
  fun_induction pieces fmt with
  | case1 =>
    rw [vprintfmt]
    rfl
  | case2 fmt ih =>
    have hfmt : ∀ c ∈ fmt, c ≠ 0#8 := fun c hc => hzero c (List.mem_cons_of_mem _ hc)
    have hafter : ∀ c ∈ afterEscape fmt, c ≠ 0#8 := fun c hc => by
      refine hfmt c ?_
      rw [← escape_append fmt]
      exact List.mem_append_right _ hc
    have hescape : ∀ c ∈ escape fmt, c ≠ 0#8 := fun c hc => hfmt c (mem_of_mem_escape hc)
    rw [printPieces, ← ih hafter]
    funext p
    obtain ⟨r, z⟩ := p
    have hread := readsEscape_reswitch args fmt .default r.ap
    have hap : (reswitch args (escape fmt) .default r.ap).ap = (reswitch args fmt .default r.ap).ap := by
      rw [hread.alone]
    rw [bind_apply]
    by_cases hconv : (fmt.dropWhile IsFlag).headD 0#8 ∈ conversions
    · obtain ⟨act, hact⟩ : ∃ act, convert put m args (reswitch args fmt .default r.ap) = some act := by
        refine Option.ne_none_iff_exists'.mp fun hnone => ?_
        rw [convert_eq_none_iff, hread.conv] at hnone
        exact hnone hconv
      have hact' : convert put m args (reswitch args (escape fmt) .default r.ap) = some act := by
        rw [hread.alone]
        exact hact
      have hpiece : vprintfmt put m args (chr '%' :: escape fmt) (r, z) =
          act ({ r with ap := (reswitch args fmt .default r.ap).ap }, z) := by
        rw [vprintfmt_directive, hact', hap, hread.alone, vprintfmt]
        exact congrFun (bind_pure_unit (x := act)) _
      rw [hpiece, vprintfmt_directive, hact, ← hread.rest]
      exact bind_apply _ _ _
    · have hpiece := vprintfmt_escape put m args hescape
        (show ((escape fmt).dropWhile IsFlag).headD 0#8 ∉ conversions by rwa [headD_escape])
        (escape_escape fmt) r z
      rw [hap] at hpiece
      rw [hpiece, vprintfmt_unrecognised put m args hfmt hconv]
      exact bind_apply _ _ _
  | case3 c fmt hc ih =>
    have hc0 : c ≠ 0#8 := hzero c List.mem_cons_self
    rw [printPieces, ← ih fun c' hc' => hzero c' (List.mem_cons_of_mem c hc'), vprintfmt, if_neg hc,
      if_neg hc0, vprintfmt, if_neg hc, if_neg hc0, vprintfmt, bind_assoc, pure_bind]

theorem putStr_run (p : List (BitVec 8)) (r : Run) (z : σ) :
    putStr put p (r, z) = .ok () (r, pour put z (p.map fun c => (c.toNat : ℤ))) := by
  induction p generalizing z with
  | nil => rfl
  | cons c p ih =>
    rw [putStr, bind_apply]
    exact ih (put c.toNat z)

/-- A piece that begins with a `%` is an escape. -/
theorem escape_of_mem_pieces {fmt e : List (BitVec 8)} (h : chr '%' :: e ∈ pieces fmt) :
    escape e = e := by
  fun_induction pieces fmt with
  | case1 => exact absurd h List.not_mem_nil
  | case2 fmt ih =>
    rcases List.mem_cons.mp h with heq | h
    · rw [(List.cons.inj heq).2, escape_escape]
    · exact ih h
  | case3 c fmt hc ih =>
    rcases List.mem_cons.mp h with heq | h
    · exact absurd (List.cons.inj heq).1.symm hc
    · exact ih h

theorem mem_of_mem_pieces {fmt p : List (BitVec 8)} (h : p ∈ pieces fmt) {c : BitVec 8}
    (hc : c ∈ p) : c ∈ fmt := by
  rw [← flatten_pieces fmt]
  exact List.mem_flatten.mpr ⟨p, h, hc⟩

/-- **An escape that is not recognised is printed as it stands.** -/
theorem vprintfmt_of_unrecognised {fmt p : List (BitVec 8)} (hzero : ∀ c ∈ fmt, c ≠ 0#8)
    (hp : p ∈ pieces fmt) (h : Unrecognised p) (r : Run) (z : σ) :
    ∃ ap, vprintfmt put m args p (r, z) =
      .ok () ({ r with ap := ap }, pour put z (p.map fun c => (c.toNat : ℤ))) := by
  obtain ⟨e, rfl, hconv⟩ := h
  have he : ∀ c ∈ e, c ≠ 0#8 := fun c hc =>
    hzero c (mem_of_mem_pieces hp (List.mem_cons_of_mem _ hc))
  refine ⟨(reswitch args e .default r.ap).ap, ?_⟩
  rw [vprintfmt_escape put m args he hconv (escape_of_mem_pieces hp)]
  exact putStr_run put _ _ z

end

end Printfmt
end PmakeOs
