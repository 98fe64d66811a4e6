import PmakeOs.Console.Enough

/-!
# The pointer into the format

`vprintfmt` once more, with `fmt` as the pointer that it is in the source: it moves forward over
the format, and back again in the default case, until it stands behind a `%`.  What lies in
front of the format and behind its terminating zero is arbitrary, and every byte that is read
is recorded.

The pointer stays inside the format, since the `%` that it goes back to is the one that began
the escape: none of the characters it passes on the way is a `%`.  So this is the function
that reads the format as a list.
-/

namespace PmakeOs
namespace Printfmt

open Lib

/-- As `Fmt`, with the places of the format that have been read, latest first. -/
abbrev CursorFmt (σ : Type) := Out Stuck (Run × List ℤ) σ

/-- What a computation leaves, with the places read. -/
def withReads {σ α : Type} (reads : List ℤ) :
    EStateM.Result Stuck (Run × σ) α → EStateM.Result Stuck ((Run × List ℤ) × σ) α
  | .ok a q => .ok a ((q.1, reads), q.2)
  | .error e q => .error e ((q.1, reads), q.2)

/-- A computation that does not read the format. -/
def lift {σ α : Type} (x : Fmt σ α) : CursorFmt σ α := fun p => withReads p.1.2 (x (p.1.1, p.2))

section

variable {σ : Type} (put : ℤ → σ → σ) (m : Word → Option (BitVec 8)) (args : ℕ → Word)
  (text : ℤ → BitVec 8)

/-- `*fmt` -/
def fetch (fmt : ℤ) : CursorFmt σ (BitVec 8) := Out.own fun r => .ok (text fmt) (r.1, fmt :: r.2)

/-- The loop over the digits of a width or a precision, behind its first digit `ch`. -/
def numberAt : ℕ → ℤ → BitVec 8 → Word → CursorFmt σ (Word × ℤ)
  | 0, _, _, _ => lift spin
  | fuel + 1, fmt, ch, precision => do
    let precision := precision * 10#32 + ch.setWidth 32 - 48#32
    let ch ← fetch text fmt
    if chr '0' ≤ ch ∧ ch ≤ chr '9' then numberAt fuel (fmt + 1) ch precision
    else return (precision, fmt)

/-- The label `reswitch`: the flags, the character that ends them, and the pointer behind it. -/
def reswitchAt : ℕ → ℤ → Flags → CursorFmt σ (Flags × BitVec 8 × ℤ)
  | 0, _, _ => lift spin
  | fuel + 1, fmt, fl => do
    let ch ← fetch text fmt
    let fmt := fmt + 1
    if ch = chr '-' then reswitchAt fuel fmt { fl with padc := chr '-' }
    else if ch = chr '0' then reswitchAt fuel fmt { fl with padc := chr '0' }
    else if chr '1' ≤ ch ∧ ch ≤ chr '9' then
      let (precision, fmt) ← numberAt text fuel fmt ch 0#32
      reswitchAt fuel fmt { fl with precision := precision }.processPrecision
    else if ch = chr '*' then
      let w ← lift (vaArg args)
      reswitchAt fuel fmt { fl with precision := w }.processPrecision
    else if ch = chr '.' then reswitchAt fuel fmt fl.dot
    else if ch = chr '#' then reswitchAt fuel fmt { fl with altflag := true }
    else if ch = chr 'l' then reswitchAt fuel fmt { fl with lflag := fl.lflag + 1 }
    else return (fl, ch, fmt)

/-- `for (; fmt[-1] != '%'; fmt--)` -/
def backAt : ℕ → ℤ → CursorFmt σ ℤ
  | 0, _ => lift spin
  | fuel + 1, fmt => do
    let ch ← fetch text (fmt - 1)
    if ch ≠ chr '%' then backAt fuel (fmt - 1)
    else return fmt

/-- `vprintfmt`, from `fmt` on.  The first argument bounds the rounds of its loops. -/
def vprintfmtAt : ℕ → ℤ → CursorFmt σ Unit
  | 0, _ => lift spin
  | fuel + 1, fmt => do
    let ch ← fetch text fmt
    if ch ≠ chr '%' then
      if ch = 0#8 then return ()
      else
        lift (putch put ch.toNat)
        vprintfmtAt fuel (fmt + 1)
    else
      let (fl, ch, fmt) ← reswitchAt args text fuel (fmt + 1) .default
      match convert put m args ⟨fl, ch, [], 0⟩ with
      | some act =>
        lift act
        vprintfmtAt fuel fmt
      | none =>
        lift (putch put (chr '%').toNat)
        let fmt ← backAt text fuel (fmt - 1)
        vprintfmtAt fuel fmt

/-! ## Where the pointer is -/

/-- The format `s`, with its zero, lies at `0` and the following places. -/
def Holds (s : List (BitVec 8)) : Prop := ∀ i : ℕ, i ≤ s.length → text i = s.getD i 0#8

/-- Only the format and its zero have been read. -/
def Inside (s : List (BitVec 8)) (reads : List ℤ) : Prop := ∀ i ∈ reads, 0 ≤ i ∧ i ≤ s.length

end

/-- At `i`, the rest of the format is `fmt`. -/
structure Rest (s : List (BitVec 8)) (i : ℕ) (fmt : List (BitVec 8)) : Prop where
  le : i ≤ s.length
  drop : s.drop i = fmt

section

variable {σ : Type} {put : ℤ → σ → σ} {m : Word → Option (BitVec 8)} {args : ℕ → Word}
  {text : ℤ → BitVec 8} {s fmt : List (BitVec 8)} {i : ℕ} {c : BitVec 8}

theorem Rest.tail (h : Rest s i (c :: fmt)) : Rest s (i + 1) fmt := by
  have hlen := congrArg List.length h.drop
  rw [List.length_drop, List.length_cons] at hlen
  refine ⟨by omega, ?_⟩
  rw [← List.drop_drop, h.drop]
  rfl

theorem Rest.text_cons (h : Rest s i (c :: fmt)) (ht : Holds text s) : text i = c := by
  have hget : (s.drop i).getD 0 0#8 = c := by rw [h.drop]; rfl
  rw [ht i h.le, ← hget, List.getD_eq_getElem?_getD, List.getD_eq_getElem?_getD, List.getElem?_drop,
    Nat.add_zero]

theorem Rest.text_nil (h : Rest s i []) (ht : Holds text s) : text i = 0#8 := by
  have hlen := congrArg List.length h.drop
  rw [List.length_drop, List.length_nil] at hlen
  rw [ht i h.le, List.getD_eq_default _ _ (by omega)]

theorem Inside.cons {reads : List ℤ} (h : Inside s reads) (hi : i ≤ s.length) :
    Inside s ((i : ℤ) :: reads) := by
  intro j hj
  rcases List.mem_cons.mp hj with rfl | hj
  · omega
  · exact h j hj

theorem fetch_run (fmt : ℤ) (r : Run) (reads : List ℤ) (z : σ) :
    fetch text fmt ((r, reads), z) = .ok (text fmt) ((r, fmt :: reads), z) := rfl

/-- The loop over digits reads what `number` reads. -/
theorem numberAt_run (ht : Holds text s) (h : Rest s i fmt) {fuel : ℕ} (hfuel : fmt.length < fuel)
    {ch : BitVec 8} (hch : chr '0' ≤ ch ∧ ch ≤ chr '9') (precision : Word) (r : Run)
    {reads : List ℤ} (hr : Inside s reads) (z : σ) :
    ∃ (j : ℕ) (reads' : List ℤ), numberAt text fuel i ch precision ((r, reads), z) =
        .ok ((number precision (ch :: fmt)).1, (j : ℤ)) ((r, reads'), z) ∧
      Inside s reads' ∧ i ≤ j ∧ Rest s j (number precision (ch :: fmt)).2 ∧
      ∀ k : ℕ, i ≤ k → k < j → text k ≠ chr '%' := by
  induction fmt generalizing i fuel ch precision reads with
  | nil =>
    obtain ⟨n, rfl⟩ : ∃ n, fuel = n + 1 := ⟨fuel - 1, by omega⟩
    rw [numberAt, bind_apply, fetch_run, h.text_nil ht, number, if_pos hch]
    exact ⟨i, _, rfl, hr.cons h.le, le_rfl, h, fun k hk hlt => absurd hlt (by omega)⟩
  | cons c fmt ih =>
    obtain ⟨n, rfl⟩ : ∃ n, fuel = n + 1 := ⟨fuel - 1, by omega⟩
    rw [numberAt, bind_apply, fetch_run, h.text_cons ht, number, if_pos hch]
    dsimp only
    by_cases hc : chr '0' ≤ c ∧ c ≤ chr '9'
    · rw [if_pos hc]
      obtain ⟨j, reads', hrun, hin, hle, hrest, hpct⟩ :=
        ih h.tail (Nat.lt_of_succ_lt_succ hfuel) hc _ (hr.cons h.le)
      refine ⟨j, reads', hrun, hin, by omega, hrest, fun k hk hlt => ?_⟩
      rcases Nat.lt_or_ge i k with hik | hik
      · exact hpct k hik hlt
      · obtain rfl : k = i := by omega
        rw [h.text_cons ht]
        rintro rfl
        exact absurd hc (by decide)
    · rw [if_neg hc, number, if_neg hc]
      exact ⟨i, _, rfl, hr.cons h.le, le_rfl, h, fun k hk hlt => absurd hlt (by omega)⟩

/-- The pointer has gone from `i` to `j` over the flags and the last character of `d`, which
is the zero if the format ends there. -/
structure Passed (text : ℤ → BitVec 8) (s : List (BitVec 8)) (i j : ℕ) (d : Directive) : Prop where
  lt : i < j
  le : j ≤ s.length + 1
  rest : j ≤ s.length → Rest s j d.rest
  conv : text ((j : ℤ) - 1) = d.conv
  flags : ∀ k : ℕ, i ≤ k → k + 1 < j → text k ≠ chr '%'

theorem pred_succ (i : ℕ) : ((i + 1 : ℕ) : ℤ) - 1 = i := by omega

/-- Flags in front. -/
theorem Passed.mono {j i' : ℕ} {d : Directive} (h : Passed text s i' j d) (hi : i ≤ i')
    (hpct : ∀ k : ℕ, i ≤ k → k < i' → text k ≠ chr '%') : Passed text s i j d := by
  have hlt := h.lt
  refine ⟨by omega, h.le, h.rest, h.conv, fun k hk hkj => ?_⟩
  rcases Nat.lt_or_ge k i' with hk' | hk'
  · exact hpct k hk hk'
  · exact h.flags k hk' hkj

/-- One flag in front. -/
theorem Passed.flag {j : ℕ} {d : Directive} (h : Passed text s (i + 1) j d)
    (hc : text i ≠ chr '%') : Passed text s i j d := by
  refine h.mono (Nat.le_succ i) fun k hk hlt => ?_
  obtain rfl : k = i := by omega
  exact hc

variable (args) in
/-- **The pointer reads a directive as `reswitch` does.** -/
theorem reswitchAt_run (ht : Holds text s) (h : Rest s i fmt) {fuel : ℕ} (hfuel : fmt.length < fuel)
    (fl : Flags) (ap : ℕ) (rd : List Loc) {reads : List ℤ} (hr : Inside s reads) (z : σ) :
    ∃ (j : ℕ) (reads' : List ℤ), reswitchAt args text fuel i fl ((⟨ap, rd⟩, reads), z) =
        .ok ((reswitch args fmt fl ap).flags, (reswitch args fmt fl ap).conv, (j : ℤ))
          ((⟨(reswitch args fmt fl ap).ap, rd⟩, reads'), z) ∧
      Inside s reads' ∧ Passed text s i j (reswitch args fmt fl ap) := by
  fun_induction reswitch args fmt fl ap generalizing i fuel reads with
  | case1 fl ap =>
    obtain ⟨n, rfl⟩ : ∃ n, fuel = n + 1 := ⟨fuel - 1, by omega⟩
    rw [reswitchAt, bind_apply, fetch_run, h.text_nil ht]
    refine ⟨i + 1, _, rfl, hr.cons h.le, Nat.lt_succ_self i, Nat.succ_le_succ h.le, fun hj => ?_, ?_,
      fun k hk hlt => absurd hlt (by omega)⟩
    · exact ⟨hj, List.drop_eq_nil_of_le (by
        have hlen := congrArg List.length h.drop
        rw [List.length_drop, List.length_nil] at hlen
        omega)⟩
    · rw [pred_succ]
      exact h.text_nil ht
  | case2 fl ap fmt ih =>
    obtain ⟨n, rfl⟩ : ∃ n, fuel = n + 1 := ⟨fuel - 1, by omega⟩
    have hc := h.text_cons ht
    obtain ⟨j, reads', hrun, hin, hpass⟩ := ih h.tail (Nat.lt_of_succ_lt_succ hfuel) (hr.cons h.le)
    rw [reswitchAt, bind_apply, fetch_run, hc]
    dsimp only
    rw [if_pos rfl]
    exact ⟨j, reads', hrun, hin, hpass.flag (by rw [hc]; decide)⟩
  | case3 fl ap fmt h₁ ih =>
    obtain ⟨n, rfl⟩ : ∃ n, fuel = n + 1 := ⟨fuel - 1, by omega⟩
    have hc := h.text_cons ht
    obtain ⟨j, reads', hrun, hin, hpass⟩ := ih h.tail (Nat.lt_of_succ_lt_succ hfuel) (hr.cons h.le)
    rw [reswitchAt, bind_apply, fetch_run, hc]
    dsimp only
    rw [if_neg h₁, if_pos rfl]
    exact ⟨j, reads', hrun, hin, hpass.flag (by rw [hc]; decide)⟩
  | case4 fl ap c fmt h₁ h₂ h₃ ih =>
    obtain ⟨n, rfl⟩ : ∃ n, fuel = n + 1 := ⟨fuel - 1, by omega⟩
    have hc := h.text_cons ht
    have hdig : chr '0' ≤ c ∧ c ≤ chr '9' := ⟨BitVec.le_trans (by decide) h₃.1, h₃.2⟩
    have hn : fmt.length < n := Nat.lt_of_succ_lt_succ hfuel
    obtain ⟨i', reads₁, hnum, hin₁, hle, hrest, hpct⟩ :=
      numberAt_run ht h.tail hn hdig 0#32 ⟨ap, rd⟩ (hr.cons h.le) z
    have hlen := length_number_cons h₃ 0#32 fmt
    rw [List.length_cons] at hlen
    obtain ⟨j, reads', hrun, hin, hpass⟩ := ih hrest (show (number 0#32 (c :: fmt)).2.length < n by omega) hin₁
    rw [reswitchAt, bind_apply, fetch_run, hc]
    dsimp only
    rw [if_neg h₁, if_neg h₂, if_pos h₃, bind_apply]
    replace hnum : numberAt text n ((i : ℤ) + 1) c 0#32 ((⟨ap, rd⟩, (i : ℤ) :: reads), z) = _ := hnum
    rw [hnum]
    have hpct' : text i ≠ chr '%' := by
      rw [hc]
      rintro rfl
      exact absurd hdig (by decide)
    exact ⟨j, reads', hrun, hin, (hpass.mono hle hpct).flag hpct'⟩
  | case5 fl ap fmt h₁ h₂ h₃ ih =>
    obtain ⟨n, rfl⟩ : ∃ n, fuel = n + 1 := ⟨fuel - 1, by omega⟩
    have hc := h.text_cons ht
    obtain ⟨j, reads', hrun, hin, hpass⟩ := ih h.tail (Nat.lt_of_succ_lt_succ hfuel) (hr.cons h.le)
    rw [reswitchAt, bind_apply, fetch_run, hc]
    dsimp only
    rw [if_neg h₁, if_neg h₂, if_neg h₃, if_pos rfl, bind_apply]
    exact ⟨j, reads', hrun, hin, hpass.flag (by rw [hc]; decide)⟩
  | case6 fl ap fmt h₁ h₂ h₃ h₄ ih =>
    obtain ⟨n, rfl⟩ : ∃ n, fuel = n + 1 := ⟨fuel - 1, by omega⟩
    have hc := h.text_cons ht
    obtain ⟨j, reads', hrun, hin, hpass⟩ := ih h.tail (Nat.lt_of_succ_lt_succ hfuel) (hr.cons h.le)
    rw [reswitchAt, bind_apply, fetch_run, hc]
    dsimp only
    rw [if_neg h₁, if_neg h₂, if_neg h₃, if_neg h₄, if_pos rfl]
    exact ⟨j, reads', hrun, hin, hpass.flag (by rw [hc]; decide)⟩
  | case7 fl ap fmt h₁ h₂ h₃ h₄ h₅ ih =>
    obtain ⟨n, rfl⟩ : ∃ n, fuel = n + 1 := ⟨fuel - 1, by omega⟩
    have hc := h.text_cons ht
    obtain ⟨j, reads', hrun, hin, hpass⟩ := ih h.tail (Nat.lt_of_succ_lt_succ hfuel) (hr.cons h.le)
    rw [reswitchAt, bind_apply, fetch_run, hc]
    dsimp only
    rw [if_neg h₁, if_neg h₂, if_neg h₃, if_neg h₄, if_neg h₅, if_pos rfl]
    exact ⟨j, reads', hrun, hin, hpass.flag (by rw [hc]; decide)⟩
  | case8 fl ap fmt h₁ h₂ h₃ h₄ h₅ h₆ ih =>
    obtain ⟨n, rfl⟩ : ∃ n, fuel = n + 1 := ⟨fuel - 1, by omega⟩
    have hc := h.text_cons ht
    obtain ⟨j, reads', hrun, hin, hpass⟩ := ih h.tail (Nat.lt_of_succ_lt_succ hfuel) (hr.cons h.le)
    rw [reswitchAt, bind_apply, fetch_run, hc]
    dsimp only
    rw [if_neg h₁, if_neg h₂, if_neg h₃, if_neg h₄, if_neg h₅, if_neg h₆, if_pos rfl]
    exact ⟨j, reads', hrun, hin, hpass.flag (by rw [hc]; decide)⟩
  | case9 fl ap c fmt h₁ h₂ h₃ h₄ h₅ h₆ h₇ =>
    obtain ⟨n, rfl⟩ : ∃ n, fuel = n + 1 := ⟨fuel - 1, by omega⟩
    have hc := h.text_cons ht
    rw [reswitchAt, bind_apply, fetch_run, hc]
    dsimp only
    rw [if_neg h₁, if_neg h₂, if_neg h₃, if_neg h₄, if_neg h₅, if_neg h₆, if_neg h₇]
    refine ⟨i + 1, _, rfl, hr.cons h.le, Nat.lt_succ_self i, Nat.succ_le_succ h.le, fun _ => h.tail, ?_,
      fun k hk hlt => absurd hlt (by omega)⟩
    rw [pred_succ]
    exact hc

/-- **The loop back ends behind the `%`** that began the escape. -/
theorem backAt_run (hpct : text ((i : ℤ) - 1) = chr '%') (hi : 0 < i) {j fuel : ℕ} (hij : i ≤ j)
    (hj : j ≤ s.length) (hflags : ∀ k : ℕ, i ≤ k → k < j → text k ≠ chr '%') (hfuel : j - i < fuel)
    (r : Run) {reads : List ℤ} (hr : Inside s reads) (z : σ) :
    ∃ reads', backAt text fuel j ((r, reads), z) = .ok (i : ℤ) ((r, reads'), z) ∧
      Inside s reads' := by
  induction j generalizing fuel reads with
  | zero => exact absurd hij (by omega)
  | succ j ih =>
    obtain ⟨n, rfl⟩ : ∃ n, fuel = n + 1 := ⟨fuel - 1, by omega⟩
    rw [backAt, bind_apply, fetch_run]
    dsimp only
    rw [pred_succ]
    rcases Nat.lt_or_ge j i with hlt | hge
    · obtain rfl : i = j + 1 := by omega
      rw [pred_succ] at hpct
      rw [if_neg (not_not.mpr hpct)]
      exact ⟨_, rfl, hr.cons (by omega)⟩
    · rw [if_pos (hflags j hge (Nat.lt_succ_self j))]
      exact ih hge (by omega) (fun k hk hlt => hflags k hk (by omega)) (by omega) (hr.cons (by omega))

theorem lift_run {α : Type} (x : Fmt σ α) (r : Run) (reads : List ℤ) (z : σ) :
    lift x ((r, reads), z) = withReads reads (x (r, z)) := rfl

theorem zero_not_mem_conversions : 0#8 ∉ conversions := by decide

variable (put m args) in
/-- **The function with the pointer is the one on lists**, and it reads nothing but the format
and its zero. -/
theorem vprintfmtAt_run (ht : Holds text s) (h : Rest s i fmt) {fuel : ℕ} (hfuel : fmt.length < fuel)
    (r : Run) {reads : List ℤ} (hr : Inside s reads) (z : σ) :
    ∃ reads', vprintfmtAt put m args text fuel i ((r, reads), z) =
        withReads reads' (vprintfmt put m args fmt (r, z)) ∧ Inside s reads' := by
  induction hn : fmt.length using Nat.strong_induction_on generalizing fmt i fuel r reads z with
  | _ len ih =>
    subst hn
    obtain ⟨n, rfl⟩ : ∃ n, fuel = n + 1 := ⟨fuel - 1, by omega⟩
    cases fmt with
    | nil =>
      rw [vprintfmtAt, bind_apply, fetch_run, h.text_nil ht]
      dsimp only
      rw [if_pos (by decide), if_pos rfl, vprintfmt]
      exact ⟨_, rfl, hr.cons h.le⟩
    | cons c fmt =>
      have hn : fmt.length < n := Nat.lt_of_succ_lt_succ hfuel
      have hc := h.text_cons ht
      rw [vprintfmtAt, bind_apply, fetch_run, hc]
      dsimp only
      by_cases hpct : c = chr '%'
      · subst hpct
        rw [if_neg (not_not.mpr rfl), vprintfmt_directive]
        obtain ⟨j, reads₁, hrun, hin, hpass⟩ :=
          reswitchAt_run args ht h.tail hn .default r.ap r.reads (hr.cons h.le) z
        have hlen := length_reswitch args fmt .default r.ap
        have hsize := congrArg List.length h.tail.drop
        rw [List.length_drop] at hsize
        replace hrun : reswitchAt args text n ((i : ℤ) + 1) .default ((r, (i : ℤ) :: reads), z) = _ :=
          hrun
        rw [bind_apply, hrun]
        generalize reswitch args fmt .default r.ap = d at hpass hlen ⊢
        have hconv : convert put m args ⟨d.flags, d.conv, [], 0⟩ = convert put m args d := rfl
        dsimp only
        rw [hconv]
        cases hact : convert put m args d with
        | some act =>
          -- the conversion is not the zero, so the pointer is not behind it
          have hj : j ≤ s.length := by
            by_contra hj
            have hend : j = s.length + 1 := by
              have := hpass.le
              omega
            have hzero := hpass.conv
            rw [hend, pred_succ, ht s.length le_rfl, List.getD_eq_default _ _ le_rfl] at hzero
            have hne : convert put m args d ≠ none := by
              rw [hact]
              exact Option.some_ne_none act
            rw [ne_eq, convert_eq_none_iff, ← hzero] at hne
            exact hne zero_not_mem_conversions
          dsimp only
          rw [bind_apply, lift_run, bind_apply]
          cases act (⟨d.ap, r.reads⟩, z) with
          | ok a q => exact ih _ (Nat.lt_succ_of_le hlen) (hpass.rest hj) (by omega) q.1 hin q.2 rfl
          | error e q => exact ⟨reads₁, rfl, hin⟩
        | none =>
          obtain ⟨j, rfl⟩ : ∃ k, j = k + 1 := ⟨j - 1, by have := hpass.lt; omega⟩
          have hlt := hpass.lt
          have hle := hpass.le
          have hown : text (((i + 1 : ℕ) : ℤ) - 1) = chr '%' := by
            rw [pred_succ]
            exact hc
          dsimp only
          rw [bind_apply, lift_run, bind_apply]
          obtain ⟨reads₂, hback, hin₂⟩ := backAt_run (z := put (chr '%').toNat z) hown
            (Nat.succ_pos i) (show i + 1 ≤ j by omega) (show j ≤ s.length by omega)
            (fun k hk hkj => hpass.flags k hk (by omega)) (show j - (i + 1) < n by omega)
            ⟨d.ap, r.reads⟩ hin
          rw [pred_succ]
          show ∃ reads', (backAt text n j >>= fun fmt => vprintfmtAt put m args text n fmt) _ = _ ∧ _
          rw [bind_apply]
          replace hback : backAt text n j ((⟨d.ap, r.reads⟩, reads₁), put (chr '%').toNat z) = _ := hback
          rw [hback]
          exact ih _ (Nat.lt_succ_self _) h.tail hn ⟨d.ap, r.reads⟩ hin₂ _ rfl
      · rw [if_pos hpct]
        by_cases hzero : c = 0#8
        · rw [if_pos hzero, vprintfmt, if_neg hpct, if_pos hzero]
          exact ⟨_, rfl, hr.cons h.le⟩
        · rw [if_neg hzero, vprintfmt, if_neg hpct, if_neg hzero, bind_apply, bind_apply]
          exact ih _ (Nat.lt_succ_self _) h.tail hn r (hr.cons h.le) _ rfl

/-! ## The whole format -/

/-- **`vprintfmt` on every format.**  The function with the pointer ends, its loops going round
no more often than the format is long, and reads only the format and its zero; with enough
arguments it returns.  What it does, it does piece by piece, and an escape that is not
recognised is printed as it stands. -/
theorem vprintfmtAt_ends (put : ℤ → σ → σ) (m : Word → Option (BitVec 8)) (args : ℕ → Word)
    (hs : ∀ c ∈ s, c ≠ 0#8) (ht : Holds text s) (r : Run) (z : σ) :
    (∀ fuel, s.length < fuel → ∃ reads, Inside s reads ∧
      vprintfmtAt put m args text fuel 0 ((r, []), z) =
        withReads reads (printPieces put m args (pieces s) (r, z))) ∧
    (Enough m args s r.ap → ∃ q, printPieces put m args (pieces s) (r, z) = .ok () q) ∧
    (pieces s).flatten = s ∧
    ∀ p ∈ pieces s, Unrecognised p → ∀ (r : Run) (z : σ), ∃ ap,
      vprintfmt put m args p (r, z) =
        .ok () ({ r with ap := ap }, pour put z (p.map fun c => (c.toNat : ℤ))) := by
  refine ⟨fun fuel hfuel => ?_, fun henough => ?_, flatten_pieces s, fun p hp h r z => ?_⟩
  · have hstart : Rest s 0 s := ⟨Nat.zero_le _, List.drop_zero⟩
    obtain ⟨reads, hrun, hin⟩ := vprintfmtAt_run put m args ht hstart hfuel r
      (fun i hi => absurd hi List.not_mem_nil) z
    rw [← vprintfmt_pieces put m args hs]
    exact ⟨reads, hin, hrun⟩
  · obtain ⟨q, hq⟩ := vprintfmt_returns hs henough []
    have hrun : vprintfmt put m args s (r, pour put z []) = _ := (follows_vprintfmt s).run r []
    rw [hq] at hrun
    rw [← vprintfmt_pieces put m args hs]
    exact ⟨_, hrun⟩
  · exact vprintfmt_of_unrecognised put m args hs hp h r z

end

theorem pieces_minus : pieces [chr '%', chr '-'] = [[chr '%', chr '-']] := by
  rw [pieces, if_pos rfl, show afterEscape [chr '-'] = [] from rfl, pieces]
  rfl

/-- The format `%-`, whose one escape ends at the zero, with a `%` in front of it and behind it. -/
theorem vprintfmtAt_ends_minus : ∃ ap reads, Inside [chr '%', chr '-'] reads ∧
    vprintfmtAt List.cons (fun _ => none) (fun _ => 0#32)
      (fun i => if i = 1 then chr '-' else if i = 2 then 0#8 else chr '%') 3 0 ((⟨0, []⟩, []), []) =
      .ok () ((⟨ap, []⟩, reads), [45, 37]) := by
  have hholds : Holds (fun i => if i = 1 then chr '-' else if i = 2 then 0#8 else chr '%')
      [chr '%', chr '-'] := by
    intro i hi
    have hi : i ≤ 2 := hi
    obtain rfl | rfl | rfl : i = 0 ∨ i = 1 ∨ i = 2 := by omega
    all_goals rfl
  obtain ⟨hends, -, -, hplain⟩ := vprintfmtAt_ends List.cons (fun _ => none) (fun _ => 0#32)
    (by simp [chr]) hholds ⟨0, []⟩ []
  obtain ⟨reads, hin, hrun⟩ := hends 3 (by decide)
  rw [pieces_minus] at hrun hplain
  obtain ⟨ap, hput⟩ := hplain _ (List.mem_singleton_self _) ⟨_, rfl, by decide⟩ ⟨0, []⟩ []
  refine ⟨ap, reads, hin, ?_⟩
  rw [hrun, printPieces, bind_apply, hput]
  rfl

end Printfmt
end PmakeOs
