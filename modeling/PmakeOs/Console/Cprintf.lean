import PmakeOs.Console.Printfmt
import Mathlib.Tactic.ByContra

/-!
# `kern/printf.c` and `lib/printf.c`: two consoles

The kernel's `vcprintf` hands each character to `cputchar`.  The user library's collects
them in a buffer of which it passes at most 255 bytes at a time to `sys_cputs`.  Both give
`vprintfmt` a `putch` of their own, so both see exactly what it emits (`follows_vprintfmt`),
and the buffer only delays it (`Buffered`).

They differ in what they return.  The library counts in its buffer; the kernel's `putch`
is meant to count through a pointer, but `*cnt++` moves the pointer and leaves the count at
zero.
-/

namespace PmakeOs
namespace Printfmt

open Lib

section

variable {σ : Type} {put : ℤ → σ → σ} {s₀ : σ} {m : Word → Option (BitVec 8)} {args : ℕ → Word}

/-! ## Every sink sees the same characters -/

theorem follows_putTimes (ch : ℤ) (n : ℕ) :
    Follows put s₀ (putTimes snoc ch n) (putTimes put ch n) := by
  induction n with
  | zero => exact .pure ()
  | succ n ih => exact .bind (.put ch) fun _ => ih

theorem follows_putStr (s : List (BitVec 8)) : Follows put s₀ (putStr snoc s) (putStr put s) := by
  induction s with
  | nil => exact .pure ()
  | cons ch s ih => exact .bind (.put _) fun _ => ih

theorem follows_printnum (num : ℕ) (base : Base) (width : Word) (padc : BitVec 8) :
    Follows put s₀ (printnum snoc num base width padc) (printnum put num base width padc) := by
  induction num using Nat.strong_induction_on generalizing width with
  | _ num ih =>
    rw [printnum_eq snoc, printnum_eq put]
    refine .bind ?_ fun _ => .put _
    split
    · rename_i hle
      have hone := base.one_lt
      exact ih _ (Nat.div_lt_self (by omega) hone) _
    · exact follows_putTimes _ _

theorem follows_getuint (lflag : ℕ) :
    Follows put s₀ (getuint args lflag) (getuint args lflag) := by
  unfold getuint
  exact .ite (.bind (.own _) fun _ => .bind (.own _) fun _ => .pure _)
    (.bind (.own _) fun _ => .pure _)

theorem follows_getint (lflag : ℕ) : Follows put s₀ (getint args lflag) (getint args lflag) := by
  unfold getint
  exact .ite (.bind (.own _) fun _ => .bind (.own _) fun _ => .pure _)
    (.bind (.own _) fun _ => .pure _)

theorem follows_printSigned (num : ℤ) (fl : Flags) :
    Follows put s₀ (printSigned snoc num fl) (printSigned put num fl) := by
  unfold printSigned
  exact .ite (.bind (.put _) fun _ => follows_printnum ..) (follows_printnum ..)

theorem follows_strnlen (size : ℕ) (s : Loc) (n : Word) :
    Follows put s₀ (strnlen m size s n) (strnlen m size s n) := by
  induction size generalizing s n with
  | zero => exact .pure n
  | succ size ih => exact .bind (.own _) fun ch => .ite (.pure n) (ih _ _)

theorem follows_putOne (altflag : Bool) (ch : BitVec 8) :
    Follows put s₀ (putOne snoc altflag ch) (putOne put altflag ch) :=
  .ite (.put _) (.put _)

theorem follows_strLoop (altflag : Bool) (fuel : ℕ) (p : Loc) (precision width : Word) :
    Follows put s₀ (strLoop snoc m altflag fuel p precision width)
      (strLoop put m altflag fuel p precision width) := by
  induction fuel generalizing p precision width with
  | zero =>
    rw [strLoop, strLoop]
    exact .own _
  | succ fuel ih =>
    rw [strLoop, strLoop]
    refine .bind (.own _) fun ch => .ite (.pure width) (.ite ?_ (.ite ?_ (.pure width)))
    · exact .bind (follows_putOne altflag ch) fun _ => ih _ _ _
    · exact .bind (follows_putOne altflag ch) fun _ => ih _ _ _

theorem follows_padLeft (p : Loc) (fl : Flags) :
    Follows put s₀ (padLeft snoc m p fl) (padLeft put m p fl) := by
  unfold padLeft
  exact .ite (.bind (follows_strnlen ..) fun _ => .bind (follows_putTimes ..) fun _ => .pure _)
    (.pure _)

theorem follows_printString (p : Loc) (fl : Flags) :
    Follows put s₀ (printString snoc m p fl) (printString put m p fl) := by
  unfold printString
  exact .bind (follows_padLeft p fl) fun _ => .bind (follows_strLoop ..) fun _ =>
    follows_putTimes ..

theorem follows_printError (err : Word) :
    Follows put s₀ (printError snoc m err) (printError put m err) := by
  unfold printError
  dsimp only
  split
  · exact .bind (follows_putStr _) fun _ => follows_printSigned ..
  · exact follows_printString ..

theorem rel_ite {α β : Type} {R : α → β → Prop} {c : Prop} [Decidable c] {x x' : Option α}
    {y y' : Option β} (h : Option.Rel R x y) (h' : Option.Rel R x' y') :
    Option.Rel R (if c then x else x') (if c then y else y') := by
  split
  · exact h
  · exact h'

/-- The switch takes the same branch. -/
theorem follows_convert (d : Directive) :
    Option.Rel (Follows put s₀) (convert snoc m args d) (convert put m args d) := by
  unfold convert
  refine rel_ite (.some ?_) <| rel_ite (.some ?_) <| rel_ite (.some ?_) <| rel_ite (.some ?_) <|
    rel_ite (.some ?_) <| rel_ite (.some ?_) <| rel_ite (.some ?_) <| rel_ite (.some ?_) <|
    rel_ite (.some (.put _)) .none
  · exact .bind (.own _) fun _ => .put _
  · exact .bind (.own _) fun _ => follows_printError _
  · exact .bind (.own _) fun _ => follows_printString ..
  · exact .bind (follows_getint _) fun _ => follows_printSigned ..
  · exact .bind (follows_getuint _) fun _ => follows_printnum ..
  · exact .bind (follows_getuint _) fun _ => follows_printnum ..
  · exact .bind (.put _) fun _ => .bind (.put _) fun _ => .bind (.own _) fun _ =>
      follows_printnum ..
  · exact .bind (follows_getuint _) fun _ => follows_printnum ..

/-- **`vprintfmt` does with any sink what it does with a list.** -/
theorem follows_vprintfmt (fmt : List (BitVec 8)) :
    Follows put s₀ (vprintfmt snoc m args fmt) (vprintfmt put m args fmt) := by
  induction h : fmt.length using Nat.strong_induction_on generalizing fmt with
  | _ n ih =>
    subst h
    cases fmt with
    | nil =>
      rw [vprintfmt, vprintfmt]
      exact .pure ()
    | cons ch fmt =>
      rw [vprintfmt, vprintfmt]
      refine .ite (.bind (.own _) fun ap => .bind (.own _) fun _ => ?_)
        (.ite (.pure ()) (.bind (.put _) fun _ => ih _ (Nat.lt_succ_self _) _ rfl))
      have hconv : Option.Rel (Follows put s₀) (convert snoc m args (reswitch args fmt .default ap))
        (convert put m args (reswitch args fmt .default ap)) := follows_convert _
      have hrest := Nat.lt_succ_of_le (length_reswitch args fmt .default ap)
      generalize reswitch args fmt .default ap = d at hconv hrest ⊢
      generalize convert snoc m args d = x at hconv ⊢
      generalize convert put m args d = y at hconv ⊢
      cases hconv with
      | some hxy => exact .bind hxy fun _ => ih _ hrest _ rfl
      | none => exact .bind (.put _) fun _ => ih _ (Nat.lt_succ_self _) _ rfl

end

/-! ## Formats that print nothing -/

section

variable {m : Word → Option (BitVec 8)} {args : ℕ → Word}

/-- `%s` with pointer `w` prints nothing: the width asks for no padding, and the string is
empty or the precision is zero. -/
def QuietString (m : Word → Option (BitVec 8)) (w : Word) (fl : Flags) : Prop :=
  fl.width.toInt ≤ 0 ∧ (fl.precision = 0#32 ∨ w ≠ 0#32 ∧ m w = some 0#8)

/-- The format consists of nothing but such directives. -/
def Silent (m : Word → Option (BitVec 8)) (args : ℕ → Word) (fmt : List (BitVec 8)) (ap : ℕ) :
    Prop :=
  match fmt with
  | [] => True
  | ch :: fmt =>
    if ch = chr '%' then
      (reswitch args fmt .default ap).conv = chr 's' ∧
        QuietString m (args (reswitch args fmt .default ap).ap)
          (reswitch args fmt .default ap).flags ∧
        Silent m args (reswitch args fmt .default ap).rest ((reswitch args fmt .default ap).ap + 1)
    else ch = 0#8
termination_by fmt.length
decreasing_by exact Nat.lt_succ_of_le (length_reswitch args fmt .default ap)

theorem grows_putTimes (ch : ℤ) (n : ℕ) : Grows (putTimes snoc ch n) :=
  Follows.grows fun _ => follows_putTimes ch n

theorem loud_putTimes (ch : ℤ) {n : ℕ} (hn : 0 < n) : Loud (putTimes snoc ch n) := by
  obtain ⟨k, rfl⟩ := Nat.exists_eq_add_of_lt hn
  rw [Nat.zero_add, putTimes]
  exact .bind (Follows.grows fun _ => .put ch) (.put ch) fun _ => grows_putTimes ch k

theorem loud_printnum (num : ℕ) (base : Base) (width : Word) (padc : BitVec 8) :
    Loud (printnum snoc num base width padc) := by
  rw [printnum_eq]
  refine .bind_right ?_ (fun _ => Follows.grows fun _ => .put _) fun _ => .put _
  split
  · exact Follows.grows fun _ => follows_printnum ..
  · exact grows_putTimes _ _

theorem loud_printSigned (num : ℤ) (fl : Flags) : Loud (printSigned snoc num fl) := by
  unfold printSigned
  split
  · exact .bind_right (Follows.grows fun _ => .put _)
      (fun _ => Follows.grows fun _ => follows_printnum ..) fun _ => loud_printnum ..
  · exact loud_printnum ..

theorem loud_putOne (altflag : Bool) (ch : BitVec 8) : Loud (putOne snoc altflag ch) := by
  unfold putOne
  split
  · exact .put _
  · exact .put _

/-- A directive whose number comes from the arguments. -/
theorem loud_number {num : Fmt (List ℤ) ℕ} (hg : Grows num) (base : Base) (fl : Flags) :
    Loud (num >>= fun n => printnum snoc n base fl.width fl.padc) :=
  .bind_right hg (fun _ => Follows.grows fun _ => follows_printnum ..) fun _ => loud_printnum ..

/-- The loop over a string puts nothing exactly when it stops at once. -/
theorem strLoop_quiet {altflag : Bool} {fuel : ℕ} {p : Loc} {precision width w : Word} {r : Run}
    {l : List ℤ} {q : Run × List ℤ}
    (h : strLoop snoc m altflag (fuel + 1) p precision width (r, l) = .ok w q) :
    (q.2 = l ↔ p.read m = some 0#8 ∨ precision = 0#32) ∧ (q.2 = l → w = width) := by
  have hloud : ∀ (ch : BitVec 8) (precision width : Word), Loud (putOne snoc altflag ch >>= fun _ =>
      strLoop snoc m altflag fuel p.next precision width) := fun ch precision width =>
    .bind (Follows.grows fun _ => follows_putOne altflag ch) (loud_putOne altflag ch) fun _ =>
      Follows.grows fun _ => follows_strLoop ..
  rw [strLoop, bind_apply] at h
  unfold peek Out.own at h
  cases hread : p.read m with
  | none =>
    simp only [hread] at h
    cases h
  | some ch =>
    simp only [hread] at h
    rcases eq_or_ne ch 0#8 with rfl | hch
    · rw [if_pos rfl] at h
      obtain ⟨rfl, rfl⟩ := EStateM.Result.ok.inj h
      exact ⟨iff_of_true rfl (Or.inl rfl), fun _ => rfl⟩
    rw [if_neg hch] at h
    have hne : ¬ some ch = some 0#8 := fun hs => hch (Option.some.inj hs)
    by_cases hneg : precision.toInt < 0
    · rw [if_pos hneg] at h
      have hq := (hloud ch _ _).run _ _ _ _ h
      have hp0 : precision ≠ 0#32 := by
        rintro rfl
        exact absurd hneg (by decide)
      exact ⟨iff_of_false hq (not_or.mpr ⟨hne, hp0⟩), fun hq' => absurd hq' hq⟩
    rw [if_neg hneg] at h
    by_cases hpos : 0 ≤ (precision - 1#32).toInt
    · rw [if_pos hpos] at h
      have hq := (hloud ch _ _).run _ _ _ _ h
      have hp0 : precision ≠ 0#32 := by
        rintro rfl
        exact absurd hpos (by decide)
      exact ⟨iff_of_false hq (not_or.mpr ⟨hne, hp0⟩), fun hq' => absurd hq' hq⟩
    · rw [if_neg hpos] at h
      obtain ⟨rfl, rfl⟩ := EStateM.Result.ok.inj h
      refine ⟨iff_of_true rfl (Or.inr ?_), fun _ => rfl⟩
      rw [BitVec.toInt_sub] at hpos
      rw [← BitVec.toInt_inj]
      have hlt := precision.toInt_lt
      rw [Int.bmod_eq_of_le (by simp; omega) (by simp; omega)] at hpos
      simp at hpos ⊢
      omega

/-- A string that is empty, or is cut to nothing, has length zero. -/
theorem strnlen_quiet {size : ℕ} {p : Loc} {w : Word} {r : Run} {l : List ℤ} {q : Run × List ℤ}
    (hquiet : p.read m = some 0#8 ∨ size = 0)
    (h : strnlen m size p 0#32 (r, l) = .ok w q) : w = 0#32 := by
  cases size with
  | zero => exact (EStateM.Result.ok.inj h).1.symm
  | succ size =>
    have hread := hquiet.resolve_right (Nat.succ_ne_zero size)
    rw [strnlen, bind_apply] at h
    unfold peek Out.own at h
    simp only [hread] at h
    exact (EStateM.Result.ok.inj h).1.symm

theorem grows_padLeft (p : Loc) (fl : Flags) : Grows (padLeft snoc m p fl) :=
  Follows.grows fun _ => follows_padLeft p fl

/-- With a width, and nothing to print, either the padding is on the left or the whole width
is left for the right. -/
theorem padLeft_quiet {p : Loc} {fl : Flags} {w : Word} {r : Run} {l : List ℤ} {q : Run × List ℤ}
    (hw : 0 < fl.width.toInt) (hquiet : p.read m = some 0#8 ∨ fl.precision = 0#32)
    (h : padLeft snoc m p fl (r, l) = .ok w q) : q.2 ≠ l ∨ w = fl.width := by
  by_cases hpad : fl.padc = chr '-'
  · refine Or.inr ?_
    unfold padLeft at h
    rw [if_neg fun hc => hc.2 hpad] at h
    exact (EStateM.Result.ok.inj h).1.symm
  refine Or.inl ?_
  unfold padLeft at h
  rw [if_pos ⟨hw, hpad⟩] at h
  obtain ⟨n, q₁, hn, h⟩ := bind_eq_ok h
  obtain rfl : n = 0#32 := strnlen_quiet (hquiet.imp_right fun hp => by rw [hp]; rfl) hn
  have hl := (Follows.grows fun _ => follows_strnlen (m := m) fl.precision.toNat p 0#32).run
    r l _ q₁ hn
  rw [BitVec.sub_zero] at h
  obtain ⟨u, q₂, hput, h⟩ := bind_eq_ok h
  have hloud := (loud_putTimes fl.padc.toNat (show 0 < fl.width.toInt.toNat by omega)).run
    q₁.1 q₁.2 u q₂ hput
  have hgrow := (grows_putTimes fl.padc.toNat fl.width.toInt.toNat).run q₁.1 q₁.2 u q₂ hput
  obtain ⟨-, rfl⟩ := EStateM.Result.ok.inj h
  intro heq
  rw [heq] at hgrow hloud
  exact hloud (hl.eq_of_length (Nat.le_antisymm hl.length_le hgrow.length_le))

/-- **A string prints nothing exactly when it has no width and is empty or cut to nothing.** -/
theorem printString_quiet {p : Loc} {fl : Flags} {r : Run} {l : List ℤ} {q : Run × List ℤ}
    (h : printString snoc m p fl (r, l) = .ok () q) :
    q.2 = l ↔ fl.width.toInt ≤ 0 ∧ (p.read m = some 0#8 ∨ fl.precision = 0#32) := by
  unfold printString at h
  obtain ⟨w₁, q₁, hpad, h'⟩ := bind_eq_ok h
  obtain ⟨w₂, q₂, hloop, hput⟩ := bind_eq_ok h'
  clear h h'
  have h₁ := (grows_padLeft p fl).run r l w₁ q₁ hpad
  have h₂ := (Follows.grows fun _ => follows_strLoop (m := m) fl.altflag (2 ^ 32) p
    fl.precision w₁).run q₁.1 q₁.2 w₂ q₂ hloop
  have h₃ := (grows_putTimes (chr ' ').toNat w₂.toInt.toNat).run q₂.1 q₂.2 () q hput
  replace hloop : strLoop snoc m fl.altflag (2 ^ 32 - 1 + 1) p fl.precision w₁ (q₁.1, q₁.2) =
    .ok w₂ q₂ := hloop
  obtain ⟨hquiet, hleft⟩ := strLoop_quiet hloop
  constructor
  · intro hq
    rw [hq] at h₃
    -- Nothing was put at the end, so nothing was put in between.
    have e₂ : q₂.2 = l := h₃.eq_of_length
      (Nat.le_antisymm h₃.length_le (h₁.length_le.trans h₂.length_le))
    rw [e₂] at h₂
    have e₁ : q₁.2 = l := h₂.eq_of_length (Nat.le_antisymm h₂.length_le h₁.length_le)
    have hstop := hquiet.mp (e₂.trans e₁.symm)
    refine ⟨?_, hstop⟩
    by_contra hw
    have hw₂ : w₂ = fl.width := by
      rw [hleft (e₂.trans e₁.symm)]
      exact (padLeft_quiet (by omega) hstop hpad).resolve_left fun hne => hne e₁
    refine (loud_putTimes (chr ' ').toNat (show 0 < w₂.toInt.toNat by rw [hw₂]; omega)).run
      q₂.1 q₂.2 () q hput ?_
    rw [hq, e₂]
  · rintro ⟨hw, hstop⟩
    rw [padLeft_of_width _ _ _ hw] at hpad
    obtain ⟨rfl, rfl⟩ := EStateM.Result.ok.inj hpad
    have e₂ := hquiet.mpr hstop
    rw [hleft e₂, show fl.width.toInt.toNat = 0 by omega] at hput
    obtain ⟨-, rfl⟩ := EStateM.Result.ok.inj hput
    exact e₂

/-- Every message has a first character. -/
theorem errorString_head {err : Word} {p : List (BitVec 8)} (h : errorString err = some p) :
    p.getD 0 0#8 ≠ 0#8 := by
  have hall : ∀ o ∈ errorStrings, ∀ p, o = some p → p.getD 0 0#8 ≠ 0#8 := by
    decide
  unfold errorString at h
  split at h
  · cases h
  · rw [List.getD_eq_getElem?_getD] at h
    cases hi : errorStrings[err.toNat % 2 ^ 30]? with
    | none =>
      rw [hi] at h
      cases h
    | some o =>
      rw [hi] at h
      exact hall o (List.mem_of_getElem? hi) p h

theorem loud_printError (err : Word) : Loud (printError snoc m err) := by
  unfold printError
  dsimp only
  split
  · exact .bind_right (Follows.grows fun _ => follows_putStr _)
      (fun _ => Follows.grows fun _ => follows_printSigned ..) fun _ => loud_printSigned ..
  · rename_i p hp
    refine ⟨fun r l a q h hq => ?_⟩
    rcases ((printString_quiet h).mp hq).2 with hread | hprec
    · exact errorString_head hp (Option.some.inj hread)
    · exact absurd hprec (by decide)

theorem grows_getuint (lflag : ℕ) : Grows (getuint args lflag : Fmt (List ℤ) ℕ) :=
  Follows.grows fun _ => follows_getuint lflag

/-- Every directive but `%s` prints something. -/
theorem loud_convert {d : Directive} (hd : d.conv ≠ chr 's') {act : Fmt (List ℤ) Unit}
    (h : convert snoc m args d = some act) : Loud act := by
  unfold convert at h
  rw [if_neg hd] at h
  have hown {α : Type} (f : Run → EStateM.Result Stuck Run α) :
      Grows (Out.own f : Fmt (List ℤ) α) := Follows.grows fun _ => .own f
  have hput (c : ℤ) : Grows (putch snoc c : Fmt (List ℤ) Unit) := Follows.grows fun _ => .put c
  have hnum (n : ℕ) (b : Base) : Grows (printnum snoc n b d.flags.width d.flags.padc) :=
    Follows.grows fun _ => follows_printnum ..
  split at h
  · obtain rfl := Option.some.inj h
    exact .bind_right (hown _) (fun _ => hput _) fun _ => .put _
  split at h
  · obtain rfl := Option.some.inj h
    exact .bind_right (hown _) (fun _ => Follows.grows fun _ => follows_printError _) fun _ =>
      loud_printError _
  split at h
  · obtain rfl := Option.some.inj h
    exact .bind_right (Follows.grows fun _ => follows_getint _)
      (fun _ => Follows.grows fun _ => follows_printSigned ..) fun _ => loud_printSigned ..
  split at h
  · obtain rfl := Option.some.inj h
    exact loud_number (grows_getuint _) .dec d.flags
  split at h
  · obtain rfl := Option.some.inj h
    exact loud_number (grows_getuint _) .oct d.flags
  split at h
  · obtain rfl := Option.some.inj h
    refine .bind (hput _) (.put _) fun _ => Follows.grows fun _ => ?_
    exact .bind (.put _) fun _ => .bind (.own _) fun _ => follows_printnum ..
  split at h
  · obtain rfl := Option.some.inj h
    exact loud_number (grows_getuint _) .hex d.flags
  split at h
  · obtain rfl := Option.some.inj h
    exact .put _
  · cases h

theorem grows_convert {d : Directive} {act : Fmt (List ℤ) Unit}
    (h : convert snoc m args d = some act) : Grows act := by
  refine Follows.grows fun l₀ => ?_
  have hrel : Option.Rel (Follows snoc l₀) (convert snoc m args d) (convert snoc m args d) :=
    follows_convert d
  rw [h] at hrel
  cases hrel with
  | some hxy => exact hxy

/-- The string of a `%s` is empty only if it is one in memory. -/
theorem quietString_iff (w : Word) (fl : Flags) :
    (fl.width.toInt ≤ 0 ∧
      ((if w = 0#32 then Loc.lit (str "(null)") 0 else .mem w).read m = some 0#8 ∨
        fl.precision = 0#32)) ↔ QuietString m w fl := by
  unfold QuietString
  rcases eq_or_ne w 0#32 with rfl | hw
  · have hnull : (Loc.lit (str "(null)") 0).read m ≠ some 0#8 := by
      show some ((str "(null)").getD 0 0#8) ≠ some 0#8
      decide
    rw [if_pos rfl]
    tauto
  · rw [if_neg hw]
    show (_ ∧ (m w = some 0#8 ∨ _)) ↔ _
    tauto

theorem keeps_peek (p : Loc) : Keeps Run.ap (peek m p : Fmt (List ℤ) (BitVec 8)) := by
  refine .own fun r a r' h => ?_
  split at h
  · obtain ⟨-, rfl⟩ := EStateM.Result.ok.inj h
    rfl
  · cases h

theorem keeps_putTimes (ch : ℤ) (n : ℕ) : Keeps Run.ap (putTimes snoc ch n) := by
  induction n with
  | zero => exact .pure ()
  | succ n ih => exact .bind (.put ch) fun _ => ih

theorem keeps_strnlen (size : ℕ) (s : Loc) (n : Word) :
    Keeps Run.ap (strnlen m size s n : Fmt (List ℤ) Word) := by
  induction size generalizing s n with
  | zero => exact .pure n
  | succ size ih => exact .bind (keeps_peek s) fun _ => .ite (.pure n) (ih _ _)

theorem keeps_strLoop (altflag : Bool) (fuel : ℕ) (p : Loc) (precision width : Word) :
    Keeps Run.ap (strLoop snoc m altflag fuel p precision width) := by
  have hput (ch : BitVec 8) : Keeps Run.ap (putOne snoc altflag ch) := .ite (.put _) (.put _)
  induction fuel generalizing p precision width with
  | zero =>
    rw [strLoop]
    exact .own fun _ _ _ h => nomatch h
  | succ fuel ih =>
    rw [strLoop]
    refine .bind (keeps_peek p) fun ch => .ite (.pure width) (.ite ?_ (.ite ?_ (.pure width)))
    · exact .bind (hput ch) fun _ => ih _ _ _
    · exact .bind (hput ch) fun _ => ih _ _ _

/-- Printing a string takes no argument. -/
theorem keeps_printString (p : Loc) (fl : Flags) : Keeps Run.ap (printString snoc m p fl) := by
  unfold printString padLeft
  refine .bind (.ite ?_ (.pure _)) fun _ => .bind (keeps_strLoop ..) fun _ => keeps_putTimes _ _
  exact .bind (keeps_strnlen ..) fun _ => .bind (keeps_putTimes _ _) fun _ => .pure _

theorem grows_vprintfmt (fmt : List (BitVec 8)) : Grows (vprintfmt snoc m args fmt) :=
  Follows.grows fun _ => follows_vprintfmt fmt

/-- **What `vprintfmt` emits is empty exactly for the silent formats.** -/
theorem vprintfmt_silent {fmt : List (BitVec 8)} {r : Run} {l : List ℤ} {q : Run × List ℤ}
    (h : vprintfmt snoc m args fmt (r, l) = .ok () q) : q.2 = l ↔ Silent m args fmt r.ap := by
  induction hn : fmt.length using Nat.strong_induction_on generalizing fmt r l with
  | _ n ih =>
    subst hn
    cases fmt with
    | nil =>
      rw [vprintfmt] at h
      obtain ⟨-, rfl⟩ := EStateM.Result.ok.inj h
      rw [Silent]
      exact iff_of_true rfl trivial
    | cons ch fmt =>
      have hgrow (fmt : List (BitVec 8)) : Grows (vprintfmt snoc m args fmt) := grows_vprintfmt fmt
      have hput (c : ℤ) : Grows (putch snoc c : Fmt (List ℤ) Unit) := Follows.grows fun _ => .put c
      rw [Silent]
      by_cases hpct : ch = chr '%'
      · subst hpct
        have hrest := Nat.lt_succ_of_le (length_reswitch args fmt .default r.ap)
        rw [vprintfmt_directive] at h
        rw [if_pos rfl]
        generalize reswitch args fmt .default r.ap = d at h hrest ⊢
        cases hconv : convert snoc m args d with
        | none =>
          rw [hconv] at h
          have hloud := (Loud.bind (hput _) (.put _) fun _ => hgrow fmt).run _ _ _ _ h
          refine iff_of_false hloud fun hs => ?_
          rw [convert_string _ _ _ hs.1] at hconv
          cases hconv
        | some act =>
          rw [hconv] at h
          simp only at h
          by_cases hs : d.conv = chr 's'
          · rw [convert_string _ _ _ hs] at hconv
            obtain rfl := Option.some.inj hconv
            obtain ⟨_, q₁, hact, h⟩ := bind_eq_ok h
            obtain ⟨w, q₀, hw, hact⟩ := bind_eq_ok hact
            obtain ⟨rfl, rfl⟩ := EStateM.Result.ok.inj hw
            have hquiet := (printString_quiet hact).trans (quietString_iff _ _)
            have hap := (keeps_printString _ _).run _ _ _ hact
            have h₁ := (Follows.grows fun _ => follows_printString (m := m) _ _).run _ _ _ _ hact
            have h₂ := (hgrow d.rest).run _ _ _ _ h
            have hsil := ih _ hrest (r := q₁.1) (l := q₁.2) h rfl
            rw [hap] at hsil
            constructor
            · intro hq
              rw [hq] at h₂
              have e₁ : q₁.2 = l := h₂.eq_of_length (Nat.le_antisymm h₂.length_le h₁.length_le)
              exact ⟨hs, hquiet.mp e₁, hsil.mp (hq.trans e₁.symm)⟩
            · rintro ⟨-, hqs, hss⟩
              exact (hsil.mpr hss).trans (hquiet.mpr hqs)
          · exact iff_of_false
              ((Loud.bind (grows_convert hconv) (loud_convert hs hconv) fun _ => hgrow _).run _ _ _ _ h)
              fun hsil => hs hsil.1
      · rw [vprintfmt, if_neg hpct] at h
        rw [if_neg hpct]
        by_cases hzero : ch = 0#8
        · rw [if_pos hzero] at h
          obtain ⟨-, rfl⟩ := EStateM.Result.ok.inj h
          exact iff_of_true rfl hzero
        · rw [if_neg hzero] at h
          exact iff_of_false ((Loud.bind (hput _) (.put _) fun _ => hgrow fmt).run _ _ _ _ h) hzero

end

/-! ## The kernel's console -/

/-- What the kernel's `putch` reaches: the calls of `cputchar`, and the count behind its
pointer. -/
structure KernConsole where
  sent : List ℤ
  cnt : Word

/-- `putch` of `kern/printf.c`.  The `++` of `*cnt++` applies to the pointer, which is a copy,
so the count is only read. -/
def KernConsole.putch (ch : ℤ) (b : KernConsole) : KernConsole := { b with sent := b.sent ++ [ch] }

/-- `vcprintf` of `kern/printf.c`: what it returns, and the calls of `cputchar`. -/
def kernVcprintf (m : Word → Option (BitVec 8)) (args : ℕ → Word) (fmt : List (BitVec 8)) :
    Except Stuck (Word × List ℤ) :=
  match vprintfmt KernConsole.putch m args fmt (⟨0, []⟩, ⟨[], 0#32⟩) with
  | .ok _ p => .ok (p.2.cnt, p.2.sent)
  | .error e _ => .error e

theorem pour_kern (l : List ℤ) (b : KernConsole) :
    pour KernConsole.putch b l = ⟨b.sent ++ l, b.cnt⟩ := by
  induction l generalizing b with
  | nil => rw [List.append_nil, pour, List.foldl_nil]
  | cons c l ih =>
    rw [pour, List.foldl_cons]
    refine (ih _).trans ?_
    rw [KernConsole.putch, List.append_assoc, List.singleton_append]

/-! ## The library's buffer -/

/-- `struct printbuf`, with the buffers that have been passed to `sys_cputs`. -/
structure Printbuf where
  idx : ℕ
  cnt : Word
  buf : ℕ → BitVec 8
  passed : List (List (BitVec 8))

/-- `sys_cputs(b->buf, b->idx)` -/
def Printbuf.cputs (b : Printbuf) : Printbuf :=
  { b with passed := b.passed ++ [(List.range b.idx).map b.buf] }

/-- `putch` of `lib/printf.c` -/
def Printbuf.putch (ch : ℤ) (b : Printbuf) : Printbuf :=
  let b := { b with buf := Function.update b.buf b.idx (BitVec.ofInt 8 ch), idx := b.idx + 1 }
  let b := if b.idx = 256 - 1 then { b.cputs with idx := 0 } else b
  { b with cnt := b.cnt + 1#32 }

/-- `vcprintf` of `lib/printf.c`, with whatever the buffer holds at first: what it returns,
and the buffers passed to `sys_cputs`. -/
def libVcprintf (m : Word → Option (BitVec 8)) (args : ℕ → Word) (fmt : List (BitVec 8))
    (buf : ℕ → BitVec 8) : Except Stuck (Word × List (List (BitVec 8))) :=
  match vprintfmt Printbuf.putch m args fmt (⟨0, []⟩, ⟨0, 0#32, buf, []⟩) with
  | .ok _ p => .ok (p.2.cnt, p.2.cputs.passed)
  | .error e _ => .error e

/-- The characters `l` have been put: some of them passed on, the others in the buffer, which
is not full. -/
structure Buffered (l : List ℤ) (b : Printbuf) : Prop where
  idx_lt : b.idx < 255
  cnt : b.cnt = BitVec.ofNat 32 l.length
  contents : b.cputs.passed.flatten = l.map (BitVec.ofInt 8)

theorem passed_flatten (b : Printbuf) :
    b.cputs.passed.flatten = b.passed.flatten ++ (List.range b.idx).map b.buf := by
  rw [Printbuf.cputs, List.flatten_append, List.flatten_singleton]

/-- Storing at the end of the buffer appends to it. -/
theorem map_update_range (buf : ℕ → BitVec 8) (n : ℕ) (c : BitVec 8) :
    (List.range (n + 1)).map (Function.update buf n c) = (List.range n).map buf ++ [c] := by
  rw [List.range_succ, List.map_append, List.map_singleton, Function.update_self]
  congr 1
  refine List.map_congr_left fun i hi => Function.update_of_ne ?_ _ _
  exact (List.mem_range.mp hi).ne

/-- **One character.** -/
theorem Buffered.putch {l : List ℤ} {b : Printbuf} (h : Buffered l b) (ch : ℤ) :
    Buffered (l ++ [ch]) (b.putch ch) := by
  have hcnt : b.cnt + 1#32 = BitVec.ofNat 32 (l ++ [ch]).length := by
    rw [h.cnt, List.length_append, List.length_singleton, BitVec.ofNat_add]
  have hall : b.passed.flatten ++ (List.range (b.idx + 1)).map
      (Function.update b.buf b.idx (BitVec.ofInt 8 ch)) = (l ++ [ch]).map (BitVec.ofInt 8) := by
    rw [map_update_range, ← List.append_assoc, ← passed_flatten, h.contents, List.map_append,
      List.map_singleton]
  unfold Printbuf.putch
  dsimp only
  split
  · refine ⟨show 0 < 255 by decide, hcnt, ?_⟩
    rw [passed_flatten]
    show (b.passed ++ [_]).flatten ++ [] = _
    rw [List.append_nil, List.flatten_append, List.flatten_singleton]
    exact hall
  · rename_i hfull
    have hlt := h.idx_lt
    refine ⟨show b.idx + 1 < 255 by omega, hcnt, ?_⟩
    rw [passed_flatten]
    exact hall

/-- **Any number of characters**, with as many flushes as it takes. -/
theorem buffered_pour (l : List ℤ) {l₀ : List ℤ} {b : Printbuf} (h : Buffered l₀ b) :
    Buffered (l₀ ++ l) (pour Printbuf.putch b l) := by
  induction l generalizing l₀ b with
  | nil =>
    rw [List.append_nil]
    exact h
  | cons c l ih =>
    have hc := ih (h.putch c)
    rw [List.append_assoc, List.singleton_append] at hc
    exact hc

theorem buffered_nil (buf : ℕ → BitVec 8) : Buffered [] ⟨0, 0#32, buf, []⟩ :=
  ⟨show 0 < 255 by decide, rfl, rfl⟩

/-! ## The two of them -/

section

variable {m : Word → Option (BitVec 8)} {args : ℕ → Word} {fmt : List (BitVec 8)} {r : Run}
  {cs : List ℤ}

/-- **The kernel hands on every character, and returns zero.** -/
theorem kernVcprintf_eq (h : vprintfmt snoc m args fmt (⟨0, []⟩, []) = .ok () (r, cs)) :
    kernVcprintf m args fmt = .ok (0#32, cs) := by
  have hrun : vprintfmt KernConsole.putch m args fmt (⟨0, []⟩, ⟨[], 0#32⟩) = _ :=
    (follows_vprintfmt fmt).run ⟨0, []⟩ []
  rw [h, withSink, pour_kern] at hrun
  rw [kernVcprintf, hrun]
  rfl

/-- **The library passes on every character, and returns their number**, as an `int`. -/
theorem libVcprintf_eq (h : vprintfmt snoc m args fmt (⟨0, []⟩, []) = .ok () (r, cs))
    (buf : ℕ → BitVec 8) : ∃ passed,
      libVcprintf m args fmt buf = .ok (BitVec.ofNat 32 cs.length, passed) ∧
      passed.flatten = cs.map (BitVec.ofInt 8) := by
  have hrun : vprintfmt Printbuf.putch m args fmt (⟨0, []⟩, ⟨0, 0#32, buf, []⟩) = _ :=
    (follows_vprintfmt fmt).run ⟨0, []⟩ []
  have hbuf := buffered_pour cs (buffered_nil buf)
  rw [h, withSink] at hrun
  rw [libVcprintf, hrun]
  refine ⟨_, ?_, hbuf.contents⟩
  show Except.ok (Printbuf.cnt _, _) = Except.ok _
  rw [hbuf.cnt, List.nil_append]

/-- Both functions deliver the characters `cs`, and both return how many there are. -/
def Agree (m : Word → Option (BitVec 8)) (args : ℕ → Word) (fmt : List (BitVec 8))
    (buf : ℕ → BitVec 8) (cs : List ℤ) : Prop :=
  (∃ ret, kernVcprintf m args fmt = .ok (ret, cs) ∧ ret.toInt = cs.length) ∧
  ∃ ret passed, libVcprintf m args fmt buf = .ok (ret, passed) ∧
    passed.flatten = cs.map (BitVec.ofInt 8) ∧ ret.toInt = cs.length

/-- **Both deliver what `vprintfmt` emits, and both return its length exactly when that is
nothing**, which it is for the silent formats. -/
theorem vcprintf_agree_iff (h : vprintfmt snoc m args fmt (⟨0, []⟩, []) = .ok () (r, cs))
    (buf : ℕ → BitVec 8) :
    (kernVcprintf m args fmt = .ok (0#32, cs) ∧
      ∃ passed, libVcprintf m args fmt buf = .ok (BitVec.ofNat 32 cs.length, passed) ∧
        passed.flatten = cs.map (BitVec.ofInt 8)) ∧
    (Agree m args fmt buf cs ↔ Silent m args fmt 0) := by
  have hkern := kernVcprintf_eq h
  obtain ⟨passed, hlib, hpassed⟩ := libVcprintf_eq h buf
  refine ⟨⟨hkern, passed, hlib, hpassed⟩, ?_⟩
  rw [← vprintfmt_silent h]
  constructor
  · rintro ⟨⟨ret, hret, hlen⟩, -⟩
    rw [hkern] at hret
    obtain ⟨rfl, -⟩ := Prod.mk.inj (Except.ok.inj hret)
    exact List.length_eq_zero_iff.mp (Int.ofNat_eq_zero.mp hlen.symm)
  · rintro hnil
    replace hnil : cs = [] := hnil
    subst hnil
    exact ⟨⟨0#32, hkern, rfl⟩, _, passed, hlib, hpassed, rfl⟩

/-! ### One letter -/

theorem vprintfmt_letter (m : Word → Option (BitVec 8)) (args : ℕ → Word) :
    vprintfmt snoc m args [chr 'A'] (⟨0, []⟩, []) = .ok () (⟨0, []⟩, [65]) := by
  rw [vprintfmt, if_neg (by decide), if_neg (by decide), vprintfmt]
  rfl

/-- The library counts the letter and the kernel does not. -/
theorem vcprintf_agree_iff_letter :
    ¬ Agree (fun _ => none) (fun _ => 0#32) [chr 'A'] (fun _ => 0#8) [65] := by
  rw [(vcprintf_agree_iff (vprintfmt_letter _ _) _).2, Silent, if_neg (by decide)]
  decide

/-- **The two `vcprintf` do not agree.** -/
theorem not_vcprintf_agree :
    ¬ ∀ (m : Word → Option (BitVec 8)) (args : ℕ → Word) (fmt : List (BitVec 8))
      (buf : ℕ → BitVec 8) (r : Run) (cs : List ℤ),
      vprintfmt snoc m args fmt (⟨0, []⟩, []) = .ok () (r, cs) → Agree m args fmt buf cs := by
  intro hall
  obtain ⟨⟨ret, hret, hlen⟩, -⟩ :=
    hall (fun _ => none) (fun _ => 0#32) [chr 'A'] (fun _ => 0#8) _ _ (vprintfmt_letter _ _)
  rw [kernVcprintf_eq (vprintfmt_letter _ _)] at hret
  obtain ⟨rfl, -⟩ := Prod.mk.inj (Except.ok.inj hret)
  exact absurd hlen (by decide)

end

end Printfmt
end PmakeOs
