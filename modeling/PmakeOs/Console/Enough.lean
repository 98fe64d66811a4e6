import PmakeOs.Console.Pieces

/-!
# Enough arguments

`vprintfmt` stops early only at a string: at a byte that is not there, or in a string without
an end.  If each pointer that a `%s` takes is null or leads to a zero, it returns, for every
format and whatever the other arguments are.
-/

namespace PmakeOs
namespace Printfmt

open Lib

/-- A zero is reached from `p` on after `n` bytes. -/
inductive EndsIn (m : Word → Option (BitVec 8)) : ℕ → Loc → Prop
  | here {p : Loc} (h : p.read m = some 0#8) : EndsIn m 0 p
  | next {p : Loc} {b : BitVec 8} {n : ℕ} (hb : p.read m = some b) (h : EndsIn m n p.next) :
      EndsIn m (n + 1) p

/-- A pointer that may be printed as a string. -/
def IsString (m : Word → Option (BitVec 8)) (w : Word) : Prop :=
  w = 0#32 ∨ ∃ n < 2 ^ 32, EndsIn m n (.mem w)

/-- The number of arguments that the conversion of a directive takes. -/
def Directive.words (d : Directive) : ℕ :=
  if d.conv = chr 'c' ∨ d.conv = chr 'e' ∨ d.conv = chr 's' ∨ d.conv = chr 'p' then 1
  else if d.conv = chr 'd' ∨ d.conv = chr 'u' ∨ d.conv = chr 'o' ∨ d.conv = chr 'x' then
    if 2 ≤ d.flags.lflag then 2 else 1
  else 0

/-- The arguments from `ap` on are enough for a format: those that a `%s` takes are strings. -/
def Enough (m : Word → Option (BitVec 8)) (args : ℕ → Word) (fmt : List (BitVec 8)) (ap : ℕ) :
    Prop :=
  match fmt with
  | [] => True
  | c :: fmt =>
    if c = chr '%' then
      let d := reswitch args fmt .default ap
      (d.conv = chr 's' → IsString m (args d.ap)) ∧ Enough m args d.rest (d.ap + d.words)
    else Enough m args fmt ap
termination_by fmt.length
decreasing_by
  · exact Nat.lt_succ_of_le (length_reswitch args fmt .default ap)
  · exact Nat.lt_succ_self _

section

variable {σ : Type} {put : ℤ → σ → σ} {m : Word → Option (BitVec 8)} {args : ℕ → Word}

/-! ## Computations that return -/

theorem total_putTimes (ch : ℤ) (n : ℕ) : Total (putTimes put ch n) := by
  induction n with
  | zero => exact .pure ()
  | succ n ih => exact .bind (.put ch) fun _ => ih

theorem total_putStr (s : List (BitVec 8)) : Total (putStr put s) := by
  induction s with
  | nil => exact .pure ()
  | cons ch s ih => exact .bind (.put _) fun _ => ih

theorem total_printnum (num : ℕ) (base : Base) (width : Word) (padc : BitVec 8) :
    Total (printnum put num base width padc) := by
  induction num using Nat.strong_induction_on generalizing width with
  | _ num ih =>
    rw [printnum_eq]
    refine .bind ?_ fun _ => .put _
    split
    · rename_i hle
      have hone := base.one_lt
      exact ih _ (Nat.div_lt_self (by omega) hone) _
    · exact total_putTimes _ _

theorem total_printSigned (num : ℤ) (fl : Flags) : Total (printSigned put num fl) := by
  unfold printSigned
  exact .ite (.bind (.put _) fun _ => total_printnum ..) (total_printnum ..)

theorem total_putOne (altflag : Bool) (ch : BitVec 8) : Total (putOne put altflag ch) :=
  .ite (.put _) (.put _)

theorem total_strnlen {n : ℕ} {p : Loc} (h : EndsIn m n p) (size : ℕ) (k : Word) :
    Total (strnlen m size p k : Fmt σ Word) := by
  induction h generalizing size k with
  | here hp =>
    cases size with
    | zero => exact .pure k
    | succ size =>
      refine ⟨fun q => ?_⟩
      rw [strnlen, bind_apply, peek_some hp]
      exact ⟨k, _, rfl⟩
  | @next p b n hb h ih =>
    cases size with
    | zero => exact .pure k
    | succ size =>
      refine ⟨fun q => ?_⟩
      rw [strnlen, bind_apply, peek_some hb]
      exact (Total.ite (.pure k) (ih size _)).run _

/-- **The loop over a string that ends returns**, whatever the precision. -/
theorem total_strLoop {n : ℕ} {p : Loc} (h : EndsIn m n p) (altflag : Bool) {fuel : ℕ}
    (hfuel : n < fuel) (precision width : Word) :
    Total (strLoop put m altflag fuel p precision width) := by
  induction h generalizing fuel precision width with
  | here hp =>
    obtain ⟨k, rfl⟩ := Nat.exists_eq_add_of_lt hfuel
    refine ⟨fun q => ?_⟩
    rw [Nat.zero_add, strLoop, bind_apply, peek_some hp]
    exact ⟨width, _, rfl⟩
  | @next p b n hb h ih =>
    obtain ⟨k, rfl⟩ : ∃ k, fuel = k + 1 := ⟨fuel - 1, by omega⟩
    have hk : n < k := Nat.lt_of_succ_lt_succ hfuel
    refine ⟨fun q => ?_⟩
    rw [strLoop, bind_apply, peek_some hb]
    refine (Total.ite (.pure width) (.ite ?_ (.ite ?_ (.pure width)))).run _
    · exact .bind (total_putOne altflag b) fun _ => ih hk _ _
    · exact .bind (total_putOne altflag b) fun _ => ih hk _ _

theorem total_printString {n : ℕ} {p : Loc} (h : EndsIn m n p) (hn : n < 2 ^ 32) (fl : Flags) :
    Total (printString put m p fl) := by
  unfold printString padLeft
  refine .bind (.ite ?_ (.pure _)) fun _ => .bind (total_strLoop h _ hn _ _) fun _ =>
    total_putTimes _ _
  exact .bind (total_strnlen h _ _) fun _ => .bind (total_putTimes _ _) fun _ => .pure _

/-- A constant ends. -/
theorem endsIn_lit (s : List (BitVec 8)) (i : ℕ) : EndsIn m (s.length - i) (.lit s i) := by
  generalize hk : s.length - i = k
  induction k generalizing i with
  | zero =>
    refine .here ?_
    show some (s.getD i 0#8) = some 0#8
    rw [List.getD_eq_default _ _ (by omega)]
  | succ k ih => exact .next (b := s.getD i 0#8) rfl (ih (i + 1) (by omega))

/-- The messages are short. -/
theorem length_errorString {err : Word} {p : List (BitVec 8)} (h : errorString err = some p) :
    p.length < 2 ^ 32 := by
  have hall : ∀ o ∈ errorStrings, (o.getD []).length < 2 ^ 32 := by decide
  unfold errorString at h
  split at h
  · cases h
  · rcases Nat.lt_or_ge (err.toNat % 2 ^ 30) errorStrings.length with hlt | hge
    · rw [List.getD_eq_getElem _ _ hlt] at h
      have hp := hall _ (List.getElem_mem hlt)
      rw [h] at hp
      exact hp
    · rw [List.getD_eq_default _ _ hge] at h
      cases h

theorem total_printError (err : Word) : Total (printError put m err) := by
  unfold printError
  dsimp only
  split
  · exact .bind (total_putStr _) fun _ => total_printSigned ..
  · rename_i p hp
    exact total_printString (endsIn_lit p 0) ((Nat.sub_le _ _).trans_lt (length_errorString hp)) _

/-! ## Arguments taken -/

theorem keeps_putStr (s : List (BitVec 8)) : Keeps Run.ap (putStr snoc s) := by
  induction s with
  | nil => exact .pure ()
  | cons ch s ih => exact .bind (.put _) fun _ => ih

theorem keeps_printnum (num : ℕ) (base : Base) (width : Word) (padc : BitVec 8) :
    Keeps Run.ap (printnum snoc num base width padc) := by
  induction num using Nat.strong_induction_on generalizing width with
  | _ num ih =>
    rw [printnum_eq]
    refine .bind ?_ fun _ => .put _
    split
    · rename_i hle
      have hone := base.one_lt
      exact ih _ (Nat.div_lt_self (by omega) hone) _
    · exact keeps_putTimes _ _

theorem keeps_printSigned (num : ℤ) (fl : Flags) : Keeps Run.ap (printSigned snoc num fl) := by
  unfold printSigned
  exact .ite (.bind (.put _) fun _ => keeps_printnum ..) (keeps_printnum ..)

theorem keeps_printError (err : Word) : Keeps Run.ap (printError snoc m err) := by
  unfold printError
  dsimp only
  split
  · exact .bind (keeps_putStr _) fun _ => keeps_printSigned ..
  · exact keeps_printString ..

/-- The computation returns from the state and takes `k` arguments. -/
def Takes (k : ℕ) (x : Fmt (List ℤ) Unit) (r : Run) (l : List ℤ) : Prop :=
  ∃ q, x (r, l) = .ok () q ∧ q.1.ap = r.ap + k

theorem takes_zero {x : Fmt (List ℤ) Unit} (ht : Total x) (hk : Keeps Run.ap x) (r : Run)
    (l : List ℤ) : Takes 0 x r l := by
  obtain ⟨a, q, hq⟩ := ht.run (r, l)
  exact ⟨q, hq, hk.run _ _ _ hq⟩

/-- One argument, and a computation that takes none. -/
theorem takes_one {f : Word → Fmt (List ℤ) Unit} {r : Run} (ht : Total (f (args r.ap)))
    (hk : Keeps Run.ap (f (args r.ap))) (l : List ℤ) : Takes 1 (vaArg args >>= f) r l := by
  obtain ⟨q, hq, hap⟩ := takes_zero ht hk { r with ap := r.ap + 1 } l
  refine ⟨q, ?_, hap⟩
  rw [bind_apply]
  exact hq

/-- A number of either size, and a computation that takes none. -/
theorem takes_number {α : Type} {get : ℕ → Fmt (List ℤ) α} {wide : Word → Word → α} {thin : Word → α}
    (hget : ∀ lflag, get lflag = if 2 ≤ lflag then
      (do let lo ← vaArg args; let hi ← vaArg args; return wide lo hi)
      else (do let w ← vaArg args; return thin w))
    {f : α → Fmt (List ℤ) Unit} (ht : ∀ a, Total (f a)) (hk : ∀ a, Keeps Run.ap (f a)) (lflag : ℕ)
    (r : Run) (l : List ℤ) : Takes (if 2 ≤ lflag then 2 else 1) (get lflag >>= f) r l := by
  rw [hget]
  split
  · obtain ⟨q, hq, hap⟩ := takes_zero (ht (wide (args r.ap) (args (r.ap + 1)))) (hk _)
      { r with ap := r.ap + 1 + 1 } l
    refine ⟨q, ?_, hap⟩
    rw [bind_apply]
    exact hq
  · obtain ⟨q, hq, hap⟩ := takes_zero (ht (thin (args r.ap))) (hk _) { r with ap := r.ap + 1 } l
    refine ⟨q, ?_, hap⟩
    rw [bind_apply]
    exact hq

/-- **A conversion returns**, if the string that it may take is one. -/
theorem takes_convert {d : Directive} {act : Fmt (List ℤ) Unit}
    (h : convert snoc m args d = some act) {r : Run} (hs : d.conv = chr 's' → IsString m (args r.ap))
    (l : List ℤ) : Takes d.words act r l := by
  unfold convert at h
  split at h
  · rename_i hc
    obtain rfl := Option.some.inj h
    rw [Directive.words, if_pos (Or.inl hc)]
    exact takes_one (.put _) (.put _) l
  split at h
  · rename_i hc
    obtain rfl := Option.some.inj h
    rw [Directive.words, if_pos (Or.inr (Or.inl hc))]
    exact takes_one (total_printError _) (keeps_printError _) l
  split at h
  · rename_i hc
    obtain rfl := Option.some.inj h
    rw [Directive.words, if_pos (Or.inr (Or.inr (Or.inl hc)))]
    refine takes_one ?_ (keeps_printString ..) l
    rcases hs hc with hnull | ⟨n, hn, hends⟩
    · rw [if_pos hnull]
      exact total_printString (endsIn_lit _ 0) (by decide) _
    · split
      · exact total_printString (endsIn_lit _ 0) (by decide) _
      · exact total_printString hends hn _
  split at h
  · rename_i hc
    obtain rfl := Option.some.inj h
    rw [Directive.words, if_neg (by rw [hc]; decide), if_pos (Or.inl hc)]
    exact takes_number (fun _ => rfl) (fun _ => total_printSigned ..) (fun _ => keeps_printSigned ..)
      _ r l
  split at h
  · rename_i hc
    obtain rfl := Option.some.inj h
    rw [Directive.words, if_neg (by rw [hc]; decide), if_pos (Or.inr (Or.inl hc))]
    exact takes_number (fun _ => rfl) (fun _ => total_printnum ..) (fun _ => keeps_printnum ..) _ r l
  split at h
  · rename_i hc
    obtain rfl := Option.some.inj h
    rw [Directive.words, if_neg (by rw [hc]; decide), if_pos (Or.inr (Or.inr (Or.inl hc)))]
    exact takes_number (fun _ => rfl) (fun _ => total_printnum ..) (fun _ => keeps_printnum ..) _ r l
  split at h
  · rename_i hc
    obtain rfl := Option.some.inj h
    rw [Directive.words, if_pos (Or.inr (Or.inr (Or.inr hc)))]
    have hp : Takes 1 (vaArg args >>= fun w =>
        printnum snoc w.toNat .hex d.flags.width d.flags.padc) r
        (l ++ [((chr '0').toNat : ℤ)] ++ [((chr 'x').toNat : ℤ)]) :=
      takes_one (total_printnum ..) (keeps_printnum ..) _
    exact hp
  split at h
  · rename_i hc
    obtain rfl := Option.some.inj h
    rw [Directive.words, if_neg (by rw [hc]; decide), if_pos (Or.inr (Or.inr (Or.inr hc)))]
    exact takes_number (fun _ => rfl) (fun _ => total_printnum ..) (fun _ => keeps_printnum ..) _ r l
  split at h
  · rename_i hc
    obtain rfl := Option.some.inj h
    rw [Directive.words, if_neg (by rw [hc]; decide), if_neg (by rw [hc]; decide)]
    exact takes_zero (.put _) (.put _) r l
  · cases h

/-- **With enough arguments `vprintfmt` returns.** -/
theorem vprintfmt_returns {fmt : List (BitVec 8)} (hzero : ∀ c ∈ fmt, c ≠ 0#8) {r : Run}
    (h : Enough m args fmt r.ap) (l : List ℤ) :
    ∃ q, vprintfmt snoc m args fmt (r, l) = .ok () q := by
  induction hn : fmt.length using Nat.strong_induction_on generalizing fmt r l with
  | _ n ih =>
    subst hn
    cases fmt with
    | nil =>
      rw [vprintfmt]
      exact ⟨_, rfl⟩
    | cons c fmt =>
      have hfmt : ∀ c ∈ fmt, c ≠ 0#8 := fun c hc => hzero c (List.mem_cons_of_mem _ hc)
      rw [Enough] at h
      by_cases hc : c = chr '%'
      · subst hc
        rw [if_pos rfl] at h
        obtain ⟨hs, hrest⟩ := h
        have hread := readsEscape_reswitch args fmt .default r.ap
        have hlen := length_reswitch args fmt .default r.ap
        have hzero' : ∀ c ∈ (reswitch args fmt .default r.ap).rest, c ≠ 0#8 := by
          rw [hread.rest]
          exact fun c hc => hfmt c (by rw [← escape_append fmt]; exact List.mem_append_right _ hc)
        cases hconv : convert snoc m args (reswitch args fmt .default r.ap) with
        | some act =>
          obtain ⟨q, hq, hap⟩ := takes_convert hconv
            (r := { r with ap := (reswitch args fmt .default r.ap).ap }) hs l
          obtain ⟨q', hq'⟩ := ih _ (Nat.lt_succ_of_le hlen) hzero' (r := q.1)
            (by rw [hap]; exact hrest) q.2 rfl
          refine ⟨q', ?_⟩
          rw [vprintfmt_directive, hconv]
          dsimp only
          rw [bind_apply, hq]
          exact hq'
        | none =>
          rw [convert_eq_none_iff] at hconv
          have hwords : (reswitch args fmt .default r.ap).words = 0 := by
            simp only [conversions, List.mem_cons, List.not_mem_nil, or_false, not_or] at hconv
            rw [Directive.words, if_neg (by tauto), if_neg (by tauto)]
          rw [hwords, Nat.add_zero] at hrest
          rw [hread.conv] at hconv
          rw [vprintfmt_unrecognised _ _ _ hfmt hconv, bind_apply, putStr_run]
          rw [hread.rest] at hrest hlen hzero'
          exact ih _ (Nat.lt_succ_of_le hlen) hzero'
            (r := { r with ap := (reswitch args fmt .default r.ap).ap }) hrest _ rfl
      · rw [if_neg hc] at h
        rw [vprintfmt, if_neg hc, if_neg (hzero c List.mem_cons_self), bind_apply]
        exact ih _ (Nat.lt_succ_self _) hfmt h _ rfl

end

end Printfmt
end PmakeOs
