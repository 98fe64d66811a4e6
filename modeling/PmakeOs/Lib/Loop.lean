import Mathlib.Data.Nat.Notation

/-!
# Counted loops that may fail

A loop `for (k = 0; k < n; k++) body` over a state, whose body may stop with an
error, is a fold over `List.range n` in `Except`.  Two rules for an invariant
`I k a`, read as "the state is `a` when the counter is `k`":

* `foldlM_range_ok` --- if every round from a state with the invariant returns, and
  with the invariant again, then the loop returns with the invariant at `n`;
* `foldlM_range_invariant` --- if every round *that returns* keeps the invariant, then a
  loop that returns has it at `n`; `foldlM_invariant_mem` is the same for a property that
  does not mention the counter.
-/

namespace PmakeOs
namespace Lib

variable {α ι ε : Type}

/-- The loop returns, with the invariant. -/
theorem foldlM_range_ok {f : α → ℕ → Except ε α} {I : ℕ → α → Prop} {n : ℕ} {a : α}
    (h0 : I 0 a) (hstep : ∀ k, k < n → ∀ b, I k b → ∃ b', f b k = .ok b' ∧ I (k + 1) b') :
    ∃ a', (List.range n).foldlM f a = .ok a' ∧ I n a' := by
  induction n with
  | zero => exact ⟨a, rfl, h0⟩
  | succ n ih =>
    obtain ⟨b, hb, hI⟩ := ih fun k hk => hstep k (Nat.lt_succ_of_lt hk)
    obtain ⟨b', hb', hI'⟩ := hstep n (Nat.lt_succ_self n) b hI
    refine ⟨b', ?_, hI'⟩
    rw [List.range_succ, List.foldlM_append, hb]
    show f b n >>= pure = _
    rw [hb']
    rfl

/-- A loop that returns has the invariant. -/
theorem foldlM_range_invariant {f : α → ℕ → Except ε α} {I : ℕ → α → Prop} {n : ℕ} {a a' : α}
    (h0 : I 0 a) (hstep : ∀ k, k < n → ∀ b b', I k b → f b k = .ok b' → I (k + 1) b')
    (h : (List.range n).foldlM f a = .ok a') : I n a' := by
  induction n generalizing a' with
  | zero =>
    obtain rfl := Except.ok.inj h
    exact h0
  | succ n ih =>
    rw [List.range_succ, List.foldlM_append] at h
    cases hb : (List.range n).foldlM f a with
    | error p =>
      rw [hb] at h
      cases h
    | ok b =>
      have hI := ih (fun k hk => hstep k (Nat.lt_succ_of_lt hk)) hb
      rw [hb] at h
      refine hstep n (Nat.lt_succ_self n) b a' hI ?_
      cases hf : f b n with
      | error p =>
        have herr : (f b n >>= pure : Except ε α) = .ok a' := h
        rw [hf] at herr
        cases herr
      | ok b' =>
        have hok : (f b n >>= pure : Except ε α) = .ok a' := h
        rw [hf] at hok
        exact hok

/-- A loop that returns has kept the property. -/
theorem foldlM_invariant_mem {f : α → ι → Except ε α} {P : α → Prop} :
    ∀ (l : List ι) {a a' : α}, (∀ b, ∀ k ∈ l, ∀ b', P b → f b k = .ok b' → P b') → P a →
      l.foldlM f a = .ok a' → P a'
  | [], a, a', _, ha, h => by
    obtain rfl := Except.ok.inj h
    exact ha
  | k :: l, a, a', hstep, ha, h => by
    rw [List.foldlM_cons] at h
    cases hk : f a k with
    | error p =>
      rw [hk] at h
      cases h
    | ok b =>
      rw [hk] at h
      exact foldlM_invariant_mem l (fun b k hk => hstep b k (List.mem_cons_of_mem _ hk))
        (hstep a k List.mem_cons_self b ha hk) h

theorem foldlM_invariant {f : α → ι → Except ε α} {P : α → Prop}
    (hstep : ∀ b k b', P b → f b k = .ok b' → P b') (l : List ι) {a a' : α} (ha : P a)
    (h : l.foldlM f a = .ok a') : P a' :=
  foldlM_invariant_mem l (fun b k _ b' => hstep b k b') ha h

end Lib
end PmakeOs
