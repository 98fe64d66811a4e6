import Mathlib.Algebra.Order.Group.Nat
import Mathlib.Tactic.Common

/-!
# Maximal runs of positions

`IsRun p n i j` says that the positions `[i, j)`, below `n`, satisfy `p`, and that the
interval cannot be made longer.  `runs p n` lists these intervals from left to right
(`mem_runs`, `runs_pairwise`).

A program that scans from left to right has listed the runs before its position; `runsAt`
lists the others.  It moves over a position outside of the runs (`runsAt_of_not`), and over a
whole run (`runsAt_of_run`).
-/

namespace PmakeOs
namespace Lib

section

variable (p : ℕ → Prop) [DecidablePred p]

/-- `[i, j)` is a maximal run of positions below `n` with `p`. -/
structure IsRun (p : ℕ → Prop) (n i j : ℕ) : Prop where
  lt : i < j
  le : j ≤ n
  all : ∀ k, i ≤ k → k < j → p k
  left : i = 0 ∨ ¬ p (i - 1)
  right : j = n ∨ ¬ p j

/-- The runs among `r` positions from `o` on, where a run may have begun before. -/
def runsFrom : ℕ → ℕ → Option ℕ → List (ℕ × ℕ)
  | 0, _, none => []
  | 0, o, some i => [(i, o)]
  | r + 1, o, none => if p o then runsFrom r (o + 1) (some o) else runsFrom r (o + 1) none
  | r + 1, o, some i =>
    if p o then runsFrom r (o + 1) (some i) else (i, o) :: runsFrom r (o + 1) none

/-- The runs from position `o` on, which is not inside of one. -/
def runsAt (n o : ℕ) : List (ℕ × ℕ) := runsFrom p (n - o) o none

/-- All runs below `n`. -/
def runs (n : ℕ) : List (ℕ × ℕ) := runsAt p n 0

end

variable {p : ℕ → Prop} [DecidablePred p] {n r o i j i₀ e : ℕ}

omit [DecidablePred p] in
/-- An interval that is open up to `o`, and cannot go on, is the run that begins in it. -/
theorem IsRun.eq_of_open (h : IsRun p n i j) (ho : o ≤ n) (hall : ∀ k, i₀ ≤ k → k < o → p k)
    (hi : i₀ ≤ i) (hio : i < o) (hend : o = n ∨ ¬ p o) : i = i₀ ∧ j = o := by
  have heq : i = i₀ := by
    by_contra hne
    rcases h.left with h0 | hnot
    · omega
    · exact hnot (hall (i - 1) (by omega) (by omega))
  have hjo : j ≤ o := by
    by_contra hgt
    rcases hend with rfl | hnot
    · exact hgt h.le
    · exact hnot (h.all o (by omega) (by omega))
  refine ⟨heq, ?_⟩
  by_contra hne
  have hlt := h.lt
  rcases h.right with rfl | hnot
  · omega
  · exact hnot (hall j (by omega) (by omega))

/-- What is listed, without an open run and with one. -/
theorem mem_runsFrom (r : ℕ) : ∀ o,
    ((o = 0 ∨ ¬ p (o - 1)) → ∀ i j, (i, j) ∈ runsFrom p r o none ↔ IsRun p (o + r) i j ∧ o ≤ i) ∧
      ∀ i₀, i₀ < o → (∀ k, i₀ ≤ k → k < o → p k) → (i₀ = 0 ∨ ¬ p (i₀ - 1)) →
        ∀ i j, (i, j) ∈ runsFrom p r o (some i₀) ↔ IsRun p (o + r) i j ∧ i₀ ≤ i := by
  induction r with
  | zero =>
    intro o
    refine ⟨fun _ i j => ?_, fun i₀ hlt hall hleft i j => ?_⟩
    · refine ⟨fun h => absurd h List.not_mem_nil, fun h => ?_⟩
      have hlt := h.1.lt
      have hle := h.1.le
      omega
    · rw [runsFrom, List.mem_singleton]
      constructor
      · intro heq
        obtain ⟨rfl, rfl⟩ := Prod.mk.inj heq
        exact ⟨⟨hlt, le_rfl, hall, hleft, Or.inl rfl⟩, le_rfl⟩
      · rintro ⟨hrun, hi⟩
        have hlt' := hrun.lt
        have hle := hrun.le
        obtain ⟨rfl, rfl⟩ := hrun.eq_of_open (Nat.le_refl _) hall hi (by omega) (Or.inl rfl)
        rfl
  | succ r ih =>
    intro o
    have hn : o + (r + 1) = o + 1 + r := by omega
    rw [hn]
    refine ⟨fun hleft i j => ?_, fun i₀ hlt hall hleft i j => ?_⟩
    · rw [runsFrom]
      split
      · rename_i hp
        refine (ih (o + 1)).2 o (Nat.lt_succ_self o) (fun k hk hk' => ?_) hleft i j
        rwa [show k = o by omega]
      · rename_i hp
        rw [(ih (o + 1)).1 (Or.inr hp) i j]
        refine and_congr_right fun hrun => ⟨fun h => by omega, fun h => ?_⟩
        -- the run does not begin here
        by_contra hge
        have hlt := hrun.lt
        exact hp (hrun.all o (by omega) (by omega))
    · rw [runsFrom]
      split
      · rename_i hp
        refine (ih (o + 1)).2 i₀ (by omega) (fun k hk hk' => ?_) hleft i j
        rcases eq_or_ne k o with rfl | hne
        · exact hp
        · exact hall k hk (by omega)
      · rename_i hp
        rw [List.mem_cons, (ih (o + 1)).1 (Or.inr hp) i j]
        constructor
        · rintro (heq | ⟨hrun, hi⟩)
          · obtain ⟨rfl, rfl⟩ := Prod.mk.inj heq
            exact ⟨⟨hlt, by omega, hall, hleft, Or.inr hp⟩, le_rfl⟩
          · exact ⟨hrun, by omega⟩
        · rintro ⟨hrun, hi⟩
          rcases Nat.lt_or_ge i o with hio | hio
          · obtain ⟨rfl, rfl⟩ := hrun.eq_of_open (by omega) hall hi hio (Or.inr hp)
            exact Or.inl rfl
          · refine Or.inr ⟨hrun, ?_⟩
            by_contra hge
            have hlt' := hrun.lt
            exact hp (hrun.all o (by omega) (by omega))

/-- **The list has the maximal runs.** -/
theorem mem_runs (p : ℕ → Prop) [DecidablePred p] (n i j : ℕ) :
    (i, j) ∈ runs p n ↔ IsRun p n i j := by
  have h := (mem_runsFrom (p := p) n 0).1 (Or.inl rfl) i j
  rw [Nat.zero_add] at h
  rw [runs, runsAt, Nat.sub_zero, h]
  exact and_iff_left (Nat.zero_le i)

theorem runsFrom_pairwise (r : ℕ) : ∀ o,
    ((o = 0 ∨ ¬ p (o - 1)) → (runsFrom p r o none).Pairwise fun a b => a.2 < b.1) ∧
      ∀ i₀, (runsFrom p r o (some i₀)).Pairwise fun a b => a.2 < b.1 := by
  induction r with
  | zero => exact fun o => ⟨fun _ => .nil, fun i₀ => List.pairwise_singleton _ _⟩
  | succ r ih =>
    intro o
    refine ⟨fun hleft => ?_, fun i₀ => ?_⟩
    · rw [runsFrom]
      split
      · exact (ih (o + 1)).2 o
      · rename_i hp
        exact (ih (o + 1)).1 (Or.inr hp)
    · rw [runsFrom]
      split
      · exact (ih (o + 1)).2 i₀
      · rename_i hp
        refine List.pairwise_cons.mpr ⟨fun b hb => ?_, (ih (o + 1)).1 (Or.inr hp)⟩
        exact (((mem_runsFrom r (o + 1)).1 (Or.inr hp) b.1 b.2).mp hb).2

/-- **From left to right**, with a position between two of them. -/
theorem runs_pairwise (p : ℕ → Prop) [DecidablePred p] (n : ℕ) :
    (runs p n).Pairwise fun a b => a.2 < b.1 := (runsFrom_pairwise n 0).1 (Or.inl rfl)

/-! ## Scanning -/

theorem runsAt_end (p : ℕ → Prop) [DecidablePred p] (n : ℕ) : runsAt p n n = [] := by
  rw [runsAt, Nat.sub_self, runsFrom]

/-- A position outside of the runs. -/
theorem runsAt_of_not (ho : o < n) (hp : ¬ p o) : runsAt p n o = runsAt p n (o + 1) := by
  obtain ⟨r, hr⟩ : ∃ r, n - o = r + 1 := ⟨n - o - 1, by omega⟩
  rw [runsAt, runsAt, hr, runsFrom, if_neg hp, show n - (o + 1) = r by omega]

theorem runsAt_of_forall_not (hoe : o ≤ e) (he : e ≤ n) (hno : ∀ k, o ≤ k → k < e → ¬ p k) :
    runsAt p n o = runsAt p n e := by
  induction e, hoe using Nat.le_induction with
  | base => rfl
  | succ e hoe ih =>
    rw [ih (by omega) fun k hk hk' => hno k hk (by omega),
      runsAt_of_not he (hno e hoe (Nat.lt_succ_self e))]

theorem runsFrom_of_forall (hoe : o ≤ e) (he : e ≤ n) (hall : ∀ k, o ≤ k → k < e → p k) :
    runsFrom p (n - o) o (some i) = runsFrom p (n - e) e (some i) := by
  induction e, hoe using Nat.le_induction with
  | base => rfl
  | succ e hoe ih =>
    rw [ih (by omega) fun k hk hk' => hall k hk (by omega)]
    obtain ⟨r, hr⟩ : ∃ r, n - e = r + 1 := ⟨n - e - 1, by omega⟩
    rw [hr, runsFrom, if_pos (hall e hoe (Nat.lt_succ_self e)), show n - (e + 1) = r by omega]

/-- A whole run. -/
theorem runsAt_of_run (hoe : o < e) (he : e ≤ n) (hall : ∀ k, o ≤ k → k < e → p k)
    (hend : e = n ∨ ¬ p e) : runsAt p n o = (o, e) :: runsAt p n e := by
  obtain ⟨r, hr⟩ : ∃ r, n - o = r + 1 := ⟨n - o - 1, by omega⟩
  rw [runsAt, hr, runsFrom, if_pos (hall o le_rfl hoe), show r = n - (o + 1) by omega,
    runsFrom_of_forall hoe he fun k hk => hall k (by omega)]
  rcases hend with rfl | hp
  · rw [runsAt_end, Nat.sub_self, runsFrom]
  · rcases Nat.lt_or_ge e n with hlt | hge
    · obtain ⟨r, hr⟩ : ∃ r, n - e = r + 1 := ⟨n - e - 1, by omega⟩
      rw [runsAt_of_not hlt hp, hr, runsFrom, if_neg hp, runsAt, show n - (e + 1) = r by omega]
    · obtain rfl : e = n := by omega
      rw [runsAt_end, Nat.sub_self, runsFrom]

end Lib
end PmakeOs
