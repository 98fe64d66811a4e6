import Mathlib.Data.List.Basic
import Mathlib.Data.Nat.ModEq

/-!
# A ring that overwrites

A ring of `n` cells with a position to read from and one to write to.  There is no test for a
full ring: `push` always writes, and after `n` pushes without a `pop` the ring looks empty.

`Tracks` relates a ring to the list of everything that was pushed and the list of everything
that was popped.  The positions are the two lengths modulo `n`, so the number of entries that
can still be popped is the number of those that have not been popped, modulo `n`, and they are
the latest ones.
-/

namespace PmakeOs.Lib

variable {α : Type}

/-- The cells, the position to read from and the position to write to. -/
structure Ringbuf (α : Type) where
  buf : ℕ → α
  rpos : ℕ
  wpos : ℕ

namespace Ringbuf

/-- The position behind a position. -/
def after (n i : ℕ) : ℕ := if i + 1 = n then 0 else i + 1

/-- Write an entry. -/
def push (n : ℕ) (c : α) (s : Ringbuf α) : Ringbuf α :=
  { s with buf := Function.update s.buf s.wpos c, wpos := after n s.wpos }

/-- Read an entry, if the positions differ. -/
def pop (n : ℕ) (s : Ringbuf α) : Option (α × Ringbuf α) :=
  if s.rpos ≠ s.wpos then some (s.buf s.rpos, { s with rpos := after n s.rpos }) else none

/-- What `d` leaves to pop in a ring of `n` cells after `k` pops: the latest entries, as many
as have not been popped, modulo `n`. -/
def left (n : ℕ) (d : List α) (k : ℕ) : List α := d.drop (d.length - (d.length - k) % n)

/-- The entries of `d` have been pushed and those of `r` popped. -/
structure Tracks (n : ℕ) (d r : List α) (s : Ringbuf α) : Prop where
  wpos : s.wpos = d.length % n
  rpos : s.rpos = r.length % n
  length_le : r.length ≤ d.length
  held : ∀ j (hj : j < d.length), d.length ≤ j + n → s.buf (j % n) = d.get ⟨j, hj⟩
  sublist : r.Sublist (d.take (d.length - (d.length - r.length) % n))

theorem after_mod {n : ℕ} (hn : 0 < n) (k : ℕ) : after n (k % n) = (k + 1) % n := by
  have hlt := Nat.mod_lt k hn
  unfold after
  rw [Nat.add_mod_eq_ite]
  rcases Nat.lt_or_ge 1 n with h1 | h1
  · rw [Nat.mod_eq_of_lt h1]
    split <;> split <;> omega
  · obtain rfl : n = 1 := by omega
    split <;> split <;> omega

/-- The empty ring. -/
theorem tracks_nil (n : ℕ) (buf : ℕ → α) : Tracks n [] [] ⟨buf, 0, 0⟩ :=
  ⟨(Nat.zero_mod n).symm, (Nat.zero_mod n).symm, le_rfl, fun j hj => absurd hj (Nat.not_lt_zero j),
    List.Sublist.refl _⟩

theorem mod_succ_cases {n : ℕ} (hn : 0 < n) (u : ℕ) :
    (u + 1) % n = u % n + 1 ∨ (u + 1) % n = 0 := by
  have hlt := Nat.mod_lt u hn
  rw [← after_mod hn]
  unfold after
  split
  · exact Or.inr rfl
  · exact Or.inl rfl

/-- **A push.** -/
theorem Tracks.push {n : ℕ} {d r : List α} {s : Ringbuf α} (h : Tracks n d r s) (hn : 0 < n) (c : α) :
    Tracks n (d ++ [c]) r (s.push n c) := by
  have hlen : (d ++ [c]).length = d.length + 1 := List.length_append
  refine ⟨?_, h.rpos, ?_, fun j hj hnew => ?_, ?_⟩
  · show after n s.wpos = _
    rw [h.wpos, after_mod hn, hlen]
  · rw [hlen]
    exact h.length_le.trans (Nat.le_succ _)
  · show Function.update s.buf s.wpos c (j % n) = _
    rw [hlen] at hj hnew
    rw [h.wpos]
    rcases Nat.lt_succ_iff_lt_or_eq.mp hj with hlt | rfl
    · -- two positions less than `n` apart are different cells
      have hne : j % n ≠ d.length % n := by
        intro heq
        have hdvd : n ∣ d.length - j := (Nat.modEq_iff_dvd' hlt.le).mp heq
        exact absurd (Nat.le_of_dvd (by omega) hdvd) (by omega)
      rw [Function.update_of_ne hne, h.held j hlt (by omega)]
      exact (List.getElem_append_left hlt).symm
    · rw [Function.update_self]
      simp
  · have hle := h.length_le
    have hmod := Nat.mod_le (d.length - r.length) n
    rw [hlen, Nat.sub_add_comm hle]
    rcases mod_succ_cases hn (d.length - r.length) with hm | hm
    · rw [hm, Nat.add_sub_add_right, List.take_append_of_le_length (Nat.sub_le _ _)]
      exact h.sublist
    · rw [hm, Nat.sub_zero, ← hlen, List.take_length]
      exact (h.sublist.trans (List.take_sublist _ _)).trans (List.sublist_append_left _ _)

section

variable {n : ℕ} {d r : List α} {s : Ringbuf α}

/-- The positions are equal exactly when nothing is left. -/
theorem Tracks.rpos_eq_wpos_iff (h : Tracks n d r s) :
    s.rpos = s.wpos ↔ (d.length - r.length) % n = 0 := by
  rw [h.rpos, h.wpos, ← Nat.dvd_iff_mod_eq_zero]
  exact Nat.modEq_iff_dvd' h.length_le

theorem left_eq_nil_iff (hle : r.length ≤ d.length) :
    left n d r.length = [] ↔ (d.length - r.length) % n = 0 := by
  have hmod := Nat.mod_le (d.length - r.length) n
  rw [left, List.drop_eq_nil_iff]
  omega

/-- Nothing is left. -/
theorem Tracks.pop_none (h : Tracks n d r s) (hleft : left n d r.length = []) :
    s.pop n = none := by
  rw [left_eq_nil_iff h.length_le, ← h.rpos_eq_wpos_iff] at hleft
  exact if_neg (not_not.mpr hleft)

/-- **A pop** takes the oldest entry that is left. -/
theorem Tracks.pop_some {c : α} {l : List α} (h : Tracks n d r s) (hn : 0 < n)
    (hleft : left n d r.length = c :: l) :
    ∃ s', s.pop n = some (c, s') ∧ Tracks n d (r ++ [c]) s' ∧
      left n d (r ++ [c]).length = l := by
  have hle := h.length_le
  have hmod := Nat.mod_le (d.length - r.length) n
  have hlt := Nat.mod_lt (d.length - r.length) hn
  have hne : (d.length - r.length) % n ≠ 0 := by
    rw [ne_eq, ← left_eq_nil_iff hle, hleft]
    exact List.cons_ne_nil c l
  have hlen : (r ++ [c]).length = r.length + 1 := List.length_append
  -- the number of entries left goes down by one
  have hpred : (d.length - (r.length + 1)) % n = (d.length - r.length) % n - 1 := by
    have hsucc : d.length - r.length = d.length - (r.length + 1) + 1 := by omega
    rcases mod_succ_cases hn (d.length - (r.length + 1)) with hm | hm
    · rw [hsucc, hm, Nat.add_sub_cancel]
    · rw [hsucc] at hne
      exact absurd hm hne
  set u := (d.length - r.length) % n with hu
  have hj : d.length - u < d.length := by omega
  have hdrop : d.drop (d.length - u) = d.get ⟨d.length - u, hj⟩ :: d.drop (d.length - u + 1) :=
    List.drop_eq_getElem_cons hj
  obtain ⟨hc, hl⟩ := List.cons.inj (hdrop.symm.trans hleft)
  have hcell : (d.length - u) % n = r.length % n := by
    refine ((Nat.modEq_iff_dvd' (show r.length ≤ d.length - u by omega)).mpr ?_).symm
    have := Nat.dvd_sub_mod (d.length - r.length) (n := n)
    rwa [← hu, Nat.sub_right_comm] at this
  have hread : s.buf s.rpos = c := by
    rw [h.rpos, ← hcell, h.held _ hj (by omega), hc]
  refine ⟨{ s with rpos := after n s.rpos }, ?_, ⟨h.wpos, ?_, ?_, h.held, ?_⟩, ?_⟩
  · unfold pop
    rw [if_pos fun heq => hne (h.rpos_eq_wpos_iff.mp heq), hread]
  · show after n s.rpos = _
    rw [h.rpos, after_mod hn, hlen]
  · omega
  · rw [hlen, hpred, show d.length - (u - 1) = d.length - u + 1 by omega,
      List.take_add_one, List.getElem?_eq_getElem hj]
    exact h.sublist.append (by rw [← hc]; exact List.Sublist.refl _)
  · rw [left, hlen, hpred, show d.length - (u - 1) = d.length - u + 1 by omega]
    exact hl

/-- If fewer than `n` entries are left, they are all those that have not been popped. -/
theorem left_of_lt (hlt : d.length - r.length < n) (hle : r.length ≤ d.length) :
    left n d r.length = d.drop r.length := by
  rw [left, Nat.mod_eq_of_lt hlt, Nat.sub_sub_self hle]

end

end Ringbuf

end PmakeOs.Lib
