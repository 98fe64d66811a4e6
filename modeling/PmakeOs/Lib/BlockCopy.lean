import PmakeOs.Lib.Offset
import Mathlib.Logic.Basic

/-!
# Copying a block in pieces

A block of memory is copied piece by piece, between ranges that may overlap.  `copied` is the
memory in which an interval of the destination has received what the source held at the start;
`blit` copies one piece, reading all of it before it writes.  A piece extends the interval if
nothing in it has been overwritten (`blit_copied`), which holds upwards from below and
downwards from above (`unread_up`, `unread_down`).
-/

namespace PmakeOs.Lib

variable {β : Type}

/-- The memory after the bytes `lo ≤ i < hi` of the block have been copied. -/
def copied (mem : BitVec 32 → β) (dst src : BitVec 32) (lo hi : ℕ) : BitVec 32 → β := fun a =>
  if lo ≤ (a - dst).toNat ∧ (a - dst).toNat < hi then mem (src + (a - dst)) else mem a

/-- Copy `c` bytes from `s` to `d`, all of them read before the first is written. -/
def blit (mem : BitVec 32 → β) (d s : BitVec 32) (c : ℕ) : BitVec 32 → β := fun a =>
  if (a - d).toNat < c then mem (s + (a - d)) else mem a

theorem copied_of_le (mem : BitVec 32 → β) (dst src : BitVec 32) {lo hi : ℕ} (h : hi ≤ lo) :
    copied mem dst src lo hi = mem := by
  funext a
  exact if_neg (by omega)

theorem toNat_sub_eq (a b : BitVec 32) :
    (a - b).toNat = if b.toNat ≤ a.toNat then a.toNat - b.toNat else 2 ^ 32 + a.toNat - b.toNat := by
  have ha := a.isLt
  have hb := b.isLt
  rw [BitVec.toNat_sub]
  split <;> omega

/-- The bytes of a piece, by their place in the block. -/
theorem toNat_sub_add_lt_iff (a dst : BitVec 32) {t c : ℕ} (ht : t + c ≤ 2 ^ 32) :
    (a - (dst + BitVec.ofNat 32 t)).toNat < c ↔
      t ≤ (a - dst).toNat ∧ (a - dst).toNat < t + c := by
  rcases Nat.eq_zero_or_pos c with rfl | hc
  · omega
  have hlt := (a - dst).isLt
  have hoff : (BitVec.ofNat 32 t).toNat = t := by
    rw [BitVec.toNat_ofNat, Nat.mod_eq_of_lt (by omega)]
  rw [sub_add_eq_sub_sub, toNat_sub_eq, hoff]
  split <;> omega

/-- **One piece.** -/
theorem blit_copied (mem : BitVec 32 → β) (dst src : BitVec 32) {lo hi lo' hi' t c : ℕ}
    (ht : t + c ≤ 2 ^ 32)
    (hunread : ∀ i, t ≤ i → i < t + c → ¬ (lo ≤ (src + BitVec.ofNat 32 i - dst).toNat ∧
      (src + BitVec.ofNat 32 i - dst).toNat < hi))
    (hjoin : ∀ i, (lo' ≤ i ∧ i < hi') ↔ (lo ≤ i ∧ i < hi) ∨ (t ≤ i ∧ i < t + c)) :
    blit (copied mem dst src lo hi) (dst + BitVec.ofNat 32 t) (src + BitVec.ofNat 32 t) c =
      copied mem dst src lo' hi' := by
  funext a
  have hplace : a - dst = BitVec.ofNat 32 (a - dst).toNat := by
    rw [BitVec.ofNat_toNat, BitVec.setWidth_eq]
  have hsrc : src + BitVec.ofNat 32 t + (a - (dst + BitVec.ofNat 32 t)) = src + (a - dst) := by
    rw [sub_add_eq_sub_sub, BitVec.add_assoc, BitVec.add_comm (BitVec.ofNat 32 t),
      BitVec.sub_add_cancel]
  unfold blit
  rw [hsrc]
  by_cases hpiece : t ≤ (a - dst).toNat ∧ (a - dst).toNat < t + c
  · have hfree := hunread _ hpiece.1 hpiece.2
    rw [← hplace] at hfree
    rw [if_pos ((toNat_sub_add_lt_iff a dst ht).mpr hpiece), copied, if_neg hfree, copied,
      if_pos ((hjoin _).mpr (Or.inr hpiece))]
  · rw [if_neg fun h => hpiece ((toNat_sub_add_lt_iff a dst ht).mp h)]
    unfold copied
    by_cases hold : lo ≤ (a - dst).toNat ∧ (a - dst).toNat < hi
    · rw [if_pos hold, if_pos ((hjoin _).mpr (Or.inl hold))]
    · rw [if_neg hold, if_neg fun h => ((hjoin _).mp h).elim hold hpiece]

section

variable {dst src : BitVec 32} {n i : ℕ}

/-- Upwards, if the destination does not begin inside the source: a byte of the source is read
before the copy gets to it. -/
theorem unread_up {t : ℕ} (hsrc : src.toNat + n ≤ 2 ^ 32)
    (hdir : dst.toNat ≤ src.toNat ∨ src.toNat + n ≤ dst.toNat) (hi : i < n) (ht : t ≤ i) :
    ¬ (0 ≤ (src + BitVec.ofNat 32 i - dst).toNat ∧
      (src + BitVec.ofNat 32 i - dst).toNat < t) := by
  have hdst := dst.isLt
  rw [toNat_sub_eq, toNat_add_ofNat (show src.toNat + i < 2 ^ 32 by omega)]
  split <;> omega

/-- Downwards, if the destination is above the source. -/
theorem unread_down {t : ℕ} (hsrc : src.toNat + n ≤ 2 ^ 32) (hdst : dst.toNat + n ≤ 2 ^ 32)
    (hdir : src.toNat < dst.toNat) (hi : i < n) (ht : i < t) :
    ¬ (t ≤ (src + BitVec.ofNat 32 i - dst).toNat ∧
      (src + BitVec.ofNat 32 i - dst).toNat < n) := by
  rw [toNat_sub_eq, toNat_add_ofNat (show src.toNat + i < 2 ^ 32 by omega)]
  split <;> omega

end

/-- What the copied block holds. -/
theorem copied_apply (mem : BitVec 32 → β) (dst src : BitVec 32) {n i : ℕ} (hn : n ≤ 2 ^ 32)
    (hi : i < n) :
    copied mem dst src 0 n (dst + BitVec.ofNat 32 i) = mem (src + BitVec.ofNat 32 i) := by
  have hplace : dst + BitVec.ofNat 32 i - dst = BitVec.ofNat 32 i := by
    rw [BitVec.add_comm, BitVec.add_sub_cancel]
  have hoff := toNat_add_ofNat_sub dst (show i < 2 ^ 32 by omega)
  rw [copied, if_pos (by rw [hoff]; exact ⟨Nat.zero_le i, hi⟩), hplace]

/-- Nothing else changes. -/
theorem copied_of_ne (mem : BitVec 32 → β) (dst src : BitVec 32) {n : ℕ} {a : BitVec 32}
    (ha : ∀ i < n, a ≠ dst + BitVec.ofNat 32 i) : copied mem dst src 0 n a = mem a := by
  exact if_neg fun h => ha _ h.2 (eq_add_of_toNat_sub rfl)

end PmakeOs.Lib
