import PmakeOs.Machine.Mmu
import PmakeOs.Lib.Bytes

/-!
# Memory by bytes

The tables are read by words, but a stack pointer need not be aligned, so what is stored on
a stack is stored by bytes.  `physByte m f o` is byte `o` of frame `f`, and `place m d va` is
where the directory `d` puts the byte at `va`.

`putBytes m d va n b` stores `n` bytes from `va` on, at the places that the tables give
before the store.  No two bytes of a range that is at most a page long have one place, even
if two pages of the range have the same frame, since their offsets differ; so every byte of
the range is what was stored (`physByte_putBytes_of_place`) and every place outside of it is
as before (`physByte_putBytes_of_ne`).
-/

namespace PmakeOs

open Lib

variable {m m' : Phys} {d n k : ℕ} {va : Word} {b : ℕ → BitVec 8} {x : ℕ × ℕ}

/-- Byte `o` of frame `f`. -/
def physByte (m : Phys) (f o : ℕ) : BitVec 8 := byte (m f (o / 4)) (o % 4)

/-- Store a byte in physical memory. -/
def putByte (m : Phys) (x : ℕ × ℕ) (b : BitVec 8) : Phys := fun f i =>
  if f = x.1 ∧ i = x.2 / 4 then setByte (m x.1 (x.2 / 4)) (x.2 % 4) b else m f i

theorem physByte_putByte (m : Phys) (x : ℕ × ℕ) (b : BitVec 8) (f o : ℕ) :
    physByte (putByte m x b) f o = if (f, o) = x then b else physByte m f o := by
  obtain ⟨f', o'⟩ := x
  unfold physByte putByte
  simp only [Prod.mk.injEq]
  by_cases hword : f = f' ∧ o / 4 = o' / 4
  · rw [if_pos hword, byte_setByte _ _ (Nat.mod_lt o (by decide))]
    by_cases hlane : o % 4 = o' % 4
    · rw [if_pos hlane, if_pos ⟨hword.1, by omega⟩]
    · rw [if_neg hlane, if_neg (fun h => hlane (by rw [h.2])), hword.1, hword.2]
  · rw [if_neg hword, if_neg]
    rintro ⟨rfl, rfl⟩
    exact hword ⟨rfl, rfl⟩

theorem putByte_of_ne (m : Phys) (b : BitVec 8) {f : ℕ} (h : f ≠ x.1) : putByte m x b f = m f := by
  funext i
  exact if_neg fun h0 => h h0.1

/-- Where the byte at `va` is in physical memory. -/
def place (m : Phys) (d : ℕ) (va : Word) : Option (ℕ × ℕ) :=
  (mmuWalk m d (pgnum va)).map fun t => (t.ppn, va.toNat % pgsize)

/-- The byte at `va`, in the address space of `d`. -/
def byteAt (m : Phys) (d : ℕ) (va : Word) : Option (BitVec 8) :=
  (place m d va).map fun x => physByte m x.1 x.2

theorem place_of_walk {t : Translation} (h : mmuWalk m d (pgnum va) = some t) :
    place m d va = some (t.ppn, va.toNat % pgsize) := by
  rw [place, h]
  rfl

theorem offset_of_place (h : place m d va = some x) : x.2 = va.toNat % pgsize := by
  obtain ⟨t, -, rfl⟩ := Option.map_eq_some_iff.mp h
  rfl

theorem byteAt_of_place (h : place m d va = some x) : byteAt m d va = some (physByte m x.1 x.2) := by
  rw [byteAt, h]
  rfl

/-- The offsets of a range that is at most a page long are pairwise different. -/
theorem offset_injOn (va : Word) {j k : ℕ} (hj : j < pgsize) (hk : k < pgsize)
    (h : (va + BitVec.ofNat 32 j).toNat % pgsize = (va + BitVec.ofNat 32 k).toNat % pgsize) :
    j = k := by
  rw [pgsize] at *
  rw [BitVec.toNat_add, BitVec.toNat_add, BitVec.toNat_ofNat, BitVec.toNat_ofNat] at h
  omega

/-! ## Storing a range -/

/-- Store `n` bytes from `va` on. -/
def putBytes (m : Phys) (d : ℕ) (va : Word) (n : ℕ) (b : ℕ → BitVec 8) : Phys :=
  (List.range n).foldl (fun m' k =>
    match place m d (va + BitVec.ofNat 32 k) with
    | some x => putByte m' x (b k)
    | none => m') m

theorem putBytes_succ (m : Phys) (d : ℕ) (va : Word) (n : ℕ) (b : ℕ → BitVec 8) :
    putBytes m d va (n + 1) b =
      match place m d (va + BitVec.ofNat 32 n) with
      | some x => putByte (putBytes m d va n b) x (b n)
      | none => putBytes m d va n b := by
  unfold putBytes
  rw [List.range_succ, List.foldl_append]
  rfl

/-- A frame to which no byte of the range goes. -/
theorem putBytes_frame {f : ℕ}
    (h : ∀ k < n, ∀ o, place m d (va + BitVec.ofNat 32 k) ≠ some (f, o)) :
    putBytes m d va n b f = m f := by
  induction n with
  | zero => rfl
  | succ n ih =>
    have ih' := ih fun k hk => h k (by omega)
    rw [putBytes_succ]
    cases hp : place m d (va + BitVec.ofNat 32 n) with
    | none => exact ih'
    | some x =>
      rw [← ih']
      refine putByte_of_ne _ _ ?_
      rintro rfl
      exact h n (by omega) x.2 hp

/-- A place to which no byte of the range goes. -/
theorem physByte_putBytes_of_ne {f o : ℕ}
    (h : ∀ k < n, place m d (va + BitVec.ofNat 32 k) ≠ some (f, o)) :
    physByte (putBytes m d va n b) f o = physByte m f o := by
  induction n with
  | zero => rfl
  | succ n ih =>
    have ih' := ih fun k hk => h k (by omega)
    rw [putBytes_succ]
    cases hp : place m d (va + BitVec.ofNat 32 n) with
    | none => exact ih'
    | some x =>
      dsimp only
      rw [physByte_putByte, if_neg, ih']
      rintro rfl
      exact h n (by omega) hp

/-- The bytes of the range. -/
theorem physByte_putBytes_of_place (hn : n ≤ pgsize) (hk : k < n)
    (h : place m d (va + BitVec.ofNat 32 k) = some x) :
    physByte (putBytes m d va n b) x.1 x.2 = b k := by
  induction n with
  | zero => exact absurd hk (Nat.not_lt_zero k)
  | succ n ih =>
    rw [putBytes_succ]
    rcases Nat.lt_succ_iff_lt_or_eq.mp hk with hlt | rfl
    · have ih' := ih (by omega) hlt
      cases hp : place m d (va + BitVec.ofNat 32 n) with
      | none => exact ih'
      | some y =>
        dsimp only
        rw [physByte_putByte, if_neg, ih']
        rintro rfl
        -- byte `n` is stored after byte `k`, but at another offset
        have hoff := (offset_of_place h).symm.trans (offset_of_place hp)
        have := offset_injOn va (by omega) (by omega) hoff
        omega
    · rw [h]
      dsimp only
      rw [physByte_putByte, if_pos rfl]

/-- The bytes that a store changes are in the range. -/
theorem place_of_putBytes_ne {f o : ℕ}
    (h : physByte (putBytes m d va n b) f o ≠ physByte m f o) :
    ∃ k < n, place m d (va + BitVec.ofNat 32 k) = some (f, o) := by
  by_contra hno
  refine h (physByte_putBytes_of_ne fun k hk hp => hno ⟨k, hk, hp⟩)

end PmakeOs
