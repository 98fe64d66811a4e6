import Mathlib.Data.Nat.Notation
import Mathlib.Data.BitVec

/-!
# Addresses from a start

An address of a block is the start and an offset.  The offset is the difference of the two
(`toNat_add_ofNat_sub`, `eq_add_of_toNat_sub`), and in a block that does not wrap around it is
what has to be added to the start (`toNat_add_ofNat`).
-/

namespace PmakeOs.Lib

variable {w k : ℕ} {a start : BitVec w}

theorem toNat_add_ofNat (h : start.toNat + k < 2 ^ w) :
    (start + BitVec.ofNat w k).toNat = start.toNat + k := by
  rw [BitVec.toNat_add, BitVec.toNat_ofNat,
    Nat.mod_eq_of_lt (lt_of_le_of_lt (Nat.le_add_left k _) h), Nat.mod_eq_of_lt h]

theorem toNat_add_ofNat_sub (start : BitVec w) (hk : k < 2 ^ w) :
    (start + BitVec.ofNat w k - start).toNat = k := by
  rw [BitVec.add_comm, BitVec.add_sub_cancel, BitVec.toNat_ofNat, Nat.mod_eq_of_lt hk]

theorem eq_add_of_toNat_sub (h : (a - start).toNat = k) : a = start + BitVec.ofNat w k := by
  rw [← h, BitVec.ofNat_toNat, BitVec.setWidth_eq, BitVec.add_comm, BitVec.sub_add_cancel]

end PmakeOs.Lib
