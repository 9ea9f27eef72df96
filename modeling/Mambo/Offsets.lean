import Mathlib.Data.BitVec
import Mathlib.Tactic.Common

namespace Mambo.Offsets

variable {offset : BitVec 32}

theorem msb_of_nonneg (h : 0 ≤ offset.toInt) : offset.msb = false := by
  rw [BitVec.msb_eq_toInt]
  simpa using h

theorem toNat_of_nonneg (h : 0 ≤ offset.toInt) : (offset.toNat : Int) = offset.toInt :=
  (BitVec.toInt_eq_toNat_of_msb (msb_of_nonneg h)).symm

theorem toNat_neg (h : offset.toInt < 0) (hge : -2 ^ 31 < offset.toInt) : ((-offset).toNat : Int) = -offset.toInt := by
  have hint : (-offset).toInt = -offset.toInt := by
    rw [BitVec.toInt_neg, Int.bmod_eq_of_le (by omega) (by omega)]
  rw [← hint]
  exact toNat_of_nonneg (by omega)

end Mambo.Offsets
