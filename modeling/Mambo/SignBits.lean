import Mathlib.Data.BitVec
import Mathlib.Tactic.Common

namespace Mambo.SignBits

/-- `sign_extend32` and `sign_extend64`, on the bits below the given one. -/
def signExtendBits {n : Nat} (bits : Nat) (value : BitVec n) : BitVec n :=
  let c : BitVec n := (-1 : BitVec n) <<< (bits - 1)
  (value + c) ^^^ c

theorem getLsbD_ones_shiftLeft {n k i : Nat} (hi : i < n) :
    ((-1 : BitVec n) <<< k).getLsbD i = decide (k ≤ i) := by
  rw [BitVec.getLsbD_shiftLeft, show (-1 : BitVec n) = BitVec.allOnes n from BitVec.neg_one_eq_allOnes]
  by_cases hk : i < k
  · simp [hk]
  · simp [hk, hi, show i - k < n by omega, Nat.le_of_not_lt hk]

theorem signExtendBits_eq {n bits : Nat} {v : BitVec n} (hb : 0 < bits) (hn : bits ≤ n) (hv : v.toNat < 2 ^ bits) :
    signExtendBits bits v = (v.setWidth bits).signExtend n := by
  obtain ⟨b, rfl⟩ : ∃ b, bits = b + 1 := ⟨bits - 1, by omega⟩
  have hsign : (v.setWidth (b + 1)).msb = v.getLsbD b := by
    rw [BitVec.msb_eq_getLsbD_last, BitVec.getLsbD_setWidth]
    simp
  have hhigh : ∀ i, b + 1 ≤ i → v.getLsbD i = false := fun i hi =>
    Nat.testBit_lt_two_pow (lt_of_lt_of_le hv (Nat.pow_le_pow_right (by omega) hi))
  apply BitVec.eq_of_getLsbD_eq
  intro i hi
  rw [signExtendBits, Nat.add_sub_cancel, BitVec.getLsbD_xor, getLsbD_ones_shiftLeft hi, BitVec.getLsbD_signExtend, hsign,
    BitVec.getLsbD_setWidth]
  by_cases hbit : v.getLsbD b = true
  · have hsum : v + (-1 : BitVec n) <<< b = v ^^^ BitVec.twoPow n b := by
      have hclear : (v ^^^ BitVec.twoPow n b) + BitVec.twoPow n b = v := by
        rw [BitVec.add_eq_or_of_and_eq_zero]
        · apply BitVec.eq_of_getLsbD_eq
          intro j hj
          rw [BitVec.getLsbD_or, BitVec.getLsbD_xor, BitVec.getLsbD_twoPow]
          by_cases hj : b = j
          · simp [← hj, hbit, show b < n by omega]
          · simp [hj]
        · apply BitVec.eq_of_getLsbD_eq
          intro j hj
          simp only [BitVec.getLsbD_and, BitVec.getLsbD_xor, BitVec.getLsbD_twoPow, BitVec.getLsbD_zero]
          by_cases hj : b = j
          · simp [← hj, hbit, show b < n by omega]
          · simp [hj]
      have hones : (-1 : BitVec n) <<< b = -BitVec.twoPow n b := by
        rw [BitVec.shiftLeft_eq_mul_twoPow, show (-1 : BitVec n) = -1#n from rfl, BitVec.neg_mul, BitVec.one_mul]
      nth_rewrite 1 [← hclear]
      rw [hones, BitVec.add_assoc, BitVec.add_right_neg, BitVec.add_zero]
    rw [hsum, BitVec.getLsbD_xor, BitVec.getLsbD_twoPow, hbit]
    by_cases hlt : i < b
    · simp [hi, show i < b + 1 by omega, show ¬b ≤ i by omega, show ¬b = i by omega]
    · by_cases heq : b = i
      · simp [← heq, show b < n by omega]
      · rw [hhigh i (by omega)]
        simp [hi, show ¬i < b + 1 by omega, show b ≤ i by omega, heq]
  · rw [Bool.not_eq_true] at hbit
    have hapart : v &&& (-1 : BitVec n) <<< b = 0 := by
      apply BitVec.eq_of_getLsbD_eq
      intro j hj
      simp only [BitVec.getLsbD_and, BitVec.ofNat_eq_ofNat, BitVec.getLsbD_zero]
      rcases lt_trichotomy j b with hlt | heq | hgt
      · simp [show ¬b ≤ j by omega]
      · simp [heq, hbit]
      · simp [hhigh j hgt]
    rw [BitVec.add_eq_or_of_and_eq_zero _ _ hapart, BitVec.getLsbD_or, getLsbD_ones_shiftLeft hi, hbit]
    rcases lt_trichotomy i b with hlt | heq | hgt
    · simp [hi, show i < b + 1 by omega, show ¬b ≤ i by omega]
    · simp [heq, hbit]
    · simp [show ¬i < b + 1 by omega, hhigh i hgt]

theorem signExtendBits_setWidth {n bits : Nat} (v : BitVec bits) (hb : 0 < bits) (hn : bits ≤ n) :
    signExtendBits bits (v.setWidth n) = v.signExtend n := by
  have hlt := v.isLt
  have hpow : 2 ^ bits ≤ 2 ^ n := Nat.pow_le_pow_right (by decide) hn
  rw [signExtendBits_eq hb hn (by rw [BitVec.toNat_setWidth, Nat.mod_eq_of_lt (by omega)]; exact hlt),
    BitVec.setWidth_setWidth_of_le _ hn, BitVec.setWidth_eq]

end Mambo.SignBits
