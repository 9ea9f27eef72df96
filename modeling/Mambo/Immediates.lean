import Mathlib.Data.BitVec
import Mathlib.Tactic.NormNum
import Mathlib.Tactic.Common

namespace Mambo.Immediates

variable {w n k : Nat} {x d : BitVec w}

theorem ofNat_ne (hn : n < 2 ^ w) (hk : k < 2 ^ w) (hne : n ≠ k) : BitVec.ofNat w n ≠ BitVec.ofNat w k := by
  intro heq
  have hnat := congrArg BitVec.toNat heq
  rw [BitVec.toNat_ofNat, BitVec.toNat_ofNat, Nat.mod_eq_of_lt hn, Nat.mod_eq_of_lt hk] at hnat
  exact hne hnat

theorem dvd_toInt_sub_toNat (hn : n ≤ w) : ((2 ^ n : Nat) : Int) ∣ x.toInt - x.toNat := by
  have hpow : ((2 ^ n : Nat) : Int) ∣ ((2 ^ w : Nat) : Int) := by exact_mod_cast pow_dvd_pow 2 hn
  rw [BitVec.toInt_eq_toNat_cond]
  split
  · rw [sub_self]
    exact Int.dvd_zero _
  · rw [sub_right_comm, sub_self, zero_sub]
    exact Int.dvd_neg.mpr hpow

theorem signExtend_setWidth (hn : 0 < n) (hw : n ≤ w) (hlt : x.toInt < 2 ^ (n - 1)) (hge : -2 ^ (n - 1) ≤ x.toInt) :
    (x.setWidth n).signExtend w = x := by
  have hpow : ((2 ^ n : Nat) : Int) = 2 * 2 ^ (n - 1) := by
    rw [← Int.pow_succ', Nat.sub_add_cancel hn]
    norm_cast
  apply BitVec.eq_of_toInt_eq
  rw [BitVec.toInt_signExtend_of_le hw, BitVec.toInt_setWidth, Int.bmod_eq_iff (Nat.two_pow_pos n)]
  exact ⟨by omega, by omega, dvd_toInt_sub_toNat hw⟩

theorem toInt_dvd_of_low (hk : k ≤ w) (h : x.toNat % 2 ^ k = 0) : ((2 ^ k : Nat) : Int) ∣ x.toInt := by
  have hnat : ((2 ^ k : Nat) : Int) ∣ (x.toNat : Int) := by exact_mod_cast Nat.dvd_of_mod_eq_zero h
  have hsum := Int.dvd_add (dvd_toInt_sub_toNat (x := x) hk) hnat
  rwa [Int.sub_add_cancel] at hsum

theorem distance_eq (hn : 0 < n) (hk : k < w) (hw : n ≤ w) (hlow : d.toNat % 2 ^ k = 0)
    (hlt : d.toInt < 2 ^ (n - 1) * 2 ^ k) (hge : -(2 ^ (n - 1) * 2 ^ k) ≤ d.toInt) :
    ((d.sshiftRight k).setWidth n).signExtend w <<< k = d := by
  have hdvd := toInt_dvd_of_low (Nat.le_of_lt hk) hlow
  have hpos : (0 : Int) < 2 ^ k := by positivity
  have hq : (d.sshiftRight k).toInt = d.toInt / 2 ^ k := by
    rw [BitVec.toInt_sshiftRight, Int.shiftRight_eq_div_pow]
    norm_cast
  have htwo : BitVec.ofInt w (2 ^ k) = BitVec.twoPow w k := by
    apply BitVec.eq_of_toNat_eq
    rw [show (2 : Int) ^ k = ((2 ^ k : Nat) : Int) by norm_cast, BitVec.ofInt_natCast, BitVec.toNat_ofNat,
      BitVec.toNat_twoPow]
  have hshift : d.sshiftRight k * BitVec.twoPow w k = BitVec.ofInt w (d.toInt / 2 ^ k * 2 ^ k) := by
    rw [BitVec.ofInt_mul, ← hq, BitVec.ofInt_toInt, htwo]
  have hback : d.toInt / 2 ^ k * 2 ^ k = d.toInt := Int.ediv_mul_cancel (by exact_mod_cast hdvd)
  rw [signExtend_setWidth hn hw, BitVec.shiftLeft_eq_mul_twoPow, hshift, hback, BitVec.ofInt_toInt]
  · rw [hq]
    exact Int.ediv_lt_of_lt_mul hpos hlt
  · rw [hq]
    exact (Int.le_ediv_iff_mul_le hpos).mpr (by rw [Int.neg_mul]; exact hge)

theorem shiftRight_shiftLeft_toNat (x : BitVec w) : (x >>> k <<< k).toNat = x.toNat / 2 ^ k * 2 ^ k := by
  have hle : x.toNat / 2 ^ k * 2 ^ k ≤ x.toNat := Nat.div_mul_le_self _ _
  have hlt := x.isLt
  rw [BitVec.toNat_shiftLeft, BitVec.toNat_ushiftRight, Nat.shiftLeft_eq, Nat.shiftRight_eq_div_pow,
    Nat.mod_eq_of_lt (by omega)]

/-- A value from its upper bits, rounded, and its twelve lower bits, signed. -/
theorem high_add_low (hw : 12 ≤ w) (v : BitVec w) :
    (v + BitVec.ofNat w 2048) >>> 12 <<< 12 + (v.setWidth 12).signExtend w = v := by
  obtain ⟨m, rfl⟩ := Nat.exists_eq_add_of_le hw
  have hpow : 2 ^ (12 + m) = 4096 * 2 ^ m := Nat.pow_add 2 12 m
  have hlt := v.isLt
  have hpos := Nat.two_pow_pos m
  have hlow : (v.setWidth 12).signExtend (12 + m) = BitVec.ofInt (12 + m) (Int.bmod v.toNat 4096) := by
    rw [BitVec.signExtend, BitVec.toInt_setWidth]
  have hsum : (v + BitVec.ofNat (12 + m) 2048).toNat = v.toNat + 2048 ∨
      (v + BitVec.ofNat (12 + m) 2048).toNat + 4096 * 2 ^ m = v.toNat + 2048 := by
    rw [BitVec.toNat_add, BitVec.toNat_ofNat, Nat.add_mod_mod, hpow] at *
    rw [hpow] at hlt
    by_cases h : v.toNat + 2048 < 4096 * 2 ^ m
    · exact Or.inl (Nat.mod_eq_of_lt h)
    · right
      rw [Nat.mod_eq_sub_mod (by omega), Nat.mod_eq_of_lt (by omega)]
      omega
  have hhigh : (v + BitVec.ofNat (12 + m) 2048) >>> 12 <<< 12 =
      BitVec.ofInt (12 + m) (((v + BitVec.ofNat (12 + m) 2048).toNat / 4096 * 4096 : Nat) : Int) := by
    rw [BitVec.ofInt_natCast]
    apply BitVec.eq_of_toNat_eq
    have hle := (v + BitVec.ofNat (12 + m) 2048).isLt
    rw [shiftRight_shiftLeft_toNat, BitVec.toNat_ofNat, Nat.mod_eq_of_lt (by omega)]
    rfl
  have hmod : Int.bmod v.toNat 4096 = ((v.toNat + 2048) % 4096 : Nat) - 2048 := by
    rw [Int.bmod]
    omega
  have hvalue : BitVec.ofInt (12 + m) v.toNat = v := by
    rw [BitVec.ofInt_natCast, BitVec.ofNat_toNat, BitVec.setWidth_eq]
  have hwrap : BitVec.ofInt (12 + m) ((4096 * 2 ^ m : Nat) : Int) = 0 := by
    rw [BitVec.ofInt_natCast, ← hpow]
    apply BitVec.eq_of_toNat_eq
    rw [BitVec.toNat_ofNat, Nat.mod_self]
    rfl
  rw [hhigh, hlow, ← BitVec.ofInt_add, hmod]
  rcases hsum with h | h
  · rw [h, show (((v.toNat + 2048) / 4096 * 4096 : Nat) : Int) + (((v.toNat + 2048) % 4096 : Nat) - 2048) = v.toNat by
      omega, hvalue]
  · rw [show (((v + BitVec.ofNat (12 + m) 2048).toNat / 4096 * 4096 : Nat) : Int) +
        (((v.toNat + 2048) % 4096 : Nat) - 2048) = v.toNat - ((4096 * 2 ^ m : Nat) : Int) by omega,
      Int.sub_eq_add_neg, BitVec.ofInt_add, BitVec.ofInt_neg, hwrap, hvalue, neg_zero, add_zero]

end Mambo.Immediates
