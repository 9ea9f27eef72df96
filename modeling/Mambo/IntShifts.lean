import Mathlib.Data.BitVec
import Mathlib.Data.Nat.Basic

namespace Mambo.IntShifts

/-- `1 << i` is an `int`; C leaves it undefined from 32 on. -/
def oneShl (undefined : Nat → BitVec 32) (i : Nat) : BitVec 32 :=
  if i < 32 then (1 : BitVec 32) <<< i else undefined i

/-- What the processors make of an undefined shift: its amount modulo the width. -/
def oneShlWord (i : Nat) : BitVec 32 := (1 : BitVec 32) <<< (i % 32)

/-- `v & (1 << i)`, the `int` extended by its sign to 64 bits. -/
def maskBit (undefined : Nat → BitVec 32) (v : BitVec 64) (i : Nat) : Bool :=
  v &&& (oneShl undefined i).signExtend 64 != 0

variable {undefined : Nat → BitVec 32} {v : BitVec 64} {i : Nat}

theorem and_twoPow_ne_zero {w : Nat} {v : BitVec w} (h : i < w) : (v &&& BitVec.twoPow w i != 0) = v.getLsbD i := by
  rw [BitVec.and_twoPow]
  cases v.getLsbD i with
  | false => simp
  | true =>
      have hne : BitVec.twoPow w i ≠ 0 := fun heq => by
        have hbit := congrArg (fun x : BitVec w => x.getLsbD i) heq
        simp [h] at hbit
      simpa using hne

theorem maskBit_of_lt (h : i < 31) : maskBit undefined v i = v.getLsbD i := by
  have hext : ∀ i < 31, ((1 : BitVec 32) <<< i).signExtend 64 = BitVec.twoPow 64 i := by decide
  rw [maskBit, oneShl, if_pos (by omega), hext i h, and_twoPow_ne_zero (by omega)]

/-- Bit 31 of an `int` is its sign. -/
theorem maskBit_sign : maskBit undefined v 31 = (v >>> 31 != 0) := by
  have hext : ((1 : BitVec 32) <<< 31).signExtend 64 = 0xFFFFFFFF80000000 := by decide
  have hones : ∀ j < 64, (0xFFFFFFFF80000000 : BitVec 64).getLsbD j = decide (31 ≤ j) := by decide
  have hhigh : v &&& (0xFFFFFFFF80000000 : BitVec 64) = v >>> 31 <<< 31 := by
    ext j hj
    rw [BitVec.getElem_and, ← BitVec.getLsbD_eq_getElem, ← BitVec.getLsbD_eq_getElem, hones j hj,
      BitVec.getElem_shiftLeft]
    by_cases hlow : j < 31
    · simp [hlow]
    · simp [hlow, Nat.not_lt.mp hlow]
  rw [maskBit, oneShl, if_pos (by decide), hext, hhigh]
  have hzero : v >>> 31 <<< 31 = 0 ↔ v >>> 31 = 0 := by bv_omega
  rw [bne, bne, Bool.not_inj_iff, Bool.eq_iff_iff, beq_iff_eq, beq_iff_eq, hzero]

end Mambo.IntShifts
