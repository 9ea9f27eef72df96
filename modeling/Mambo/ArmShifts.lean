import Mambo.A32
import Mathlib.Data.BitVec
import Mathlib.Tactic.Ring

namespace Mambo.ArmShifts

open A32 (shiftImm)
open T32 (Word)

variable {shiftType : BitVec 2} {imm5 : BitVec 5} {d e : Word}

/-- `LSL #31` and `LSR #32`: what is shifted is its own negation. -/
def Symmetric (shiftType : BitVec 2) (imm5 : BitVec 5) : Prop :=
  shiftType = 0 ∧ imm5 = 31 ∨ shiftType = 1 ∧ imm5 = 0

instance : Decidable (Symmetric shiftType imm5) := inferInstanceAs (Decidable (_ ∨ _))

theorem symmetric_iff :
    (∀ c x, shiftImm shiftType imm5 c x = -shiftImm shiftType imm5 c x) ↔ Symmetric shiftType imm5 := by
  constructor
  · intro h
    have hall : ∀ (shiftType : BitVec 2) (imm5 : BitVec 5),
        shiftImm shiftType imm5 false (-1) = -shiftImm shiftType imm5 false (-1) → Symmetric shiftType imm5 := by
      decide
    exact hall shiftType imm5 (h false (-1))
  · rintro (⟨rfl, rfl⟩ | ⟨rfl, rfl⟩) c x
    · show x <<< 31 = -(x <<< 31)
      apply BitVec.eq_of_toNat_eq
      rw [BitVec.toNat_neg, BitVec.toNat_shiftLeft, Nat.shiftLeft_eq]
      omega
    · exact neg_zero.symm

def Carries (shiftType : BitVec 2) (imm5 : BitVec 5) (d e : Word) : Prop :=
  ∀ c x, shiftImm shiftType imm5 c (x + d) = shiftImm shiftType imm5 c x + e

theorem Carries.double (h : Carries shiftType imm5 d e) : Carries shiftType imm5 (d + d) (e + e) := by
  intro c x
  rw [← add_assoc, h, h, add_assoc]

theorem double_eq_zero (hd : d + d = 0) (hne : d ≠ 0) : d = 0x80000000 := by
  have htoNat : d.toNat ≠ 0 := fun h => hne (BitVec.eq_of_toNat_eq h)
  have hsum := congrArg BitVec.toNat hd
  rw [BitVec.toNat_add] at hsum
  have hlt := d.isLt
  apply BitVec.eq_of_toNat_eq
  show d.toNat = 2 ^ 31
  have hzero : (0 : Word).toNat = 0 := rfl
  omega

theorem Carries.half (h : Carries shiftType imm5 d e) (hne : d ≠ 0) : ∃ e', Carries shiftType imm5 0x80000000 e' := by
  have hrun : ∀ n (d e : Word), 2 ^ n * d = 0 → d ≠ 0 → Carries shiftType imm5 d e →
      ∃ e', Carries shiftType imm5 0x80000000 e' := by
    intro n
    induction n with
    | zero =>
      intro d e hzero hne
      rw [pow_zero, one_mul] at hzero
      exact absurd hzero hne
    | succ n ih =>
      intro d e hzero hne h
      by_cases hd : d + d = 0
      · exact ⟨e, double_eq_zero hd hne ▸ h⟩
      · refine ih (d + d) (e + e) ?_ hd h.double
        rw [← hzero]
        ring
  refine hrun 32 d e ?_ hne h
  rw [show (2 : Word) ^ 32 = 0 by decide, zero_mul]

theorem moves_iff : Carries shiftType imm5 d e ↔
    if d = 0 then e = 0 else shiftType = 0 ∧ e = d <<< imm5.toNat ∨ shiftType = 1 ∧ imm5 = 0 ∧ e = 0 := by
  split
  next hd =>
    subst hd
    constructor
    · intro h
      have hzero := h false 0
      rwa [add_zero, left_eq_add] at hzero
    · rintro rfl c x
      rw [add_zero, add_zero]
  next hne =>
    constructor
    · intro h
      obtain ⟨e', hhalf⟩ := h.half hne
      have hall : ∀ (shiftType : BitVec 2) (imm5 : BitVec 5), shiftImm shiftType imm5 false 0 =
          shiftImm shiftType imm5 false 0x80000000 +
            (shiftImm shiftType imm5 false 0x80000000 - shiftImm shiftType imm5 false 0) →
          shiftType = 0 ∨ shiftType = 1 ∧ imm5 = 0 := by
        decide
      have hfirst : shiftImm shiftType imm5 false 0x80000000 = shiftImm shiftType imm5 false 0 + e' := hhalf false 0
      have hsecond : shiftImm shiftType imm5 false 0 = shiftImm shiftType imm5 false 0x80000000 + e' :=
        hhalf false 0x80000000
      have hstart := h false 0
      rw [zero_add] at hstart
      rcases hall shiftType imm5 (by rwa [hfirst, add_sub_cancel_left, ← hfirst]) with rfl | ⟨rfl, rfl⟩
      · refine .inl ⟨rfl, ?_⟩
        have hzero : shiftImm 0 imm5 false 0 = 0 := BitVec.zero_shiftLeft _
        rw [hzero, zero_add] at hstart
        exact hstart.symm
      · refine .inr ⟨rfl, rfl, ?_⟩
        have hsum : (0 : Word) = 0 + e := hstart
        exact (hsum.trans (zero_add e)).symm
    · rintro (⟨rfl, rfl⟩ | ⟨rfl, rfl, rfl⟩) c x
      · show (x + d) <<< imm5.toNat = x <<< imm5.toNat + d <<< imm5.toNat
        exact BitVec.shiftLeft_add_distrib
      · rfl

end Mambo.ArmShifts
