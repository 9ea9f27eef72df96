import Mambo.A64AddSub
import Mambo.ArmAddSub
import Mambo.RvAddSub

namespace Mambo.AddSubImm

open EmitResults

/-- On each instruction set, when `emit_add_sub_i` does what it returns: with the counter left out on A32 and T32,
but for moves to the stack pointer on AArch64, and for the immediates of addi on RISC-V. -/
theorem emitAddSubI_meets_iff (offset : BitVec 32) :
    (∀ rd rn, MeetsOrStops (ArmAddSub.A32.Sets rd rn offset) (ArmAddSub.A32.emitAddSubI rd rn offset) ↔
      ArmAddSub.A32.Exact rd rn offset) ∧
    (∀ rd rn, MeetsOrStops (ArmAddSub.T32.Sets rd rn offset) (ArmAddSub.T32.emitAddSubI rd rn offset) ↔
      ArmAddSub.T32.Exact rd rn offset) ∧
    (∀ rd rn, Meets (A64AddSub.Sets rd rn offset) (A64AddSub.emitAddSubI rd rn offset) ↔
      A64AddSub.Exact rd rn offset) ∧
    ∀ rd rn, Meets (RvAddSub.Sets rd rn offset) (RvAddSub.emitAddSubI rd rn offset) ↔ RvAddSub.ExactI rd offset :=
  ⟨fun _ _ => ArmAddSub.A32.meets_iff_exact, fun _ _ => ArmAddSub.T32.meets_iff_exact,
    fun _ _ => A64AddSub.meets_iff_exact, fun _ _ => RvAddSub.meets_iff_exactI⟩

/-- A move of x0 to the stack pointer on AArch64, and an addition of -0x900 on RISC-V. -/
theorem emitAddSubI_wrong :
    ¬Meets (A64AddSub.Sets A64AddSub.sp 0 0) (A64AddSub.emitAddSubI A64AddSub.sp 0 0) ∧
      ¬Meets (RvAddSub.Sets 10 11 (-0x900)) (RvAddSub.emitAddSubI 10 11 (-0x900)) := by
  refine ⟨A64AddSub.not_sets_of_sp rfl (by decide), fun h => ?_⟩
  obtain h | h := RvAddSub.meets_iff_exactI.mp h
  · exact absurd h (by decide)
  · exact h (by decide)

end Mambo.AddSubImm
