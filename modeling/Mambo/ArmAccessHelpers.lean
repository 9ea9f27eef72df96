import Mambo.ArmLoadStore
import Mambo.ArmSafeFcalls

namespace Mambo.ArmAccessHelpers

open A32 (shiftImm)
open ArmLoadStore EmitResults
open T32 (Word Reg State sp pc)

section Helpers

variable {ι : Type*} (H : Helpers ι) (run : List ι → State → Option State)

def bytes (code : List ι) : Nat := (code.map H.emitters.size).sum

def Runs (code : List ι) (post : State → State → Prop) : Prop :=
  ∀ s, ∃ t, run code s = some t ∧ t.pc = s.pc + BitVec.ofNat 32 (bytes H code) ∧ t.flags = s.flags ∧ post s t

/-- The code sets a register, from the registers and the carry, and no other. -/
def Leaves (code : List ι) (reg : Reg) (f : (Reg → Word) → Bool → Word) : Prop :=
  Runs H run code fun s t => t.r = Function.update s.r reg (f s.r s.flags.c)

def Keeps (code : List ι) (changed : Reg → Prop) : Prop :=
  Runs H run code fun s t => ∀ r, ¬changed r → t.r r = s.r r

/-- The offsets that `emit_add_sub_i` takes. -/
def Fits (bound : Int) (d : BitVec 32) : Prop := -bound ≤ d.toInt ∧ d.toInt ≤ bound

instance (bound : Int) (d : BitVec 32) : Decidable (Fits bound d) := inferInstanceAs (Decidable (_ ∧ _))

/-- An index register with its sign, and the operand of its shift, as they are passed on. -/
def signedIndex (add : Bool) (rm : Reg) : Int := if add then rm.toNat else -rm.toNat

def shiftOperand (shiftType : BitVec 2) (imm5 : BitVec 5) : BitVec 32 :=
  imm5.setWidth 32 <<< 2 ||| shiftType.setWidth 32

def subtracts (add : Bool) (rm : Reg) : Prop := add = false ∧ rm ≠ 0

instance (add : Bool) (rm : Reg) : Decidable (subtracts add rm) := inferInstanceAs (Decidable (_ ∧ _))

def codedIndex (add : Bool) (rm : Reg) (shiftType : BitVec 2) (imm5 : BitVec 5) (carry : Bool) (x : Word) : Word :=
  if subtracts add rm then -shiftImm shiftType imm5 carry x else shiftImm shiftType imm5 carry x

structure Lawful (bound : Int) : Prop where
  bound_pos : 0xFFF ≤ bound
  nil : ∀ s, run [] s = some s
  append : ∀ is js s, run (is ++ js) s = (run is s).bind (run js)
  addSubI_same : ∀ reg, H.addSubI reg reg 0 = some (.ok [])
  addSubI : ∀ {reg rn d}, reg ≠ pc → rn ≠ pc → Fits bound d →
    ∃ code, H.addSubI reg rn d = some (.ok code) ∧ Leaves H run code reg fun r _ => r rn + d
  addSubI_fail : ∀ {reg rn d}, ¬Fits bound d → H.addSubI reg rn d = some .fail
  addSubShift : ∀ {reg rn rm} (add : Bool) (shiftType : BitVec 2) (imm5 : BitVec 5), reg ≠ pc → rn ≠ pc → rm ≠ pc →
    Leaves H run (H.addSubShift reg rn (signedIndex add rm) (shiftOperand shiftType imm5 &&& 3)
      ((shiftOperand shiftType imm5).sshiftRight 2)).code reg fun r c =>
        r rn + codedIndex add rm shiftType imm5 c (r rm)
  setReg : ∀ {reg} value, reg ≠ pc → Leaves H run (H.emitters.setReg reg.toNat value) reg fun _ _ => value
  saves : ∀ r : Reg, r = 0 ∨ r = 1 → ∃ before after, H.emitters.push (1 <<< r.toNat) = some before ∧
    H.emitters.pop (1 <<< r.toNat) = some after ∧ Keeps H run before (· = sp) ∧
      Keeps H run after fun k => k = sp ∨ k = r

end Helpers

section Arm

def runArm (is : List A32.Inst) (s : State) : Option State := some (A32.execAll is s)

theorem shiftOperand_fields : ∀ (shiftType : BitVec 2) (imm5 : BitVec 5),
    shiftOperand shiftType imm5 &&& 3 = shiftType.setWidth 32 ∧
      (shiftOperand shiftType imm5).sshiftRight 2 = imm5.setWidth 32 := by
  decide

theorem natAbs_signedIndex (add : Bool) (rm : Reg) : (signedIndex add rm).natAbs = rm.toNat := by
  cases add
  · exact Int.natAbs_neg _
  · rfl

theorem signedIndex_neg (add : Bool) (rm : Reg) : signedIndex add rm < 0 ↔ subtracts add rm := by
  have hne : rm ≠ 0 ↔ rm.toNat ≠ 0 := not_congr BitVec.toNat_inj.symm
  cases add
  · rw [signedIndex, subtracts, hne]
    simp only [Bool.false_eq_true, if_false, true_and]
    omega
  · rw [signedIndex, subtracts, hne]
    simp only [if_true, Bool.true_eq_false, false_and, iff_false]
    omega

theorem operand2_fields : ∀ (rm : Reg) (shiftType : BitVec 2) (imm5 : BitVec 5),
    let operand2 : BitVec 12 :=
      (BitVec.ofNat 32 rm.toNat ||| shiftType.setWidth 32 <<< 5 ||| imm5.setWidth 32 <<< 7 : BitVec 32).setWidth 12
    operand2.extractLsb' 0 4 = rm ∧ operand2.extractLsb' 5 2 = shiftType ∧ operand2.extractLsb' 7 5 = imm5 := by
  decide

theorem bytes_arm (code : List A32.Inst) : bytes arm code = 4 * code.length := by
  rw [bytes, show code.map arm.emitters.size = code.map fun _ => 4 from rfl, List.map_const', List.sum_replicate_nat,
    Nat.mul_comm]

theorem leaves_arm {code : List A32.Inst} {reg : Reg} {f : (Reg → Word) → Bool → Word}
    (h : ∀ s, A32.execAll code s = (s.set reg (f s.r s.flags.c)).goto (s.pc + BitVec.ofNat 32 (4 * code.length))) :
    Leaves arm runArm code reg f :=
  fun s => ⟨_, congrArg some (h s), by rw [bytes_arm]; rfl, rfl, rfl⟩

theorem arm_addSubI {reg rn : Reg} {d : BitVec 32} (hreg : reg ≠ pc) (hrn : rn ≠ pc) (hfits : Fits 0xFFFF d) :
    ∃ code, arm.addSubI reg rn d = some (.ok code) ∧ Leaves arm runArm code reg fun r _ => r rn + d := by
  have hcode : ∃ code, ArmAddSub.A32.emitAddSubI reg rn d = some (.ok code) := by
    by_cases hzero : d = 0
    · rw [ArmAddSub.A32.emitAddSubI, if_pos hzero]
      by_cases hsame : reg = rn
      · exact ⟨[], if_neg (not_not.mpr hsame)⟩
      · rw [if_pos hsame, ArmAddSub.A32.emitMov, if_pos ⟨hreg, hrn⟩]
        exact ⟨_, rfl⟩
    · obtain ⟨sub, n, -, -, heq, -⟩ := @ArmAddSub.A32.emitAddSubI_split reg rn d hzero hfits.1 hfits.2
      exact ⟨_, heq⟩
  obtain ⟨code, hcode⟩ := hcode
  refine ⟨code, hcode, leaves_arm fun s => ?_⟩
  have hmeets := (@ArmAddSub.A32.meets_iff_exact reg rn d).mpr (.inl hreg)
  rw [hcode, MeetsOrStops, meets_ok] at hmeets
  rw [hmeets s, ArmAddSub.setTo, if_neg hreg, A32.get_of_ne hrn]

theorem arm_addSubShift {reg rn rm : Reg} (add : Bool) (shiftType : BitVec 2) (imm5 : BitVec 5) (hreg : reg ≠ pc)
    (hrn : rn ≠ pc) (hrm : rm ≠ pc) : Leaves arm runArm (arm.addSubShift reg rn (signedIndex add rm)
      (shiftOperand shiftType imm5 &&& 3) ((shiftOperand shiftType imm5).sshiftRight 2)).code reg fun r c =>
        r rn + codedIndex add rm shiftType imm5 c (r rm) := by
  obtain ⟨htype, hshift⟩ := shiftOperand_fields shiftType imm5
  obtain ⟨hrm', htype', himm⟩ := operand2_fields rm shiftType imm5
  have hrange : ¬((imm5.setWidth 32).toNat > 31 ∨ (shiftType.setWidth 32).toNat > 3) := by
    have h5 := imm5.isLt
    have h2 := shiftType.isLt
    rw [BitVec.toNat_setWidth, BitVec.toNat_setWidth]
    omega
  show Leaves arm runArm (emitArmAddSubShift reg rn (signedIndex add rm) _ _).code reg _
  rw [htype, hshift, emitArmAddSubShift, if_neg hrange, natAbs_signedIndex]
  dsimp only
  refine leaves_arm fun s => ?_
  rw [codedIndex]
  by_cases hsub : subtracts add rm
  · rw [if_pos ((signedIndex_neg add rm).mpr hsub), if_pos hsub, Result.ok, A32.execAll_cons, A32.execAll_nil, A32.exec,
      A32.write_of_ne hreg, A32.shiftedReg, hrm', htype', himm, A32.get_of_ne hrn, A32.get_of_ne hrm, sub_eq_add_neg]
    rfl
  · rw [if_neg (mt (signedIndex_neg add rm).mp hsub), if_neg hsub, Result.ok, A32.execAll_cons, A32.execAll_nil,
      A32.exec, A32.write_of_ne hreg, A32.shiftedReg, hrm', htype', himm, A32.get_of_ne hrn, A32.get_of_ne hrm]
    rfl

theorem arm_lawful : Lawful arm runArm 0xFFFF where
  bound_pos := by decide
  nil s := rfl
  append is js s := by rw [runArm, A32.execAll_append]; rfl
  addSubI_same reg := by
    show ArmAddSub.A32.emitAddSubI reg reg 0 = _
    rw [ArmAddSub.A32.emitAddSubI, if_pos rfl, if_neg (not_not.mpr rfl)]
  addSubI := arm_addSubI
  addSubI_fail {reg rn d} hfits := by
    have hzero : d ≠ 0 := by
      rintro rfl
      exact hfits ⟨by decide, by decide⟩
    rw [Fits] at hfits
    exact (if_neg hzero).trans (if_pos (by omega))
  addSubShift := arm_addSubShift
  setReg {reg} value hreg := by
    show Leaves arm runArm (SafeFcalls.armCopyToReg32bit (BitVec.ofNat 4 reg.toNat) value) reg _
    rw [BitVec.ofNat_toNat, BitVec.setWidth_eq]
    exact leaves_arm fun s => ArmSafeFcalls.copy_exec hreg
  saves r hr := by
    refine ⟨_, _, rfl, rfl, fun s => ⟨_, rfl, rfl, rfl, fun k hk => State.set_r_of_ne hk⟩, ?_⟩
    have hregs : T32.regsOf (((1 <<< r.toNat : Nat) : BitVec 32).setWidth 16) = [r] := by
      rcases hr with rfl | rfl <;> decide
    have hbit : ¬((1 <<< r.toNat : Nat) : BitVec 32).getLsbD 13 = true := by rcases hr with rfl | rfl <;> decide
    have hpc : pc ∉ [r] := by rcases hr with rfl | rfl <;> decide
    have hsp : sp ∉ [r] := by rcases hr with rfl | rfl <;> decide
    refine fun s => ⟨_, rfl, ?_⟩
    rw [A32.execAll_cons, A32.execAll_nil, A32.exec, hregs, if_neg hbit, T32.ldm, T32.loadMultiple, if_neg hpc,
      if_pos ⟨rfl, hsp⟩]
    refine ⟨rfl, rfl, fun k hk => ?_⟩
    obtain ⟨hsp, hr⟩ := not_or.mp hk
    exact (State.set_r_of_ne hr).trans (State.set_r_of_ne hsp)

end Arm

section Thumb

theorem leaves_thumb {code : List T32Plugin.Inst} {reg : Reg} {f : (Reg → Word) → Bool → Word}
    (h : ∀ s, T32Plugin.execAll code s =
      some ((s.set reg (f s.r s.flags.c)).goto (s.pc + BitVec.ofNat 32 (ArmAddSub.T32.codeBytes code)))) :
    Leaves thumb T32Plugin.execAll code reg f :=
  fun s => ⟨_, h s, rfl, rfl, rfl⟩

theorem thumb_addSubI {reg rn : Reg} {d : BitVec 32} (hreg : reg ≠ pc) (hrn : rn ≠ pc) (hfits : Fits 0xFFF d) :
    ∃ code, thumb.addSubI reg rn d = some (.ok code) ∧ Leaves thumb T32Plugin.execAll code reg fun r _ => r rn + d := by
  have hcode : ∃ code, ArmAddSub.T32.emitAddSubI reg rn d = some (.ok code) := by
    by_cases hzero : d = 0
    · rw [ArmAddSub.T32.emitAddSubI, if_pos hzero]
      by_cases hsame : reg = rn
      · exact ⟨[], if_neg (not_not.mpr hsame)⟩
      · rw [if_pos hsame, ArmAddSub.T32.emitMov, if_pos ⟨hreg, hrn⟩]
        exact ⟨_, rfl⟩
    · obtain ⟨i, heq, -⟩ := @ArmAddSub.T32.emitAddSubI_split reg rn d hzero hfits.1 hfits.2
      exact ⟨_, heq⟩
  obtain ⟨code, hcode⟩ := hcode
  refine ⟨code, hcode, leaves_thumb fun s => ?_⟩
  have hmeets := (@ArmAddSub.T32.meets_iff_exact reg rn d).mpr (.inl ⟨hreg, hrn⟩)
  rw [hcode, MeetsOrStops, meets_ok] at hmeets
  rw [hmeets s, ArmAddSub.setTo, if_neg hreg, State.get_of_ne hrn]

theorem thumb_addSubShift {reg rn rm : Reg} (add : Bool) (shiftType : BitVec 2) (imm5 : BitVec 5) (hreg : reg ≠ pc)
    (hrn : rn ≠ pc) (hrm : rm ≠ pc) : Leaves thumb T32Plugin.execAll (thumb.addSubShift reg rn (signedIndex add rm)
      (shiftOperand shiftType imm5 &&& 3) ((shiftOperand shiftType imm5).sshiftRight 2)).code reg fun r c =>
        r rn + codedIndex add rm shiftType imm5 c (r rm) := by
  obtain ⟨htype, hshift⟩ := shiftOperand_fields shiftType imm5
  have hrange : ¬((imm5.setWidth 32).toNat > 31 ∨ (shiftType.setWidth 32).toNat > 3) := by
    have h5 := imm5.isLt
    have h2 := shiftType.isLt
    rw [BitVec.toNat_setWidth, BitVec.toNat_setWidth]
    omega
  have himm : ∀ imm5 : BitVec 5,
      ((imm5.setWidth 32 >>> 2).setWidth 3 ++ (imm5.setWidth 32 : BitVec 32).setWidth 2 : BitVec 5) = imm5 := by decide
  have htype' : ∀ shiftType : BitVec 2, (shiftType.setWidth 32 : BitVec 32).setWidth 2 = shiftType := by decide
  have hopen : ¬(reg = pc ∨ rn = pc ∨ rm = pc) := by simp [hreg, hrn, hrm]
  show Leaves thumb T32Plugin.execAll (emitThumbAddSubShift reg rn (signedIndex add rm) _ _).code reg _
  rw [htype, hshift, emitThumbAddSubShift, if_neg hrange, natAbs_signedIndex, htype', BitVec.ofNat_toNat,
    BitVec.setWidth_eq]
  dsimp only
  refine leaves_thumb fun s => ?_
  rw [codedIndex]
  by_cases hsub : subtracts add rm
  · rw [if_pos ((signedIndex_neg add rm).mpr hsub), if_pos hsub, Result.ok, T32Plugin.execAll_cons, T32Plugin.exec,
      if_neg hopen, himm, sub_eq_add_neg]
    rfl
  · rw [if_neg (mt (signedIndex_neg add rm).mp hsub), if_neg hsub, Result.ok, T32Plugin.execAll_cons, T32Plugin.exec,
      if_neg hopen, himm]
    rfl

theorem thumb_setReg {reg : Reg} (value : Word) (hreg : reg ≠ pc) :
    Leaves thumb T32Plugin.execAll (SafeFcalls.thumbCopyToReg32bit reg value) reg fun _ _ => value := by
  rw [SafeFcalls.thumbCopyToReg32bit]
  split
  next hsmall =>
    refine leaves_thumb fun s => ?_
    show some ((s.set reg _).goto (s.pc + 4)) = _
    rw [ArmSafeFcalls.movw_thumb, ArmSafeFcalls.small_value hsmall]
    rfl
  next =>
    refine leaves_thumb fun s => ?_
    refine (ArmSafeFcalls.execAll_thumb _ s).trans ?_
    rw [T32Emit.performAll_copy hreg]
    rfl

theorem thumb_lawful : Lawful thumb T32Plugin.execAll 0xFFF where
  bound_pos := by decide
  nil s := rfl
  append is js s := T32Plugin.execAll_append
  addSubI_same reg := by
    show ArmAddSub.T32.emitAddSubI reg reg 0 = _
    rw [ArmAddSub.T32.emitAddSubI, if_pos rfl, if_neg (not_not.mpr rfl)]
  addSubI := thumb_addSubI
  addSubI_fail {reg rn d} hfits := by
    have hzero : d ≠ 0 := by
      rintro rfl
      exact hfits ⟨by decide, by decide⟩
    rw [Fits] at hfits
    exact (if_neg hzero).trans (if_pos (by omega))
  addSubShift := thumb_addSubShift
  setReg {reg} value hreg := by
    show Leaves thumb T32Plugin.execAll (SafeFcalls.thumbCopyToReg32bit (BitVec.ofNat 4 reg.toNat) value) reg _
    rw [BitVec.ofNat_toNat, BitVec.setWidth_eq]
    exact thumb_setReg value hreg
  saves r hr := by
    have hshape : thumb.emitters.push (1 <<< r.toNat) =
          some [.core (.push16 (((1 : BitVec 32) <<< r.toNat).setWidth 9))] ∧
        thumb.emitters.pop (1 <<< r.toNat) = some [.core (.pop16 (((1 : BitVec 32) <<< r.toNat).setWidth 9))] := by
      rcases hr with rfl | rfl <;> decide
    have hregs : ∀ high, T32.regs16 high (((1 : BitVec 32) <<< r.toNat).setWidth 9) = [r] := by
      rcases hr with rfl | rfl <;> decide
    have hpc : pc ∉ [r] := by rcases hr with rfl | rfl <;> decide
    refine ⟨_, _, hshape.1, hshape.2, fun s => ?_, fun s => ?_⟩
    · exact ⟨_, ArmSafeFcalls.perform_push16 (hregs _) s, rfl, rfl, fun k hk => State.set_r_of_ne hk⟩
    · refine ⟨_, ArmSafeFcalls.perform_pop16 (hregs _) hpc s, rfl, rfl, fun k hk => ?_⟩
      obtain ⟨hsp, hr⟩ := not_or.mp hk
      exact (State.set_r_of_ne hr).trans (State.set_r_of_ne hsp)

end Thumb

end Mambo.ArmAccessHelpers
