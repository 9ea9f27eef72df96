import Mambo.AccessSizeExact
import Mambo.ArmAccessHelpers

namespace Mambo.ArmAccessModes

open A32 (shiftImm)
open AccessSize (listBytes)
open ArmAccessHelpers ArmLoadStore EmitResults
open T32 (Word Reg State sp pc)

section Modes

/-- A base register and an offset, or an index register that is shifted and added or subtracted. -/
inductive Mode
  | offset (rn : Reg) (d : Word)
  | index (rn : Reg) (add : Bool) (rm : Reg) (shiftType : BitVec 2) (imm5 : BitVec 5)
  deriving DecidableEq

/-- The address of the first byte, from the registers of the program and what the counter reads as. -/
def Mode.address (pcBase : Word) (carry : Bool) (r : Reg → Word) : Mode → Word
  | .offset rn d => (if rn = pc then pcBase else r rn) + d
  | .index rn add rm shiftType imm5 =>
    let x := shiftImm shiftType imm5 carry (r rm)
    (if rn = pc then pcBase else r rn) + if add then x else -x

def displacement (up : Bool) (n : Nat) : Word := if up then BitVec.ofNat 32 n else -BitVec.ofNat 32 n

def baseMode (rn : Reg) (d : Word) : Option Mode := if rn = pc then none else some (.offset rn d)

def indexMode (rn : Reg) (add : Bool) (rm : Reg) (shiftType : BitVec 2) (imm5 : BitVec 5) : Option Mode :=
  if rm = pc then none else some (.index rn add rm shiftType imm5)

/-- The mode of a T32 instruction, none where no address is computed or defined. -/
def thumbMode : ThumbInst → Option Mode
  | .multiple16 _ rn _ => some (.offset (rn.setWidth 4) 0)
  | .reg16 _ rm rn => indexMode (rn.setWidth 4) true (rm.setWidth 4) 0 0
  | .imm16 i imm5 rn => some (.offset (rn.setWidth 4) (displacement true (i.getSize * imm5.toNat)))
  | .ldrPc16 imm8 => some (.offset pc (displacement true (4 * imm8.toNat)))
  | .sp16 _ imm8 => some (.offset sp (displacement true (4 * imm8.toNat)))
  | .pop16 _ | .vpop .. => some (.offset sp 0)
  | .push16 reg => some (.offset sp (displacement false (listBytes reg)))
  | .multiple32 .ldmea rn reglist | .multiple32 .stmfd rn reglist =>
      baseMode rn (displacement false (listBytes reglist))
  | .multiple32 .ldmfd rn _ | .multiple32 .stmea rn _ => baseMode rn 0
  | .reg32 _ rn shift rm => indexMode rn true rm 0 (shift.setWidth 5)
  | .imm8 _ rn imm8 preIndex upwards => some (.offset rn (if preIndex then displacement upwards imm8.toNat else 0))
  | .imm12 _ rn imm12 => some (.offset rn (displacement true imm12.toNat))
  | .double _ preIndex upwards rn imm8 =>
      some (.offset rn (if preIndex then displacement upwards (4 * imm8.toNat) else 0))
  | .literal _ imm12 upwards => some (.offset pc (displacement upwards imm12.toNat))
  | .vpush _ regs => some (.offset sp (displacement false (4 * regs.toNat)))
  | .exclusive32 _ rn imm8 => baseMode rn (displacement true (4 * imm8.toNat))
  | .vfpMultiple _ _ p upwards rn imm8 =>
      if p = upwards then none else baseMode rn (if upwards then 0 else displacement false (4 * imm8.toNat))
  | .vfpSingle _ _ upwards rn imm8 => some (.offset rn (displacement upwards (4 * imm8.toNat)))
  | .exclusive _ _ rn | .neonMultiple _ _ rn | .neonOne _ _ _ rn | .neonAll _ _ rn => baseMode rn 0
  | .coprocessor _ | .other => none

/-- Of the words of a list, the base is the first, the one before it, the last or the one behind it. -/
def multipleOffset (p u : Bool) (bytes : Nat) : Word :=
  match u, p with
  | true, false => 0
  | true, true => 4
  | false, false => 4 - BitVec.ofNat 32 bytes
  | false, true => -BitVec.ofNat 32 bytes

/-- The mode of an A32 instruction, none where no address is computed or defined. -/
def armMode : ArmInst → Option Mode
  | .single _ registerOffset rn operand2 p u =>
      if p = false then some (.offset rn 0)
      else if registerOffset then
        indexMode rn u (operand2.extractLsb' 0 4) (operand2.extractLsb' 5 2) (operand2.extractLsb' 7 5)
      else some (.offset rn (displacement u operand2.toNat))
  | .half _ immediate rn rmImm4l imm4h p u =>
      if p = false then some (.offset rn 0)
      else if immediate then some (.offset rn (displacement u (imm4h ++ rmImm4l).toNat))
      else indexMode rn u rmImm4l 0 0
  | .multiple _ rn registers p u => baseMode rn (multipleOffset p u (listBytes registers))
  | .vfpMultiple _ _ p u rn imm8 =>
      if p = u then none
      else if u then some (.offset rn 0)
      else baseMode rn (displacement false (4 * imm8.toNat))
  | .vfpSingle _ _ u rn imm8 => some (.offset rn (displacement u (4 * imm8.toNat)))
  | .exclusive _ _ rn | .neonMultiple _ _ rn | .neonOne _ _ _ rn | .neonAll _ _ rn => baseMode rn 0
  | .coprocessor _ | .other => none

end Modes

section Decoding

/-- What `_generate_addr` is called with. -/
def codeFor {ι : Type*} (H : Helpers ι) (readAddress : Word) (count : Int) (reg : Reg) : Mode → Option (List ι)
  | .offset rn d => generateAddr H readAddress count reg rn regInvalid d
  | .index rn add rm shiftType imm5 =>
      generateAddr H readAddress count reg rn (signedIndex add rm) (shiftOperand shiftType imm5)

theorem count_words {n : Nat} (hn : n ≤ 32) (reglist : BitVec n) :
    count reglist <<< 2 = BitVec.ofNat 32 (listBytes reglist) := by
  rw [count, AccessSizeExact.countBits_setWidth hn, listBytes]
  apply BitVec.eq_of_toNat_eq
  rw [BitVec.toNat_shiftLeft, BitVec.toNat_ofNat, BitVec.toNat_ofNat, Nat.shiftLeft_eq, Nat.mod_mul_mod]
  rw [Nat.mul_comm]

theorem ofNat_setWidth {n : Nat} (imm : BitVec n) : BitVec.ofNat 32 imm.toNat = imm.setWidth 32 := by
  rw [BitVec.ofNat_toNat]

theorem shiftLeft_two {n : Nat} (imm : BitVec n) : imm.setWidth 32 <<< 2 = BitVec.ofNat 32 (4 * imm.toNat) := by
  apply BitVec.eq_of_toNat_eq
  rw [BitVec.toNat_shiftLeft, BitVec.toNat_setWidth, BitVec.toNat_ofNat, Nat.shiftLeft_eq, Nat.mod_mul_mod,
    Nat.mul_comm]

theorem signed_eq {n : Nat} (imm : BitVec n) (up : Bool) : signed imm up = displacement up imm.toNat := by
  cases up <;> simp [signed, displacement, BitVec.ofNat_toNat]

theorem signed_words (imm8 : BitVec 8) (up : Bool) : signed imm8 up <<< 2 = displacement up (4 * imm8.toNat) := by
  revert imm8 up
  decide

theorem signed_append (imm8 : BitVec 8) (up : Bool) : signed (imm8 ++ 0#2) up = displacement up (4 * imm8.toNat) := by
  revert imm8 up
  decide

/-- What the code adds: for a transfer that decrements, it counts the bits of the number of words. -/
def coded (inst : ThumbInst) (m : Mode) : Mode :=
  match inst with
  | .vfpMultiple _ _ _ false rn imm8 => .offset rn (-count imm8 * 4)
  | _ => m

variable {readAddress : Word} {count : Int} {reg : Reg} {m : Mode}

theorem literal_code {ι : Type*} {H : Helpers ι} {run : List ι → State → Option State} {bound : Int}
    (hH : Lawful H run bound) (d : Word) : codeFor H readAddress count reg (.offset pc d) =
      some (H.emitters.setReg reg.toNat (readAddrToPc readAddress + d)) := by
  have hlt := reg.isLt
  have hconstant : Constant regInvalid := Or.inr (le_refl _)
  rw [codeFor, generateAddr, if_neg (by decide), if_pos rfl, if_pos hconstant, if_pos hconstant,
    if_neg (by rw [regInvalid]; omega), generateSum, if_pos hconstant, add_zero, hH.addSubI_same]
  exact congrArg some (List.append_nil _)

theorem base_eq {rn : Reg} {d : Word} (hmode : baseMode rn d = some m) : m = .offset rn d := by
  rw [baseMode] at hmode
  split at hmode
  · cases hmode
  · exact (Option.some.inj hmode).symm

theorem index_eq {rn rm : Reg} {add : Bool} {shiftType : BitVec 2} {imm5 : BitVec 5}
    (hmode : indexMode rn add rm shiftType imm5 = some m) : m = .index rn add rm shiftType imm5 ∧ rm ≠ pc := by
  rw [indexMode] at hmode
  split at hmode
  · cases hmode
  next hrm => exact ⟨(Option.some.inj hmode).symm, hrm⟩

theorem thumbCalcLdStAddr_eq {inst : ThumbInst} (hmode : thumbMode inst = some m) :
    thumbCalcLdStAddr readAddress count inst reg = (codeFor thumb readAddress count reg (coded inst m)).map .ok := by
  have hoffset {rn : Reg} {d d' : Word} (heq : d = d') :
      (generateAddr thumb readAddress count reg rn regInvalid d).map Result.ok =
        (codeFor thumb readAddress count reg (.offset rn d')).map .ok := by
    rw [heq]
    rfl
  have hindex {rn rm : Reg} {k : Nat} {d : Word} {imm5 : BitVec 5} (hk : k = rm.toNat) (heq : d = shiftOperand 0 imm5) :
      (generateAddr thumb readAddress count reg rn k d).map Result.ok =
        (codeFor thumb readAddress count reg (.index rn true rm 0 imm5)).map .ok := by
    rw [hk, heq]
    rfl
  cases inst with
  | coprocessor => cases hmode
  | other => cases hmode
  | reg16 i rm rn =>
    obtain ⟨rfl, -⟩ := index_eq hmode
    exact hindex (by rw [BitVec.toNat_setWidth_of_le (by decide)]) (by decide)
  | reg32 i rn shift rm =>
    obtain ⟨rfl, -⟩ := index_eq hmode
    have hall : ∀ shift : BitVec 2, shift.setWidth 32 <<< 2 = shiftOperand 0 (shift.setWidth 5) := by decide
    exact hindex rfl (hall shift)
  | imm16 i imm5 rn =>
    obtain rfl := Option.some.inj hmode
    have hall : ∀ (i : Plain) (imm5 : BitVec 5),
        imm5.setWidth 32 <<< i.shift = displacement true (i.getSize * imm5.toNat) := by
      intro i
      cases i <;> decide
    exact hoffset (hall i imm5)
  | ldrPc16 imm8 =>
    obtain rfl := Option.some.inj hmode
    show _ = (codeFor thumb readAddress count reg (.offset pc _)).map _
    rw [literal_code thumb_lawful, thumbCalcLdStAddr, shiftLeft_two]
    rfl
  | literal i imm12 upwards =>
    obtain rfl := Option.some.inj hmode
    show _ = (codeFor thumb readAddress count reg (.offset pc _)).map _
    rw [literal_code thumb_lawful, thumbCalcLdStAddr, signed_eq]
    rfl
  | sp16 load imm8 =>
    obtain rfl := Option.some.inj hmode
    exact hoffset (shiftLeft_two imm8)
  | push16 regs =>
    obtain rfl := Option.some.inj hmode
    exact hoffset (congrArg Neg.neg (count_words (by decide) regs))
  | multiple32 i rn regs =>
    have hwords := congrArg Neg.neg (count_words (by decide) regs)
    cases i <;> obtain rfl := base_eq hmode
    · exact hoffset hwords
    · exact hoffset neg_zero
    · exact hoffset neg_zero
    · exact hoffset hwords
  | imm8 i rn imm8 preIndex upwards =>
    obtain rfl := Option.some.inj hmode
    exact hoffset (by rw [signed_eq])
  | imm12 i rn imm12 =>
    obtain rfl := Option.some.inj hmode
    exact hoffset (ofNat_setWidth imm12).symm
  | double load preIndex upwards rn imm8 =>
    obtain rfl := Option.some.inj hmode
    exact hoffset (by rw [signed_append])
  | vpush double regs =>
    obtain rfl := Option.some.inj hmode
    have hall : ∀ regs : BitVec 8, -4 * regs.setWidth 32 = displacement false (4 * regs.toNat) := by decide
    exact hoffset (hall regs)
  | exclusive32 load rn imm8 =>
    obtain rfl := base_eq hmode
    exact hoffset (shiftLeft_two imm8)
  | vfpSingle load double upwards rn imm8 =>
    obtain rfl := Option.some.inj hmode
    exact hoffset (signed_words imm8 upwards)
  | vfpMultiple load double p upwards rn imm8 =>
    rw [thumbMode] at hmode
    split at hmode
    · cases hmode
    next hpu =>
      obtain rfl := base_eq hmode
      rw [thumbCalcLdStAddr, if_neg hpu]
      cases upwards
      · exact hoffset rfl
      · exact hoffset rfl
  | exclusive | neonMultiple | neonOne | neonAll =>
    obtain rfl := base_eq hmode
    exact hoffset rfl
  | _ =>
    obtain rfl := Option.some.inj hmode
    exact hoffset rfl

theorem shiftLeft_mul (x : Word) : x <<< 2 = 4 * x := by
  apply BitVec.eq_of_toNat_eq
  rw [BitVec.toNat_shiftLeft, BitVec.toNat_mul, Nat.shiftLeft_eq, Nat.mul_comm]
  rfl

theorem multiple_offset (regs : BitVec 16) (p u : Bool) :
    (if p then (if u then 0 else -4 * (ArmLoadStore.count regs - 1)) + (if u then 4 else -4)
      else if u then 0 else -4 * (ArmLoadStore.count regs - 1) : Word) = multipleOffset p u (listBytes regs) := by
  have hwords : 4 * ArmLoadStore.count regs = BitVec.ofNat 32 (listBytes regs) := by
    rw [← shiftLeft_mul, count_words (by decide)]
  have hlast : -4 * (ArmLoadStore.count regs - 1) = 4 - BitVec.ofNat 32 (listBytes regs) := by
    rw [neg_mul, mul_sub, hwords, mul_one, neg_sub]
  cases p <;> cases u
  · exact hlast
  · rfl
  · show -4 * (ArmLoadStore.count regs - 1) + -4 = -BitVec.ofNat 32 (listBytes regs)
    rw [hlast, sub_add_eq_add_sub, add_neg_cancel, zero_sub]
  · rfl

theorem index_operand (operand2 : BitVec 12) :
    (operand2.setWidth 32 &&& 0xF : BitVec 32).toNat = (operand2.extractLsb' 0 4).toNat := by
  rw [BitVec.toNat_and, BitVec.toNat_setWidth, BitVec.extractLsb'_toNat, Nat.shiftRight_zero]
  show operand2.toNat % 2 ^ 32 &&& (2 ^ 4 - 1) = _
  rw [Nat.and_two_pow_sub_one_eq_mod]
  omega

theorem shift_operand (operand2 : BitVec 12) :
    operand2.setWidth 32 >>> 5 = shiftOperand (operand2.extractLsb' 5 2) (operand2.extractLsb' 7 5) := by
  apply BitVec.eq_of_getLsbD_eq
  intro i hi
  simp only [shiftOperand, BitVec.getLsbD_ushiftRight, BitVec.getLsbD_setWidth, BitVec.getLsbD_or, BitVec.getLsbD_shiftLeft,
    BitVec.getLsbD_extractLsb']
  by_cases h2 : i < 2
  · simp [hi, h2]
    omega
  · have hsum : 7 + (i - 2) = 5 + i := by omega
    cases hbit : operand2.getLsbD (5 + i) with
    | false => simp [h2, hsum, hbit]
    | true =>
      have hlt := BitVec.lt_of_getLsbD hbit
      have hfive : i - 2 < 5 := by omega
      simp [hi, h2, hsum, hbit, hfive]
      omega

theorem armCalcLdStAddr_eq {inst : ArmInst} (hmode : armMode inst = some m) :
    armCalcLdStAddr readAddress count inst reg = (codeFor arm readAddress count reg m).map .ok := by
  have hoffset {rn : Reg} {d d' : Word} (heq : d = d') :
      (generateAddr arm readAddress count reg rn regInvalid d).map Result.ok =
        (codeFor arm readAddress count reg (.offset rn d')).map .ok := by
    rw [heq]
    rfl
  have hindex {rn rm : Reg} {u : Bool} {k : Nat} {d : Word} {shiftType : BitVec 2} {imm5 : BitVec 5} (hk : k = rm.toNat)
      (heq : d = shiftOperand shiftType imm5) :
      (generateAddr arm readAddress count reg rn (if u then (k : Int) else -k) d).map Result.ok =
        (codeFor arm readAddress count reg (.index rn u rm shiftType imm5)).map .ok := by
    rw [hk, heq]
    rfl
  have hsigned {n : Nat} (op2 : BitVec n) (u : Bool) :
      (if u then op2.setWidth 32 else -op2.setWidth 32) = displacement u op2.toNat := signed_eq op2 u
  cases inst with
  | coprocessor => cases hmode
  | other => cases hmode
  | single i registerOffset rn operand2 p u =>
    cases p with
    | false =>
      obtain rfl := Option.some.inj hmode
      exact hoffset rfl
    | true =>
      cases registerOffset with
      | false =>
        obtain rfl := Option.some.inj hmode
        exact hoffset (hsigned operand2 u)
      | true =>
        obtain ⟨rfl, -⟩ := index_eq hmode
        exact hindex (index_operand operand2) (shift_operand operand2)
  | half i immediate rn rmImm4l imm4h p u =>
    have hall : ∀ imm4h rmImm4l : BitVec 4,
        imm4h.setWidth 32 <<< 4 ||| rmImm4l.setWidth 32 = (imm4h ++ rmImm4l).setWidth 32 ∧
        ((imm4h.setWidth 32 <<< 4 ||| rmImm4l.setWidth 32) &&& 0xF).toNat = rmImm4l.toNat := by
      decide
    obtain ⟨hop, hrm⟩ := hall imm4h rmImm4l
    cases p with
    | false =>
      obtain rfl := Option.some.inj hmode
      exact hoffset (ite_self _)
    | true =>
      cases immediate with
      | false =>
        obtain ⟨rfl, -⟩ := index_eq hmode
        exact hindex hrm (show (0 : Word) = shiftOperand 0 0 by decide)
      | true =>
        obtain rfl := Option.some.inj hmode
        exact hoffset (by rw [← hsigned, ← hop]; rfl)
  | multiple load rn regs p u =>
    obtain rfl := base_eq hmode
    exact hoffset (multiple_offset regs p u)
  | vfpSingle load double u rn imm8 =>
    obtain rfl := Option.some.inj hmode
    exact hoffset (signed_words imm8 u)
  | vfpMultiple load double p u rn imm8 =>
    rw [armMode] at hmode
    split at hmode
    · cases hmode
    next hpu =>
      rw [armCalcLdStAddr, if_neg hpu]
      cases u
      · obtain rfl := base_eq hmode
        exact hoffset (congrArg Neg.neg (shiftLeft_two imm8))
      · obtain rfl := Option.some.inj hmode
        exact hoffset rfl
  | exclusive | neonMultiple | neonOne | neonAll =>
    obtain rfl := base_eq hmode
    exact hoffset rfl

end Decoding

end Mambo.ArmAccessModes
