import Mambo.ArmAddSub
import Mambo.SafeFcalls

namespace Mambo.ArmLoadStore

open EmitResults RegLists SafeFcalls
open T32 (Word Reg sp pc)

section Instructions

/-- The transfers of one register that every addressing mode has. -/
inductive Plain
  | ldr
  | ldrb
  | ldrh
  | str
  | strb
  | strh
  deriving DecidableEq

inductive Transfer
  | plain (i : Plain)
  | ldrsb
  | ldrsh
  deriving DecidableEq

inductive Literal
  | ldr
  | ldrb
  | ldrh
  | ldrsb
  | ldrsh
  deriving DecidableEq

inductive Multiple
  | ldmea
  | ldmfd
  | stmea
  | stmfd
  deriving DecidableEq

inductive ExclusiveSize
  | b
  | h
  | d
  deriving DecidableEq

/-- The T32 loads and stores, with what the field decoders tell of them. The unprivileged ones
are decoded as imm8, with both bits set; coprocessor stands for LDC, LDC2, STC and STC2. TBB and
TBH, which branch by what they read, are among the others. -/
inductive ThumbInst
  | multiple16 (load : Bool) (rn : BitVec 3) (reglist : BitVec 8)
  | reg16 (i : Transfer) (rm rn : BitVec 3)
  | imm16 (i : Plain) (imm5 : BitVec 5) (rn : BitVec 3)
  | ldrPc16 (imm8 : BitVec 8)
  | sp16 (load : Bool) (imm8 : BitVec 8)
  | pop16 (reg : BitVec 9)
  | push16 (reg : BitVec 9)
  | multiple32 (i : Multiple) (rn : Reg) (reglist : BitVec 16)
  | reg32 (i : Transfer) (rn : Reg) (shift : BitVec 2) (rm : Reg)
  | imm8 (i : Transfer) (rn : Reg) (imm8 : BitVec 8) (preIndex upwards : Bool)
  | imm12 (i : Transfer) (rn : Reg) (imm12 : BitVec 12)
  | double (load preIndex upwards : Bool) (rn : Reg) (imm8 : BitVec 8)
  | literal (i : Literal) (imm12 : BitVec 12) (upwards : Bool)
  | vpop (double : Bool) (regs : BitVec 8)
  | vpush (double : Bool) (regs : BitVec 8)
  | exclusive32 (load : Bool) (rn : Reg) (imm8 : BitVec 8)
  | exclusive (load : Bool) (size : ExclusiveSize) (rn : Reg)
  | vfpMultiple (load double p upwards : Bool) (rn : Reg) (imm8 : BitVec 8)
  | vfpSingle (load double upwards : Bool) (rn : Reg) (imm8 : BitVec 8)
  | neonMultiple (load : Bool) (opcode : BitVec 4) (rn : Reg)
  | neonOne (load : Bool) (opcode size : BitVec 2) (rn : Reg)
  | neonAll (opcode size : BitVec 2) (rn : Reg)
  | coprocessor (load : Bool)
  | other
  deriving DecidableEq

inductive Single
  | ldr
  | ldrb
  | ldrt
  | ldrbt
  | str
  | strb
  | strt
  | strbt
  deriving DecidableEq

inductive Half
  | ldrd
  | ldrh
  | ldrht
  | ldrsb
  | ldrsbt
  | ldrsh
  | ldrsht
  | strd
  | strh
  | strht
  deriving DecidableEq

/-- The A32 loads and stores. VPOP and VPUSH are decoded as multiples; ldrex and strex have no
size. -/
inductive ArmInst
  | single (i : Single) (registerOffset : Bool) (rn : Reg) (operand2 : BitVec 12) (p u : Bool)
  | half (i : Half) (immediate : Bool) (rn : Reg) (rmImm4l imm4h : BitVec 4) (p u : Bool)
  | multiple (load : Bool) (rn : Reg) (registers : BitVec 16) (p u : Bool)
  | exclusive (load : Bool) (size : Option ExclusiveSize) (rn : Reg)
  | vfpMultiple (load double p u : Bool) (rn : Reg) (imm8 : BitVec 8)
  | vfpSingle (load double u : Bool) (rn : Reg) (imm8 : BitVec 8)
  | neonMultiple (load : Bool) (opcode : BitVec 4) (rn : Reg)
  | neonOne (load : Bool) (opcode size : BitVec 2) (rn : Reg)
  | neonAll (opcode size : BitVec 2) (rn : Reg)
  | coprocessor (load : Bool)
  | other
  deriving DecidableEq

end Instructions

section Kinds

def Plain.isLoad : Plain → Bool
  | .ldr | .ldrb | .ldrh => true
  | .str | .strb | .strh => false

def Transfer.isLoad : Transfer → Bool
  | .plain i => i.isLoad
  | .ldrsb | .ldrsh => true

def Plain.getSize : Plain → Nat
  | .ldrb | .strb => 1
  | .ldrh | .strh => 2
  | .ldr | .str => 4

def Transfer.getSize : Transfer → Nat
  | .plain i => i.getSize
  | .ldrsb => 1
  | .ldrsh => 2

def Literal.getSize : Literal → Nat
  | .ldrb | .ldrsb => 1
  | .ldrh | .ldrsh => 2
  | .ldr => 4

def ExclusiveSize.getSize : ExclusiveSize → Nat
  | .b => 1
  | .h => 2
  | .d => 8

def Single.isLoad : Single → Bool
  | .ldr | .ldrb | .ldrt | .ldrbt => true
  | .str | .strb | .strt | .strbt => false

def Half.isLoad : Half → Bool
  | .ldrd | .ldrh | .ldrht | .ldrsb | .ldrsbt | .ldrsh | .ldrsht => true
  | .strd | .strh | .strht => false

def Single.getSize : Single → Nat
  | .ldrb | .ldrbt | .strb | .strbt => 1
  | .ldr | .ldrt | .str | .strt => 4

def Half.getSize : Half → Nat
  | .ldrsb | .ldrsbt => 1
  | .ldrh | .ldrht | .ldrsh | .ldrsht | .strh | .strht => 2
  | .ldrd | .strd => 8

end Kinds

section Helpers

structure Helpers (ι : Type*) where
  emitters : Emitters 32 ι
  addSubI : Reg → Reg → BitVec 32 → Option (Result ι)
  addSubShift : Reg → Reg → Int → BitVec 32 → BitVec 32 → Result ι

def emitArmAddSubShift (rd rn : Reg) (rm : Int) (shiftType shift : BitVec 32) : Result A32.Inst :=
  if shift.toNat > 31 ∨ shiftType.toNat > 3 then .fail
  else
    let operand2 := ((BitVec.ofNat 32 rm.natAbs) ||| shiftType <<< 5 ||| shift <<< 7).setWidth 12
    .ok [if rm < 0 then .sub rd rn operand2 else .add rd rn operand2]

def emitThumbAddSubShift (rd rn : Reg) (rm : Int) (shiftType shift : BitVec 32) : Result T32Plugin.Inst :=
  if shift.toNat > 31 ∨ shiftType.toNat > 3 then .fail
  else
    let imm3 := (shift >>> 2).setWidth 3
    let reg := BitVec.ofNat 4 rm.natAbs
    .ok [if rm < 0 then .sub32 rn imm3 rd (shift.setWidth 2) (shiftType.setWidth 2) reg
      else .add32 rn imm3 rd (shift.setWidth 2) (shiftType.setWidth 2) reg]

def arm : Helpers A32.Inst := ⟨a32, ArmAddSub.A32.emitAddSubI, emitArmAddSubShift⟩

def thumb : Helpers T32Plugin.Inst := ⟨t32, ArmAddSub.T32.emitAddSubI, emitThumbAddSubShift⟩

end Helpers

section Emission

def regInvalid : Int := 16

def readAddrToPc (addr : Word) : Word := (addr + 4) &&& 0xFFFFFFFC

def Constant (rm : Int) : Prop := rm ≤ -regInvalid ∨ rm ≥ regInvalid

instance (rm : Int) : Decidable (Constant rm) := inferInstanceAs (Decidable (_ ∨ _))

variable {ι : Type*} (H : Helpers ι)

/-- The sum that ends up in reg; what the emitters return is ignored. -/
def generateSum (applyOffset : BitVec 32) (reg rn : Reg) (rm : Int) (offset : BitVec 32) : Option (List ι) :=
  if Constant rm then (H.addSubI reg rn (offset + applyOffset)).map Result.code
  else
    let first := (H.addSubShift reg rn rm (offset &&& 3) (offset.sshiftRight 2)).code
    if applyOffset ≠ 0 then
      if applyOffset.toInt ≤ 0xFFF ∧ applyOffset.toInt > 0 then
        (H.addSubI reg reg applyOffset).map fun r => first ++ r.code
      else none
    else some first

/-- `_generate_addr` on AArch32; none where an assertion fails. -/
def generateAddr (readAddress : Word) (pluginPushedRegCount : Int) (reg rn : Reg) (rm : Int) (offset : BitVec 32) :
    Option (List ι) :=
  if rm = pc.toNat ∨ rm = sp.toNat then none
  else if rn = pc then
    let addr := if Constant rm then readAddrToPc readAddress + offset else readAddrToPc readAddress
    let offset := if Constant rm then 0 else offset
    if (reg.toNat : Int) = rm then do
      let rtmp : Reg := if reg = 0 then 1 else 0
      let before ← H.emitters.push (1 <<< rtmp.toNat)
      let sum ← generateSum H 0 reg rtmp rm offset
      let after ← H.emitters.pop (1 <<< rtmp.toNat)
      return before ++ H.emitters.setReg rtmp.toNat addr ++ sum ++ after
    else (generateSum H 0 reg reg rm offset).map fun sum => H.emitters.setReg reg.toNat addr ++ sum
  else generateSum H (if rn = sp then BitVec.ofInt 32 pluginPushedRegCount * 4 else 0) reg rn rm offset

def count {n : Nat} (regs : BitVec n) : BitVec 32 := BitVec.ofNat 32 (countBits (regs.setWidth 32))

def signed {n : Nat} (imm : BitVec n) (u : Bool) : BitVec 32 := if u then imm.setWidth 32 else -imm.setWidth 32

def Plain.shift : Plain → Nat
  | .ldr | .str => 2
  | .ldrh | .strh => 1
  | .ldrb | .strb => 0

/-- `_thumb_calc_ld_st_addr`; none where an assertion fails. -/
def thumbCalcLdStAddr (readAddress : Word) (pluginPushedRegCount : Int) (inst : ThumbInst) (reg : Reg) :
    Option (Result T32Plugin.Inst) :=
  let generate (rn : Reg) (rm : Int) (offset : BitVec 32) : Option (Result T32Plugin.Inst) :=
    (generateAddr thumb readAddress pluginPushedRegCount reg rn rm offset).map .ok
  match inst with
  | .multiple16 _ rn _ => generate (rn.setWidth 4) regInvalid 0
  | .reg16 _ rm rn => generate (rn.setWidth 4) rm.toNat 0
  | .imm16 i imm5 rn => generate (rn.setWidth 4) regInvalid (imm5.setWidth 32 <<< i.shift)
  | .ldrPc16 imm8 => some (.ok (t32.setReg reg.toNat (((readAddress + 4) &&& ~~~(3 : Word)) + imm8.setWidth 32 <<< 2)))
  | .sp16 _ imm8 => generate sp regInvalid (imm8.setWidth 32 <<< 2)
  | .pop16 _ | .vpop .. => generate sp regInvalid 0
  | .push16 regs => generate sp regInvalid (-(count regs <<< 2))
  | .multiple32 i rn regs =>
      let offset := if i = .ldmea ∨ i = .stmfd then count regs <<< 2 else 0
      generate rn regInvalid (-offset)
  | .reg32 _ rn shift rm => generate rn rm.toNat (shift.setWidth 32 <<< 2)
  | .imm8 _ rn imm8 preIndex upwards => generate rn regInvalid (if preIndex then signed imm8 upwards else 0)
  | .imm12 _ rn imm12 => generate rn regInvalid (imm12.setWidth 32)
  | .double _ preIndex upwards rn imm8 =>
      generate rn regInvalid (if preIndex then signed (imm8 ++ 0#2) upwards else 0)
  | .literal _ imm12 upwards => some (.ok (t32.setReg reg.toNat (readAddrToPc readAddress + signed imm12 upwards)))
  | .vpush _ regs => generate sp regInvalid (-4 * regs.setWidth 32)
  | .exclusive32 _ rn imm8 => generate rn regInvalid (imm8.setWidth 32 <<< 2)
  | .vfpMultiple _ _ p upwards rn imm8 =>
      if p = upwards then none else generate rn regInvalid (if upwards then 0 else -count imm8 * 4)
  | .vfpSingle _ _ upwards rn imm8 => generate rn regInvalid (signed imm8 upwards <<< 2)
  | .exclusive _ _ rn | .neonMultiple _ _ rn | .neonOne _ _ _ rn | .neonAll _ _ rn => generate rn regInvalid 0
  | .coprocessor _ => none
  | .other => some .fail

/-- `_decode_arm`: the index register, negative where it is subtracted, and the immediate. -/
def decodeArm (isImm p u : Bool) (op2 : BitVec 32) : Int × BitVec 32 :=
  if p then
    if isImm then (regInvalid, if u then op2 else -op2)
    else
      let rm := ((op2 &&& 0xF).toNat : Int)
      (if u then rm else -rm, op2 >>> 5)
  else (regInvalid, 0)

/-- `_arm_calc_ld_st_addr`; none where an assertion fails. -/
def armCalcLdStAddr (readAddress : Word) (pluginPushedRegCount : Int) (inst : ArmInst) (reg : Reg) :
    Option (Result A32.Inst) :=
  let generate (rn : Reg) (rm : Int) (offset : BitVec 32) : Option (Result A32.Inst) :=
    (generateAddr arm readAddress pluginPushedRegCount reg rn rm offset).map .ok
  match inst with
  | .single _ registerOffset rn operand2 p u =>
      let index := decodeArm (!registerOffset) p u (operand2.setWidth 32)
      generate rn index.1 index.2
  | .half _ immediate rn rmImm4l imm4h p u =>
      let index := decodeArm immediate p u (imm4h.setWidth 32 <<< 4 ||| rmImm4l.setWidth 32)
      generate rn index.1 (if immediate then index.2 else 0)
  | .multiple _ rn regs p u =>
      let offset : BitVec 32 := if u then 0 else -4 * (count regs - 1)
      generate rn regInvalid (if p then offset + if u then 4 else -4 else offset)
  | .vfpMultiple _ _ p u rn imm8 =>
      if p = u then none else generate rn regInvalid (if u then 0 else -(imm8.setWidth 32 <<< 2))
  | .vfpSingle _ _ u rn imm8 => generate rn regInvalid (signed imm8 u <<< 2)
  | .exclusive _ _ rn | .neonMultiple _ _ rn | .neonOne _ _ _ rn | .neonAll _ _ rn => generate rn regInvalid 0
  | .coprocessor _ => none
  | .other => some .fail

end Emission

end Mambo.ArmLoadStore
