import Mambo.A64AddSub
import Mambo.A64Emit
import Mambo.SignBits

namespace Mambo.A64LoadStore

open A64 (Word Reg State)
open A64Plugin EmitResults SignBits
open A64AddSub (sp emitAddSubI)

abbrev Encoding := BitVec 32

inductive Instruction
  | ldpStp
  | ldrStrUnsignedImmed
  | ldrStrImmed
  | ldrLit
  | ldrStrReg
  | ldxStx
  | ldxStxMultiple
  | ldxStxMultiplePost
  | ldxStxSingle
  | ldxStxSinglePost
  | ldadd
  | ldclr
  | ldeor
  | ldset
  | swp
  | other
  deriving DecidableEq

section Fields

variable (w : Encoding)

/-- The field opc of a pair and of a literal is in the same place. -/
def size : BitVec 2 := w.extractLsb' 30 2

def v : BitVec 1 := w.extractLsb' 26 1

def opc : BitVec 2 := w.extractLsb' 22 2

def rn : Reg := w.extractLsb' 5 5

def pairType : BitVec 2 := w.extractLsb' 23 2

def pairL : BitVec 1 := w.extractLsb' 22 1

def imm7 : BitVec 7 := w.extractLsb' 15 7

def imm12 : BitVec 12 := w.extractLsb' 10 12

def imm9 : BitVec 9 := w.extractLsb' 12 9

def immedType : BitVec 2 := w.extractLsb' 10 2

def imm19 : BitVec 19 := w.extractLsb' 5 19

def rm : Reg := w.extractLsb' 16 5

def option : BitVec 3 := w.extractLsb' 13 3

def sBit : BitVec 1 := w.extractLsb' 12 1

end Fields

section Emission

def emitAddSubExt (rd rn : Reg) (rm : Int) (extOption : BitVec 3) (shift : BitVec 32) : Result Inst :=
  if shift.toInt > 4 ∨ shift.toInt < 0 then .fail
  else .ok [.addSubExtReg (if rm < 0 then 1 else 0) (BitVec.ofNat 5 rm.natAbs) extOption (shift.setWidth 3) rn rd]

def regInvalid : Int := 32

/-- `_generate_addr` on AArch64; none where an assertion fails. -/
def generateAddr (pluginPushedRegCount : Int) (reg rn : Reg) (rm : Int) (offset : BitVec 32) : Option (List Inst) :=
  if rm = 31 then none
  else
    let applyOffset := if rn = sp then BitVec.ofInt 32 pluginPushedRegCount * 8 else 0
    if rm ≤ -regInvalid ∨ rm ≥ regInvalid then some (emitAddSubI reg rn (offset + applyOffset)).code
    else
      let first := (emitAddSubExt reg rn rm ((offset &&& 7).setWidth 3) (offset.sshiftRight 3)).code
      if applyOffset ≠ 0 then
        if applyOffset.toInt ≤ 0xFFF ∧ applyOffset.toInt > 0 then some (first ++ (emitAddSubI reg reg applyOffset).code)
        else none
      else some first

def shifted (v : BitVec 1) (opc size : BitVec 2) : Nat := ((v.toNat &&& opc.toNat >>> 1) <<< 2) + size.toNat

/-- The index register and the offset that an instruction other than a literal load is decoded to. -/
def decoded (inst : Instruction) (w : Encoding) : Option (Int × BitVec 32) :=
  match inst with
  | .ldpStp =>
    let offset := signExtendBits 7 ((imm7 w).setWidth 32) <<< (2 + (size w).toNat >>> (1 - (v w).toNat))
    some (regInvalid, if pairType w ≠ 1 then offset else 0)
  | .ldrStrUnsignedImmed => some (regInvalid, (imm12 w).setWidth 32 <<< shifted (v w) (opc w) (size w))
  | .ldrStrImmed =>
    let offset := signExtendBits 9 ((imm9 w).setWidth 32)
    some (regInvalid, if immedType w ≠ 1 then offset else 0)
  | .ldrStrReg =>
    if rm w = 31 then some (regInvalid, 0)
    else
      let shift := if sBit w ≠ 0 then shifted (v w) (opc w) (size w) else 0
      some ((rm w).toNat, BitVec.ofNat 32 shift <<< 3 ||| (option w).setWidth 32)
  | .ldrLit | .other => none
  | _ => some (regInvalid, 0)

/-- `mambo_calc_ld_st_addr` on AArch64; none where an assertion fails. -/
def calcLdStAddr (readAddress : Word) (pluginPushedRegCount : Int) (inst : Instruction) (w : Encoding) (reg : Reg) :
    Option (Result Inst) :=
  match inst with
  | .ldrLit =>
    let offset := signExtendBits 19 ((imm19 w).setWidth 64) <<< 2
    some (.ok ((A64Emit.copyToReg64bits reg (readAddress + offset)).map .core))
  | _ =>
    match decoded inst w with
    | none => some .fail
    | some (rm, offset) => (generateAddr pluginPushedRegCount reg (rn w) rm offset).map .ok

end Emission

section Architecture

/-- The bits that are fixed in each of the encodings, and their values. -/
def pattern : Instruction → Option (Encoding × Encoding)
  | .ldpStp => some (0x3A000000, 0x28000000)
  | .ldrStrUnsignedImmed => some (0x3B000000, 0x39000000)
  | .ldrStrImmed => some (0x3B200000, 0x38000000)
  | .ldrLit => some (0x3B000000, 0x18000000)
  | .ldrStrReg => some (0x3B200C00, 0x38200800)
  | .ldxStx => some (0x3F000000, 0x08000000)
  | .ldxStxMultiple => some (0xBFBF0000, 0x0C000000)
  | .ldxStxMultiplePost => some (0xBFA00000, 0x0C800000)
  | .ldxStxSingle => some (0xBF9F0000, 0x0D000000)
  | .ldxStxSinglePost => some (0xBF800000, 0x0D800000)
  | .ldadd => some (0x3F20FC00, 0x38200000)
  | .ldclr => some (0x3F20FC00, 0x38201000)
  | .ldeor => some (0x3F20FC00, 0x38202000)
  | .ldset => some (0x3F20FC00, 0x38203000)
  | .swp => some (0x3F20FC00, 0x38208000)
  | .other => none

def Matches (inst : Instruction) (w : Encoding) : Prop := ∃ p ∈ pattern inst, w &&& p.1 = p.2

instance (inst : Instruction) (w : Encoding) : Decidable (Matches inst w) := inferInstanceAs (Decidable (∃ _ ∈ _, _))

/-- The encodings that are instructions: no pair of another size or without a hint for some sizes, no vector register
of more than 16 bytes, and an index register of 32 or 64 bits. -/
def Allocated (inst : Instruction) (w : Encoding) : Prop :=
  (inst = .ldpStp → size w ≠ 3 ∧ (v w = 0 → size w = 1 → pairType w ≠ 0)) ∧
    (inst = .ldrStrUnsignedImmed ∨ inst = .ldrStrReg → v w = 1 → (opc w).getLsbD 1 = true → size w = 0) ∧
    (inst = .ldrStrReg → (option w).getLsbD 1 = true)

instance (inst : Instruction) (w : Encoding) : Decidable (Allocated inst w) := inferInstanceAs (Decidable (_ ∧ _ ∧ _))

/-- A store of two registers and an allocation tag, whose offset counts granules of 16 bytes. -/
def IsStgp (w : Encoding) : Prop := v w = 0 ∧ size w = 1 ∧ pairL w = 0

instance (w : Encoding) : Decidable (IsStgp w) := inferInstanceAs (Decidable (_ ∧ _ ∧ _))

/-- What is missing in the offset that the code adds. -/
def lost (inst : Instruction) (w : Encoding) : Word :=
  if inst = .ldpStp ∧ IsStgp w ∧ pairType w ≠ 1 then (imm7 w).signExtend 64 <<< 4 - (imm7 w).signExtend 64 <<< 2 else 0

def pairScale (w : Encoding) : Nat :=
  if v w = 1 then 2 + (size w).toNat
  else if IsStgp w then 4
  else 2 + ((size w).getLsbD 1).toNat

def scale (w : Encoding) : Nat :=
  if v w = 1 then ((opc w).extractLsb' 1 1 ++ size w).toNat else (size w).toNat

/-- The immediate offset, which an access with writeback of the base afterwards does not add. -/
def immedOffset (inst : Instruction) (w : Encoding) : Word :=
  match inst with
  | .ldpStp => if pairType w = 1 then 0 else (imm7 w).signExtend 64 <<< pairScale w
  | .ldrStrUnsignedImmed => (imm12 w).setWidth 64 <<< scale w
  | .ldrStrImmed => if immedType w = 1 then 0 else (imm9 w).signExtend 64
  | _ => 0

def indexShift (w : Encoding) : Nat := if sBit w = 1 then scale w else 0

/-- What is added to the base register, in a state. -/
def offset (inst : Instruction) (w : Encoding) (t : State) : Word :=
  if inst = .ldrStrReg then extend (option w) (t.get (rm w)) <<< indexShift w else immedOffset inst w

/-- The address of an access by the instruction at pc, in a state. -/
def address (pc : Word) (inst : Instruction) (w : Encoding) (t : State) : Word :=
  if inst = .ldrLit then pc + (imm19 w).signExtend 64 <<< 2 else t.getBase (rn w) + offset inst w t

end Architecture

end Mambo.A64LoadStore
