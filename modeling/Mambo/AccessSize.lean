import Mambo.A64LoadStore
import Mambo.ArmLoadStore
import Mambo.RvLoadStore

namespace Mambo.AccessSize

section A64

open A64LoadStore (Encoding Instruction size v opc pairL)

/-- What the scanner takes an instruction for: one that the address calculator knows, an
atomic minimum or maximum, or a system instruction. -/
inductive A64Inst
  | known (inst : Instruction)
  | ldsmax
  | ldsmin
  | ldumax
  | ldumin
  | sys
  deriving DecidableEq

def A64Inst.instruction : A64Inst → Instruction
  | .known inst => inst
  | _ => .other

section Fields

variable (w : Encoding)

def isLoadBit : BitVec 1 := w.extractLsb' 22 1

def o2 : BitVec 1 := w.extractLsb' 23 1

def o1 : BitVec 1 := w.extractLsb' 21 1

def q : BitVec 1 := w.extractLsb' 30 1

def opcode : BitVec 4 := w.extractLsb' 12 4

def r : BitVec 1 := w.extractLsb' 21 1

def singleOpcode : BitVec 3 := w.extractLsb' 13 3

def elementSize : BitVec 2 := w.extractLsb' 10 2

end Fields

def a64IsLoadOrStore (inst : A64Inst) (w : Encoding) : Bool × Bool :=
  match inst with
  | .known .ldrLit => if size w = 3 ∧ v w = 0 then (false, false) else (true, false)
  | .known .ldxStx | .known .ldpStp | .known .ldxStxMultiple | .known .ldxStxMultiplePost | .known .ldxStxSingle
  | .known .ldxStxSinglePost => if isLoadBit w ≠ 0 then (true, false) else (false, true)
  | .known .ldrStrImmed | .known .ldrStrReg | .known .ldrStrUnsignedImmed =>
      if size w = 3 ∧ v w = 0 ∧ opc w = 2 then (false, false)
      else if opc w ≠ 0 then (true, false) else (false, true)
  | .known .ldadd | .known .ldclr | .known .ldeor | .known .ldset | .known .swp => (true, true)
  | .known .other | .ldsmax | .ldsmin | .ldumax | .ldumin | .sys => (false, false)

def multipleRegs (op : BitVec 4) : Option Nat :=
  match op.toNat with
  | 0x0 | 0x2 => some 4
  | 0x4 | 0x6 => some 3
  | 0x8 | 0xA => some 2
  | 0x7 => some 1
  | _ => none

def a64GetLdStSize (inst : A64Inst) (w : Encoding) : Option Int :=
  match inst with
  | .known .ldrLit => some (if v w ≠ 0 then 4 <<< (size w).toNat else 4 <<< ((size w).toNat &&& 1) : Nat)
  | .known .ldpStp => some (if v w ≠ 0 then 8 <<< (size w).toNat else 8 <<< ((size w).toNat >>> 1) : Nat)
  | .known .ldrStrReg | .known .ldrStrImmed | .known .ldrStrUnsignedImmed =>
      some (if v w ≠ 0 then 1 <<< ((size w).toNat + (opc w).toNat >>> 1 <<< 2) else 1 <<< (size w).toNat : Nat)
  | .known .ldxStx => some (1 <<< ((size w).toNat + (o1 w).toNat) : Nat)
  | .known .ldxStxMultiple | .known .ldxStxMultiplePost =>
      (multipleRegs (opcode w)).map fun regs => ((regs * 8 <<< (q w).toNat : Nat) : Int)
  | .known .ldxStxSingle | .known .ldxStxSinglePost =>
      let op := (singleOpcode w).toNat
      let regs := ((op &&& 1) <<< 1 ||| (r w).toNat) + 1
      let sz := (elementSize w).toNat
      let scale := if op >>> 1 = 3 then sz else if op >>> 1 = 2 then if sz &&& 1 ≠ 0 then 3 else 2 else op >>> 1
      some (1 <<< scale * regs : Nat)
  | .known .ldadd | .known .ldclr | .known .ldeor | .known .ldset | .known .swp => some (1 <<< (size w).toNat : Nat)
  | .known .other | .ldsmax | .ldsmin | .ldumax | .ldumin | .sys => some (-1)

end A64

section AArch32

open ArmLoadStore

def thumbIsLoad : ThumbInst → Bool
  | .multiple16 load .. | .sp16 load _ | .double load .. | .exclusive32 load .. | .exclusive load ..
  | .vfpMultiple load .. | .vfpSingle load .. | .neonMultiple load .. | .neonOne load .. | .coprocessor load => load
  | .reg16 i .. | .reg32 i .. | .imm8 i .. | .imm12 i .. => i.isLoad
  | .imm16 i .. => i.isLoad
  | .multiple32 i .. => i = .ldmea ∨ i = .ldmfd
  | .ldrPc16 _ | .literal .. | .pop16 _ | .vpop .. | .neonAll .. => true
  | .push16 _ | .vpush .. | .other => false

def thumbIsStore : ThumbInst → Bool
  | .multiple16 load .. | .sp16 load _ | .double load .. | .exclusive32 load .. | .exclusive load ..
  | .vfpMultiple load .. | .vfpSingle load .. | .neonMultiple load .. | .neonOne load .. | .coprocessor load => !load
  | .reg16 i .. | .reg32 i .. | .imm8 i .. | .imm12 i .. => !i.isLoad
  | .imm16 i .. => !i.isLoad
  | .multiple32 i .. => i = .stmea ∨ i = .stmfd
  | .push16 _ | .vpush .. => true
  | .ldrPc16 _ | .literal .. | .pop16 _ | .vpop .. | .neonAll .. | .other => false

def getSizeVldxVstxM (op : BitVec 4) : Option Int :=
  match op.toNat with
  | 0x7 => some 8
  | 0x8 | 0x9 | 0xA => some 16
  | 0x4 | 0x5 | 0x6 => some 24
  | 0x0 | 0x1 | 0x2 | 0x3 => some 32
  | _ => none

def countedSize {n : Nat} (reglist : BitVec n) : Option Int := some (RegLists.countBits (reglist.setWidth 32) * 4 : Nat)

def thumbGetLdStSize : ThumbInst → Option Int
  | .reg16 i .. | .reg32 i .. | .imm8 i .. | .imm12 i .. => some (i.getSize)
  | .imm16 i .. => some (i.getSize)
  | .literal i .. => some (i.getSize)
  | .ldrPc16 _ | .sp16 .. | .exclusive32 .. => some 4
  | .double .. => some 8
  | .exclusive _ size _ => some (size.getSize)
  | .vfpSingle _ double .. => some (if double then 8 else 4)
  | .multiple32 _ _ reglist => countedSize reglist
  | .multiple16 _ _ reglist => countedSize reglist
  | .push16 reglist | .pop16 reglist => countedSize reglist
  | .vpush _ regs | .vpop _ regs | .vfpMultiple _ _ _ _ _ regs => some (regs.toNat * 4 : Nat)
  | .neonOne _ op sz _ | .neonAll op sz _ => some (1 <<< sz.toNat * (op.toNat + 1) : Nat)
  | .neonMultiple _ op _ => getSizeVldxVstxM op
  | .coprocessor _ => none
  | .other => some (-1)

def armIsLoad : ArmInst → Bool
  | .single i .. => i.isLoad
  | .half i .. => i.isLoad
  | .multiple load .. | .exclusive load .. | .vfpMultiple load .. | .vfpSingle load .. | .neonMultiple load ..
  | .neonOne load .. | .coprocessor load => load
  | .neonAll .. => true
  | .other => false

def armIsStore : ArmInst → Bool
  | .single i .. => !i.isLoad
  | .half i .. => !i.isLoad
  | .multiple load .. | .exclusive load .. | .vfpMultiple load .. | .vfpSingle load .. | .neonMultiple load ..
  | .neonOne load .. | .coprocessor load => !load
  | .neonAll .. | .other => false

def armGetLdStSize : ArmInst → Option Int
  | .single i .. => some (i.getSize)
  | .half i .. => some (i.getSize)
  | .exclusive _ none _ => some 4
  | .exclusive _ (some size) _ => some (size.getSize)
  | .vfpSingle _ double .. => some (if double then 8 else 4)
  | .multiple _ _ registers .. => countedSize registers
  | .vfpMultiple _ _ _ _ _ imm8 => some (imm8.toNat * 4 : Nat)
  | .neonOne _ op sz _ | .neonAll op sz _ => some (1 <<< sz.toNat * (op.toNat + 1) : Nat)
  | .neonMultiple _ op _ => getSizeVldxVstxM op
  | .coprocessor _ => none
  | .other => some (-1)

end AArch32

section Riscv

open RvLoadStore (Inst CLoad CStore CLoadSp CStoreSp Load Store Size)

/-- What the scanner takes an instruction for: one that the address calculator knows, an access
of half precision, or the cache-block zero. -/
inductive RiscvInst
  | known (inst : Inst)
  | flh
  | fsh
  | cboZero
  deriving DecidableEq

def RiscvInst.instruction : RiscvInst → Inst
  | .known inst => inst
  | .flh | .fsh | .cboZero => .other

def riscvIsLoadOrStore : RiscvInst → Bool × Bool
  | .known (.cStore _) | .known (.cStoreSp _) | .known (.store _) | .known (.amo .sc _)
  | .known (.vector .store _) => (false, true)
  | .known (.cLoad _) | .known (.cLoadSp _) | .known (.load _) | .known (.lr _)
  | .known (.vector .load _) => (true, false)
  | .known (.amo _ _) | .known (.vector .amo _) => (true, true)
  | .known .other | .flh | .fsh | .cboZero => (false, false)

def riscvGetLdStSize : RiscvInst → Int
  | .known (.store .sb) | .known (.load .lb) | .known (.load .lbu) => 1
  | .known (.store .sh) | .known (.load .lh) | .known (.load .lhu) => 2
  | .known (.amo _ .w) | .known (.load .lwu) | .known (.load .flw) | .known (.lr .w) | .known (.load .lw)
  | .known (.store .fsw) | .known (.cLoadSp .flw) | .known (.cLoadSp .lw) | .known (.cLoad .lw) | .known (.store .sw)
  | .known (.cStoreSp .sw) | .known (.cStore .sw) => 4
  | .known (.amo _ .d) | .known (.load .ld) | .known (.lr .d) | .known (.load .fld) | .known (.store .sd)
  | .known (.store .fsd) | .known (.cLoad .fld) | .known (.cLoad .ld) | .known (.cLoadSp .fld) | .known (.cLoadSp .ld)
  | .known (.cStore .fsd) | .known (.cStore .sd) | .known (.cStoreSp .fsd) | .known (.cStoreSp .sd) => 8
  | .known (.vector _ _) | .known .other | .flh | .fsh | .cboZero => -1

end Riscv

section Architecture

/-- Whether an instruction reads memory into registers, whether it can write memory, and how
many bytes, none where the instruction does not tell. -/
structure Access where
  reads : Bool
  writes : Bool
  bytes : Option Nat
  deriving DecidableEq

def nothing : Access := ⟨false, false, none⟩

def load (bytes : Nat) : Access := ⟨true, false, some bytes⟩

def store (bytes : Nat) : Access := ⟨false, true, some bytes⟩

def update (bytes : Nat) : Access := ⟨true, true, some bytes⟩

def transfer (isLoad : Bool) (bytes : Nat) : Access := if isLoad then load bytes else store bytes

section A64

open A64LoadStore (Encoding IsStgp v size opc pairL scale)

def pairBytes (w : Encoding) : Nat :=
  if v w = 1 then 4 * 2 ^ (size w).toNat else if IsStgp w ∨ (size w).getLsbD 1 = true then 8 else 4

/-- With two registers, the word compares and swaps pairs unless bit 31 of it is set. -/
def exclusiveAccess (w : Encoding) : Access :=
  if o1 w = 0 then transfer (isLoadBit w = 1) (2 ^ (size w).toNat)
  else if o2 w = 1 then update (2 ^ (size w).toNat)
  else if (size w).getLsbD 1 = true then transfer (isLoadBit w = 1) (2 * 2 ^ (size w).toNat)
  else update (2 * (4 * 2 ^ (size w).toNat))

def structures (op : BitVec 4) : Option (Nat × Nat) :=
  match op.toNat with
  | 0x0 => some (4, 1)
  | 0x2 => some (1, 4)
  | 0x4 => some (3, 1)
  | 0x6 => some (1, 3)
  | 0x7 => some (1, 1)
  | 0x8 => some (2, 1)
  | 0xA => some (1, 2)
  | _ => none

def vectorBytes (w : Encoding) : Nat :=
  2 ^ (elementSize w).toNat * ((if q w = 1 then 16 else 8) / 2 ^ (elementSize w).toNat)

def singleBytes (w : Encoding) : Nat :=
  match ((singleOpcode w).extractLsb' 1 2).toNat with
  | 0 => 1
  | 1 => 2
  | 2 => if (elementSize w).getLsbD 0 = true then 8 else 4
  | _ => 2 ^ (elementSize w).toNat

def singleRegs (w : Encoding) : Nat := ((singleOpcode w).extractLsb' 0 1 ++ r w).toNat + 1

def dcZva (w : Encoding) : Bool := w &&& 0xFFFFFFE0 = 0xD50B7420 ∨ w &&& 0xFFFFFFE0 = 0xD50B7480

def a64Access (inst : A64Inst) (w : Encoding) : Access :=
  match inst with
  | .known .ldrLit =>
      if v w = 1 then load (4 * 2 ^ (size w).toNat)
      else if size w = 3 then nothing
      else load (if size w = 1 then 8 else 4)
  | .known .ldpStp => transfer (pairL w = 1) (2 * pairBytes w)
  | .known .ldrStrImmed | .known .ldrStrReg | .known .ldrStrUnsignedImmed =>
      if v w = 1 then transfer ((opc w).getLsbD 0) (2 ^ scale w)
      else if size w = 3 ∧ opc w = 2 then nothing
      else transfer (opc w ≠ 0) (2 ^ scale w)
  | .known .ldxStx => exclusiveAccess w
  | .known .ldxStxMultiple | .known .ldxStxMultiplePost =>
      { transfer (isLoadBit w = 1) 0 with bytes := (structures (opcode w)).map fun n => n.1 * n.2 * vectorBytes w }
  | .known .ldxStxSingle | .known .ldxStxSinglePost => transfer (isLoadBit w = 1) (singleRegs w * singleBytes w)
  | .known .ldadd | .known .ldclr | .known .ldeor | .known .ldset | .known .swp | .ldsmax | .ldsmin | .ldumax
  | .ldumin => update (2 ^ (size w).toNat)
  | .sys => { nothing with writes := dcZva w }
  | .known .other => nothing

end A64

section AArch32

open ArmLoadStore

def plainAccess : Plain → Access
  | .ldr => load 4
  | .ldrb => load 1
  | .ldrh => load 2
  | .str => store 4
  | .strb => store 1
  | .strh => store 2

def transferAccess : Transfer → Access
  | .plain i => plainAccess i
  | .ldrsb => load 1
  | .ldrsh => load 2

def literalAccess : Literal → Access
  | .ldr => load 4
  | .ldrb | .ldrsb => load 1
  | .ldrh | .ldrsh => load 2

def exclusiveBytes : ExclusiveSize → Nat
  | .b => 1
  | .h => 2
  | .d => 8

def listBytes {n : Nat} (reglist : BitVec n) : Nat := 4 * (T32.regsOf reglist).length

/-- Half as many registers as the immediate says, of two words each. -/
def vfpBytes (double : Bool) (imm8 : BitVec 8) : Nat := if double then 8 * (imm8.toNat / 2) else 4 * imm8.toNat

/-- The registers of a structure and how often it is repeated, by the type of the transfer. -/
def neonStructures (op : BitVec 4) : Option (Nat × Nat) :=
  match op.toNat with
  | 0x7 => some (1, 1)
  | 0xA => some (1, 2)
  | 0x6 => some (1, 3)
  | 0x2 => some (1, 4)
  | 0x8 | 0x9 => some (2, 1)
  | 0x3 => some (2, 2)
  | 0x4 | 0x5 => some (3, 1)
  | 0x0 | 0x1 => some (4, 1)
  | _ => none

def neonMultipleAccess (isLoad : Bool) (op : BitVec 4) : Access :=
  { transfer isLoad 0 with bytes := (neonStructures op).map fun n => n.1 * n.2 * 8 }

def neonOneBytes (op size : BitVec 2) : Nat := (op.toNat + 1) * 2 ^ size.toNat

def neonAllBytes (op size : BitVec 2) : Nat := (op.toNat + 1) * if size = 3 then 4 else 2 ^ size.toNat

def coprocessorAccess (isLoad : Bool) : Access := { transfer isLoad 0 with bytes := none }

def thumbAccess : ThumbInst → Access
  | .multiple16 isLoad _ reglist => transfer isLoad (listBytes reglist)
  | .reg16 i .. | .reg32 i .. | .imm8 i .. | .imm12 i .. => transferAccess i
  | .imm16 i .. => plainAccess i
  | .ldrPc16 _ => load 4
  | .sp16 isLoad _ | .exclusive32 isLoad .. => transfer isLoad 4
  | .pop16 reg => load (listBytes reg)
  | .push16 reg => store (listBytes reg)
  | .multiple32 .ldmea _ reglist | .multiple32 .ldmfd _ reglist => load (listBytes reglist)
  | .multiple32 .stmea _ reglist | .multiple32 .stmfd _ reglist => store (listBytes reglist)
  | .double isLoad .. => transfer isLoad (2 * 4)
  | .literal i .. => literalAccess i
  | .vpop double regs => load (vfpBytes double regs)
  | .vpush double regs => store (vfpBytes double regs)
  | .exclusive isLoad size _ => transfer isLoad (exclusiveBytes size)
  | .vfpMultiple isLoad double _ _ _ imm8 => transfer isLoad (vfpBytes double imm8)
  | .vfpSingle isLoad double .. => transfer isLoad (if double then 8 else 4)
  | .neonMultiple isLoad op _ => neonMultipleAccess isLoad op
  | .neonOne isLoad op size _ => transfer isLoad (neonOneBytes op size)
  | .neonAll op size _ => load (neonAllBytes op size)
  | .coprocessor isLoad => coprocessorAccess isLoad
  | .other => nothing

def singleAccess : Single → Access
  | .ldr | .ldrt => load 4
  | .ldrb | .ldrbt => load 1
  | .str | .strt => store 4
  | .strb | .strbt => store 1

def halfAccess : Half → Access
  | .ldrd => load (2 * 4)
  | .ldrh | .ldrht | .ldrsh | .ldrsht => load 2
  | .ldrsb | .ldrsbt => load 1
  | .strd => store (2 * 4)
  | .strh | .strht => store 2

def armAccess : ArmInst → Access
  | .single i .. => singleAccess i
  | .half i .. => halfAccess i
  | .multiple isLoad _ registers .. => transfer isLoad (listBytes registers)
  | .exclusive isLoad none _ => transfer isLoad 4
  | .exclusive isLoad (some size) _ => transfer isLoad (exclusiveBytes size)
  | .vfpMultiple isLoad double _ _ _ imm8 => transfer isLoad (vfpBytes double imm8)
  | .vfpSingle isLoad double .. => transfer isLoad (if double then 8 else 4)
  | .neonMultiple isLoad op _ => neonMultipleAccess isLoad op
  | .neonOne isLoad op size _ => transfer isLoad (neonOneBytes op size)
  | .neonAll op size _ => load (neonAllBytes op size)
  | .coprocessor isLoad => coprocessorAccess isLoad
  | .other => nothing

end AArch32

section Riscv

open RvLoadStore

def sizeBytes : Size → Nat
  | .w => 4
  | .d => 8

def loadBytes : Load → Nat
  | .lb | .lbu => 1
  | .lh | .lhu => 2
  | .lw | .lwu | .flw => 4
  | .ld | .fld => 8

def storeBytes : Store → Nat
  | .sb => 1
  | .sh => 2
  | .sw | .fsw => 4
  | .sd | .fsd => 8

/-- A store conditional only writes; a vector's length is in a register. -/
def riscvAccess : RiscvInst → Access
  | .known (.cLoad i) => load (if i = .lw then 4 else 8)
  | .known (.cStore i) => store (if i = .sw then 4 else 8)
  | .known (.cLoadSp i) => load (if i = .lw ∨ i = .flw then 4 else 8)
  | .known (.cStoreSp i) => store (if i = .sw then 4 else 8)
  | .known (.load i) => load (loadBytes i)
  | .known (.store i) => store (storeBytes i)
  | .known (.lr size) => load (sizeBytes size)
  | .known (.amo .sc size) => store (sizeBytes size)
  | .known (.amo _ size) => update (sizeBytes size)
  | .known (.vector .load _) => { nothing with reads := true }
  | .known (.vector .store _) => { nothing with writes := true }
  | .known (.vector .amo _) => { nothing with reads := true, writes := true }
  | .flh => load 2
  | .fsh => store 2
  | .cboZero => { nothing with writes := true }
  | .known .other => nothing

end Riscv

end Architecture

end Mambo.AccessSize
