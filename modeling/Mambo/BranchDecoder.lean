import Mambo.A64Scan
import Mambo.AArch32Scan
import Mambo.RvScan

namespace Mambo.BranchDecoder

open AArch32Scan (ThumbInst ThumbState ArmInst DataProcOp specialRdn itGetNoOfInst al)
open T32 (pc sp lr)

abbrev BranchType := BitVec 14

section Kinds

def branchNone : BranchType := 1 <<< 0

def branchDirect : BranchType := 1 <<< 1

def branchIndirect : BranchType := 1 <<< 2

def branchReturn : BranchType := 1 <<< 3

def branchCond : BranchType := 1 <<< 4

def branchCondPsr : BranchType := 1 <<< 5

def branchCondCbz : BranchType := 1 <<< 6

def branchCondTbz : BranchType := 1 <<< 7

def branchCondIt : BranchType := 1 <<< 8

def branchCall : BranchType := 1 <<< 9

def branchInterworking : BranchType := 1 <<< 10

def branchTable : BranchType := 1 <<< 11

def riscvBranch : BranchType := 1 <<< 12

def riscvJump : BranchType := 1 <<< 13

def Has (type kind : BranchType) : Prop := type &&& kind ≠ 0

instance (type kind : BranchType) : Decidable (Has type kind) := inferInstanceAs (Decidable (_ ≠ _))

end Kinds

section Thumb

/-- The part of the state of an IT block that the condition of a plugin comes from. -/
structure ItState where
  condInstAfterIt : Nat
  itCond : BitVec 4
  itMask : BitVec 32

def itStart (condition mask : BitVec 4) : ItState :=
  { condInstAfterIt := itGetNoOfInst mask + 1
    itCond := condition
    itMask := mask.setWidth 32 ||| (condition.setWidth 32 &&& 1) <<< 4 }

def doItIter (s : ItState) : ItState :=
  if s.condInstAfterIt > 0 then
    { s with condInstAfterIt := s.condInstAfterIt - 1, itMask := (s.itMask <<< 1) &&& 0x3F }
  else s

def armInverseCondCode (cond : BitVec 4) : BitVec 4 := if cond = 14 ∨ cond = 15 then al else cond ^^^ 1

/-- The condition of the context of a callback, for other instructions than B with a
condition. -/
def thumbCond (s : ItState) : BitVec 4 :=
  if s.condInstAfterIt > 0 then
    if (s.itMask >>> 5) &&& 1 = s.itCond.setWidth 32 &&& 1 then s.itCond else armInverseCondCode s.itCond
  else al

def underIt (cond : BitVec 4) (type : BranchType) : BranchType :=
  if type ≠ branchNone ∧ type &&& branchCond = 0 ∧ cond ≠ al then
    type ||| (branchCond ||| branchCondPsr ||| branchCondIt)
  else type

def getThumbBranchType (inst : ThumbInst) (cond : BitVec 4) : BranchType :=
  underIt cond <| match inst with
    | .specialDataProc op dn rm rdn =>
        if op = .movh ∧ specialRdn dn rdn = pc then branchIndirect ||| if rm = lr then branchReturn else 0
        else branchNone
    | .pop reglist =>
        if reglist.getLsbD 8 then branchIndirect ||| branchReturn ||| branchInterworking else branchNone
    | .ldri32 form unprivileged rt rn .. =>
        if form = .word ∧ unprivileged = false ∧ rt = pc then
          branchIndirect ||| branchInterworking ||| if rn = sp then branchReturn else 0
        else branchNone
    | .ldr32 form rn rt _ =>
        if form = .word ∧ rt = pc then branchIndirect ||| branchInterworking ||| if rn = sp then branchReturn else 0
        else branchNone
    | .ldm32 _ _ rn reglist =>
        if reglist.getLsbD 15 then branchIndirect ||| branchInterworking ||| if rn = sp then branchReturn else 0
        else branchNone
    | .bx link rm =>
        if link then branchIndirect ||| branchCall ||| branchInterworking
        else branchIndirect ||| branchInterworking ||| if rm = lr then branchReturn else 0
    | .branch32 form => match form with
        | .b => branchDirect
        | .bl => branchDirect ||| branchCall
        | .blArm => branchDirect ||| branchCall ||| branchInterworking
    | .b16 _ => branchDirect
    | .cbz .. => branchDirect ||| branchCond ||| branchCondCbz
    | .bCond16 _ | .bCond32 _ => branchDirect ||| branchCond ||| branchCondPsr
    | .tb .. => branchIndirect ||| branchTable
    | _ => branchNone

end Thumb

section Arm

def armCond (inst : ArmInst) : BitVec 4 := if inst.conditionCode = 15 then al else inst.conditionCode

def underCond (cond : BitVec 4) (type : BranchType) : BranchType :=
  if type ≠ branchNone ∧ cond ≠ al then type ||| (branchCond ||| branchCondPsr) else type

def getArmBranchType (inst : ArmInst) : BranchType :=
  underCond (armCond inst) <| match inst with
    | .dataProc _ _ _ _ rd .. => if rd = pc then branchIndirect ||| branchInterworking else branchNone
    | .bx _ link rn =>
        if link then branchIndirect ||| branchInterworking ||| branchCall
        else branchIndirect ||| branchInterworking ||| if rn = lr then branchReturn else 0
    | .ldm _ rn regs .. =>
        if regs.getLsbD 15 then branchIndirect ||| branchInterworking ||| if rn = sp then branchReturn else 0
        else branchNone
    | .ldr _ byte _ rd rn .. =>
        if byte = false ∧ rd = pc then branchIndirect ||| branchInterworking ||| if rn = sp then branchReturn else 0
        else branchNone
    | .b _ link _ => if link then branchDirect ||| branchCall else branchDirect
    | .blxi .. => branchDirect ||| branchCall ||| branchInterworking
    | .udf | .other _ => branchNone

end Arm

def getA64BranchType : A64Scan.Guest → BranchType
  | .cbzCbnz .. => branchDirect ||| branchCond ||| branchCondCbz
  | .bCond .. => branchDirect ||| branchCond ||| branchCondPsr
  | .tbzTbnz .. => branchDirect ||| branchCond ||| branchCondTbz
  | .indirect .br _ => branchIndirect
  | .indirect .blr _ => branchIndirect ||| branchCall
  | .indirect .ret _ => branchIndirect ||| branchReturn
  | .bBl op _ => branchDirect ||| if op = 1 then branchCall else 0
  | _ => branchNone

def getRiscvBranchType : RvScan.Guest → BranchType
  | .branch .. | .cBranch .. => branchDirect ||| riscvBranch ||| branchCond
  | .cJ _ => branchDirect ||| riscvJump
  | .jal .. => branchDirect ||| riscvJump ||| branchCall
  | .cJr rs1 => branchIndirect ||| riscvJump ||| if rs1 = Rv.ra then branchReturn else 0
  | .jalr _ rs1 _ => branchIndirect ||| riscvJump ||| if rs1 = Rv.ra then branchReturn else branchCall
  | .cJalr _ => branchIndirect ||| riscvJump ||| branchCall
  | _ => branchNone

end Mambo.BranchDecoder
