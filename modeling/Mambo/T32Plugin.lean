import Mambo.A32

namespace Mambo.T32Plugin

open Bytes
open T32 (Word Reg State)

/-- The instructions that the helpers of plugins emit: those of the code cache and some more. -/
inductive Inst
  | core (i : T32.Inst)
  | addwi32 (imm1 : BitVec 1) (rn : Reg) (imm3 : BitVec 3) (rd : Reg) (imm8 : BitVec 8)
  | subwi32 (imm1 : BitVec 1) (rn : Reg) (imm3 : BitVec 3) (rd : Reg) (imm8 : BitVec 8)
  | add32 (rn : Reg) (imm3 : BitVec 3) (rd : Reg) (imm2 shiftType : BitVec 2) (rm : Reg)
  | sub32 (rn : Reg) (imm3 : BitVec 3) (rd : Reg) (imm2 shiftType : BitVec 2) (rm : Reg)
  | stmfd32 (rn : Reg) (reglist : BitVec 16)
  | bCond32 (signBit : BitVec 1) (condition : BitVec 4) (offsetHigh : BitVec 6) (j1 j2 : BitVec 1)
      (offsetLow : BitVec 11)
  | bl32 (signBit : BitVec 1) (offsetHigh : BitVec 10) (j1 j2 : BitVec 1) (offsetLow : BitVec 11)
  | blArm32 (signBit : BitVec 1) (offsetHigh : BitVec 10) (j1 j2 : BitVec 1) (offsetLow : BitVec 11)
  deriving DecidableEq

def Inst.size : Inst → Nat
  | .core i => i.size
  | _ => 4

section Execution

def imm12 (imm1 : BitVec 1) (imm3 : BitVec 3) (imm8 : BitVec 8) : BitVec 12 := imm1 ++ imm3 ++ imm8

def condOffset (signBit : BitVec 1) (offsetHigh : BitVec 6) (j1 j2 : BitVec 1) (offsetLow : BitVec 11) : Word :=
  (signBit ++ j2 ++ j1 ++ offsetHigh ++ offsetLow ++ (0 : BitVec 1)).signExtend 32

/-- The base of an addition of a plain immediate, which is aligned where it is the counter. -/
def base (s : State) (rn : Reg) : Word := if rn = T32.pc then (s.pc + 4) &&& ~~~3 else s.r rn

/-- Outside of IT blocks; none where the architecture leaves the outcome open. -/
def exec (i : Inst) (s : State) : Option State :=
  let next := s.pc + BitVec.ofNat 32 i.size
  match i with
  | .core i => some (T32.perform i s)
  | .addwi32 imm1 rn imm3 rd imm8 =>
    if rd = T32.pc then none else some ((s.set rd (base s rn + (imm12 imm1 imm3 imm8).setWidth 32)).goto next)
  | .subwi32 imm1 rn imm3 rd imm8 =>
    if rd = T32.pc then none else some ((s.set rd (base s rn - (imm12 imm1 imm3 imm8).setWidth 32)).goto next)
  | .add32 rn imm3 rd imm2 shiftType rm =>
    if rd = T32.pc ∨ rn = T32.pc ∨ rm = T32.pc then none
    else some ((s.set rd (s.r rn + A32.shiftImm shiftType (imm3 ++ imm2) s.flags.c (s.r rm))).goto next)
  | .sub32 rn imm3 rd imm2 shiftType rm =>
    if rd = T32.pc ∨ rn = T32.pc ∨ rm = T32.pc then none
    else some ((s.set rd (s.r rn - A32.shiftImm shiftType (imm3 ++ imm2) s.flags.c (s.r rm))).goto next)
  | .stmfd32 rn reglist =>
    let regs := T32.regsOf reglist
    let bottom := s.r rn - BitVec.ofNat 32 (4 * regs.length)
    some (((s.setMem (WordMemory.storeWords s.mem bottom (regs.map s.r))).set rn bottom).goto next)
  | .bCond32 signBit condition offsetHigh j1 j2 offsetLow =>
    -- the conditions 14 and 15 stand for other instructions
    if 14 ≤ condition.toNat then none
    else some (s.goto
      (if A64.condHolds condition s.flags then s.pc + 4 + condOffset signBit offsetHigh j1 j2 offsetLow else next))
  | .bl32 signBit offsetHigh j1 j2 offsetLow =>
    some ((s.set T32.lr (next + 1)).goto (s.pc + 4 + T32.branchOffset signBit offsetHigh j1 j2 offsetLow))
  | .blArm32 signBit offsetHigh j1 j2 offsetLow =>
    if offsetLow.getLsbD 0 then none
    else
      some { (s.set T32.lr (next + 1)).goto
          (((s.pc + 4) &&& ~~~3) + T32.branchOffset signBit offsetHigh j1 j2 offsetLow) with thumb := false }

def execAll (is : List Inst) (s : State) : Option State := is.foldlM (fun s i => exec i s) s

variable {is js : List Inst} {i : Inst} {s : State}

@[simp] theorem execAll_nil : execAll [] s = some s := rfl

@[simp] theorem execAll_cons : execAll (i :: is) s = (exec i s).bind (execAll is) := rfl

theorem execAll_append : execAll (is ++ js) s = (execAll is s).bind (execAll js) := List.foldlM_append

end Execution

end Mambo.T32Plugin
