import Mambo.T32

namespace Mambo.A32

open Bytes WordMemory
open T32 (Word Reg State)

/-- The A32 instructions that the helpers of plugins emit, unconditional but for the branches. -/
inductive Inst
  | addI (rd rn : Reg) (operand2 : BitVec 12)
  | subI (rd rn : Reg) (operand2 : BitVec 12)
  | add (rd rn : Reg) (operand2 : BitVec 12)
  | sub (rd rn : Reg) (operand2 : BitVec 12)
  | mov (rd : Reg) (operand2 : BitVec 12)
  | movw (rd : Reg) (rn : BitVec 4) (operand2 : BitVec 12)
  | movt (rd : Reg) (rn : BitVec 4) (operand2 : BitVec 12)
  | b (cond : BitVec 4) (offsetBranch : BitVec 24)
  | bl (cond : BitVec 4) (offsetBranch : BitVec 24)
  | blx (rn : Reg)
  | push (registers : BitVec 16)
  | pop (registers : BitVec 16) (writeback : BitVec 1)
  deriving DecidableEq

section Operands

/-- Register 15 reads as the address of the instruction plus eight. -/
def get (s : State) (r : Reg) : Word := if r = T32.pc then s.pc + 8 else s.r r

def expandImm (operand2 : BitVec 12) : Word :=
  ((operand2.extractLsb' 0 8).setWidth 32).rotateRight (2 * (operand2.extractLsb' 8 4).toNat)

/-- A shift by an immediate: zero stands for 32 in LSR and ASR, and for RRX in ROR. -/
def shiftImm (shiftType : BitVec 2) (imm5 : BitVec 5) (carry : Bool) (v : Word) : Word :=
  match shiftType.toNat with
  | 0 => v <<< imm5.toNat
  | 1 => if imm5 = 0 then 0 else v >>> imm5.toNat
  | 2 => v.sshiftRight (if imm5 = 0 then 32 else imm5.toNat)
  | _ => if imm5 = 0 then BitVec.ofBool carry ++ v.extractLsb' 1 31 else v.rotateRight imm5.toNat

theorem shiftImm_zero (carry : Bool) (v : Word) : shiftImm 0 0 carry v = v := BitVec.shiftLeft_zero v

def shiftedReg (operand2 : BitVec 12) (s : State) : Word :=
  shiftImm (operand2.extractLsb' 5 2) (operand2.extractLsb' 7 5) s.flags.c (get s (operand2.extractLsb' 0 4))

end Operands

section Execution

def next (s : State) : State := s.goto (s.pc + 4)

/-- The result of a data-processing instruction, which branches where it is the counter's. -/
def write (rd : Reg) (v : Word) (s : State) : State := if rd = T32.pc then T32.bxTo v s else next (s.set rd v)

def branchOffset (offsetBranch : BitVec 24) : Word := (offsetBranch ++ 0#2).signExtend 32

/-- `BLX` with an immediate takes the place of a branch in the unconditional space. -/
def blxImm (h : BitVec 1) (offsetBranch : BitVec 24) (s : State) : State :=
  { (s.set T32.lr (s.pc + 4)).goto (s.pc + 8 + (offsetBranch ++ h ++ 0#1).signExtend 32) with thumb := true }

def imm16 (rn : BitVec 4) (operand2 : BitVec 12) : BitVec 16 := rn ++ operand2

def exec (i : Inst) (s : State) : State :=
  match i with
  | .addI rd rn operand2 => write rd (get s rn + expandImm operand2) s
  | .subI rd rn operand2 => write rd (get s rn - expandImm operand2) s
  | .add rd rn operand2 => write rd (get s rn + shiftedReg operand2 s) s
  | .sub rd rn operand2 => write rd (get s rn - shiftedReg operand2 s) s
  | .mov rd operand2 => write rd (shiftedReg operand2 s) s
  | .movw rd rn operand2 => next (s.set rd ((imm16 rn operand2).setWidth 32))
  | .movt rd rn operand2 => next (s.set rd (imm16 rn operand2 ++ (get s rd).extractLsb' 0 16))
  | .b cond offsetBranch =>
    if cond = 15 then blxImm 0 offsetBranch s
    else if A64.condHolds cond s.flags then s.goto (s.pc + 8 + branchOffset offsetBranch) else next s
  | .bl cond offsetBranch =>
    if cond = 15 then blxImm 1 offsetBranch s
    else if A64.condHolds cond s.flags then (s.set T32.lr (s.pc + 4)).goto (s.pc + 8 + branchOffset offsetBranch)
    else next s
  | .blx rn => T32.bxTo (get s rn) (s.set T32.lr (s.pc + 4))
  | .push registers => next (T32.push (T32.regsOf registers) s)
  | .pop registers writeback =>
    let regs := T32.regsOf registers
    T32.ldm writeback T32.sp regs (s.r T32.sp) (s.r T32.sp + BitVec.ofNat 32 (4 * regs.length)) (s.pc + 4) s

def execAll (is : List Inst) (s : State) : State := is.foldl (fun s i => exec i s) s

variable {is js : List Inst} {i : Inst} {s : State} {rd rn r : Reg} {v : Word}

@[simp] theorem execAll_nil : execAll [] s = s := rfl

@[simp] theorem execAll_cons : execAll (i :: is) s = execAll is (exec i s) := rfl

theorem execAll_append : execAll (is ++ js) s = execAll js (execAll is s) := List.foldl_append

theorem get_of_ne (h : r ≠ T32.pc) : get s r = s.r r := if_neg h

theorem write_of_ne (h : rd ≠ T32.pc) : write rd v s = next (s.set rd v) := if_neg h

@[simp] theorem get_goto (h : r ≠ T32.pc) (p : Word) : get (s.goto p) r = get s r := by
  rw [get_of_ne h, get_of_ne h]
  rfl

end Execution

end Mambo.A32
