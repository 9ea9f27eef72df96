import Mambo.ByteMemory
import Mambo.CodeRuns
import Mathlib.Logic.Function.Basic

namespace Mambo.A64

open Bytes ByteMemory CodeRuns

abbrev Word := BitVec 64

abbrev Reg := BitVec 5

/-- The instructions that the encoder is asked for. The fields are its arguments;
those that the callers fix to one value are in the name: 64-bit operands, no
shift for orr, and the pre-indexed, post-indexed or unscaled form of an access. -/
inductive Inst
  | nop
  | bCond (imm19 : BitVec 19) (cond : BitVec 4)
  | cbzCbnz (sf op : BitVec 1) (imm19 : BitVec 19) (rt : Reg)
  | tbzTbnz (b5 op : BitVec 1) (b40 : BitVec 5) (imm14 : BitVec 14) (rt : Reg)
  | b (imm26 : BitVec 26)
  | br (rn : Reg)
  | stpPre (imm7 : BitVec 7) (rt2 rn rt : Reg)
  | ldpPost (imm7 : BitVec 7) (rt2 rn rt : Reg)
  | strPre (imm9 : BitVec 9) (rn rt : Reg)
  | ldrPost (imm9 : BitVec 9) (rn rt : Reg)
  | ldur (imm9 : BitVec 9) (rn rt : Reg)
  | movz (hw : BitVec 2) (imm16 : BitVec 16) (rd : Reg)
  | movk (hw : BitVec 2) (imm16 : BitVec 16) (rd : Reg)
  | orr (rm rn rd : Reg)
  | andImm (immr imms : BitVec 6) (rn rd : Reg)
  | add (rm : Reg) (imm6 : BitVec 6) (rn rd : Reg)
  | sub (rm : Reg) (imm6 : BitVec 6) (rn rd : Reg)
  deriving DecidableEq

structure Flags where
  n : Bool
  z : Bool
  c : Bool
  v : Bool

/-- Register 31 is either zero or the stack pointer and is not among the x. -/
structure State where
  pc : Word
  x : Reg → Word
  sp : Word
  flags : Flags
  mem : Word → Byte

def xzr : Reg := 31

def lr : Reg := 30

namespace State

def goto (s : State) (p : Word) : State := { s with pc := p }

def next (s : State) : State := s.goto (s.pc + 4)

def get (s : State) (r : Reg) : Word := if r = xzr then 0 else s.x r

def set (s : State) (r : Reg) (v : Word) : State := if r = xzr then s else { s with x := Function.update s.x r v }

def getBase (s : State) (r : Reg) : Word := if r = xzr then s.sp else s.x r

def setBase (s : State) (r : Reg) (v : Word) : State := if r = xzr then { s with sp := v } else s.set r v

variable {s : State} {r r' : Reg} {v v' p : Word}

@[simp] theorem get_set_self (hr : r ≠ xzr) : (s.set r v).get r = v := by
  simp [get, set, hr]

@[simp] theorem get_set_of_ne (hne : r' ≠ r) : (s.set r v).get r' = s.get r' := by
  by_cases hr : r = xzr
  · rw [set, if_pos hr]
  · simp [get, set, hr, Function.update_of_ne hne]

theorem set_x_of_ne (hne : r' ≠ r) : (s.set r v).x r' = s.x r' := by
  rw [set]
  split
  · rfl
  · exact Function.update_of_ne hne _ _

@[simp] theorem set_pc : (s.set r v).pc = s.pc := by
  rw [set]
  split <;> rfl

@[simp] theorem set_sp : (s.set r v).sp = s.sp := by
  rw [set]
  split <;> rfl

@[simp] theorem set_mem : (s.set r v).mem = s.mem := by
  rw [set]
  split <;> rfl

@[simp] theorem set_flags : (s.set r v).flags = s.flags := by
  rw [set]
  split <;> rfl

@[simp] theorem goto_pc : (s.goto p).pc = p := rfl

@[simp] theorem goto_goto : (s.goto v).goto p = s.goto p := rfl

@[simp] theorem get_goto : (s.goto p).get r = s.get r := rfl

theorem next_goto : (s.goto p).next = s.goto (p + 4) := rfl

theorem goto_self (h : s.pc = p) : s.goto p = s := by
  rw [← h]
  rfl

theorem set_goto : (s.goto p).set r v = (s.set r v).goto p := by
  rw [set, set]
  split <;> rfl

theorem set_set : (s.set r v).set r v' = s.set r v' := by
  by_cases hr : r = xzr
  · simp [set, hr]
  · simp [set, hr]

theorem set_comm (hne : r ≠ r') : (s.set r v).set r' v' = (s.set r' v').set r v := by
  simp only [set]
  split_ifs
  · rfl
  · rfl
  · rfl
  · rw [Function.update_comm hne]

end State

def condHolds (cond : BitVec 4) (f : Flags) : Bool :=
  let base := match cond.toNat / 2 with
    | 0 => f.z
    | 1 => f.c
    | 2 => f.n
    | 3 => f.v
    | 4 => f.c && !f.z
    | 5 => f.n == f.v
    | 6 => f.n == f.v && !f.z
    | _ => true
  if cond.toNat % 2 = 1 ∧ cond ≠ 15 then !base else base

def operand (sf : BitVec 1) (v : Word) : Word := if sf = 1 then v else v &&& 0xFFFFFFFF

def taken : Inst → State → Bool
  | .bCond _ cond, s => condHolds cond s.flags
  | .cbzCbnz sf op _ rt, s => (operand sf (s.get rt) == 0) == (op == 0)
  | .tbzTbnz b5 op b40 _ rt, s => (s.get rt).getLsbD (b5.toNat * 32 + b40.toNat) == (op == 1)
  | _, _ => false

/-- The byte offset of a branch, from its immediate. -/
def offset {n : Nat} (imm : BitVec n) : Word := imm.signExtend 64 <<< 2

def bitMask (immr imms : BitVec 6) : Word := (BitVec.ofNat 64 (2 ^ (imms.toNat + 1) - 1)).rotateRight immr.toNat

def branch (s : State) (cond : Bool) (distance : Word) : State :=
  if cond then s.goto (s.pc + distance) else s.next

def exec (i : Inst) (s : State) : State :=
  match i with
  | .nop => s.next
  | .bCond imm19 _ => branch s (taken i s) (offset imm19)
  | .cbzCbnz _ _ imm19 _ => branch s (taken i s) (offset imm19)
  | .tbzTbnz _ _ _ imm14 _ => branch s (taken i s) (offset imm14)
  | .b imm26 => s.goto (s.pc + offset imm26)
  | .br rn => s.goto (s.get rn)
  | .stpPre imm7 rt2 rn rt =>
    let addr := s.getBase rn + imm7.signExtend 64 <<< 3
    let mem := store64 (store64 s.mem addr (s.get rt)) (addr + 8) (s.get rt2)
    ({ s with mem := mem }.setBase rn addr).next
  | .ldpPost imm7 rt2 rn rt =>
    let addr := s.getBase rn
    (((s.set rt (load64 s.mem addr)).set rt2 (load64 s.mem (addr + 8))).setBase rn
      (addr + imm7.signExtend 64 <<< 3)).next
  | .strPre imm9 rn rt =>
    let addr := s.getBase rn + imm9.signExtend 64
    ({ s with mem := store64 s.mem addr (s.get rt) }.setBase rn addr).next
  | .ldrPost imm9 rn rt =>
    let addr := s.getBase rn
    ((s.set rt (load64 s.mem addr)).setBase rn (addr + imm9.signExtend 64)).next
  | .ldur imm9 rn rt => (s.set rt (load64 s.mem (s.getBase rn + imm9.signExtend 64))).next
  | .movz hw imm16 rd => (s.set rd (imm16.setWidth 64 <<< (hw.toNat * 16))).next
  | .movk hw imm16 rd =>
    let keep := s.get rd &&& ~~~((0xFFFF : Word) <<< (hw.toNat * 16))
    (s.set rd (keep ||| imm16.setWidth 64 <<< (hw.toNat * 16))).next
  | .orr rm rn rd => (s.set rd (s.get rn ||| s.get rm)).next
  | .andImm immr imms rn rd => (s.set rd (s.get rn &&& bitMask immr imms)).next
  | .add rm imm6 rn rd => (s.set rd (s.get rn + s.get rm <<< imm6.toNat)).next
  | .sub rm imm6 rn rd => (s.set rd (s.get rn - s.get rm <<< imm6.toNat)).next

def a64 : Processor 64 Inst State where
  pc := State.pc
  size _ := 4
  exec := exec

theorem a64_size (i : Inst) : a64.size i = 4 := rfl

theorem steps_exec {code : Word → Option Inst} {s t : State} {p : Word} {i : Inst} (hfetch : code p = some i)
    (hexec : exec i (s.goto p) = t) : Steps a64 code (s.goto p) t := by
  rw [← hexec]
  exact steps_of_fetch hfetch

end Mambo.A64
