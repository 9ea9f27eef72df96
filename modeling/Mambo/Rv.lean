import Mambo.BitPlacement
import Mambo.ByteMemory
import Mambo.CodeRuns
import Mathlib.Logic.Function.Basic

namespace Mambo.Rv

open BitPlacement Bytes ByteMemory CodeRuns

abbrev Word := BitVec 64

abbrev Reg := BitVec 5

/-- The instructions that the encoder is asked for, with its arguments cut to
the fields it writes. -/
inductive Inst
  | lui (rd : Reg) (imm : BitVec 20)
  | auipc (rd : Reg) (imm : BitVec 20)
  | jal (rd : Reg) (imm : BitVec 20)
  | jalr (rd rs1 : Reg) (imm : BitVec 12)
  | branch (funct3 : BitVec 3) (rs1 rs2 : Reg) (immhi : BitVec 7) (immlo : BitVec 5)
  | ld (rd rs1 : Reg) (imm : BitVec 12)
  | sd (rs2 rs1 : Reg) (immhi : BitVec 7) (immlo : BitVec 5)
  | addi (rd rs1 : Reg) (imm : BitVec 12)
  | addiw (rd rs1 : Reg) (imm : BitVec 12)
  | slli (rd rs1 : Reg) (shamt : BitVec 6)
  | srli (rd rs1 : Reg) (shamt : BitVec 6)
  | add (rd rs1 rs2 : Reg)
  | sub (rd rs1 rs2 : Reg)
  | and (rd rs1 rs2 : Reg)
  | cSlli (rd : Reg) (nzuimmhi : BitVec 1) (nzuimmlo : BitVec 5)
  | cLdsp (rd : Reg) (uimmhi : BitVec 1) (uimmlo : BitVec 5)
  | cAddi16sp (nzimmhi : BitVec 1) (nzimmlo : BitVec 5)
  | cJr (rs1 : Reg)
  | cBeqz (rs1 : BitVec 3) (immhi : BitVec 3) (immlo : BitVec 5)
  | cBnez (rs1 : BitVec 3) (immhi : BitVec 3) (immlo : BitVec 5)
  deriving DecidableEq

structure State where
  pc : Word
  x : Reg → Word
  mem : Word → Byte

def zero : Reg := 0

def ra : Reg := 1

def sp : Reg := 2

def s1 : Reg := 9

def a0 : Reg := 10

def a1 : Reg := 11

def a2 : Reg := 12

namespace State

def goto (s : State) (p : Word) : State := { s with pc := p }

def get (s : State) (r : Reg) : Word := if r = zero then 0 else s.x r

def set (s : State) (r : Reg) (v : Word) : State := if r = zero then s else { s with x := Function.update s.x r v }

variable {s : State} {r r' : Reg} {v v' p : Word}

@[simp] theorem get_zero : s.get zero = 0 := if_pos rfl

@[simp] theorem get_set_self (hr : r ≠ zero) : (s.set r v).get r = v := by
  simp [get, set, hr]

@[simp] theorem get_set_of_ne (hne : r' ≠ r) : (s.set r v).get r' = s.get r' := by
  by_cases hr : r = zero
  · rw [set, if_pos hr]
  · simp [get, set, hr, Function.update_of_ne hne]

@[simp] theorem set_zero : s.set zero v = s := if_pos rfl

@[simp] theorem set_pc : (s.set r v).pc = s.pc := by
  rw [set]
  split <;> rfl

@[simp] theorem set_mem : (s.set r v).mem = s.mem := by
  rw [set]
  split <;> rfl

@[simp] theorem goto_pc : (s.goto p).pc = p := rfl

@[simp] theorem goto_goto : (s.goto v).goto p = s.goto p := rfl

@[simp] theorem get_goto : (s.goto p).get r = s.get r := rfl

theorem goto_self (h : s.pc = p) : s.goto p = s := by
  rw [← h]
  rfl

theorem set_goto : (s.goto p).set r v = (s.set r v).goto p := by
  rw [set, set]
  split <;> rfl

theorem set_set : (s.set r v).set r v' = s.set r v' := by
  by_cases hr : r = zero
  · simp [set, hr]
  · simp [set, hr]

theorem set_comm (hne : r ≠ r') : (s.set r v).set r' v' = (s.set r' v').set r v := by
  simp only [set]
  split_ifs
  · rfl
  · rfl
  · rfl
  · rw [Function.update_comm hne]

end State

/-- The compressed instructions take a halfword, the others two. -/
def Inst.size : Inst → Nat
  | .cSlli .. | .cLdsp .. | .cAddi16sp .. | .cJr .. | .cBeqz .. | .cBnez .. => 2
  | _ => 4

def extr {w : Nat} (n k : Nat) (v : BitVec w) : BitVec w := (v.extractLsb' k n).setWidth w

theorem getLsbD_extr {w n k i : Nat} (v : BitVec w) :
    (extr n k v).getLsbD i = (decide (i < w) && (decide (i < n) && v.getLsbD (k + i))) := by
  rw [extr, BitVec.getLsbD_setWidth, BitVec.getLsbD_extractLsb']

@[fun_prop]
theorem bitwise_extr {m w : Nat} {f : BitVec m → BitVec w} (hf : Bitwise f) (n k : Nat) :
    Bitwise fun v => extr n k (f v) :=
  (hf.extractLsb' k n).setWidth w

def decodeJImm (field : BitVec 20) : Word :=
  let imm : Word := field.setWidth 64
  ((extr 10 9 imm <<< 1 ||| extr 1 8 imm <<< 11 ||| extr 8 0 imm <<< 12 |||
    extr 1 19 imm <<< 20).setWidth 21).signExtend 64

def decodeBImm (immhi : BitVec 7) (immlo : BitVec 5) : Word :=
  let hi : Word := immhi.setWidth 64
  let lo : Word := immlo.setWidth 64
  ((extr 4 1 lo <<< 1 ||| extr 6 0 hi <<< 5 ||| extr 1 0 lo <<< 11 ||| extr 1 6 hi <<< 12).setWidth 13).signExtend 64

def decodeCbOffset (immhi : BitVec 3) (immlo : BitVec 5) : Word :=
  let hi : Word := immhi.setWidth 64
  let lo : Word := immlo.setWidth 64
  ((extr 2 1 lo <<< 1 ||| extr 2 0 hi <<< 3 ||| extr 1 0 lo <<< 5 ||| extr 2 3 lo <<< 6 |||
    extr 1 2 hi <<< 8).setWidth 9).signExtend 64

def sImm (immhi : BitVec 7) (immlo : BitVec 5) : Word := (immhi ++ immlo).signExtend 64

def ldspImm (uimmhi : BitVec 1) (uimmlo : BitVec 5) : Word :=
  (uimmlo.extractLsb' 0 3 ++ uimmhi ++ uimmlo.extractLsb' 3 2 ++ 0#3).setWidth 64

def addi16spImm (nzimmhi : BitVec 1) (nzimmlo : BitVec 5) : Word :=
  (nzimmhi ++ nzimmlo.extractLsb' 1 2 ++ nzimmlo.extractLsb' 3 1 ++ nzimmlo.extractLsb' 0 1 ++
    nzimmlo.extractLsb' 4 1 ++ 0#4).signExtend 64

def uImm (imm : BitVec 20) : Word := imm.signExtend 64 <<< 12

/-- The conditions of the branches, by their funct3 field; 2 and 3 are none. -/
def condHolds (funct3 : BitVec 3) (v w : Word) : Bool :=
  let base := match funct3.toNat / 2 with
    | 0 => v == w
    | 2 => v.slt w
    | 3 => v.ult w
    | _ => false
  if funct3.toNat % 2 = 1 then !base else base

def wide (r : BitVec 3) : Reg := r.setWidth 5 + 8

def exec (i : Inst) (s : State) : State :=
  let next := s.pc + BitVec.ofNat 64 i.size
  match i with
  | .lui rd imm => (s.set rd (uImm imm)).goto next
  | .auipc rd imm => (s.set rd (s.pc + uImm imm)).goto next
  | .jal rd imm => (s.set rd next).goto (s.pc + decodeJImm imm)
  | .jalr rd rs1 imm => (s.set rd next).goto ((s.get rs1 + imm.signExtend 64) &&& ~~~1)
  | .branch funct3 rs1 rs2 immhi immlo =>
    s.goto (if condHolds funct3 (s.get rs1) (s.get rs2) then s.pc + decodeBImm immhi immlo else next)
  | .ld rd rs1 imm => (s.set rd (load64 s.mem (s.get rs1 + imm.signExtend 64))).goto next
  | .sd rs2 rs1 immhi immlo => { s with mem := store64 s.mem (s.get rs1 + sImm immhi immlo) (s.get rs2) }.goto next
  | .addi rd rs1 imm => (s.set rd (s.get rs1 + imm.signExtend 64)).goto next
  | .addiw rd rs1 imm => (s.set rd (((s.get rs1 + imm.signExtend 64).setWidth 32).signExtend 64)).goto next
  | .slli rd rs1 shamt => (s.set rd (s.get rs1 <<< shamt.toNat)).goto next
  | .srli rd rs1 shamt => (s.set rd (s.get rs1 >>> shamt.toNat)).goto next
  | .add rd rs1 rs2 => (s.set rd (s.get rs1 + s.get rs2)).goto next
  | .sub rd rs1 rs2 => (s.set rd (s.get rs1 - s.get rs2)).goto next
  | .and rd rs1 rs2 => (s.set rd (s.get rs1 &&& s.get rs2)).goto next
  | .cSlli rd nzuimmhi nzuimmlo => (s.set rd (s.get rd <<< (nzuimmhi ++ nzuimmlo).toNat)).goto next
  | .cLdsp rd uimmhi uimmlo => (s.set rd (load64 s.mem (s.get sp + ldspImm uimmhi uimmlo))).goto next
  | .cAddi16sp nzimmhi nzimmlo => (s.set sp (s.get sp + addi16spImm nzimmhi nzimmlo)).goto next
  | .cJr rs1 => s.goto (s.get rs1 &&& ~~~1)
  | .cBeqz rs1 immhi immlo => s.goto (if s.get (wide rs1) == 0 then s.pc + decodeCbOffset immhi immlo else next)
  | .cBnez rs1 immhi immlo => s.goto (if s.get (wide rs1) == 0 then next else s.pc + decodeCbOffset immhi immlo)

def rv : Processor 64 Inst State where
  pc := State.pc
  size i := BitVec.ofNat 64 i.size
  exec := exec

/-- A halfword of the code: the first of an instruction, or the second of a
four-byte one. -/
inductive Cell
  | low (i : Inst)
  | high (i : Inst)
  deriving DecidableEq

abbrev Code := Word → Option Cell

/-- The instruction at an address, where all of it is there. -/
def fetch (code : Code) (a : Word) : Option Inst :=
  match code a with
  | some (.low i) => if i.size = 2 ∨ code (a + 2) = some (.high i) then some i else none
  | _ => none

theorem steps_exec {code : Code} {s t : State} {p : Word} {i : Inst} (hfetch : fetch code p = some i)
    (hexec : exec i (s.goto p) = t) : Steps rv (fetch code) (s.goto p) t := by
  rw [← hexec]
  exact steps_of_fetch hfetch

end Mambo.Rv
