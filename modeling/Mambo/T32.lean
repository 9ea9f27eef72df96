import Mambo.A64
import Mambo.CodeCells
import Mambo.WordMemory

namespace Mambo.T32

open Bytes ByteMemory CodeRuns CodeCells WordMemory

abbrev Word := BitVec 32

abbrev Reg := BitVec 4

instance : LawfulBEq Reg := inferInstance

abbrev Flags := A64.Flags

/-- The instructions that the encoder is asked for. The fields are its arguments;
those that the callers fix to one value are left out: immediates of one byte, no
setting of flags, operands that are shifted left by less than four, literals
that lie behind the instruction. -/
inductive Inst
  | nop16
  | it16 (cond mask : BitVec 4)
  | bCond16 (condition : BitVec 4) (imm8 : BitVec 8)
  | movh16 (dn : BitVec 1) (rm : Reg) (rdn : BitVec 3)
  | cmpri16 (rdn : BitVec 3) (imm8 : BitVec 8)
  | push16 (reg : BitVec 9)
  | pop16 (reg : BitVec 9)
  | subSpI16 (imm7 : BitVec 7)
  | ldrSp16 (rd : BitVec 3) (imm8 : BitVec 8)
  | strSp16 (rd : BitVec 3) (imm8 : BitVec 8)
  | bx16 (rm : Reg)
  | blx16 (rm : Reg)
  | b32 (signBit : BitVec 1) (offsetHigh : BitVec 10) (j1 j2 : BitVec 1) (offsetLow : BitVec 11)
  | movwi32 (imm1 : BitVec 1) (imm4 : BitVec 4) (imm3 : BitVec 3) (rd : Reg) (imm8 : BitVec 8)
  | movti32 (imm1 : BitVec 1) (imm4 : BitVec 4) (imm3 : BitVec 3) (rd : Reg) (imm8 : BitVec 8)
  | cmpi32 (rn : Reg) (imm8 : BitVec 8)
  | cmp32 (rn rm : Reg)
  | addi32 (rn rd : Reg) (imm8 : BitVec 8)
  | orri32 (rn rd : Reg) (imm8 : BitVec 8)
  | and32 (rn rd rm : Reg)
  | add32 (rn rd : Reg) (imm2 : BitVec 2) (rm : Reg)
  | ldrb32 (rn rt : Reg) (shift : BitVec 2) (rm : Reg)
  | ldrh32 (rn rt : Reg) (shift : BitVec 2) (rm : Reg)
  | ldr32 (rn rt : Reg) (shift : BitVec 2) (rm : Reg)
  | ldri32 (rt rn : Reg) (imm8 : BitVec 8) (preIndex upwards writeback : BitVec 1)
  | ldrl32 (rt : Reg) (imm12 : BitVec 12)
  | ldmfd32 (writeback : BitVec 1) (rn : Reg) (reglist : BitVec 16)
  | ldmea32 (writeback : BitVec 1) (rn : Reg) (reglist : BitVec 16)
  | strwi32 (rt rn : Reg) (imm12 : BitVec 12)
  | tbb32 (rn rm : Reg)
  | tbh32 (rn rm : Reg)
  deriving DecidableEq

def Inst.size : Inst → Nat
  | .nop16 | .it16 .. | .bCond16 .. | .movh16 .. | .cmpri16 .. | .push16 .. | .pop16 .. | .subSpI16 .. | .ldrSp16 ..
  | .strSp16 .. | .bx16 .. | .blx16 .. => 2
  | _ => 4

abbrev Code := CodeCells.Code 32 Inst

/-- Register 15 is the program counter and is not among the r. -/
structure State where
  pc : Word
  thumb : Bool
  r : Reg → Word
  flags : Flags
  itstate : BitVec 8
  mem : Word → Byte

def sp : Reg := 13

def lr : Reg := 14

def pc : Reg := 15

namespace State

def goto (s : State) (p : Word) : State := { s with pc := p }

def get (s : State) (r : Reg) : Word := if r = T32.pc then s.pc + 4 else s.r r

def set (s : State) (r : Reg) (v : Word) : State := { s with r := Function.update s.r r v }

def setMem (s : State) (mem : Word → Byte) : State := { s with mem := mem }

variable {s : State} {r r' : Reg} {v v' p p' : Word} {mem : Word → Byte}

theorem get_of_ne (h : r ≠ T32.pc) : s.get r = s.r r := if_neg h

@[simp] theorem set_r_self : (s.set r v).r r = v := Function.update_self ..

@[simp] theorem set_r_of_ne (h : r' ≠ r) : (s.set r v).r r' = s.r r' := Function.update_of_ne h ..

theorem set_goto : (s.goto p).set r v = (s.set r v).goto p := rfl

theorem set_set : (s.set r v).set r v' = s.set r v' := by
  rw [set, set, Function.update_idem]
  rfl

@[simp] theorem goto_goto : (s.goto p).goto p' = s.goto p' := rfl

@[simp] theorem set_pc : (s.set r v).pc = s.pc := rfl

@[simp] theorem set_thumb : (s.set r v).thumb = s.thumb := rfl

@[simp] theorem set_flags : (s.set r v).flags = s.flags := rfl

@[simp] theorem set_itstate : (s.set r v).itstate = s.itstate := rfl

@[simp] theorem set_mem : (s.set r v).mem = s.mem := rfl

@[simp] theorem goto_pc : (s.goto p).pc = p := rfl

@[simp] theorem goto_r : (s.goto p).r = s.r := rfl

@[simp] theorem goto_thumb : (s.goto p).thumb = s.thumb := rfl

@[simp] theorem goto_flags : (s.goto p).flags = s.flags := rfl

@[simp] theorem goto_itstate : (s.goto p).itstate = s.itstate := rfl

@[simp] theorem goto_mem : (s.goto p).mem = s.mem := rfl

@[simp] theorem setMem_pc : (s.setMem mem).pc = s.pc := rfl

@[simp] theorem setMem_r : (s.setMem mem).r = s.r := rfl

@[simp] theorem setMem_thumb : (s.setMem mem).thumb = s.thumb := rfl

@[simp] theorem setMem_flags : (s.setMem mem).flags = s.flags := rfl

@[simp] theorem setMem_itstate : (s.setMem mem).itstate = s.itstate := rfl

@[simp] theorem setMem_mem : (s.setMem mem).mem = mem := rfl

end State

section Conditions

/-- The condition of the next instruction, where there is an IT block around it. -/
def passed (s : State) : Bool :=
  s.itstate.extractLsb' 0 4 == 0 || A64.condHolds (s.itstate.extractLsb' 4 4) s.flags

def itAdvance (it : BitVec 8) : BitVec 8 :=
  if it.extractLsb' 0 3 = 0 then 0 else it.extractLsb' 5 3 ++ (it.extractLsb' 0 5 <<< 1)

end Conditions

section Execution

def regsOf {n : Nat} (reglist : BitVec n) : List Reg := ((List.range n).filter fun i => reglist.getLsbD i).map (BitVec.ofNat 4)

/-- The list of a 16-bit push or pop, whose highest bit stands for lr or pc. -/
def regs16 (high : Reg) (reg : BitVec 9) : List Reg :=
  regsOf (reg.extractLsb' 0 8) ++ if reg.getLsbD 8 then [high] else []

def push (regs : List Reg) (s : State) : State :=
  let base := s.r sp - BitVec.ofNat 32 (4 * regs.length)
  (s.setMem (storeWords s.mem base (regs.map s.r))).set sp base

/-- Register 15 of the result is what is loaded for the program counter. -/
def loadRegs : List Reg → Word → State → State
  | [], _, s => s
  | r :: rs, a, s => loadRegs rs (a + 4) (s.set r (loadWord s.mem a))

def low (r : BitVec 3) : Reg := r.setWidth 4

/-- The address without the Thumb bit. -/
def entry (a : Word) : Word := a &&& ~~~1

def bxTo (v : Word) (s : State) : State := { s.goto (entry v) with thumb := v.getLsbD 0 }

def loadMultiple (regs : List Reg) (base next : Word) (s : State) : State :=
  if pc ∈ regs then bxTo ((loadRegs regs base s).r pc) (loadRegs regs base s) else (loadRegs regs base s).goto next

def ldm (writeback : BitVec 1) (rn : Reg) (regs : List Reg) (base result next : Word) (s : State) : State :=
  loadMultiple regs base next (if writeback = 1 ∧ rn ∉ regs then s.set rn result else s)

def loadTo (rt : Reg) (v next : Word) (s : State) : State :=
  if rt = pc then bxTo v s else (s.set rt v).goto next

def branchOffset (signBit : BitVec 1) (offsetHigh : BitVec 10) (j1 j2 : BitVec 1) (offsetLow : BitVec 11) : Word :=
  (signBit ++ ~~~(j1 ^^^ signBit) ++ ~~~(j2 ^^^ signBit) ++ offsetHigh ++ offsetLow ++ (0 : BitVec 1)).signExtend 32

def imm16 (imm1 : BitVec 1) (imm4 : BitVec 4) (imm3 : BitVec 3) (imm8 : BitVec 8) : BitVec 16 :=
  imm4 ++ imm1 ++ imm3 ++ imm8

def compare (x y : Word) : Flags :=
  { n := (x - y).msb, z := x == y, c := decide (y ≤ x), v := x.ssubOverflow y }

/-- The address that a table branch goes to, from the offset read in the table. -/
def tableTarget (s : State) (halfwords : Nat) : Word := s.pc + 4 + BitVec.ofNat 32 (2 * halfwords)

/-- What an instruction does where its condition holds; only branches set the counter. -/
def perform (i : Inst) (s : State) : State :=
  let next := s.pc + BitVec.ofNat 32 i.size
  match i with
  | .nop16 | .it16 .. => s.goto next
  | .bCond16 condition imm8 =>
    s.goto (if A64.condHolds condition s.flags then s.pc + 4 + (imm8 ++ (0 : BitVec 1)).signExtend 32 else next)
  | .movh16 dn rm rdn =>
    if dn ++ rdn = T32.pc then s.goto (entry (s.get rm)) else (s.set (dn ++ rdn) (s.get rm)).goto next
  | .cmpri16 rdn imm8 => { s with flags := compare (s.get (low rdn)) (imm8.setWidth 32) }.goto next
  | .push16 reg => (push (regs16 lr reg) s).goto next
  | .pop16 reg =>
    let regs := regs16 T32.pc reg
    loadMultiple regs (s.r sp) next (s.set sp (s.r sp + BitVec.ofNat 32 (4 * regs.length)))
  | .ldrSp16 rd imm8 => (s.set (low rd) (loadWord s.mem (s.r sp + imm8.setWidth 32 <<< 2))).goto next
  | .strSp16 rd imm8 => (s.setMem (storeWord s.mem (s.r sp + imm8.setWidth 32 <<< 2) (s.get (low rd)))).goto next
  | .bx16 rm => bxTo (s.get rm) s
  | .blx16 rm => bxTo (s.get rm) (s.set lr (s.pc + 2 + 1))
  | .subSpI16 imm7 => (s.set sp (s.r sp - imm7.setWidth 32 <<< 2)).goto next
  | .b32 signBit offsetHigh j1 j2 offsetLow =>
    s.goto (s.pc + 4 + branchOffset signBit offsetHigh j1 j2 offsetLow)
  | .movwi32 imm1 imm4 imm3 rd imm8 => (s.set rd ((imm16 imm1 imm4 imm3 imm8).setWidth 32)).goto next
  | .movti32 imm1 imm4 imm3 rd imm8 =>
    (s.set rd (imm16 imm1 imm4 imm3 imm8 ++ (s.get rd).extractLsb' 0 16)).goto next
  | .cmpi32 rn imm8 => { s with flags := compare (s.get rn) (imm8.setWidth 32) }.goto next
  | .cmp32 rn rm => { s with flags := compare (s.get rn) (s.get rm) }.goto next
  | .addi32 rn rd imm8 => (s.set rd (s.get rn + imm8.setWidth 32)).goto next
  | .orri32 rn rd imm8 => (s.set rd (s.get rn ||| imm8.setWidth 32)).goto next
  | .and32 rn rd rm => (s.set rd (s.get rn &&& s.get rm)).goto next
  | .add32 rn rd imm2 rm => (s.set rd (s.get rn + s.get rm <<< imm2.toNat)).goto next
  | .ldrb32 rn rt shift rm =>
    (s.set rt (BitVec.ofNat 32 (loadBytes s.mem (s.get rn + s.get rm <<< shift.toNat) 1))).goto next
  | .ldrh32 rn rt shift rm =>
    (s.set rt (BitVec.ofNat 32 (loadBytes s.mem (s.get rn + s.get rm <<< shift.toNat) 2))).goto next
  | .ldr32 rn rt shift rm => loadTo rt (loadWord s.mem (s.get rn + s.get rm <<< shift.toNat)) next s
  | .ldri32 rt rn imm8 preIndex upwards writeback =>
    let offset := if upwards = 1 then s.get rn + imm8.setWidth 32 else s.get rn - imm8.setWidth 32
    let v := loadWord s.mem (if preIndex = 1 then offset else s.get rn)
    loadTo rt v next (if writeback = 1 then s.set rn offset else s)
  | .ldrl32 rt imm12 =>
    loadTo rt (loadWord s.mem ((s.pc + 4) &&& ~~~3 + imm12.setWidth 32)) next s
  | .ldmfd32 writeback rn reglist =>
    let regs := regsOf reglist
    ldm writeback rn regs (s.get rn) (s.get rn + BitVec.ofNat 32 (4 * regs.length)) next s
  | .ldmea32 writeback rn reglist =>
    let regs := regsOf reglist
    let base := s.get rn - BitVec.ofNat 32 (4 * regs.length)
    ldm writeback rn regs base base next s
  | .strwi32 rt rn imm12 => (s.setMem (storeWord s.mem (s.get rn + imm12.setWidth 32) (s.get rt))).goto next
  | .tbb32 rn rm => s.goto (tableTarget s (loadBytes s.mem (s.get rn + s.get rm) 1))
  | .tbh32 rn rm => s.goto (tableTarget s (loadBytes s.mem (s.get rn + s.get rm <<< 1) 2))

def nextIt (i : Inst) (it : BitVec 8) : BitVec 8 :=
  match i with
  | .it16 cond mask => cond ++ mask
  | _ => itAdvance it

def exec (i : Inst) (s : State) : State :=
  { (if passed s then perform i s else s.goto (s.pc + BitVec.ofNat 32 i.size)) with itstate := nextIt i s.itstate }

def t32 : Processor 32 Inst State where
  pc := State.pc
  size i := BitVec.ofNat 32 i.size
  exec := exec

abbrev fetch (code : Code) : Word → Option Inst := CodeCells.fetch Inst.size code

theorem size_eq (i : Inst) : i.size = 2 ∨ i.size = 4 := by
  cases i <;> first | exact Or.inl rfl | exact Or.inr rfl

theorem t32_size (i : Inst) : t32.size i = BitVec.ofNat 32 i.size := rfl

variable {s t : State} {i : Inst}

theorem steps_exec {f : Word → Option Inst} (hfetch : f s.pc = some i) (hexec : exec i s = t) : Steps t32 f s t := by
  rw [← hexec]
  exact steps_of_fetch hfetch

@[simp] theorem loadRegs_itstate (rs : List Reg) (a : Word) (s : State) : (loadRegs rs a s).itstate = s.itstate := by
  induction rs generalizing a s with
  | nil => rfl
  | cons r rs ih => rw [loadRegs, ih, State.set_itstate]

theorem loadMultiple_itstate (rs : List Reg) (a next : Word) (s : State) :
    (loadMultiple rs a next s).itstate = s.itstate := by
  rw [loadMultiple]
  split
  · exact loadRegs_itstate rs a s
  · exact loadRegs_itstate rs a s

theorem loadTo_itstate (rt : Reg) (v next : Word) (s : State) : (loadTo rt v next s).itstate = s.itstate := by
  rw [loadTo]
  split <;> rfl

theorem ldm_itstate (writeback : BitVec 1) (rn : Reg) (regs : List Reg) (base result next : Word) (s : State) :
    (ldm writeback rn regs base result next s).itstate = s.itstate := by
  rw [ldm, loadMultiple_itstate]
  split <;> rfl

theorem perform_itstate (i : Inst) (s : State) : (perform i s).itstate = s.itstate := by
  cases i with
  | movh16 dn rm rdn =>
      rw [perform]
      split <;> rfl
  | pop16 reg => exact loadMultiple_itstate _ _ _ _
  | ldr32 rn rt shift rm => exact loadTo_itstate _ _ _ _
  | ldri32 rt rn imm8 p u w =>
      refine (loadTo_itstate _ _ _ _).trans ?_
      split <;> rfl
  | ldrl32 rt imm12 => exact loadTo_itstate _ _ _ _
  | ldmfd32 w rn reglist => exact ldm_itstate _ _ _ _ _ _ _
  | ldmea32 w rn reglist => exact ldm_itstate _ _ _ _ _ _ _
  | _ => rfl

theorem passed_outside (hit : s.itstate = 0) : passed s = true := by
  rw [passed, hit]
  rfl

theorem exec_plain (hit : s.itstate = 0) (hi : nextIt i 0 = 0) : exec i s = perform i s := by
  have hstate := perform_itstate i s
  rw [exec, passed_outside hit, if_pos rfl, hit, hi]
  rw [hit] at hstate
  rw [← hstate]

end Execution

end Mambo.T32
