import Mambo.RvLoadStore

namespace Mambo.XtraceOperands

open RvIsa RvLoadStore SignBits
open Rv (extr)

section Instructions

inductive CShift
  | srli | srai
  deriving DecidableEq

inductive CArith
  | sub | xor | or | and | subw | addw
  deriving DecidableEq

inductive OpImm
  | addi | slti | sltiu | xori | ori | andi | addiw
  deriving DecidableEq

inductive ShiftImm
  | slli | srli | srai | slliw | srliw | sraiw
  deriving DecidableEq

inductive Csr
  | csrrw | csrrs | csrrc
  deriving DecidableEq

/-- The operations on two registers whose decoders name rd first, and those that name rs2 first. -/
inductive Op
  | add | sub | sll | slt | sltu | xor | srl | sra | or | and | addw | subw | sllw | srlw | sraw | mul | mulh | mulhsu
  | mulhu | div | divu | rem | remu | mulw | divw | divuw | remw | remuw
  | addUw | sh1add | sh1addUw | sh2add | sh2addUw | sh3add | sh3addUw | andn | orn | xnor | max | maxu | min | minu
  | rol | rolw | ror | rorw | clmul | clmulh | clmulr | bclr | bext | binv | bset | czeroEqz | czeroNez
  deriving DecidableEq

inductive BitImm
  | slliUw | rori | roriw | bclri | bexti | binvi | bseti
  deriving DecidableEq

inductive Unary
  | clz | clzw | ctz | ctzw | cpop | cpopw | sextB | sextH | zextH | orcB | rev8
  deriving DecidableEq

inductive Format
  | s | d | h
  deriving DecidableEq

inductive Fma
  | fmadd | fmsub | fnmsub | fnmadd
  deriving DecidableEq

inductive FArith
  | fadd | fsub | fmul | fdiv
  deriving DecidableEq

inductive FSelect
  | fsgnj | fsgnjn | fsgnjx | fmin | fmax
  deriving DecidableEq

inductive FCompare
  | feq | flt | fle
  deriving DecidableEq

inductive IntFormat
  | w | wu | l | lu
  deriving DecidableEq

inductive Branch
  | beq | bne | blt | bge | bltu | bgeu
  deriving DecidableEq

inductive Inst
  | cAddi4spn
  | cLoad (i : CLoad)
  | cStore (i : CStore)
  | cLoadSp (i : CLoadSp)
  | cStoreSp (i : CStoreSp)
  | cAddi | cAddiw | cLi | cAddi16sp | cLui | cSlli
  | cShift (i : CShift)
  | cAndi
  | cArith (i : CArith)
  | cAdd | cMv | cJr | cJalr | cJ | cJal | cBeqz | cBnez
  | load (i : Load)
  | store (i : Store)
  | flh | fsh
  | opImm (i : OpImm)
  | shiftImm (i : ShiftImm)
  | csr (i : Csr)
  | csrImm (i : Csr)
  | fence
  | op (i : Op)
  | bitImm (i : BitImm)
  | unary (i : Unary)
  | lui | auipc
  | lr (size : Size)
  | amo (i : Amo) (size : Size)
  | fma (i : Fma) (format : Format)
  | fArith (i : FArith) (format : Format)
  | fsqrt (format : Format)
  | fSelect (i : FSelect) (format : Format)
  | fCompare (i : FCompare) (format : Format)
  | fclass (format : Format)
  | fmvToX (format : Format)
  | fmvFromX (format : Format)
  | fcvtToInt (i : IntFormat) (format : Format)
  | fcvtFromInt (i : IntFormat) (format : Format)
  | fcvt (target source : Format)
  | cboClean | cboFlush | cboInval | cboZero
  | prefetchI | prefetchR | prefetchW
  | vOp
  | vector (i : Vector) (width : Width)
  | jal | jalr
  | branch (i : Branch)
  | anyBranch
  deriving DecidableEq

end Instructions

section Lines

/-- The operands of a line, without its punctuation. -/
inductive Operand
  | x (reg : BitVec 5)
  | f (reg : BitVec 5)
  | v (reg : BitVec 5)
  | noReg
  | rm (mode : BitVec 3)
  | imm (value : Int)
  | target (addr : BitVec 64)
  | ordering (aq rl : Bool)
  | set (accesses : List Char)
  | tso
  deriving DecidableEq

/-- `xtrace_riscv_reg`, and `xtrace_riscv_freg`, which has the names of the other file. -/
def xtraceRiscvReg (reg : BitVec 32) : Operand := if reg.toNat < 32 then .x (reg.setWidth 5) else .noReg

def xtraceRiscvFreg (reg : BitVec 32) : Operand := if reg.toNat < 32 then .f (reg.setWidth 5) else .noReg

def xtraceRiscvRm (rm : BitVec 32) : Operand := .rm (rm.setWidth 3)

def xtraceAppendRiscvFenceSet (bits : BitVec 32) : Operand :=
  .set ((List.range 4).filterMap fun i =>
    if bits &&& (1 : BitVec 32) <<< (3 - i) ≠ 0 then ['i', 'o', 'r', 'w'][i]? else none)

end Lines

section Immediates

def xtraceRiscvCAddi4spnImm (nzuimm : BitVec 32) : BitVec 32 :=
  (nzuimm >>> 6 &&& 0x3) <<< 4 ||| (nzuimm >>> 2 &&& 0xF) <<< 6 ||| (nzuimm >>> 1 &&& 0x1) <<< 2 |||
    (nzuimm &&& 0x1) <<< 3

def xtraceRiscvCAddi16spImm (immhi immlo : BitVec 32) : BitVec 32 :=
  signExtendBits 10 ((immhi &&& 0x1) <<< 9 ||| (immlo >>> 4 &&& 0x1) <<< 4 ||| (immlo >>> 3 &&& 0x1) <<< 6 |||
    (immlo >>> 1 &&& 0x3) <<< 7 ||| (immlo &&& 0x1) <<< 5)

/-- The offsets of the compressed loads and stores are those of `_riscv_calc_ld_st_addr`, written out again. -/
def xtraceRiscvCWordOffset (uimmhi uimmlo : BitVec 32) : BitVec 32 := riscvCWordOffset uimmhi uimmlo

def xtraceRiscvCDoublewordOffset (uimmhi uimmlo : BitVec 32) : BitVec 32 := riscvCDoublewordOffset uimmhi uimmlo

def xtraceRiscvCSpwordLoadOffset (uimmhi uimmlo : BitVec 32) : BitVec 32 := riscvCSpwordLoadOffset uimmhi uimmlo

def xtraceRiscvCSpdoublewordLoadOffset (uimmhi uimmlo : BitVec 32) : BitVec 32 :=
  riscvCSpdoublewordLoadOffset uimmhi uimmlo

def xtraceRiscvCSpwordStoreOffset (uimm : BitVec 32) : BitVec 32 := riscvCSpwordStoreOffset uimm

def xtraceRiscvCSpdoublewordStoreOffset (uimm : BitVec 32) : BitVec 32 := riscvCSpdoublewordStoreOffset uimm

def xtraceRiscvStoreOffset (immhi immlo : BitVec 32) : BitVec 32 := signExtendBits 12 (immhi <<< 5 ||| immlo)

def xtraceRiscvBranchOffset (immhi immlo : BitVec 32) : BitVec 32 :=
  signExtendBits 13 (extr 4 1 immlo <<< 1 ||| extr 6 0 immhi <<< 5 ||| extr 1 0 immlo <<< 11 ||| extr 1 6 immhi <<< 12)

def xtraceRiscvCBranchOffset (immhi immlo : BitVec 32) : BitVec 32 :=
  signExtendBits 9 (extr 2 1 immlo <<< 1 ||| extr 2 0 immhi <<< 3 ||| extr 1 0 immlo <<< 5 ||| extr 2 3 immlo <<< 6 |||
    extr 1 2 immhi <<< 8)

def xtraceRiscvJalOffset (imm : BitVec 32) : BitVec 32 :=
  signExtendBits 21 (extr 10 9 imm <<< 1 ||| extr 1 8 imm <<< 11 ||| extr 8 0 imm <<< 12 ||| extr 1 19 imm <<< 20)

def xtraceRiscvCJOffset (imm : BitVec 32) : BitVec 32 :=
  signExtendBits 12 (extr 3 1 imm <<< 1 ||| extr 1 9 imm <<< 4 ||| extr 1 0 imm <<< 5 ||| extr 1 5 imm <<< 6 |||
    extr 1 4 imm <<< 7 ||| extr 2 7 imm <<< 8 ||| extr 1 6 imm <<< 10 ||| extr 1 10 imm <<< 11)

def xtraceRiscvCImm (immhi immlo : BitVec 32) : BitVec 32 := signExtendBits 6 (immhi <<< 5 ||| immlo)

end Immediates

section Formatter

variable (w : Encoding)

def xReg (k : Nat) : Operand := xtraceRiscvReg (extr 5 k w)

def fReg (k : Nat) : Operand := xtraceRiscvFreg (extr 5 k w)

def cXReg (k : Nat) : Operand := xtraceRiscvReg (extr 3 k w + s0)

def cFReg (k : Nat) : Operand := xtraceRiscvFreg (extr 3 k w + s0)

def int (value : BitVec 32) : Operand := .imm value.toInt

def unsigned (value : BitVec 32) : Operand := .imm value.toNat

def relative (pc : BitVec 64) (offset : BitVec 32) : Operand := .target (pc + offset.signExtend 64)

def rmField : Operand := xtraceRiscvRm (extr 3 12 w)

def ordering : Operand := .ordering (extr 1 26 w != 0) (extr 1 25 w != 0)

/-- `xtrace_append_riscv_operands`: the operands of a line, in order. Opcode bits that a line names as such (funct,
funct3, lumop, sumop, amoop, cond) are left out. -/
def xtraceAppendRiscvOperands (pc : BitVec 64) (inst : Inst) : List Operand :=
  match inst with
  | .cAddi4spn => [cXReg w 2, .x 2, unsigned (xtraceRiscvCAddi4spnImm (extr 8 5 w))]
  | .cLoad i =>
    let offset := match i with
      | .lw => xtraceRiscvCWordOffset (extr 3 10 w) (extr 2 5 w)
      | .fld | .ld => xtraceRiscvCDoublewordOffset (extr 3 10 w) (extr 2 5 w)
    [if i = .fld then cFReg w 2 else cXReg w 2, unsigned offset, cXReg w 7]
  | .cStore i =>
    let offset := match i with
      | .sw => xtraceRiscvCWordOffset (extr 3 10 w) (extr 2 5 w)
      | .fsd | .sd => xtraceRiscvCDoublewordOffset (extr 3 10 w) (extr 2 5 w)
    [if i = .fsd then cFReg w 2 else cXReg w 2, unsigned offset, cXReg w 7]
  | .cLoadSp i =>
    let offset := match i with
      | .lw | .flw => xtraceRiscvCSpwordLoadOffset (extr 1 12 w) (extr 5 2 w)
      | .fld | .ld => xtraceRiscvCSpdoublewordLoadOffset (extr 1 12 w) (extr 5 2 w)
    [if i = .flw ∨ i = .fld then fReg w 7 else xReg w 7, unsigned offset, .x 2]
  | .cStoreSp i =>
    let offset := match i with
      | .sw => xtraceRiscvCSpwordStoreOffset (extr 6 7 w)
      | .fsd | .sd => xtraceRiscvCSpdoublewordStoreOffset (extr 6 7 w)
    [if i = .fsd then fReg w 2 else xReg w 2, unsigned offset, .x 2]
  | .cAddi | .cAddiw => [xReg w 7, xReg w 7, int (xtraceRiscvCImm (extr 1 12 w) (extr 5 2 w))]
  | .cLi => [xReg w 7, int (xtraceRiscvCImm (extr 1 12 w) (extr 5 2 w))]
  | .cAddi16sp => [.x 2, .x 2, int (xtraceRiscvCAddi16spImm (extr 1 12 w) (extr 5 2 w))]
  | .cLui => [xReg w 7, int (signExtendBits 18 ((extr 1 12 w <<< 5 ||| extr 5 2 w) <<< 12))]
  | .cSlli => [xReg w 7, xReg w 7, unsigned (extr 1 12 w <<< 5 ||| extr 5 2 w)]
  -- decoded with the fields of c.slli, whose register has five bits
  | .cShift _ =>
    [xtraceRiscvReg (extr 5 7 w + s0), xtraceRiscvReg (extr 5 7 w + s0), unsigned (extr 1 12 w <<< 5 ||| extr 5 2 w)]
  | .cAndi => [cXReg w 7, cXReg w 7, int (xtraceRiscvCImm (extr 1 12 w) (extr 5 2 w))]
  | .cArith _ => [cXReg w 7, cXReg w 7, cXReg w 2]
  | .cAdd => [xReg w 7, xReg w 7, xReg w 2]
  | .cMv => [xReg w 7, xReg w 2]
  | .cJr | .cJalr => [xReg w 7]
  | .cJ | .cJal => [relative pc (xtraceRiscvCJOffset (extr 11 2 w))]
  | .cBeqz | .cBnez => [cXReg w 7, relative pc (xtraceRiscvCBranchOffset (extr 3 10 w) (extr 5 2 w))]
  | .load i =>
    [if i = .flw ∨ i = .fld then fReg w 7 else xReg w 7, int (signExtendBits 12 (extr 12 20 w)), xReg w 15]
  | .store i =>
    [if i = .fsw ∨ i = .fsd then fReg w 20 else xReg w 20,
      int (xtraceRiscvStoreOffset (extr 7 25 w) (extr 5 7 w)), xReg w 15]
  | .flh => [fReg w 7, int (signExtendBits 12 (extr 12 20 w)), xReg w 15]
  | .fsh => [fReg w 20, int (xtraceRiscvStoreOffset (extr 7 25 w) (extr 5 7 w)), xReg w 15]
  | .opImm _ => [xReg w 7, xReg w 15, int (signExtendBits 12 (extr 12 20 w))]
  | .shiftImm _ => [xReg w 7, xReg w 15, unsigned (extr 6 20 w)]
  | .csr _ => [xReg w 7, unsigned (extr 12 20 w), xReg w 15]
  | .csrImm _ => [xReg w 7, unsigned (extr 12 20 w), unsigned (extr 5 15 w)]
  | .fence =>
    let fm := extr 4 28 w
    let pred := extr 4 24 w
    let succ := extr 4 20 w
    if fm = 8 ∧ pred = 3 ∧ succ = 3 then [.tso]
    else xtraceAppendRiscvFenceSet pred :: xtraceAppendRiscvFenceSet succ :: if fm ≠ 0 then [unsigned fm] else []
  | .op _ => [xReg w 7, xReg w 15, xReg w 20]
  | .bitImm _ => [xReg w 7, xReg w 15, unsigned (extr 6 20 w)]
  | .unary _ => [xReg w 7, xReg w 15]
  | .lui | .auipc => [xReg w 7, unsigned (extr 20 12 w)]
  | .lr _ => [ordering w, xReg w 7, xReg w 15]
  | .amo _ _ => [ordering w, xReg w 7, xReg w 20, xReg w 15]
  | .fma _ _ => [fReg w 7, fReg w 15, fReg w 20, fReg w 27, rmField w]
  | .fArith _ _ => [fReg w 7, fReg w 15, fReg w 20, rmField w]
  | .fsqrt _ => [fReg w 7, fReg w 15, rmField w]
  | .fSelect _ _ => [fReg w 7, fReg w 15, fReg w 20]
  | .fCompare _ _ => [xReg w 7, fReg w 15, fReg w 20]
  | .fclass _ | .fmvToX _ => [xReg w 7, fReg w 15]
  | .fmvFromX _ => [fReg w 7, xReg w 15]
  | .fcvtToInt _ _ => [xReg w 7, fReg w 15, rmField w]
  | .fcvtFromInt _ _ => [fReg w 7, xReg w 15, rmField w]
  | .fcvt _ _ => [fReg w 7, fReg w 15, rmField w]
  | .cboClean | .cboFlush | .cboInval | .cboZero => [xReg w 15]
  | .prefetchI | .prefetchR | .prefetchW => [unsigned (extr 7 25 w), xReg w 15]
  | .vOp => [.v ((extr 5 7 w).setWidth 5), unsigned (extr 5 15 w)]
  | .vector _ _ => [.v ((extr 5 7 w).setWidth 5), xReg w 15]
  | .jal => [xReg w 7, relative pc (xtraceRiscvJalOffset (extr 20 12 w))]
  | .jalr => [xReg w 7, int (signExtendBits 12 (extr 12 20 w)), xReg w 15]
  | .branch _ | .anyBranch => [xReg w 15, xReg w 20, relative pc (xtraceRiscvBranchOffset (extr 7 25 w) (extr 5 7 w))]

end Formatter

section Operands

variable (w : Encoding)

/-- Where the formatter reads bits that are fixed in the encoding, these bits. -/
def Encodes (inst : Inst) : Prop :=
  match inst with
  | .cShift .srli => w.extractLsb' 10 2 = 0
  | .cShift .srai => w.extractLsb' 10 2 = 1
  | .shiftImm .slliw | .shiftImm .srliw | .shiftImm .sraiw | .bitImm .roriw => w.extractLsb' 25 1 = 0
  | _ => True

def accesses (bits : BitVec 4) : Operand :=
  .set ((if bits.getLsbD 3 then ['i'] else []) ++ (if bits.getLsbD 2 then ['o'] else []) ++
    (if bits.getLsbD 1 then ['r'] else []) ++ if bits.getLsbD 0 then ['w'] else [])

/-- A fence has the mode tso or two sets, and other modes are reserved. -/
def fenceOperands : List Operand :=
  let fm := w.extractLsb' 28 4
  let pred := w.extractLsb' 24 4
  let succ := w.extractLsb' 20 4
  if fm = 8 ∧ pred = 3 ∧ succ = 3 then [.tso]
  else accesses pred :: accesses succ :: if fm = 0 then [] else [.imm fm.toNat]

def shamt (inst : Inst) : Nat :=
  match inst with
  | .shiftImm .slliw | .shiftImm .srliw | .shiftImm .sraiw | .bitImm .roriw => (w.extractLsb' 20 5).toNat
  | _ => (w.extractLsb' 20 6).toNat

def operands (pc : BitVec 64) (inst : Inst) : List Operand :=
  let rm := Operand.rm (RvIsa.rm w)
  let dest (imm : Int) := Operand.target (pc + BitVec.ofInt 64 imm)
  let aqrl := Operand.ordering (w.getLsbD 26) (w.getLsbD 25)
  match inst with
  | .cAddi4spn => [.x (cLow w), .x 2, .imm (cAddi4spnImm w)]
  | .cLoad .fld => [.f (cLow w), .imm (cldOffset w), .x (cHigh w)]
  | .cLoad .lw => [.x (cLow w), .imm (clwOffset w), .x (cHigh w)]
  | .cLoad .ld => [.x (cLow w), .imm (cldOffset w), .x (cHigh w)]
  | .cStore .fsd => [.f (cLow w), .imm (cldOffset w), .x (cHigh w)]
  | .cStore .sw => [.x (cLow w), .imm (clwOffset w), .x (cHigh w)]
  | .cStore .sd => [.x (cLow w), .imm (cldOffset w), .x (cHigh w)]
  | .cLoadSp .fld => [.f (rd w), .imm (cldspOffset w), .x 2]
  | .cLoadSp .lw => [.x (rd w), .imm (clwspOffset w), .x 2]
  | .cLoadSp .flw => [.f (rd w), .imm (clwspOffset w), .x 2]
  | .cLoadSp .ld => [.x (rd w), .imm (cldspOffset w), .x 2]
  | .cStoreSp .fsd => [.f (cRs2 w), .imm (csdspOffset w), .x 2]
  | .cStoreSp .sw => [.x (cRs2 w), .imm (cswspOffset w), .x 2]
  | .cStoreSp .sd => [.x (cRs2 w), .imm (csdspOffset w), .x 2]
  | .cAddi | .cAddiw => [.x (rd w), .x (rd w), .imm (ciImm w)]
  | .cLi => [.x (rd w), .imm (ciImm w)]
  | .cAddi16sp => [.x 2, .x 2, .imm (cAddi16spImm w)]
  | .cLui => [.x (rd w), .imm (cLuiImm w)]
  | .cSlli => [.x (rd w), .x (rd w), .imm (cShamt w)]
  | .cShift _ => [.x (cHigh w), .x (cHigh w), .imm (cShamt w)]
  | .cAndi => [.x (cHigh w), .x (cHigh w), .imm (ciImm w)]
  | .cArith _ => [.x (cHigh w), .x (cHigh w), .x (cLow w)]
  | .cAdd => [.x (rd w), .x (rd w), .x (cRs2 w)]
  | .cMv => [.x (rd w), .x (cRs2 w)]
  | .cJr | .cJalr => [.x (rd w)]
  | .cJ | .cJal => [dest (cjImm w)]
  | .cBeqz | .cBnez => [.x (cHigh w), dest (cbImm w)]
  | .load .flw | .load .fld | .flh => [.f (rd w), .imm (iImm w), .x (rs1 w)]
  | .load _ => [.x (rd w), .imm (iImm w), .x (rs1 w)]
  | .store .fsw | .store .fsd | .fsh => [.f (rs2 w), .imm (sImm w), .x (rs1 w)]
  | .store _ => [.x (rs2 w), .imm (sImm w), .x (rs1 w)]
  | .opImm _ => [.x (rd w), .x (rs1 w), .imm (iImm w)]
  | .shiftImm i => [.x (rd w), .x (rs1 w), .imm (shamt w (.shiftImm i))]
  | .csr _ => [.x (rd w), .imm (w.extractLsb' 20 12).toNat, .x (rs1 w)]
  | .csrImm _ => [.x (rd w), .imm (w.extractLsb' 20 12).toNat, .imm (w.extractLsb' 15 5).toNat]
  | .fence => fenceOperands w
  | .op _ => [.x (rd w), .x (rs1 w), .x (rs2 w)]
  | .bitImm i => [.x (rd w), .x (rs1 w), .imm (shamt w (.bitImm i))]
  | .unary _ => [.x (rd w), .x (rs1 w)]
  | .lui | .auipc => [.x (rd w), .imm (w.extractLsb' 12 20).toNat]
  | .lr _ => [aqrl, .x (rd w), .x (rs1 w)]
  | .amo _ _ => [aqrl, .x (rd w), .x (rs2 w), .x (rs1 w)]
  | .fma _ _ => [.f (rd w), .f (rs1 w), .f (rs2 w), .f (rs3 w), rm]
  | .fArith _ _ => [.f (rd w), .f (rs1 w), .f (rs2 w), rm]
  | .fsqrt _ => [.f (rd w), .f (rs1 w), rm]
  | .fSelect _ _ => [.f (rd w), .f (rs1 w), .f (rs2 w)]
  | .fCompare _ _ => [.x (rd w), .f (rs1 w), .f (rs2 w)]
  | .fclass _ | .fmvToX _ => [.x (rd w), .f (rs1 w)]
  | .fmvFromX _ => [.f (rd w), .x (rs1 w)]
  | .fcvtToInt _ _ => [.x (rd w), .f (rs1 w), rm]
  | .fcvtFromInt _ _ => [.f (rd w), .x (rs1 w), rm]
  | .fcvt _ _ => [.f (rd w), .f (rs1 w), rm]
  | .cboClean | .cboFlush | .cboInval | .cboZero => [.x (rs1 w)]
  | .prefetchI | .prefetchR | .prefetchW => [.imm (prefetchOffset w), .x (rs1 w)]
  | .vOp => [.v (rd w), .imm (vOperand w)]
  | .vector _ _ => [.v (rd w), .x (rs1 w)]
  | .jal => [.x (rd w), dest (jImm w)]
  | .jalr => [.x (rd w), .imm (iImm w), .x (rs1 w)]
  | .branch _ | .anyBranch => [.x (rs1 w), .x (rs2 w), dest (bImm w)]

end Operands

end Mambo.XtraceOperands
