import Mambo.RvExits
import Mambo.TraceState

namespace Mambo.RvScan

open Rv RvCode RvEmit RvExits
open TraceState (codeCacheSize blockBytes maxBranchRange)

section Instructions

/-- What the decoder and the field decoders tell of an instruction of the guest.
Those that are copied are copies of two or four bytes, the reserved loads and
stores among them atomic, and unhandled is for those that no case of the scanner
lists. -/
inductive Guest
  | cJ (imm : BitVec 11)
  | cBranch (bnez : Bool) (rs1 : BitVec 3) (immhi : BitVec 3) (immlo : BitVec 5)
  | cJr (rs1 : Reg)
  | cJalr (rs1 : Reg)
  | cCopy
  | auipc (rd : Reg) (imm : BitVec 20)
  | jal (rd : Reg) (imm : BitVec 20)
  | jalr (rd rs1 : Reg) (imm : BitVec 12)
  | branch (cond : BitVec 3) (rs1 rs2 : Reg) (immhi : BitVec 7) (immlo : BitVec 5)
  | ecall
  | copy
  | atomic
  | invalid
  | unhandled
  deriving DecidableEq

def Guest.size : Guest → Nat
  | .cJ .. | .cBranch .. | .cJr .. | .cJalr .. | .cCopy => 2
  | _ => 4

/-- What the scanner writes: instructions of its own, and copies of an instruction
of the guest. -/
inductive Out
  | inst (i : Inst)
  | copy (size : Nat) (readAddress : Word)
  deriving DecidableEq

def Out.size : Out → Nat
  | .inst i => i.size
  | .copy size _ => size

def decodeCjImm (field : BitVec 11) : Word :=
  let imm : Word := field.setWidth 64
  ((extr 3 1 imm <<< 1 ||| extr 1 9 imm <<< 4 ||| extr 1 0 imm <<< 5 ||| extr 1 5 imm <<< 6 ||| extr 1 4 imm <<< 7 |||
    extr 2 7 imm <<< 8 ||| extr 1 6 imm <<< 10 ||| extr 1 10 imm <<< 11).setWidth 12).signExtend 64

end Instructions

section Emitters

variable (mambo : Addresses)

def insts (code : List Inst) : List Out := code.map .inst

/-- The result of the far call is not looked at: it writes nothing where it is out of
range. -/
def headIncrCall (writeP : Word) : List Inst :=
  match jalHelper writeP mambo.traceHeadIncrAddr ra with
  | some jal => [jal]
  | none => (jalrHelper writeP mambo.traceHeadIncrAddr ra a0).getD []

/-- The call at the start of a block that may become the head of a trace. -/
def traceHeadCall (writeP basicBlock : Word) : Option (List Inst) := do
  let head := push [a0, a1] ++ push [ra] ++ copyToReg a1 basicBlock
  return head ++ headIncrCall mambo (past writeP (bytes head)) ++ (← pop [ra]) ++ (← pop [a0, a1])

def pushOffset (regs : List Reg) (off : Nat) : List Inst :=
  .addi sp sp (-BitVec.ofNat 12 (8 * (regs.length + off))) :: stores regs 0

def ecallCode (readAddress writeP : Word) : Option (List Inst) := do
  let head := pushOffset [ra, 8, s1] 2 ++ copyToReg 8 (readAddress + 4)
  let call ← jalrHelper (past writeP (bytes head)) mambo.syscallWrapperAddr ra s1
  return head ++ call ++ (← pop [a0, a1])

/-- The code for an instruction, none where an assertion fails or a loop does not
end. -/
def instCode (basicBlock : Nat) (g : Guest) (first : Bool) (readAddress writeP : Word) : Option (List Out) :=
  let site : Site := ⟨readAddress, BitVec.ofNat 64 g.size, BitVec.ofNat 64 basicBlock⟩
  match g with
  | .cJ imm => (riscvJump mambo site writeP zero (readAddress + decodeCjImm imm)).map insts
  | .cBranch bnez rs1 immhi immlo =>
    (condBranch mambo site writeP (if bnez then bne else beq) (wide rs1) zero
      (readAddress + decodeCbOffset immhi immlo)).map insts
  | .cJr rs1 => (jumpRegister mambo site writeP zero rs1 0).map insts
  | .cJalr rs1 => (jumpRegister mambo site writeP ra rs1 0).map insts
  | .cCopy => some [.copy 2 readAddress]
  | .auipc rd imm => some (insts (copyToReg rd (readAddress + uImm imm)))
  | .jal rd imm => (riscvJump mambo site writeP rd (readAddress + decodeJImm imm)).map insts
  | .jalr rd rs1 imm => (jumpRegister mambo site writeP rd rs1 imm).map insts
  | .branch cond rs1 rs2 immhi immlo =>
    (condBranch mambo site writeP cond rs1 rs2 (readAddress + decodeBImm immhi immlo)).map insts
  | .ecall => (ecallCode mambo readAddress writeP).map insts
  | .copy | .atomic => some [.copy 4 readAddress]
  | .invalid => if first then none else (riscvJump mambo site writeP zero readAddress).map insts
  | .unhandled => none

end Emitters

section Scanner

/-- How a scan ends. It is full if a further block is wanted and there is none. -/
inductive Ending
  | exit
  | assertion
  | full
  | overrun
  | endless
  deriving DecidableEq, Repr

/-- A scan in progress. In the code an instruction stands at each of its halfwords,
with the offset of the halfword. The log, latest first, holds the address and the
size of each instruction that was written and the end of the block at that time; it
is not part of the program. -/
structure Scan where
  readAddress : Nat
  writeP : Nat
  dataP : Nat
  freeBlock : Nat
  code : Word → Option (Out × Nat)
  log : List (Nat × Nat × Nat)
  ending : Option Ending

namespace Scan

variable (st : Scan)

def put (a : Nat) (o : Out) (code : Word → Option (Out × Nat)) : Word → Option (Out × Nat) :=
  let first := Function.update code (BitVec.ofNat 64 a) (some (o, 0))
  if o.size = 4 then Function.update first (BitVec.ofNat 64 (a + 2)) (some (o, 2)) else first

def write (o : Out) : Scan :=
  { st with
    writeP := st.writeP + o.size
    code := put st.writeP o st.code
    log := (st.writeP, o.size, st.dataP) :: st.log }

def writeAll (code : List Out) : Scan := code.foldl write st

def fail (e : Ending) : Scan := { st with ending := some e }

end Scan

def branchFspace : Nat := 152

def regJumpFspace : Nat := 196

def minFspace : Nat := 56

variable (mambo : Addresses) (program : Nat → Guest) (basicBlock : Nat)

def blockAddr (id : Nat) : Nat := mambo.codeCache + id * blockBytes

def checkFreeSpace (size : Nat) (st : Scan) : Scan :=
  if st.writeP + size ≥ st.dataP then
    if st.freeBlock ≥ codeCacheSize then st.fail .full
    else
      let block := blockAddr mambo st.freeBlock
      let grown := { st with freeBlock := st.freeBlock + 1 }
      if block ≠ st.dataP then
        match jalHelper (BitVec.ofNat 64 st.writeP) (BitVec.ofNat 64 block) zero with
        | none => st.fail .assertion
        | some jump => { grown.write (.inst jump) with writeP := block, dataP := block + blockBytes }
      else { grown with dataP := block + blockBytes }
  else st

def stops (g : Guest) : Bool :=
  match g with
  | .cJ .. | .cBranch .. | .cJr .. | .cJalr .. | .jal .. | .jalr .. | .branch .. | .invalid => true
  | _ => false

def reserve (g : Guest) (st : Scan) : Scan :=
  match g with
  | .cBranch .. | .branch .. | .jal .. => checkFreeSpace mambo branchFspace st
  | .cJr .. | .cJalr .. | .jalr .. => checkFreeSpace mambo regJumpFspace st
  | _ => st

/-- The code for an instruction and the check after it, for a scan that began at an
address. -/
def scanInst (startScan : Nat) (g : Guest) (st : Scan) : Scan :=
  if st.ending.isSome then st
  else
    let first : Bool := st.readAddress = startScan
    match instCode mambo basicBlock g first (BitVec.ofNat 64 st.readAddress) (BitVec.ofNat 64 st.writeP) with
    | none => st.fail (if g = .unhandled ∨ g = .invalid ∧ first then .endless else .assertion)
    | some code =>
      let st := st.writeAll code
      if st.dataP ≤ st.writeP then st.fail .overrun
      else if stops g then { st with ending := some .exit, readAddress := st.readAddress + g.size }
      else
        let st := checkFreeSpace mambo minFspace st
        { st with readAddress := st.readAddress + g.size }

def scanRound (startScan : Nat) (st : Scan) : Scan :=
  scanInst mambo basicBlock startScan (program st.readAddress) (reserve mambo (program st.readAddress) st)

/-- The state of the loop after some rounds, if it has not ended before. -/
def scanLoop (startScan : Nat) : Nat → Scan → Scan
  | 0, st => st
  | n + 1, st => if st.ending.isSome then st else scanLoop startScan n (scanRound mambo program basicBlock startScan st)

theorem scanLoop_ended {startScan n : Nat} {st : Scan} (h : st.ending.isSome) :
    scanLoop mambo program basicBlock startScan n st = st := by
  cases n with
  | zero => rfl
  | succ n => rw [scanLoop, if_pos h]

/-- Whether the first pass stops at an instruction, and whether the block may then be
the head of a trace. -/
def pass1Stops : Guest → Option Bool
  | .cJ .. | .jal .. | .cBranch .. | .branch .. => some true
  | .cJr .. | .cJalr .. | .jalr .. | .atomic | .invalid => some false
  | _ => none

/-- Whether a block calls trace_head_incr: the first pass, for some instructions. -/
def isTraceHead : Nat → Nat → Bool
  | 0, _ => false
  | n + 1, readAddress =>
    match pass1Stops (program readAddress) with
    | some head => head
    | none => isTraceHead n (readAddress + (program readAddress).size)

def entryCode (fuel readAddress : Nat) (writeP : Word) : Option (List Out) := do
  let restored ← pop [a0, a1]
  if isTraceHead program fuel readAddress then
    let call ← traceHeadCall mambo (past writeP (bytes restored)) (BitVec.ofNat 64 basicBlock)
    return insts (restored ++ call)
  else return insts restored

/-- The scan of a basic block up to its first instruction. The number of instructions
bounds the first pass. -/
def scanStart (fuel readAddress freeBlock : Nat) (code : Word → Option (Out × Nat)) : Scan :=
  let writeP := blockAddr mambo basicBlock
  let st : Scan := ⟨readAddress, writeP, writeP + blockBytes, freeBlock, code, [], none⟩
  match entryCode mambo program basicBlock fuel readAddress (BitVec.ofNat 64 writeP) with
  | none => st.fail .assertion
  | some entry => st.writeAll entry

def scanRiscv (fuel readAddress freeBlock : Nat) (code : Word → Option (Out × Nat)) (n : Nat) : Scan :=
  scanLoop mambo program basicBlock readAddress n
    (scanStart mambo program basicBlock fuel readAddress freeBlock code)

end Scanner

end Mambo.RvScan
