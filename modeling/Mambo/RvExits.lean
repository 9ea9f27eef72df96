import Mambo.CodeCacheHash
import Mambo.RvEmit

namespace Mambo.RvExits

open Rv RvCode RvEmit
open CodeCacheHash (codeCacheHashSize)

/-- The addresses that the code of a thread refers to. The one of the traces is the
start of the trace cache. -/
structure Addresses where
  codeCache : Nat
  dispatcherAddr : Word
  syscallWrapperAddr : Word
  traceHeadIncrAddr : Word
  entries : Word
  traces : Word

def triBiSlots : Nat := 4

def predictionFspace : Nat := 13

def beq : BitVec 3 := 0

def bne : BitVec 3 := 1

def bge : BitVec 3 := 5

/-- A guest instruction at an address, with its size and its block. -/
structure Site where
  readAddress : Word
  size : Word
  basicBlock : Word

def Site.retAddr (site : Site) : Word := site.readAddress + site.size

def isContextReg (reg : Reg) : Bool := reg = s1 ∨ reg = a0 ∨ reg = a1

def linkCode (site : Site) (rd : Reg) : List Inst := if rd ≠ zero then copyToReg rd site.retAddr else []

section Jumps

variable (mambo : Addresses) (site : Site)

/-- None where an assertion fails. -/
def riscvJump (writeP : Word) (rd : Reg) (target : Word) : Option (List Inst) := do
  guard (rd = zero ∨ isContextReg rd = false)
  let head := linkCode site rd ++ saveContext ++ copyToReg a0 target ++ copyToReg a1 site.basicBlock
  let jump ← goToDispatcher (past writeP (bytes head)) mambo.dispatcherAddr
  return head ++ jump

/-- The call of the dispatcher for one side of a conditional branch. -/
def branchSide (writeP target : Word) (before : List Inst) : Option (List Inst) := do
  let head := before ++ copyToReg a0 target
  let jump ← goToDispatcher (past writeP (bytes head)) mambo.dispatcherAddr
  return head ++ jump

def nops : List Inst := List.replicate 6 (.addi zero zero 0)

/-- The source does not check that the branch over the first side is in range; none if
it were not. -/
def condBranch (writeP : Word) (cond : BitVec 3) (rs1 rs2 : Reg) (target : Word) : Option (List Inst) := do
  let id := copyToReg a1 site.basicBlock
  if rs1 = sp ∨ rs2 = sp then
    let branchAddr := past writeP (bytes nops)
    let skipped ← branchSide mambo (past branchAddr 4) site.retAddr (saveContext ++ id)
    let skipAddr := past branchAddr (4 + bytes skipped)
    let taken ← branchSide mambo skipAddr target (saveContext ++ id)
    let branch ← branchHelper branchAddr skipAddr rs1 rs2 cond
    return nops ++ [branch] ++ skipped ++ taken
  else
    let onA1 : Bool := rs1 = a1 ∨ rs2 = a1
    let head := nops ++ saveContext ++ (if onA1 then [] else id)
    let branchAddr := past writeP (bytes head)
    let skipped ← branchSide mambo (past branchAddr 4) site.retAddr (if onA1 then id else [])
    let skipAddr := past branchAddr (4 + bytes skipped)
    let taken ← branchSide mambo skipAddr target (if onA1 then id else [])
    let branch ← branchHelper branchAddr skipAddr rs1 rs2 cond
    return head ++ [branch] ++ skipped ++ taken

end Jumps

section Lookup

variable (rs1 : Reg) (imm : BitVec 12) (link : Bool)

def useA2 : Bool := rs1 = a0 ∨ rs1 = a1 ∨ link ∧ rs1 = ra

def regSpc : Reg := if useA2 rs1 link then a1 else rs1

def regTmp : Reg := if useA2 rs1 link then a2 else a1

def moves : List Inst :=
  if useA2 rs1 link then push [a2] ++ if rs1 ≠ regSpc rs1 link then [.addi (regSpc rs1 link) rs1 imm] else []
  else [.addi (regSpc rs1 link) (regSpc rs1 link) imm]

def hashCode (entries : Word) : List Inst :=
  copyToReg a0 (BitVec.ofNat 64 codeCacheHashSize) ++
    [.srli (regTmp rs1 link) (regSpc rs1 link) 1, .and (regTmp rs1 link) (regTmp rs1 link) a0] ++
    copyToReg a0 entries ++ [.slli (regTmp rs1 link) (regTmp rs1 link) 4, .add a0 a0 (regTmp rs1 link)]

def popA2 : Option (List Inst) := if useA2 rs1 link then pop [a2] else some []

variable (mambo : Addresses) (site : Site) (rd : Reg)

def foundCode : Option (List Inst) := do
  return (← popA2 rs1 link) ++ linkCode site rd ++ [.cJr a0]

def notFoundCode (writeP : Word) : Option (List Inst) := do
  let head := .add a0 (regSpc rs1 link) zero :: (linkCode site rd ++ copyToReg a1 site.basicBlock) ++
    (← popA2 rs1 link) ++ linkCode site rd ++ push [s1]
  let jump ← goToDispatcher (past writeP (bytes head)) mambo.dispatcherAddr
  return head ++ jump

/-- A trace leaves what it finds in the trace cache to the dispatcher. The source does
not check that the branches are in range; none if they were not. -/
def inlineHashLookup (writeP : Word) (triBi : Bool) : Option (List Inst) := do
  let head := (if triBi then [] else push [a0, a1]) ++ moves rs1 imm link ++ hashCode rs1 link mambo.entries
  let loop := past writeP (bytes head)
  let tmp := regTmp rs1 link
  let toLoop ← branchHelper (past loop 14) loop zero tmp bne
  let limit := if triBi then copyToReg tmp mambo.traces else []
  let found ← foundCode rs1 link site rd
  let gap := if triBi then 4 else 0
  let notFound := past loop (22 + bytes limit + gap + bytes found)
  let toNotFound ← cBeqzHelper (past loop 8) notFound tmp
  let guards ←
    if triBi then (branchHelper (past loop (22 + bytes limit)) notFound a0 tmp bge).map fun i => limit ++ [i]
    else some []
  let miss ← notFoundCode rs1 link mambo site rd notFound
  return head ++ [.ld tmp a0 0, .addi a0 a0 16, toNotFound, .sub tmp tmp (regSpc rs1 link), toLoop, .ld a0 a0 (-8)] ++
    guards ++ found ++ miss

end Lookup

section JumpRegister

variable (mambo : Addresses) (site : Site)

/-- The header of the exit of a trace: the jump over the room for the predictions, which
is left as it is, and the lookup behind it. -/
structure TriBiHeader where
  saved : List Inst
  jal : Inst
  room : Nat
  lookup : List Inst

def insertTriBiHeader (writeP : Word) (rd rs1 : Reg) (imm : BitVec 12) : Option TriBiHeader := do
  let saved := push [a0, a1]
  let slot := past writeP (bytes saved)
  let room := predictionFspace * 2 * triBiSlots * 2
  let ihluAddress := past slot (4 + room)
  let lookup ← inlineHashLookup rs1 imm false mambo site rd ihluAddress true
  let jal ← jalHelper slot ihluAddress zero
  return ⟨saved, jal, room, lookup⟩

/-- The exit of a basic block; none where the assertion on rd fails. -/
def jumpRegister (writeP : Word) (rd rs1 : Reg) (imm : BitVec 12) : Option (List Inst) := do
  guard (rd = zero ∨ isContextReg rd = false)
  inlineHashLookup rs1 imm (rd = ra) mambo site rd writeP false

end JumpRegister

end Mambo.RvExits
