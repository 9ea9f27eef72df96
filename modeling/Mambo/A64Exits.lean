import Mambo.A64Emit

namespace Mambo.A64Exits

open CodeRuns A64 A64Emit

inductive BranchType
  | unknown
  | stub
  | traceInlineMax
  | uncondImmA64
  | uncondBranchReg
  | condImmA64
  | cbzA64
  | tbzA64
  | traceExit
  deriving DecidableEq, Repr

/-- The fields of a block's metadata that the exits use. -/
structure CodeCacheMeta where
  exitBranchType : BranchType
  exitBranchAddr : Word
  branchTakenAddr : Word
  branchSkippedAddr : Word
  branchCondition : Word
  branchCacheStatus : Word
  rn : BitVec 32

def fallthroughLinked : Word := 1

def branchLinked : Word := 2

def bothLinked : Word := 4

def uintMax : Word := 0xFFFFFFFF

def invertCond (cond : Word) : Word := cond ^^^ 1

section Scanner

variable (dispatcherAddr : Word)

def branchJump (writeP basicBlock target : Word) (replaceTarget insertBranch : Bool) : Option (List Inst) := do
  let move := if replaceTarget then copyToReg64bits 0 target else []
  if insertBranch then
    let id := copyToReg64bits 1 basicBlock
    let jump ← branchHelper (cell writeP (move.length + id.length)) dispatcherAddr
    return move ++ id ++ [jump]
  else return move

theorem length_branchJump {writeP basicBlock target : Word} {is : List Inst}
    (h : branchJump dispatcherAddr writeP basicBlock target true true = some is) :
    is.length = (copyToReg64bits 0 target).length + (copyToReg64bits 1 basicBlock).length + 1 := by
  rw [branchJump, if_pos rfl, if_pos rfl] at h
  obtain ⟨jump, _, hcode⟩ := Option.bind_eq_some_iff.mp h
  rw [← Option.some.inj hcode, List.length_append, List.length_append]
  rfl

/-- The two words for the linker, and the stub. The branch to the skipped side
is written when the address of that side is known. -/
def branchJumpCond (writeP basicBlock target readAddress cond : Word) : Option (List Inst) := do
  let head := [.nop, .nop, pushPairReg 0 1] ++ copyToReg64bits 1 basicBlock
  let condBranch := cell writeP head.length
  let move := copyToReg64bits 0 target
  let jump ← branchHelper (cell condBranch (1 + move.length)) dispatcherAddr
  let skipped := cell condBranch (2 + move.length)
  let toSkipped ← bCondHelper condBranch skipped (invertCond cond)
  let moveSkipped := copyToReg64bits 0 (readAddress + 4)
  let jumpSkipped ← branchHelper (cell skipped moveSkipped.length) dispatcherAddr
  return head ++ [toSkipped] ++ move ++ [jump] ++ moveSkipped ++ [jumpSkipped]

/-- The same for a compare or test branch, from what its helper writes. -/
def branchImmReg (writeP basicBlock target readAddress : Word) (helper : Word → Word → Option Inst) :
    Option (List Inst) := do
  let head := [.nop, .nop, pushPairReg 0 1]
  let cbzBranch := cell writeP head.length
  let takenJump ← branchJump dispatcherAddr (cell cbzBranch 1) basicBlock target true true
  let skipped := cell cbzBranch (1 + takenJump.length)
  let toSkipped ← helper cbzBranch skipped
  let skippedJump ← branchJump dispatcherAddr skipped basicBlock (readAddress + 4) true true
  return head ++ [toSkipped] ++ takenJump ++ skippedJump

def scanCondExit (guest : Inst) (readAddress writeP basicBlock : Word) : Option (CodeCacheMeta × List Inst) :=
  match guest with
  | .bCond imm19 cond =>
    let target := readAddress + offset imm19
    (branchJumpCond dispatcherAddr writeP basicBlock target readAddress (cond.setWidth 64)).map fun stub =>
      (⟨.condImmA64, writeP, target, readAddress + 4, cond.setWidth 64, 0, 0⟩, stub)
  | .cbzCbnz sf op imm19 rt =>
    let target := readAddress + offset imm19
    (branchImmReg dispatcherAddr writeP basicBlock target readAddress fun cbzBranch skipped =>
      cbzCbnzHelper cbzBranch (op ^^^ 1 ≠ 0) skipped sf rt).map fun stub =>
        (⟨.cbzA64, writeP, target, readAddress + 4, op.setWidth 64, 0, (sf.setWidth 32 <<< 5) ||| rt.setWidth 32⟩, stub)
  | .tbzTbnz b5 op b40 imm14 rt =>
    let target := readAddress + offset imm14
    let bit : BitVec 32 := (b5.setWidth 32 <<< 5) ||| b40.setWidth 32
    (branchImmReg dispatcherAddr writeP basicBlock target readAddress fun cbzBranch skipped =>
      tbzTbnzHelper cbzBranch (op ^^^ 1 ≠ 0) skipped rt (bit.setWidth 6)).map fun stub =>
        (⟨.tbzA64, writeP, target, readAddress + 4, op.setWidth 64, 0, (bit <<< 5) ||| rt.setWidth 32⟩, stub)
  | _ => none

end Scanner

section Dispatcher

/-- None for the branch types on which the function loops for ever. -/
def insertCondExitBranch (bbMeta : CodeCacheMeta) (writeP cond : Word) : Option (List Inst) :=
  match bbMeta.exitBranchType with
  | .uncondImmA64 => some []
  | .condImmA64 => (bCondHelper writeP (writeP + 8) cond).map fun i => [i]
  | .cbzA64 =>
    (cbzCbnzHelper writeP (cond ≠ 0) (writeP + 8) ((bbMeta.rn >>> 5).setWidth 1)
      ((bbMeta.rn &&& 0x1F).setWidth 5)).map fun i => [i]
  | .tbzA64 =>
    (tbzTbnzHelper writeP (cond ≠ 0) (writeP + 8) ((bbMeta.rn &&& 0x1F).setWidth 5)
      ((bbMeta.rn >>> 5).setWidth 6)).map fun i => [i]
  | _ => none

variable (lookup : Word → Word) (target blockAddress : Word) (bbMeta : CodeCacheMeta) (code : Code)

def linkFirst : Option (CodeCacheMeta × Code) := do
  let isTaken : Bool := target = bbMeta.branchTakenAddr
  let otherTarget := lookup (if isTaken then bbMeta.branchSkippedAddr else bbMeta.branchTakenAddr)
  let cond := if isTaken then invertCond bbMeta.branchCondition else bbMeta.branchCondition
  let condBranch ← insertCondExitBranch bbMeta bbMeta.exitBranchAddr cond
  let branchAddr := cell bbMeta.exitBranchAddr condBranch.length
  let status := if isTaken then branchLinked else fallthroughLinked
  let jump ← branchHelper branchAddr (blockAddress + 4)
  let code := Function.update (emit bbMeta.exitBranchAddr condBranch code) branchAddr (some jump)
  if otherTarget ≠ uintMax then
    let otherJump ← branchHelper (branchAddr + 4) (otherTarget + 4)
    return ({ bbMeta with branchCacheStatus := status ||| bothLinked },
      Function.update code (branchAddr + 4) (some otherJump))
  else return ({ bbMeta with branchCacheStatus := status }, code)

def linkSecond : Option (CodeCacheMeta × Code) := do
  let branchAddr := bbMeta.exitBranchAddr + 8
  let jump ← branchHelper branchAddr (blockAddress + 4)
  return ({ bbMeta with branchCacheStatus := bbMeta.branchCacheStatus ||| bothLinked },
    Function.update code branchAddr (some jump))

def dispatcherAarch64 (exitType : BranchType) : Option (CodeCacheMeta × Code) :=
  match exitType with
  | .uncondImmA64 => do
    let jump ← branchHelper bbMeta.exitBranchAddr (blockAddress + 4)
    return ({ bbMeta with branchCacheStatus := branchLinked },
      Function.update code bbMeta.exitBranchAddr (some jump))
  | .condImmA64 | .cbzA64 | .tbzA64 =>
    if bbMeta.branchCacheStatus = 0 then linkFirst lookup target blockAddress bbMeta code
    else linkSecond blockAddress bbMeta code
  | _ => some (bbMeta, code)

end Dispatcher

end Mambo.A64Exits
