import Mambo.TraceState
import Mathlib.Algebra.Group.Int.Defs

namespace Mambo.RvTraces

open TraceState

section Distances

def wholeTrace : Nat := 4000

def tracePadding : Nat := 1000

def traceExit : Nat := 15

def traceExitStubMaxSize : Nat := 20

/-- The conditions under which the helpers for JAL, AUIPC with JALR and the
conditional branches do not return -1. -/
def jalReaches (source target : Nat) : Bool :=
  ((target : Int) - source) % 2 = 0 ∧ -1024 * 1024 ≤ (target : Int) - source ∧ (target : Int) - source < 1024 * 1024

def jalrReaches (source target : Nat) : Bool :=
  -2 ^ 31 ≤ (target : Int) - source ∧ (target : Int) - source ≤ 2 ^ 31 - 1

def bBranchCanReach (source target : Nat) : Bool :=
  ((target : Int) - source) % 2 = 0 ∧ -4096 ≤ (target : Int) - source ∧ (target : Int) - source < 4096

/-- The number of bytes that are written and whether 0 is returned. A push of a0
and a1 takes 12 bytes. -/
def jumpTo (writeP target : Nat) : Nat × Bool :=
  if jalReaches writeP (target + 6) then (4, true)
  else if jalrReaches (writeP + 12) target then (20, true)
  else (12, false)

end Distances

variable {T : Type} (env : Env T) (t : Thread T)

def traceExitStubsFit (exits : List TraceExit) (stubAddr : Nat) : Bool :=
  match exits with
  | [] => true
  | e :: rest => bBranchCanReach e.source stubAddr && traceExitStubsFit rest (stubAddr + traceExitStubMaxSize)

/-- The end of the jump that is written at an address, under an assertion that it
reaches its target. -/
def assertJumpTo (writeP target : Nat) : Except Stop Nat :=
  if (jumpTo writeP target).2 then .ok (writeP + (jumpTo writeP target).1) else .error .assertion

def setUpTraceExit (writeP target : Nat) : Except Stop (Thread T × Nat) := do
  let t := t.log (.link writeP (jumpTo writeP target).1 (.trace t.activeTrace.entryAddr))
  if jalReaches writeP (target + 6) then
    let t ← recordCcLink env t writeP (target + 6)
    .ok (t, writeP + 4)
  else if jalrReaches (writeP + 12) target then
    let t ← recordCcLink env t writeP target
    .ok (t, writeP + 20)
  else .error .assertion

section InstallTrace

/-- The two translations that the exit of a block is rewritten for: the one that
the branch falls through to and the one it is taken to. The fields of the block
are read again after a scan. -/
def exitTargets (bb : Nat) : Except Stop (Thread T × Nat × Nat) := do
  if activeTraceLookup env t (t.codeCacheMeta bb).branchTakenAddr ≠ uintMax then
    let (t, notTaken) ← activeTraceLookupOrScan env t (t.codeCacheMeta bb).branchSkippedAddr
    .ok (t, notTaken, activeTraceLookup env t (t.codeCacheMeta bb).branchTakenAddr)
  else if activeTraceLookup env t (t.codeCacheMeta bb).branchSkippedAddr ≠ uintMax then
    let (t, notTaken) ← activeTraceLookupOrScan env t (t.codeCacheMeta bb).branchTakenAddr
    .ok (t, notTaken, activeTraceLookup env t (t.codeCacheMeta bb).branchSkippedAddr)
  else .error .assertion

/-- The conditional exit of a block becomes a branch and two jumps. -/
def patchBranch (bb : Nat) : Except Stop (Thread T) := do
  let branch := (t.codeCacheMeta bb).exitBranchAddr
  let first := branch + 4
  let (t, notTaken, taken) ← exitTargets env t bb
  let second ← assertJumpTo first notTaken
  let last ← assertJumpTo second taken
  let t := ((t.log (.patch branch (last - branch))).log (.link first (jumpTo first notTaken).1 (.block bb))).log
    (.link second (jumpTo second taken).1 (.block bb))
  if notTaken < env.traces then recordCcLink env t last notTaken else .ok t

def fragmentOf (bb : Nat) : Nat := if (t.codeCacheMeta bb).actualId ≠ 0 then (t.codeCacheMeta bb).actualId else bb

/-- The loop over the links of the source block. -/
def patchLinks (tpc : Nat) : List Nat → Thread T → Except Stop (Thread T)
  | [], t => .ok t
  | link :: rest, t => do
    if link ≥ env.traces then
      let _ ← assertJumpTo link tpc
      let t := t.log (.patch link (jumpTo link tpc).1)
      if t.wasFlushed then .ok t else patchLinks tpc rest t
    else
      match addrToBbId env link with
      | none => .ok t
      | some bb =>
        let bb := fragmentOf t bb
        if (t.codeCacheMeta bb).exitBranchType = .branchRiscv then
          let t ← patchBranch env t bb
          if t.wasFlushed then .ok t else patchLinks tpc rest t
        else
          let _ ← assertJumpTo link tpc
          let t := t.log (.patch link (jumpTo link tpc).1)
          if t.wasFlushed then .ok t else patchLinks tpc rest t

/-- The loop over the exits of the trace, with the address of the next stub. -/
def writeExits : List TraceExit → Thread T → Nat → Except Stop (Thread T × Nat)
  | [], t, writeP => .ok (t, writeP)
  | e :: rest, t, writeP => do
    if bBranchCanReach e.source writeP then
      let (t, writeP) ← setUpTraceExit env t writeP e.target
      writeExits rest t writeP
    else .error .range

def installTrace : Except Stop (Thread T) := do
  let bbSource := t.activeTrace.sourceBb
  let spc := (t.codeCacheMeta bbSource).sourceAddr
  let tpc := t.activeTrace.entryAddr
  if !t.activeTrace.active then .error .assertion
  else
    let t := t.setActive fun a => { a with active := false }
    let t ← patchLinks env tpc (t.codeCacheMeta bbSource).linkedFrom t
    if t.wasFlushed then .ok t
    else
      let t := (t.setEntryAddress (env.hashAdd t.entryAddress spc tpc).1).log (.commit spc tpc)
      let (t, writeP) ← writeExits env t.activeTrace.exits t t.activeTrace.writeP
      .ok ((t.setWriteP writeP).setTrace t.activeTrace.id writeP)

end InstallTrace

section TraceDispatcher

def otherSide (addr : Nat) : Except Stop (Thread T × Nat) :=
  if activeTraceLookup env t addr = uintMax then lookupOrScan env t addr else .ok (t, activeTraceLookup env t addr)

def setUpTraceExitBranchPlaceholder (writeP fragmentId : Nat) (isTaken : Bool) : Except Stop (Thread T × Nat) := do
  let m := t.codeCacheMeta fragmentId
  let newCondition := if isTaken then m.branchCondition else m.branchCondition ^^^ 1
  let addr := if isTaken then m.branchSkippedAddr else m.branchTakenAddr
  let (t, tpc) ← otherSide env t addr
  let t ← traceRecordExit t ⟨writeP, tpc, fragmentId, newCondition, .branchRiscv⟩
  .ok (t, writeP + 4)

/-- Returns the id of the fragment and its length, which is 0 for one that is not
used. -/
def scanTrace (address : Nat) (type : CcType) : Except Stop (Thread T × Nat × Nat) := do
  let writeP := t.activeTrace.writeP
  let (t, traceId) ← allocateTraceFragment t
  let t := t.setMeta traceId fun m => { m with sourceAddr := address, tpc := writeP, branchCacheStatus := 0 }
  let (t, fragmentLen) ← scanCode env t type address traceId writeP
  if (writeP : Int) - t.activeTrace.entryAddr + ((t.traceFragmentCount + 1) * traceExit % 256 : Nat) ≥
      ((wholeTrace - tracePadding) % 256 : Nat) then .ok (t, traceId, 0)
  else .ok ({ t with traceFragmentCount := t.traceFragmentCount + 1 }, traceId, fragmentLen)

def earlyTraceExit (source writeP tpc : Nat) : Except Stop (Thread T) := do
  let size := (jumpTo writeP tpc).1
  let t := (t.log (.link writeP size (.trace t.activeTrace.entryAddr))).setWriteP (writeP + size)
  let t ← installTrace env t
  if t.wasFlushed then .ok t
  else .ok (t.setMeta source fun m => { m with branchCacheStatus := m.branchCacheStatus ||| bothLinked })

def exitTo (source writeP target addr : Nat) : Except Stop (Thread T × Outcome) := do
  let t ← earlyTraceExit env t source writeP addr
  if t.wasFlushed then resolve env t target else .ok (leave t addr)

/-- An early exit to the translation of the target, where a link is recorded if
it is not a trace. -/
def linkedExit (source writeP target : Nat) : Except Stop (Thread T × Outcome) := do
  let addr := activeTraceLookup env t target
  if addr = uintMax then
    let (t, addr) ← activeTraceLookupOrScan env t target
    let t ← recordCcLink env t writeP addr
    exitTo env t source writeP target addr
  else exitTo env t source writeP target addr

def unlinkedExit (source writeP target : Nat) : Except Stop (Thread T × Outcome) := do
  let (t, addr) ← activeTraceLookupOrScan env t target
  exitTo env t source writeP target addr

def nextFragment (source writeP target : Nat) : Except Stop (Thread T × Outcome) := do
  let traceIdStart := t.activeTrace.id
  let exitsStart := t.activeTrace.exits
  let (t, fragmentId, fragmentLen) ← scanTrace env t target .trace
  if t.wasFlushed then resolve env t target
  else if fragmentLen = 0 then
    linkedExit env (t.setActive fun a => { a with writeP := writeP, id := traceIdStart, exits := exitsStart }) source
      writeP target
  else
    let t := t.setWriteP (t.activeTrace.writeP + 2 * fragmentLen)
    if !traceExitStubsFit t.activeTrace.exits t.activeTrace.writeP then
      unlinkedExit env (t.setActive fun a => { a with writeP := writeP, id := traceIdStart, exits := exitsStart }) source
        writeP target
    else if (t.codeCacheMeta fragmentId).exitBranchType = .jalrRiscv then
      let t ← installTrace env t
      if t.wasFlushed then resolve env t target else .ok (leave t t.activeTrace.writeP)
    else .ok (stay t t.activeTrace.writeP fragmentId)

def continueTrace (source writeP target : Nat) : Except Stop (Thread T × Outcome) := do
  let t := t.setWriteP writeP
  if t.wasFlushed then resolve env t target
  else if !traceExitStubsFit t.activeTrace.exits (writeP + traceExitStubMaxSize) then unlinkedExit env t source writeP target
  else if t.traceFragmentCount > maxTraceFragments then linkedExit env t source writeP target
  else if activeTraceLookup env t target ≠ uintMax then
    exitTo env t source writeP target (activeTraceLookup env t target)
  else nextFragment env t source writeP target

def traceDispatcher (target source : Nat) : Except Stop (Thread T × Outcome) := do
  let m := t.codeCacheMeta source
  let isTaken := m.branchTakenAddr = target
  let t := { t with wasFlushed := false }
  match m.exitBranchType with
  | .branchRiscv =>
    let (t, writeP) ← setUpTraceExitBranchPlaceholder env t m.exitBranchAddr source isTaken
    let t := t.setMeta source fun m =>
      { m with branchCacheStatus := if isTaken then branchLinked else fallthroughLinked }
    continueTrace env t source writeP target
  | .jalRiscv =>
    continueTrace env (t.setMeta source fun m => { m with branchCacheStatus := branchLinked }) source m.exitBranchAddr
      target
  | .jalrRiscv => resolve env t target
  | _ => .error .endless

def beginTrace (bbSource : Nat) : Thread T :=
  { t with
    wasFlushed := false
    activeTrace := ⟨t.traceId, bbSource, t.traceCacheNext, t.traceCacheNext, true, []⟩ }.log (.create t.traceCacheNext)

def createTrace (bbSource : Nat) : Except Stop (Thread T × Outcome) := do
  let t := { t with traceFragmentCount := 0 }
  let m := t.codeCacheMeta bbSource
  if m.exitBranchType = .jalRiscv ∨ m.exitBranchType = .branchRiscv then
    let t := { t with traceCacheNext := alignTrace t.traceCacheNext }
    if t.traceCacheNext ≥ env.codeCache + maxBranchRange - traceLimitOffset ∨
        t.traceId ≥ codeCacheSize + traceFragmentNo - traceFragmentOverp then
      resolve env (flushCodeCache env t) m.sourceAddr
    else
      let (t, traceId, _) ← scanTrace env (beginTrace t bbSource) m.sourceAddr .traceEntry
      if t.wasFlushed then resolve env t m.sourceAddr
      else if (t.codeCacheMeta traceId).exitBranchType = .jalRiscv ∨
          (t.codeCacheMeta traceId).exitBranchType = .branchRiscv then
        .ok (stay t t.activeTrace.entryAddr traceId)
      else .error .endless
  else .error .endless

end TraceDispatcher

section Dispatcher

-- whether the jump trampolines lead from one address to another
variable (tryJumpTrampolines : Thread T → Nat → Nat → Bool)

/-- Returns the address after the link. A link with JAL is padded to the length of
one with AUIPC and JALR, and the callers assert that 0 is returned. -/
def linkTo (bb writeP target : Nat) : Except Stop (Thread T × Nat) := do
  let t ← recordCcLink env (t.log (.link writeP 20 (.block bb))) writeP target
  if jalReaches writeP (target + 6) ∨ tryJumpTrampolines t writeP (target + 6) ∨ jalrReaches (writeP + 12) target then
    .ok (t, writeP + 20)
  else .error .assertion

/-- A branch of the exit to a block, followed by a link to the other side if that
is in the cache. -/
def linkBranchTo (bb writeP target : Nat) (other : Option Nat) : Except Stop (Thread T) := do
  let t ← recordCcLink env (t.log (.link writeP 4 (.block bb))) writeP (target + 6)
  match other with
  | none => .ok t
  | some other =>
    let (t, _) ← linkTo env t tryJumpTrampolines bb (writeP + 4) other
    .ok t

def inCache (tpc : Nat) : Option Nat := if tpc ≠ uintMax then some tpc else none

def linkBranch (bb : Nat) : Except Stop (Thread T) := do
  let m := t.codeCacheMeta bb
  let writeP := m.exitBranchAddr
  let targetTpc := env.hashLookup t.entryAddress m.branchTakenAddr
  let fallthroughTpc := env.hashLookup t.entryAddress m.branchSkippedAddr
  let target := inCache targetTpc
  let fallthrough := inCache fallthroughTpc
  if target.isNone ∧ fallthrough.isNone then .error .assertion
  else if target.isSome ∧ bBranchCanReach writeP (targetTpc + 6) then
    linkBranchTo env t tryJumpTrampolines bb writeP targetTpc fallthrough
  else if fallthrough.isSome ∧ bBranchCanReach writeP (targetTpc + 6) then
    linkBranchTo env t tryJumpTrampolines bb writeP targetTpc target
  else
    -- the branch around the link always reaches, 24 bytes on
    let (t, writeP) ← linkTo env t tryJumpTrampolines bb (writeP + 4) (target.getD fallthroughTpc)
    match target, fallthrough with
    | some _, some fallthrough =>
      let (t, _) ← linkTo env t tryJumpTrampolines bb writeP fallthrough
      .ok t
    | _, _ => .ok t

def dispatcherRiscv (source : Nat) (exitType : BranchType) (blockAddress : Nat) : Except Stop (Thread T) :=
  match exitType with
  | .branchRiscv => linkBranch env t tryJumpTrampolines source
  | .jalRiscv => do
    let (t, _) ← linkTo env t tryJumpTrampolines source (t.codeCacheMeta source).exitBranchAddr blockAddress
    .ok t
  | _ => .ok t

/-- The exit type of the source block is read before the scan. -/
def dispatcher (target source : Nat) : Except Stop (Thread T × Outcome) := do
  if source ≥ codeCacheSize then traceDispatcher env t target source
  else
    let exitType := (t.codeCacheMeta source).exitBranchType
    let (t, addr) ← lookupOrScan env { t with wasFlushed := false } target
    if source = 0 ∨ t.wasFlushed then .ok (leave t addr)
    else
      let t ← dispatcherRiscv env t tryJumpTrampolines source exitType addr
      .ok (leave t addr)

end Dispatcher

end Mambo.RvTraces
