import Mambo.TraceState

namespace Mambo.A64Traces

open TraceState

section Distances

def oneMegabyte : Nat := 1024 * 1024

def thirtyTwoKb : Nat := 32 * 1024

def traceExitStubGuard : Nat := 16 * 1024

def isOffsetWithinRange (offset : Int) (range : Nat) : Bool := offset ≤ (range : Int) - 4 ∧ -(range : Int) ≤ offset

def condBranchRange : BranchType → Except Stop Nat
  | .cbzA64 | .condImmA64 => .ok oneMegabyte
  | .tbzA64 => .ok thirtyTwoKb
  | _ => .error .endless

def alignStub (p : Nat) : Nat := (p + 15) / 16 * 16

end Distances

variable {T : Type} (env : Env T) (t : Thread T)

def traceExitStubsFit (exits : List TraceExit) (stubStart : Nat) : Except Stop Bool :=
  match exits with
  | [] => .ok true
  | e :: rest => do
    let exitStubAddr := alignStub stubStart
    let max ← condBranchRange e.kind
    if isOffsetWithinRange ((exitStubAddr : Int) - e.source) max then traceExitStubsFit rest (exitStubAddr + 16)
    else .ok false

def ccBranch (fragment : Fragment) (writeP target : Nat) : Except Stop (Thread T) :=
  recordCcLink env (t.log (.link writeP 4 fragment)) writeP target

section InstallTrace

-- whether the instruction at an address is position independent
variable (isInstructionPositionIndependent : Thread T → Nat → Bool)

/-- How many instructions of a target a stub starts with. -/
def copied (target : Nat) : Nat :=
  if isInstructionPositionIndependent t target then
    if isInstructionPositionIndependent t (target + 4) then 2 else 1
  else 0

/-- The stub of an exit: the copied instructions, a branch and a NOP. Returns the
address after it. -/
def writeStub (e : TraceExit) (exitStart : Nat) : Except Stop (Thread T × Nat) := do
  let (t, exitId) ← allocateTraceFragment t
  let targetOffset := 4 * copied t isInstructionPositionIndependent e.target
  let t := t.setMeta exitId fun m =>
    { m with
      tpc := exitStart
      exitBranchType := .traceExit
      branchCacheStatus := branchLinked
      exitBranchAddr := exitStart + targetOffset
      branchTakenAddr := e.target + targetOffset }
  let t := t.setMeta e.fragmentId fun m => { m with freeB := exitId }
  .ok (t.log (.stub e.target), exitStart + targetOffset + 8)

def linkExit (e : TraceExit) : Except Stop (Thread T) :=
  if e.target < env.traces then ccBranch env t (.trace t.activeTrace.entryAddr) e.source e.target else .ok t

/-- The loop over the exits of the trace, with the address of the next stub. An
exit to a trace in reach has no stub. -/
def writeExits : List TraceExit → Thread T → Nat → Except Stop (Thread T × Nat)
  | [], t, exitStubAddr => .ok (t, exitStubAddr)
  | e :: rest, t, exitStubAddr => do
    let exitStart := alignStub exitStubAddr
    let max ← condBranchRange e.kind
    let t ← linkExit env t e
    if e.target < env.traces ∨ !isOffsetWithinRange ((e.target : Int) - e.source) max then
      let (t, exitStubAddr) ← writeStub t isInstructionPositionIndependent e exitStart
      if isOffsetWithinRange ((exitStart : Int) - e.source) max then writeExits rest t exitStubAddr
      else .error .range
    else writeExits rest t exitStart

/-- The loop over the links of the source block. -/
def patchLinks : List Nat → Thread T → Thread T
  | [], t => t
  | link :: rest, t => patchLinks rest (t.log (.patch link 4))

def installTrace : Except Stop (Thread T) := do
  let bbSource := t.activeTrace.sourceBb
  let spc := (t.codeCacheMeta bbSource).sourceAddr
  let tpc := t.activeTrace.entryAddr
  if !t.activeTrace.active then .error .assertion
  else
    let t := t.setActive fun a => { a with active := false }
    let t := patchLinks (t.codeCacheMeta bbSource).linkedFrom t
    let t := (t.setEntryAddress (env.hashAdd t.entryAddress spc tpc).1).log (.commit spc tpc)
    let (t, exitStubAddr) ← writeExits env isInstructionPositionIndependent t.activeTrace.exits t t.activeTrace.writeP
    .ok ((t.setTrace t.activeTrace.id exitStubAddr).setWriteP exitStubAddr)

end InstallTrace

section TraceDispatcher

variable (isInstructionPositionIndependent : Thread T → Nat → Bool)

def setUpTraceExit (writeP fragmentId : Nat) (isTaken : Bool) : Except Stop (Thread T × Nat) := do
  let m := t.codeCacheMeta fragmentId
  let newCondition := if isTaken then m.branchCondition ^^^ 1 else m.branchCondition
  let addr := if isTaken then m.branchSkippedAddr else m.branchTakenAddr
  let (t, tpc) ← activeTraceLookupOrScan env t addr
  let t ← traceRecordExit t ⟨writeP, tpc + 4, fragmentId, newCondition, m.exitBranchType⟩
  .ok (t, writeP + 4)

/-- Returns the id of the fragment and its length. -/
def scanTrace (address : Nat) (type : CcType) : Except Stop (Thread T × Nat × Nat) := do
  let writeP := t.activeTrace.writeP
  let (t, traceId) ← allocateTraceFragment t
  let t := t.setMeta traceId fun m => { m with sourceAddr := address, tpc := writeP, branchCacheStatus := 0 }
  let (t, fragmentLen) ← scanCode env t type address traceId writeP
  .ok ({ t with traceFragmentCount := t.traceFragmentCount + 1 }, traceId, fragmentLen)

def earlyTraceExit (source writeP tpc : Nat) : Except Stop (Thread T) := do
  let t ← ccBranch env t (.trace t.activeTrace.entryAddr) writeP (tpc + 4)
  let t ← installTrace env (t.setWriteP (writeP + 4)) isInstructionPositionIndependent
  .ok (t.setMeta source fun m => { m with branchCacheStatus := m.branchCacheStatus ||| bothLinked })

def exitTo (source writeP addr : Nat) : Except Stop (Thread T × Outcome) := do
  let t ← earlyTraceExit env t isInstructionPositionIndependent source writeP addr
  .ok (leave t addr)

/-- An early exit to the translation of the target, which may have to be scanned. -/
def scanAndExit (source writeP target : Nat) : Except Stop (Thread T × Outcome) := do
  let (t, addr) ← activeTraceLookupOrScan env t target
  exitTo env t isInstructionPositionIndependent source writeP addr

/-- The next fragment, after the exit of the last one is set up. The call returns
to a trampoline over the last word of the fragment. -/
def nextFragment (source writeP target : Nat) : Except Stop (Thread T × Outcome) := do
  let (t, fragmentId, fragmentLen) ← scanTrace env t target .trace
  let t := t.setWriteP (t.activeTrace.writeP + fragmentLen)
  let fit ← traceExitStubsFit t.activeTrace.exits t.activeTrace.writeP
  if !fit then
    scanAndExit env (t.setWriteP writeP) isInstructionPositionIndependent source writeP target
  else if (t.codeCacheMeta fragmentId).exitBranchType = .uncondBranchReg then
    let t ← installTrace env t isInstructionPositionIndependent
    .ok (leave t (t.activeTrace.writeP - 4))
  else .ok (stay t (t.activeTrace.writeP - 4) fragmentId)

def continueTrace (source writeP target : Nat) : Except Stop (Thread T × Outcome) := do
  let t := t.setWriteP writeP
  if t.wasFlushed then resolve env t target
  else if writeP ≥ env.codeCache + maxBranchRange - traceLimitOffset then
    scanAndExit env t isInstructionPositionIndependent source writeP target
  else
    let fit ← traceExitStubsFit t.activeTrace.exits (writeP + traceExitStubGuard)
    if !fit then scanAndExit env t isInstructionPositionIndependent source writeP target
    else if t.traceFragmentCount > maxTraceFragments then
      scanAndExit env t isInstructionPositionIndependent source writeP target
    else if activeTraceLookup env t target ≠ uintMax then
      exitTo env t isInstructionPositionIndependent source writeP (activeTraceLookup env t target)
    else nextFragment env t isInstructionPositionIndependent source writeP target

def traceDispatcher (target source : Nat) : Except Stop (Thread T × Outcome) := do
  let m := t.codeCacheMeta source
  let isTaken := m.branchTakenAddr = target
  let t := { t with wasFlushed := false }
  match m.exitBranchType with
  | .cbzA64 | .condImmA64 | .tbzA64 =>
    let (t, writeP) ← setUpTraceExit env t m.exitBranchAddr source isTaken
    let t := t.setMeta source fun m =>
      { m with branchCacheStatus := if isTaken then branchLinked else fallthroughLinked }
    continueTrace env t isInstructionPositionIndependent source writeP target
  | .uncondImmA64 =>
    continueTrace env (t.setMeta source fun m => { m with branchCacheStatus := branchLinked })
      isInstructionPositionIndependent source m.exitBranchAddr target
  | .uncondBranchReg => resolve env t target
  | _ => .error .endless

/-- The exits that a trace head and the first fragment of a trace may have. -/
def directExit : BranchType → Bool
  | .cbzA64 | .tbzA64 | .condImmA64 | .uncondImmA64 => true
  | _ => false

def beginTrace (bbSource : Nat) : Thread T :=
  { t with activeTrace := ⟨t.traceId, bbSource, t.traceCacheNext, t.traceCacheNext, true, []⟩ }.log
    (.create t.traceCacheNext)

def createTrace (bbSource : Nat) : Except Stop (Thread T × Outcome) := do
  let t := { t with traceFragmentCount := 0 }
  let m := t.codeCacheMeta bbSource
  if directExit m.exitBranchType then
    let t := { t with traceCacheNext := alignTrace t.traceCacheNext }
    if t.traceCacheNext ≥ env.codeCache + maxBranchRange - traceLimitOffset ∨
        t.traceId ≥ codeCacheSize + traceFragmentNo - traceFragmentOverp then
      resolve env (flushCodeCache env t) m.sourceAddr
    else
      let (t, traceId, _) ← scanTrace env (beginTrace t bbSource) m.sourceAddr .traceEntry
      if directExit (t.codeCacheMeta traceId).exitBranchType then .ok (stay t t.activeTrace.entryAddr traceId)
      else .error .endless
  else .error .endless

end TraceDispatcher

section Dispatcher

variable (isInstructionPositionIndependent : Thread T → Nat → Bool)

/-- The links of a conditional exit: a branch around the first link, and the other
side too if it is in the cache. A second call links the other side. -/
def linkConditional (source target blockAddress : Nat) : Except Stop (Thread T) := do
  let m := t.codeCacheMeta source
  let isTaken := target = m.branchTakenAddr
  let branchAddr := m.exitBranchAddr
  if m.branchCacheStatus = 0 then
    let otherTarget := env.hashLookup t.entryAddress (if isTaken then m.branchSkippedAddr else m.branchTakenAddr)
    let t := t.setMeta source fun m =>
      { m with branchCacheStatus := if isTaken then branchLinked else fallthroughLinked }
    let t ← ccBranch env t (.block source) (branchAddr + 4) (blockAddress + 4)
    if otherTarget ≠ uintMax then
      let t ← ccBranch env t (.block source) (branchAddr + 8) (otherTarget + 4)
      .ok (t.setMeta source fun m => { m with branchCacheStatus := m.branchCacheStatus ||| bothLinked })
    else .ok t
  else
    let t := t.setMeta source fun m => { m with branchCacheStatus := m.branchCacheStatus ||| bothLinked }
    ccBranch env t (.block source) (branchAddr + 8) (blockAddress + 4)

def dispatcherAarch64 (source : Nat) (exitType : BranchType) (target blockAddress : Nat) : Except Stop (Thread T) :=
  match exitType with
  | .uncondImmA64 => do
    let t ← ccBranch env t (.block source) (t.codeCacheMeta source).exitBranchAddr (blockAddress + 4)
    .ok (t.setMeta source fun m => { m with branchCacheStatus := branchLinked })
  | .condImmA64 | .cbzA64 | .tbzA64 => linkConditional env t source target blockAddress
  | _ => .ok t

/-- The exit type of the source block is read before the scan. -/
def dispatcher (target source : Nat) : Except Stop (Thread T × Outcome) := do
  if source ≥ codeCacheSize then traceDispatcher env t isInstructionPositionIndependent target source
  else
    let exitType := (t.codeCacheMeta source).exitBranchType
    let (t, addr) ← lookupOrScan env { t with wasFlushed := false } target
    if source = 0 ∨ t.wasFlushed then .ok (leave t addr)
    else
      let t ← dispatcherAarch64 env t source exitType target addr
      .ok (leave t addr)

end Dispatcher

end Mambo.A64Traces
