import Mambo.A64Traces
import Mambo.TraceRuns

namespace Mambo.A64TraceRuns

open TraceState TraceRuns A64Traces

def a64Calls {T : Type} (env : Env T) (isInstructionPositionIndependent : Thread T → Nat → Bool) : Calls T where
  createTrace := createTrace env
  traceDispatcher := fun t => traceDispatcher env t isInstructionPositionIndependent
  dispatcher := fun t => dispatcher env t isInstructionPositionIndependent
  indirect := .uncondBranchReg

section Sample

/-- A guest whose code at 0x10000 branches back to itself, with a hash table that
is a function. -/
def branchEnv : Env (Nat → Nat) where
  codeCache := 0x50000000
  trampolinesSizeBbs := 10
  hashInit := fun _ _ => uintMax
  hashAdd := fun table key value => (Function.update table key value, true)
  hashLookup := fun table key => table key
  scanner := fun _ _ _ _ writeP => .ok ⟨.condImmA64, writeP + 16, 0x10000, 0x10004, 0, 24, 0⟩

def allIndependent : Thread (Nat → Nat) → Nat → Bool := fun _ _ => true

def zeroedThread : Thread (Nat → Nat) where
  wasFlushed := false
  freeBlock := 0
  codeCacheMeta := fun _ => ⟨0, 0, .unknown, 0, 0, 0, 0, 0, 0, 0, []⟩
  entryAddress := fun _ => 0
  traceCacheNext := 0
  traceId := 0
  traceFragmentCount := 0
  activeTrace := ⟨0, 0, 0, 0, false, []⟩
  ccLinks := 0
  events := []

end Sample

end Mambo.A64TraceRuns
