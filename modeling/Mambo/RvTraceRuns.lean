import Mambo.RvTraces
import Mambo.TraceRuns

namespace Mambo.RvTraceRuns

open TraceState TraceRuns RvTraces

variable {T : Type}

def rvCalls (env : Env T) (tryJumpTrampolines : Thread T → Nat → Nat → Bool) : Calls T where
  createTrace := createTrace env
  traceDispatcher := traceDispatcher env
  dispatcher := fun t => dispatcher env t tryJumpTrampolines
  indirect := .jalrRiscv

section Sample

/-- A guest whose code at 0x10000 jumps back to itself, with a hash table that is
a list. -/
def loopEnv : Env (List (Nat × Nat)) where
  codeCache := 0x50000000
  trampolinesSizeBbs := 10
  hashInit := fun _ => []
  hashAdd := fun table key value => ((key, value) :: table, true)
  hashLookup := fun table key => (table.lookup key).getD uintMax
  scanner := fun _ _ _ _ writeP => .ok ⟨.jalRiscv, writeP + 16, 0x10000, 0, 0, 50, 0⟩

def noTrampolines : Thread (List (Nat × Nat)) → Nat → Nat → Bool := fun _ _ _ => false

end Sample

end Mambo.RvTraceRuns
