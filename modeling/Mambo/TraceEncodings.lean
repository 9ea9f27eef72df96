import Mambo.RvTraceExits
import Mambo.A64TraceExits

namespace Mambo.TraceEncodings

open TraceState TraceRuns TraceExits RvTraceRuns A64TraceRuns

/-- In no run of either architecture does a call fail because the branch of a
recorded exit does not reach its stub, or because a trace has too many exits. -/
theorem trace_exits_encodable {T T' : Type} {rvEnv : Env T} {a64Env : Env T'} (hrv : Spaced rvEnv 2 RvTraceExits.exitLength)
    (ha64 : Spaced a64Env 1 A64TraceExits.exitLength) (tryJumpTrampolines : Thread T → Nat → Nat → Bool)
    (isInstructionPositionIndependent : Thread T' → Nat → Bool) :
    (∀ s e call, Reachable rvEnv (rvCalls rvEnv tryJumpTrampolines) (fun _ _ => True) s →
      Fails (rvCalls rvEnv tryJumpTrampolines) s e call → e ≠ .range ∧ e ≠ .exits) ∧
    (∀ s e call, Reachable a64Env (a64Calls a64Env isInstructionPositionIndependent) (fun _ _ => True) s →
      Fails (a64Calls a64Env isInstructionPositionIndependent) s e call → e ≠ .range ∧ e ≠ .exits) :=
  ⟨fun _ _ _ h hfails => RvTraceExits.fails_other hrv h hfails, fun _ _ _ h hfails => A64TraceExits.fails_other ha64 h hfails⟩

/-- Two pieces of code that branch to each other, at 0x10000 and at 0x20000. -/
def rvPair : Env (List (Nat × Nat)) :=
  { loopEnv with
    scanner := fun _ _ address _ writeP => .ok ⟨.branchRiscv, writeP + 16, 0x30000 - address, address + 4, 0, 50, 0⟩ }

def a64Pair : Env (Nat → Nat) :=
  { branchEnv with
    scanner := fun _ _ address _ writeP => .ok ⟨.condImmA64, writeP + 16, 0x30000 - address, address + 4, 0, 24, 0⟩ }

theorem rvPair_spaced : Spaced rvPair 2 RvTraceExits.exitLength := by
  refine ⟨?_, ?_⟩
  · intro _ _ _ _ _ _ h
    exact nomatch h
  · intro t type address id writeP s _ h
    obtain rfl := Except.ok.inj h
    refine ⟨Nat.le_add_right _ _, fun _ => ?_, ?_⟩
    · dsimp only
      omega
    · change writeP + 16 + 24 ≤ writeP + 2 * 50
      omega

theorem a64Pair_spaced : Spaced a64Pair 1 A64TraceExits.exitLength := by
  refine ⟨?_, ?_⟩
  · intro _ _ _ _ _ _ h
    exact nomatch h
  · intro t type address id writeP s _ h
    obtain rfl := Except.ok.inj h
    refine ⟨Nat.le_add_right _ _, fun _ => Nat.mod_one _, ?_⟩
    change writeP + 16 + 8 ≤ writeP + 1 * 24
    omega

/-- A trace of both pieces is begun; the exit of the first one is recorded. -/
def pairCalls : List Call := [.dispatch 0x10000 0, .create 10, .dispatch 0x20000 55000]

/-- The next call records the exit of the second one and installs the trace. -/
theorem trace_exits_encodable_pair :
    (∃ s s', run rvPair (rvCalls rvPair noTrampolines) (initial rvPair zeroed) pairCalls = some s ∧
      s.thread.activeTrace.exits.length = 1 ∧
      next rvPair (rvCalls rvPair noTrampolines) s (.dispatch 0x10000 55001) = some s' ∧
      s'.thread.activeTrace.exits.length = 2 ∧ s'.thread.activeTrace.active = false ∧
      ∀ e call, Fails (rvCalls rvPair noTrampolines) s e call → e ≠ .range ∧ e ≠ .exits) ∧
    (∃ s s', run a64Pair (a64Calls a64Pair allIndependent) (initial a64Pair zeroedThread) pairCalls = some s ∧
      s.thread.activeTrace.exits.length = 1 ∧
      next a64Pair (a64Calls a64Pair allIndependent) s (.dispatch 0x10000 55001) = some s' ∧
      s'.thread.activeTrace.exits.length = 2 ∧ s'.thread.activeTrace.active = false ∧
      ∀ e call, Fails (a64Calls a64Pair allIndependent) s e call → e ≠ .range ∧ e ≠ .exits) := by
  have hboth := trace_exits_encodable rvPair_spaced a64Pair_spaced noTrampolines allIndependent
  refine ⟨⟨_, _, rfl, rfl, rfl, rfl, rfl, fun e call => hboth.1 _ e call ?_⟩,
    ⟨_, _, rfl, rfl, rfl, rfl, rfl, fun e call => hboth.2 _ e call ?_⟩⟩
  · exact run_reachable rvPair (rvCalls rvPair noTrampolines) ⟨zeroed, .refl⟩ pairCalls (by decide) rfl
  · exact run_reachable a64Pair (a64Calls a64Pair allIndependent) ⟨zeroedThread, .refl⟩ pairCalls (by decide) rfl

end Mambo.TraceEncodings
