import Mambo.A64FragmentIds
import Mambo.RvFragmentIds

namespace Mambo.FragmentRuns

open TraceState TraceRuns FragmentLookup FragmentIds RvTraceRuns A64TraceRuns
open A64TraceFlushes (DispatchMeets)

variable {T T' : Type} {env : Env T} {s : System T} {indirect : BranchType}

/-- An address of a block or of code that was written for a trace. -/
def Emitted (env : Env T) (s : System T) (addr : Nat) : Prop :=
  isBb env addr ∨ env.traces ≤ addr ∧ addr < env.codeCache + maxBranchRange ∧
    (addr < s.thread.traceCacheNext ∨ s.control ≠ .outside)

/-- The fragments are in the order of their ids. At every address of emitted code
but the first one of the traces the lookup gives the fragment at the address, and
the two tests for the blocks agree there. -/
structure LookupMeets (env : Env T) (s : System T) : Prop where
  ordered : ∀ i j, codeCacheSize ≤ i → i ≤ j → j < s.thread.activeTrace.id → tpcOf s.thread i ≤ tpcOf s.thread j
  located : ∀ addr, Emitted env s addr →
    (Located env s.thread addr ∧ ((addrToBbId env addr).isSome ↔ isBb env addr) ↔ addr ≠ env.traces)
  blocks : ∀ addr, ((addrToBbId env addr).isSome ↔ isBb env addr) ↔ addr ≠ env.traces

theorem Laid.meets {p : Nat} (h : Laid env s.thread p)
    (hsome : ∀ addr, env.traces < addr → Emitted env s addr → codeCacheSize < s.thread.activeTrace.id) :
    LookupMeets env s := by
  refine ⟨h.mono, ?_, addrToBbId_iff⟩
  intro addr hemitted
  refine ⟨fun hboth => (addrToBbId_iff addr).mp hboth.2, fun hne => ⟨?_, (addrToBbId_iff addr).mpr hne⟩⟩
  by_cases hblock : isBb env addr
  · exact located_block hblock
  obtain ⟨hlow, hhigh, hwritten⟩ := hemitted.resolve_left hblock
  have hlt : env.traces < addr := Nat.lt_of_le_of_ne hlow (Ne.symm hne)
  exact h.located (hsome addr hlt hemitted) hlt hhigh

theorem IdsInv.meets (h : IdsInv env indirect s) : LookupMeets env s := by
  obtain ⟨t, control⟩ := s
  cases control with
  | outside =>
      have hout := h.outside rfl
      refine Laid.meets hout.laid ?_
      intro addr hlt hemitted
      refine Nat.lt_of_le_of_ne hout.laid.first fun hempty => ?_
      have hnext := hout.laid.empty hempty.symm
      rcases hemitted with hblock | ⟨-, -, hwritten | hbuilding⟩
      · exact Nat.lt_asymm hlt (of_decide_eq_true hblock).2
      · exact Nat.lt_asymm hlt (hnext ▸ hwritten)
      · exact hbuilding rfl
  | building f =>
      have hbuilding := (h.building f rfl).building
      exact Laid.meets hbuilding.laid fun _ _ _ => hbuilding.some

/-- In every run in which no flush falls into the construction of a trace that goes
on after it, fragments are found by the addresses of their code, except at the
start of the traces, which is taken for a block. -/
theorem fragment_lookup {rvEnv : Env T} {a64Env : Env T'} (hrvBlocks : rvEnv.trampolinesSizeBbs < codeCacheSize)
    (hrvCache : rvEnv.codeCache % traceAlign = 0) (hrvScanner : ScansAhead rvEnv)
    (ha64Blocks : a64Env.trampolinesSizeBbs < codeCacheSize) (ha64Cache : a64Env.codeCache % traceAlign = 0)
    (ha64Scanner : ScansAhead a64Env) (tryJumpTrampolines : Thread T → Nat → Nat → Bool)
    (isInstructionPositionIndependent : Thread T' → Nat → Bool) :
    (∀ s, Reachable rvEnv (rvCalls rvEnv tryJumpTrampolines) NotUnmapped s → LookupMeets rvEnv s) ∧
    (∀ s, Reachable a64Env (a64Calls a64Env isInstructionPositionIndependent) (BuildMeets (DispatchMeets a64Env)) s →
      LookupMeets a64Env s) := by
  refine ⟨?_, ?_⟩
  · intro s h
    exact IdsInv.meets (RvFragmentIds.reachable_inv hrvBlocks hrvCache hrvScanner h)
  · intro s h
    exact IdsInv.meets (A64FragmentIds.reachable_inv ha64Blocks ha64Cache ha64Scanner h)

theorem loopEnv_scansAhead : ScansAhead loopEnv := by
  intro t type address id writeP s _ h
  obtain rfl := Except.ok.inj h
  exact Nat.le_add_right _ _

theorem branchEnv_scansAhead : ScansAhead branchEnv := by
  intro t type address id writeP s _ h
  obtain rfl := Except.ok.inj h
  exact Nat.le_add_right _ _

/-- On both architectures, a trace of a block that branches to itself. -/
theorem fragment_lookup_loop :
    (∃ s, run loopEnv (rvCalls loopEnv noTrampolines) (initial loopEnv zeroed)
      [.dispatch 0x10000 0, .create 10, .dispatch 0x10000 55000] = some s ∧ LookupMeets loopEnv s) ∧
    (∃ s, run branchEnv (a64Calls branchEnv allIndependent) (initial branchEnv zeroedThread)
      [.dispatch 0x10000 0, .create 10] = some s ∧ LookupMeets branchEnv s) := by
  have hboth := fragment_lookup (by decide) (by decide) loopEnv_scansAhead (by decide) (by decide) branchEnv_scansAhead
    noTrampolines allIndependent
  exact ⟨⟨_, rfl, hboth.1 _ (run_reachable loopEnv (rvCalls loopEnv noTrampolines) ⟨zeroed, .refl⟩
    [.dispatch 0x10000 0, .create 10, .dispatch 0x10000 55000] (by decide) rfl)⟩,
    ⟨_, rfl, hboth.2 _ (run_reachable branchEnv (a64Calls branchEnv allIndependent) ⟨zeroedThread, .refl⟩
    [.dispatch 0x10000 0, .create 10] (by decide) rfl)⟩⟩

/-- The code of the first trace starts at an address that has a block id and is
not in a block. -/
theorem first_trace_is_block :
    ∃ s, Reachable loopEnv (rvCalls loopEnv noTrampolines) NotUnmapped s ∧ Emitted loopEnv s loopEnv.traces ∧
      tpcOf s.thread codeCacheSize = loopEnv.traces ∧ addrToBbId loopEnv loopEnv.traces = some codeCacheSize ∧
      ¬ isBb loopEnv loopEnv.traces := by
  refine ⟨_, run_reachable loopEnv (rvCalls loopEnv noTrampolines) ⟨zeroed, .refl⟩
    [.dispatch 0x10000 0, .create 10, .dispatch 0x10000 55000] (by decide) rfl, ?_, ?_, ?_, ?_⟩
  · exact Or.inr ⟨Nat.le_refl _, by decide, Or.inl (by decide)⟩
  · rfl
  · decide
  · decide

end Mambo.FragmentRuns
