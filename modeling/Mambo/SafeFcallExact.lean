import Mambo.A64SafeFcalls
import Mambo.ArmSafeFcalls
import Mambo.RvSafeFcalls

namespace Mambo.SafeFcallExact

open BranchEmitters SafeFcalls SafeFcallRuns

/-- What `emit_safe_fcall_static_args` is called with, at an even write pointer, and where the trampoline is. -/
structure Params (w maxFcallArgs : Nat) where
  start : BitVec w
  even : start.toNat % 2 = 0
  tramp : BitVec w
  fptr : BitVec w
  argno : Nat
  few : argno ≤ maxFcallArgs
  args : Nat → BitVec w

inductive Call
  | a64 (p : Params 64 8)
  | a32 (p : Params 32 4)
  | t32 (p : Params 32 4)
  | riscv (p : Params 64 8)

def Call.Safe : Call → Prop
  | .a64 p => SafeFcallRuns.Safe SafeFcalls.a64 A64SafeFcalls.machine A64SafeFcalls.abi p.start p.tramp p.fptr p.argno p.args
  | .a32 p =>
    SafeFcallRuns.Safe SafeFcalls.a32 ArmSafeFcalls.a32Machine ArmSafeFcalls.abi p.start p.tramp p.fptr p.argno p.args
  | .t32 p =>
    SafeFcallRuns.Safe SafeFcalls.t32 ArmSafeFcalls.t32Machine ArmSafeFcalls.abi p.start p.tramp p.fptr p.argno p.args
  | .riscv p =>
    SafeFcallRuns.Safe SafeFcalls.riscv RvSafeFcalls.machine RvSafeFcalls.abi p.start p.tramp p.fptr p.argno p.args

/-- Where a call does all that it should: the trampoline is out of the reach of a branch, and on RISC-V there is no
argument to pass. -/
def Call.Exact : Call → Prop
  | .a64 p => ¬Within (A64.reach AL) 4 (p.tramp - callSite SafeFcalls.a64 p.start p.fptr p.argno p.args).toInt
  | .a32 p =>
    p.tramp.getLsbD 0 = true ∨
      ¬Within A32.reach 4 (Mambo.T32.entry p.tramp - callSite SafeFcalls.a32 p.start p.fptr p.argno p.args - 8).toInt
  | .t32 p =>
    ¬Within (T32.reach AL) 2 (T32.diff (callSite SafeFcalls.t32 p.start p.fptr p.argno p.args) p.tramp).toInt
  | .riscv p =>
    p.argno = 0 ∧ ¬Within Rv.reach 2 (p.tramp - callSite SafeFcalls.riscv p.start p.fptr p.argno p.args).toInt

theorem call_safe_iff (c : Call) : c.Safe ↔ c.Exact := by
  cases c with
  | a64 p => exact A64SafeFcalls.safe_iff_far p.few p.even
  | a32 p => exact ArmSafeFcalls.safe_iff_far_a32 p.few p.even
  | t32 p => exact ArmSafeFcalls.safe_iff_far_t32 p.few p.even
  | riscv p => exact RvSafeFcalls.safe_iff_far p.few p.even

/-- A trampoline close by is not called in A32 code, and on RISC-V the one argument does not get to a0. -/
theorem near_call_lost :
    ¬(Call.a32 ⟨0x10000, by decide, 0x20000, 0x123456, 0, by decide, fun _ => 0⟩).Safe ∧
      ¬(Call.riscv ⟨0x10000, by decide, 0x100000000, 0x123456, 1, by decide, fun _ => 7⟩).Safe := by
  constructor
  · intro hsafe
    have hsite : callSite SafeFcalls.a32 0x10000 0x123456 0 (fun _ => 0) = 0x1000C := by decide
    rcases (ArmSafeFcalls.safe_iff_far_a32 (by decide) (by decide)).mp hsafe with hbit | hfar
    · exact absurd hbit (by decide)
    · rw [hsite] at hfar
      exact hfar (by decide)
  · exact RvSafeFcalls.not_safe_args (by decide) (by decide)

end Mambo.SafeFcallExact
