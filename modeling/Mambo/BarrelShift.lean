import Mathlib.Data.BitVec
import Mathlib.Tactic.Common

namespace Mambo.BarrelShift

/-- The kinds of shifts, in the order of `enum shift_type`. -/
inductive ShiftType
  | lsl
  | lsr
  | asr
  | ror
  deriving DecidableEq

variable {w : Nat}

def shift (t : ShiftType) (v : BitVec w) (k : Nat) : BitVec w :=
  match t with
  | .lsl => v <<< k
  | .lsr => v >>> k
  | .asr => v.sshiftRight k
  | .ror => v.rotateRight k

variable {t : ShiftType} {v : BitVec w} {k : Nat}

@[simp] theorem shift_zero_left : shift t (0#w) k = 0#w := by
  cases t with
  | lsl => exact BitVec.zero_shiftLeft k
  | lsr => exact BitVec.zero_ushiftRight
  | asr => exact BitVec.zero_sshiftRight
  | ror => simp [shift, BitVec.rotateRight_def]

@[simp] theorem shift_zero_right : shift t v 0 = v := by
  cases t with
  | lsl => exact BitVec.shiftLeft_zero v
  | lsr => exact BitVec.ushiftRight_zero v
  | asr => exact BitVec.sshiftRight_zero
  | ror => simp [shift, BitVec.rotateRight_def, BitVec.shiftLeft_eq_zero]

end Mambo.BarrelShift
