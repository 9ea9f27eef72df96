import Mambo.BarrelShift
import Mambo.EmitResults
import Mambo.RvPluginStack

namespace Mambo.RvAddSub

open ByteMemory BarrelShift RvEmit RvStack
open Rv (Reg Word State zero sp)
open RvPlugin RvPluginStack EmitResults

section Emitters

/-- `__riscv_find_next_free_reg`; none where the loop would go on past 128. -/
def riscvFindNextFreeReg (currentRegs : Nat) : Option Nat :=
  (List.range' 1 128).find? fun newRegTemp => newRegTemp &&& currentRegs == 0

/-- `1 << n`; none where C leaves it undefined. -/
def oneShl (n : Nat) : Option (BitVec 32) := if n < 31 then some ((1 : BitVec 32) <<< n) else none

/-- The copy of rm that is shifted when it is rn too, and the code that makes it. -/
def shiftedReg (rd rn rm : Reg) : Option (List Inst × Nat) :=
  if rn = rm then do
    let rmNew ← riscvFindNextFreeReg (rd.toNat ||| rn.toNat ||| rm.toNat)
    let saved ← emitRiscvPush (← oneShl rmNew)
    return (saved ++ [.core (.addi (BitVec.ofNat 5 rmNew) rm 0)], rmNew)
  else some ([], rm.toNat)

def emitRotate (rd rn rm : Reg) (rmNew : Nat) (shift : BitVec 6) : Option (List Inst) := do
  let currentRegs := rd.toNat ||| rn.toNat ||| rm.toNat ||| rmNew
  let temp1 ← riscvFindNextFreeReg currentRegs
  let temp2 ← riscvFindNextFreeReg (currentRegs ||| temp1)
  let regs := (← oneShl temp1) ||| (← oneShl temp2)
  let rmNew := BitVec.ofNat 5 rmNew
  let saved ← emitRiscvPush regs
  let restored ← emitRiscvPop regs
  return saved ++
    [.core (.srli (BitVec.ofNat 5 temp1) rmNew shift), .core (.slli (BitVec.ofNat 5 temp2) rmNew (-shift)),
      .or rmNew (BitVec.ofNat 5 temp1) (BitVec.ofNat 5 temp2)] ++ restored

def emitShift (rd rn rm : Reg) (rmNew : Nat) (t : ShiftType) (shift : BitVec 6) : Option (List Inst) :=
  let reg := BitVec.ofNat 5 rmNew
  match t with
  | .lsl => some [.core (.slli reg reg shift)]
  | .lsr => some [.core (.srli reg reg shift)]
  | .asr => some [.srai reg reg shift]
  | .ror => emitRotate rd rn rm rmNew shift

def emitShifted (rd rn rm : Reg) (t : ShiftType) (shift : BitVec 6) : Option (List Inst) := do
  let saved ← shiftedReg rd rn rm
  let shifted ← emitShift rd rn rm saved.2 t shift
  return saved.1 ++ shifted

/-- `emit_add_sub_shift` on RISC-V, where nothing is returned: what it emits. -/
def emitAddSubShift (rd rn rm : Reg) (t : ShiftType) (shift : BitVec 6) : Option (List Inst) := do
  let first ← if shift ≠ 0 then emitShifted rd rn rm t shift else some []
  return first ++ [.core (.add rd rn rm)]

def emitMov (rd rn : Reg) : List Inst := [.core (.addi rd rn 0)]

/-- `emit_add_sub_i` on RISC-V. -/
def emitAddSubI (rd rn : Reg) (offset : BitVec 32) : Result Inst :=
  if offset = 0 then .ok (if rd ≠ rn then emitMov rd rn else [])
  else if offset.toInt > 0x7FF ∨ offset.toInt < -0xFFF then .fail
  else .ok [.core (.addi rd rn (offset.setWidth 12))]

end Emitters

section Immediates

variable {rd rn : Reg} {offset : BitVec 32} {m : Machine}

/-- The code sets rd to rn plus the offset, and changes nothing else. -/
def Sets (rd rn : Reg) (offset : BitVec 32) (code : List Inst) : Prop :=
  ∀ m, execAll code m =
    (m.set rd (m.get rn + offset.signExtend 64)).goto (m.core.pc + BitVec.ofNat 64 (4 * code.length))

/-- When the emitter does what it returns: the immediate of addi has twelve bits with its sign. -/
def ExactI (rd : Reg) (offset : BitVec 32) : Prop := rd = zero ∨ ¬(-0xFFF ≤ offset.toInt ∧ offset.toInt < -0x800)

theorem toInt_imm (hle : offset.toInt ≤ 0x7FF) (hge : -0xFFF ≤ offset.toInt) :
    ((offset.setWidth 12).signExtend 64).toInt = if offset.toInt < -0x800 then offset.toInt + 4096 else offset.toInt := by
  have hdef := BitVec.toInt_eq_toNat_cond offset
  have hlt := offset.isLt
  rw [BitVec.toInt_signExtend_of_le (by decide), BitVec.toInt_setWidth]
  split at hdef <;> split <;> simp only [Int.bmod] <;> omega

theorem exec_addi_goto {imm : BitVec 12} :
    exec (.core (.addi rd rn imm)) m = (m.set rd (m.get rn + imm.signExtend 64)).goto (m.core.pc + 4) := by
  rw [exec_addi, Machine.next, Machine.set, State.set_pc]
  rfl

theorem sets_addi (h : (offset.setWidth 12).signExtend 64 = offset.signExtend 64) :
    Sets rd rn offset [.core (.addi rd rn (offset.setWidth 12))] := by
  intro m
  rw [execAll_cons, execAll_nil, exec_addi_goto, h]
  rfl

theorem set_get : m.set rd (m.get rd) = m := by
  rw [Machine.set, Machine.get, State.set, State.get]
  split
  · rfl
  · rw [Function.update_eq_self]

theorem meets_iff_exactI : Meets (Sets rd rn offset) (emitAddSubI rd rn offset) ↔ ExactI rd offset := by
  rw [emitAddSubI]
  split
  next hzero =>
    subst hzero
    refine iff_of_true (meets_ok.mpr ?_) (Or.inr (by decide))
    split
    · exact sets_addi rfl
    next hrd =>
      intro m
      rw [not_not.mp hrd, show m.get rn + (0 : BitVec 32).signExtend 64 = m.get rn from add_zero _, set_get]
      exact congrArg (fun core => { m with core := core }) (State.goto_self (add_zero _).symm).symm
  next hzero =>
    split
    next hrange => exact iff_of_true meets_fail (Or.inr (by omega))
    next hrange =>
      rw [not_or, not_lt, not_lt] at hrange
      have hint := toInt_imm hrange.1 hrange.2
      rw [meets_ok]
      by_cases hlow : offset.toInt < -0x800
      · rw [if_pos hlow] at hint
        by_cases hrd : rd = zero
        · refine iff_of_true (fun m => ?_) (Or.inl hrd)
          rw [execAll_cons, execAll_nil, exec_addi_goto, hrd, Machine.set, State.set_zero, Machine.set, State.set_zero]
          rfl
        · refine iff_of_false (fun hsets => ?_) (not_or.mpr ⟨hrd, not_not.mpr ⟨hrange.2, hlow⟩⟩)
          have hm := congrArg (fun m => m.get rd) (hsets ⟨⟨0, fun _ => 0, fun _ => 0⟩, fun _ => 0⟩)
          rw [execAll_cons, execAll_nil, exec_addi_goto] at hm
          have hval := (Machine.get_set_self hrd).symm.trans (hm.trans (Machine.get_set_self hrd))
          have heq := congrArg BitVec.toInt (add_left_cancel hval)
          rw [hint, BitVec.toInt_signExtend_of_le (by decide)] at heq
          omega
      · rw [if_neg hlow] at hint
        refine iff_of_true (sets_addi (BitVec.eq_of_toInt_eq ?_)) (Or.inr fun h => hlow h.2)
        rw [hint, BitVec.toInt_signExtend_of_le (by decide)]

end Immediates

end Mambo.RvAddSub
