import Mambo.RvAddSub
import Mambo.RvIsa
import Mambo.RvPluginStack
import Mambo.SignBits

namespace Mambo.RvLoadStore

open BitPlacement EmitResults RvAddSub RvIsa RvPlugin SignBits
open Rv (Reg Word sp extr)

section Instructions

/-- The loads and stores of the compressed set with a base register, in the order of the decoder. -/
inductive CLoad
  | fld | lw | ld
  deriving DecidableEq

inductive CStore
  | fsd | sw | sd
  deriving DecidableEq

inductive CLoadSp
  | fld | lw | flw | ld
  deriving DecidableEq

inductive CStoreSp
  | fsd | sw | sd
  deriving DecidableEq

inductive Load
  | lb | lh | lw | ld | lbu | lhu | lwu | flw | fld
  deriving DecidableEq

inductive Store
  | sb | sh | sw | sd | fsw | fsd
  deriving DecidableEq

inductive Size
  | w | d
  deriving DecidableEq

inductive Amo
  | sc | amoswap | amoadd | amoxor | amoand | amoor | amomin | amomax | amominu | amomaxu
  deriving DecidableEq

inductive Width
  | b | h | w | d
  deriving DecidableEq

inductive Vector
  | load | store | amo
  deriving DecidableEq

inductive Inst
  | cLoad (i : CLoad)
  | cStore (i : CStore)
  | cLoadSp (i : CLoadSp)
  | cStoreSp (i : CStoreSp)
  | load (i : Load)
  | store (i : Store)
  | lr (size : Size)
  | amo (i : Amo) (size : Size)
  | vector (i : Vector) (width : Width)
  | other
  deriving DecidableEq

end Instructions

section Offsets

def riscvCWordOffset (uimmhi uimmlo : BitVec 32) : BitVec 32 :=
  uimmhi <<< 3 ||| (uimmlo &&& 0x1) <<< 6 ||| (uimmlo &&& 0x2) <<< 1

def riscvCDoublewordOffset (uimmhi uimmlo : BitVec 32) : BitVec 32 := uimmhi <<< 3 ||| uimmlo <<< 6

def riscvCSpwordLoadOffset (uimmhi uimmlo : BitVec 32) : BitVec 32 :=
  uimmhi <<< 5 ||| (uimmlo &&& 0x3) <<< 6 ||| (uimmlo &&& 0x1C)

def riscvCSpdoublewordLoadOffset (uimmhi uimmlo : BitVec 32) : BitVec 32 :=
  uimmhi <<< 5 ||| (uimmlo &&& 0x7) <<< 6 ||| (uimmlo &&& 0x18)

def riscvCSpwordStoreOffset (uimm : BitVec 32) : BitVec 32 := (uimm &&& 0x3) <<< 6 ||| (uimm &&& 0x1C)

def riscvCSpdoublewordStoreOffset (uimm : BitVec 32) : BitVec 32 := (uimm &&& 0x7) <<< 6 ||| (uimm &&& 0x18)

def riscvStoreOffset (immhi immlo : BitVec 32) : BitVec 32 :=
  (signExtendBits 12 ((immhi <<< 5 ||| immlo).setWidth 64)).setWidth 32

def riscvLoadOffset (imm : BitVec 32) : BitVec 32 := (signExtendBits 12 (imm.setWidth 64)).setWidth 32

end Offsets

section Emitter

def s0 : BitVec 32 := 8

def decoded (inst : Inst) (w : Encoding) : Option (Reg × BitVec 32) :=
  match inst with
  | .cLoad i =>
    some ((extr 3 7 w + s0).setWidth 5,
      match i with
      | .lw => riscvCWordOffset (extr 3 10 w) (extr 2 5 w)
      | .fld | .ld => riscvCDoublewordOffset (extr 3 10 w) (extr 2 5 w))
  | .cStore i =>
    some ((extr 3 7 w + s0).setWidth 5,
      match i with
      | .sw => riscvCWordOffset (extr 3 10 w) (extr 2 5 w)
      | .fsd | .sd => riscvCDoublewordOffset (extr 3 10 w) (extr 2 5 w))
  | .cLoadSp i =>
    some (sp,
      match i with
      | .lw | .flw => riscvCSpwordLoadOffset (extr 1 12 w) (extr 5 2 w)
      | .fld | .ld => riscvCSpdoublewordLoadOffset (extr 1 12 w) (extr 5 2 w))
  | .cStoreSp i =>
    some (sp,
      match i with
      | .sw => riscvCSpwordStoreOffset (extr 6 7 w)
      | .fsd | .sd => riscvCSpdoublewordStoreOffset (extr 6 7 w))
  | .load _ => some ((extr 5 15 w).setWidth 5, riscvLoadOffset (extr 12 20 w))
  | .store _ => some ((extr 5 15 w).setWidth 5, riscvStoreOffset (extr 7 25 w) (extr 5 7 w))
  | .lr _ | .amo _ _ | .vector _ _ => some ((extr 5 15 w).setWidth 5, 0)
  | .other => none

/-- `_generate_addr` without an index register; what the emitter of the addition returns is ignored. -/
def generateAddr (pluginPushedRegCount : BitVec 32) (reg rn : Reg) (offset : BitVec 32) : List RvPlugin.Inst :=
  let applyOffset := if rn = sp then pluginPushedRegCount * 8 else 0
  (emitAddSubI reg rn (offset + applyOffset)).code

def riscvCalcLdStAddr (pluginPushedRegCount : BitVec 32) (inst : Inst) (w : Encoding) (reg : Reg) :
    Result RvPlugin.Inst :=
  match decoded inst w with
  | some (rn, offset) => .ok (generateAddr pluginPushedRegCount reg rn offset)
  | none => .fail

end Emitter

section Accesses

def offset (inst : Inst) (w : Encoding) : Int :=
  match inst with
  | .cLoad .lw | .cStore .sw => clwOffset w
  | .cLoad _ | .cStore _ => cldOffset w
  | .cLoadSp .lw | .cLoadSp .flw => clwspOffset w
  | .cLoadSp _ => cldspOffset w
  | .cStoreSp .sw => cswspOffset w
  | .cStoreSp _ => csdspOffset w
  | .load _ => iImm w
  | .store _ => sImm w
  | _ => 0

def base (inst : Inst) (w : Encoding) : Reg :=
  match inst with
  | .cLoad _ | .cStore _ => cHigh w
  | .cLoadSp _ | .cStoreSp _ => sp
  | _ => rs1 w

def address (inst : Inst) (w : Encoding) (m : Machine) : Word := m.get (base inst w) + BitVec.ofInt 64 (offset inst w)

/-- The stores relative to sp lose bit 5 of their offset, bit 12 of the encoding. -/
def lost (inst : Inst) (w : Encoding) : Nat :=
  match inst with
  | .cStoreSp _ => if w.getLsbD 12 then 32 else 0
  | _ => 0

end Accesses

section Decoding

variable {w : Encoding} {inst : Inst}

theorem toInt_setWidth {n : Nat} (x : BitVec n) (hn : n < 32) : (x.setWidth 32).toInt = x.toNat := by
  have hlt := x.isLt
  have hpow : 2 ^ n ≤ 2 ^ 31 := Nat.pow_le_pow_right (by omega) (by omega)
  rw [BitVec.toInt_eq_toNat_cond, BitVec.toNat_setWidth, Nat.mod_eq_of_lt (by omega), if_pos (by omega)]

theorem cHigh_eq (w : Encoding) : (extr 3 7 w + s0).setWidth 5 = cHigh w := by
  rw [extr, cHigh]
  generalize w.extractLsb' 7 3 = field
  revert field
  decide

theorem rs1_eq (w : Encoding) : (extr 5 15 w).setWidth 5 = rs1 w := by
  rw [extr, BitVec.setWidth_setWidth_of_le _ (by decide), BitVec.setWidth_eq, rs1]

theorem riscvCWordOffset_toInt (w : Encoding) : (riscvCWordOffset (extr 3 10 w) (extr 2 5 w)).toInt = clwOffset w := by
  rw [clwOffset, ← toInt_setWidth _ (by decide), riscvCWordOffset]
  congr 1
  revert w
  exact Bitwise.ext (by fun_prop) (by fun_prop) (by decide)

theorem riscvCDoublewordOffset_toInt (w : Encoding) :
    (riscvCDoublewordOffset (extr 3 10 w) (extr 2 5 w)).toInt = cldOffset w := by
  rw [cldOffset, ← toInt_setWidth _ (by decide), riscvCDoublewordOffset]
  congr 1
  revert w
  exact Bitwise.ext (by fun_prop) (by fun_prop) (by decide)

theorem riscvCSpwordLoadOffset_toInt (w : Encoding) :
    (riscvCSpwordLoadOffset (extr 1 12 w) (extr 5 2 w)).toInt = clwspOffset w := by
  rw [clwspOffset, ← toInt_setWidth _ (by decide), riscvCSpwordLoadOffset]
  congr 1
  revert w
  exact Bitwise.ext (by fun_prop) (by fun_prop) (by decide)

theorem riscvCSpdoublewordLoadOffset_toInt (w : Encoding) :
    (riscvCSpdoublewordLoadOffset (extr 1 12 w) (extr 5 2 w)).toInt = cldspOffset w := by
  rw [cldspOffset, ← toInt_setWidth _ (by decide), riscvCSpdoublewordLoadOffset]
  congr 1
  revert w
  exact Bitwise.ext (by fun_prop) (by fun_prop) (by decide)

/-- The field of six bits of a store relative to sp: the mask leaves its highest bit out. -/
theorem spStore_lost : ∀ uimm : BitVec 6,
    (riscvCSpwordStoreOffset (uimm.setWidth 32)).toInt + (if uimm.getLsbD 5 then 32 else 0) =
        (uimm.extractLsb' 0 2 ++ uimm.extractLsb' 2 4 ++ 0#2).toNat ∧
      (riscvCSpdoublewordStoreOffset (uimm.setWidth 32)).toInt + (if uimm.getLsbD 5 then 32 else 0) =
        (uimm.extractLsb' 0 3 ++ uimm.extractLsb' 3 3 ++ 0#3).toNat := by
  decide

theorem extractLsb'_field (w : Encoding) {k n len : Nat} (h : k + n ≤ len) (lo : Nat) :
    (w.extractLsb' lo len).extractLsb' k n = w.extractLsb' (lo + k) n := by
  apply BitVec.eq_of_getLsbD_eq
  intro i hi
  simp only [BitVec.getLsbD_extractLsb', hi, show k + i < len by omega, decide_true, Bool.true_and, Nat.add_assoc]

theorem riscvCSpwordStoreOffset_toInt (w : Encoding) :
    (riscvCSpwordStoreOffset (extr 6 7 w)).toInt + (if w.getLsbD 12 then 32 else 0) = cswspOffset w := by
  have h := (spStore_lost (w.extractLsb' 7 6)).1
  rw [extractLsb'_field w (by decide), extractLsb'_field w (by decide), BitVec.getLsbD_extractLsb'] at h
  exact h

theorem riscvCSpdoublewordStoreOffset_toInt (w : Encoding) :
    (riscvCSpdoublewordStoreOffset (extr 6 7 w)).toInt + (if w.getLsbD 12 then 32 else 0) = csdspOffset w := by
  have h := (spStore_lost (w.extractLsb' 7 6)).2
  rw [extractLsb'_field w (by decide), extractLsb'_field w (by decide), BitVec.getLsbD_extractLsb'] at h
  exact h

theorem signExtend_field (field : BitVec 12) :
    (signExtendBits 12 ((field.setWidth 32).setWidth 64)).setWidth 32 = field.signExtend 32 := by
  rw [BitVec.setWidth_setWidth (by decide), signExtendBits_setWidth _ (by decide) (by decide)]
  apply BitVec.eq_of_getLsbD_eq
  intro i hi
  rw [BitVec.getLsbD_setWidth, BitVec.getLsbD_signExtend, BitVec.getLsbD_signExtend]
  simp [hi, show i < 64 by omega]

theorem riscvLoadOffset_toInt (w : Encoding) : (riscvLoadOffset (extr 12 20 w)).toInt = iImm w := by
  rw [riscvLoadOffset, extr, signExtend_field, iImm, BitVec.toInt_signExtend_of_le (by decide)]

theorem riscvStoreOffset_toInt (w : Encoding) : (riscvStoreOffset (extr 7 25 w) (extr 5 7 w)).toInt = sImm w := by
  have hfield : extr 7 25 w <<< 5 ||| extr 5 7 w = (w.extractLsb' 25 7 ++ w.extractLsb' 7 5).setWidth 32 := by
    revert w
    exact Bitwise.ext (by fun_prop) (by fun_prop) (by decide)
  rw [riscvStoreOffset, hfield, signExtend_field, sImm, BitVec.toInt_signExtend_of_le (by decide)]

/-- What is decoded is what the architecture accesses, but for the lost bit. -/
theorem decoded_eq (h : inst ≠ .other) :
    ∃ d, decoded inst w = some (base inst w, d) ∧ d.toInt + lost inst w = offset inst w := by
  cases inst with
  | cLoad i =>
    refine ⟨_, congrArg some (Prod.ext (cHigh_eq w) rfl), (add_zero _).trans ?_⟩
    cases i
    case lw => exact riscvCWordOffset_toInt w
    all_goals exact riscvCDoublewordOffset_toInt w
  | cStore i =>
    refine ⟨_, congrArg some (Prod.ext (cHigh_eq w) rfl), (add_zero _).trans ?_⟩
    cases i
    case sw => exact riscvCWordOffset_toInt w
    all_goals exact riscvCDoublewordOffset_toInt w
  | cLoadSp i =>
    refine ⟨_, rfl, (add_zero _).trans ?_⟩
    cases i
    case lw | flw => exact riscvCSpwordLoadOffset_toInt w
    all_goals exact riscvCSpdoublewordLoadOffset_toInt w
  | cStoreSp i =>
    refine ⟨_, rfl, ?_⟩
    rw [lost, Nat.cast_ite]
    cases i
    case sw => exact riscvCSpwordStoreOffset_toInt w
    all_goals exact riscvCSpdoublewordStoreOffset_toInt w
  | load i => exact ⟨_, congrArg some (Prod.ext (rs1_eq w) rfl), (add_zero _).trans (riscvLoadOffset_toInt w)⟩
  | store i => exact ⟨_, congrArg some (Prod.ext (rs1_eq w) rfl), (add_zero _).trans (riscvStoreOffset_toInt w)⟩
  | lr size | amo i size | vector i width => exact ⟨0, congrArg some (Prod.ext (rs1_eq w) rfl), rfl⟩
  | other => exact absurd rfl h

end Decoding

end Mambo.RvLoadStore
