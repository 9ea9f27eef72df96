import Mambo.XtraceOperands

namespace Mambo.XtraceOperandValues

open BitPlacement RvIsa RvLoadStore SignBits XtraceOperands
open Rv (extr)

section Fields

variable {w : Encoding}

theorem extr_lt {n k : Nat} (hn : n < 32) (w : Encoding) : (extr n k w).toNat < 2 ^ n := by
  have hlt := (w.extractLsb' k n).isLt
  have hpow : 2 ^ n ≤ 2 ^ 32 := Nat.pow_le_pow_right (by decide) hn.le
  rw [extr, BitVec.toNat_setWidth, Nat.mod_eq_of_lt (by omega)]
  exact hlt

theorem setWidth_extr {n k : Nat} (hn : n ≤ 32) (w : Encoding) : (extr n k w).setWidth n = w.extractLsb' k n := by
  rw [extr, BitVec.setWidth_setWidth_of_le _ hn, BitVec.setWidth_eq]

@[simp] theorem xReg_eq (w : Encoding) (k : Nat) : xReg w k = .x (w.extractLsb' k 5) := by
  rw [xReg, xtraceRiscvReg, if_pos (show _ < 32 from extr_lt (by decide) w), setWidth_extr (by decide)]

@[simp] theorem fReg_eq (w : Encoding) (k : Nat) : fReg w k = .f (w.extractLsb' k 5) := by
  rw [fReg, xtraceRiscvFreg, if_pos (show _ < 32 from extr_lt (by decide) w), setWidth_extr (by decide)]

theorem cReg_fits : ∀ field : BitVec 3,
    (field.setWidth 32 + s0).toNat < 32 ∧ (field.setWidth 32 + s0).setWidth 5 = cReg field := by
  decide

@[simp] theorem cXReg_eq (w : Encoding) (k : Nat) : cXReg w k = .x (cReg (w.extractLsb' k 3)) := by
  obtain ⟨hlt, heq⟩ := cReg_fits (w.extractLsb' k 3)
  rw [cXReg, xtraceRiscvReg, extr, if_pos hlt, heq]

@[simp] theorem cFReg_eq (w : Encoding) (k : Nat) : cFReg w k = .f (cReg (w.extractLsb' k 3)) := by
  obtain ⟨hlt, heq⟩ := cReg_fits (w.extractLsb' k 3)
  rw [cFReg, xtraceRiscvFreg, extr, if_pos hlt, heq]

@[simp] theorem rmField_eq (w : Encoding) : rmField w = .rm (RvIsa.rm w) := by
  rw [rmField, xtraceRiscvRm, setWidth_extr (by decide), RvIsa.rm]

theorem extr_one (w : Encoding) (k : Nat) : (extr 1 k w != 0) = w.getLsbD k := by
  rw [extr]
  have hbit : w.getLsbD k = (w.extractLsb' k 1).getLsbD 0 := by
    rw [BitVec.getLsbD_extractLsb']
    simp
  rw [hbit]
  generalize w.extractLsb' k 1 = b
  revert b
  decide

@[simp] theorem ordering_eq (w : Encoding) : XtraceOperands.ordering w = .ordering (w.getLsbD 26) (w.getLsbD 25) := by
  rw [XtraceOperands.ordering, extr_one, extr_one]

@[simp] theorem unsigned_extr {n k : Nat} (hn : n < 32) (w : Encoding) :
    unsigned (extr n k w) = .imm (w.extractLsb' k n).toNat := by
  have hlt := (w.extractLsb' k n).isLt
  have hpow : 2 ^ n ≤ 2 ^ 32 := Nat.pow_le_pow_right (by decide) hn.le
  rw [unsigned, extr, BitVec.toNat_setWidth, Nat.mod_eq_of_lt (by omega)]

theorem unsigned_of_small {d : BitVec 32} (h : d.toNat < 2 ^ 31) : unsigned d = .imm d.toInt := by
  rw [unsigned, BitVec.toInt_eq_toNat_of_lt (by omega)]

theorem unsigned_of_toInt {d : BitVec 32} {n : Nat} (h : d.toInt = n) : unsigned d = .imm n := by
  have hlt := d.isLt
  rw [BitVec.toInt_eq_toNat_cond] at h
  rw [unsigned]
  split at h
  · rw [h]
  · omega

end Fields

section Immediates

variable {w : Encoding} {n : Nat}

/-- An immediate whose bits the formatter puts together below the sign that it extends. -/
theorem signExtend_bits {v : BitVec 32} {bits : BitVec n} (h : v = bits.setWidth 32) (hn : 0 < n) (hle : n ≤ 32) :
    (signExtendBits n v).toInt = bits.toInt := by
  rw [h, signExtendBits_setWidth _ hn hle, BitVec.toInt_signExtend_of_le hle]

theorem iImm_eq (w : Encoding) : (signExtendBits 12 (extr 12 20 w)).toInt = iImm w :=
  signExtend_bits rfl (by decide) (by decide)

theorem storeOffset_eq (w : Encoding) : (xtraceRiscvStoreOffset (extr 7 25 w) (extr 5 7 w)).toInt = sImm w := by
  refine signExtend_bits ?_ (by decide) (by decide)
  revert w
  exact Bitwise.ext (by fun_prop) (by fun_prop) (by decide)

theorem branchOffset_eq (w : Encoding) : (xtraceRiscvBranchOffset (extr 7 25 w) (extr 5 7 w)).toInt = bImm w := by
  refine signExtend_bits ?_ (by decide) (by decide)
  revert w
  exact Bitwise.ext (by fun_prop) (by fun_prop) (by decide)

theorem cBranchOffset_eq (w : Encoding) : (xtraceRiscvCBranchOffset (extr 3 10 w) (extr 5 2 w)).toInt = cbImm w := by
  refine signExtend_bits ?_ (by decide) (by decide)
  revert w
  exact Bitwise.ext (by fun_prop) (by fun_prop) (by decide)

theorem jalOffset_eq (w : Encoding) : (xtraceRiscvJalOffset (extr 20 12 w)).toInt = jImm w := by
  refine signExtend_bits ?_ (by decide) (by decide)
  revert w
  exact Bitwise.ext (by fun_prop) (by fun_prop) (by decide)

theorem cJOffset_eq (w : Encoding) : (xtraceRiscvCJOffset (extr 11 2 w)).toInt = cjImm w := by
  refine signExtend_bits ?_ (by decide) (by decide)
  revert w
  exact Bitwise.ext (by fun_prop) (by fun_prop) (by decide)

theorem cImm_eq (w : Encoding) : (xtraceRiscvCImm (extr 1 12 w) (extr 5 2 w)).toInt = ciImm w := by
  refine signExtend_bits ?_ (by decide) (by decide)
  revert w
  exact Bitwise.ext (by fun_prop) (by fun_prop) (by decide)

theorem cAddi16spImm_eq (w : Encoding) :
    (xtraceRiscvCAddi16spImm (extr 1 12 w) (extr 5 2 w)).toInt = cAddi16spImm w := by
  refine signExtend_bits ?_ (by decide) (by decide)
  revert w
  exact Bitwise.ext (by fun_prop) (by fun_prop) (by decide)

theorem cLuiImm_eq (w : Encoding) :
    (signExtendBits 18 ((extr 1 12 w <<< 5 ||| extr 5 2 w) <<< 12)).toInt = cLuiImm w := by
  refine signExtend_bits ?_ (by decide) (by decide)
  revert w
  exact Bitwise.ext (by fun_prop) (by fun_prop) (by decide)

theorem cAddi4spnImm_eq (w : Encoding) : unsigned (xtraceRiscvCAddi4spnImm (extr 8 5 w)) = .imm (cAddi4spnImm w) := by
  refine unsigned_of_toInt ?_
  rw [cAddi4spnImm, ← toInt_setWidth _ (by decide)]
  congr 1
  unfold xtraceRiscvCAddi4spnImm
  revert w
  exact Bitwise.ext (by fun_prop) (by fun_prop) (by decide)

theorem cShamt_eq (w : Encoding) : unsigned (extr 1 12 w <<< 5 ||| extr 5 2 w) = .imm (cShamt w) := by
  refine unsigned_of_toInt ?_
  rw [cShamt, ← toInt_setWidth _ (by decide)]
  congr 1
  revert w
  exact Bitwise.ext (by fun_prop) (by fun_prop) (by decide)

end Immediates

section Sets

theorem fenceSet_eq : ∀ bits : BitVec 4, xtraceAppendRiscvFenceSet (bits.setWidth 32) = accesses bits := by
  decide

theorem field_eq_iff (field v : BitVec 4) : field.setWidth 32 = v.setWidth 32 ↔ field = v := by
  constructor
  · intro h
    have hcut := congrArg (BitVec.setWidth 4) h
    rwa [BitVec.setWidth_setWidth_of_le _ (by decide), BitVec.setWidth_setWidth_of_le _ (by decide), BitVec.setWidth_eq,
      BitVec.setWidth_eq] at hcut
  · intro h
    rw [h]

theorem fence_eq (w : Encoding) (pc : BitVec 64) : xtraceAppendRiscvOperands w pc .fence = fenceOperands w := by
  let fm := w.extractLsb' 28 4
  let pred := w.extractLsb' 24 4
  let succ := w.extractLsb' 20 4
  have hfm : unsigned (fm.setWidth 32) = .imm fm.toNat := unsigned_extr (by decide) w
  show (if fm.setWidth 32 = (8 : BitVec 4).setWidth 32 ∧ pred.setWidth 32 = (3 : BitVec 4).setWidth 32 ∧
      succ.setWidth 32 = (3 : BitVec 4).setWidth 32 then [Operand.tso]
    else xtraceAppendRiscvFenceSet (pred.setWidth 32) :: xtraceAppendRiscvFenceSet (succ.setWidth 32) ::
      if fm.setWidth 32 ≠ (0 : BitVec 4).setWidth 32 then [unsigned (fm.setWidth 32)] else []) = fenceOperands w
  simp only [field_eq_iff, ne_eq, fenceSet_eq, hfm, ite_not]
  rfl

end Sets

section Lines

/-- The load or store that `_riscv_calc_ld_st_addr` sees, which is an unknown one where it has no case for it. -/
def accessOf : XtraceOperands.Inst → Option RvLoadStore.Inst
  | .cLoad i => some (.cLoad i)
  | .cStore i => some (.cStore i)
  | .cLoadSp i => some (.cLoadSp i)
  | .cStoreSp i => some (.cStoreSp i)
  | .load i => some (.load i)
  | .store i => some (.store i)
  | .flh | .fsh => some .other
  | .lr size => some (.lr size)
  | .amo i size => some (.amo i size)
  | .vector i width => some (.vector i width)
  | _ => none

/-- The offset on a line; where it has none, zero. -/
def printedOffset (line : List Operand) : Int :=
  (line.findSome? fun
    | .imm value => some value
    | _ => none).getD 0

/-- The operands on a line are those of the encoding, and the offset is that of the address of the access. -/
structure Right (w : Encoding) (pc : BitVec 64) (inst : XtraceOperands.Inst) : Prop where
  operands : xtraceAppendRiscvOperands w pc inst = operands w pc inst
  offset : ∀ i, accessOf inst = some i →
    (decoded i w).map (fun p => p.2.toInt) = some (printedOffset (xtraceAppendRiscvOperands w pc inst))

/-- All but c.srai, the stores relative to sp with the lost bit of their offset, the loads and stores of half
precision, prefetches with an offset, and vector operations with a negative immediate. -/
def Exact (w : Encoding) : XtraceOperands.Inst → Prop
  | .cShift .srai | .flh | .fsh => False
  | .cStoreSp _ => w.getLsbD 12 = false
  | .prefetchI | .prefetchR | .prefetchW => w.extractLsb' 25 7 = 0
  | .vOp => ¬(w.extractLsb' 12 3 = 3 ∧ vSigned w ∧ w.getLsbD 19)
  | _ => True

variable {w : Encoding} {pc : BitVec 64}

theorem vOperand_eq (w : Encoding) :
    unsigned (extr 5 15 w) = .imm (vOperand w) ↔ ¬(w.extractLsb' 12 3 = 3 ∧ vSigned w ∧ w.getLsbD 19) := by
  have hmsb : (w.extractLsb' 15 5).msb = w.getLsbD 19 := by
    rw [BitVec.msb_eq_getLsbD_last, BitVec.getLsbD_extractLsb']
    rfl
  rw [unsigned_extr (by decide), Operand.imm.injEq, vOperand]
  split
  next h =>
    simp only [← hmsb, h.1, h.2, true_and]
    generalize w.extractLsb' 15 5 = field
    revert field
    decide
  next h => exact iff_of_true rfl fun h' => h ⟨h'.1, h'.2.1⟩

theorem prefetch_eq (w : Encoding) : unsigned (extr 7 25 w) = .imm (prefetchOffset w) ↔ w.extractLsb' 25 7 = 0 := by
  rw [unsigned_extr (by decide), Operand.imm.injEq, prefetchOffset]
  generalize w.extractLsb' 25 7 = field
  revert field
  decide

theorem unsigned_lost {d : BitVec 32} {n : Nat} {lost : Bool} (hd : d.toNat < 2 ^ 31)
    (h : d.toInt + (if lost then 32 else 0) = n) : unsigned d = .imm n ↔ lost = false := by
  rw [BitVec.toInt_eq_toNat_of_lt (by omega)] at h
  rw [unsigned, Operand.imm.injEq]
  cases lost with
  | true => simp only [if_true] at h; simp; omega
  | false => simp at h; simp; omega

theorem spStore_fits : ∀ uimm : BitVec 6,
    (riscvCSpwordStoreOffset (uimm.setWidth 32)).toNat < 2 ^ 31 ∧
      (riscvCSpdoublewordStoreOffset (uimm.setWidth 32)).toNat < 2 ^ 31 := by
  decide

theorem spwordStore_eq (w : Encoding) :
    unsigned (xtraceRiscvCSpwordStoreOffset (extr 6 7 w)) = .imm (cswspOffset w) ↔ w.getLsbD 12 = false :=
  unsigned_lost (spStore_fits _).1 (riscvCSpwordStoreOffset_toInt w)

theorem spdoublewordStore_eq (w : Encoding) :
    unsigned (xtraceRiscvCSpdoublewordStoreOffset (extr 6 7 w)) = .imm (csdspOffset w) ↔ w.getLsbD 12 = false :=
  unsigned_lost (spStore_fits _).2 (riscvCSpdoublewordStoreOffset_toInt w)

/-- The field of five bits that the formatter reads for c.srli and c.srai, whose two high bits are fixed. -/
theorem shiftReg_field (w : Encoding) : extr 5 7 w = (w.extractLsb' 10 2 ++ w.extractLsb' 7 3).setWidth 32 := by
  revert w
  exact Bitwise.ext (by fun_prop) (by fun_prop) (by decide)

theorem srliReg (h : w.extractLsb' 10 2 = 0) : xtraceRiscvReg (extr 5 7 w + s0) = .x (cHigh w) := by
  rw [shiftReg_field, h, cHigh]
  generalize w.extractLsb' 7 3 = field
  revert field
  decide

theorem sraiReg (h : w.extractLsb' 10 2 = 1) : xtraceRiscvReg (extr 5 7 w + s0) ≠ .x (cHigh w) := by
  rw [shiftReg_field, h, cHigh]
  generalize w.extractLsb' 7 3 = field
  revert field
  decide

/-- The shift amount of six bits, the highest of which is fixed in the instructions on words. -/
theorem shamt_word (h : w.extractLsb' 25 1 = 0) : unsigned (extr 6 20 w) = .imm (w.extractLsb' 20 5).toNat := by
  have hfield : ∀ v : Encoding, v.extractLsb' 20 6 = v.extractLsb' 25 1 ++ v.extractLsb' 20 5 :=
    Bitwise.ext (by fun_prop) (by fun_prop) (by decide)
  rw [unsigned_extr (by decide), hfield, h]
  generalize w.extractLsb' 20 5 = field
  revert field
  decide

theorem operands_eq_iff (inst : XtraceOperands.Inst) (h : Encodes w inst) :
    xtraceAppendRiscvOperands w pc inst = operands w pc inst ↔ Exact w inst ∨ inst = .flh ∨ inst = .fsh := by
  cases inst with
  | cAddi4spn => simp [xtraceAppendRiscvOperands, operands, Exact, cAddi4spnImm_eq, cLow]
  | cLoad i | cStore i =>
    have hword := unsigned_of_toInt (riscvCWordOffset_toInt w)
    have hdoubleword := unsigned_of_toInt (riscvCDoublewordOffset_toInt w)
    cases i <;> simp [xtraceAppendRiscvOperands, operands, Exact, cLow, cHigh, xtraceRiscvCWordOffset,
      xtraceRiscvCDoublewordOffset, hword, hdoubleword]
  | cLoadSp i =>
    have hword := unsigned_of_toInt (riscvCSpwordLoadOffset_toInt w)
    have hdoubleword := unsigned_of_toInt (riscvCSpdoublewordLoadOffset_toInt w)
    cases i <;> simp [xtraceAppendRiscvOperands, operands, Exact, rd, xtraceRiscvCSpwordLoadOffset,
      xtraceRiscvCSpdoublewordLoadOffset, hword, hdoubleword]
  | cStoreSp i =>
    have hword := spwordStore_eq w
    have hdoubleword := spdoublewordStore_eq w
    cases i <;> simp [xtraceAppendRiscvOperands, operands, Exact, cRs2, hword, hdoubleword]
  | cShift i =>
    cases i with
    | srli => simp [xtraceAppendRiscvOperands, operands, Exact, srliReg h, cShamt_eq]
    | srai => simp [xtraceAppendRiscvOperands, operands, Exact, sraiReg h]
  | load i => cases i <;> simp [xtraceAppendRiscvOperands, operands, Exact, rd, rs1, int, iImm_eq]
  | store i => cases i <;> simp [xtraceAppendRiscvOperands, operands, Exact, rs1, rs2, int, storeOffset_eq]
  | shiftImm i =>
    cases i
    case slliw | srliw | sraiw => simp [xtraceAppendRiscvOperands, operands, Exact, rd, rs1, shamt, shamt_word h]
    all_goals simp [xtraceAppendRiscvOperands, operands, Exact, rd, rs1, shamt]
  | bitImm i =>
    cases i
    case roriw => simp [xtraceAppendRiscvOperands, operands, Exact, rd, rs1, shamt, shamt_word h]
    all_goals simp [xtraceAppendRiscvOperands, operands, Exact, rd, rs1, shamt]
  | prefetchI | prefetchR | prefetchW =>
    simp only [xtraceAppendRiscvOperands, operands, Exact, rs1, xReg_eq, List.cons.injEq, and_true, prefetch_eq,
      reduceCtorEq, or_false]
  | vOp =>
    rw [xtraceAppendRiscvOperands, operands, setWidth_extr (by decide)]
    simp only [Exact, rd, List.cons.injEq, and_true, true_and, vOperand_eq, reduceCtorEq, or_false]
  | fence => simp [fence_eq, operands, Exact]
  | _ =>
    simp [xtraceAppendRiscvOperands, operands, Exact, rd, rs1, rs2, rs3, cHigh, cLow, cRs2, int, relative,
      cImm_eq, cAddi16spImm_eq, cLuiImm_eq, cShamt_eq, iImm_eq, storeOffset_eq, BitVec.signExtend, cJOffset_eq,
      cBranchOffset_eq, branchOffset_eq, jalOffset_eq, setWidth_extr]

theorem offset_agrees (inst : XtraceOperands.Inst) {i : RvLoadStore.Inst} (h : accessOf inst = some i) :
    (decoded i w).map (fun p => p.2.toInt) = some (printedOffset (xtraceAppendRiscvOperands w pc inst)) ↔
      inst ≠ .flh ∧ inst ≠ .fsh := by
  cases inst with
  | cLoad i | cStore i =>
    obtain rfl := Option.some.inj h
    have hword := unsigned_of_toInt (riscvCWordOffset_toInt w)
    have hdoubleword := unsigned_of_toInt (riscvCDoublewordOffset_toInt w)
    cases i <;> simp [xtraceAppendRiscvOperands, printedOffset, decoded, xtraceRiscvCWordOffset,
      xtraceRiscvCDoublewordOffset, hword, hdoubleword, riscvCWordOffset_toInt, riscvCDoublewordOffset_toInt]
  | cLoadSp i =>
    obtain rfl := Option.some.inj h
    have hword := unsigned_of_toInt (riscvCSpwordLoadOffset_toInt w)
    have hdoubleword := unsigned_of_toInt (riscvCSpdoublewordLoadOffset_toInt w)
    cases i <;> simp [xtraceAppendRiscvOperands, printedOffset, decoded, xtraceRiscvCSpwordLoadOffset,
      xtraceRiscvCSpdoublewordLoadOffset, hword, hdoubleword, riscvCSpwordLoadOffset_toInt,
      riscvCSpdoublewordLoadOffset_toInt]
  | cStoreSp i =>
    obtain rfl := Option.some.inj h
    have hword : unsigned (riscvCSpwordStoreOffset (extr 6 7 w)) = _ := unsigned_of_small (spStore_fits _).1
    have hdoubleword : unsigned (riscvCSpdoublewordStoreOffset (extr 6 7 w)) = _ :=
      unsigned_of_small (spStore_fits _).2
    cases i <;> simp [xtraceAppendRiscvOperands, printedOffset, decoded, xtraceRiscvCSpwordStoreOffset,
      xtraceRiscvCSpdoublewordStoreOffset, hword, hdoubleword]
  | load i =>
    obtain rfl := Option.some.inj h
    cases i <;> simp [xtraceAppendRiscvOperands, printedOffset, decoded, int, iImm_eq, riscvLoadOffset_toInt]
  | store i =>
    obtain rfl := Option.some.inj h
    cases i <;> simp [xtraceAppendRiscvOperands, printedOffset, decoded, int, storeOffset_eq, riscvStoreOffset_toInt]
  | flh | fsh =>
    obtain rfl := Option.some.inj h
    simp [decoded]
  | lr size | amo i size | vector i width =>
    obtain rfl := Option.some.inj h
    simp [xtraceAppendRiscvOperands, printedOffset, decoded]
  | _ => exact absurd h (by simp [accessOf])

/-- On which lines the operands are those of the architecture, and the offset that of the emitted address. -/
theorem line_right_iff_exact (inst : XtraceOperands.Inst) (h : Encodes w inst) : Right w pc inst ↔ Exact w inst := by
  constructor
  · intro ⟨hoperands, hoffset⟩
    rcases (operands_eq_iff inst h).mp hoperands with hexact | rfl | rfl
    · exact hexact
    · exact absurd rfl ((offset_agrees .flh rfl).mp (hoffset _ rfl)).1
    · exact absurd rfl ((offset_agrees .fsh rfl).mp (hoffset _ rfl)).2
  · intro hexact
    refine ⟨(operands_eq_iff inst h).mpr (Or.inl hexact), fun i hi => (offset_agrees inst hi).mpr ⟨?_, ?_⟩⟩
    · rintro rfl
      exact hexact
    · rintro rfl
      exact hexact

/-- The first instruction that shifts a0 on the right by one is printed as one on s2, the second one stores a0 at
32(sp) and is printed with 0(sp). -/
theorem srai_wrong : ¬Right 0x8505 0 (.cShift .srai) ∧ ¬Right 0xF02A 0 (.cStoreSp .sd) := by
  constructor
  · intro h
    exact absurd h.operands (by decide)
  · intro h
    exact absurd h.operands (by decide)

/-- The stores of the full size are printed as they are. -/
theorem store_right : Right 0xFEA13C23 0 (.store .sd) := (line_right_iff_exact (.store .sd) trivial).mpr trivial

end Lines

end Mambo.XtraceOperandValues
