import Mambo.A64Plugin
import Mambo.EmitResults
import Mambo.Offsets

namespace Mambo.A64AddSub

open A64 (Word Reg State xzr)
open A64Plugin EmitResults Offsets

/-- `sp` of the plugin interface, register 31. -/
def sp : Reg := 31

section Emitters

def emitMov (rd rn : Reg) : List Inst :=
  if rn = sp then [.addSubImmed 0 0 0 rn rd] else [.core (.orr rn 0x1F rd)]

def emitAddSubParts (op : BitVec 1) (rd rn : Reg) (offset : BitVec 32) : List Inst :=
  let first := if offset &&& 0xFFF ≠ 0 then [Inst.addSubImmed op 0 ((offset &&& 0xFFF).setWidth 12) rn rd] else []
  let rn := if offset &&& 0xFFF ≠ 0 then rd else rn
  first ++ if offset &&& 0xFFF000 ≠ 0 then [Inst.addSubImmed op 1 ((offset >>> 12).setWidth 12) rn rd] else []

def emitAddSubI (rd rn : Reg) (offset : BitVec 32) : Result Inst :=
  if offset = 0 then .ok (if rd ≠ rn then emitMov rd rn else [])
  else if offset.toInt < -0xFFFFFF ∨ offset.toInt > 0xFFFFFF then .fail
  else if offset.toInt < 0 then .ok (emitAddSubParts 1 rd rn (-offset))
  else .ok (emitAddSubParts 0 rd rn offset)

end Emitters

section Sums

variable {rd rn : Reg} {offset : BitVec 32} {op : BitVec 1} {s : State}

/-- The code sets rd to rn plus the offset, with 31 the stack pointer, and changes nothing else. -/
def Sets (rd rn : Reg) (offset : BitVec 32) (code : List Inst) : Prop :=
  ∀ s, execAll code s = (s.setBase rd (s.getBase rn + offset.signExtend 64)).goto (s.pc + BitVec.ofNat 64 (4 * code.length))

theorem addSub_addSub (x a b : Word) : addSub op (addSub op x a) b = addSub op x (a + b) := by
  rw [addSub, addSub, addSub]
  split
  · exact (sub_sub x a b)
  · exact (add_assoc x a b)

theorem immediate_add (h : offset.toNat < 2 ^ 24) :
    immediate 0 ((offset &&& 0xFFF).setWidth 12) + immediate 1 ((offset >>> 12).setWidth 12) = offset.setWidth 64 := by
  have hmask : (offset &&& 0xFFF).toNat = offset.toNat % 2 ^ 12 := by
    rw [BitVec.toNat_and]
    exact Nat.and_two_pow_sub_one_eq_mod _ 12
  apply BitVec.eq_of_toNat_eq
  rw [immediate, if_neg (by decide), immediate, if_pos rfl, BitVec.toNat_add, BitVec.toNat_shiftLeft]
  simp only [BitVec.toNat_setWidth, hmask, BitVec.toNat_ushiftRight, Nat.shiftRight_eq_div_pow, Nat.shiftLeft_eq]
  omega

theorem setWidth_of_nonneg (h : 0 ≤ offset.toInt) : offset.setWidth 64 = offset.signExtend 64 :=
  (BitVec.signExtend_eq_setWidth_of_msb_false (msb_of_nonneg h)).symm

theorem setWidth_neg (h : offset.toInt < 0) : (-offset).setWidth 64 = -offset.signExtend 64 := by
  have hmsb : offset.msb = true := by
    rw [BitVec.msb_eq_toInt]
    simpa using h
  have hlt := offset.isLt
  have hge := BitVec.msb_eq_true_iff_two_mul_ge.mp hmsb
  apply BitVec.eq_of_toNat_eq
  rw [BitVec.toNat_setWidth, BitVec.toNat_neg, BitVec.toNat_neg, BitVec.toNat_signExtend, if_pos hmsb, BitVec.toNat_setWidth]
  omega

theorem high_eq_zero (h : offset &&& 0xFFF000 = 0) : (offset >>> 12).setWidth 12 = 0 := by
  apply BitVec.eq_of_getLsbD_eq
  intro i hi
  have hbit : (offset &&& 0xFFF000).getLsbD (12 + i) = false := by
    rw [h]
    exact BitVec.getLsbD_zero
  have hmask : ∀ i : Fin 12, (0xFFF000 : BitVec 32).getLsbD (12 + i) = true := by decide
  rw [BitVec.getLsbD_and, hmask ⟨i, hi⟩, Bool.and_true] at hbit
  rw [BitVec.getLsbD_setWidth, BitVec.getLsbD_ushiftRight, hbit]
  simp

theorem immediate_zero (shift : BitVec 2) : immediate shift 0 = 0 := by
  rw [immediate]
  split <;> rfl

theorem immediate_setWidth_zero (shift : BitVec 2) : immediate shift ((0 : BitVec 32).setWidth 12) = 0 :=
  immediate_zero shift

theorem emitAddSubParts_exec (hne : offset ≠ 0) (hlt : offset.toNat < 2 ^ 24) :
    execAll (emitAddSubParts op rd rn offset) s =
      (s.setBase rd (addSub op (s.getBase rn) (offset.setWidth 64))).goto
        (s.pc + BitVec.ofNat 64 (4 * (emitAddSubParts op rd rn offset).length)) := by
  have hsum := immediate_add hlt
  by_cases hlow : offset &&& 0xFFF = 0
  · have hhigh : offset &&& 0xFFF000 ≠ 0 := by
      intro hhigh
      rw [hlow, high_eq_zero hhigh, immediate_setWidth_zero, immediate_zero, add_zero] at hsum
      have hnat := congrArg BitVec.toNat hsum
      rw [BitVec.toNat_setWidth, Nat.mod_eq_of_lt (by omega)] at hnat
      exact hne (BitVec.eq_of_toNat_eq hnat.symm)
    rw [hlow, immediate_setWidth_zero, zero_add] at hsum
    rw [← hsum]
    simp only [emitAddSubParts, hlow, hhigh, ne_eq, not_true_eq_false, not_false_eq_true, if_true, if_false,
      List.nil_append, execAll_cons, execAll_nil, exec]
    rw [State.next, setBase_pc]
    rfl
  · by_cases hhigh : offset &&& 0xFFF000 = 0
    · rw [high_eq_zero hhigh, immediate_zero, add_zero] at hsum
      rw [← hsum]
      simp only [emitAddSubParts, hlow, hhigh, ne_eq, not_true_eq_false, not_false_eq_true, if_true, if_false,
        List.append_nil, execAll_cons, execAll_nil, exec]
      rw [State.next, setBase_pc]
      rfl
    · rw [← hsum, ← addSub_addSub]
      simp only [emitAddSubParts, hlow, hhigh, ne_eq, not_false_eq_true, if_true, List.cons_append, List.nil_append,
        execAll_cons, execAll_nil, exec]
      rw [getBase_next, getBase_setBase_self, setBase_next, setBase_setBase, State.next, State.next, setBase_pc,
        State.goto_pc, State.goto_goto, add_assoc]
      rfl

def Exact (rd rn : Reg) (offset : BitVec 32) : Prop := ¬(rd = sp ∧ rn ≠ sp ∧ offset = 0)

theorem emitMov_exec (hexact : ¬(rd = sp ∧ rn ≠ sp)) :
    execAll (emitMov rd rn) s = (s.setBase rd (s.getBase rn)).goto (s.pc + 4) := by
  rw [emitMov]
  by_cases hrn : rn = sp
  · rw [if_pos hrn, execAll_cons, execAll_nil, exec, addSub, if_neg (by decide), immediate_zero, add_zero, State.next,
      setBase_pc]
  · have hrd : rd ≠ xzr := fun hrd => hexact ⟨hrd, hrn⟩
    have hrn' : rn ≠ xzr := hrn
    have hor : (0 : Word) ||| s.x rn = s.x rn := BitVec.zero_or
    rw [if_neg hrn, execAll_cons, execAll_nil, exec, A64.exec, State.get, if_pos (show (0x1F : Reg) = xzr from rfl), State.get, if_neg hrn',
      State.setBase, if_neg hrd, State.getBase, if_neg hrn', hor, State.next, State.set_pc]

theorem sets_of_exact (h : Exact rd rn offset) : Meets (Sets rd rn offset) (emitAddSubI rd rn offset) := by
  rw [emitAddSubI]
  split
  next hzero =>
    rw [meets_ok, hzero]
    intro s
    have hsum : s.getBase rn + (0 : BitVec 32).signExtend 64 = s.getBase rn := add_zero _
    rw [hsum]
    by_cases hrd : rd = rn
    · rw [if_neg (not_not.mpr hrd), hrd, setBase_getBase]
      exact (State.goto_self (add_zero _).symm).symm
    · have hmov : ¬(rd = sp ∧ rn ≠ sp) := fun hboth => h ⟨hboth.1, hboth.2, hzero⟩
      have hlen : (emitMov rd rn).length = 1 := by
        rw [emitMov]
        split <;> rfl
      rw [if_pos hrd, emitMov_exec hmov, hlen]
      rfl
  next hne =>
    split
    · exact meets_fail
    next hrange =>
      rw [not_or, not_lt, not_lt] at hrange
      split
      next hneg =>
        have hnat := toNat_neg hneg (by omega)
        have hlt : (-offset).toNat < 2 ^ 24 := by omega
        rw [meets_ok]
        intro s
        rw [emitAddSubParts_exec (by simpa using hne) hlt, addSub, if_pos rfl, setWidth_neg hneg, sub_neg_eq_add]
      next hnonneg =>
        have hnat := toNat_of_nonneg (not_lt.mp hnonneg)
        have hlt : offset.toNat < 2 ^ 24 := by omega
        rw [meets_ok]
        intro s
        rw [emitAddSubParts_exec hne hlt, addSub, if_neg (by decide), setWidth_of_nonneg (by omega)]

/-- A move to the stack pointer goes to the zero register instead. -/
theorem not_sets_of_sp (hrd : rd = sp) (hrn : rn ≠ sp) : ¬Meets (Sets rd rn 0) (emitAddSubI rd rn 0) := by
  subst hrd
  have hne : ¬sp = rn := fun heq => hrn heq.symm
  rw [emitAddSubI, if_pos rfl, if_pos hne, emitMov, if_neg hrn, meets_ok]
  intro hsets
  have hstate := congrArg State.sp (hsets ⟨0, fun _ => 0, 8, ⟨false, false, false, false⟩, fun _ => 0⟩)
  rw [State.setBase, if_pos (show sp = xzr from rfl), State.getBase, if_neg (show ¬rn = xzr from hrn)] at hstate
  exact absurd (show (8 : Word) = 0 from hstate) (by decide)

theorem meets_iff_exact : Meets (Sets rd rn offset) (emitAddSubI rd rn offset) ↔ Exact rd rn offset := by
  refine ⟨fun h => ?_, sets_of_exact⟩
  rintro ⟨hrd, hrn, rfl⟩
  exact not_sets_of_sp hrd hrn h

end Sums

end Mambo.A64AddSub
