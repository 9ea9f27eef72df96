import Mambo.EmitResults
import Mambo.Offsets
import Mambo.T32Plugin

namespace Mambo.ArmAddSub

open T32 (Word Reg State)
open EmitResults Offsets

/-- A register is set and the code goes on behind; a write of the counter goes where it says. -/
def setTo (rd : Reg) (v next : Word) (s : State) : State := if rd = T32.pc then s.goto v else (s.set rd v).goto next

namespace A32

open Mambo.A32

section Emitters

/-- `emit_mov` on A32; none where the assertion fails. -/
def emitMov (rd rn : Reg) : Option (List Inst) :=
  if rd ≠ T32.pc ∧ rn ≠ T32.pc then some [.mov rd (rn.setWidth 12)] else none

/-- `((16 - (shift / 2)) << 8) | offset`, cut to the twelve bits of an operand. -/
def immOperand (shift : Nat) (offset : BitVec 32) : BitVec 12 :=
  BitVec.ofNat 12 ((16 - shift / 2) <<< 8) ||| offset.setWidth 12

def addSubImm (sub : Bool) (rd rn : Reg) (operand2 : BitVec 12) : Inst :=
  if sub then .subI rd rn operand2 else .addI rd rn operand2

def emitAddSubParts (sub : Bool) (rd rn : Reg) (offset : BitVec 32) : List Inst :=
  let first := if offset &&& 0xFF ≠ 0 then [addSubImm sub rd rn (immOperand 0 (offset &&& 0xFF))] else []
  let rn := if offset &&& 0xFF ≠ 0 then rd else rn
  first ++ if offset &&& 0xFF00 ≠ 0 then [addSubImm sub rd rn (immOperand 8 (offset >>> 8))] else []

def emitAddSubI (rd rn : Reg) (offset : BitVec 32) : Option (Result Inst) :=
  if offset = 0 then if rd ≠ rn then (emitMov rd rn).map .ok else some (.ok [])
  else if offset.toInt < -0xFFFF ∨ offset.toInt > 0xFFFF then some .fail
  else if offset.toInt < 0 then some (.ok (emitAddSubParts true rd rn (-offset)))
  else some (.ok (emitAddSubParts false rd rn offset))

end Emitters

section Sums

variable {rd rn : Reg} {offset : BitVec 32} {sub : Bool} {s : State} {v p : Word}

/-- The code sets rd to rn plus the offset, and changes nothing else. -/
def Sets (rd rn : Reg) (offset : BitVec 32) (code : List Inst) : Prop :=
  ∀ s, execAll code s = setTo rd (get s rn + offset) (s.pc + BitVec.ofNat 32 (4 * code.length)) s

def Exact (rd rn : Reg) (offset : BitVec 32) : Prop :=
  rd ≠ T32.pc ∨ offset = 0 ∧ rn ≠ T32.pc ∨ offset.toInt < -0xFFFF ∨ 0xFFFF < offset.toInt

def plusMinus (sub : Bool) (x y : Word) : Word := if sub then x - y else x + y

theorem plusMinus_plusMinus (x a b : Word) : plusMinus sub (plusMinus sub x a) b = plusMinus sub x (a + b) := by
  cases sub
  · exact add_assoc x a b
  · exact sub_sub x a b

theorem expandImm_low : ∀ v : BitVec 8, expandImm (immOperand 0 (v.setWidth 32)) = v.setWidth 32 := by decide

theorem expandImm_high : ∀ v : BitVec 8, expandImm (immOperand 8 (v.setWidth 32)) = v.setWidth 32 <<< 8 := by decide

theorem expandImm_add (h : offset.toNat < 2 ^ 16) :
    expandImm (immOperand 0 (offset &&& 0xFF)) + expandImm (immOperand 8 (offset >>> 8)) = offset := by
  have hlow : offset &&& 0xFF = (offset.setWidth 8).setWidth 32 := by
    apply BitVec.eq_of_toNat_eq
    rw [BitVec.toNat_and, BitVec.toNat_setWidth, BitVec.toNat_setWidth]
    have hmask : offset.toNat &&& (0xFF : BitVec 32).toNat = offset.toNat % 2 ^ 8 :=
      Nat.and_two_pow_sub_one_eq_mod _ 8
    omega
  have hhigh : offset >>> 8 = ((offset >>> 8).setWidth 8).setWidth 32 := by
    apply BitVec.eq_of_toNat_eq
    rw [BitVec.toNat_setWidth, BitVec.toNat_setWidth, BitVec.toNat_ushiftRight, Nat.shiftRight_eq_div_pow]
    omega
  rw [hlow, hhigh, expandImm_low, expandImm_high]
  apply BitVec.eq_of_toNat_eq
  rw [BitVec.toNat_add, BitVec.toNat_shiftLeft]
  simp only [BitVec.toNat_setWidth, BitVec.toNat_ushiftRight, Nat.shiftRight_eq_div_pow, Nat.shiftLeft_eq]
  omega

theorem exec_addSubImm {operand2 : BitVec 12} :
    exec (addSubImm sub rd rn operand2) s = write rd (plusMinus sub (get s rn) (expandImm operand2)) s := by
  cases sub <;> rfl

theorem shift_eq_zero (hlt : offset.toNat < 2 ^ 16) (h : offset &&& 0xFF00 = 0) : offset >>> 8 = 0 := by
  apply BitVec.eq_of_getLsbD_eq
  intro i hi
  rw [BitVec.getLsbD_ushiftRight, show (0 : BitVec 32).getLsbD i = false from BitVec.getLsbD_zero]
  by_cases hsmall : i < 8
  · have hbit : (offset &&& 0xFF00).getLsbD (8 + i) = false := by
      rw [h]
      exact BitVec.getLsbD_zero
    have hmask : ∀ i : Fin 8, (0xFF00 : BitVec 32).getLsbD (8 + i) = true := by decide
    rwa [BitVec.getLsbD_and, hmask ⟨i, hsmall⟩, Bool.and_true] at hbit
  · exact Nat.testBit_lt_two_pow (lt_of_lt_of_le hlt (Nat.pow_le_pow_right (by decide) (by omega)))

theorem expandImm_zero (shift : Nat) (hshift : shift = 0 ∨ shift = 8) : expandImm (immOperand shift 0) = 0 := by
  rcases hshift with rfl | rfl <;> decide

theorem exec_addSubImm_of_ne {operand2 : BitVec 12} (hrd : rd ≠ T32.pc) :
    exec (addSubImm sub rd rn operand2) s =
      (s.set rd (plusMinus sub (get s rn) (expandImm operand2))).goto (s.pc + 4) := by
  rw [exec_addSubImm, write_of_ne hrd]
  rfl

theorem emitAddSubParts_exec (hrd : rd ≠ T32.pc) (hne : offset ≠ 0) (hlt : offset.toNat < 2 ^ 16) :
    execAll (emitAddSubParts sub rd rn offset) s =
      (s.set rd (plusMinus sub (get s rn) offset)).goto
        (s.pc + BitVec.ofNat 32 (4 * (emitAddSubParts sub rd rn offset).length)) := by
  have hsum := expandImm_add hlt
  by_cases hlow : offset &&& 0xFF = 0
  · have hhigh : offset &&& 0xFF00 ≠ 0 := by
      intro hhigh
      rw [hlow, shift_eq_zero hlt hhigh, expandImm_zero 0 (Or.inl rfl), expandImm_zero 8 (Or.inr rfl), add_zero] at hsum
      exact hne hsum.symm
    rw [hlow, expandImm_zero 0 (Or.inl rfl), zero_add] at hsum
    simp only [emitAddSubParts, hlow, hhigh, ne_eq, not_true_eq_false, not_false_eq_true, if_true, if_false,
      List.nil_append, execAll_cons, execAll_nil]
    rw [exec_addSubImm_of_ne hrd, hsum]
    rfl
  · by_cases hhigh : offset &&& 0xFF00 = 0
    · rw [shift_eq_zero hlt hhigh, expandImm_zero 8 (Or.inr rfl), add_zero] at hsum
      simp only [emitAddSubParts, hlow, hhigh, ne_eq, not_true_eq_false, not_false_eq_true, if_true, if_false,
        List.append_nil, execAll_cons, execAll_nil]
      rw [exec_addSubImm_of_ne hrd, hsum]
      rfl
    · simp only [emitAddSubParts, hlow, hhigh, ne_eq, not_false_eq_true, if_true, List.cons_append, List.nil_append,
        execAll_cons, execAll_nil]
      rw [exec_addSubImm_of_ne hrd, exec_addSubImm_of_ne hrd, get_goto hrd, get_of_ne hrd, State.set_r_self,
        plusMinus_plusMinus, hsum, State.set_goto, State.set_set, State.goto_goto, State.goto_pc, add_assoc]
      rfl

theorem exec_addSubImm_pc {operand2 : BitVec 12} : (exec (addSubImm sub T32.pc rn operand2) s).pc.getLsbD 0 = false := by
  rw [exec_addSubImm, write, if_pos rfl]
  show (T32.entry _).getLsbD 0 = false
  rw [T32.entry, BitVec.getLsbD_and]
  exact Bool.and_false _

theorem emitAddSubParts_pc (hne : offset ≠ 0) (hlt : offset.toNat < 2 ^ 16) :
    (execAll (emitAddSubParts sub T32.pc rn offset) s).pc.getLsbD 0 = false := by
  rw [emitAddSubParts, execAll_append]
  by_cases hhigh : offset &&& 0xFF00 = 0
  · have hlow : offset &&& 0xFF ≠ 0 := by
      intro hlow
      have hsum := expandImm_add hlt
      rw [hlow, shift_eq_zero hlt hhigh, expandImm_zero 0 (Or.inl rfl), expandImm_zero 8 (Or.inr rfl), add_zero] at hsum
      exact hne hsum.symm
    rw [if_neg (not_not.mpr hhigh), if_pos hlow]
    exact exec_addSubImm_pc
  · rw [if_pos hhigh]
    exact exec_addSubImm_pc

theorem emitAddSubI_split (hne : offset ≠ 0) (hge : -0xFFFF ≤ offset.toInt) (hle : offset.toInt ≤ 0xFFFF) :
    ∃ sub n, n ≠ 0 ∧ n.toNat < 2 ^ 16 ∧ emitAddSubI rd rn offset = some (.ok (emitAddSubParts sub rd rn n)) ∧
      ∀ x, plusMinus sub x n = x + offset := by
  rw [emitAddSubI, if_neg hne, if_neg (by omega)]
  by_cases hneg : offset.toInt < 0
  · have hnat := toNat_neg hneg (by omega)
    exact ⟨true, -offset, by simpa using hne, by omega, if_pos hneg, fun x => sub_neg_eq_add x offset⟩
  · have hnat := toNat_of_nonneg (not_lt.mp hneg)
    exact ⟨false, offset, hne, by omega, if_neg hneg, fun x => rfl⟩

theorem emitMov_some (hrd : rd ≠ T32.pc) (hrn : rn ≠ T32.pc) : Sets rd rn 0 [.mov rd (rn.setWidth 12)] := by
  intro s
  have hrm : ((rn.setWidth 12).extractLsb' 0 4 : Reg) = rn := by
    revert rn
    decide
  have hshift : (rn.setWidth 12).extractLsb' 5 2 = (0 : BitVec 2) := by
    revert rn
    decide
  have himm : (rn.setWidth 12).extractLsb' 7 5 = (0 : BitVec 5) := by
    revert rn
    decide
  rw [execAll_cons, execAll_nil, exec, shiftedReg, hrm, hshift, himm, shiftImm_zero, write_of_ne hrd, setTo, if_neg hrd,
    show get s rn + 0 = get s rn from add_zero _]
  rfl

theorem not_sets_nil : ¬Sets T32.pc T32.pc 0 [] := by
  intro hsets
  have hpc := congrArg State.pc (hsets ⟨0, false, fun _ => 0, ⟨false, false, false, false⟩, 0, fun _ => 0⟩)
  exact absurd (show (0 : Word) = 8 from hpc) (by decide)

theorem sets_nil (hrd : rd ≠ T32.pc) : Sets rd rd 0 [] := by
  intro s
  rw [execAll_nil, setTo, if_neg hrd, get_of_ne hrd, show s.r rd + 0 = s.r rd from add_zero _]
  show s = (s.set rd (s.r rd)).goto (s.pc + 0)
  rw [State.set, Function.update_eq_self, add_zero]
  rfl

theorem not_sets_pc {n : Word} (hn : n ≠ 0) (hlt : n.toNat < 2 ^ 16) :
    ¬Sets T32.pc rn offset (emitAddSubParts sub T32.pc rn n) := by
  intro hsets
  have hodd (s : State) (hget : get s rn = 1 - offset) : False := by
    have hbit := @emitAddSubParts_pc rn n sub s hn hlt
    rw [hsets s, hget, sub_add_cancel, setTo, if_pos rfl] at hbit
    exact absurd (show (1 : Word).getLsbD 0 = false from hbit) (by decide)
  by_cases hrn : rn = T32.pc
  · refine hodd ⟨1 - offset - 8, false, fun _ => 0, ⟨false, false, false, false⟩, 0, fun _ => 0⟩ ?_
    rw [A32.get, if_pos hrn]
    exact sub_add_cancel _ _
  · refine hodd ⟨0, false, fun _ => 1 - offset, ⟨false, false, false, false⟩, 0, fun _ => 0⟩ ?_
    rw [A32.get, if_neg hrn]

theorem meets_iff_exact : MeetsOrStops (Sets rd rn offset) (emitAddSubI rd rn offset) ↔ Exact rd rn offset := by
  by_cases hne : offset = 0
  · subst hne
    rw [emitAddSubI, if_pos rfl]
    by_cases hrd : rd = rn
    · subst hrd
      rw [if_neg (not_not.mpr rfl), MeetsOrStops, meets_ok]
      by_cases hpc : rd = T32.pc
      · subst hpc
        exact iff_of_false not_sets_nil (by unfold Exact; decide)
      · exact iff_of_true (sets_nil hpc) (Or.inl hpc)
    · have hexact : Exact rd rn 0 := by
        by_cases hpc : rd = T32.pc
        · exact Or.inr (Or.inl ⟨rfl, fun hrn => hrd (hpc.trans hrn.symm)⟩)
        · exact Or.inl hpc
      refine iff_of_true ?_ hexact
      rw [if_pos hrd, emitMov]
      split
      next hregs => exact meets_ok.mpr (emitMov_some hregs.1 hregs.2)
      next => trivial
  · by_cases hrange : -0xFFFF ≤ offset.toInt ∧ offset.toInt ≤ 0xFFFF
    · obtain ⟨sub, n, hn, hlt, heq, hval⟩ := @emitAddSubI_split rd rn offset hne hrange.1 hrange.2
      rw [heq, MeetsOrStops, meets_ok]
      by_cases hrd : rd = T32.pc
      · subst hrd
        refine iff_of_false (not_sets_pc hn hlt) ?_
        rintro (h | ⟨h, -⟩ | h | h)
        · exact h rfl
        · exact hne h
        · omega
        · omega
      · refine iff_of_true (fun s => ?_) (Or.inl hrd)
        rw [emitAddSubParts_exec hrd hn hlt, hval, setTo, if_neg hrd]
    · rw [emitAddSubI, if_neg hne, if_pos (by omega)]
      exact iff_of_true meets_fail (Or.inr (Or.inr (by omega)))

end Sums

end A32

namespace T32

open Mambo.T32Plugin

section Emitters

/-- `emit_mov` on T32; none where the assertion fails. -/
def emitMov (rd rn : Reg) : Option (List Inst) :=
  if rd ≠ T32.pc ∧ rn ≠ T32.pc then some [.core (.movh16 (rd.extractLsb' 3 1) rn (rd.setWidth 3))] else none

def emitAddSubI (rd rn : Reg) (offset : BitVec 32) : Option (Result Inst) :=
  if offset = 0 then if rd ≠ rn then (emitMov rd rn).map .ok else some (.ok [])
  else if offset.toInt > 0xFFF ∨ offset.toInt < -0xFFF then some .fail
  else if offset.toInt < 0 then
    let offset := -offset
    some (.ok [.subwi32 ((offset >>> 11).setWidth 1) rn ((offset >>> 8).setWidth 3) rd (offset.setWidth 8)])
  else some (.ok [.addwi32 ((offset >>> 11).setWidth 1) rn ((offset >>> 8).setWidth 3) rd (offset.setWidth 8)])

end Emitters

section Sums

variable {rd rn : Reg} {offset n : BitVec 32} {s : State}

def codeBytes (code : List Inst) : Nat := (code.map Inst.size).sum

/-- The code sets rd to rn plus the offset, and changes nothing else. -/
def Sets (rd rn : Reg) (offset : BitVec 32) (code : List Inst) : Prop :=
  ∀ s, execAll code s = some (setTo rd (s.get rn + offset) (s.pc + BitVec.ofNat 32 (codeBytes code)) s)

def Exact (rd rn : Reg) (offset : BitVec 32) : Prop :=
  rd ≠ T32.pc ∧ rn ≠ T32.pc ∨ offset = 0 ∧ rd ≠ rn ∨ offset.toInt < -0xFFF ∨ 0xFFF < offset.toInt

theorem imm12_eq (hlt : n.toNat < 2 ^ 12) :
    (imm12 ((n >>> 11).setWidth 1) ((n >>> 8).setWidth 3) (n.setWidth 8)).setWidth 32 = n := by
  apply BitVec.eq_of_getLsbD_eq
  intro i hi
  rw [BitVec.getLsbD_setWidth, imm12, BitVec.getLsbD_append, BitVec.getLsbD_append]
  simp only [BitVec.getLsbD_setWidth, BitVec.getLsbD_ushiftRight]
  by_cases h12 : i < 12
  · by_cases h8 : i < 8
    · simp [hi, h8]
    · by_cases h11 : i < 11
      · simp [hi, h8, show i - 8 < 3 by omega, show 8 + (i - 8) = i by omega]
      · simp [hi, h8, show ¬i - 8 < 3 by omega, show i - 8 - 3 < 1 by omega, show 11 + (i - 8 - 3) = i by omega]
  · have hbit : n.getLsbD i = false :=
      Nat.testBit_lt_two_pow (lt_of_lt_of_le hlt (Nat.pow_le_pow_right (by decide) (by omega)))
    simp [hbit, show ¬i < 8 by omega, show ¬i - 8 < 3 by omega, show ¬i - 8 - 3 < 1 by omega]

theorem sets_nil (hrd : rd ≠ T32.pc) : Sets rd rd 0 [] := by
  intro s
  rw [execAll_nil, setTo, if_neg hrd, State.get_of_ne hrd, show s.r rd + 0 = s.r rd from add_zero _]
  show some s = some ((s.set rd (s.r rd)).goto (s.pc + 0))
  rw [State.set, Function.update_eq_self, add_zero]
  rfl

theorem not_sets_nil : ¬Sets T32.pc T32.pc 0 [] := by
  intro hsets
  have hpc := congrArg State.pc (Option.some.inj
    (hsets ⟨0, true, fun _ => 0, ⟨false, false, false, false⟩, 0, fun _ => 0⟩))
  exact absurd (show (0 : Word) = 4 from hpc) (by decide)

theorem emitMov_some (hrd : rd ≠ T32.pc) :
    Sets rd rn 0 [.core (.movh16 (rd.extractLsb' 3 1) rn (rd.setWidth 3))] := by
  intro s
  have hdn : (rd.extractLsb' 3 1 ++ rd.setWidth 3 : Reg) = rd := by
    revert rd
    decide
  rw [execAll_cons, exec, T32.perform, hdn, if_neg hrd, setTo, if_neg hrd, show s.get rn + 0 = s.get rn from add_zero _]
  rfl

theorem emitAddSubI_split (hne : offset ≠ 0) (hge : -0xFFF ≤ offset.toInt) (hle : offset.toInt ≤ 0xFFF) :
    ∃ i : Inst, emitAddSubI rd rn offset = some (.ok [i]) ∧ i.size = 4 ∧
      ∀ s, exec i s = if rd = T32.pc then none else some ((s.set rd (base s rn + offset)).goto (s.pc + 4)) := by
  rw [emitAddSubI, if_neg hne, if_neg (by omega)]
  by_cases hneg : offset.toInt < 0
  · have hnat := toNat_neg hneg (by omega)
    refine ⟨_, if_pos hneg, rfl, fun s => ?_⟩
    rw [exec, imm12_eq (by omega), sub_neg_eq_add]
    rfl
  · have hnat := toNat_of_nonneg (not_lt.mp hneg)
    refine ⟨_, if_neg hneg, rfl, fun s => ?_⟩
    rw [exec, imm12_eq (by omega)]
    rfl

theorem base_of_ne (hrn : rn ≠ T32.pc) : base s rn = s.get rn := by
  rw [base, if_neg hrn, State.get_of_ne hrn]

theorem meets_iff_exact : MeetsOrStops (Sets rd rn offset) (emitAddSubI rd rn offset) ↔ Exact rd rn offset := by
  by_cases hne : offset = 0
  · subst hne
    rw [emitAddSubI, if_pos rfl]
    by_cases hrd : rd = rn
    · subst hrd
      rw [if_neg (not_not.mpr rfl), MeetsOrStops, meets_ok]
      by_cases hpc : rd = T32.pc
      · subst hpc
        exact iff_of_false not_sets_nil (by unfold Exact; decide)
      · exact iff_of_true (sets_nil hpc) (Or.inl ⟨hpc, hpc⟩)
    · refine iff_of_true ?_ (Or.inr (Or.inl ⟨rfl, hrd⟩))
      rw [if_pos hrd, emitMov]
      split
      next hregs => exact meets_ok.mpr (emitMov_some hregs.1)
      next => trivial
  · by_cases hrange : -0xFFF ≤ offset.toInt ∧ offset.toInt ≤ 0xFFF
    · obtain ⟨i, heq, hsize, hexec⟩ := @emitAddSubI_split rd rn offset hne hrange.1 hrange.2
      rw [heq, MeetsOrStops, meets_ok]
      by_cases hregs : rd ≠ T32.pc ∧ rn ≠ T32.pc
      · refine iff_of_true (fun s => ?_) (Or.inl hregs)
        rw [execAll_cons, hexec, if_neg hregs.1, setTo, if_neg hregs.1, base_of_ne hregs.2, codeBytes, List.map_cons, hsize]
        rfl
      · refine iff_of_false (fun hsets => ?_) ?_
        · have hrun := hsets ⟨2, true, fun _ => 0, ⟨false, false, false, false⟩, 0, fun _ => 0⟩
          rw [execAll_cons, hexec] at hrun
          by_cases hrd : rd = T32.pc
          · rw [if_pos hrd] at hrun
            exact absurd hrun (by simp)
          · -- the counter is aligned before the offset is added to it
            have hrn : rn = T32.pc := by_contra fun hrn => hregs ⟨hrd, hrn⟩
            rw [if_neg hrd, setTo, if_neg hrd, hrn, base, if_pos rfl, State.get, if_pos rfl] at hrun
            have hreg := congrArg (fun s => s.r rd) (Option.some.inj hrun)
            have hval := add_right_cancel ((State.set_r_self).symm.trans (hreg.trans State.set_r_self))
            exact absurd hval (by decide)
        · rintro (h | ⟨h, -⟩ | h | h)
          · exact hregs h
          · exact hne h
          · omega
          · omega
    · rw [emitAddSubI, if_neg hne, if_pos (by omega)]
      exact iff_of_true meets_fail (Or.inr (Or.inr (by omega)))

end Sums

end T32

end Mambo.ArmAddSub
