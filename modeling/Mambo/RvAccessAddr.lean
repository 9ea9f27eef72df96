import Mambo.RvLoadStore

namespace Mambo.RvAccessAddr

open EmitResults RegLists RvAddSub RvIsa RvLoadStore RvPlugin RvPluginStack
open Rv (Reg Word State zero sp)

section Pushes

/-- The sets of registers that a plugin has pushed, one after the other. They are counted in an int. -/
structure Pushes where
  masks : List (BitVec 32)
  count_lt : (masks.map countBits).sum < 2 ^ 31

def Pushes.count (pushes : Pushes) : Nat := (pushes.masks.map countBits).sum

def emitPushes : List (BitVec 32) → Option (List RvPlugin.Inst)
  | [] => some []
  | regs :: masks => do
    let push ← emitRiscvPush regs
    let rest ← emitPushes masks
    return push ++ rest

variable {masks : List (BitVec 32)} {is : List RvPlugin.Inst} {m : Machine} {r : Reg}

theorem emitPushes_isSome (masks : List (BitVec 32)) : (emitPushes masks).isSome := by
  induction masks with
  | nil => rfl
  | cons regs masks ih =>
    obtain ⟨push, hpush⟩ := Option.isSome_iff_exists.mp (@emitRiscvPush_isSome regs)
    obtain ⟨rest, hrest⟩ := Option.isSome_iff_exists.mp ih
    rw [emitPushes, hpush, hrest]
    rfl

theorem pushes_get (his : emitPushes masks = some is) :
    (execAll is m).get r =
      if r = sp then m.get sp - BitVec.ofNat 64 (8 * (masks.map countBits).sum) else m.get r := by
  induction masks generalizing is m with
  | nil =>
    obtain rfl := Option.some.inj his
    rw [execAll_nil, List.map_nil, List.sum_nil]
    split
    next hr => rw [hr, show m.get sp - BitVec.ofNat 64 (8 * 0) = m.get sp from sub_zero _]
    next => rfl
  | cons regs masks ih =>
    obtain ⟨push, hpush⟩ := Option.isSome_iff_exists.mp (@emitRiscvPush_isSome regs)
    obtain ⟨rest, hrest⟩ := Option.isSome_iff_exists.mp (emitPushes_isSome masks)
    rw [emitPushes, hpush, hrest] at his
    obtain rfl := Option.some.inj his
    rw [execAll_append, ih hrest, push_get hpush, if_pos rfl, push_get hpush, List.map_cons, List.sum_cons]
    split
    next =>
      rw [room, RvStack.regList_length, ← countBits_eq, Nat.mul_add, BitVec.ofNat_add, sub_sub]
    next hr => rfl

end Pushes

section Addresses

/-- The emitted code leaves the address that the instruction accesses before the pushes, or the call fails. -/
def NeverWrong (pushes : Pushes) (inst : RvLoadStore.Inst) (w : Encoding) (reg : Reg) : Prop :=
  (riscvCalcLdStAddr (BitVec.ofNat 32 pushes.count) inst w reg).ret = 0 →
    ∀ is, emitPushes pushes.masks = some is → ∀ m,
      (execAll (riscvCalcLdStAddr (BitVec.ofNat 32 pushes.count) inst w reg).code (execAll is m)).get reg =
        ((execAll is m).set reg (address inst w m)).get reg

/-- No bit of the offset is lost, and with the pushed registers it is still an immediate of addi. -/
def Exact (pushes : Pushes) (inst : RvLoadStore.Inst) (w : Encoding) (reg : Reg) : Prop :=
  inst = .other ∨ reg = zero ∨
    lost inst w = 0 ∧ (base inst w = sp → offset inst w + 8 * pushes.count ≤ 0x7FF)

variable {pushes : Pushes} {inst : RvLoadStore.Inst} {w : Encoding} {reg rn : Reg} {d : BitVec 32} {m : Machine}
  {is : List RvPlugin.Inst}

theorem offset_bounds (inst : RvLoadStore.Inst) (w : Encoding) : -0x800 ≤ offset inst w ∧ offset inst w ≤ 0x7FF := by
  have hnat : ∀ {n : Nat} (x : BitVec n), n ≤ 9 → -0x800 ≤ (x.toNat : Int) ∧ (x.toNat : Int) ≤ 0x7FF := by
    intro n x hn
    have hlt := lt_of_lt_of_le x.isLt (Nat.pow_le_pow_right (by omega) hn)
    omega
  have hint : ∀ x : BitVec 12, -0x800 ≤ x.toInt ∧ x.toInt ≤ 0x7FF := by
    intro x
    have hlt := BitVec.toInt_lt (x := x)
    have hle := BitVec.le_toInt (x := x)
    omega
  cases inst with
  | cLoad i | cStore i | cLoadSp i | cStoreSp i =>
    cases i
    all_goals exact hnat _ (by decide)
  | load i => exact hint _
  | store i => exact hint _
  | lr size | amo i size | vector i width | other =>
    exact ⟨(by decide : (-0x800 : Int) ≤ 0), (by decide : (0 : Int) ≤ 0x7FF)⟩

theorem lost_of_base (h : base inst w ≠ sp) : lost inst w = 0 := by
  cases inst with
  | cStoreSp i => exact absurd rfl h
  | _ => rfl

theorem lost_eq (inst : RvLoadStore.Inst) (w : Encoding) : lost inst w = 0 ∨ lost inst w = 32 := by
  cases inst with
  | cStoreSp i =>
    rw [lost]
    split
    · exact Or.inr rfl
    · exact Or.inl rfl
  | _ => exact Or.inl rfl

theorem riscvCalcLdStAddr_eq (pushes : Pushes) (w : Encoding) (h : inst ≠ .other) (reg : Reg) :
    ∃ d, d.toInt + lost inst w = offset inst w ∧
      riscvCalcLdStAddr (BitVec.ofNat 32 pushes.count) inst w reg =
        .ok (generateAddr (BitVec.ofNat 32 pushes.count) reg (base inst w) d) := by
  obtain ⟨d, hdecoded, hoffset⟩ := decoded_eq (w := w) h
  refine ⟨d, hoffset, ?_⟩
  rw [riscvCalcLdStAddr, hdecoded]

/-- What the emitter of the addition leaves in its destination: the sum, or, where it fails, what was there. -/
theorem addSubI_get (hreg : reg ≠ zero) :
    (execAll (emitAddSubI reg rn d).code m).get reg =
      if d.toInt > 0x7FF ∨ d.toInt < -0xFFF then m.get reg else m.get rn + (d.setWidth 12).signExtend 64 := by
  rw [emitAddSubI]
  by_cases hd : d = 0
  · subst hd
    have hzero : m.get rn + ((0 : BitVec 32).setWidth 12).signExtend 64 = m.get rn := add_zero _
    rw [if_pos rfl, if_neg (show ¬((0 : BitVec 32).toInt > 0x7FF ∨ (0 : BitVec 32).toInt < -0xFFF) by decide), hzero]
    by_cases hne : reg = rn
    · subst hne
      rw [if_neg (not_not.mpr rfl)]
      rfl
    · rw [if_pos hne]
      show (exec (.core (.addi reg rn 0)) m).get reg = _
      rw [exec_addi, Machine.get_next, Machine.get_set_self hreg]
      exact add_zero _
  · rw [if_neg hd]
    split
    · rfl
    · show (exec (.core (.addi reg rn _)) m).get reg = _
      rw [exec_addi, Machine.get_next, Machine.get_set_self hreg]

theorem sum_toInt (d : BitVec 32) (n : Nat) :
    (d + BitVec.ofNat 32 n * 8).toInt = (d.toInt + 8 * n).bmod (2 ^ 32) := by
  have hmul : BitVec.ofNat 32 n * 8 = BitVec.ofNat 32 (8 * n) := by
    rw [show (8 : BitVec 32) = BitVec.ofNat 32 8 from rfl, ← BitVec.ofNat_mul, Nat.mul_comm]
  rw [hmul, BitVec.toInt_add, BitVec.toInt_ofNat', Int.add_bmod_bmod, Nat.cast_mul]
  rfl

theorem imm_eq (hle : d.toInt ≤ 0x7FF) (hge : -0x800 ≤ d.toInt) : (d.setWidth 12).signExtend 64 = d.signExtend 64 := by
  apply BitVec.eq_of_toInt_eq
  rw [toInt_imm hle (by omega), if_neg (by omega), BitVec.toInt_signExtend_of_le (by decide)]

theorem address_of_sp (h : base inst w = sp) (his : emitPushes pushes.masks = some is) :
    address inst w m = (execAll is m).get sp + BitVec.ofInt 64 (offset inst w + 8 * pushes.count) := by
  rw [address, h, pushes_get his, if_pos rfl, BitVec.ofInt_add, ← Pushes.count,
    show (8 * (pushes.count : Int)) = ((8 * pushes.count : Nat) : Int) by norm_cast, BitVec.ofInt_natCast]
  exact (sub_add_add_cancel _ _ _).symm

theorem count_lt (pushes : Pushes) : pushes.count < 2 ^ 31 := pushes.count_lt

theorem ofInt_toInt_of_small {x : Int} (hge : -2 ^ 62 ≤ x) (hlt : x < 2 ^ 62) : (BitVec.ofInt 64 x).toInt = x := by
  rw [BitVec.toInt_ofInt]
  exact Int.bmod_eq_of_le (by omega) (by omega)

def blank : Machine := ⟨⟨0, fun _ => 0, fun _ => 0⟩, fun _ => 0⟩

/-- A state in which a register other than sp does not hold a given distance from sp. -/
theorem exists_other (his : emitPushes pushes.masks = some is) (hzero : reg ≠ zero) (hsp : reg ≠ sp) (a : Word) :
    ∃ m, (execAll is m).get reg ≠ (execAll is m).get sp + a := by
  let v := blank.get sp - BitVec.ofNat 64 (8 * pushes.count) + a
  refine ⟨blank.set reg (v + 1), ?_⟩
  rw [pushes_get his, if_neg hsp, pushes_get his, if_pos rfl, Machine.get_set_self hzero,
    Machine.get_set_of_ne (Ne.symm hsp)]
  intro heq
  exact absurd (add_left_cancel (heq.trans (add_zero v).symm)) (by decide)

theorem exact_of_sp (h : NeverWrong pushes inst w reg) (hother : inst ≠ .other) (hzero : reg ≠ zero)
    (hsp : base inst w = sp) : lost inst w = 0 ∧ offset inst w + 8 * pushes.count ≤ 0x7FF := by
  obtain ⟨d, hoffset, hcalc⟩ := riscvCalcLdStAddr_eq pushes w hother reg
  obtain ⟨is, his⟩ := Option.isSome_iff_exists.mp (emitPushes_isSome pushes.masks)
  obtain ⟨hge, hle⟩ := offset_bounds inst w
  have hcount := count_lt pushes
  have hd := sum_toInt d pushes.count
  have hleft : ∀ m, (if (d + BitVec.ofNat 32 pushes.count * 8).toInt > 0x7FF ∨
      (d + BitVec.ofNat 32 pushes.count * 8).toInt < -0xFFF then (execAll is m).get reg
      else (execAll is m).get sp + ((d + BitVec.ofNat 32 pushes.count * 8).setWidth 12).signExtend 64) =
        (execAll is m).get sp + BitVec.ofInt 64 (offset inst w + 8 * pushes.count) := by
    intro m
    have hrun := h (by rw [hcalc]; rfl) is his m
    rw [hcalc, generateAddr, hsp, if_pos rfl, Machine.get_set_self hzero, address_of_sp hsp his] at hrun
    exact (addSubI_get hzero).symm.trans hrun
  generalize d + BitVec.ofNat 32 pushes.count * 8 = e at hd hleft
  have hx := ofInt_toInt_of_small (x := offset inst w + 8 * pushes.count) (by omega) (by omega)
  have hlost := lost_eq inst w
  by_cases hrange : e.toInt > 0x7FF ∨ e.toInt < -0xFFF
  · simp only [if_pos hrange] at hleft
    by_cases hreg : reg = sp
    · subst hreg
      have hnone := add_left_cancel ((hleft blank).symm.trans (add_zero _).symm)
      rw [hnone, show (0 : Word).toInt = 0 from rfl] at hx
      rw [Int.bmod_eq_of_le (by omega) (by omega)] at hd
      omega
    · obtain ⟨m, hm⟩ := exists_other his hzero hreg (BitVec.ofInt 64 (offset inst w + 8 * pushes.count))
      exact absurd (hleft m) hm
  · simp only [if_neg hrange] at hleft
    have hsum := add_left_cancel (hleft blank)
    rw [← hsum, toInt_imm (by omega) (by omega)] at hx
    split at hx
    · rw [Int.bmod_eq_of_le (by omega) (by omega)] at hd
      omega
    · rw [Int.bmod_eq_of_le (by omega) (by omega)] at hd
      omega

theorem neverWrong_of_exact (hother : inst ≠ .other) (hlost : lost inst w = 0)
    (hroom : base inst w = sp → offset inst w + 8 * pushes.count ≤ 0x7FF) : NeverWrong pushes inst w reg := by
  intro _ is his m
  obtain ⟨d, hoffset, hcalc⟩ := riscvCalcLdStAddr_eq pushes w hother reg
  obtain ⟨hge, hle⟩ := offset_bounds inst w
  rw [hlost] at hoffset
  rw [hcalc]
  by_cases hzero : reg = zero
  · rw [hzero, Machine.get_zero, Machine.get_zero]
  · rw [Machine.get_set_self hzero]
    show (execAll (generateAddr _ _ _ _) _).get reg = _
    rw [generateAddr, addSubI_get hzero]
    by_cases hsp : base inst w = sp
    · have hfits := hroom hsp
      have hd := sum_toInt d pushes.count
      rw [Int.bmod_eq_of_le (by omega) (by omega)] at hd
      rw [if_pos hsp, if_neg (by omega), hsp, address_of_sp hsp his, imm_eq (by omega) (by omega), BitVec.signExtend, hd,
        ← hoffset, Nat.cast_zero, add_zero]
    · rw [if_neg hsp, show d + 0 = d from add_zero d, if_neg (by omega), pushes_get his, if_neg hsp, address,
        imm_eq (by omega) (by omega), BitVec.signExtend, ← hoffset, Nat.cast_zero, add_zero]

/-- For every access, with any registers pushed before: when the address is right. -/
theorem neverWrong_iff_exact : NeverWrong pushes inst w reg ↔ Exact pushes inst w reg := by
  by_cases hother : inst = .other
  · subst hother
    exact iff_of_true (fun hret => absurd hret (by decide : (-1 : Int) ≠ 0)) (Or.inl rfl)
  by_cases hzero : reg = zero
  · refine iff_of_true (fun _ is _ m => ?_) (Or.inr (Or.inl hzero))
    rw [hzero, Machine.get_zero, Machine.get_zero]
  constructor
  · intro h
    refine Or.inr (Or.inr ?_)
    by_cases hsp : base inst w = sp
    · obtain ⟨hlost, hroom⟩ := exact_of_sp h hother hzero hsp
      exact ⟨hlost, fun _ => hroom⟩
    · exact ⟨lost_of_base hsp, fun h' => absurd h' hsp⟩
  · rintro (h | h | ⟨hlost, hroom⟩)
    · exact absurd h hother
    · exact absurd h hzero
    · exact neverWrong_of_exact hother hlost hroom

/-- A store of a0 32 bytes above sp, whose address is given as sp. -/
theorem csdsp_wrong : ¬NeverWrong ⟨[], by decide⟩ (.cStoreSp .sd) 0xF02A 10 := by
  intro h
  have hrun := h rfl [] rfl blank
  exact absurd hrun (by decide)

end Addresses

end Mambo.RvAccessAddr
