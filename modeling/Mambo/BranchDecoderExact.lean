import Mambo.A64ExitRuns
import Mambo.AArch32Prepass
import Mambo.BranchDecoder

namespace Mambo.BranchDecoderExact

open A64 (condHolds Flags)
open AArch32Scan AArch32Prepass BranchDecoder
open T32 (Word pc sp lr)

/-- What an instruction does to the control flow: whether the target comes from the
instruction and its address alone, whether the next instruction may follow, and whether a
link register gets a return address. -/
structure Flow where
  encoded : Prop
  falls : Prop
  links : Prop

/-- The type of a branch is the one of an instruction that leaves the straight line, or not. -/
structure Agrees (type : BranchDecoder.BranchType) (leaves : Prop) (flow : Flow) : Prop where
  branch_iff : type ≠ branchNone ↔ leaves
  direct_iff : Has type branchDirect ↔ leaves ∧ flow.encoded
  indirect_iff : Has type branchIndirect ↔ leaves ∧ ¬flow.encoded
  cond_iff : Has type branchCond ↔ leaves ∧ flow.falls
  call_iff : Has type branchCall ↔ leaves ∧ flow.links
  not_both : ¬(Has type branchCall ∧ Has type branchReturn)

theorem agrees_none {leaves : Prop} {flow : Flow} (h : ¬leaves) : Agrees branchNone leaves flow where
  branch_iff := iff_of_false (fun hne => hne rfl) h
  direct_iff := iff_of_false (by decide) fun hl => h hl.1
  indirect_iff := iff_of_false (by decide) fun hl => h hl.1
  cond_iff := iff_of_false (by decide) fun hl => h hl.1
  call_iff := iff_of_false (by decide) fun hl => h hl.1
  not_both := by decide

theorem agrees_leaves (type : BranchDecoder.BranchType) {leaves : Prop} {flow : Flow} (h : leaves)
    (htype : type ≠ branchNone) (hboth : ¬(Has type branchCall ∧ Has type branchReturn)) :
    Agrees type leaves flow ↔ (Has type branchDirect ↔ flow.encoded) ∧ (Has type branchIndirect ↔ ¬flow.encoded) ∧
      (Has type branchCond ↔ flow.falls) ∧ (Has type branchCall ↔ flow.links) := by
  constructor
  · rintro ⟨-, hdirect, hindirect, hcond, hcall, -⟩
    simp only [h, true_and] at hdirect hindirect hcond hcall
    exact ⟨hdirect, hindirect, hcond, hcall⟩
  · rintro ⟨hdirect, hindirect, hcond, hcall⟩
    exact ⟨iff_of_true htype h, by simp only [h, true_and, hdirect], by simp only [h, true_and, hindirect],
      by simp only [h, true_and, hcond], by simp only [h, true_and, hcall], hboth⟩

/-- Only the conditions 14 and 15 always hold. -/
theorem exists_not_holds (cond : BitVec 4) : (∃ f, condHolds cond f = false) ↔ cond.toNat < 14 := by
  constructor
  · rintro ⟨f, hf⟩
    by_contra hge
    rw [A64ExitRuns.condHolds_always cond f hge] at hf
    cases hf
  · intro hlt
    have hflags : ∀ cond : BitVec 4, cond.toNat < 14 →
        condHolds cond ⟨false, false, false, false⟩ = false ∨ condHolds cond ⟨true, true, true, true⟩ = false ∨
          condHolds cond ⟨true, false, true, false⟩ = false := by decide
    rcases hflags cond hlt with h | h | h <;> exact ⟨_, h⟩

theorem has_or {a b kind : BranchDecoder.BranchType} : Has (a ||| b) kind ↔ Has a kind ∨ Has b kind := by
  have hor (x y : BranchDecoder.BranchType) : x ||| y = 0 ↔ x = 0 ∧ y = 0 := BitVec.or_eq_zero_iff
  rw [Has, Has, Has, BitVec.and_or_distrib_right, ne_eq, hor, not_and_or]

theorem agrees_marked {leaves : Prop} {flow : Flow} (base marks : BranchDecoder.BranchType) {q : Prop} [Decidable q]
    (h : leaves) (hbase : base ≠ branchNone) (hcond : ¬Has base branchCond)
    (hboth : ¬(Has base branchCall ∧ Has base branchReturn))
    (hmarks : Has marks branchCond ∧ ¬Has marks branchDirect ∧ ¬Has marks branchIndirect ∧ ¬Has marks branchCall ∧
      ¬Has marks branchReturn) :
    Agrees (if q then base ||| marks else base) leaves flow ↔ (Has base branchDirect ↔ flow.encoded) ∧
      (Has base branchIndirect ↔ ¬flow.encoded) ∧ (q ↔ flow.falls) ∧ (Has base branchCall ↔ flow.links) := by
  obtain ⟨hmark, hdirect, hindirect, hcall, hreturn⟩ := hmarks
  by_cases hq : q
  · rw [if_pos hq, agrees_leaves _ h]
    · simp only [has_or, hmark, hdirect, hindirect, hcall, hq, or_true, or_false]
    · intro hnone
      have hmarked : Has (base ||| marks) branchCond := has_or.mpr (.inr hmark)
      rw [hnone] at hmarked
      exact absurd hmarked (by decide)
    · simpa only [has_or, hcall, hreturn, or_false] using hboth
  · rw [if_neg hq, agrees_leaves base h hbase hboth]
    simp only [hcond, hq]

section A64

open A64Scan (Guest)

def a64Flow : Guest → Flow
  | .cbzCbnz sf op _ rt => ⟨True, ∃ s, A64.taken (.cbzCbnz sf op 0 rt) s = false, False⟩
  | .bCond _ cond => ⟨True, ∃ f, condHolds cond f = false, False⟩
  | .tbzTbnz b5 op b40 _ rt => ⟨True, ∃ s, A64.taken (.tbzTbnz b5 op b40 0 rt) s = false, False⟩
  | .bBl op _ => ⟨True, False, op = 1⟩
  | .indirect inst rn => ⟨rn = A64.xzr, False, inst = .blr⟩
  | _ => ⟨False, False, False⟩

/-- No branch that the zero register decides, or that is always taken for its condition. -/
def A64Right : Guest → Prop
  | .cbzCbnz _ op _ rt | .tbzTbnz _ op _ _ rt => rt = A64.xzr → op = 1
  | .bCond _ cond => cond.toNat < 14
  | .indirect _ rn => rn ≠ A64.xzr
  | _ => True

def a64Filled (v : A64.Word) : A64.State := ⟨0, fun _ => v, 0, ⟨false, false, false, false⟩, fun _ => 0⟩

theorem op_cases (op : BitVec 1) : op = 0 ∨ op = 1 := by
  revert op
  decide

theorem cbz_falls (sf op : BitVec 1) (imm19 : BitVec 19) (rt : A64.Reg) :
    (∃ s, A64.taken (.cbzCbnz sf op imm19 rt) s = false) ↔ (rt = A64.xzr → op = 1) := by
  have hone : (A64.operand sf 1 == 0) = false := by
    rcases op_cases sf with rfl | rfl <;> rfl
  have hzero : (A64.operand sf 0 == 0) = true := by
    rcases op_cases sf with rfl | rfl <;> rfl
  constructor
  · rintro ⟨s, hs⟩ rfl
    rw [A64.taken, A64.State.get, if_pos rfl, hzero] at hs
    rcases op_cases op with rfl | rfl
    · cases hs
    · rfl
  · intro hop
    rcases op_cases op with rfl | rfl
    · have hne : rt ≠ A64.xzr := fun h => absurd (hop h) (by decide)
      refine ⟨a64Filled 1, ?_⟩
      rw [A64.taken, A64.State.get, if_neg hne, a64Filled, hone]
      rfl
    · refine ⟨a64Filled 0, ?_⟩
      rw [A64.taken, A64.State.get, a64Filled, ite_self, hzero]
      rfl

theorem zero_bit (n : Nat) : (0 : A64.Word).getLsbD n = false := BitVec.getLsbD_zero

theorem tbz_falls (b5 op : BitVec 1) (b40 : BitVec 5) (imm14 : BitVec 14) (rt : A64.Reg) :
    (∃ s, A64.taken (.tbzTbnz b5 op b40 imm14 rt) s = false) ↔ (rt = A64.xzr → op = 1) := by
  constructor
  · rintro ⟨s, hs⟩ rfl
    rw [A64.taken, A64.State.get, if_pos rfl, zero_bit] at hs
    rcases op_cases op with rfl | rfl
    · cases hs
    · rfl
  · intro hop
    rcases op_cases op with rfl | rfl
    · have hne : rt ≠ A64.xzr := fun h => absurd (hop h) (by decide)
      have hbit : b5.toNat * 32 + b40.toNat < 64 := by omega
      refine ⟨a64Filled (BitVec.allOnes 64), ?_⟩
      rw [A64.taken, A64.State.get, if_neg hne, a64Filled, BitVec.getLsbD_allOnes, decide_eq_true hbit]
      rfl
    · refine ⟨a64Filled 0, ?_⟩
      rw [A64.taken, A64.State.get, a64Filled, ite_self, zero_bit]
      rfl

theorem a64_agrees_iff {g : Guest} {first : Bool} (hg : g = .invalid → first = true) :
    Agrees (getA64BranchType g) (A64Scan.stops g first) (a64Flow g) ↔ A64Right g := by
  cases g with
  | cbzCbnz sf op imm19 rt =>
      refine (agrees_leaves (branchDirect ||| branchCond ||| branchCondCbz) rfl (by decide) (by decide)).trans ?_
      simp +decide [a64Flow, cbz_falls, A64Right]
  | bCond imm19 cond =>
      refine (agrees_leaves (branchDirect ||| branchCond ||| branchCondPsr) rfl (by decide) (by decide)).trans ?_
      simp +decide [a64Flow, exists_not_holds, A64Right]
  | tbzTbnz b5 op b40 imm14 rt =>
      refine (agrees_leaves (branchDirect ||| branchCond ||| branchCondTbz) rfl (by decide) (by decide)).trans ?_
      simp +decide [a64Flow, tbz_falls, A64Right]
  | bBl op imm26 =>
      rw [getA64BranchType]
      by_cases hop : op = 1
      · rw [if_pos hop]
        refine (agrees_leaves (branchDirect ||| branchCall) rfl (by decide) (by decide)).trans ?_
        simp +decide [a64Flow, A64Right, hop]
      · rw [if_neg hop]
        refine (agrees_leaves (branchDirect ||| 0) rfl (by decide) (by decide)).trans ?_
        simpa +decide [a64Flow, A64Right] using hop
  | indirect inst rn =>
      cases inst with
      | br =>
          refine (agrees_leaves branchIndirect rfl (by decide) (by decide)).trans ?_
          simp +decide [a64Flow, A64Right]
      | blr =>
          refine (agrees_leaves (branchIndirect ||| branchCall) rfl (by decide) (by decide)).trans ?_
          simp +decide [a64Flow, A64Right]
      | ret =>
          refine (agrees_leaves (branchIndirect ||| branchReturn) rfl (by decide) (by decide)).trans ?_
          simp +decide [a64Flow, A64Right]
  | invalid =>
      rw [hg rfl]
      exact iff_of_true (agrees_none Bool.false_ne_true) trivial
  | svc | mrsMsrReg | ldrLit | adr | other | unhandled =>
      exact iff_of_true (agrees_none Bool.false_ne_true) trivial

end A64

section Riscv

open RvScan (Guest)
open Rv (zero ra)

def IsLink (rd : Rv.Reg) : Prop := rd = ra ∨ rd = 5

def riscvFlow : Guest → Flow
  | .cJ _ => ⟨True, False, False⟩
  | .cBranch bnez rs1 .. =>
      ⟨True, ∃ s : Rv.State,
        Rv.condHolds (if bnez then RvExits.bne else RvExits.beq) (s.get (Rv.wide rs1)) (s.get zero) = false, False⟩
  | .cJr rs1 => ⟨rs1 = zero, False, False⟩
  | .cJalr rs1 => ⟨rs1 = zero, False, True⟩
  | .jal rd _ => ⟨True, False, IsLink rd⟩
  | .jalr rd rs1 _ => ⟨rs1 = zero, False, IsLink rd⟩
  | .branch cond rs1 rs2 .. =>
      ⟨True, ∃ s : Rv.State, Rv.condHolds cond (s.get rs1) (s.get rs2) = false, False⟩
  | _ => ⟨False, False, False⟩

/-- A branch that every state takes: a register against itself, or unsigned against zero;
there is no condition 3. -/
def AlwaysTaken (cond : BitVec 3) (rs1 rs2 : Rv.Reg) : Prop :=
  (cond = 0 ∨ cond = 5 ∨ cond = 7) ∧ rs1 = rs2 ∨ cond = 7 ∧ rs2 = zero ∨ cond = 3

/-- The jumps link as their decoding says, with a base register that is not zero. -/
def RiscvRight : Guest → Prop
  | .cJr rs1 | .cJalr rs1 => rs1 ≠ zero
  | .jal rd _ => IsLink rd
  | .jalr rd rs1 _ => rs1 ≠ zero ∧ (rs1 ≠ ra ↔ IsLink rd)
  | .branch cond rs1 rs2 .. => ¬AlwaysTaken cond rs1 rs2
  | _ => True

def rvFilled (x : Rv.Reg → Rv.Word) : Rv.State := ⟨0, x, fun _ => 0⟩

theorem get_filled (x : Rv.Reg → Rv.Word) (r : Rv.Reg) : (rvFilled x).get r = if r = zero then 0 else x r := rfl

theorem condHolds_self (v : Rv.Word) :
    Rv.condHolds 0 v v = true ∧ Rv.condHolds 5 v v = true ∧ Rv.condHolds 7 v v = true := by
  simp [Rv.condHolds, BitVec.slt, BitVec.ult]

theorem branch_falls (cond : BitVec 3) (rs1 rs2 : Rv.Reg) :
    (∃ s : Rv.State, Rv.condHolds cond (s.get rs1) (s.get rs2) = false) ↔ ¬AlwaysTaken cond rs1 rs2 := by
  constructor
  · rintro ⟨s, hs⟩ (⟨hcond, rfl⟩ | ⟨rfl, rfl⟩ | rfl)
    · obtain ⟨h0, h5, h7⟩ := condHolds_self (s.get rs1)
      rcases hcond with rfl | rfl | rfl <;> simp_all
    · have hzero : s.get zero = 0 := if_pos rfl
      simp [Rv.condHolds, hzero, BitVec.ult] at hs
    · cases hs
  · intro hnot
    have hcases : ∀ cond : BitVec 3, Rv.condHolds cond 0 0 = false ∨ cond = 0 ∨ cond = 5 ∨ cond = 7 ∨ cond = 3 := by
      decide
    rcases hcases cond with hzero | hcond
    · refine ⟨rvFilled fun _ => 0, ?_⟩
      rwa [get_filled, get_filled, ite_self, ite_self]
    · have hthree : cond ≠ 3 := fun h => hnot (.inr (.inr h))
      have hcond : cond = 0 ∨ cond = 5 ∨ cond = 7 := by
        rcases hcond with h | h | h | h
        exacts [.inl h, .inr (.inl h), .inr (.inr h), absurd h hthree]
      have hne : rs1 ≠ rs2 := fun h => hnot (.inl ⟨hcond, h⟩)
      by_cases hrs2 : rs2 = zero
      · have hrs1 : rs1 ≠ zero := hrs2 ▸ hne
        refine ⟨rvFilled fun _ => BitVec.allOnes 64, ?_⟩
        rw [get_filled, get_filled, if_neg hrs1, if_pos hrs2]
        rcases hcond with rfl | rfl | rfl
        · rfl
        · rfl
        · exact absurd (.inr (.inl ⟨rfl, hrs2⟩)) hnot
      · refine ⟨rvFilled fun r => if r = rs2 then 1 else 0, ?_⟩
        rw [get_filled, get_filled, if_neg hrs2, if_pos rfl, if_neg hne, ite_self]
        rcases hcond with rfl | rfl | rfl <;> rfl

theorem riscv_agrees_iff {g : Guest} (hg : g ≠ .invalid) :
    Agrees (getRiscvBranchType g) (RvScan.stops g) (riscvFlow g) ↔ RiscvRight g := by
  cases g with
  | cJ imm =>
      refine (agrees_leaves (branchDirect ||| riscvJump) rfl (by decide) (by decide)).trans ?_
      simp +decide [riscvFlow, RiscvRight]
  | cBranch bnez rs1 immhi immlo =>
      refine (agrees_leaves (branchDirect ||| riscvBranch ||| branchCond) rfl (by decide) (by decide)).trans ?_
      have hne : Rv.wide rs1 ≠ zero := (by decide : ∀ r, Rv.wide r ≠ zero) rs1
      have hfalls := (branch_falls (if bnez then RvExits.bne else RvExits.beq) (Rv.wide rs1) zero).mpr (by
        cases bnez <;> simp +decide [AlwaysTaken, hne])
      simpa +decide [riscvFlow, RiscvRight] using hfalls
  | cJr rs1 =>
      rw [getRiscvBranchType]
      by_cases hra : rs1 = ra
      · rw [if_pos hra]
        refine (agrees_leaves (branchIndirect ||| riscvJump ||| branchReturn) rfl (by decide) (by decide)).trans ?_
        simp +decide [riscvFlow, RiscvRight]
      · rw [if_neg hra]
        refine (agrees_leaves (branchIndirect ||| riscvJump ||| 0) rfl (by decide) (by decide)).trans ?_
        simp +decide [riscvFlow, RiscvRight]
  | cJalr rs1 =>
      refine (agrees_leaves (branchIndirect ||| riscvJump ||| branchCall) rfl (by decide) (by decide)).trans ?_
      simp +decide [riscvFlow, RiscvRight]
  | jal rd imm =>
      refine (agrees_leaves (branchDirect ||| riscvJump ||| branchCall) rfl (by decide) (by decide)).trans ?_
      simp +decide [riscvFlow, RiscvRight]
  | jalr rd rs1 imm =>
      rw [getRiscvBranchType]
      by_cases hra : rs1 = ra
      · rw [if_pos hra]
        refine (agrees_leaves (branchIndirect ||| riscvJump ||| branchReturn) rfl (by decide) (by decide)).trans ?_
        simp +decide [riscvFlow, RiscvRight, hra]
      · rw [if_neg hra]
        refine (agrees_leaves (branchIndirect ||| riscvJump ||| branchCall) rfl (by decide) (by decide)).trans ?_
        simp +decide [riscvFlow, RiscvRight, hra]
  | branch cond rs1 rs2 immhi immlo =>
      refine (agrees_leaves (branchDirect ||| riscvBranch ||| branchCond) rfl (by decide) (by decide)).trans ?_
      simp +decide [riscvFlow, RiscvRight, branch_falls]
  | invalid => exact absurd rfl hg
  | cCopy | auipc | ecall | copy | atomic | unhandled =>
      exact iff_of_true (agrees_none Bool.false_ne_true) trivial

end Riscv

section Thumb

variable {ε : Type*}

/-- The state of the scanner and the one of the architecture outside of an IT block, or after
some of its instructions. -/
inductive ItAt : ItState → BitVec 8 → Prop
  | outside (s) (h : s.condInstAfterIt = 0) : ItAt s 0
  | inside (condition mask : BitVec 4) (k) (hmask : mask ≠ 0) (hk : k < itGetNoOfInst mask) :
      ItAt (doItIter^[k + 1] (itStart condition mask)) (T32.itAdvance^[k] (condition ++ mask))

/-- The scanner has a case for the instruction, and neither it nor the check for IT blocks
after it fails. -/
structure Translates (startScan : Word) (s : ThumbState ε) (inst : ThumbInst) (after : ThumbAfter) : Prop where
  handled : ∀ wide, inst ≠ .unhandled wide
  switch : thumbSwitch startScan s inst = some after
  checked : after.condInstAfterIt > 0 → after.itCondHandled = true

def ThumbBranches (inst : ThumbInst) (after : ThumbAfter) : Prop := after.stop ∨ ∃ imm11, inst = .b16 imm11

def thumbFlow (inst : ThumbInst) (itstate : BitVec 8) : Flow where
  encoded := match inst with
    | .b16 _ | .branch32 _ | .cbz .. | .bCond16 _ | .bCond32 _ => True
    | .bx _ rm | .specialDataProc _ _ rm _ => rm = pc
    | _ => False
  falls := match inst with
    | .bCond16 condition | .bCond32 condition => ∃ f, condHolds condition f = false
    | .cbz nonzero _ => ∃ v : Word, (v == 0) = nonzero
    | _ => ∃ s : T32.State, s.itstate = itstate ∧ T32.passed s = false
  links := match inst with
    | .bx link _ => link = true
    | .branch32 form => form = .bl ∨ form = .blArm
    | _ => False

/-- No BX pc, and no condition that always holds where the type has one. -/
def ThumbRight (inst : ThumbInst) (cond : BitVec 4) : Prop :=
  match inst with
  | .bCond16 condition | .bCond32 condition => condition.toNat < 14
  | .bx _ rm => rm ≠ pc ∧ cond ≠ 15
  | .pop reglist => reglist.getLsbD 8 → cond ≠ 15
  | .branch32 _ => cond ≠ 15
  | .ldm32 _ _ _ reglist => reglist.getLsbD 15 → cond ≠ 15
  | _ => True

theorem inside_cond : ∀ condition mask : BitVec 4, mask ≠ 0 → ∀ k < 4, k < itGetNoOfInst mask →
    (T32.itAdvance^[k] (condition ++ mask)).extractLsb' 0 4 ≠ 0 ∧
      (thumbCond (doItIter^[k + 1] (itStart condition mask)) ≠ al ∧
          thumbCond (doItIter^[k + 1] (itStart condition mask)) ≠ 15 ↔
        ((T32.itAdvance^[k] (condition ++ mask)).extractLsb' 4 4).toNat < 14) := by
  decide

/-- In an IT block the scanner knows whether an instruction is always executed, but for a
condition 15. -/
theorem it_falls {it : ItState} {itstate : BitVec 8} (h : ItAt it itstate) :
    (∃ s : T32.State, s.itstate = itstate ∧ T32.passed s = false) ↔ thumbCond it ≠ al ∧ thumbCond it ≠ 15 := by
  cases h with
  | outside hcount =>
      refine iff_of_false ?_ fun hne => hne.1 ?_
      · rintro ⟨s, hs, hpassed⟩
        rw [T32.passed_outside hs] at hpassed
        cases hpassed
      · rw [thumbCond, if_neg (by omega)]
  | inside condition mask k hmask hk =>
      have hfour : itGetNoOfInst mask ≤ 4 := (by decide : ∀ mask, itGetNoOfInst mask ≤ 4) mask
      obtain ⟨hlow, hcond⟩ := inside_cond condition mask hmask k (Nat.lt_of_lt_of_le hk hfour) hk
      rw [hcond, ← exists_not_holds]
      constructor
      · rintro ⟨s, hs, hpassed⟩
        rw [T32.passed, hs, Bool.or_eq_false_iff] at hpassed
        exact ⟨s.flags, hpassed.2⟩
      · rintro ⟨f, hf⟩
        refine ⟨⟨0, true, fun _ => 0, f, _, fun _ => 0⟩, rfl, ?_⟩
        rw [T32.passed, hf, beq_false_of_ne hlow, Bool.or_false]

theorem branches_iff {start : Word} {s : ThumbState ε} {inst : ThumbInst} {after : ThumbAfter}
    (h : Translates start s inst after) :
    ThumbBranches inst after ↔ ThumbLeaves inst ∨ ∃ imm11, inst = .b16 imm11 := by
  by_cases hb16 : ∃ imm11, inst = .b16 imm11
  · exact iff_of_true (.inr hb16) (.inr hb16)
  · rw [ThumbBranches, or_iff_left hb16, or_iff_left hb16, ← thumbType_isSome_iff]
    have hspec := @switch_spec _ (fun _ => inst) start s after h.switch
    have hverdict := @verdict_of_not_refused (fun _ => inst) start (placeOf s) (by
      rintro (⟨imm11, hinst, -⟩ | ⟨⟨wide, hinst⟩, -⟩)
      · exact hb16 ⟨imm11, hinst⟩
      · exact h.handled wide hinst)
    rw [hverdict, thumbType] at hspec
    cases hstop : after.stop with
    | true =>
        rw [if_pos hstop] at hspec
        obtain ⟨t, ht, -⟩ := Option.map_eq_some_iff.mp hspec
        exact iff_of_true rfl (Option.isSome_of_eq_some ht)
    | false =>
        rw [if_neg (by rw [hstop]; exact Bool.false_ne_true)] at hspec
        exact iff_of_false Bool.false_ne_true (by rw [Option.map_eq_none_iff.mp hspec.1]; exact Bool.false_ne_true)

theorem underIt_none (cond : BitVec 4) : underIt cond branchNone = branchNone := if_neg fun h => h.1 rfl

theorem agrees_it {cond : BitVec 4} {leaves : Prop} {flow : Flow} (base : BranchDecoder.BranchType) (h : leaves)
    (hbase : base ≠ branchNone) (hcond : ¬Has base branchCond)
    (hboth : ¬(Has base branchCall ∧ Has base branchReturn)) :
    Agrees (underIt cond base) leaves flow ↔ (Has base branchDirect ↔ flow.encoded) ∧
      (Has base branchIndirect ↔ ¬flow.encoded) ∧ (cond ≠ al ↔ flow.falls) ∧ (Has base branchCall ↔ flow.links) := by
  have hunder : underIt cond base =
      if cond ≠ al then base ||| (branchCond ||| branchCondPsr ||| branchCondIt) else base :=
    if_congr (by rw [and_iff_right hbase, and_iff_right (not_not.mp hcond)]) rfl rfl
  rw [hunder]
  exact agrees_marked base _ h hbase hcond hboth (by decide)

variable {start : Word} {s : ThumbState ε} {inst : ThumbInst} {after : ThumbAfter} {it : ItState} {itstate : BitVec 8}

theorem cond_al (h : Translates start s inst after) (hcount : s.condInstAfterIt = it.condInstAfterIt)
    (hsame : after.condInstAfterIt = s.condInstAfterIt) (hnot : after.itCondHandled = false) : thumbCond it = al := by
  have hzero : ¬it.condInstAfterIt > 0 := by
    intro hpos
    have hhandled := h.checked (by omega)
    rw [hnot] at hhandled
    cases hhandled
  exact if_neg hzero

theorem agrees_under (base : BranchDecoder.BranchType) (h : Translates start s inst after) (hit : ItAt it itstate)
    (hleaves : ThumbLeaves inst)
    (hbase : base ≠ branchNone ∧ ¬Has base branchCond ∧ ¬(Has base branchCall ∧ Has base branchReturn))
    (hfalls : (thumbFlow inst itstate).falls = ∃ s : T32.State, s.itstate = itstate ∧ T32.passed s = false) :
    Agrees (underIt (thumbCond it) base) (ThumbBranches inst after) (thumbFlow inst itstate) ↔
      (Has base branchDirect ↔ (thumbFlow inst itstate).encoded) ∧
        (Has base branchIndirect ↔ ¬(thumbFlow inst itstate).encoded) ∧ thumbCond it ≠ 15 ∧
          (Has base branchCall ↔ (thumbFlow inst itstate).links) := by
  rw [agrees_it base ((branches_iff h).mpr (.inl hleaves)) hbase.1 hbase.2.1 hbase.2.2, hfalls, it_falls hit]
  have hcond : (thumbCond it ≠ al ↔ thumbCond it ≠ al ∧ thumbCond it ≠ 15) ↔ thumbCond it ≠ 15 := by
    refine ⟨fun hiff h15 => ?_, fun hne => (and_iff_left hne).symm⟩
    rw [h15] at hiff
    exact (hiff.mp (by decide)).2 rfl
  rw [hcond]

theorem underIt_of_cond {cond : BitVec 4} {base : BranchDecoder.BranchType} (h : Has base branchCond) :
    underIt cond base = base := if_neg fun hn => h hn.2.1

theorem cbz_falls_thumb (nonzero : Bool) : ∃ v : Word, (v == 0) = nonzero := by
  cases nonzero
  exacts [⟨1, rfl⟩, ⟨0, rfl⟩]

theorem agrees_jump (base : BranchDecoder.BranchType) (q : Prop) [Decidable q] (h : Translates start s inst after)
    (hit : ItAt it itstate) (hleaves : ThumbLeaves inst)
    (hbase : base = branchIndirect ∨ base = branchIndirect ||| branchInterworking)
    (hfalls : (thumbFlow inst itstate).falls = ∃ s : T32.State, s.itstate = itstate ∧ T32.passed s = false)
    (hlinks : (thumbFlow inst itstate).links = False) :
    Agrees (underIt (thumbCond it) (base ||| if q then branchReturn else 0)) (ThumbBranches inst after)
        (thumbFlow inst itstate) ↔ ¬(thumbFlow inst itstate).encoded ∧ thumbCond it ≠ 15 := by
  have hparts : ∀ v : BranchDecoder.BranchType, v = 0 ∨ v = branchReturn →
      (base ||| v ≠ branchNone ∧ ¬Has (base ||| v) branchCond ∧
        ¬(Has (base ||| v) branchCall ∧ Has (base ||| v) branchReturn)) ∧
      ¬Has (base ||| v) branchDirect ∧ Has (base ||| v) branchIndirect ∧ ¬Has (base ||| v) branchCall := by
    rcases hbase with rfl | rfl <;> rintro v (rfl | rfl) <;> decide
  obtain ⟨hunder, hdirect, hindirect, hcall⟩ := hparts (if q then branchReturn else 0) (by split <;> simp)
  rw [agrees_under _ h hit hleaves hunder hfalls, hlinks]
  simp only [hdirect, hindirect, hcall, false_iff, true_iff, iff_self, and_true]
  exact ⟨fun hp => ⟨hp.1, hp.2.2⟩, fun hp => ⟨hp.1, hp.1, hp.2⟩⟩

theorem agrees_stays (h : Translates start s inst after) (hleaves : ¬ThumbLeaves inst)
    (hb16 : ∀ imm11, inst ≠ .b16 imm11) :
    Agrees (underIt (thumbCond it) branchNone) (ThumbBranches inst after) (thumbFlow inst itstate) := by
  rw [underIt_none]
  refine agrees_none fun hbranch => ?_
  rcases (branches_iff h).mp hbranch with hp | ⟨imm11, hinst⟩
  · exact hleaves hp
  · exact hb16 imm11 hinst

theorem t32_agrees_iff (h : Translates start s inst after) (hcount : s.condInstAfterIt = it.condInstAfterIt)
    (hit : ItAt it itstate) :
    Agrees (getThumbBranchType inst (thumbCond it)) (ThumbBranches inst after) (thumbFlow inst itstate) ↔
      ThumbRight inst (thumbCond it) := by
  have hswitch := h.switch
  have h15 : al ≠ 15 := by decide
  cases inst with
  | specialDataProc op dn rm rdn =>
      rw [getThumbBranchType]
      by_cases hrd : specialRdn dn rdn = pc
      · simp only [thumbSwitch, hrd, ne_eq, not_true_eq_false, false_and, if_false, if_true] at hswitch
        split_ifs at hswitch with hmov
        cases hswitch
        obtain ⟨hrm, -, rfl⟩ := hmov
        rw [if_pos ⟨rfl, hrd⟩]
        refine (agrees_jump branchIndirect (rm = lr) h hit hrd (.inl rfl) rfl rfl).trans ?_
        exact iff_of_true ⟨hrm, cond_al h hcount rfl rfl ▸ h15⟩ trivial
      · rw [if_neg fun hmov => hrd hmov.2]
        exact iff_of_true (agrees_stays h hrd fun _ => ThumbInst.noConfusion) trivial
  | bx link rm =>
      rw [getThumbBranchType]
      cases link with
      | true =>
          have hrm : rm ≠ pc := by
            rintro rfl
            simp [thumbSwitch] at hswitch
          refine (agrees_under (branchIndirect ||| branchCall ||| branchInterworking) h hit trivial (by decide)
            rfl).trans ?_
          simp +decide [thumbFlow, ThumbRight, hrm]
      | false =>
          exact agrees_jump (branchIndirect ||| branchInterworking) (rm = lr) h hit trivial (.inr rfl) rfl
            (by simp [thumbFlow])
  | cbz nonzero rn =>
      rw [getThumbBranchType, underIt_of_cond (by decide)]
      refine (agrees_leaves _ ((branches_iff h).mpr (.inl trivial)) (by decide) (by decide)).trans ?_
      simpa +decide [thumbFlow, ThumbRight] using cbz_falls_thumb nonzero
  | bCond16 condition | bCond32 condition =>
      rw [getThumbBranchType, underIt_of_cond (by decide)]
      refine (agrees_leaves _ ((branches_iff h).mpr (.inl trivial)) (by decide) (by decide)).trans ?_
      simp +decide [thumbFlow, ThumbRight, exists_not_holds]
  | pop reglist =>
      rw [getThumbBranchType]
      by_cases hpc : reglist.getLsbD 8
      · rw [if_pos hpc]
        refine (agrees_under _ h hit hpc (by decide) rfl).trans ?_
        simp +decide [thumbFlow, ThumbRight, hpc]
      · rw [if_neg hpc]
        exact iff_of_true (agrees_stays h hpc fun _ => ThumbInst.noConfusion) fun hp => absurd hp hpc
  | ldm32 full writeback rn reglist =>
      rw [getThumbBranchType]
      by_cases hpc : reglist.getLsbD 15
      · rw [if_pos hpc]
        refine (agrees_jump (branchIndirect ||| branchInterworking) (rn = sp) h hit hpc (.inr rfl) rfl rfl).trans ?_
        simp [thumbFlow, ThumbRight, hpc]
      · rw [if_neg hpc]
        exact iff_of_true (agrees_stays h hpc fun _ => ThumbInst.noConfusion) fun hp => absurd hp hpc
  | branch32 form =>
      cases form with
      | b =>
          refine (agrees_under branchDirect h hit trivial (by decide) rfl).trans ?_
          simp +decide [thumbFlow, ThumbRight]
      | bl =>
          refine (agrees_under (branchDirect ||| branchCall) h hit trivial (by decide) rfl).trans ?_
          simp +decide [thumbFlow, ThumbRight]
      | blArm =>
          refine (agrees_under (branchDirect ||| branchCall ||| branchInterworking) h hit trivial (by decide)
            rfl).trans ?_
          simp +decide [thumbFlow, ThumbRight]
  | tb half rn rm =>
      simp only [thumbSwitch] at hswitch
      split_ifs at hswitch
      cases hswitch
      rw [getThumbBranchType]
      refine (agrees_under (branchIndirect ||| branchTable) h hit trivial (by decide) rfl).trans ?_
      simp +decide [thumbFlow, ThumbRight, cond_al h hcount rfl rfl]
  | b16 imm11 =>
      have hal : thumbCond it = al := by
        simp only [thumbSwitch] at hswitch
        split_ifs at hswitch <;> cases hswitch <;> exact cond_al h hcount rfl rfl
      rw [getThumbBranchType]
      refine (agrees_it branchDirect ((branches_iff h).mpr (.inr ⟨imm11, rfl⟩)) (by decide) (by decide)
        (by decide)).trans ?_
      have hfalls := it_falls hit
      rw [hal] at hfalls ⊢
      simpa +decide [thumbFlow, ThumbRight] using hfalls
  | ldri32 form unprivileged rt rn imm8 preIndex upwards writeback =>
      rw [getThumbBranchType]
      simp only [thumbSwitch, ne_eq] at hswitch
      split_ifs at hswitch with hbase hrt hload
      · cases hswitch
        have hpc : form = .word ∧ unprivileged = false ∧ rt = pc := ⟨hload.1, hload.2.1, hrt⟩
        rw [if_pos hpc]
        refine (agrees_jump (branchIndirect ||| branchInterworking) (rn = sp) h hit ⟨.inl hpc.1, hpc.2⟩ (.inr rfl)
          rfl rfl).trans ?_
        exact iff_of_true ⟨id, cond_al h hcount rfl rfl ▸ h15⟩ trivial
      · rw [if_neg fun hpc => hrt hpc.2.2]
        exact iff_of_true (agrees_stays h (fun hpc => hrt hpc.2.2) fun _ => ThumbInst.noConfusion) trivial
  | ldr32 form rn rt rm =>
      rw [getThumbBranchType]
      simp only [thumbSwitch, ne_eq] at hswitch
      split_ifs at hswitch with hbase hrt hload
      · cases hswitch
        have hpc : form = .word ∧ rt = pc := ⟨hload.1, hrt⟩
        rw [if_pos hpc]
        refine (agrees_jump (branchIndirect ||| branchInterworking) (rn = sp) h hit ⟨.inl hpc.1, hpc.2⟩ (.inr rfl)
          rfl rfl).trans ?_
        exact iff_of_true ⟨id, cond_al h hcount rfl rfl ▸ h15⟩ trivial
      · rw [if_neg fun hpc => hrt hpc.2]
        exact iff_of_true (agrees_stays h (fun hpc => hrt hpc.2) fun _ => ThumbInst.noConfusion) trivial
  | it | other => exact iff_of_true (agrees_stays h id fun _ => ThumbInst.noConfusion) trivial
  | unhandled wide => exact absurd rfl (h.handled wide)

end Thumb

section Arm

/-- The scanner has a case for the instruction, which does not fail. -/
structure ArmTranslates (startScan : Word) (p : Place) (inst : ArmInst) (after : ArmAfter) : Prop where
  known : inst = .udf → startScan = p.readAddr
  switch : armSwitch startScan p inst = some after

def ArmBranches (inst : ArmInst) (after : ArmAfter) : Prop :=
  after.stop ∨ ∃ cond link offset, inst = .b cond link offset

def Constant (op : DataProcOp) (immediate : Bool) (rn : T32.Reg) (operand2 : BitVec 12) : Prop :=
  (op = .mov ∨ rn = pc ∧ op ≠ .adc ∧ op ≠ .sbc ∧ op ≠ .rsc) ∧
    (immediate = true ∨ operand2.setWidth 4 = pc ∧ operand2.getLsbD 4 = false ∧ operand2 >>> 4 ≠ 6)

def armFlow (inst : ArmInst) : Flow where
  encoded := match inst with
    | .b .. | .blxi .. => True
    | .dataProc op _ immediate _ _ rn operand2 => Constant op immediate rn operand2
    | _ => False
  falls := ∃ f, condHolds inst.conditionCode f = false
  links := match inst with
    | .b _ link _ | .bx _ link _ => link = true
    | .blxi .. => True
    | _ => False

/-- Nothing writes a constant to pc. -/
def ArmRight : ArmInst → Prop
  | .dataProc op _ immediate _ rd rn operand2 => rd = pc → ¬Constant op immediate rn operand2
  | _ => True

variable {start : Word} {p : Place} {inst : ArmInst} {after : ArmAfter}

theorem underCond_none (cond : BitVec 4) : underCond cond branchNone = branchNone := if_neg fun h => h.1 rfl

theorem arm_falls (inst : ArmInst) : armCond inst ≠ al ↔ ∃ f, condHolds inst.conditionCode f = false := by
  rw [exists_not_holds, armCond]
  generalize inst.conditionCode = cond
  revert cond
  decide

theorem agrees_cond (base : BranchDecoder.BranchType) (h : ArmBranches inst after)
    (hbase : base ≠ branchNone ∧ ¬Has base branchCond ∧ ¬(Has base branchCall ∧ Has base branchReturn)) :
    Agrees (underCond (armCond inst) base) (ArmBranches inst after) (armFlow inst) ↔
      (Has base branchDirect ↔ (armFlow inst).encoded) ∧ (Has base branchIndirect ↔ ¬(armFlow inst).encoded) ∧
        (Has base branchCall ↔ (armFlow inst).links) := by
  have hunder : underCond (armCond inst) base =
      if armCond inst ≠ al then base ||| (branchCond ||| branchCondPsr) else base :=
    if_congr (and_iff_right hbase.1) rfl rfl
  have hfalls : armCond inst ≠ al ↔ (armFlow inst).falls := arm_falls inst
  rw [hunder, agrees_marked base _ h hbase.1 hbase.2.1 hbase.2.2 (by decide), and_iff_right hfalls]

theorem agrees_write (q : Prop) [Decidable q] (h : ArmBranches inst after) (hlinks : (armFlow inst).links = False) :
    Agrees (underCond (armCond inst) (branchIndirect ||| branchInterworking ||| if q then branchReturn else 0))
        (ArmBranches inst after) (armFlow inst) ↔ ¬(armFlow inst).encoded := by
  split
  · refine (agrees_cond (branchIndirect ||| branchInterworking ||| branchReturn) h (by decide)).trans ?_
    simp +decide [hlinks]
  · refine (agrees_cond (branchIndirect ||| branchInterworking ||| 0) h (by decide)).trans ?_
    simp +decide [hlinks]

theorem arm_stays (hstop : after.stop = false) (hb : ∀ cond link offset, inst ≠ .b cond link offset) :
    Agrees (underCond (armCond inst) branchNone) (ArmBranches inst after) (armFlow inst) := by
  rw [underCond_none]
  refine agrees_none ?_
  rintro (hleaves | ⟨cond, link, offset, hinst⟩)
  · rw [hstop] at hleaves
    cases hleaves
  · exact hb cond link offset hinst

theorem a32_agrees_iff (h : ArmTranslates start p inst after) :
    Agrees (getArmBranchType inst) (ArmBranches inst after) (armFlow inst) ↔ ArmRight inst := by
  have hswitch := h.switch
  cases inst with
  | dataProc op cond immediate setFlags rd rn operand2 =>
      rw [getArmBranchType]
      simp only [armSwitch, ne_eq] at hswitch
      split_ifs at hswitch with hplain hrd hmov hboth <;> cases hswitch
      · rw [if_neg hplain.1]
        exact iff_of_true (arm_stays rfl fun _ _ _ => ArmInst.noConfusion) fun hpc => absurd hpc hplain.1
      · rw [if_pos hrd]
        refine (agrees_cond (branchIndirect ||| branchInterworking) (.inl rfl) (by decide)).trans ?_
        simp +decide [armFlow, ArmRight, hrd]
      · rw [if_neg hrd]
        exact iff_of_true (arm_stays rfl fun _ _ _ => ArmInst.noConfusion) fun hpc => absurd hpc hrd
  | b cond link offset =>
      have hbranch : ArmBranches (.b cond link offset) after := .inr ⟨cond, link, offset, rfl⟩
      cases link with
      | true =>
          refine (agrees_cond (branchDirect ||| branchCall) hbranch (by decide)).trans ?_
          simp +decide [armFlow, ArmRight]
      | false =>
          refine (agrees_cond branchDirect hbranch (by decide)).trans ?_
          simp +decide [armFlow, ArmRight]
  | bx cond link rn =>
      simp only [armSwitch] at hswitch
      split_ifs at hswitch
      cases hswitch
      cases link with
      | true =>
          refine (agrees_cond (branchIndirect ||| branchInterworking ||| branchCall) (.inl rfl) (by decide)).trans ?_
          simp +decide [armFlow, ArmRight]
      | false => exact (agrees_write (rn = lr) (.inl rfl) (by simp [armFlow])).trans (iff_of_true id trivial)
  | blxi hbit offset =>
      cases hswitch
      refine (agrees_cond (branchDirect ||| branchCall ||| branchInterworking) (.inl rfl) (by decide)).trans ?_
      simp +decide [armFlow, ArmRight]
  | ldm cond rn registers prepostindex updown writeback psr =>
      rw [getArmBranchType]
      simp only [armSwitch] at hswitch
      split_ifs at hswitch with hbase hpc <;> cases hswitch
      · rw [hpc, if_neg Bool.false_ne_true]
        exact iff_of_true (arm_stays rfl fun _ _ _ => ArmInst.noConfusion) trivial
      all_goals
        rw [if_pos (Bool.not_eq_false _ ▸ hpc)]
        exact (agrees_write (rn = sp) (.inl rfl) rfl).trans (iff_of_true id trivial)
  | ldr cond byte registerOffset rd rn offset prepostindex updown writeback =>
      rw [getArmBranchType]
      simp only [armSwitch] at hswitch
      split_ifs at hswitch with hindex hrd hbyte <;> cases hswitch
      case neg.refl =>
        rw [if_neg fun hload => hrd hload.2]
        exact iff_of_true (arm_stays rfl fun _ _ _ => ArmInst.noConfusion) trivial
      all_goals
        rw [if_pos ⟨Bool.not_eq_true _ ▸ hbyte, hrd⟩]
        exact (agrees_write (rn = sp) (.inl rfl) rfl).trans (iff_of_true id trivial)
  | udf =>
      rw [armSwitch, if_pos (h.known rfl)] at hswitch
      cases hswitch
      exact iff_of_true (arm_stays rfl fun _ _ _ => ArmInst.noConfusion) trivial
  | other accepted =>
      simp only [armSwitch] at hswitch
      split_ifs at hswitch
      cases hswitch
      exact iff_of_true (arm_stays rfl fun _ _ _ => ArmInst.noConfusion) trivial

end Arm

/-- On every instruction that a scanner translates, the type of its branch agrees with what
the scanner makes of it just when the instruction is none of those that are misread. -/
theorem branch_type_agrees_iff (ε : Type*) :
    (∀ (g : A64Scan.Guest) (first : Bool), (g = .invalid → first = true) →
      (Agrees (getA64BranchType g) (A64Scan.stops g first) (a64Flow g) ↔ A64Right g)) ∧
    (∀ g : RvScan.Guest, g ≠ .invalid →
      (Agrees (getRiscvBranchType g) (RvScan.stops g) (riscvFlow g) ↔ RiscvRight g)) ∧
    (∀ (start : Word) (s : ThumbState ε) (inst : ThumbInst) (after : ThumbAfter) (it : ItState) (itstate : BitVec 8),
      Translates start s inst after → s.condInstAfterIt = it.condInstAfterIt → ItAt it itstate →
        (Agrees (getThumbBranchType inst (thumbCond it)) (ThumbBranches inst after) (thumbFlow inst itstate) ↔
          ThumbRight inst (thumbCond it))) ∧
    ∀ (start : Word) (p : Place) (inst : ArmInst) (after : ArmAfter), ArmTranslates start p inst after →
      (Agrees (getArmBranchType inst) (ArmBranches inst after) (armFlow inst) ↔ ArmRight inst) :=
  ⟨fun _ _ => a64_agrees_iff, fun _ => riscv_agrees_iff, fun _ _ _ _ _ _ => t32_agrees_iff,
    fun _ _ _ _ => a32_agrees_iff⟩

/-- Returns, and in T32 a BL that is the only instruction of an IT block. -/
theorem branch_type_agrees_returns :
    Agrees (getA64BranchType (.indirect .ret 30)) (A64Scan.stops (.indirect .ret 30) false)
        (a64Flow (.indirect .ret 30)) ∧
      Agrees (getRiscvBranchType (.cJr Rv.ra)) (RvScan.stops (.cJr Rv.ra)) (riscvFlow (.cJr Rv.ra)) ∧
      Agrees (getThumbBranchType (.branch32 .bl) 0)
        (ThumbBranches (.branch32 .bl) ⟨0x10002, 0, 1, true, false, some .uncondImmThumb, true⟩)
        (thumbFlow (.branch32 .bl) 8) ∧
      Agrees (getArmBranchType (.bx 1 false lr))
        (ArmBranches (.bx 1 false lr) ⟨⟨0x10000, 0⟩, some .uncondRegArm, true⟩) (armFlow (.bx 1 false lr)) := by
  obtain ⟨ha64, hriscv, hthumb, harm⟩ := branch_type_agrees_iff Unit
  have h30 : (30 : A64.Reg) ≠ A64.xzr := by decide
  have hra : Rv.ra ≠ Rv.zero := by decide
  have hcond : thumbCond (doItIter^[1] (itStart 0 8)) ≠ 15 := by decide
  have hbl : Translates 0x10000 ⟨0x10002, 0, 1, false, ()⟩ (.branch32 .bl) _ :=
    ⟨fun _ => ThumbInst.noConfusion, rfl, fun _ => rfl⟩
  have hbx : ArmTranslates 0x10000 ⟨0x10000, 0⟩ (.bx 1 false lr) _ := ⟨ArmInst.noConfusion, rfl⟩
  exact ⟨(ha64 _ false (by decide)).mpr h30, (hriscv _ (by decide)).mpr hra,
    (hthumb _ _ _ _ _ _ hbl rfl (.inside 0 8 0 (by decide) (by decide))).mpr hcond,
    (harm _ _ _ _ hbx).mpr trivial⟩

/-- A jump that keeps no return address, directly and through a register, is taken for a
call; a call through ra is taken for a return. -/
theorem jumps_misread :
    ¬Agrees (getRiscvBranchType (.jal Rv.zero 4)) (RvScan.stops (.jal Rv.zero 4)) (riscvFlow (.jal Rv.zero 4)) ∧
      ¬Agrees (getRiscvBranchType (.jalr Rv.zero 6 0)) (RvScan.stops (.jalr Rv.zero 6 0))
        (riscvFlow (.jalr Rv.zero 6 0)) ∧
      ¬Agrees (getRiscvBranchType (.jalr Rv.ra Rv.ra 0)) (RvScan.stops (.jalr Rv.ra Rv.ra 0))
        (riscvFlow (.jalr Rv.ra Rv.ra 0)) := by
  have hzero : ¬IsLink Rv.zero := by
    rintro (h | h) <;> exact absurd h (by decide)
  refine ⟨fun h => ?_, fun h => ?_, fun h => ?_⟩
  · exact hzero (h.call_iff.mp (by decide)).2
  · exact hzero (h.call_iff.mp (by decide)).2
  · exact absurd (h.call_iff.mpr ⟨rfl, .inl rfl⟩) (by decide)

end Mambo.BranchDecoderExact
