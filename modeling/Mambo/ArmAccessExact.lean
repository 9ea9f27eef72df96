import Mambo.ArmAccessAddr

namespace Mambo.ArmAccessExact

open ArmAccessAddr ArmAccessHelpers ArmAccessModes ArmLoadStore ArmShifts
open T32 (Word Reg State sp pc)

variable {readAddress : Word} {count : Int} {reg : Reg} {m : Mode}

def armPcBase (readAddress : Word) : Word := readAddress + 8

def thumbPcBase (readAddress : Word) : Word := (readAddress + 4) &&& ~~~3

def ArmRight (readAddress : Word) (count : Int) (inst : ArmInst) (reg : Reg) (m : Mode) : Prop :=
  Right arm runArm count reg (armPcBase readAddress) (armCalcLdStAddr readAddress count inst reg) m

def ThumbRight (readAddress : Word) (count : Int) (inst : ThumbInst) (reg : Reg) (m : Mode) : Prop :=
  Right thumb T32Plugin.execAll count reg (thumbPcBase readAddress) (thumbCalcLdStAddr readAddress count inst reg) m

def Shifts (shiftType : BitVec 2) (imm5 : BitVec 5) (d e : Word) : Prop :=
  if d = 0 then e = 0 else shiftType = 0 ∧ e = d <<< imm5.toNat ∨ shiftType = 1 ∧ imm5 = 0 ∧ e = 0

/-- An A32 mode whose address is computed right: the counter is no base, sums are small enough, and an index that is
the stack pointer, or is subtracted and r0, has a shift that hides the slip. -/
def ArmExact (readAddress : Word) (count : Int) (reg : Reg) : Mode → Prop
  | .offset rn d => rn ≠ pc ∧ Fits 0xFFFF (d + applied count rn)
  | .index rn add rm shiftType imm5 =>
      let pushed := BitVec.ofInt 32 count * 4
      if rn = pc then
        add = false ∧ rm = sp ∧ reg ≠ sp ∧
          Shifts shiftType imm5 pushed (armPcBase readAddress - readAddrToPc readAddress)
      else Small (applied count rn) ∧
        if add then rm ≠ sp
        else if rm = 0 then Symmetric shiftType imm5
        else if rm = sp then Shifts shiftType imm5 pushed 0 else True

/-- A decrement by no more than one word is counted right. -/
def Counted : ThumbInst → Prop
  | .vfpMultiple _ _ _ upwards _ imm8 => upwards = true ∨ imm8 ≤ 1
  | _ => True

def ThumbExact (count : Int) (inst : ThumbInst) : Mode → Prop
  | .offset rn d => Counted inst ∧ (rn = pc ∨ Fits 0xFFF (d + applied count rn))
  | .index rn _ rm _ _ => Small (applied count rn) ∧ rm ≠ sp

theorem low_add_high (x : Word) : (x &&& 3) + (x &&& 0xFFFFFFFC) = x := by
  have hzero : (x &&& 3) &&& (x &&& 0xFFFFFFFC) = 0 := by
    rw [BitVec.and_assoc, ← BitVec.and_assoc 3, BitVec.and_comm 3, BitVec.and_assoc x 3,
      show (3 : Word) &&& 0xFFFFFFFC = 0#32 by decide, BitVec.and_zero, BitVec.and_zero]
    rfl
  rw [BitVec.add_eq_or_of_and_eq_zero _ _ hzero, ← BitVec.and_or_distrib_left,
    show (3 : Word) ||| 0xFFFFFFFC = -1 by decide]
  exact BitVec.and_allOnes

theorem armPcBase_ne (readAddress : Word) : readAddrToPc readAddress ≠ armPcBase readAddress := by
  intro h
  have hsum := low_add_high (readAddress + 4)
  rw [← readAddrToPc, h, armPcBase, show readAddress + 8 = 4 + (readAddress + 4) by rw [add_left_comm]; rfl,
    ← add_assoc, add_eq_right] at hsum
  have hlow : ((readAddress + 4) &&& 3).toNat ≤ 3 := Nat.and_le_right
  have hnat := congrArg BitVec.toNat (eq_neg_of_add_eq_zero_left hsum)
  rw [show (-4 : Word).toNat = 2 ^ 32 - 4 from rfl] at hnat
  omega

theorem thumbPcBase_eq (readAddress : Word) : readAddrToPc readAddress = thumbPcBase readAddress := rfl

theorem armMode_index {inst : ArmInst} {rn rm : Reg} {add : Bool} {shiftType : BitVec 2} {imm5 : BitVec 5}
    (hmode : armMode inst = some (.index rn add rm shiftType imm5)) : rm ≠ pc := by
  have hindex {rn' rm' : Reg} {add' : Bool} {shiftType' : BitVec 2} {imm5' : BitVec 5}
      (h : indexMode rn' add' rm' shiftType' imm5' = some (.index rn add rm shiftType imm5)) : rm ≠ pc := by
    obtain ⟨heq, hne⟩ := index_eq h
    cases heq
    exact hne
  cases inst with
  | single i registerOffset rn operand2 p u =>
    cases p
    · cases hmode
    · cases registerOffset
      · cases hmode
      · exact hindex hmode
  | half i immediate rn rmImm4l imm4h p u =>
    cases p
    · cases hmode
    · cases immediate
      · exact hindex hmode
      · cases hmode
  | vfpMultiple load double p u rn imm8 =>
    rw [armMode] at hmode
    split_ifs at hmode
    · cases hmode
    · cases base_eq hmode
  | multiple | exclusive | neonMultiple | neonOne | neonAll => cases base_eq hmode
  | _ => cases hmode

theorem thumbMode_index {inst : ThumbInst} {rn rm : Reg} {add : Bool} {shiftType : BitVec 2} {imm5 : BitVec 5}
    (hmode : thumbMode inst = some (.index rn add rm shiftType imm5)) :
    rm ≠ pc ∧ add = true ∧ ∀ m, coded inst m = m := by
  have hindex {rn' rm' : Reg} {shiftType' : BitVec 2} {imm5' : BitVec 5}
      (h : indexMode rn' true rm' shiftType' imm5' = some (.index rn add rm shiftType imm5)) :
      rm ≠ pc ∧ add = true := by
    obtain ⟨heq, hne⟩ := index_eq h
    cases heq
    exact ⟨hne, rfl⟩
  cases inst with
  | reg16 => exact ⟨(hindex hmode).1, (hindex hmode).2, fun m => rfl⟩
  | reg32 => exact ⟨(hindex hmode).1, (hindex hmode).2, fun m => rfl⟩
  | multiple32 i => cases i <;> cases base_eq hmode
  | vfpMultiple load double p upwards rn imm8 =>
    rw [thumbMode] at hmode
    split_ifs at hmode <;> cases base_eq hmode
  | exclusive | exclusive32 | neonMultiple | neonOne | neonAll => cases base_eq hmode
  | _ => cases hmode

theorem fits_iff {bound : Int} {rn : Reg} {d : Word} (hbound : 0 ≤ bound) :
    (if Fits bound (d + applied count rn) then d = d else reg = rn ∧ d + applied count rn = 0) ↔
      Fits bound (d + applied count rn) := by
  split
  next hfits => exact iff_of_true rfl hfits
  next hfits =>
    refine iff_of_false (fun h => hfits ?_) hfits
    rw [h.2, Fits]
    exact ⟨neg_nonpos.mpr hbound, hbound⟩

theorem arm_right_iff {inst : ArmInst} (hmode : armMode inst = some m) :
    ArmRight readAddress count inst reg m ↔ reg ≠ pc ∧ ArmExact readAddress count reg m := by
  by_cases hreg : reg = pc
  · subst hreg
    exact iff_of_false not_right_pc fun h => h.1 rfl
  rw [ArmRight, armCalcLdStAddr_eq hmode, and_iff_right hreg]
  cases m with
  | offset rn d =>
    rw [offset_right_iff arm_lawful hreg, ArmExact]
    by_cases hrn : rn = pc
    · rw [if_pos hrn, add_left_inj]
      exact iff_of_false (armPcBase_ne readAddress) fun h => h.1 hrn
    · rw [if_neg hrn, and_iff_right hrn]
      exact fits_iff (by decide)
  | index rn add rm shiftType imm5 =>
    have hrm := armMode_index hmode
    rw [ArmExact]
    by_cases hrn : rn = pc
    · subst hrn
      rw [literal_right_iff arm_lawful hreg hrm (.inr (armPcBase_ne readAddress)), if_pos rfl, moves_iff]
      cases add
      · simp only [Bool.false_eq_true, if_false, true_and]
        rfl
      · simp only [if_true, armPcBase_ne, and_false, Bool.true_eq_false, false_and]
    · rw [index_right_iff arm_lawful hreg hrm hrn, if_neg hrn, moves_iff]
      rfl

/-- What the code adds is the offset, unless bits are counted. -/
theorem coded_offset {inst : ThumbInst} {rn : Reg} {d : Word} (hmode : thumbMode inst = some (.offset rn d)) :
    ∃ e, coded inst (.offset rn d) = .offset rn e ∧ (e = d ↔ Counted inst) ∧ Fits 0xFFF (e - d) := by
  have hsame : (d = d ↔ True) ∧ Fits 0xFFF (d - d) := by
    rw [sub_self]
    exact ⟨⟨fun _ => trivial, fun _ => rfl⟩, by decide, by decide⟩
  cases inst with
  | vfpMultiple load double p upwards rn' imm8 =>
    cases upwards with
    | true => exact ⟨d, rfl, iff_of_true rfl (.inl rfl), hsame.2⟩
    | false =>
      have hall : ∀ imm8 : BitVec 8, (-ArmLoadStore.count imm8 * 4 = displacement false (4 * imm8.toNat) ↔ imm8 ≤ 1) ∧
          Fits 0xFFF (-ArmLoadStore.count imm8 * 4 - displacement false (4 * imm8.toNat)) := by
        with_unfolding_all decide
      rw [thumbMode] at hmode
      split at hmode
      · cases hmode
      · cases base_eq hmode
        exact ⟨_, rfl, (hall imm8).1.trans (by simp [Counted]), (hall imm8).2⟩
  | _ => exact ⟨d, rfl, hsame⟩

theorem thumb_right_iff {inst : ThumbInst} (hmode : thumbMode inst = some m) :
    ThumbRight readAddress count inst reg m ↔ reg ≠ pc ∧ ThumbExact count inst m := by
  by_cases hreg : reg = pc
  · subst hreg
    exact iff_of_false not_right_pc fun h => h.1 rfl
  rw [ThumbRight, thumbCalcLdStAddr_eq hmode, and_iff_right hreg, ← thumbPcBase_eq]
  cases m with
  | offset rn d =>
    obtain ⟨e, hcoded, hcounted, hnear⟩ := coded_offset hmode
    rw [hcoded, offset_right_iff thumb_lawful hreg, ThumbExact, ← hcounted, add_right_inj]
    by_cases heq : e = d
    · subst heq
      rw [fits_iff (by decide), and_iff_right rfl]
      split
      next hrn => exact iff_of_true rfl (.inl hrn)
      next hrn => exact (or_iff_right hrn).symm
    · refine iff_of_false (fun h => ?_) fun h => heq h.1
      split_ifs at h with hrn hfits
      · exact heq h
      · exact heq h
      · rw [eq_neg_of_add_eq_zero_right h.2, ← sub_eq_add_neg] at hfits
        exact hfits hnear
  | index rn add rm shiftType imm5 =>
    obtain ⟨hrm, rfl, hcoded⟩ := thumbMode_index hmode
    rw [hcoded, ThumbExact]
    by_cases hrn : rn = pc
    · subst hrn
      have hsmall : Small (applied count pc) := by
        rw [applied, if_neg (by decide)]
        exact ⟨by decide, by decide⟩
      rw [literal_right_iff thumb_lawful hreg hrm (.inl rfl), if_pos rfl, and_iff_left rfl, and_iff_right hsmall]
    · rw [index_right_iff thumb_lawful hreg hrm hrn, if_pos rfl]

def base : Mode → Reg
  | .offset rn _ | .index rn .. => rn

theorem address_base {pcBase pcBase' : Word} (hbase : base m ≠ pc) (c : Bool) (r : Reg → Word) :
    m.address pcBase c r = m.address pcBase' c r := by
  cases m with
  | offset rn d => rw [Mode.address, Mode.address, if_neg (show rn ≠ pc from hbase), if_neg (show rn ≠ pc from hbase)]
  | index rn add rm shiftType imm5 =>
    rw [Mode.address, Mode.address, if_neg (show rn ≠ pc from hbase), if_neg (show rn ≠ pc from hbase)]

/-- From the same state, the codes for an A32 and a T32 instruction leave the same value. -/
def SameAddress (readAddress readAddress' : Word) (count : Int) (i : ArmInst) (j : ThumbInst) (reg : Reg) : Prop :=
  ∃ is js, armCalcLdStAddr readAddress count i reg = some (.ok is) ∧
    thumbCalcLdStAddr readAddress' count j reg = some (.ok js) ∧
    ∀ s, ∃ t u, runArm is s = some t ∧ T32Plugin.execAll js s = some u ∧ held t reg = held u reg

theorem same_of_right {readAddress' : Word} {i : ArmInst} {j : ThumbInst} (hbase : base m ≠ pc)
    (hi : ArmRight readAddress count i reg m) (hj : ThumbRight readAddress' count j reg m) :
    SameAddress readAddress readAddress' count i j reg := by
  obtain ⟨is, his, hright⟩ := hi
  obtain ⟨js, hjs, hright'⟩ := hj
  refine ⟨is, js, his, hjs, fun s => ?_⟩
  obtain ⟨t, ht, -, hheld⟩ := hright s
  obtain ⟨u, hu, -, hheld'⟩ := hright' s
  exact ⟨t, u, ht, hu, by rw [hheld, hheld', address_base hbase]⟩

/-- For every instruction of the two sets: when the address is right, and that right addresses of one mode agree. -/
theorem address_right_iff_exact {readAddress' : Word} {i : ArmInst} {j : ThumbInst} {n : Mode} (hi : armMode i = some m)
    (hj : thumbMode j = some n) :
    (ArmRight readAddress count i reg m ↔ reg ≠ pc ∧ ArmExact readAddress count reg m) ∧
      (ThumbRight readAddress' count j reg n ↔ reg ≠ pc ∧ ThumbExact count j n) ∧
      (m = n → base m ≠ pc → ArmRight readAddress count i reg m → ThumbRight readAddress' count j reg n →
        SameAddress readAddress readAddress' count i j reg) := by
  refine ⟨arm_right_iff hi, thumb_right_iff hj, ?_⟩
  rintro rfl hbase harm hthumb
  exact same_of_right hbase harm hthumb

/-- LDR R1, [R2, #4] in both sets, with three registers pushed. -/
theorem load_right : (ArmRight 0x10000 3 (.single .ldr false 2 4 true true) 1 (.offset 2 4) ↔
      (1 : Reg) ≠ pc ∧ ArmExact 0x10000 3 1 (.offset 2 4)) ∧
    (ThumbRight 0x10002 3 (.imm12 (.plain .ldr) 2 4) 1 (.offset 2 4) ↔
      (1 : Reg) ≠ pc ∧ ThumbExact 3 (.imm12 (.plain .ldr) 2 4) (.offset 2 4)) ∧
    (Mode.offset 2 4 = .offset 2 4 → base (.offset 2 4) ≠ pc →
      ArmRight 0x10000 3 (.single .ldr false 2 4 true true) 1 (.offset 2 4) →
      ThumbRight 0x10002 3 (.imm12 (.plain .ldr) 2 4) 1 (.offset 2 4) →
      SameAddress 0x10000 0x10002 3 (.single .ldr false 2 4 true true) (.imm12 (.plain .ldr) 2 4) 1) :=
  address_right_iff_exact rfl rfl

/-- LDR R0, [PC] in A32: the address is a word too low. -/
theorem literal_wrong : ¬∀ (i : ArmInst) (m : Mode), armMode i = some m →
    ∀ (readAddress : Word) (count : Int) (reg : Reg), reg ≠ pc → ArmRight readAddress count i reg m := by
  intro hall
  have hright := hall (.single .ldr false pc 0 true true) (.offset pc 0) rfl 0x10000 0 0 (by decide)
  rw [ArmRight, armCalcLdStAddr_eq rfl, offset_right_iff arm_lawful (by decide), if_pos rfl] at hright
  exact absurd hright (by decide)

end Mambo.ArmAccessExact
