import Mambo.AArch32Scan

namespace Mambo.AArch32Prepass

open T32 (Word Reg sp lr pc)
open Walks AArch32Scan

/-- The type of the pre-pass is the one that the scan recorded, a branch that was inlined too
often counting as the unconditional one of the instruction set. -/
def Matches (uncondImm bbType : BranchType) (recorded : Option BranchType) : Prop :=
  (if recorded = some .traceInlineMax then some uncondImm else recorded) = some bbType

section Thumb

variable {ε : Type*} {emit : ε → Word → ThumbInst → Option ε} {code : ThumbCode} {start : Word}

/-- Where a B16 goes, without the bit that stands for Thumb. -/
def b16Target (readAddr : Word) (imm11 : BitVec 11) : Word := readAddr + 4 + b16Offset imm11

def thumbNext (code : ThumbCode) (p : Place) : Place :=
  match code p.readAddr with
  | .b16 imm11 =>
      ⟨b16Target p.readAddr imm11,
        if b16Target p.readAddr imm11 ≤ p.readAddr then p.inlinedBackCount + 1 else p.inlinedBackCount⟩
  | inst => ⟨p.readAddr + inst.size, p.inlinedBackCount⟩

/-- The place after n instructions of the guest, following each B16. -/
def thumbPlace (code : ThumbCode) (start : Word) (n : Nat) : Place := (thumbNext code)^[n] ⟨start, 0⟩

/-- The instruction ends a block: a branch other than B16, or a write to pc. -/
def ThumbLeaves : ThumbInst → Prop
  | .specialDataProc _ dn _ rdn => specialRdn dn rdn = pc
  | .bx .. | .cbz .. | .bCond16 _ | .branch32 _ | .bCond32 _ | .tb .. => True
  | .pop reglist => reglist.getLsbD 8
  | .ldri32 form unprivileged rt .. => (form = .word ∨ form = .half ∨ form = .byte) ∧ unprivileged = false ∧ rt = pc
  | .ldr32 form _ rt _ => (form = .word ∨ form = .half ∨ form = .byte) ∧ rt = pc
  | .ldm32 _ _ _ reglist => reglist.getLsbD 15
  | .it .. | .b16 _ | .other .. | .unhandled _ => False

/-- A B16 that the scanner does not follow: one more branch backwards than it inlines, or one
to the lowest addresses. -/
def RefusesBranch (code : ThumbCode) (p : Place) : Prop :=
  ∃ imm11, code p.readAddr = .b16 imm11 ∧
    (b16Target p.readAddr imm11 ≤ p.readAddr ∧ maxBackInline ≤ p.inlinedBackCount ∨
      b16Target p.readAddr imm11 + 1 < 0x8000)

/-- What the scanner does not go past though it does not leave the block. -/
def ThumbRefuses (code : ThumbCode) (start : Word) (p : Place) : Prop :=
  RefusesBranch code p ∨ (∃ wide, code p.readAddr = .unhandled wide) ∧ p.readAddr ≠ start

/-- Before the block is left, nothing is refused; or a branch is, and the block is left by
another unconditional one. -/
def ThumbAgrees (code : ThumbCode) (start : Word) : Prop :=
  ∃ n, ThumbLeaves (code (thumbPlace code start n).readAddr) ∧
    (∀ m < n, ¬ThumbLeaves (code (thumbPlace code start m).readAddr)) ∧
    ((∀ m < n, ¬ThumbRefuses code start (thumbPlace code start m)) ∨
      (code (thumbPlace code start n).readAddr = .branch32 .b ∨
          code (thumbPlace code start n).readAddr = .branch32 .bl) ∧
        ∃ m < n, RefusesBranch code (thumbPlace code start m) ∧
          ∀ k < m, ¬ThumbRefuses code start (thumbPlace code start k))

def thumbType (code : ThumbCode) (p : Place) : Option BranchType := thumbBbType (code p.readAddr)

theorem thumbType_isSome_iff {inst : ThumbInst} : (thumbBbType inst).isSome ↔ ThumbLeaves inst := by
  cases inst with
  | branch32 form => cases form <;> simp [thumbBbType, ThumbLeaves]
  | _ => simp [thumbBbType, ThumbLeaves, apply_ite]

theorem thumbType_none_iff {inst : ThumbInst} : thumbBbType inst = none ↔ ¬ThumbLeaves inst := by
  rw [← thumbType_isSome_iff, Option.not_isSome_iff_eq_none]

theorem thumbType_uncondImm {inst : ThumbInst} :
    thumbBbType inst = some .uncondImmThumb ↔ inst = .branch32 .b ∨ inst = .branch32 .bl := by
  cases inst with
  | branch32 form => cases form <;> simp [thumbBbType]
  | _ => simp [thumbBbType]

theorem pass1Thumb_iff {t : BranchType} :
    (∃ fuel, pass1Thumb code start fuel = some t) ↔ ∃ n, First (thumbNext code) (thumbType code) ⟨start, 0⟩ n t := by
  have hgoes : ∀ {p : Place}, thumbType code p = none →
      pass1ThumbStep code p.readAddr = .goes (thumbNext code p).readAddr := by
    intro p hnone
    rw [thumbType] at hnone
    rw [pass1ThumbStep, thumbNext]
    cases hinst : code p.readAddr with
    | b16 imm11 =>
        simp only [thumbBbType, ThumbInst.size, b16Target]
        congr 1
        bv_omega
    | _ =>
        rw [hinst] at hnone
        simp only [hnone]
  have hstops : ∀ {p : Place} {t}, thumbType code p = some t → pass1ThumbStep code p.readAddr = .stops t := by
    intro p t hsome
    rw [thumbType] at hsome
    simp only [pass1ThumbStep, hsome]
  constructor
  · intro h
    refine Returns.first (fun p a => p.readAddr = a) ?_ ?_ rfl h
    · rintro p a b rfl hstep
      cases htype : thumbType code p with
      | none =>
          rw [hgoes htype] at hstep
          exact ⟨rfl, Turn.goes.inj hstep⟩
      | some t => rw [hstops htype] at hstep; cases hstep
    · rintro p a r rfl hstep
      cases htype : thumbType code p with
      | none => rw [hgoes htype] at hstep; cases hstep
      | some t => rw [hstops htype] at hstep; exact congrArg some (Turn.stops.inj hstep)
  · rintro ⟨n, hfirst⟩
    refine First.returns (fun p a => p.readAddr = a) ?_ ?_ rfl hfirst
    · rintro p a rfl htype
      exact ⟨_, hgoes htype, rfl⟩
    · rintro p a r rfl htype
      exact hstops htype

/-- What the scanner records where it stops. -/
def thumbVerdict (code : ThumbCode) (start : Word) (p : Place) : Option (Option BranchType) :=
  match code p.readAddr with
  | .b16 imm11 =>
      if b16Target p.readAddr imm11 ≤ p.readAddr ∧ maxBackInline ≤ p.inlinedBackCount then
        some (some .traceInlineMax)
      else if b16Target p.readAddr imm11 + 1 < 0x8000 then some (some .uncondImmThumb)
      else none
  | .unhandled _ => if p.readAddr ≠ start then some none else none
  | inst => (thumbBbType inst).map some

theorem refuses_verdict (start : Word) {p : Place} (h : RefusesBranch code p) :
    thumbVerdict code start p = some (some .traceInlineMax) ∨
      thumbVerdict code start p = some (some .uncondImmThumb) := by
  obtain ⟨imm11, hinst, hrefused⟩ := h
  rw [thumbVerdict, hinst]
  by_cases hback : b16Target p.readAddr imm11 ≤ p.readAddr ∧ maxBackInline ≤ p.inlinedBackCount
  · exact .inl (if_pos hback)
  · have hlow := hrefused.resolve_left hback
    exact .inr (by simp only [if_neg hback, if_pos hlow])

theorem verdict_of_not_refused {p : Place} (h : ¬ThumbRefuses code start p) :
    thumbVerdict code start p = (thumbType code p).map some := by
  rw [thumbVerdict, thumbType]
  cases hinst : code p.readAddr with
  | b16 imm11 =>
      have hgoes := fun hr => h (.inl ⟨imm11, hinst, hr⟩)
      simp only [if_neg fun hb => hgoes (.inl hb), if_neg fun hl => hgoes (.inr hl), thumbBbType, Option.map_none]
  | unhandled wide =>
      have hstart := fun hr => h (.inr ⟨⟨wide, hinst⟩, hr⟩)
      simp only [if_neg hstart, thumbBbType, Option.map_none]
  | _ => rfl

theorem verdict_of_unhandled {p : Place} (h : ThumbRefuses code start p) (hbranch : ¬RefusesBranch code p) :
    thumbVerdict code start p = some none := by
  obtain ⟨⟨wide, hinst⟩, hstart⟩ := h.resolve_left hbranch
  rw [thumbVerdict, hinst]
  exact if_pos hstart

theorem type_of_refused {p : Place} (h : ThumbRefuses code start p) : thumbType code p = none := by
  rcases h with ⟨imm11, hinst, -⟩ | ⟨⟨wide, hinst⟩, -⟩ <;> rw [thumbType, hinst, thumbBbType]

abbrev placeOf (s : ThumbState ε) : Place := ⟨s.readAddress, s.inlineBackCount⟩

theorem switch_spec {s : ThumbState ε} {after : ThumbAfter}
    (h : thumbSwitch start s (code s.readAddress) = some after) :
    if after.stop then thumbVerdict code start (placeOf s) = some after.exitBranchType
    else thumbVerdict code start (placeOf s) = none ∧
      thumbNext code (placeOf s) = ⟨after.readAddress + (code s.readAddress).size, after.inlineBackCount⟩ := by
  simp only [thumbVerdict, thumbNext]
  cases hinst : code s.readAddress with
  | specialDataProc op dn rm rdn =>
      rw [hinst] at h
      simp only [thumbSwitch, ne_eq] at h
      split_ifs at h with hplain hrd hmov hcmp <;> cases h
      · simp [thumbBbType, hplain.1]
      · simp [thumbBbType, hrd]
      · simp [thumbBbType, hrd]
  | bx | tb =>
      rw [hinst] at h
      simp only [thumbSwitch] at h
      split_ifs at h <;> cases h <;> rfl
  | cbz | bCond16 | bCond32 | it =>
      rw [hinst] at h
      cases h
      first | rfl | exact ⟨rfl, rfl⟩
  | pop reglist =>
      rw [hinst] at h
      simp only [thumbSwitch] at h
      split_ifs at h with hpc
      · cases h
        simp only [thumbBbType, hpc, Bool.false_eq_true, if_false, Option.map_none, ThumbInst.size, and_self]
      · obtain ⟨handled, -, rfl⟩ := Option.map_eq_some_iff.mp h
        simp only [thumbBbType, Bool.not_eq_false .. ▸ hpc, if_true, Option.map_some]
  | b16 imm11 =>
      rw [hinst] at h
      have htarget : s.readAddress + 4 + 1 + b16Offset imm11 = b16Target s.readAddress imm11 + 1 :=
        add_right_comm _ _ _
      have hback (a : Word) : a + 1 - 1 = a := BitVec.add_sub_cancel a 1
      have hhere (a : Word) : a - 2 + 2 = a := BitVec.sub_add_cancel a 2
      simp only [thumbSwitch, htarget, hback] at h
      by_cases hmax : b16Target s.readAddress imm11 ≤ s.readAddress ∧ maxBackInline ≤ s.inlineBackCount
      · rw [if_pos hmax] at h
        cases h
        exact if_pos hmax
      · rw [if_neg hmax] at h
        by_cases hlow : b16Target s.readAddress imm11 + 1 < 0x8000
        · rw [if_neg (BitVec.not_le.mpr hlow)] at h
          cases h
          simp only [if_neg hmax, if_pos hlow, if_true]
        · rw [if_pos (BitVec.not_lt.mp hlow)] at h
          cases h
          exact ⟨by simp only [if_neg hmax, if_neg hlow], by simp only [ThumbInst.size, hhere]⟩
  | ldri32 form unprivileged rt rn imm8 preIndex upwards writeback =>
      rw [hinst] at h
      simp only [thumbSwitch, ne_eq] at h
      split_ifs at h with hbase hrt hload <;> cases h
      · simp [thumbBbType, hrt, hload.1, hload.2.1]
      · simp [thumbBbType, hrt]
  | ldr32 form rn rt rm =>
      rw [hinst] at h
      simp only [thumbSwitch, ne_eq] at h
      split_ifs at h with hbase hrt hload <;> cases h
      · simp [thumbBbType, hrt, hload.1]
      · simp [thumbBbType, hrt]
  | branch32 form =>
      rw [hinst] at h
      obtain ⟨handled, -, rfl⟩ := Option.map_eq_some_iff.mp h
      cases form <;> rfl
  | ldm32 full writeback rn reglist =>
      rw [hinst] at h
      simp only [thumbSwitch] at h
      split_ifs at h with hbase hpc hload
      · obtain ⟨handled, -, hafter⟩ := Option.bind_eq_some_iff.mp h
        cases hafter
        simp only [thumbBbType, if_pos hpc, if_true, Option.map_some]
      · obtain ⟨handled, -, hafter⟩ := Option.bind_eq_some_iff.mp h
        cases hafter
      · cases h
        simp only [thumbBbType, if_neg hpc, Bool.false_eq_true, if_false, Option.map_none, ThumbInst.size, and_self]
  | other wide handled accepted =>
      rw [hinst] at h
      simp only [thumbSwitch] at h
      split_ifs at h
      cases h
      exact ⟨rfl, rfl⟩
  | unhandled wide =>
      rw [hinst] at h
      simp only [thumbSwitch] at h
      split_ifs at h with hstart
      cases h
      simp [hstart]

/-- The loop of scan_t32 stops at the first place with a verdict and records it. -/
theorem scanT32_first {emitted : ε} {fuel : Nat} {r : Option BranchType}
    (h : scanT32 emit code start emitted fuel = some r) :
    ∃ n, First (thumbNext code) (thumbVerdict code start) ⟨start, 0⟩ n r := by
  refine Returns.first (fun p s => placeOf s = p) ?_ ?_ rfl ⟨fuel, h⟩
  · rintro p s t rfl hstep
    simp only [scanT32Step] at hstep
    split at hstep
    case h_1 after emitted hswitch hemit =>
      have hspec := switch_spec hswitch
      split_ifs at hstep with hit hstop
      rw [if_neg hstop] at hspec
      cases hstep
      exact ⟨hspec.1, hspec.2.symm⟩
    case h_2 => cases hstep
  · rintro p s r rfl hstep
    simp only [scanT32Step] at hstep
    split at hstep
    case h_1 after emitted hswitch hemit =>
      have hspec := switch_spec hswitch
      split_ifs at hstep with hit hstop
      rw [if_pos hstop] at hspec
      cases hstep
      exact hspec
    case h_2 => cases hstep

theorem type_of_leaves {n : Nat} (hleaves : ThumbLeaves (code (thumbPlace code start n).readAddr))
    (hbefore : ∀ m < n, ¬ThumbLeaves (code (thumbPlace code start m).readAddr)) :
    ∃ t, First (thumbNext code) (thumbType code) ⟨start, 0⟩ n t := by
  obtain ⟨t, ht⟩ := Option.isSome_iff_exists.mp (thumbType_isSome_iff.mpr hleaves)
  exact ⟨t, ht, fun m hm => thumbType_none_iff.mpr (hbefore m hm)⟩

theorem verdict_before {n : Nat} (hnone : ∀ m < n, thumbType code (thumbPlace code start m) = none)
    (hgoes : ∀ m < n, ¬ThumbRefuses code start (thumbPlace code start m)) :
    ∀ m < n, thumbVerdict code start (thumbPlace code start m) = none := fun m hm => by
  rw [verdict_of_not_refused (hgoes m hm), hnone m hm, Option.map_none]

theorem not_refused_of_verdict {p : Place} (h : thumbVerdict code start p = none) : ¬ThumbRefuses code start p := by
  intro hrefused
  by_cases hbranch : RefusesBranch code p
  · rcases refuses_verdict start hbranch with hv | hv <;> rw [h] at hv <;> cases hv
  · rw [verdict_of_unhandled hrefused hbranch] at h
    cases h

theorem type_of_verdict {p : Place} (h : thumbVerdict code start p = none) : thumbType code p = none := by
  rw [verdict_of_not_refused (not_refused_of_verdict h)] at h
  exact Option.map_eq_none_iff.mp h

theorem matches_refused {p : Place} {r : Option BranchType} {t : BranchType} (h : RefusesBranch code p)
    (hr : thumbVerdict code start p = some r) : Matches .uncondImmThumb t r ↔ t = .uncondImmThumb := by
  rcases refuses_verdict start h with hv | hv <;> rw [hr] at hv <;> cases hv <;>
    exact Option.some_inj.trans eq_comm

theorem matches_type {inst : ThumbInst} {t : BranchType} (h : thumbBbType inst = some t) :
    Matches .uncondImmThumb t (some t) := by
  have hne : t ≠ .traceInlineMax := by
    rintro rfl
    cases inst with
    | branch32 form => cases form <;> cases h
    | _ => simp [thumbBbType] at h
  rw [Matches, if_neg fun h => hne (Option.some.inj h)]

/-- After a scan that ended, the pre-pass gives the type that it recorded just for code that
is left as it should be. -/
theorem thumb_agrees_iff {r : Option BranchType} {n : Nat}
    (hscan : First (thumbNext code) (thumbVerdict code start) ⟨start, 0⟩ n r) :
    (∃ t, (∃ fuel, pass1Thumb code start fuel = some t) ∧ Matches .uncondImmThumb t r) ↔ ThumbAgrees code start := by
  have hclean : ∀ m < n, ¬ThumbRefuses code start (thumbPlace code start m) :=
    fun m hm => not_refused_of_verdict (hscan.before m hm)
  constructor
  · rintro ⟨t, hpass, hmatch⟩
    obtain ⟨k, htype⟩ := pass1Thumb_iff.mp hpass
    refine ⟨k, thumbType_isSome_iff.mp (Option.isSome_of_eq_some htype.here),
      fun m hm => thumbType_none_iff.mp (htype.before m hm), ?_⟩
    by_cases hrefused : ThumbRefuses code start (thumbPlace code start n)
    · right
      by_cases hbranch : RefusesBranch code (thumbPlace code start n)
      · obtain rfl := (matches_refused hbranch hscan.here).mp hmatch
        have hlt : n < k := by
          by_contra hle
          rcases Nat.lt_or_eq_of_le (Nat.le_of_not_lt hle) with hlt | rfl
          · exact Option.some_ne_none _ (htype.here.symm.trans (type_of_verdict (hscan.before k hlt)))
          · exact Option.some_ne_none _ (htype.here.symm.trans (type_of_refused hrefused))
        exact ⟨thumbType_uncondImm.mp htype.here, n, hlt, hbranch, hclean⟩
      · obtain rfl := Option.some.inj (hscan.here.symm.trans (verdict_of_unhandled hrefused hbranch))
        cases hmatch
    · left
      obtain ⟨t', ht', -⟩ := Option.map_eq_some_iff.mp ((verdict_of_not_refused hrefused).symm.trans hscan.here)
      exact fun m hm => hclean m (Nat.lt_of_lt_of_le hm (htype.le ht'))
  · rintro ⟨k, hleaves, hstays, hcase⟩
    obtain ⟨t, htype⟩ := type_of_leaves hleaves hstays
    refine ⟨t, pass1Thumb_iff.mpr ⟨k, htype⟩, ?_⟩
    rcases hcase with hgoes | ⟨hwide, m, hm, hbranch, hgoes⟩
    · have hhere : ¬ThumbRefuses code start (thumbPlace code start k) := fun h =>
        Option.some_ne_none _ (htype.here.symm.trans (type_of_refused h))
      have hverdict : First (thumbNext code) (thumbVerdict code start) ⟨start, 0⟩ k (some t) :=
        ⟨(verdict_of_not_refused hhere).trans (congrArg _ htype.here), verdict_before htype.before hgoes⟩
      obtain ⟨-, rfl⟩ := hscan.unique hverdict
      exact matches_type htype.here
    · have hstop : ∃ r, thumbVerdict code start (thumbPlace code start m) = some r := by
        rcases refuses_verdict start hbranch with hv | hv <;> exact ⟨_, hv⟩
      obtain ⟨r', hr'⟩ := hstop
      have hverdict : First (thumbNext code) (thumbVerdict code start) ⟨start, 0⟩ m r' :=
        ⟨hr', verdict_before (fun i hi => htype.before i (Nat.lt_trans hi hm)) hgoes⟩
      obtain ⟨rfl, rfl⟩ := hscan.unique hverdict
      exact (matches_refused hbranch hr').mpr
        (Option.some.inj (htype.here.symm.trans (thumbType_uncondImm.mpr hwide)))

end Thumb

section Arm

variable {ε : Type*} {emit : ε → Word → ArmInst → Option ε} {code : ArmCode} {start : Word}

def bTarget (readAddr : Word) (offset : BitVec 24) : Word := readAddr + 8 + armOffset offset

def TooMany (target : Word) (p : Place) : Prop := target ≤ p.readAddr ∧ maxBackInline ≤ p.inlinedBackCount

instance (target : Word) (p : Place) : Decidable (TooMany target p) := inferInstanceAs (Decidable (_ ∧ _))

def armNext (code : ArmCode) (p : Place) : Place :=
  match code p.readAddr with
  | .b cond _ offset =>
      if cond = al then
        ⟨bTarget p.readAddr offset,
          if bTarget p.readAddr offset ≤ p.readAddr then p.inlinedBackCount + 1 else p.inlinedBackCount⟩
      else ⟨p.readAddr + 4, p.inlinedBackCount⟩
  | _ => ⟨p.readAddr + 4, p.inlinedBackCount⟩

/-- The place after n instructions of the guest, following each unconditional B and BL. -/
def armPlace (code : ArmCode) (start : Word) (n : Nat) : Place := (armNext code)^[n] ⟨start, 0⟩

/-- The instruction ends a block: a branch that is not inlined, or a write to pc. -/
def ArmLeaves (code : ArmCode) (p : Place) : Prop :=
  match code p.readAddr with
  | .b cond _ offset => cond = al → TooMany (bTarget p.readAddr offset) p
  | .bx .. | .blxi .. => True
  | .ldm _ _ registers .. => registers.getLsbD 15
  | .ldr _ byte _ rd .. => byte = false ∧ rd = pc
  | .dataProc _ _ _ _ rd .. => rd = pc
  | .udf | .other _ => False

def ArmRefuses (code : ArmCode) (start : Word) (p : Place) : Prop := code p.readAddr = .udf ∧ start ≠ p.readAddr

/-- A branch to a known target of this instruction set, or an instruction that is always
executed, which BLX to a known target is not encoded as. -/
def ArmSteady : ArmInst → Prop
  | .b .. => True
  | inst => inst.conditionCode = al

/-- The block is left by an instruction that is not a conditional write to pc, with no UDF
before; or after a UDF it is left by an unconditional branch. -/
def ArmAgrees (code : ArmCode) (start : Word) : Prop :=
  ∃ n, ArmLeaves code (armPlace code start n) ∧ (∀ m < n, ¬ArmLeaves code (armPlace code start m)) ∧
    ((∀ m < n, ¬ArmRefuses code start (armPlace code start m)) ∧ ArmSteady (code (armPlace code start n).readAddr) ∨
      (∃ m < n, ArmRefuses code start (armPlace code start m)) ∧
        ∃ link offset, code (armPlace code start n).readAddr = .b al link offset)

def armType (code : ArmCode) (p : Place) : Option BranchType :=
  let inst := code p.readAddr
  match inst with
  | .b cond _ offset =>
      if cond = al then if TooMany (bTarget p.readAddr offset) p then some .uncondImmArm else none
      else some .condImmArm
  | .bx .. => some (regType inst.conditionCode)
  | .blxi .. => some .condBlxiArm
  | .ldm _ _ registers .. => if registers.getLsbD 15 then some (regType inst.conditionCode) else none
  | .ldr _ byte _ rd .. => if byte = false ∧ rd = pc then some (regType inst.conditionCode) else none
  | .dataProc _ _ _ _ rd .. => if rd = pc then some (regType inst.conditionCode) else none
  | .udf | .other _ => none

def armVerdict (code : ArmCode) (start : Word) (p : Place) : Option (Option BranchType) :=
  match code p.readAddr with
  | .b cond _ offset =>
      if cond = al then if TooMany (bTarget p.readAddr offset) p then some (some .traceInlineMax) else none
      else some (some .condImmArm)
  | .bx .. => some (some .uncondRegArm)
  | .blxi .. => some (some .uncondBlxiArm)
  | .ldm _ _ registers .. => if registers.getLsbD 15 then some (some .uncondRegArm) else none
  | .ldr _ byte _ rd .. => if byte = false ∧ rd = pc then some (some .uncondRegArm) else none
  | .dataProc _ _ _ _ rd .. => if rd = pc then some (some .uncondRegArm) else none
  | .udf => if start = p.readAddr then none else some (some .uncondImmArm)
  | .other _ => none

theorem inlineUncondImm_eq (offset : BitVec 24) (p : Place) :
    inlineUncondImm (p.readAddr + 8 + armOffset offset) p =
      if TooMany (bTarget p.readAddr offset) p then none else
        some ⟨bTarget p.readAddr offset - 4,
          if bTarget p.readAddr offset ≤ p.readAddr then p.inlinedBackCount + 1 else p.inlinedBackCount⟩ := by
  rw [inlineUncondImm, ← bTarget]
  generalize bTarget p.readAddr offset = target
  by_cases hback : target ≤ p.readAddr
  · rw [if_pos hback, if_pos hback]
    by_cases hmax : maxBackInline ≤ p.inlinedBackCount
    · rw [if_pos hmax, if_pos ⟨hback, hmax⟩]
    · rw [if_neg hmax, if_neg fun h => hmax h.2]
  · rw [if_neg hback, if_neg hback, if_neg fun h => hback h.1]

theorem armType_isSome_iff {p : Place} : (armType code p).isSome ↔ ArmLeaves code p := by
  rw [armType, ArmLeaves]
  cases code p.readAddr with
  | b cond link offset =>
      by_cases hal : cond = al
      · simp [hal, apply_ite]
      · simp [hal]
  | _ => simp [apply_ite]

theorem armType_none_iff {p : Place} : armType code p = none ↔ ¬ArmLeaves code p := by
  rw [← armType_isSome_iff, Option.not_isSome_iff_eq_none]

theorem pass1ArmStep_eq (p : Place) :
    pass1ArmStep code p = match armType code p with
      | some t => .stops t
      | none => .goes (armNext code p) := by
  rw [pass1ArmStep, armType, armNext]
  cases code p.readAddr with
  | b cond link offset =>
      have hback (a : Word) : a - 4 + 4 = a := BitVec.sub_add_cancel a 4
      by_cases hal : cond = al
      · simp only [if_pos hal, inlineUncondImm_eq]
        by_cases hmany : TooMany (bTarget p.readAddr offset) p
        · simp only [if_pos hmany]
        · simp only [if_neg hmany, hback]
      · simp only [if_neg hal]
  | bx | blxi | udf | other => rfl
  | ldm | ldr | dataProc => simp only []; split <;> rfl

theorem pass1Arm_iff {t : BranchType} :
    (∃ fuel, pass1Arm code start fuel = some t) ↔ ∃ n, First (armNext code) (armType code) ⟨start, 0⟩ n t := by
  constructor
  · intro h
    refine Returns.first (fun p q => p = q) ?_ ?_ rfl h
    · rintro p q s rfl hstep
      rw [pass1ArmStep_eq] at hstep
      cases htype : armType code p with
      | none => rw [htype] at hstep; exact ⟨rfl, Turn.goes.inj hstep⟩
      | some t => rw [htype] at hstep; cases hstep
    · rintro p q r rfl hstep
      rw [pass1ArmStep_eq] at hstep
      cases htype : armType code p with
      | none => rw [htype] at hstep; cases hstep
      | some t => rw [htype] at hstep; exact congrArg some (Turn.stops.inj hstep)
  · rintro ⟨n, hfirst⟩
    refine First.returns (fun p q => p = q) ?_ ?_ rfl hfirst
    · rintro p q rfl htype
      exact ⟨_, by rw [pass1ArmStep_eq, htype], rfl⟩
    · rintro p q r rfl htype
      rw [pass1ArmStep_eq, htype]

theorem armSwitch_spec {p : Place} {after : ArmAfter} (h : armSwitch start p (code p.readAddr) = some after) :
    if after.stop then armVerdict code start p = some after.exitBranchType
    else armVerdict code start p = none ∧
      armNext code p = { after.place with readAddr := after.place.readAddr + 4 } := by
  rw [armVerdict, armNext]
  cases hinst : code p.readAddr with
  | b cond link offset =>
      have hback (a : Word) : a - 4 + 4 = a := BitVec.sub_add_cancel a 4
      rw [hinst] at h
      simp only [armSwitch, inlineUncondImm_eq] at h
      by_cases hal : cond = al
      · rw [if_pos hal] at h
        by_cases hmany : TooMany (bTarget p.readAddr offset) p
        · rw [if_pos hmany] at h
          cases h
          simp only [if_pos hal, if_pos hmany, if_true]
        · rw [if_neg hmany] at h
          cases h
          simp only [if_pos hal, if_neg hmany, hback, Bool.false_eq_true, if_false, and_self]
      · rw [if_neg hal] at h
        cases h
        simp only [if_neg hal, if_true]
  | bx =>
      rw [hinst] at h
      simp only [armSwitch] at h
      split_ifs at h
      cases h
      rfl
  | blxi =>
      rw [hinst] at h
      cases h
      rfl
  | udf =>
      rw [hinst] at h
      simp only [armSwitch] at h
      split_ifs at h with hstart <;> cases h
      · exact ⟨if_pos hstart, rfl⟩
      · exact if_neg hstart
  | other =>
      rw [hinst] at h
      simp only [armSwitch] at h
      split_ifs at h
      cases h
      exact ⟨rfl, rfl⟩
  | ldm cond rn registers prepostindex updown writeback psr =>
      rw [hinst] at h
      simp only [armSwitch] at h
      split_ifs at h with hbase hpc <;> cases h
      · exact ⟨by simp only [hpc, Bool.false_eq_true, if_false], rfl⟩
      all_goals exact if_pos (Bool.not_eq_false _ ▸ hpc)
  | ldr cond byte registerOffset rd rn offset prepostindex updown writeback =>
      rw [hinst] at h
      simp only [armSwitch] at h
      split_ifs at h with hindex hrd hbyte <;> cases h
      case neg.refl => exact ⟨if_neg fun hload => hrd hload.2, rfl⟩
      all_goals exact if_pos ⟨Bool.not_eq_true _ ▸ hbyte, hrd⟩
  | dataProc op cond immediate setFlags rd rn operand2 =>
      rw [hinst] at h
      simp only [armSwitch, ne_eq] at h
      split_ifs at h with hplain hrd hmov hboth <;> cases h
      · exact ⟨if_neg hplain.1, rfl⟩
      · exact if_pos hrd
      · exact ⟨if_neg hrd, rfl⟩

/-- The loop of scan_a32 stops at the first place with a verdict and records it. -/
theorem scanA32_first {emitted : ε} {fuel : Nat} {r : Option BranchType}
    (h : scanA32 emit code start emitted fuel = some r) :
    ∃ n, First (armNext code) (armVerdict code start) ⟨start, 0⟩ n r := by
  refine Returns.first (fun p s => s.1 = p) ?_ ?_ rfl ⟨fuel, h⟩
  · rintro p s t rfl hstep
    simp only [scanA32Step] at hstep
    split at hstep
    case h_1 after emitted hswitch hemit =>
      have hspec := armSwitch_spec hswitch
      split_ifs at hstep with hstop
      rw [if_neg hstop] at hspec
      cases hstep
      exact ⟨hspec.1, hspec.2.symm⟩
    case h_2 => cases hstep
  · rintro p s r rfl hstep
    simp only [scanA32Step] at hstep
    split at hstep
    case h_1 after emitted hswitch hemit =>
      have hspec := armSwitch_spec hswitch
      split_ifs at hstep with hstop
      rw [if_pos hstop] at hspec
      cases hstep
      exact hspec
    case h_2 => cases hstep

theorem armType_of_refused {p : Place} (h : ArmRefuses code start p) :
    armType code p = none ∧ armVerdict code start p = some (some .uncondImmArm) := by
  rw [armType, armVerdict, h.1]
  exact ⟨rfl, if_neg h.2⟩

/-- The two agree on where a block ends but for a UDF. -/
theorem armVerdict_none_iff {p : Place} :
    armVerdict code start p = none ↔ armType code p = none ∧ ¬ArmRefuses code start p := by
  rw [armVerdict, armType, ArmRefuses]
  cases code p.readAddr with
  | b cond => by_cases hal : cond = al <;> simp [hal]
  | _ => simp

/-- Where the block is left, the pre-pass is right about a steady instruction only. -/
theorem matches_leaves (start : Word) {p : Place} {t : BranchType} (h : armType code p = some t) :
    ∃ r, armVerdict code start p = some r ∧
      (Matches .uncondImmArm t r ↔ ArmSteady (code p.readAddr)) := by
  have hreg {c : BitVec 4} : Matches .uncondImmArm (regType c) (some .uncondRegArm) ↔ c = al := by
    rw [regType]
    by_cases hal : c = al
    · simp [Matches, hal]
    · simp [Matches, hal]
  rw [armType] at h
  rw [armVerdict]
  cases hinst : code p.readAddr with
  | b cond link offset =>
      simp only [hinst] at h ⊢
      split_ifs at h ⊢ with hal hmany <;> cases h
      · exact ⟨_, rfl, iff_of_true rfl trivial⟩
      · exact ⟨_, rfl, iff_of_true rfl trivial⟩
  | bx =>
      rw [hinst] at h
      cases h
      exact ⟨_, rfl, hreg⟩
  | blxi =>
      rw [hinst] at h
      cases h
      exact ⟨_, rfl, iff_of_false (by simp [Matches]) (by simp [ArmSteady, ArmInst.conditionCode, al])⟩
  | ldm | ldr | dataProc =>
      simp only [hinst] at h ⊢
      split_ifs at h ⊢ with hpc
      cases h
      exact ⟨_, rfl, hreg⟩
  | udf | other => simp [hinst] at h

theorem armType_uncondImm {p : Place} {t : BranchType} (h : armType code p = some t) :
    t = .uncondImmArm ↔ ∃ link offset, code p.readAddr = .b al link offset := by
  have hreg {c : BitVec 4} : regType c ≠ .uncondImmArm := by
    rw [regType]
    split <;> exact fun h => by cases h
  rw [armType] at h
  cases hinst : code p.readAddr with
  | b cond link offset =>
      simp only [hinst] at h
      split_ifs at h with hal hmany <;> cases h
      · exact iff_of_true rfl ⟨link, offset, hal ▸ rfl⟩
      · exact iff_of_false (fun h => by cases h) fun ⟨_, _, h⟩ => hal (by cases h; rfl)
  | udf | other => simp [hinst] at h
  | _ =>
      simp only [hinst] at h
      refine iff_of_false ?_ fun ⟨_, _, h⟩ => by cases h
      try split_ifs at h
      all_goals obtain rfl := Option.some.inj h
      all_goals first | exact hreg | exact fun h => by cases h

/-- After a scan that ended, the pre-pass gives the type that it recorded just for code that
is left as it should be. -/
theorem arm_agrees_iff {r : Option BranchType} {n : Nat}
    (hscan : First (armNext code) (armVerdict code start) ⟨start, 0⟩ n r) :
    (∃ t, (∃ fuel, pass1Arm code start fuel = some t) ∧ Matches .uncondImmArm t r) ↔ ArmAgrees code start := by
  have hclean : ∀ m < n, armType code (armPlace code start m) = none ∧ ¬ArmRefuses code start (armPlace code start m) :=
    fun m hm => armVerdict_none_iff.mp (hscan.before m hm)
  have himm {t : BranchType} : Matches .uncondImmArm t (some .uncondImmArm) ↔ t = .uncondImmArm :=
    Option.some_inj.trans eq_comm
  constructor
  · rintro ⟨t, hpass, hmatch⟩
    obtain ⟨k, htype⟩ := pass1Arm_iff.mp hpass
    have hle : n ≤ k := by
      by_contra hlt
      exact Option.some_ne_none _ (htype.here.symm.trans (hclean k (Nat.lt_of_not_le hlt)).1)
    refine ⟨k, armType_isSome_iff.mp (Option.isSome_of_eq_some htype.here),
      fun m hm => armType_none_iff.mp (htype.before m hm), ?_⟩
    by_cases hrefused : ArmRefuses code start (armPlace code start n)
    · right
      obtain ⟨hnone, hverdict⟩ := armType_of_refused hrefused
      obtain rfl := Option.some.inj (hscan.here.symm.trans hverdict)
      have hne : n ≠ k := by
        rintro rfl
        exact Option.some_ne_none _ (htype.here.symm.trans hnone)
      exact ⟨⟨n, Nat.lt_of_le_of_ne hle hne, hrefused⟩, (armType_uncondImm htype.here).mp (himm.mp hmatch)⟩
    · left
      have hstop : armType code (armPlace code start n) ≠ none := fun hnone =>
        Option.some_ne_none _ (hscan.here.symm.trans (armVerdict_none_iff.mpr ⟨hnone, hrefused⟩))
      obtain ⟨t', ht'⟩ := Option.ne_none_iff_exists'.mp hstop
      obtain rfl : n = k := Nat.le_antisymm hle (htype.le ht')
      obtain ⟨r', hr', hiff⟩ := matches_leaves start htype.here
      obtain rfl := Option.some.inj (hscan.here.symm.trans hr')
      exact ⟨fun m hm => (hclean m hm).2, hiff.mp hmatch⟩
  · rintro ⟨k, hleaves, hstays, hcase⟩
    obtain ⟨t, ht⟩ := Option.isSome_iff_exists.mp (armType_isSome_iff.mpr hleaves)
    have htype : First (armNext code) (armType code) ⟨start, 0⟩ k t :=
      ⟨ht, fun m hm => armType_none_iff.mpr (hstays m hm)⟩
    refine ⟨t, pass1Arm_iff.mpr ⟨k, htype⟩, ?_⟩
    rcases hcase with ⟨hgoes, hsteady⟩ | ⟨⟨m, hm, hrefused⟩, hbranch⟩
    · obtain ⟨r', hr', hiff⟩ := matches_leaves start ht
      have hverdict : First (armNext code) (armVerdict code start) ⟨start, 0⟩ k r' :=
        ⟨hr', fun i hi => armVerdict_none_iff.mpr ⟨htype.before i hi, hgoes i hi⟩⟩
      obtain ⟨-, rfl⟩ := hscan.unique hverdict
      exact hiff.mpr hsteady
    · have hle := hscan.le (armType_of_refused hrefused).2
      have hnone := htype.before n (Nat.lt_of_le_of_lt hle hm)
      have hudf : ArmRefuses code start (armPlace code start n) := by
        by_contra hgoes
        exact Option.some_ne_none _ (hscan.here.symm.trans (armVerdict_none_iff.mpr ⟨hnone, hgoes⟩))
      obtain rfl := Option.some.inj (hscan.here.symm.trans (armType_of_refused hudf).2)
      exact himm.mpr ((armType_uncondImm ht).mpr hbranch)

end Arm

/-- For guest code that the scanner gets through, the pre-pass ends with the type that the
scan records just when the block is left as it should be. -/
theorem prepass_agrees_iff {ε : Type*} (emitted : ε) (start : Word) (r : Option BranchType) :
    (∀ (emit : ε → Word → ThumbInst → Option ε) (code : ThumbCode),
      (∃ fuel, scanT32 emit code start emitted fuel = some r) →
        ((∃ t, (∃ fuel, pass1Thumb code start fuel = some t) ∧ Matches .uncondImmThumb t r) ↔
          ThumbAgrees code start)) ∧
    ∀ (emit : ε → Word → ArmInst → Option ε) (code : ArmCode),
      (∃ fuel, scanA32 emit code start emitted fuel = some r) →
        ((∃ t, (∃ fuel, pass1Arm code start fuel = some t) ∧ Matches .uncondImmArm t r) ↔ ArmAgrees code start) := by
  constructor
  · rintro emit code ⟨fuel, hscan⟩
    obtain ⟨n, hfirst⟩ := scanT32_first hscan
    exact thumb_agrees_iff hfirst
  · rintro emit code ⟨fuel, hscan⟩
    obtain ⟨n, hfirst⟩ := scanA32_first hscan
    exact arm_agrees_iff hfirst

/-- A block of one instruction of data and BX lr. -/
theorem prepass_agrees_bx :
    ThumbAgrees (fun a => if a = 0x10000 then .other false true true else .bx false lr) 0x10000 ∧
      ArmAgrees (fun a => if a = 0x10000 then .other true else .bx al false lr) 0x10000 :=
  ⟨((prepass_agrees_iff () 0x10000 (some .uncondRegThumb)).1 (fun _ _ _ => some ()) _ ⟨2, rfl⟩).mp
      ⟨.uncondRegThumb, ⟨2, rfl⟩, rfl⟩,
    ((prepass_agrees_iff () 0x10000 (some .uncondRegArm)).2 (fun _ _ _ => some ()) _ ⟨2, rfl⟩).mp
      ⟨.uncondRegArm, ⟨2, rfl⟩, rfl⟩⟩

/-- BX lr, if not equal: the pre-pass takes it for a conditional branch to a register, and
the scanner records an unconditional one. -/
theorem conditional_bx_disagrees :
    (∃ fuel, scanA32 (fun (_ : Unit) _ _ => some ()) (fun _ => .bx 1 false lr) 0x10000 () fuel =
        some (some .uncondRegArm)) ∧
      ¬∃ t, (∃ fuel, pass1Arm (fun _ => .bx 1 false lr) 0x10000 fuel = some t) ∧
        Matches .uncondImmArm t (some .uncondRegArm) := by
  refine ⟨⟨1, rfl⟩, ?_⟩
  rintro ⟨t, ⟨fuel, hpass⟩, hmatch⟩
  cases fuel with
  | zero => cases hpass
  | succ fuel =>
      have htype : some BranchType.condRegArm = some t := hpass
      obtain rfl := Option.some.inj htype
      cases hmatch

end Mambo.AArch32Prepass
