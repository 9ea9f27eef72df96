import Mambo.Memcheck

namespace Mambo.MemcheckMark

open MamboHt
open Memcheck (Shadow memset markByte)

inductive Build
  | aarch32
  | aarch64
  deriving DecidableEq

def Build.width : Build → Nat
  | .aarch32 => 32
  | .aarch64 => 64

def Build.reservedBase : Build → Nat
  | .aarch32 => 0x80000000
  | .aarch64 => 0x4000000000

abbrev Build.Word (build : Build) := BitVec build.width

variable (build : Build)

section Mark

def markEnd (shadow : Shadow) (start size : build.Word) (valid : Bool) : Shadow × build.Word :=
  let endBOffset := start + size
  let endBSize := endBOffset &&& 7
  if endBSize ≠ 0 then
    let eb := build.reservedBase + endBOffset.toNat / 8
    let mask := (0xFF : BitVec 8) >>> (8 - endBSize.toNat)
    (Function.update shadow eb (markByte (shadow eb) mask valid), size - endBSize)
  else (shadow, size)

/-- `memcheck_mark` of either build. The branch for a start that is not aligned to eight
ends in an empty loop. -/
def memcheckMark (shadow : Shadow) (start size : build.Word) (valid : Bool) : Except Fault Shadow :=
  if ¬ (start.toNat < build.reservedBase ∧ (start + size).toNat < build.reservedBase ∧ start + size ≥ start) then
    .error .assertion
  else if size = 0 then .ok shadow
  else if start &&& 7 ≠ 0 then .error .hang
  else
    let r := markEnd build shadow start size valid
    if r.2 ≠ 0 then
      .ok (memset r.1 (build.reservedBase + start.toNat / 8) (if valid then 0xFF else 0) (r.2.toNat / 8))
    else .ok r.1

theorem memcheckMark_aarch64 (shadow : Shadow) (start size : MamboHt.Word) (valid : Bool) :
    memcheckMark .aarch64 shadow start size valid = Memcheck.memcheckMark shadow start size valid := rfl

end Mark

variable {build} {shadow shadow' : Shadow} {start size : build.Word} {valid : Bool} {x i : Nat}

section Words

theorem base_lt : build.reservedBase < 2 ^ build.width := by cases build <;> decide

/-- A block that ends below the shadow. -/
def Fits (start size : build.Word) : Prop := start.toNat + size.toNat < build.reservedBase

instance : Decidable (Fits start size) := inferInstanceAs (Decidable (_ < _))

theorem fits_iff : start.toNat < build.reservedBase ∧ (start + size).toNat < build.reservedBase ∧ start + size ≥ start ↔
    Fits start size := by
  have hstart := start.isLt
  have hsize := size.isLt
  have hbase := @base_lt build
  rw [ge_iff_le, BitVec.le_def, BitVec.toNat_add, Fits]
  constructor
  · rintro ⟨hlow, hhigh, hle⟩
    by_cases hwrap : start.toNat + size.toNat < 2 ^ build.width
    · rwa [Nat.mod_eq_of_lt hwrap] at hhigh
    · rw [Nat.mod_eq_sub_mod (by omega), Nat.mod_eq_of_lt (by omega)] at hle
      omega
  · intro hfits
    rw [Nat.mod_eq_of_lt (by omega)]
    omega

theorem toNat_end (hfits : Fits start size) : (start + size).toNat = start.toNat + size.toNat := by
  rw [BitVec.toNat_add, Nat.mod_eq_of_lt (Nat.lt_trans hfits base_lt)]

theorem and_seven (w : build.Word) : (w &&& 7).toNat = w.toNat % 8 := by
  rw [BitVec.toNat_and]
  cases build
  · exact Nat.and_two_pow_sub_one_eq_mod w.toNat 3
  · exact Nat.and_two_pow_sub_one_eq_mod w.toNat 3

theorem toNat_zero : (0 : build.Word).toNat = 0 := by simp

theorem and_seven_ne (w : build.Word) : w &&& 7 ≠ 0 ↔ w.toNat % 8 ≠ 0 := by
  rw [Ne, ← BitVec.toNat_inj, and_seven, toNat_zero]

end Words

section Bits

/-- The shadow bits of a block: those of the bytes at `RESERVED_BASE + a / 8`, at `a % 8`. -/
def Within (start size : build.Word) (x i : Nat) : Prop :=
  build.reservedBase ≤ x ∧ start.toNat ≤ 8 * (x - build.reservedBase) + i ∧
    8 * (x - build.reservedBase) + i < start.toNat + size.toNat

/-- The marking ends, and has given the bits of the block their value and no other bit one. -/
def Marks (shadow : Shadow) (start size : build.Word) (valid : Bool) : Prop :=
  ∃ shadow', memcheckMark build shadow start size valid = .ok shadow' ∧ ∀ x i, i < 8 →
    (Within start size x i → (shadow' x).getLsbD i = valid) ∧
      (¬Within start size x i → (shadow' x).getLsbD i = (shadow x).getLsbD i)

theorem full_bit (valid : Bool) (hi : i < 8) : (if valid then 0xFF else 0 : BitVec 8).getLsbD i = valid := by
  cases valid with
  | true => exact (by decide : ∀ i < 8, (0xFF : BitVec 8).getLsbD i = true) i hi
  | false => exact BitVec.getLsbD_zero

theorem memset_bit (shadow : Shadow) (address n : Nat) (valid : Bool) (x : Nat) (hi : i < 8) :
    (memset shadow address (if valid then 0xFF else 0) n x).getLsbD i =
      if address ≤ x ∧ x < address + n then valid else (shadow x).getLsbD i := by
  rw [memset]
  by_cases hin : address ≤ x ∧ x < address + n
  · rw [if_pos hin, if_pos hin, full_bit valid hi]
  · rw [if_neg hin, if_neg hin]

theorem mask_bit : ∀ e < 8, ∀ i < 8, ((0xFF : BitVec 8) >>> (8 - e)).getLsbD i = decide (i < e) := by decide

theorem markByte_bit (sb mask : BitVec 8) (valid : Bool) (hi : i < 8) :
    (markByte sb mask valid).getLsbD i = if mask.getLsbD i then valid else sb.getLsbD i := by
  cases valid with
  | true =>
    rw [markByte, if_pos rfl, BitVec.getLsbD_or]
    cases mask.getLsbD i <;> simp only [Bool.or_true, Bool.or_false, if_true, Bool.false_eq_true, if_false]
  | false =>
    rw [markByte, if_neg Bool.false_ne_true, BitVec.getLsbD_and, BitVec.getLsbD_not, decide_eq_true hi]
    cases mask.getLsbD i <;> simp

theorem markEnd_bit (shadow : Shadow) (start size : build.Word) (valid : Bool) (x : Nat) (hi : i < 8) :
    ((markEnd build shadow start size valid).1 x).getLsbD i =
      if x = build.reservedBase + (start + size).toNat / 8 ∧ i < (start + size).toNat % 8 then valid
      else (shadow x).getLsbD i := by
  have he : (start + size).toNat % 8 < 8 := Nat.mod_lt _ (by decide)
  rw [markEnd]
  dsimp only
  by_cases hodd : (start + size) &&& 7 ≠ 0
  · rw [if_pos hodd, and_seven]
    dsimp only
    by_cases hbyte : x = build.reservedBase + (start + size).toNat / 8
    · rw [hbyte, Function.update_self, markByte_bit _ _ _ hi, mask_bit _ he _ hi]
      simp only [decide_eq_true_eq, true_and]
    · rw [Function.update_of_ne hbyte, if_neg fun h => hbyte h.1]
  · rw [if_neg hodd, if_neg]
    rw [and_seven_ne] at hodd
    omega

theorem markEnd_size (halign : start.toNat % 8 = 0) (hfits : Fits start size) (shadow : Shadow) (valid : Bool) :
    (markEnd build shadow start size valid).2.toNat = size.toNat - size.toNat % 8 := by
  have hend := toNat_end hfits
  have hrest : ((start + size) &&& 7).toNat = size.toNat % 8 := by
    rw [and_seven, hend]
    omega
  rw [markEnd]
  dsimp only
  split_ifs with hodd
  · rw [BitVec.toNat_sub_of_le (by rw [BitVec.le_def, hrest]; exact Nat.mod_le _ _), hrest]
  · rw [not_not] at hodd
    rw [hodd] at hrest
    rw [← hrest]
    exact (Nat.sub_zero _).symm

end Bits

section Exact

theorem marks_of_aligned (halign : start.toNat % 8 = 0) (hfits : Fits start size) (shadow : Shadow) (valid : Bool) :
    Marks shadow start size valid := by
  have hend : (start + size).toNat = start.toNat + size.toNat := toNat_end hfits
  rw [Marks, memcheckMark, if_neg (not_not.mpr (fits_iff.mpr hfits))]
  by_cases hzero : size = 0
  · refine ⟨shadow, if_pos hzero, fun x i hi => ⟨fun hin => ?_, fun _ => rfl⟩⟩
    have hsize : size.toNat = 0 := by rw [hzero, toNat_zero]
    rw [Within] at hin
    omega
  · rw [if_neg hzero, if_neg (by rw [and_seven_ne]; omega)]
    have hsize := markEnd_size halign hfits shadow valid
    have hspec := fun x i (hi : i < 8) => markEnd_bit shadow start size valid x hi
    dsimp only
    by_cases hrest : (markEnd build shadow start size valid).2 ≠ 0
    · refine ⟨_, if_pos hrest, fun x i hi => ?_⟩
      rw [memset_bit _ _ _ _ _ hi, hspec _ _ hi, hsize, hend, Within]
      constructor
      · intro hin
        split_ifs <;> first | rfl | omega
      · intro hout
        rw [if_neg (by omega), if_neg (by omega)]
    · rw [not_not] at hrest
      rw [hrest, toNat_zero] at hsize
      refine ⟨_, if_neg (not_not.mpr hrest), fun x i hi => ?_⟩
      rw [hspec _ _ hi, hend, Within]
      constructor
      · intro hin
        rw [if_pos (by omega)]
      · intro hout
        rw [if_neg (by omega)]

/-- In either build, a marking ends and marks exactly the block if and only if there is
nothing to mark or the block starts at a multiple of eight. -/
theorem marks_iff (hfits : Fits start size) (shadow : Shadow) (valid : Bool) :
    Marks shadow start size valid ↔ size = 0 ∨ start.toNat % 8 = 0 := by
  constructor
  · rintro ⟨shadow', hdone, -⟩
    by_contra hnot
    rw [not_or] at hnot
    rw [memcheckMark, if_neg (not_not.mpr (fits_iff.mpr hfits)), if_neg hnot.1, if_pos ((and_seven_ne start).mpr hnot.2)]
      at hdone
    exact nomatch hdone
  · rintro (hzero | halign)
    · refine ⟨shadow, ?_, fun x i hi => ⟨fun hin => ?_, fun _ => rfl⟩⟩
      · rw [memcheckMark, if_neg (not_not.mpr (fits_iff.mpr hfits)), if_pos hzero]
      · have hsize : size.toNat = 0 := by rw [hzero, toNat_zero]
        rw [Within] at hin
        omega
    · exact marks_of_aligned halign hfits shadow valid

theorem marks_iff_aarch32 :
    Marks (fun _ => 0) (0x10008 : Build.aarch32.Word) (0x20 : Build.aarch32.Word) true ∧
      ¬Marks (fun _ => 0) (0x10001 : Build.aarch32.Word) (0x20 : Build.aarch32.Word) true :=
  ⟨(marks_iff (by decide) _ true).mpr (Or.inr (by decide)),
    fun h => absurd ((marks_iff (by decide) _ true).mp h) (by decide)⟩

/-- The first byte of a block at an odd address is never marked. -/
theorem odd_start_hangs : ¬ ∀ (build : Build) (shadow : Shadow) (start size : build.Word) (valid : Bool),
    Fits start size → Marks shadow start size valid := by
  intro h
  obtain ⟨shadow', hdone, -⟩ := h .aarch64 (fun _ => 0) (0x10001 : BitVec 64) (1 : BitVec 64) true
    (show (0x10001 : BitVec 64).toNat + (1 : BitVec 64).toNat < 0x4000000000 by decide)
  rw [memcheckMark_aarch64, Memcheck.memcheckMark, if_neg (by decide), if_neg (by decide), if_pos (by decide)] at hdone
  exact nomatch hdone

end Exact

end Mambo.MemcheckMark
