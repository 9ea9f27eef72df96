import Mambo.ArmAddSub

namespace Mambo.ArmImmediates

open T32 (Word Reg State)
open A32
open ArmAddSub.A32 (addSubImm plusMinus plusMinus_plusMinus exec_addSubImm_of_ne)

section Code

/-- `INT_MAX`, which stands for no operand yet. -/
def intMax : Word := 0x7FFFFFFF

/-- The inner loop; none where the fuel is used up. -/
def skipZeros (value : Word) : Nat → Nat → Option Nat
  | 0, _ => none
  | fuel + 1, shift =>
    if value ≠ 0 ∧ (0x3 : Word) <<< shift &&& value = 0 then skipZeros value fuel (shift + 2) else some shift

def operand2 (value : Word) (shift : Nat) : Word :=
  BitVec.ofNat 32 (((32 - shift) >>> 1 &&& 0xF) <<< 8) ||| (value >>> shift &&& 0xFF)

/-- `arm_proc_i32bit`, with ADD or SUB; none where the fuel is used up. -/
def armProcI32bit (sub : Bool) (rd : Reg) : Nat → Reg → Word → Nat → Word → Option (List Inst)
  | 0, _, _, _, _ => none
  | fuel + 1, rn, value, shift, op2 =>
    if value ≠ 0 ∨ op2 = intMax then do
      let shift ← skipZeros value fuel shift
      let op2 := operand2 value shift
      let is ← armProcI32bit sub rd fuel rd (value &&& ~~~((0xFF : Word) <<< shift)) shift op2
      return addSubImm sub rd rn (op2.setWidth 12) :: is
    else some []

def armAddSub32Bit (fuel : Nat) (rd rn : Reg) (value : Word) : Option (List Inst) :=
  if value.toInt < 0 then armProcI32bit true rd fuel rn (-value) 0 intMax
  else armProcI32bit false rd fuel rn value 0 intMax

end Code

section Chunks

variable {value : Word} {shift fuel : Nat}

def ZeroBelow (value : Word) (n : Nat) : Prop := ∀ i, i < n → value.getLsbD i = false

theorem eq_zero_of_zeroBelow (h : ZeroBelow value 32) : value = 0 := by
  apply BitVec.eq_of_getLsbD_eq
  intro i hi
  rw [h i hi, show (0 : Word).getLsbD i = false from BitVec.getLsbD_zero]

theorem pair_bits (h : (0x3 : Word) <<< shift &&& value = 0) {i : Nat} (hi : i = shift ∨ i = shift + 1) (hlt : i < 32) :
    value.getLsbD i = false := by
  have hbit : ((0x3 : Word) <<< shift &&& value).getLsbD i = false := by
    rw [h]
    exact BitVec.getLsbD_zero
  have hmask : ((0x3 : Word) <<< shift).getLsbD i = true := by
    rw [BitVec.getLsbD_shiftLeft]
    rcases hi with rfl | rfl
    · simp [hlt]
    · simp [hlt]
  rwa [BitVec.getLsbD_and, hmask, Bool.true_and] at hbit

/-- The inner loop stops at a pair of bits that is not zero. -/
theorem skipZeros_spec (hne : value ≠ 0) {j : Nat} (hshift : shift + 2 * j = 32) (hbelow : ZeroBelow value shift) :
    ∃ s, s % 2 = shift % 2 ∧ s < 32 ∧ ZeroBelow value s ∧ (0x3 : Word) <<< s &&& value ≠ 0 ∧
      ∀ fuel, j ≤ fuel → skipZeros value fuel shift = some s := by
  induction j generalizing shift with
  | zero =>
      obtain rfl : shift = 32 := by omega
      exact absurd (eq_zero_of_zeroBelow hbelow) hne
  | succ j ih =>
      by_cases hpair : (0x3 : Word) <<< shift &&& value = 0
      · have hnext : ZeroBelow value (shift + 2) := by
          intro i hi
          by_cases hlt : i < shift
          · exact hbelow i hlt
          · exact pair_bits hpair (by omega) (by omega)
        obtain ⟨s, hmod, hlt, hzero, hfound, hrun⟩ := ih (by omega) hnext
        refine ⟨s, by omega, hlt, hzero, hfound, fun fuel hfuel => ?_⟩
        obtain ⟨fuel, rfl⟩ : ∃ n, fuel = n + 1 := ⟨fuel - 1, by omega⟩
        rw [skipZeros, if_pos ⟨hne, hpair⟩, hrun fuel (by omega)]
      · refine ⟨shift, rfl, by omega, hbelow, hpair, fun fuel hfuel => ?_⟩
        obtain ⟨fuel, rfl⟩ : ∃ n, fuel = n + 1 := ⟨fuel - 1, by omega⟩
        rw [skipZeros, if_neg fun h => hpair h.2]

def chunk (value : Word) (shift : Nat) : Word := value &&& (0xFF : Word) <<< shift

theorem and_add_and_not (x mask : Word) : (x &&& mask) + (x &&& ~~~mask) = x := by
  rw [BitVec.add_eq_or_of_and_eq_zero]
  · apply BitVec.eq_of_getLsbD_eq
    intro i hi
    simp only [BitVec.getLsbD_or, BitVec.getLsbD_and, BitVec.getLsbD_not, hi, decide_true, Bool.true_and]
    cases x.getLsbD i <;> simp
  · apply BitVec.eq_of_getLsbD_eq
    intro i hi
    simp only [BitVec.getLsbD_and, BitVec.getLsbD_not, hi, decide_true, Bool.true_and]
    cases mask.getLsbD i <;> simp

theorem ones_bit (i : Nat) : (0xFF : Word).getLsbD i = decide (i < 8) := by
  have hall : ∀ i : Fin 32, (0xFF : Word).getLsbD i = decide (i.val < 8) := by decide
  by_cases hi : i < 32
  · exact hall ⟨i, hi⟩
  · rw [BitVec.getLsbD_of_ge _ _ (by omega), decide_eq_false (by omega)]

theorem rest_zeroBelow (hbelow : ZeroBelow value shift) :
    ZeroBelow (value &&& ~~~((0xFF : Word) <<< shift)) (shift + 8) := by
  intro i hi
  rw [BitVec.getLsbD_and]
  by_cases hlt : i < shift
  · rw [hbelow i hlt, Bool.false_and]
  · rw [BitVec.getLsbD_not, BitVec.getLsbD_shiftLeft, ones_bit]
    simp [show ¬i < shift by omega, show i - shift < 8 by omega]

theorem operand2_fields (heven : shift % 2 = 0) (hlt : shift < 32) :
    ((operand2 value shift).setWidth 12).extractLsb' 0 8 = (value >>> shift).setWidth 8 ∧
      2 * (((operand2 value shift).setWidth 12).extractLsb' 8 4).toNat = (32 - shift) % 32 := by
  have hrot : ∀ k : Fin 16, BitVec.ofNat 32 (((32 - 2 * k.val) >>> 1 &&& 0xF) <<< 8) =
      (BitVec.ofNat 4 (16 - k)).setWidth 32 <<< 8 := by
    decide
  obtain ⟨k, rfl⟩ : ∃ k, shift = 2 * k := ⟨shift / 2, by omega⟩
  have hop : operand2 value (2 * k) = (BitVec.ofNat 4 (16 - k)).setWidth 32 <<< 8 ||| (value >>> (2 * k) &&& 0xFF) := by
    rw [operand2, hrot ⟨k, by omega⟩]
  constructor
  · apply BitVec.eq_of_getLsbD_eq
    intro i hi
    rw [hop, BitVec.getLsbD_extractLsb', BitVec.getLsbD_setWidth, BitVec.getLsbD_or, BitVec.getLsbD_shiftLeft,
      BitVec.getLsbD_and, ones_bit, BitVec.getLsbD_setWidth]
    simp [hi, show i < 12 by omega]
  · have hfield : ((operand2 value (2 * k)).setWidth 12).extractLsb' 8 4 = BitVec.ofNat 4 (16 - k) := by
      apply BitVec.eq_of_getLsbD_eq
      intro i hi
      rw [hop, BitVec.getLsbD_extractLsb', BitVec.getLsbD_setWidth, BitVec.getLsbD_or, BitVec.getLsbD_shiftLeft,
        BitVec.getLsbD_and, ones_bit, BitVec.getLsbD_setWidth]
      simp [hi, show 8 + i < 12 by omega, show 8 + i < 32 by omega, show i < 32 by omega, show ¬8 + i < 8 by omega]
    rw [hfield, BitVec.toNat_ofNat]
    omega

theorem expandImm_operand2 (heven : shift % 2 = 0) (hlt : shift < 32) :
    expandImm ((operand2 value shift).setWidth 12) = chunk value shift := by
  obtain ⟨himm, hrot⟩ := @operand2_fields value shift heven hlt
  rw [expandImm, himm, hrot, chunk]
  apply BitVec.eq_of_getLsbD_eq
  intro i hi
  rw [BitVec.getLsbD_rotateRight, BitVec.getLsbD_and, BitVec.getLsbD_shiftLeft, ones_bit, Nat.mod_mod]
  by_cases hzero : shift = 0
  · subst hzero
    simp [hi, Bool.and_comm]
  · rw [Nat.mod_eq_of_lt (show 32 - shift < 32 by omega), show 32 - (32 - shift) = shift by omega]
    by_cases hlow : i < shift
    · have hout : value.getLsbD (shift + (32 - shift + i)) = false := BitVec.getLsbD_of_ge _ _ (by omega)
      simp [hlow, hout]
    · simp [hlow, hi, show shift + (i - shift) = i by omega, show i - shift < 32 by omega, Bool.and_comm]

end Chunks

section Runs

variable {rd rn : Reg} {sub : Bool} {value : Word} {shift : Nat} {op2 : Word}

theorem operand2_ne (value : Word) (shift : Nat) : operand2 value shift ≠ intMax := by
  intro heq
  have hbit := congrArg (BitVec.getLsbD · 30) heq
  have hle : (32 - shift) >>> 1 &&& 0xF ≤ 0xF := Nat.and_le_right
  have hlt : ((32 - shift) >>> 1 &&& 0xF) <<< 8 < 2 ^ 30 := by
    rw [Nat.shiftLeft_eq]
    omega
  have hrot : (BitVec.ofNat 32 (((32 - shift) >>> 1 &&& 0xF) <<< 8)).getLsbD 30 = false := by
    rw [BitVec.getLsbD_ofNat, Nat.testBit_lt_two_pow hlt, Bool.and_false]
  simp only [operand2, BitVec.getLsbD_or, hrot, BitVec.getLsbD_and, ones_bit, Bool.false_or] at hbit
  rw [decide_eq_false (by decide : ¬30 < 8), Bool.and_false] at hbit
  exact absurd hbit (by decide)

/-- Some instructions that add or subtract, and what they make of the first operand. -/
structure Adds (sub : Bool) (rd rn : Reg) (value : Word) (code : List Inst) : Prop where
  kind : ∀ i ∈ code, ∃ rn operand2, i = addSubImm sub rd rn operand2
  exec : ∀ s, execAll code s =
    (s.set rd (plusMinus sub (s.r rn) value)).goto (s.pc + BitVec.ofNat 32 (4 * code.length))

theorem Adds.cons {code : List Inst} (hrd : rd ≠ T32.pc) (hrn : rn ≠ T32.pc) (heven : shift % 2 = 0) (hlt : shift < 32)
    (h : Adds sub rd rd (value &&& ~~~((0xFF : Word) <<< shift)) code) :
    Adds sub rd rn value (addSubImm sub rd rn ((operand2 value shift).setWidth 12) :: code) where
  kind := by
    intro i hi
    rcases List.mem_cons.mp hi with rfl | hi
    · exact ⟨rn, _, rfl⟩
    · exact h.kind i hi
  exec s := by
    rw [execAll_cons, exec_addSubImm_of_ne hrd, expandImm_operand2 heven hlt, get_of_ne hrn, h.exec, State.goto_r, State.set_r_self,
      plusMinus_plusMinus, chunk, and_add_and_not, State.set_goto, State.set_set, State.goto_goto, State.goto_pc,
      List.length_cons, Nat.mul_succ, Nat.add_comm, BitVec.ofNat_add, ← add_assoc]
    rfl

theorem loop_step {j : Nat} (hvalue : value ≠ 0 ∨ op2 = intMax) (hzero : ZeroBelow value (32 - 8 * (j + 1)))
    (hshift : ZeroBelow value shift) (heven : shift % 2 = 0) (hle : shift < 32) :
    ∃ s, s % 2 = 0 ∧ s < 32 ∧ ZeroBelow (value &&& ~~~((0xFF : Word) <<< s)) (32 - 8 * j) ∧
      ZeroBelow (value &&& ~~~((0xFF : Word) <<< s)) s ∧ ∀ fuel, 16 ≤ fuel →
        armProcI32bit sub rd (fuel + 1) rn value shift op2 =
          (armProcI32bit sub rd fuel rd (value &&& ~~~((0xFF : Word) <<< s)) s (operand2 value s)).map
            (addSubImm sub rd rn ((operand2 value s).setWidth 12) :: ·) := by
  have hround {s : Nat} (hs : s % 2 = 0) (hlt : s < 32) (hbelow : ZeroBelow value s)
      (hpair : value = 0 ∨ (0x3 : Word) <<< s &&& value ≠ 0) (hskip : ∀ fuel, 16 ≤ fuel → skipZeros value fuel shift = some s) :
      ∃ s, s % 2 = 0 ∧ s < 32 ∧ ZeroBelow (value &&& ~~~((0xFF : Word) <<< s)) (32 - 8 * j) ∧
      ZeroBelow (value &&& ~~~((0xFF : Word) <<< s)) s ∧ ∀ fuel, 16 ≤ fuel →
        armProcI32bit sub rd (fuel + 1) rn value shift op2 =
          (armProcI32bit sub rd fuel rd (value &&& ~~~((0xFF : Word) <<< s)) s (operand2 value s)).map
            (addSubImm sub rd rn ((operand2 value s).setWidth 12) :: ·) := by
    have hrest := rest_zeroBelow hbelow
    refine ⟨s, hs, hlt, fun i hi => ?_, fun i hi => hrest i (by omega), fun fuel hfuel => ?_⟩
    · rcases hpair with rfl | hpair
      · exact (BitVec.getLsbD_and ..).trans (by simp)
      · -- the pair at s is not among the zero bits
        have hs' : 32 - 8 * (j + 1) ≤ s + 1 := by
          by_contra hgt
          refine hpair (BitVec.eq_of_getLsbD_eq fun k hk => ?_)
          rw [BitVec.getLsbD_and, BitVec.getLsbD_shiftLeft, show (0 : Word).getLsbD k = false from BitVec.getLsbD_zero]
          by_cases hin : k ≤ s + 1
          · rw [hzero k (by omega), Bool.and_false]
          · have hthree : ∀ i : Fin 32, (0x3 : Word).getLsbD (i + 2) = false := by decide
            have hout := hthree ⟨k - s - 2, by omega⟩
            rw [show k - s - 2 + 2 = k - s by omega] at hout
            rw [hout, Bool.and_false, Bool.false_and]
        exact hrest i (by omega)
    · rw [armProcI32bit, if_pos hvalue]
      show (skipZeros value fuel shift).bind _ = _
      rw [hskip fuel hfuel, Option.bind_some]
      show (armProcI32bit sub rd fuel rd (value &&& ~~~((0xFF : Word) <<< s)) s (operand2 value s)).bind _ = _
      rw [Option.map_eq_bind]
      rfl
  by_cases hne : value = 0
  · refine hround heven hle hshift (Or.inl hne) fun fuel hfuel => ?_
    obtain ⟨fuel, rfl⟩ : ∃ n, fuel = n + 1 := ⟨fuel - 1, by omega⟩
    rw [skipZeros, if_neg fun h => h.1 hne]
  · obtain ⟨s, hmod, hlt, hbelow, hpair, hskip⟩ := skipZeros_spec hne (show shift + 2 * (16 - shift / 2) = 32 by omega) hshift
    exact hround (by omega) hlt hbelow (Or.inr hpair) fun fuel hfuel => hskip fuel (by omega)

theorem loop_done (hvalue : value = 0) (hop : op2 ≠ intMax) :
    (∀ fuel, 1 ≤ fuel → armProcI32bit sub rd fuel rd value shift op2 = some []) ∧ Adds sub rd rd value [] := by
  subst hvalue
  refine ⟨fun fuel hfuel => ?_, by simp, fun s => ?_⟩
  · obtain ⟨fuel, rfl⟩ : ∃ n, fuel = n + 1 := ⟨fuel - 1, by omega⟩
    rw [armProcI32bit, if_neg (by simp [hop])]
  · have hvalue : plusMinus sub (s.r rd) 0 = s.r rd := by
      cases sub
      · exact add_zero _
      · exact sub_zero _
    rw [hvalue, State.set, Function.update_eq_self, execAll_nil]
    show s = s.goto (s.pc + 0)
    rw [add_zero]
    rfl

theorem loop_spec (hrd : rd ≠ T32.pc) {j : Nat} (hzero : ZeroBelow value (32 - 8 * j)) (hshift : ZeroBelow value shift)
    (heven : shift % 2 = 0) (hle : shift < 32) (hop : op2 ≠ intMax) :
    ∃ code, (∀ fuel, 17 + j ≤ fuel → armProcI32bit sub rd fuel rd value shift op2 = some code) ∧ code.length ≤ j ∧
      Adds sub rd rd value code := by
  by_cases hvalue : value = 0
  · obtain ⟨hrun, hadds⟩ := @loop_done rd sub value shift op2 hvalue hop
    exact ⟨[], fun fuel hfuel => hrun fuel (by omega), Nat.zero_le j, hadds⟩
  induction j generalizing value shift op2 with
  | zero => exact absurd (eq_zero_of_zeroBelow hzero) hvalue
  | succ j ih =>
      obtain ⟨s, hs, hlt, hrest, hrest', hloop⟩ := @loop_step rd rd sub value shift op2 j (Or.inl hvalue) hzero hshift heven hle
      obtain ⟨code, hcode, hlen, hadds⟩ : ∃ code, (∀ fuel, 17 + j ≤ fuel →
          armProcI32bit sub rd fuel rd (value &&& ~~~((0xFF : Word) <<< s)) s (operand2 value s) = some code) ∧
          code.length ≤ j ∧ Adds sub rd rd (value &&& ~~~((0xFF : Word) <<< s)) code := by
        by_cases hdone : value &&& ~~~((0xFF : Word) <<< s) = 0
        · obtain ⟨hrun, hadds⟩ := @loop_done rd sub _ s _ hdone (operand2_ne value s)
          exact ⟨[], fun fuel hfuel => hrun fuel (by omega), Nat.zero_le j, hadds⟩
        · exact ih hrest hrest' hs hlt (operand2_ne value s) hdone
      refine ⟨addSubImm sub rd rd ((operand2 value s).setWidth 12) :: code, fun fuel hfuel => ?_,
        Nat.succ_le_succ hlen, hadds.cons hrd hrd hs hlt⟩
      obtain ⟨fuel, rfl⟩ : ∃ n, fuel = n + 1 := ⟨fuel - 1, by omega⟩
      rw [hloop fuel (by omega), hcode fuel (by omega), Option.map_some]

theorem armProcI32bit_spec (hrd : rd ≠ T32.pc) (hrn : rn ≠ T32.pc) :
    ∃ code, (∀ fuel, 21 ≤ fuel → armProcI32bit sub rd fuel rn value 0 intMax = some code) ∧ 1 ≤ code.length ∧
      code.length ≤ 4 ∧ Adds sub rd rn value code := by
  obtain ⟨s, hs, hlt, hrest, hrest', hloop⟩ := @loop_step rd rn sub value 0 intMax 3 (Or.inr rfl)
    (fun i hi => absurd hi (by omega)) (fun i hi => absurd hi (by omega)) rfl (by omega)
  obtain ⟨code, hcode, hlen, hadds⟩ := @loop_spec rd sub _ s _ hrd 3 hrest hrest' hs hlt (operand2_ne value s)
  refine ⟨addSubImm sub rd rn ((operand2 value s).setWidth 12) :: code, fun fuel hfuel => ?_,
    Nat.succ_le_succ (Nat.zero_le _), Nat.succ_le_succ hlen, hadds.cons hrd hrn hs hlt⟩
  obtain ⟨fuel, rfl⟩ : ∃ n, fuel = n + 1 := ⟨fuel - 1, by omega⟩
  rw [hloop fuel (by omega), hcode fuel (by omega), Option.map_some]

/-- For every value: the loop ends, and one to four additions or subtractions make up the sum. -/
theorem armAddSub32Bit_adds (hrd : rd ≠ T32.pc) (hrn : rn ≠ T32.pc) (value : Word) :
    ∃ code, (∀ fuel, 21 ≤ fuel → armAddSub32Bit fuel rd rn value = some code) ∧ 1 ≤ code.length ∧ code.length ≤ 4 ∧
      (∀ i ∈ code, ∃ sub rn operand2, i = addSubImm sub rd rn operand2) ∧
      ∀ s, execAll code s = (s.set rd (s.r rn + value)).goto (s.pc + BitVec.ofNat 32 (4 * code.length)) := by
  by_cases hneg : value.toInt < 0
  · obtain ⟨code, hrun, hpos, hle, hadds⟩ := @armProcI32bit_spec rd rn true (-value) hrd hrn
    refine ⟨code, fun fuel hfuel => ?_, hpos, hle, fun i hi => ⟨true, hadds.kind i hi⟩, fun s => ?_⟩
    · rw [armAddSub32Bit, if_pos hneg, hrun fuel hfuel]
    · rw [hadds.exec, plusMinus, if_pos rfl, sub_neg_eq_add]
  · obtain ⟨code, hrun, hpos, hle, hadds⟩ := @armProcI32bit_spec rd rn false value hrd hrn
    refine ⟨code, fun fuel hfuel => ?_, hpos, hle, fun i hi => ⟨false, hadds.kind i hi⟩, fun s => ?_⟩
    · rw [armAddSub32Bit, if_neg hneg, hrun fuel hfuel]
    · rw [hadds.exec, plusMinus, if_neg (by decide)]

/-- The smallest number is its own negative. -/
theorem armAddSub32Bit_adds_min : ∃ code, (∀ fuel, 21 ≤ fuel → armAddSub32Bit fuel 0 1 0x80000000 = some code) ∧
    1 ≤ code.length ∧ code.length ≤ 4 ∧ (∀ i ∈ code, ∃ sub rn operand2, i = addSubImm sub 0 rn operand2) ∧
    ∀ s, execAll code s = (s.set 0 (s.r 1 + 0x80000000)).goto (s.pc + BitVec.ofNat 32 (4 * code.length)) :=
  armAddSub32Bit_adds (by decide) (by decide) 0x80000000

end Runs

end Mambo.ArmImmediates
