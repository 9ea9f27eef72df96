import Mambo.RvPlugin
import Mathlib.Data.Nat.ModEq

namespace Mambo.RvvSize

open Rv (Reg Word zero)
open RvPlugin

def csrVstart : Csr := 0x008
def csrVl : Csr := 0xC20
def csrVtype : Csr := 0xC21
def csrVlenb : Csr := 0xC22

def riscvLog2Pow2 (v : Nat) : Nat := if v > 1 then riscvLog2Pow2 (v >>> 1) + 1 else 0
termination_by v
decreasing_by
  rw [Nat.shiftRight_one]
  omega

section Words

def opcode (w : BitVec 32) : Nat := (w &&& 0x7f).toNat
def width (w : BitVec 32) : Nat := ((w >>> 12) &&& 0x7).toNat
def lumop (w : BitVec 32) : Nat := ((w >>> 20) &&& 0x1f).toNat
def mop (w : BitVec 32) : Nat := ((w >>> 26) &&& 0x3).toNat
def nf (w : BitVec 32) : Nat := ((w >>> 29) &&& 0x7).toNat

/-- The words of v_load, v_store and v_amo in each of the four widths. -/
def isRvvMem (w : BitVec 32) : Bool :=
  (opcode w == 0x07 || opcode w == 0x27 || opcode w == 0x2f) &&
    (width w == 0 || width w == 5 || width w == 6 || width w == 7)

def eewBytes (w : BitVec 32) : Nat :=
  match width w with
  | 5 => 2
  | 6 => 4
  | 7 => 8
  | _ => 1

def isAmo (w : BitVec 32) : Bool := opcode w == 0x2f
def isWholeReg (w : BitVec 32) : Bool := !isAmo w && mop w == 0 && lumop w == 0x08
def isMask (w : BitVec 32) : Bool := !isAmo w && mop w == 0 && lumop w == 0x0b
def isIndexed (w : BitVec 32) : Bool := !isAmo w && (mop w == 1 || mop w == 3)

def nfCount (w : BitVec 32) : Nat := if isAmo w then 1 else nf w + 1
def log2Nf (w : BitVec 32) : Nat := riscvLog2Pow2 (nfCount w)

end Words

section Emitter

def scale (r : Reg) (shift : Nat) : List Inst :=
  if shift ≠ 0 then [.core (.slli r r (BitVec.ofNat 6 shift))] else []

/-- `mambo_calc_rvv_ld_st_size`: what it emits; none for -1. -/
def calcRvvLdStSize (w : BitVec 32) (sizeReg scratchReg : Reg) : Option (List Inst) :=
  if !isRvvMem w then none
  else if isWholeReg w then some (.csrrs sizeReg csrVlenb zero :: scale sizeReg (log2Nf w))
  else if isMask w then
    some [.csrrs sizeReg csrVl zero, .core (.addi sizeReg sizeReg 7), .core (.srli sizeReg sizeReg 3)]
  else
    let active : List Inst :=
      [.csrrs sizeReg csrVl zero, .csrrs scratchReg csrVstart zero, .core (.sub sizeReg sizeReg scratchReg)]
    if isIndexed w then
      some
        (active ++
          ([.csrrs scratchReg csrVtype zero, .core (.srli scratchReg scratchReg 3), .andi scratchReg scratchReg 7] ++
            ((if log2Nf w ≠ 0 then [.core (.addi scratchReg scratchReg (BitVec.ofNat 12 (log2Nf w)))] else []) ++
              [.sll sizeReg sizeReg scratchReg])))
    else some (active ++ scale sizeReg (riscvLog2Pow2 (eewBytes w) + log2Nf w))

end Emitter

section Sizes

variable (w : BitVec 32) (m : Machine)

def vl : Nat := (m.csr csrVl).toNat
def vstart : Nat := (m.csr csrVstart).toNat
def vlenb : Nat := (m.csr csrVlenb).toNat

def sewBytes : Nat := 2 ^ ((m.csr csrVtype).extractLsb' 3 3).toNat

/-- The bytes of one field of all segments, or of one whole register. -/
def fieldBytes : Nat :=
  if isWholeReg w then vlenb m
  else if isIndexed w then (vl m - vstart m) * sewBytes m
  else (vl m - vstart m) * eewBytes w

/-- The bytes that an instruction transfers; none for an AMO, which is none of these forms. -/
def transferred : Option Nat :=
  if isAmo w then none
  else if isMask w then some ((vl m + 7) / 8)
  else some (fieldBytes w m * (nf w + 1))

/-- The size is right in the 64 bits of a register, and the two registers are the only ones that changed. -/
structure Computes (sizeReg scratchReg : Reg) (m' : Machine) : Prop where
  size : ∀ n, transferred w m = some n → m'.get sizeReg = BitVec.ofNat 64 n
  changes : Changes [sizeReg, scratchReg] m m'

/-- What is left of the number of fields above its highest power of two transfers nothing. -/
def NoRest : Prop :=
  (nf w + 1 = 1 ∨ nf w + 1 = 2 ∨ nf w + 1 = 4 ∨ nf w + 1 = 8) ∨
    2 ^ 64 ∣ fieldBytes w m * (nf w + 1 - 2 ^ Nat.log2 (nf w + 1))

def Exact : Prop :=
  if isAmo w then True else if isMask w then vl m + 7 < 2 ^ 64 else NoRest w m

end Sizes

section Runs

variable {w : BitVec 32} {m m' : Machine} {sizeReg scratchReg r : Reg} {v : Word} {k n : Nat}

theorem nf_lt : nf w < 8 := by
  rw [nf, BitVec.toNat_and]
  exact Nat.and_lt_two_pow (n := 3) _ (by decide)

theorem riscvLog2Pow2_eq (v : Nat) : riscvLog2Pow2 v = Nat.log2 v := by
  induction v using Nat.strong_induction_on with
  | _ v ih =>
      rw [riscvLog2Pow2, Nat.log2_def, Nat.shiftRight_one]
      by_cases h : 2 ≤ v
      · rw [if_pos (show v > 1 from h), if_pos h, ih (v / 2) (by omega)]
      · rw [if_neg (show ¬v > 1 from h), if_neg h]

theorem log2Nf_eq : log2Nf w = Nat.log2 (nfCount w) := riscvLog2Pow2_eq _

theorem nfCount_le : nfCount w ≤ 8 := by
  have hlt := @nf_lt w
  rw [nfCount]
  split <;> omega

theorem log2Nf_le : log2Nf w ≤ 3 := by
  have hle := @nfCount_le w
  rw [log2Nf_eq]
  by_cases hzero : nfCount w = 0
  · rw [hzero]
    decide
  · have hlt : Nat.log2 (nfCount w) < 4 := (Nat.log2_lt hzero).mpr (by omega)
    omega

theorem log2_eewBytes : riscvLog2Pow2 (eewBytes w) ≤ 3 ∧ 2 ^ riscvLog2Pow2 (eewBytes w) = eewBytes w := by
  simp only [riscvLog2Pow2_eq]
  rw [eewBytes]
  split <;> decide

theorem scale_get (hr : r ≠ zero) (hk : k < 64) : (execAll (scale r k) m).get r = m.get r <<< k := by
  by_cases hzero : k = 0
  · rw [scale, if_neg (not_not.mpr hzero), hzero, execAll_nil]
    simp
  · rw [scale, if_pos hzero, execAll_cons, exec_slli, execAll_nil, Machine.get_next, Machine.get_set_self hr,
      BitVec.toNat_ofNat, Nat.mod_eq_of_lt hk]

theorem scale_changes {rs : List Reg} (hr : r ∈ rs) : Changes rs m (execAll (scale r k) m) := by
  rw [scale]
  split
  · rw [execAll_cons, exec_slli]
    exact changes_set hr
  · exact .refl rs m

theorem ofNat_shiftLeft (a : Nat) : BitVec.ofNat 64 a <<< k = BitVec.ofNat 64 (a * 2 ^ k) := by
  apply BitVec.eq_of_toNat_eq
  rw [BitVec.toNat_shiftLeft, BitVec.toNat_ofNat, Nat.shiftLeft_eq, Nat.mod_mul_mod, BitVec.toNat_ofNat]

theorem shift_eq_iff {base : Nat} (hn : n ≠ 0) :
    BitVec.ofNat 64 base <<< Nat.log2 n = BitVec.ofNat 64 (base * n) ↔ 2 ^ 64 ∣ base * (n - 2 ^ Nat.log2 n) := by
  have hle : 2 ^ Nat.log2 n ≤ n := Nat.log2_self_le hn
  have hmod : base * 2 ^ Nat.log2 n ≡ base * n [MOD 2 ^ 64] ↔ 2 ^ 64 ∣ base * (n - 2 ^ Nat.log2 n) := by
    rw [Nat.mul_sub]
    exact Nat.modEq_iff_dvd' (Nat.mul_le_mul_left _ hle)
  rw [← hmod, ofNat_shiftLeft, ← BitVec.toNat_inj, BitVec.toNat_ofNat, BitVec.toNat_ofNat]
  rfl

/-- The part of the code that the forms with active elements share. -/
def activeCode (sizeReg scratchReg : Reg) : List Inst :=
  [.csrrs sizeReg csrVl zero, .csrrs scratchReg csrVstart zero, .core (.sub sizeReg sizeReg scratchReg)]

def vsewCode (scratchReg : Reg) : List Inst :=
  [.csrrs scratchReg csrVtype zero, .core (.srli scratchReg scratchReg 3), .andi scratchReg scratchReg 7]

def shiftCode (w : BitVec 32) (scratchReg : Reg) : List Inst :=
  vsewCode scratchReg ++
    if log2Nf w ≠ 0 then [.core (.addi scratchReg scratchReg (BitVec.ofNat 12 (log2Nf w)))] else []

theorem calcRvvLdStSize_of_mem (h : isRvvMem w = true) :
    calcRvvLdStSize w sizeReg scratchReg = some
      (if isWholeReg w then .csrrs sizeReg csrVlenb zero :: scale sizeReg (log2Nf w)
      else if isMask w then
        [.csrrs sizeReg csrVl zero, .core (.addi sizeReg sizeReg 7), .core (.srli sizeReg sizeReg 3)]
      else if isIndexed w then
        activeCode sizeReg scratchReg ++ (shiftCode w scratchReg ++ [.sll sizeReg sizeReg scratchReg])
      else activeCode sizeReg scratchReg ++ scale sizeReg (riscvLog2Pow2 (eewBytes w) + log2Nf w)) := by
  rw [calcRvvLdStSize, h]
  by_cases hwhole : isWholeReg w = true
  · simp [hwhole]
  · by_cases hmask : isMask w = true
    · simp [hwhole, hmask]
    · by_cases hindexed : isIndexed w = true
      · simp [hwhole, hmask, hindexed, activeCode, shiftCode, vsewCode]
      · simp [hwhole, hmask, hindexed, activeCode]

theorem activeCode_get (hsize : sizeReg ≠ zero) (hscratch : scratchReg ≠ zero) (hne : sizeReg ≠ scratchReg)
    (hle : vstart m ≤ vl m) :
    (execAll (activeCode sizeReg scratchReg) m).get sizeReg = BitVec.ofNat 64 (vl m - vstart m) := by
  have hsub : m.csr csrVl - m.csr csrVstart = BitVec.ofNat 64 (vl m - vstart m) := by
    apply BitVec.eq_of_toNat_eq
    have hlt := (m.csr csrVl).isLt
    have hvl : vl m = (m.csr csrVl).toNat := rfl
    rw [BitVec.toNat_sub_of_le hle, BitVec.toNat_ofNat, Nat.mod_eq_of_lt (by omega)]
    rfl
  simp [activeCode, hsize, hscratch, hne, hsub]

theorem activeCode_changes : Changes [sizeReg, scratchReg] m (execAll (activeCode sizeReg scratchReg) m) := by
  simp only [activeCode, execAll_cons, exec_csrrs, exec_sub, execAll_nil]
  exact ((changes_set (by simp)).set (by simp)).set (by simp)

def vsew (m : Machine) : Nat := ((m.csr csrVtype).extractLsb' 3 3).toNat

theorem vsew_lt : vsew m < 8 := BitVec.isLt _

theorem andi_vsew : m.csr csrVtype >>> 3 &&& (7#12).signExtend 64 = BitVec.ofNat 64 (vsew m) := by
  apply BitVec.eq_of_toNat_eq
  have hlt := @vsew_lt m
  have hseven : ((7#12).signExtend 64).toNat = 2 ^ 3 - 1 := by decide
  rw [BitVec.toNat_and, hseven, Nat.and_two_pow_sub_one_eq_mod, BitVec.toNat_ushiftRight, BitVec.toNat_ofNat,
    Nat.mod_eq_of_lt (a := vsew m) (by omega), vsew, BitVec.extractLsb'_toNat]

theorem vsewCode_get (hscratch : scratchReg ≠ zero) :
    (execAll (vsewCode scratchReg) m).get scratchReg = BitVec.ofNat 64 (vsew m) := by
  rw [← andi_vsew]
  simp [vsewCode, hscratch]

theorem vsewCode_changes : Changes [scratchReg] m (execAll (vsewCode scratchReg) m) := by
  have hmem : scratchReg ∈ [scratchReg] := List.mem_singleton_self _
  simp only [vsewCode, execAll_cons, exec_csrrs, exec_srli, exec_andi, execAll_nil]
  exact ((changes_set hmem).set hmem).set hmem

theorem shiftCode_get (hscratch : scratchReg ≠ zero) :
    (execAll (shiftCode w scratchReg) m).get scratchReg = BitVec.ofNat 64 (vsew m + log2Nf w) := by
  rw [shiftCode, execAll_append]
  by_cases hzero : log2Nf w = 0
  · rw [if_neg (not_not.mpr hzero), execAll_nil, vsewCode_get hscratch, hzero, Nat.add_zero]
  · have himm : (BitVec.ofNat 12 (log2Nf w)).signExtend 64 = BitVec.ofNat 64 (log2Nf w) := by
      have hle := @log2Nf_le w
      have hall : ∀ k : Fin 4, (BitVec.ofNat 12 k).signExtend 64 = BitVec.ofNat 64 k := by decide
      exact hall ⟨log2Nf w, by omega⟩
    rw [if_pos hzero, execAll_cons, exec_addi, execAll_nil, Machine.get_next, Machine.get_set_self hscratch, vsewCode_get hscratch,
      himm,
      BitVec.ofNat_add]

theorem shiftCode_changes : Changes [scratchReg] m (execAll (shiftCode w scratchReg) m) := by
  rw [shiftCode, execAll_append]
  refine vsewCode_changes.trans ?_
  split
  · rw [execAll_cons, exec_addi]
    exact changes_set (List.mem_singleton_self _)
  · exact .refl _ _

theorem calcRvvLdStSize_changes {is : List Inst} (his : calcRvvLdStSize w sizeReg scratchReg = some is) :
    Changes [sizeReg, scratchReg] m (execAll is m) := by
  have hsize : sizeReg ∈ [sizeReg, scratchReg] := List.mem_cons_self ..
  have hscratch : scratchReg ∈ [sizeReg, scratchReg] := by simp
  have hmem : isRvvMem w = true := by
    by_contra hnot
    rw [calcRvvLdStSize, Bool.eq_false_iff.mpr hnot] at his
    exact absurd his (by simp)
  rw [calcRvvLdStSize_of_mem hmem, Option.some.injEq] at his
  rw [← his]
  split
  · rw [execAll_cons, exec_csrrs]
    exact (changes_set hsize).trans (scale_changes hsize)
  split
  · simp only [execAll_cons, exec_csrrs, exec_addi, exec_srli, execAll_nil]
    exact ((changes_set hsize).set hsize).set hsize
  split
  · rw [execAll_append, execAll_append, execAll_cons, exec_sll]
    refine (activeCode_changes.trans (shiftCode_changes.mono ?_)).trans (changes_set hsize)
    intro r hr
    rw [List.mem_singleton.mp hr]
    exact hscratch
  · rw [execAll_append]
    exact activeCode_changes.trans (scale_changes hsize)

theorem size_of_not_mask {is : List Inst} (hsize : sizeReg ≠ zero) (hscratch : scratchReg ≠ zero)
    (hne : sizeReg ≠ scratchReg) (hle : vstart m ≤ vl m) (hmem : isRvvMem w = true) (hmask : isMask w = false)
    (his : calcRvvLdStSize w sizeReg scratchReg = some is) :
    (execAll is m).get sizeReg = BitVec.ofNat 64 (fieldBytes w m) <<< log2Nf w := by
  have hlog := @log2Nf_le w
  rw [calcRvvLdStSize_of_mem hmem, Option.some.injEq, hmask] at his
  rw [← his, fieldBytes]
  split
  · rw [execAll_cons, scale_get hsize (by omega), exec_csrrs, Machine.get_next, Machine.get_set_self hsize, vlenb,
      BitVec.ofNat_toNat, BitVec.setWidth_eq]
  simp only [Bool.false_eq_true, if_false]
  split
  · have hvsew := @vsew_lt m
    have hsame : vsew (execAll (activeCode sizeReg scratchReg) m) = vsew m := by
      rw [vsew, activeCode_changes.csr, vsew]
    have hamount : ((BitVec.ofNat 64 (vsew m + log2Nf w)).setWidth 6).toNat = vsew m + log2Nf w := by
      rw [BitVec.toNat_setWidth, BitVec.toNat_ofNat]
      omega
    rw [execAll_append, execAll_append, execAll_cons, exec_sll, execAll_nil, Machine.get_next, Machine.get_set_self hsize,
      shiftCode_get hscratch, shiftCode_changes.get _ (by simpa using hne), activeCode_get hsize hscratch hne hle]
    rw [hsame, hamount, BitVec.shiftLeft_add, ofNat_shiftLeft]
    rfl
  · obtain ⟨hewlog, hew⟩ := @log2_eewBytes w
    rw [execAll_append, scale_get hsize (by omega), activeCode_get hsize hscratch hne hle, BitVec.shiftLeft_add,
      ofNat_shiftLeft, hew]

/-- The masks add seven, which may wrap around. -/
theorem size_of_mask {is : List Inst} (hsize : sizeReg ≠ zero) (hmem : isRvvMem w = true) (hmask : isMask w = true)
    (his : calcRvvLdStSize w sizeReg scratchReg = some is) :
    (execAll is m).get sizeReg = (m.csr csrVl + 7) >>> 3 := by
  have hwhole : isWholeReg w = false := by
    by_contra hnot
    simp only [isMask, Bool.and_eq_true, beq_iff_eq] at hmask
    simp [isWholeReg, hmask.2] at hnot
  rw [calcRvvLdStSize_of_mem hmem, Option.some.injEq, hwhole, hmask] at his
  rw [← his]
  simp [hsize]

theorem mask_eq_iff : (m.csr csrVl + 7) >>> 3 = BitVec.ofNat 64 ((vl m + 7) / 8) ↔ vl m + 7 < 2 ^ 64 := by
  have hvl : (m.csr csrVl).toNat = vl m := rfl
  have hlt : vl m < 2 ^ 64 := (m.csr csrVl).isLt
  rw [← BitVec.toNat_inj, BitVec.toNat_ushiftRight, BitVec.toNat_add, hvl, BitVec.toNat_ofNat,
    show (7 : Word).toNat = 7 from rfl, Nat.shiftRight_eq_div_pow]
  omega

theorem dvd_zero_of_rest (base : Nat) {rest : Nat} (h : rest = 0) : 2 ^ 64 ∣ base * rest := by
  rw [h, Nat.mul_zero]
  exact dvd_zero _

theorem noRest_iff (base : Nat) :
    (n = 1 ∨ n = 2 ∨ n = 4 ∨ n = 8) ∨ 2 ^ 64 ∣ base * (n - 2 ^ Nat.log2 n) ↔
      2 ^ 64 ∣ base * (n - 2 ^ Nat.log2 n) := by
  refine or_iff_right_of_imp ?_
  rintro (rfl | rfl | rfl | rfl) <;> exact dvd_zero_of_rest _ (by decide)

/-- The emitted code computes the size exactly where the number of fields is a power of two, what is left of it
transfers nothing, or the bits of a mask are counted without wrapping around. -/
theorem computes_iff_exact (hsize : sizeReg ≠ zero) (hscratch : scratchReg ≠ zero) (hne : sizeReg ≠ scratchReg)
    (hmem : isRvvMem w = true) (hle : vstart m ≤ vl m) :
    (∃ is, calcRvvLdStSize w sizeReg scratchReg = some is ∧ Computes w m sizeReg scratchReg (execAll is m)) ↔
      Exact w m := by
  obtain ⟨is, hemitted⟩ : ∃ is, calcRvvLdStSize w sizeReg scratchReg = some is := ⟨_, calcRvvLdStSize_of_mem hmem⟩
  have hchanges : Changes [sizeReg, scratchReg] m (execAll is m) := calcRvvLdStSize_changes hemitted
  have hcomputes : (∃ is, calcRvvLdStSize w sizeReg scratchReg = some is ∧
      Computes w m sizeReg scratchReg (execAll is m)) ↔
      ∀ n, transferred w m = some n → (execAll is m).get sizeReg = BitVec.ofNat 64 n := by
    constructor
    · rintro ⟨is', his', hsizes, -⟩
      rw [hemitted, Option.some.injEq] at his'
      exact his' ▸ hsizes
    · exact fun h => ⟨is, hemitted, h, hchanges⟩
  rw [hcomputes, Exact]
  cases hamo : isAmo w with
  | true => simp [transferred, hamo]
  | false =>
      cases hmask : isMask w with
      | true =>
          simp only [transferred, hamo, hmask, Bool.false_eq_true, if_false, if_true, Option.some.injEq, forall_eq',
            size_of_mask hsize hmem hmask hemitted, mask_eq_iff]
      | false =>
          have hcount : log2Nf w = Nat.log2 (nf w + 1) := by rw [log2Nf_eq, nfCount, hamo]; rfl
          have hvalue := size_of_not_mask hsize hscratch hne hle hmem hmask hemitted
          rw [hcount] at hvalue
          simp only [transferred, hamo, hmask, Bool.false_eq_true, if_false, Option.some.injEq, forall_eq', hvalue,
            shift_eq_iff (Nat.succ_ne_zero _), NoRest, noRest_iff]

def vlseg3e8 : BitVec 32 := 0x42050407

def fourActive : Machine where
  core := ⟨0, fun _ => 0, fun _ => 0⟩
  csr r := if r = csrVl then 4 else 0

/-- Three fields are shifted as if they were two: eight bytes for twelve. -/
theorem vlseg3e8_wrong : isRvvMem vlseg3e8 = true ∧ vstart fourActive ≤ vl fourActive ∧
    ¬∃ is, calcRvvLdStSize vlseg3e8 10 11 = some is ∧ Computes vlseg3e8 fourActive 10 11 (execAll is fourActive) := by
  have hmem : isRvvMem vlseg3e8 = true := by decide
  refine ⟨hmem, by decide, ?_⟩
  rintro ⟨is, his, hsize, -⟩
  have htwelve := hsize 12 (by decide)
  rw [size_of_not_mask (by decide) (by decide) (by decide) (by decide) hmem (by decide) his, log2Nf_eq] at htwelve
  exact absurd htwelve (by decide)

/-- Two fields of one byte each are sized right. -/
theorem vlseg2e8_computes :
    (∃ is, calcRvvLdStSize 0x22050407 10 11 = some is ∧ Computes 0x22050407 fourActive 10 11 (execAll is fourActive)) ↔
      Exact 0x22050407 fourActive :=
  computes_iff_exact (by decide) (by decide) (by decide) (by decide) (by decide)

end Runs

end Mambo.RvvSize
