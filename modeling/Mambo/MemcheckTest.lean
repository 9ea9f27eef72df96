import Mambo.A64Plugin
import Mambo.MemcheckMark

namespace Mambo.MemcheckTest

open Bytes
open MemcheckMark (Build)

section Layout

/-- The shadow bit of an address, where `memcheck_mark` puts it. -/
def marked (build : Build) (mem : build.Word → Byte) (a : Nat) : Bool :=
  (mem (BitVec.ofNat _ (build.reservedBase + a / 8))).getLsbD (a % 8)

/-- All bytes of an access are marked, from the address within the application range on. -/
def AllMarked (build : Build) (mem : build.Word → Byte) (address : build.Word) (size : Nat) : Prop :=
  ∀ i, i < size → marked build mem (address.toNat % build.reservedBase + i) = true

theorem marked_of_marks {build : Build} {shadow : Memcheck.Shadow} {start size : build.Word} {valid : Bool}
    (hmarks : MemcheckMark.Marks shadow start size valid) :
    ∃ shadow', MemcheckMark.memcheckMark build shadow start size valid = .ok shadow' ∧
      ∀ mem : build.Word → Byte, (∀ x, mem x = shadow' x.toNat) → ∀ a, a < build.reservedBase →
        start.toNat ≤ a → a < start.toNat + size.toNat → marked build mem a = valid := by
  obtain ⟨shadow', hmark, hbits⟩ := hmarks
  refine ⟨shadow', hmark, fun mem hmem a ha hstart hend => ?_⟩
  have hword : (BitVec.ofNat build.width (build.reservedBase + a / 8)).toNat = build.reservedBase + a / 8 := by
    rw [BitVec.toNat_ofNat, Nat.mod_eq_of_lt]
    cases build
    · exact Nat.lt_of_lt_of_le (Nat.add_lt_add_left (Nat.lt_of_le_of_lt (Nat.div_le_self _ _) ha) _) (by decide)
    · exact Nat.lt_of_lt_of_le (Nat.add_lt_add_left (Nat.lt_of_le_of_lt (Nat.div_le_self _ _) ha) _) (by decide)
  rw [marked, hmem, hword]
  exact (hbits _ _ (Nat.mod_lt _ (by decide))).1 ⟨Nat.le_add_right _ _, by omega, by omega⟩

/-- The address of the shadow byte: the low bits of the address over eight, above the base. -/
theorem shadow_toNat {width n : Nat} {mask base : BitVec width} (address : BitVec width) (hmask : mask.toNat = 2 ^ n - 1)
    (hbase : base.toNat = 2 ^ n) :
    ((address &&& mask) >>> 3 ||| base).toNat = 2 ^ n + address.toNat % 2 ^ n / 8 := by
  have hlow : (address &&& mask).toNat = address.toNat % 2 ^ n := by
    rw [BitVec.toNat_and, hmask]
    exact Nat.and_two_pow_sub_one_eq_mod _ n
  have hlt : address.toNat % 2 ^ n / 8 < 2 ^ n :=
    lt_of_le_of_lt (Nat.div_le_self _ _) (Nat.mod_lt _ (Nat.two_pow_pos n))
  have hadd := Nat.two_pow_add_eq_or_of_lt hlt 1
  rw [Nat.mul_one] at hadd
  rw [BitVec.toNat_or, BitVec.toNat_ushiftRight, hlow, Nat.shiftRight_eq_div_pow, hbase, Nat.or_comm, ← hadd]

end Layout

section Bits

theorem testBit_ofBytes (bs : List Byte) (j : Nat) : (ofBytes bs).testBit j = (bs.getD (j / 8) 0).getLsbD (j % 8) := by
  induction bs generalizing j with
  | nil => rw [ofBytes, Nat.zero_testBit, List.getD_nil, show (0 : Byte).getLsbD (j % 8) = false from BitVec.getLsbD_zero]
  | cons b bs ih =>
      have hb : b.toNat < 2 ^ 8 := b.isLt
      rw [ofBytes, Nat.add_comm, show 256 = 2 ^ 8 from rfl, Nat.testBit_two_pow_mul_add _ hb]
      by_cases hj : j < 8
      · rw [if_pos hj, Nat.div_eq_of_lt hj, Nat.mod_eq_of_lt hj, List.getD_cons_zero]
        rfl
      · rw [if_neg hj, ih, show j / 8 = (j - 8) / 8 + 1 by omega, List.getD_cons_succ, show (j - 8) % 8 = j % 8 by omega]

variable {w : Nat}

theorem loadBytes_bit (m : BitVec w → Byte) (a : BitVec w) {n j : Nat} (hj : j < 8 * n) :
    (ByteMemory.loadBytes m a n).testBit j = (m (a + BitVec.ofNat w (j / 8))).getLsbD (j % 8) := by
  rw [ByteMemory.loadBytes, testBit_ofBytes, List.getD_eq_getElem _ _ (by simp; omega), List.getElem_map, List.getElem_range]

def ones (w n : Nat) : BitVec w := BitVec.ofNat w (2 ^ n - 1)

theorem ones_bit {n i : Nat} (hi : i < w) : (ones w n).getLsbD i = decide (i < n) := by
  rw [ones, BitVec.getLsbD_ofNat, decide_eq_true hi, Bool.true_and, Nat.testBit_two_pow_sub_one]

theorem missing_eq_zero (v mask : BitVec w) : (v &&& mask) ^^^ mask = 0 ↔ ∀ j, mask.getLsbD j = true → v.getLsbD j = true := by
  constructor
  · intro h j hj
    have hbit := congrArg (BitVec.getLsbD · j) h
    simp only [BitVec.getLsbD_xor, BitVec.getLsbD_and, hj] at hbit
    simpa using hbit
  · intro h
    apply BitVec.eq_of_getLsbD_eq
    intro j _
    have hj := h j
    rw [BitVec.getLsbD_xor, BitVec.getLsbD_and, show (0 : BitVec w).getLsbD j = false from BitVec.getLsbD_zero]
    cases hmask : mask.getLsbD j with
    | false => rw [Bool.and_false, Bool.xor_false]
    | true => rw [hj hmask, Bool.and_true, Bool.xor_true, Bool.not_true]

theorem missing_iff (v : BitVec w) {offset size : Nat} (hfits : offset + size ≤ w) :
    (v &&& ones w size <<< offset) ^^^ ones w size <<< offset = 0 ↔ ∀ i, i < size → v.getLsbD (offset + i) = true := by
  have hmask {j : Nat} (hj : j < w) : (ones w size <<< offset).getLsbD j = decide (offset ≤ j ∧ j < offset + size) := by
    rw [BitVec.getLsbD_shiftLeft, decide_eq_true hj, Bool.true_and]
    by_cases hlow : j < offset
    · rw [decide_eq_true hlow, Bool.not_true, Bool.false_and, decide_eq_false (by omega)]
    · rw [decide_eq_false hlow, Bool.not_false, Bool.true_and, ones_bit (by omega)]
      exact decide_eq_decide.mpr (by omega)
  rw [missing_eq_zero]
  constructor
  · intro h i hi
    refine h _ ?_
    rw [hmask (by omega), decide_eq_true (by omega)]
  · intro h j hj
    have hlt : j < w := BitVec.lt_of_getLsbD hj
    rw [hmask hlt, decide_eq_true_eq] at hj
    have hin := h (j - offset) (by omega)
    rwa [show offset + (j - offset) = j by omega] at hin

/-- The shadow bits of an access, in the doubleword that starts at its first byte's. -/
theorem allMarked_iff {build : Build} {mem : build.Word → Byte} {address base : build.Word} {size : Nat}
    (hbase : base.toNat = build.reservedBase + address.toNat % build.reservedBase / 8)
    (hmod : address.toNat % build.reservedBase % 8 = address.toNat % 8) :
    AllMarked build mem address size ↔ ∀ i, i < size →
      (mem (base + BitVec.ofNat _ ((address.toNat % 8 + i) / 8))).getLsbD ((address.toNat % 8 + i) % 8) = true := by
  refine forall₂_congr fun i hi => ?_
  have hwhere : BitVec.ofNat build.width (build.reservedBase + (address.toNat % build.reservedBase + i) / 8) =
      base + BitVec.ofNat _ ((address.toNat % 8 + i) / 8) := by
    have hword : base = BitVec.ofNat _ (build.reservedBase + address.toNat % build.reservedBase / 8) := by
      rw [← hbase, BitVec.ofNat_toNat, BitVec.setWidth_eq]
    rw [hword, ← BitVec.ofNat_add]
    congr 1
    omega
  rw [marked, hwhere, show (address.toNat % build.reservedBase + i) % 8 = (address.toNat % 8 + i) % 8 by omega]

end Bits

namespace A64

open Mambo.A64 (Word Reg State xzr bitMask)

inductive Inst
  | logicalImmed (opc : BitVec 2) (immr imms : BitVec 6) (rn rd : Reg)
  | bfm (opc : BitVec 2) (immr imms : BitVec 6) (rn rd : Reg)
  | dataProcReg2 (rm : Reg) (opcode : BitVec 6) (rn rd : Reg)
  | ldrStrUnsignedImmed (opc : BitVec 2) (imm12 : BitVec 12) (rn rt : Reg)
  | logicalReg (opc shift : BitVec 2) (n : BitVec 1) (rm : Reg) (imm6 : BitVec 6) (rn rd : Reg)
  deriving DecidableEq

section Execution

/-- AND, ORR and EOR; the fourth sets the flags and is left out. -/
def logical (opc : BitVec 2) (x y : Word) : Option Word :=
  match opc.toNat with
  | 0 => some (x &&& y)
  | 1 => some (x ||| y)
  | 2 => some (x ^^^ y)
  | _ => none

def shifted (shift : BitVec 2) (v : Word) (amount : Nat) : Word :=
  match shift.toNat with
  | 0 => v <<< amount
  | 1 => v >>> amount
  | 2 => v.sshiftRight amount
  | _ => v.rotateRight amount

/-- The bits from immr to imms, or those up to imms moved to where immr says. -/
def ubfm (immr imms : BitVec 6) (v : Word) : Word :=
  if immr.toNat ≤ imms.toNat then v >>> immr.toNat &&& ones 64 (imms.toNat - immr.toNat + 1)
  else (v &&& ones 64 (imms.toNat + 1)) <<< (64 - immr.toNat)

/-- None for what the fields do not make one of these instructions. -/
def exec (i : Inst) (s : State) : Option State :=
  match i with
  | .logicalImmed opc immr imms rn rd =>
    if imms = 63 then none
    else (logical opc (s.get rn) (bitMask immr imms)).map fun v => (s.setBase rd v).next
  | .bfm opc immr imms rn rd => if opc = 2 then some (s.set rd (ubfm immr imms (s.get rn))).next else none
  | .dataProcReg2 rm opcode rn rd =>
    if opcode.extractLsb' 2 4 = 2 then
      some (s.set rd (shifted (opcode.extractLsb' 0 2) (s.get rn) ((s.get rm).toNat % 64))).next
    else none
  | .ldrStrUnsignedImmed opc imm12 rn rt =>
    let addr := s.getBase rn + imm12.setWidth 64 <<< 3
    match opc.toNat with
    | 0 => some { s with mem := ByteMemory.store64 s.mem addr (s.get rt) }.next
    | 1 => some (s.set rt (ByteMemory.load64 s.mem addr)).next
    | _ => none
  | .logicalReg opc shift n rm imm6 rn rd =>
    let v := shifted shift (s.get rm) imm6.toNat
    (logical opc (s.get rn) (if n = 1 then ~~~v else v)).map fun v => (s.set rd v).next

def execAll (is : List Inst) (s : State) : Option State := is.foldlM (fun s i => exec i s) s

@[simp] theorem goto_mem {s : State} {p : Word} : (s.goto p).mem = s.mem := rfl

@[simp] theorem execAll_nil (s : State) : execAll [] s = some s := rfl

@[simp] theorem execAll_cons (i : Inst) (is : List Inst) (s : State) :
    execAll (i :: is) s = (exec i s).bind (execAll is) := rfl

theorem execAll_step {s t u : State} {i : Inst} {is : List Inst} (h : exec i s = some t) (hrest : execAll is t = some u) :
    execAll (i :: is) s = some u := by
  rw [execAll_cons, h]
  exact hrest

end Execution

def x0 : Reg := 0

def x1 : Reg := 1

def x2 : Reg := 2

def x3 : Reg := 3

def memcheckInst (size : Nat) : List Inst :=
  [.logicalImmed 0 0 2 x0 x1, .logicalImmed 0 0 37 x0 x2, .bfm 2 3 0x3F x2 x2, .logicalImmed 1 26 0 x2 x2,
    .logicalImmed 1 0 (BitVec.ofNat 6 (size - 1)) 0x1F x3, .dataProcReg2 x1 0x8 x3 x3, .ldrStrUnsignedImmed 1 0 x2 x1,
    .logicalReg 0 0 0 x3 0 x1 x1, .logicalReg 2 0 0 x3 0 x1 x1]

section Test

variable {s : State} {size : Nat}

def shadowOf (address : Word) : Word :=
  ubfm 3 0x3F (address &&& bitMask 0 37) ||| bitMask 26 0

theorem shadowOf_toNat (address : Word) :
    (shadowOf address).toNat = Build.aarch64.reservedBase + address.toNat % Build.aarch64.reservedBase / 8 := by
  have hlsr (v : Word) : ubfm 3 0x3F v = v >>> 3 := by
    apply BitVec.eq_of_getLsbD_eq
    intro i hi
    rw [ubfm, if_pos (by decide), BitVec.getLsbD_and, BitVec.getLsbD_ushiftRight]
    by_cases hlow : i < 61
    · rw [ones_bit hi, decide_eq_true (show i < (0x3F : BitVec 6).toNat - (3 : BitVec 6).toNat + 1 from hlow), Bool.and_true,
        BitVec.getLsbD_ushiftRight]
      rfl
    · rw [BitVec.getLsbD_of_ge v _ (show 64 ≤ (3 : BitVec 6).toNat + i by rw [show (3 : BitVec 6).toNat = 3 from rfl]; omega),
        BitVec.getLsbD_ushiftRight, BitVec.getLsbD_of_ge v _ (by omega), Bool.false_and]
  rw [shadowOf, hlsr]
  exact @shadow_toNat 64 38 (bitMask 0 37) (bitMask 26 0) address rfl (by decide)

theorem bitMask_ones (hpos : 1 ≤ size) (hle : size ≤ 56) : bitMask 0 (BitVec.ofNat 6 (size - 1)) = ones 64 size := by
  have himms : (BitVec.ofNat 6 (size - 1)).toNat + 1 = size := by
    rw [BitVec.toNat_ofNat]
    omega
  rw [bitMask, himms, ones]
  apply BitVec.eq_of_getLsbD_eq
  intro i hi
  rw [BitVec.getLsbD_rotateRight]
  simp [hi]

theorem execAll_memcheckInst (hpos : 1 ≤ size) (hle : size ≤ 56) (s : State) :
    ∃ t, execAll (memcheckInst size) s = some t ∧
      t.get x1 = (ByteMemory.load64 s.mem (shadowOf (s.get x0)) &&& ones 64 size <<< ((s.get x0).toNat % 8)) ^^^
        ones 64 size <<< ((s.get x0).toNat % 8) := by
  have himms : BitVec.ofNat 6 (size - 1) ≠ 63 := by
    intro heq
    have hval := congrArg BitVec.toNat heq
    rw [BitVec.toNat_ofNat, show (63 : BitVec 6).toNat = 63 from rfl] at hval
    omega
  have hoffset : (s.get x0 &&& bitMask 0 2).toNat % 64 = (s.get x0).toNat % 8 := by
    have hand : (s.get x0 &&& bitMask 0 2).toNat = (s.get x0).toNat % 8 := by
      rw [BitVec.toNat_and]
      exact Nat.and_two_pow_sub_one_eq_mod _ 3
    omega
  let s₁ := (s.set x1 (s.get x0 &&& bitMask 0 2)).next
  let s₂ := (s₁.set x2 (s₁.get x0 &&& bitMask 0 37)).next
  let s₃ := (s₂.set x2 (ubfm 3 0x3F (s₂.get x2))).next
  let s₄ := (s₃.set x2 (s₃.get x2 ||| bitMask 26 0)).next
  let s₅ := (s₄.set x3 (0 ||| bitMask 0 (BitVec.ofNat 6 (size - 1)))).next
  let s₆ := (s₅.set x3 (s₅.get x3 <<< ((s₅.get x1).toNat % 64))).next
  let s₇ := (s₆.set x1 (ByteMemory.load64 s₆.mem (s₆.get x2 + 0))).next
  let s₈ := (s₇.set x1 (s₇.get x1 &&& s₇.get x3 <<< 0)).next
  let s₉ := (s₈.set x1 (s₈.get x1 ^^^ s₈.get x3 <<< 0)).next
  have h₁ : exec (.logicalImmed 0 0 2 x0 x1) s = some s₁ := rfl
  have h₂ : exec (.logicalImmed 0 0 37 x0 x2) s₁ = some s₂ := rfl
  have h₃ : exec (.bfm 2 3 0x3F x2 x2) s₂ = some s₃ := rfl
  have h₄ : exec (.logicalImmed 1 26 0 x2 x2) s₃ = some s₄ := rfl
  have h₅ : exec (.logicalImmed 1 0 (BitVec.ofNat 6 (size - 1)) 0x1F x3) s₄ = some s₅ := by
    rw [exec, if_neg himms]
    rfl
  have h₆ : exec (.dataProcReg2 x1 0x8 x3 x3) s₅ = some s₆ := rfl
  have h₇ : exec (.ldrStrUnsignedImmed 1 0 x2 x1) s₆ = some s₇ := rfl
  have h₈ : exec (.logicalReg 0 0 0 x3 0 x1 x1) s₇ = some s₈ := rfl
  have h₉ : exec (.logicalReg 2 0 0 x3 0 x1 x1) s₈ = some s₉ := rfl
  refine ⟨s₉, ?_, ?_⟩
  · have hlast := execAll_step h₇ (execAll_step h₈ (execAll_step h₉ (execAll_nil s₉)))
    exact execAll_step h₁ (execAll_step h₂ (execAll_step h₃ (execAll_step h₄ (execAll_step h₅ (execAll_step h₆ hlast)))))
  · simp (disch := decide) only [s₉, s₈, s₇, s₆, s₅, s₄, s₃, s₂, s₁, State.next, State.get_goto, State.get_set_self,
      State.get_set_of_ne, goto_mem, State.set_mem, BitVec.shiftLeft_zero, hoffset, bitMask_ones hpos hle]
    rw [add_zero, show (0 : Word) ||| ones 64 size = ones 64 size from BitVec.zero_or]
    rfl

theorem memcheckInst_zero_iff (hpos : 1 ≤ size) (hle : size ≤ 56) (s : State) :
    ∃ t, execAll (memcheckInst size) s = some t ∧ (t.get x1 = 0 ↔ AllMarked .aarch64 s.mem (s.get x0) size) := by
  obtain ⟨t, ht, hvalue⟩ := execAll_memcheckInst hpos hle s
  refine ⟨t, ht, ?_⟩
  have hbase := shadowOf_toNat (s.get x0)
  have hmod : (s.get x0).toNat % Build.aarch64.reservedBase % 8 = (s.get x0).toNat % 8 := Nat.mod_mod_of_dvd _ (by decide)
  rw [hvalue, missing_iff _ (by omega)]
  refine Iff.trans (forall₂_congr fun i hi => ?_) (@allMarked_iff .aarch64 s.mem (s.get x0) _ size hbase hmod).symm
  have hbit : (ByteMemory.load64 s.mem (shadowOf (s.get x0))).getLsbD ((s.get x0).toNat % 8 + i) =
      (s.mem (shadowOf (s.get x0) + BitVec.ofNat 64 (((s.get x0).toNat % 8 + i) / 8))).getLsbD
        (((s.get x0).toNat % 8 + i) % 8) := by
    rw [← loadBytes_bit s.mem _ (show (s.get x0).toNat % 8 + i < 8 * 8 by omega), ByteMemory.load64, BitVec.getLsbD_ofNat,
      decide_eq_true (by omega), Bool.true_and]
    rfl
  rw [hbit]
  rfl

end Test

end A64

end Mambo.MemcheckTest
