import Mambo.BranchTargets

namespace Mambo.T32Branches

open BranchEmitters (Cond Within)
open BranchEmitters.T32 (Place bBlHelper b32CondHelper)
open T32 (Word Reg State entry)

/-- Branches that go forward or out of the code, with those that compare. -/
inductive Inst
  | plugin (i : T32Plugin.Inst)
  | miscCbz16 (n imm1 : BitVec 1) (imm5 : BitVec 5) (rn : BitVec 3)
  deriving DecidableEq

def Inst.size : Inst → Nat
  | .plugin i => i.size
  | .miscCbz16 .. => 2

section Encoders

def b16CondHelper (writeP destAddr : Word) (cond : Cond) : Option Inst :=
  let difference := destAddr - writeP - 4
  if -256 ≤ difference.toInt ∧ difference.toInt < 256 then
    some (.plugin (.core (.bCond16 cond (difference.extractLsb' 1 8))))
  else none

/-- None where it returns -1. -/
def cbzCbnzHelper (writeP target : Word) (reg : Reg) (cbz : Bool) : Option Inst :=
  let difference := target - writeP - 4
  if difference.toInt < 0 ∨ 127 ≤ difference.toInt then none
  else
    some (.miscCbz16 (if cbz then 0 else 1) (difference.extractLsb' 6 1) (difference.extractLsb' 1 5) (reg.setWidth 3))

end Encoders

section Decoders

/-- The offset of a branch as `scan_t32` puts it together again. -/
def branchOffset32 (signBit : BitVec 1) (offsetHigh : BitVec 10) (j1 j2 : BitVec 1) (offsetLow : BitVec 11) : Word :=
  (if signBit = 1 then (0xFF000000 : Word) else 0) ||| (if j1 ^^^ signBit = 1 then (0 : Word) else (1 : Word) <<< 23) |||
    (if j2 ^^^ signBit = 1 then (0 : Word) else (1 : Word) <<< 22) ||| offsetHigh.setWidth 32 <<< 12 ||| offsetLow.setWidth 32 <<< 1

def branchOffsetCond32 (signBit : BitVec 1) (offsetHigh : BitVec 6) (j1 j2 : BitVec 1) (offsetLow : BitVec 11) : Word :=
  (if signBit = 1 then (0xFFF00000 : Word) else 0) ||| j2.setWidth 32 <<< 19 ||| j1.setWidth 32 <<< 18 |||
    offsetHigh.setWidth 32 <<< 12 ||| offsetLow.setWidth 32 <<< 1

def branchOffset16 (imm8 : BitVec 8) : Word := imm8.signExtend 32 <<< 1

/-- The target that `scan_t32` finds for a branch. -/
def scanTarget (readAddress : Word) : Inst → Option Word
  | .plugin (.core (.b32 signBit offsetHigh j1 j2 offsetLow)) | .plugin (.bl32 signBit offsetHigh j1 j2 offsetLow) =>
    some (readAddress + branchOffset32 signBit offsetHigh j1 j2 offsetLow + 4 + 1)
  | .plugin (.blArm32 signBit offsetHigh j1 j2 offsetLow) =>
    some ((readAddress + branchOffset32 signBit offsetHigh j1 j2 offsetLow + 4 + 1) &&& 0xFFFFFFFC)
  | .plugin (.bCond32 signBit _ offsetHigh j1 j2 offsetLow) =>
    some (readAddress + branchOffsetCond32 signBit offsetHigh j1 j2 offsetLow + 4 + 1)
  | .plugin (.core (.bCond16 _ imm8)) => some (readAddress + 4 + 1 + branchOffset16 imm8)
  | .miscCbz16 _ imm1 imm5 _ => some (readAddress + (imm1.setWidth 32 <<< 6 ||| imm5.setWidth 32 <<< 1) + 4 + 1)
  | _ => none

def scanLast : Word → List Inst → Option Word
  | _, [] => none
  | readAddress, [i] => scanTarget readAddress i
  | readAddress, i :: is => scanLast (readAddress + BitVec.ofNat 32 i.size) is

end Decoders

section Execution

/-- None where the architecture leaves the outcome open, or the encoding is that of another instruction. -/
def exec (i : Inst) (s : State) : Option State :=
  match i with
  | .plugin (.core (.bCond16 condition imm8)) =>
    if 14 ≤ condition.toNat then none else some (T32.perform (.bCond16 condition imm8) s)
  | .plugin i => T32Plugin.exec i s
  | .miscCbz16 n imm1 imm5 rn =>
    some (s.goto (if (s.r (T32.low rn) == 0) != (n == 1) then s.pc + 4 + (imm1 ++ imm5 ++ (0 : BitVec 1)).setWidth 32
      else s.pc + 2))

/-- One pass over the code from an address on: an instruction is executed where the counter is at it. -/
def pass : Word → List Inst → State → Option State
  | _, [], s => some s
  | a, i :: is, s =>
    if s.pc = a then (exec i s).bind (pass (a + BitVec.ofNat 32 i.size) is) else pass (a + BitVec.ofNat 32 i.size) is s

end Execution

/-- What the helpers are asked for. -/
inductive Request
  | b
  | bl
  | blx
  | bCond32 (cond : Cond)
  | bCond16 (cond : Cond)
  | cbz (reg : Reg) (isCbz : Bool)

namespace Request

/-- The code of a helper; none where it refuses the destination. -/
def emit (r : Request) (write dest : Word) : Option (List Inst) :=
  match r with
  | .b => (bBlHelper write dest false false).map fun i => [.plugin i]
  | .bl => (bBlHelper write dest true false).map fun i => [.plugin i]
  | .blx => (bBlHelper write dest true true).map fun i => [.plugin i]
  | .bCond32 cond => (b32CondHelper write dest cond).map (List.map Inst.plugin)
  | .bCond16 cond => (b16CondHelper write dest cond).map fun i => [i]
  | .cbz reg isCbz => (cbzCbnzHelper write dest reg isCbz).map fun i => [i]

/-- The distances that the encodings reach; those of T32 code without the Thumb bit. -/
def InRange (r : Request) (write dest : Word) : Prop :=
  match r with
  | .b | .bl => Within 16777216 2 (entry dest - write - 4).toInt
  | .blx => Within 16777216 1 (dest - ((write + 4) &&& ~~~3)).toInt
  | .bCond32 _ => Within 16777216 2 (entry dest - (write + 2) - 4).toInt
  | .bCond16 _ => Within 256 2 (entry dest - write - 4).toInt
  | .cbz _ _ => 0 ≤ (entry dest - write - 4).toInt ∧ (entry dest - write - 4).toInt ≤ 126

/-- The condition that is asked for. -/
def holds (r : Request) (s : State) : Bool :=
  match r with
  | .b | .bl | .blx => true
  | .bCond32 cond | .bCond16 cond => A64.condHolds cond s.flags
  | .cbz reg isCbz => (s.get reg == 0) == isCbz

def taken (r : Request) (write dest : Word) (s : State) : State :=
  match r with
  | .bl => (s.set T32.lr (write + 4 + 1)).goto (entry dest)
  | .blx => { (s.set T32.lr (write + 4 + 1)).goto dest with thumb := false }
  | _ => s.goto (entry dest)

/-- The destination as `scan_t32` writes it down. -/
def scanned (r : Request) (dest : Word) : Word :=
  match r with
  | .blx => dest
  | _ => entry dest + 1

/-- A helper refuses exactly the destinations out of range; else its code goes to the
destination exactly if the condition holds, and is decoded to this destination. -/
structure Right (r : Request) (write dest : Word) : Prop where
  refuses : r.emit write dest = none ↔ ¬r.InRange write dest
  goes : ∀ code, r.emit write dest = some code → ∀ s : State, s.pc = write →
    pass write code s = some (if r.holds s then r.taken write dest s
      else s.goto (write + BitVec.ofNat 32 (code.map Inst.size).sum))
  decodes : ∀ code, r.emit write dest = some code → scanLast write code = some (r.scanned dest)

/-- A destination that the encoding cannot reach; else a word for BLX, a condition below AL,
a low register, and not the highest address with the Thumb bit. -/
def Exact (r : Request) (write dest : Word) : Prop :=
  ¬r.InRange write dest ∨
    match r with
    | .b | .bl => True
    | .blx => dest.toNat % 4 = 0
    | .bCond32 cond | .bCond16 cond => cond.toNat < 14
    | .cbz reg _ => reg.toNat < 8 ∧ dest - write - 4 ≠ 127

end Request

section Offsets

theorem signExtend_append {m n w : Nat} (h : BitVec m) (l : BitVec n) (hm : 0 < m) :
    (h ++ l).signExtend w = h.signExtend w <<< n ||| l.setWidth w := by
  apply BitVec.eq_of_getLsbD_eq
  intro i hi
  have hmsb : (h ++ l).msb = h.msb := by
    rw [BitVec.msb_append, if_neg (by omega)]
  rw [BitVec.getLsbD_signExtend, BitVec.getLsbD_or, BitVec.getLsbD_shiftLeft, BitVec.getLsbD_signExtend,
    BitVec.getLsbD_setWidth, BitVec.getLsbD_append, hmsb]
  by_cases hlow : i < n
  · simp [hlow, hi, show i < m + n by omega]
  · have hout : l.getLsbD i = false := BitVec.getLsbD_of_ge _ _ (by omega)
    by_cases hin : i < m + n
    · simp only [hlow, hi, hin, hout, show i - n < m by omega, show i - n < w by omega, decide_true, Bool.true_and,
        if_true, if_false, decide_false, Bool.not_false, Bool.or_false, Bool.and_false]
    · simp only [hlow, hi, hin, hout, show ¬i - n < m by omega, show i - n < w by omega, decide_true, Bool.true_and,
        if_false, decide_false, Bool.not_false, Bool.or_false, Bool.and_false]

theorem branchOffset32_eq (signBit : BitVec 1) (offsetHigh : BitVec 10) (j1 j2 : BitVec 1) (offsetLow : BitVec 11) :
    branchOffset32 signBit offsetHigh j1 j2 offsetLow = T32.branchOffset signBit offsetHigh j1 j2 offsetLow := by
  have hsign : ∀ s j1 j2 : BitVec 1, (s ++ ~~~(j1 ^^^ s) ++ ~~~(j2 ^^^ s)).signExtend 32 <<< 22 = branchOffset32 s 0 j1 j2 0 := by
    decide
  rw [T32.branchOffset, signExtend_append _ _ (by decide), signExtend_append _ _ (by decide),
    signExtend_append _ _ (by decide)]
  simp only [BitVec.shiftLeft_or_distrib, ← BitVec.shiftLeft_add]
  rw [hsign, branchOffset32, branchOffset32]
  simp

theorem branchOffsetCond32_eq (signBit : BitVec 1) (offsetHigh : BitVec 6) (j1 j2 : BitVec 1) (offsetLow : BitVec 11) :
    branchOffsetCond32 signBit offsetHigh j1 j2 offsetLow = T32Plugin.condOffset signBit offsetHigh j1 j2 offsetLow := by
  have hsign : ∀ s j1 j2 : BitVec 1, (s ++ j2 ++ j1).signExtend 32 <<< 18 = branchOffsetCond32 s 0 j1 j2 0 := by
    decide
  rw [T32Plugin.condOffset, signExtend_append _ _ (by decide), signExtend_append _ _ (by decide),
    signExtend_append _ _ (by decide)]
  simp only [BitVec.shiftLeft_or_distrib, ← BitVec.shiftLeft_add]
  rw [hsign, branchOffsetCond32, branchOffsetCond32]
  simp

theorem branchOffset16_eq (imm8 : BitVec 8) : branchOffset16 imm8 = (imm8 ++ (0 : BitVec 1)).signExtend 32 := by
  rw [branchOffset16, signExtend_append _ _ (by decide)]
  simp

theorem cbzOffset_eq : ∀ (imm1 : BitVec 1) (imm5 : BitVec 5),
    imm1.setWidth 32 <<< 6 ||| imm5.setWidth 32 <<< 1 = (imm1 ++ imm5 ++ (0 : BitVec 1)).setWidth 32 := by
  decide

end Offsets

section Distances

variable {d write dest : Word}

theorem entry_even (d : Word) : (entry d).toInt % 2 = 0 := by
  rw [BitVec.toInt_eq_toNat_cond, T32Emit.entry_toNat]
  split_ifs <;> omega

theorem within_entry {n : Int} (hn : n % 2 = 0) : Within n 2 (entry d).toInt ↔ ¬(d.toInt < -n ∨ n ≤ d.toInt) := by
  obtain ⟨hlow, hhigh⟩ := T32Emit.entry_toInt d
  have heven := entry_even d
  rw [Within]
  omega

theorem offset16_entry (hge : -256 ≤ d.toInt) (hlt : d.toInt < 256) :
    (d.extractLsb' 1 8 ++ (0 : BitVec 1)).signExtend 32 = entry d := by
  obtain ⟨hlow, hhigh⟩ := T32Emit.entry_toInt d
  have heven := entry_even d
  rw [← Immediates.signExtend_setWidth (x := entry d) (n := 9) (by decide) (by decide) (by omega) (by omega)]
  congr 1
  apply BitVec.eq_of_getLsbD_eq
  intro i hi
  rw [BitVec.getLsbD_setWidth, T32Emit.getLsbD_entry, BitVec.getLsbD_append, BitVec.getLsbD_extractLsb']
  by_cases hzero : i = 0
  · simp [hzero]
  · simp [hi, hzero, show ¬i < 1 by omega, show i - 1 < 8 by omega, show 1 + (i - 1) = i by omega]

theorem cbzOffset_entry (hge : 0 ≤ d.toInt) (hlt : d.toInt < 128) :
    (d.extractLsb' 6 1 ++ d.extractLsb' 1 5 ++ (0 : BitVec 1)).setWidth 32 = entry d := by
  have hsmall : ∀ k : Fin 128, ((BitVec.ofNat 32 k).extractLsb' 6 1 ++ (BitVec.ofNat 32 k).extractLsb' 1 5 ++
      (0 : BitVec 1)).setWidth 32 = entry (BitVec.ofNat 32 k) := by
    decide
  have hd := d.isLt
  rw [BitVec.toInt_eq_toNat_cond] at hge hlt
  have hnat : d.toNat < 128 := by split_ifs at hge hlt <;> omega
  have hk := hsmall ⟨d.toNat, hnat⟩
  rwa [BitVec.ofNat_toNat, BitVec.setWidth_eq] at hk

theorem scanned_eq (heven : write.toNat % 2 = 0) : write + entry (dest - write - 4) + 4 + 1 = entry dest + 1 := by
  rw [BranchTargets.T32.entry_distance heven, add_right_comm write, BranchTargets.T32.past_distance]

end Distances

namespace Request

variable {r : Request} {write dest : Word} {i : Inst} {cond : Cond} {reg : Reg} {isCbz : Bool}

theorem pass_one {s : State} (hpc : s.pc = write) (i : Inst) : pass write [i] s = exec i s := by
  rw [pass, if_pos hpc]
  exact Option.bind_fun_some (exec i s)

theorem exists_at (write : Word) : ∃ s : State, s.pc = write :=
  ⟨⟨write, true, fun _ => 0, ⟨false, false, false, false⟩, 0, fun _ => 0⟩, rfl⟩

theorem right_of_refused (hemit : r.emit write dest = none) (hfar : ¬r.InRange write dest) : r.Right write dest where
  refuses := iff_of_true hemit hfar
  goes code hcode := by
    rw [hemit] at hcode
    cases hcode
  decodes code hcode := by
    rw [hemit] at hcode
    cases hcode

theorem right_iff_one (hemit : r.emit write dest = some [i]) (hin : r.InRange write dest)
    (hscan : scanTarget write i = some (r.scanned dest)) :
    r.Right write dest ↔ ∀ s : State, s.pc = write →
      exec i s = some (if r.holds s then r.taken write dest s else s.goto (write + BitVec.ofNat 32 i.size)) := by
  constructor
  · intro h s hpc
    have hpass := h.goes _ hemit s hpc
    rw [pass_one hpc] at hpass
    exact hpass
  · intro h
    refine ⟨iff_of_false (by rw [hemit]; simp) (not_not.mpr hin), fun code hcode s hpc => ?_, fun code hcode => ?_⟩
    · rw [hemit] at hcode
      obtain rfl := Option.some.inj hcode
      rw [pass_one hpc]
      exact h s hpc
    · rw [hemit] at hcode
      obtain rfl := Option.some.inj hcode
      exact hscan

theorem not_right_of_refused (hemit : r.emit write dest = none) (hin : r.InRange write dest) : ¬r.Right write dest :=
  fun h => h.refuses.mp hemit hin

def fields {α : Type} (make : BitVec 1 → BitVec 10 → BitVec 1 → BitVec 1 → BitVec 11 → α) (d : Word) : α :=
  make (d.extractLsb' 31 1) (d.extractLsb' 12 10) (~~~(d.extractLsb' 23 1 ^^^ d.extractLsb' 31 1))
    (~~~(d.extractLsb' 22 1 ^^^ d.extractLsb' 31 1)) (d.extractLsb' 1 11)

def Far (d : Word) : Prop := d.toInt < -(16 * 1024 * 1024) ∨ 16 * 1024 * 1024 ≤ d.toInt

instance : Decidable (Far d) := inferInstanceAs (Decidable (_ ∨ _))

theorem far_iff (heven : write.toNat % 2 = 0) : Within 16777216 2 (entry dest - write - 4).toInt ↔ ¬Far (dest - write - 4) := by
  rw [← BranchEmitters.T32.diff, ← BranchTargets.T32.entry_distance heven, within_entry rfl]
  rfl

theorem right_long (make : BitVec 1 → BitVec 10 → BitVec 1 → BitVec 1 → BitVec 11 → Inst) (heven : write.toNat % 2 = 0)
    (hemit : r.emit write dest = if Far (dest - write - 4) then none else some [fields make (dest - write - 4)])
    (hrange : r.InRange write dest = Within 16777216 2 (entry dest - write - 4).toInt)
    (hscan : ∀ s h j1 j2 l, scanTarget write (make s h j1 j2 l) = some (write + branchOffset32 s h j1 j2 l + 4 + 1))
    (hscanned : r.scanned dest = entry dest + 1)
    (hexec : ∀ sign h j1 j2 l, write + 4 + T32.branchOffset sign h j1 j2 l = entry dest → ∀ s : State, s.pc = write →
      exec (make sign h j1 j2 l) s = some (r.taken write dest s) ∧ r.holds s = true) : r.Right write dest := by
  by_cases hfar : Far (dest - write - 4)
  · rw [if_pos hfar] at hemit
    refine right_of_refused hemit ?_
    rw [hrange, far_iff heven]
    exact not_not.mpr hfar
  · rw [if_neg hfar] at hemit
    have hin : r.InRange write dest := by
      rw [hrange, far_iff heven]
      exact hfar
    rw [Far, not_or, not_lt, not_le] at hfar
    refine (right_iff_one hemit hin ?_).mpr fun s hpc => ?_
    · rw [fields, hscan, branchOffset32_eq, T32Emit.branchOffset_eq hfar.2 hfar.1, scanned_eq heven, hscanned]
    · obtain ⟨hgo, hholds⟩ := hexec _ _ _ _ _ (by
        rw [T32Emit.branchOffset_eq hfar.2 hfar.1, BranchTargets.T32.entry_distance heven, BranchTargets.T32.past_distance])
        s hpc
      rw [hholds, if_pos rfl]
      exact hgo

theorem right_b (heven : write.toNat % 2 = 0) : Right .b write dest := by
  refine right_long (fun s h j1 j2 l => .plugin (.core (.b32 s h j1 j2 l))) heven ?_ rfl (fun _ _ _ _ _ => rfl) rfl ?_
  · rw [emit, bBlHelper]
    simp only [Bool.false_eq_true, if_false]
    exact apply_ite _ _ _ _
  · intro sign h j1 j2 l hoffset s hpc
    refine ⟨?_, rfl⟩
    show some (s.goto (s.pc + 4 + T32.branchOffset sign h j1 j2 l)) = _
    rw [hpc, hoffset]
    rfl

theorem right_bl (heven : write.toNat % 2 = 0) : Right .bl write dest := by
  refine right_long (fun s h j1 j2 l => .plugin (.bl32 s h j1 j2 l)) heven ?_ rfl (fun _ _ _ _ _ => rfl) rfl ?_
  · rw [emit, bBlHelper]
    simp only [Bool.false_eq_true, if_false]
    exact apply_ite _ _ _ _
  · intro sign h j1 j2 l hoffset s hpc
    refine ⟨?_, rfl⟩
    show some ((s.set T32.lr (s.pc + 4 + 1)).goto (s.pc + 4 + T32.branchOffset sign h j1 j2 l)) = _
    rw [hpc, hoffset]
    rfl

theorem word_toNat (x : Word) : (x &&& ~~~(3 : Word)).toNat = x.toNat / 4 * 4 := by
  have hmask : x &&& ~~~(3 : Word) = x >>> 2 <<< 2 := by
    have hthree : ∀ i : Fin 32, (3 : Word).getLsbD i = decide (i.val < 2) := by decide
    apply BitVec.eq_of_getLsbD_eq
    intro i hi
    rw [BitVec.getLsbD_and, BitVec.getLsbD_not, BitVec.getLsbD_shiftLeft, BitVec.getLsbD_ushiftRight, hthree ⟨i, hi⟩]
    by_cases hlow : i < 2
    · simp [hlow]
    · simp [hlow, hi, show 2 + (i - 2) = i by omega]
  exact hmask ▸ Immediates.shiftRight_shiftLeft_toNat x

theorem halfword_toNat (heven : write.toNat % 2 = 0) : (write &&& ~~~(2 : Word)).toNat = write.toNat / 4 * 4 := by
  rw [← word_toNat]
  congr 1
  apply BitVec.eq_of_getLsbD_eq
  intro i hi
  have hbits : ∀ i : Fin 32, (~~~(2 : Word)).getLsbD i = ((~~~(3 : Word)).getLsbD i || decide (i.val = 0)) := by decide
  have hzero : write.getLsbD 0 = false := by
    rw [BitVec.getLsbD, Nat.testBit_zero, heven]
    rfl
  rw [BitVec.getLsbD_and, BitVec.getLsbD_and, hbits ⟨i, hi⟩]
  by_cases h0 : i = 0
  · subst h0
    rw [hzero, Bool.false_and, Bool.false_and]
  · simp [h0]

theorem base_eq (heven : write.toNat % 2 = 0) : (write + 4) &&& ~~~(3 : Word) = (write &&& ~~~(2 : Word)) + 4 := by
  apply BitVec.eq_of_toNat_eq
  rw [word_toNat, BitVec.toNat_add, BitVec.toNat_add, halfword_toNat heven, show (4 : Word).toNat = 4 from rfl]
  omega

theorem exec_blx {d : Word} (hfar : ¬Far d) (s : State) :
    exec (.plugin (fields .blArm32 d)) s = if d.getLsbD 1 then none
      else some { (s.set T32.lr (s.pc + 4 + 1)).goto (((s.pc + 4) &&& ~~~(3 : Word)) + entry d) with thumb := false } := by
  rw [Far, not_or, not_lt, not_le] at hfar
  rw [← T32Emit.branchOffset_eq hfar.2 hfar.1]
  show (if (d.extractLsb' 1 11).getLsbD 0 = true then none else some _) = _
  rw [BitVec.getLsbD_extractLsb']
  rfl

theorem scan_blx {d : Word} (hfar : ¬Far d) :
    scanTarget write (.plugin (fields .blArm32 d)) = some ((write + entry d + 4 + 1) &&& ~~~(3 : Word)) := by
  rw [Far, not_or, not_lt, not_le] at hfar
  rw [← T32Emit.branchOffset_eq hfar.2 hfar.1, ← branchOffset32_eq]
  rfl

theorem bit_one (d : Word) : d.getLsbD 1 = decide (d.toNat / 2 % 2 = 1) := by
  rw [BitVec.getLsbD, Nat.testBit_succ, Nat.testBit_zero]

theorem right_blx (heven : write.toNat % 2 = 0) : Right .blx write dest ↔ Exact .blx write dest := by
  have hword := halfword_toNat heven
  have hbase := base_eq heven
  obtain ⟨d, hd⟩ : ∃ d, dest - (write &&& ~~~(2 : Word)) - 4 = d := ⟨_, rfl⟩
  have hdest : (write &&& ~~~(2 : Word)) + 4 + d = dest := by
    rw [← hd, sub_sub, add_sub_cancel]
  have hin : InRange .blx write dest ↔ ¬Far d := by
    rw [InRange, hbase, ← sub_sub, hd, Within, Far]
    omega
  have hemit : Request.blx.emit write dest = if Far d then none else some [.plugin (fields .blArm32 d)] := by
    rw [emit, bBlHelper]
    simp only [if_true, hd]
    exact apply_ite _ _ _ _
  rw [Exact, hin]
  by_cases hfar : Far d
  · rw [if_pos hfar] at hemit
    exact iff_of_true (right_of_refused hemit (by rw [hin]; exact not_not.mpr hfar)) (.inl (not_not.mpr hfar))
  · rw [if_neg hfar] at hemit
    rw [or_iff_right (not_not.mpr hfar)]
    have hentry := T32Emit.entry_toNat d
    constructor
    · intro h
      obtain ⟨s, hpc⟩ := exists_at write
      have hpass := h.goes _ hemit s hpc
      rw [pass_one hpc, exec_blx hfar, hpc, hbase, show Request.blx.holds s = true from rfl, if_pos rfl] at hpass
      split_ifs at hpass with hbit
      · have hpc := congrArg State.pc (Option.some.inj hpass)
        change (write &&& ~~~(2 : Word)) + 4 + entry d = dest at hpc
        rw [bit_one] at hbit
        rw [← hpc, BitVec.toNat_add, BitVec.toNat_add, hword, hentry, show (4 : Word).toNat = 4 from rfl]
        simp only [decide_eq_true_eq] at hbit
        omega
    · intro halign
      have hmod : d.toNat % 4 = 0 := by
        rw [← hdest, BitVec.toNat_add, BitVec.toNat_add, hword, show (4 : Word).toNat = 4 from rfl] at halign
        omega
      have hself : entry d = d := by
        apply BitVec.eq_of_toNat_eq
        omega
      refine (right_iff_one hemit (hin.mpr hfar) ?_).mpr fun s hpc => ?_
      · rw [scan_blx hfar, hself]
        congr 1
        apply BitVec.eq_of_toNat_eq
        have hsum := congrArg BitVec.toNat hdest
        rw [BitVec.toNat_add, BitVec.toNat_add, hword, show (4 : Word).toNat = 4 from rfl] at hsum
        rw [word_toNat, BitVec.toNat_add, BitVec.toNat_add, BitVec.toNat_add, show (4 : Word).toNat = 4 from rfl,
          show (1 : Word).toNat = 1 from rfl]
        show _ = dest.toNat
        omega
      · rw [exec_blx hfar, bit_one, if_neg (by simp only [decide_eq_true_eq]; omega), hpc, hbase, hself, hdest]
        rfl

theorem right_bCond16 (heven : write.toNat % 2 = 0) : Right (.bCond16 cond) write dest ↔ Exact (.bCond16 cond) write dest := by
  have hin : InRange (.bCond16 cond) write dest ↔
      -256 ≤ (dest - write - 4).toInt ∧ (dest - write - 4).toInt < 256 := by
    rw [InRange, ← BranchEmitters.T32.diff, ← BranchTargets.T32.entry_distance heven, within_entry rfl]
    omega
  rw [Exact, hin]
  by_cases hnear : -256 ≤ (dest - write - 4).toInt ∧ (dest - write - 4).toInt < 256
  · rw [or_iff_right (not_not.mpr hnear)]
    have hemit : (Request.bCond16 cond).emit write dest =
        some [.plugin (.core (.bCond16 cond ((dest - write - 4).extractLsb' 1 8)))] := by
      rw [emit, b16CondHelper, if_pos hnear, Option.map_some]
    have hoffset := offset16_entry hnear.1 hnear.2
    refine (right_iff_one hemit (hin.mpr hnear) ?_).trans ?_
    · refine congrArg some ?_
      rw [branchOffset16_eq, hoffset, add_right_comm (write + 4), add_right_comm write]
      exact scanned_eq heven
    · constructor
      · intro h
        obtain ⟨s, hpc⟩ := exists_at write
        by_contra hcond
        have hexec := h s hpc
        rw [exec, if_pos (by omega)] at hexec
        cases hexec
      · intro hcond s hpc
        rw [exec, if_neg (by omega), T32.perform, hoffset, hpc, BranchTargets.T32.entry_distance heven,
          BranchTargets.T32.past_distance]
        show _ = some (if A64.condHolds cond s.flags then _ else _)
        cases A64.condHolds cond s.flags <;> rfl
  · have hemit : (Request.bCond16 cond).emit write dest = none := by
      rw [emit, b16CondHelper, if_neg hnear, Option.map_none]
    exact iff_of_true (right_of_refused hemit (by rwa [hin])) (.inl hnear)

/-- The code of the fallback: the inverse condition skips a long branch. -/
def skipped (cond : Cond) (d : Word) : List Inst :=
  [.plugin (.core (.bCond16 (cond ^^^ 1) 1)), .plugin (fields (fun s h j1 j2 l => .core (.b32 s h j1 j2 l)) d)]

theorem inverse_lt : ∀ cond : Cond, cond.toNat < 14 → (cond ^^^ 1).toNat < 14 := by decide

theorem condHolds_inverse (cond : Cond) (h : cond.toNat < 14) (f : T32.Flags) :
    A64.condHolds (cond ^^^ 1) f = !A64.condHolds cond f := by
  obtain ⟨n, z, c, v⟩ := f
  exact (by decide : ∀ cond : Cond, cond.toNat < 14 → ∀ n z c v : Bool,
    A64.condHolds (cond ^^^ 1) ⟨n, z, c, v⟩ = !A64.condHolds cond ⟨n, z, c, v⟩) cond h n z c v

theorem emit_bCond32 : (Request.bCond32 cond).emit write dest =
    if (dest - write - 4).toInt < -(1 * 1024 * 1024) ∨ 1 * 1024 * 1024 ≤ (dest - write - 4).toInt then
      if cond.toNat < 14 ∧ ¬Far (dest - (write + 2) - 4) then some (skipped cond (dest - (write + 2) - 4)) else none
    else some [.plugin (BranchTargets.T32.near (dest - write - 4) cond)] := by
  rw [emit, b32CondHelper]
  by_cases hout : (dest - write - 4).toInt < -(1 * 1024 * 1024) ∨ 1 * 1024 * 1024 ≤ (dest - write - 4).toInt
  · rw [if_pos hout, if_pos hout]
    by_cases hcond : cond.toNat < 14
    · rw [if_pos hcond, bBlHelper]
      simp only [Bool.false_eq_true, if_false, hcond, true_and]
      by_cases hfar : Far (dest - (write + 2) - 4)
      · rw [if_neg (not_not.mpr hfar)]
        rw [Far] at hfar
        rw [if_pos hfar]
        rfl
      · rw [if_pos hfar]
        rw [Far] at hfar
        rw [if_neg hfar]
        rfl
    · rw [if_neg hcond, if_neg fun h => hcond h.1]
      rfl
  · rw [if_neg hout, if_neg hout]
    rfl

theorem pass_skipped (heven : write.toNat % 2 = 0) (hcond : cond.toNat < 14) (hfar : ¬Far (dest - (write + 2) - 4))
    {s : State} (hpc : s.pc = write) : pass write (skipped cond (dest - (write + 2) - 4)) s =
      some (if A64.condHolds cond s.flags then s.goto (entry dest) else s.goto (write + 6)) := by
  have heven' : (write + 2).toNat % 2 = 0 := by
    rw [BitVec.toNat_add, show (2 : Word).toNat = 2 from rfl]
    omega
  have hbranch : ∀ s : State, s.pc = write + 2 →
      exec (.plugin (fields (fun s h j1 j2 l => .core (.b32 s h j1 j2 l)) (dest - (write + 2) - 4))) s = some (s.goto (entry dest)) := by
    intro s hpc
    rw [Far, not_or, not_lt, not_le] at hfar
    show some (s.goto (s.pc + 4 + T32.branchOffset _ _ _ _ _)) = _
    rw [T32Emit.branchOffset_eq hfar.2 hfar.1, hpc, BranchTargets.T32.entry_distance heven', BranchTargets.T32.past_distance]
  have hskip : exec (.plugin (.core (.bCond16 (cond ^^^ 1) 1))) s =
      some (s.goto (if A64.condHolds cond s.flags then write + 2 else write + 6)) := by
    have hinv := inverse_lt cond hcond
    rw [exec, if_neg (by omega), T32.perform, hpc, condHolds_inverse cond hcond]
    cases A64.condHolds cond s.flags with
    | true => rfl
    | false =>
        rw [Bool.not_false, if_pos rfl, if_neg Bool.false_ne_true, add_assoc]
        rfl
  rw [skipped, pass, if_pos hpc, hskip, Option.bind_some]
  by_cases hholds : A64.condHolds cond s.flags = true
  · rw [if_pos hholds, if_pos hholds]
    exact (pass_one rfl _).trans (hbranch _ rfl)
  · rw [if_neg hholds, if_neg hholds, pass, if_neg]
    · rfl
    · show ¬write + 6 = write + 2
      intro heq
      exact absurd (add_left_cancel heq) (by decide)

theorem right_bCond32 (heven : write.toNat % 2 = 0) : Right (.bCond32 cond) write dest ↔ Exact (.bCond32 cond) write dest := by
  have heven' : (write + 2).toNat % 2 = 0 := by
    rw [BitVec.toNat_add, show (2 : Word).toNat = 2 from rfl]
    omega
  have hin : InRange (.bCond32 cond) write dest ↔ ¬Far (dest - (write + 2) - 4) := far_iff heven'
  have hemit := @emit_bCond32 write dest cond
  rw [Exact, hin]
  by_cases hout : (dest - write - 4).toInt < -(1 * 1024 * 1024) ∨ 1 * 1024 * 1024 ≤ (dest - write - 4).toInt
  · rw [if_pos hout] at hemit
    by_cases hfar : Far (dest - (write + 2) - 4)
    · rw [if_neg fun h => h.2 hfar] at hemit
      exact iff_of_true (right_of_refused hemit (by rw [hin]; exact not_not.mpr hfar)) (.inl (not_not.mpr hfar))
    · rw [or_iff_right (not_not.mpr hfar)]
      by_cases hcond : cond.toNat < 14
      · rw [if_pos ⟨hcond, hfar⟩] at hemit
        refine iff_of_true ?_ hcond
        refine ⟨iff_of_false (by rw [hemit]; simp) (not_not.mpr (hin.mpr hfar)), fun code hcode s hpc => ?_, fun code hcode => ?_⟩
        · rw [hemit] at hcode
          obtain rfl := Option.some.inj hcode
          exact pass_skipped heven hcond hfar hpc
        · rw [hemit] at hcode
          obtain rfl := Option.some.inj hcode
          rw [Far, not_or, not_lt, not_le] at hfar
          show some (write + 2 + branchOffset32 _ _ _ _ _ + 4 + 1) = _
          rw [branchOffset32_eq, T32Emit.branchOffset_eq hfar.2 hfar.1, scanned_eq heven']
          rfl
      · rw [if_neg fun h => hcond h.1] at hemit
        exact iff_of_false (not_right_of_refused hemit (hin.mpr hfar)) hcond
  · rw [if_neg hout] at hemit
    rw [not_or, not_lt, not_le] at hout
    have hfar : ¬Far (dest - (write + 2) - 4) := by
      have hback : dest - (write + 2) - 4 = dest - write - 4 - 2 := by
        rw [sub_sub, sub_sub, sub_sub, add_right_comm, add_assoc write 4 2]
      rw [hback, Far, BitVec.toInt_sub, show (2 : Word).toInt = 2 from rfl, Int.bmod_eq_of_le (by omega) (by omega)]
      omega
    rw [or_iff_right (not_not.mpr hfar)]
    have hoffset := BranchTargets.T32.condOffset_eq (d := dest - write - 4) (by omega) (by omega)
    refine (right_iff_one hemit (hin.mpr hfar) ?_).trans ?_
    · refine congrArg some ?_
      rw [branchOffsetCond32_eq, hoffset]
      exact scanned_eq heven
    · constructor
      · intro h
        obtain ⟨s, hpc⟩ := exists_at write
        by_contra hcond
        have hexec := h s hpc
        rw [BranchTargets.T32.near] at hexec
        change (if 14 ≤ cond.toNat then none else some _) = _ at hexec
        rw [if_pos (by omega)] at hexec
        cases hexec
      · intro hcond s hpc
        rw [BranchTargets.T32.near]
        show (if 14 ≤ cond.toNat then none else some _) = some (if A64.condHolds cond s.flags then _ else _)
        rw [if_neg (by omega), hoffset, hpc, BranchTargets.T32.entry_distance heven, BranchTargets.T32.past_distance]
        cases A64.condHolds cond s.flags <;> rfl

theorem cbz_goes {d : Word} {s : State} (hpc : s.pc = write) (hge : 0 ≤ d.toInt) (hlt : d.toInt < 128) :
    exec (.miscCbz16 (if isCbz then 0 else 1) (d.extractLsb' 6 1) (d.extractLsb' 1 5) (reg.setWidth 3)) s =
      some (s.goto (if (s.r (T32.low (reg.setWidth 3)) == 0) == isCbz then write + 4 + entry d else write + 2)) := by
  rw [exec, cbzOffset_entry hge hlt, hpc]
  cases isCbz <;> cases (s.r (T32.low (reg.setWidth 3)) == 0) <;> rfl

theorem low_eq_iff : ∀ reg : Reg, T32.low (reg.setWidth 3) = reg ↔ reg.toNat < 8 := by decide

theorem low_ne_pc : ∀ reg : BitVec 3, T32.low reg ≠ T32.pc := by decide

theorem right_cbz (heven : write.toNat % 2 = 0) : Right (.cbz reg isCbz) write dest ↔ Exact (.cbz reg isCbz) write dest := by
  obtain ⟨d, hd⟩ : ∃ d, dest - write - 4 = d := ⟨_, rfl⟩
  have hentry : entry dest - write - 4 = entry d := by
    rw [← hd, BranchTargets.T32.entry_distance heven]
    rfl
  obtain ⟨hlow, hhigh⟩ := T32Emit.entry_toInt d
  have hmod := entry_even d
  have hemit : (Request.cbz reg isCbz).emit write dest = if d.toInt < 0 ∨ 127 ≤ d.toInt then none
      else some [.miscCbz16 (if isCbz then 0 else 1) (d.extractLsb' 6 1) (d.extractLsb' 1 5) (reg.setWidth 3)] := by
    rw [emit, cbzCbnzHelper, hd]
    exact apply_ite _ _ _ _
  have hin : InRange (.cbz reg isCbz) write dest ↔ 0 ≤ (entry d).toInt ∧ (entry d).toInt ≤ 126 := by
    rw [InRange, hentry]
  have hodd : d = 127 ↔ d.toInt = 127 := by
    rw [← BitVec.toInt_inj]
    rfl
  rw [Exact, hin, hd, Ne, hodd]
  by_cases hout : d.toInt < 0 ∨ 127 ≤ d.toInt
  · rw [if_pos hout] at hemit
    by_cases hrange : 0 ≤ (entry d).toInt ∧ (entry d).toInt ≤ 126
    · refine iff_of_false (not_right_of_refused hemit (hin.mpr hrange)) ?_
      omega
    · exact iff_of_true (right_of_refused hemit (by rwa [hin])) (.inl hrange)
  · rw [if_neg hout] at hemit
    rw [not_or, not_lt, not_le] at hout
    have hrange : 0 ≤ (entry d).toInt ∧ (entry d).toInt ≤ 126 := by omega
    rw [or_iff_right (not_not.mpr hrange), and_iff_left (by omega)]
    have hgoal : write + 4 + entry d = entry dest := by
      rw [← hentry, sub_sub, add_sub_cancel]
    refine (right_iff_one hemit (hin.mpr hrange) ?_).trans ?_
    · refine congrArg some ?_
      rw [cbzOffset_eq, cbzOffset_entry hout.1 (by omega), ← hd]
      exact scanned_eq heven
    · constructor
      · intro h
        by_contra hreg
        have hne : reg ≠ T32.low (reg.setWidth 3) := fun heq => hreg ((low_eq_iff reg).mp heq.symm)
        obtain ⟨s, hpc⟩ := exists_at write
        have hexec := h (s.set (T32.low (reg.setWidth 3)) (if s.get reg = 0 then 1 else 0)) hpc
        have hget : (s.set (T32.low (reg.setWidth 3)) (if s.get reg = 0 then 1 else 0)).get reg = s.get reg := by
          rw [State.get, State.get, State.set_pc, State.set_r_of_ne hne]
        rw [cbz_goes (show (s.set _ _).pc = write from hpc) hout.1 (by omega), hgoal, holds, hget, State.set_r_self] at hexec
        have hflip : ((if s.get reg = 0 then (1 : Word) else 0) == 0) = !(s.get reg == 0) := by
          by_cases hzero : s.get reg = 0
          · rw [if_pos hzero, hzero]
            rfl
          · rw [if_neg hzero, beq_eq_false_iff_ne.mpr hzero]
            rfl
        have hapart : entry dest ≠ write + 2 := by
          intro heq
          have htwo : entry d = -2 := by
            rw [← hentry, heq]
            bv_omega
          rw [htwo] at hrange
          exact absurd hrange.1 (by decide)
        rw [hflip] at hexec
        have hpcs := congrArg State.pc (Option.some.inj hexec)
        cases hzero : s.get reg == 0 <;> rw [hzero] at hpcs <;> cases isCbz
        · exact hapart hpcs.symm
        · exact hapart hpcs
        · exact hapart hpcs
        · exact hapart hpcs.symm
      · intro hreg s hpc
        have hself := (low_eq_iff reg).mpr hreg
        have hget : s.r reg = s.get reg := (State.get_of_ne (hself ▸ low_ne_pc _)).symm
        rw [cbz_goes hpc hout.1 (by omega), hgoal, hself, hget, holds]
        cases (s.get reg == 0) == isCbz <;> rfl

/-- The helpers are right, and their branches are decoded back, exactly under the conditions
on their arguments. -/
theorem helpers_right_iff (r : Request) (write : Place) (dest : Word) : r.Right write dest ↔ r.Exact write dest := by
  have heven := write.property
  cases r with
  | b => exact iff_of_true (right_b heven) (.inr trivial)
  | bl => exact iff_of_true (right_bl heven) (.inr trivial)
  | blx => exact right_blx heven
  | bCond32 cond => exact right_bCond32 heven
  | bCond16 cond => exact right_bCond16 heven
  | cbz reg isCbz => exact right_cbz heven

/-- A comparison of r8 with zero becomes one of r0. -/
theorem high_register_wrong : ¬∀ (r : Request) (write : Place) (dest : Word), r.Right write dest := by
  intro h
  have hright := h (.cbz 8 true) ⟨0x10000, by decide⟩ 0x10010
  have hgoes := hright.goes [.miscCbz16 0 0 6 0] rfl ⟨0x10000, true, fun r => if r = 8 then 1 else 0,
    ⟨false, false, false, false⟩, 0, fun _ => 0⟩ rfl
  exact absurd (congrArg (Option.map State.pc) hgoes) (by decide)

end Request

end Mambo.T32Branches
