import Mambo.RvCodeRoom

namespace Mambo.RvHelpers

open BitPlacement CodeRuns Immediates Rv RvCode RvEmit RvCodeRoom

section Codecs

/-- An immediate of an instruction: its width, how the scanner splits an offset into
the fields, and how it reads the fields back. -/
structure Codec (w : Nat) (Fields : Type) where
  bits : Nat
  create : BitVec w → Option Fields
  decode : Fields → Word

def bImm : Codec 32 (BitVec 7 × BitVec 5) := ⟨13, createBImmPair, fun pair => decodeBImm pair.1 pair.2⟩

def cbOffset : Codec 32 (BitVec 3 × BitVec 5) := ⟨9, createCbImmPair, fun pair => decodeCbOffset pair.1 pair.2⟩

def createJImm (offset : Word) : Option (BitVec 20) :=
  if offset &&& 1 ≠ 0 ∨ offset.toInt < -1024 * 1024 ∨ offset.toInt ≥ 1024 * 1024 then none
  else some ((extr 10 1 offset <<< 9 ||| extr 1 11 offset <<< 8 ||| extr 8 12 offset <<< 0 |||
    extr 1 20 offset <<< 19).setWidth 20)

def jImm : Codec 64 (BitVec 20) := ⟨21, createJImm, decodeJImm⟩

variable {w : Nat} {Fields : Type}

def Codec.InRange (c : Codec w Fields) (offset : BitVec w) : Prop :=
  offset.getLsbD 0 = false ∧ -2 ^ (c.bits - 1) ≤ offset.toInt ∧ offset.toInt < 2 ^ (c.bits - 1)

/-- An offset is split exactly in the range, and then the fields give it back. -/
structure Codec.Inverts (c : Codec w Fields) (offset : BitVec w) : Prop where
  succeeds : (c.create offset).isSome ↔ c.InRange offset
  decoded : ∀ fields, c.create offset = some fields → c.decode fields = offset.signExtend 64

/-- Fields that are read are split again into themselves. -/
def Codec.Recovers (c : Codec w Fields) (fields : Fields) : Prop := c.create ((c.decode fields).setWidth w) = some fields

theorem even_iff (hw : 0 < w) {d : BitVec w} : d &&& 1 = 0 ↔ d.getLsbD 0 = false := by
  refine ⟨even_bit hw, fun h => ?_⟩
  apply BitVec.eq_of_getLsbD_eq
  intro i hi
  rw [BitVec.getLsbD_and]
  by_cases h0 : i = 0
  · simp [h0, h]
  · have hone : (1 : BitVec w).getLsbD i = false := by simp [h0]
    rw [hone, Bool.and_false]
    exact BitVec.getLsbD_zero.symm

theorem setWidth_signExtend {n m : Nat} (x : BitVec n) (h : m ≤ w) : (x.signExtend w).setWidth m = x.signExtend m := by
  apply BitVec.eq_of_getLsbD_eq
  intro i hi
  rw [BitVec.getLsbD_setWidth, BitVec.getLsbD_signExtend, BitVec.getLsbD_signExtend]
  simp [hi, lt_of_lt_of_le hi h]

theorem inRange_signExtend {c : Codec w Fields} {n : Nat} {x : Word} (hbits : c.bits = n) (hn : 0 < n) (hw : n ≤ w)
    (hw' : w ≤ 64) (heven : x.getLsbD 0 = false) : c.InRange (((x.setWidth n).signExtend 64).setWidth w) := by
  rw [setWidth_signExtend _ hw', Codec.InRange, hbits]
  refine ⟨?_, ?_, ?_⟩
  · rw [BitVec.getLsbD_signExtend, if_pos hn, BitVec.getLsbD_setWidth, heven, Bool.and_false, Bool.and_false]
  · rw [BitVec.toInt_signExtend_of_le hw]
    exact BitVec.le_toInt _
  · rw [BitVec.toInt_signExtend_of_le hw]
    exact BitVec.toInt_lt

/-- An offset outside the range is refused, and the fields of another. -/
structure Codec.Splits (c : Codec w Fields) (split : BitVec w → Fields) : Prop where
  refused : ∀ d, ¬ c.InRange d → c.create d = none
  created : ∀ d, c.InRange d → c.create d = some (split d)

variable {c : Codec w Fields} {split : BitVec w → Fields} {d : BitVec w} {fields : Fields}

theorem splits_of_eq (hw : 0 < w) {low high : Int} (hlow : low = -2 ^ (c.bits - 1)) (hhigh : high = 2 ^ (c.bits - 1))
    (h : ∀ d : BitVec w, c.create d = if d &&& 1 ≠ 0 ∨ d.toInt < low ∨ d.toInt ≥ high then none else some (split d)) :
    c.Splits split := by
  have hiff : ∀ d : BitVec w, d &&& 1 ≠ 0 ∨ d.toInt < low ∨ d.toInt ≥ high ↔ ¬ c.InRange d := by
    intro d
    rw [Codec.InRange, ← even_iff hw, not_and_or, not_and_or, not_le, not_lt, hlow, hhigh]
  exact ⟨fun d hd => (h d).trans (if_pos ((hiff d).mpr hd)),
    fun d hd => (h d).trans (if_neg fun hno => (hiff d).mp hno hd)⟩

theorem Codec.Splits.inverts_iff (h : c.Splits split) :
    c.Inverts d ↔ (c.InRange d → c.decode (split d) = d.signExtend 64) := by
  refine ⟨fun hinv hd => hinv.decoded _ (h.created d hd), fun hd => ?_⟩
  by_cases hrange : c.InRange d
  · refine ⟨by simp [h.created d hrange, hrange], fun fields hfields => ?_⟩
    rw [h.created d hrange, Option.some.injEq] at hfields
    rw [← hfields, hd hrange]
  · refine ⟨by simp [h.refused d hrange, hrange], fun fields hfields => ?_⟩
    rw [h.refused d hrange] at hfields
    exact absurd hfields (Option.some_ne_none fields).symm

theorem Codec.Splits.recovers_iff (h : c.Splits split) (hrange : c.InRange ((c.decode fields).setWidth w)) :
    c.Recovers fields ↔ split ((c.decode fields).setWidth w) = fields := by
  rw [Codec.Recovers, h.created _ hrange, Option.some.injEq]

theorem Codec.InRange.signExtend (h : c.InRange d) (hbits : 0 < c.bits) (hw : c.bits ≤ w) (hw' : w ≤ 64) :
    (d.setWidth c.bits).signExtend 64 = d.signExtend 64 := by
  have hcut : (d.setWidth c.bits).signExtend w = d := signExtend_setWidth hbits hw h.2.2 h.2.1
  have hint := congrArg BitVec.toInt hcut
  apply BitVec.eq_of_toInt_eq
  rw [BitVec.toInt_signExtend_of_le hw] at hint
  rw [BitVec.toInt_signExtend_of_le (hw.trans hw'), BitVec.toInt_signExtend_of_le hw', hint]

end Codecs

section Immediates

theorem bImm_splits : bImm.Splits fun d =>
    ((extr 6 5 d ||| extr 1 12 d <<< 6).setWidth 7, (extr 1 11 d ||| extr 4 1 d <<< 1).setWidth 5) :=
  splits_of_eq (by decide) (by decide) (by decide) fun _ => rfl

theorem cbOffset_splits : cbOffset.Splits fun d => ((extr 1 8 d <<< 2 ||| extr 2 3 d).setWidth 3,
    (extr 2 6 d <<< 4 ||| extr 2 1 d <<< 1 ||| extr 1 5 d).setWidth 5) :=
  splits_of_eq (by decide) (by decide) (by decide) fun _ => rfl

theorem jImm_splits : jImm.Splits fun d => (extr 10 1 d <<< 9 ||| extr 1 11 d <<< 8 ||| extr 8 12 d <<< 0 |||
    extr 1 20 d <<< 19).setWidth 20 :=
  splits_of_eq (by decide) (by decide) (by decide) fun _ => rfl

theorem bImm_inverts (d : BitVec 32) : bImm.Inverts d := by
  rw [bImm_splits.inverts_iff]
  intro h
  exact (decodeBImm_fields h.1).trans (h.signExtend (by decide) (by decide) (by decide))

theorem jImm_inverts (d : Word) : jImm.Inverts d := by
  rw [jImm_splits.inverts_iff]
  intro h
  exact (decodeJImm_fields h.1).trans (h.signExtend (by decide) (by decide) (by decide))

theorem cbOffset_bits (d : BitVec 32) :
    (decodeCbOffset ((extr 1 8 d <<< 2 ||| extr 2 3 d).setWidth 3)
        ((extr 2 6 d <<< 4 ||| extr 2 1 d <<< 1 ||| extr 1 5 d).setWidth 5)).getLsbD 6 = false ∧
      (decodeCbOffset ((extr 1 8 d <<< 2 ||| extr 2 3 d).setWidth 3)
        ((extr 2 6 d <<< 4 ||| extr 2 1 d <<< 1 ||| extr 1 5 d).setWidth 5)).getLsbD 7 = d.getLsbD 6 := by
  rw [decodeCbOffset]
  simp only [BitVec.getLsbD_setWidth, BitVec.getLsbD_signExtend, BitVec.getLsbD_or, BitVec.getLsbD_shiftLeft,
    getLsbD_extr, Nat.reduceLT, Nat.reduceAdd, Nat.reduceSub, decide_true, decide_false, if_true, Bool.true_and,
    Bool.false_and, Bool.and_true, Bool.and_false, Bool.or_false, Bool.false_or, Bool.not_true, Bool.not_false, and_self]

theorem cbOffset_inverts_iff (d : BitVec 32) :
    cbOffset.Inverts d ↔ (cbOffset.InRange d → d.getLsbD 6 = false ∧ d.getLsbD 7 = false) := by
  rw [cbOffset_splits.inverts_iff]
  refine forall_congr' fun h => ⟨fun heq => ?_, fun ⟨h6, h7⟩ => ?_⟩
  · obtain ⟨hbit6, hbit7⟩ := cbOffset_bits d
    have hdecode : decodeCbOffset _ _ = d.signExtend 64 := heq
    rw [hdecode, BitVec.getLsbD_signExtend] at hbit6 hbit7
    have h6 : d.getLsbD 6 = false := hbit6
    have h7 : d.getLsbD 7 = d.getLsbD 6 := hbit7
    exact ⟨h6, h7.trans h6⟩
  · exact (decodeCbOffset_fields h.1 h6 h7).trans (h.signExtend (by decide) (by decide) (by decide))

theorem bImm_decode_inRange (fields : BitVec 7 × BitVec 5) : bImm.InRange ((bImm.decode fields).setWidth 32) := by
  refine inRange_signExtend rfl (by decide) (by decide) (by decide) ?_
  simp only [BitVec.getLsbD_or, BitVec.getLsbD_shiftLeft]
  simp

theorem cbOffset_decode_inRange (fields : BitVec 3 × BitVec 5) :
    cbOffset.InRange ((cbOffset.decode fields).setWidth 32) := by
  refine inRange_signExtend rfl (by decide) (by decide) (by decide) ?_
  simp only [BitVec.getLsbD_or, BitVec.getLsbD_shiftLeft]
  simp

theorem jImm_decode_inRange (field : BitVec 20) : jImm.InRange ((jImm.decode field).setWidth 64) := by
  refine inRange_signExtend rfl (by decide) (by decide) (by decide) ?_
  simp only [BitVec.getLsbD_or, BitVec.getLsbD_shiftLeft]
  simp

theorem bImm_recovers (fields : BitVec 7 × BitVec 5) : bImm.Recovers fields := by
  obtain ⟨immhi, immlo⟩ := fields
  rw [bImm_splits.recovers_iff (bImm_decode_inRange _)]
  rw [show bImm.decode (immhi, immlo) = decodeBImm immhi immlo from rfl]
  simp only [decodeBImm, Prod.mk.injEq]
  obtain ⟨v, rfl, rfl⟩ := exists_fields immhi immlo
  constructor
  · revert v
    exact Bitwise.ext (by fun_prop) (by fun_prop) (by decide)
  · revert v
    exact Bitwise.ext (by fun_prop) (by fun_prop) (by decide)

theorem jImm_recovers (field : BitVec 20) : jImm.Recovers field := by
  rw [jImm_splits.recovers_iff (jImm_decode_inRange _)]
  rw [show jImm.decode field = decodeJImm field from rfl]
  simp only [decodeJImm]
  revert field
  exact Bitwise.ext (by fun_prop) (by fun_prop) (by decide)

theorem cbOffset_split_low (immhi : BitVec 3) (immlo : BitVec 5) {d : BitVec 32}
    (hd : d = (decodeCbOffset immhi immlo).setWidth 32) :
    (extr 1 8 d <<< 2 ||| extr 2 3 d).setWidth 3 = immhi ∧
      ∀ i, i < 5 → ((extr 2 6 d <<< 4 ||| extr 2 1 d <<< 1 ||| extr 1 5 d).setWidth 5).getLsbD i =
        if i < 3 then immlo.getLsbD i else if i < 4 then false else immlo.getLsbD 3 := by
  subst hd
  revert immhi immlo
  decide

theorem cbOffset_recovers_iff (fields : BitVec 3 × BitVec 5) :
    cbOffset.Recovers fields ↔ fields.2.getLsbD 3 = false ∧ fields.2.getLsbD 4 = false := by
  obtain ⟨immhi, immlo⟩ := fields
  rw [cbOffset_splits.recovers_iff (cbOffset_decode_inRange _)]
  obtain ⟨hhi, hlo⟩ := cbOffset_split_low immhi immlo rfl
  constructor
  · intro h
    have hsame := congrArg Prod.snd h
    have h3 := hlo 3 (by decide)
    have h4 := hlo 4 (by decide)
    rw [show BitVec.setWidth 5 _ = immlo from hsame] at h3 h4
    have hzero : immlo.getLsbD 3 = false := h3
    exact ⟨hzero, h4.trans hzero⟩
  · rintro ⟨h3, h4⟩
    refine Prod.ext hhi ?_
    apply BitVec.eq_of_getLsbD_eq
    intro i hi
    refine (hlo i hi).trans ?_
    have h3' : immlo.getLsbD 3 = false := h3
    have h4' : immlo.getLsbD 4 = false := h4
    split_ifs with hlow hthree
    · rfl
    · rw [show i = 3 by omega, h3']
    · rw [show i = 4 by omega, h3', h4']

end Immediates

section Writers

/-- The code and the write pointer of the caller. -/
structure Writer where
  code : Code
  writeP : Word

def Writer.put (p : Writer) (i : Inst) : Writer := { p with code := emit p.writeP [i] p.code }

def Writer.advance (p : Writer) (halfwords : Nat) : Writer := { p with writeP := past p.writeP (2 * halfwords) }

namespace Writer

variable (p : Writer) (target : Word)

/-- The pointer to the write pointer is advanced in place of the write pointer. -/
def cBcondHelper (rs1 : Reg) (eq : Bool) : Int × Writer :=
  match createCbImmPair ((target - p.writeP).setWidth 32) with
  | none => (-1, p)
  | some pair => (0, p.put (if eq then .cBeqz (rs1.setWidth 3) pair.1 pair.2 else .cBnez (rs1.setWidth 3) pair.1 pair.2))

def branchHelper (rs1 rs2 : Reg) (condition : BitVec 3) : Int × Writer :=
  match createBImmPair ((target - p.writeP).setWidth 32) with
  | none => (-1, p)
  | some pair => (0, (p.put (.branch condition rs1 rs2 pair.1 pair.2)).advance 2)

def jalHelper (rd : Reg) : Int × Writer :=
  match createJImm (target - p.writeP) with
  | none => (-1, p)
  | some imm => (0, (p.put (.jal rd imm)).advance 2)

def jalrHelper (rd rs1 : Reg) : Int × Writer :=
  let offset := target - p.writeP
  if offset.toInt < -2 ^ 31 ∨ offset.toInt > 2 ^ 31 - 1 then (-1, p)
  else (0, (((p.put (.auipc rs1 (((offset + 0x800).sshiftRight 12).setWidth 20))).advance 2).put
    (.jalr rd rs1 (offset.setWidth 12))).advance 2)

end Writer

/-- A helper without an instruction fails and leaves everything; with one it writes it
and goes on behind it. -/
def Moves (p : Writer) (i : Option Inst) (result : Int × Writer) : Prop :=
  match i with
  | none => result = (-1, p)
  | some i => result = (0, ⟨emit p.writeP [i] p.code, past p.writeP i.size⟩)

def branchInst (offset : BitVec 32) (rs1 rs2 : Reg) (condition : BitVec 3) : Option Inst :=
  (createBImmPair offset).map fun pair => .branch condition rs1 rs2 pair.1 pair.2

def jalInst (offset : Word) (rd : Reg) : Option Inst := (createJImm offset).map (.jal rd)

def cBcondInst (offset : BitVec 32) (rs1 : Reg) (eq : Bool) : Option Inst :=
  (createCbImmPair offset).map fun pair =>
    if eq then .cBeqz (rs1.setWidth 3) pair.1 pair.2 else .cBnez (rs1.setWidth 3) pair.1 pair.2

variable {p : Writer} {target : Word} {rd rs1 rs2 : Reg} {condition : BitVec 3} {eq : Bool}

theorem branchHelper_moves :
    Moves p (branchInst ((target - p.writeP).setWidth 32) rs1 rs2 condition) (p.branchHelper target rs1 rs2 condition) := by
  rw [Writer.branchHelper, branchInst]
  cases createBImmPair ((target - p.writeP).setWidth 32) <;> rfl

theorem jalHelper_moves : Moves p (jalInst (target - p.writeP) rd) (p.jalHelper target rd) := by
  rw [Writer.jalHelper, jalInst]
  cases createJImm (target - p.writeP) <;> rfl

theorem cBcondHelper_moves_iff :
    Moves p (cBcondInst ((target - p.writeP).setWidth 32) rs1 eq) (p.cBcondHelper target rs1 eq) ↔
      ¬ cbOffset.InRange ((target - p.writeP).setWidth 32) := by
  rw [Writer.cBcondHelper, cBcondInst]
  by_cases hrange : cbOffset.InRange ((target - p.writeP).setWidth 32)
  · have hcreate : createCbImmPair ((target - p.writeP).setWidth 32) = some _ := cbOffset_splits.created _ hrange
    rw [hcreate]
    refine iff_of_false (fun hmoves => ?_) (not_not.mpr hrange)
    have hsame : p.writeP = past p.writeP _ := congrArg (fun r : Int × Writer => r.2.writeP) hmoves
    have hsize : ∀ i : Inst, past p.writeP 0 ≠ past p.writeP i.size := by
      intro i h
      have hpos := size_eq i
      have hinj := past_inj (by decide) (by omega) h
      omega
    exact hsize _ ((past_zero _).trans hsame)
  · have hrefused : createCbImmPair ((target - p.writeP).setWidth 32) = none := cbOffset_splits.refused _ hrange
    rw [hrefused]
    exact iff_of_true rfl hrange

/-- The immediates of the branches and jumps of the scanner, and the helpers that write
them. Those of the compressed branches are right where nothing is encoded in the two
bits that are shifted by one too many, and no helper call for them goes on behind what
it wrote. -/
theorem codecs_invert_iff (d : BitVec 32) (far target : Word) (bFields : BitVec 7 × BitVec 5) (jField : BitVec 20)
    (cbFields : BitVec 3 × BitVec 5) (p : Writer) (rd rs1 rs2 : Reg) (condition : BitVec 3) (eq : Bool) :
    (bImm.Inverts d ∧ bImm.Recovers bFields) ∧
    (jImm.Inverts far ∧ jImm.Recovers jField) ∧
    ((cbOffset.Inverts d ↔ (cbOffset.InRange d → d.getLsbD 6 = false ∧ d.getLsbD 7 = false)) ∧
      (cbOffset.Recovers cbFields ↔ cbFields.2.getLsbD 3 = false ∧ cbFields.2.getLsbD 4 = false)) ∧
    Moves p (branchInst ((target - p.writeP).setWidth 32) rs1 rs2 condition)
      (p.branchHelper target rs1 rs2 condition) ∧
    Moves p (jalInst (target - p.writeP) rd) (p.jalHelper target rd) ∧
    (Moves p (cBcondInst ((target - p.writeP).setWidth 32) rs1 eq) (p.cBcondHelper target rs1 eq) ↔
      ¬ cbOffset.InRange ((target - p.writeP).setWidth 32)) :=
  ⟨⟨bImm_inverts d, bImm_recovers bFields⟩, ⟨jImm_inverts far, jImm_recovers jField⟩,
    ⟨cbOffset_inverts_iff d, cbOffset_recovers_iff cbFields⟩, branchHelper_moves, jalHelper_moves,
    cBcondHelper_moves_iff⟩

/-- A compressed branch 64 bytes on is encoded as one 128 bytes on, and the next
instruction overwrites it. -/
theorem cbOffset_64 : ¬ cbOffset.Inverts 64 ∧
    (createCbImmPair 64).map (fun pair => decodeCbOffset pair.1 pair.2) = some 128 ∧
    ¬ Moves ⟨fun _ => none, 0x1000⟩ (cBcondInst 64 a0 true)
      (Writer.cBcondHelper ⟨fun _ => none, 0x1000⟩ 0x1040 a0 true) := by
  have hrange : cbOffset.InRange 64 := ⟨by decide, by decide, by decide⟩
  have hmoves := @cBcondHelper_moves_iff ⟨fun _ => none, 0x1000⟩ 0x1040 a0 true
  refine ⟨fun h => ?_, by decide, fun h => hmoves.mp h hrange⟩
  exact absurd ((cbOffset_inverts_iff 64).mp h hrange).1 (by decide)

end Writers

section Pairs

/-- A pair of the two instructions takes control from an address to a target. -/
def PairReaches (a target : Word) (rd rs1 : Reg) : Prop :=
  ∃ imm20 imm12, ∀ s : State, (exec (.jalr rd rs1 imm12) (exec (.auipc rs1 imm20) (s.goto a))).pc = target

structure JumpsFar (p : Writer) (target : Word) (rd rs1 : Reg) (result : Int × Writer) : Prop where
  jumps : result.1 = 0 → ∀ s : State, ∃ t u, Steps rv (fetch result.2.code) (s.goto p.writeP) t ∧
    Steps rv (fetch result.2.code) t u ∧ u.pc = target
  refuses : result.1 = -1 ↔ ¬ PairReaches p.writeP target rd rs1
  leaves : result.1 = -1 → result.2 = p

variable {p : Writer} {a target d : Word} {rd rs1 : Reg}

theorem pair_pc (hrs1 : rs1 ≠ zero) (imm20 : BitVec 20) (imm12 : BitVec 12) (s : State) :
    (exec (.jalr rd rs1 imm12) (exec (.auipc rs1 imm20) (s.goto a))).pc =
      (a + (uImm imm20 + imm12.signExtend 64)) &&& ~~~1 := by
  rw [exec, exec, State.get_goto, State.get_set_self hrs1, State.goto_pc, State.goto_pc, BitVec.add_assoc]

theorem pair_toInt (imm20 : BitVec 20) (imm12 : BitVec 12) :
    -2 ^ 31 - 2048 ≤ (uImm imm20 + imm12.signExtend 64).toInt ∧
      (uImm imm20 + imm12.signExtend 64).toInt < 2 ^ 31 - 2048 := by
  have hhigh := toInt_uImm imm20
  have hlow : (imm12.signExtend 64).toInt = imm12.toInt := BitVec.toInt_signExtend_of_le (by decide)
  have h20 := BitVec.toInt_lt (x := imm20)
  have h20' := BitVec.le_toInt imm20
  have h12 := BitVec.toInt_lt (x := imm12)
  have h12' := BitVec.le_toInt imm12
  rw [BitVec.toInt_add, hhigh, hlow, Int.bmod_eq_of_le (by omega) (by omega)]
  omega

theorem even_mod (h : d.getLsbD 0 = false) : d.toNat % 2 = 0 := by
  rw [BitVec.getLsbD, Nat.testBit_zero, decide_eq_false_iff_not] at h
  omega

theorem masked_toNat (v : Word) : (v &&& ~~~1).toNat = v.toNat / 2 * 2 := by
  have hshift : v &&& ~~~(1 : Word) = v >>> 1 <<< 1 := by
    apply BitVec.eq_of_getLsbD_eq
    intro i hi
    rw [BitVec.getLsbD_and, BitVec.getLsbD_not, BitVec.getLsbD_shiftLeft, BitVec.getLsbD_ushiftRight]
    by_cases h0 : i = 0
    · simp [h0]
    · have hle : ¬ i < 1 := by omega
      have hback : 1 + (i - 1) = i := by omega
      simp [hi, hle, hback, h0]
  rw [hshift, shiftRight_shiftLeft_toNat, Nat.pow_one]

theorem pairReaches_iff (hrs1 : rs1 ≠ zero) (ha : a.getLsbD 0 = false) (htarget : target.getLsbD 0 = false) :
    PairReaches a target rd rs1 ↔ -2 ^ 31 - 2048 ≤ (target - a).toInt ∧ (target - a).toInt < 2 ^ 31 - 2048 := by
  constructor
  · rintro ⟨imm20, imm12, h⟩
    have hpc := h ⟨0, fun _ => 0, fun _ => 0⟩
    rw [pair_pc hrs1] at hpc
    have hsum := pair_toInt imm20 imm12
    generalize uImm imm20 + imm12.signExtend 64 = d at *
    -- the sum is the distance or, with the bit that the jump clears, one more
    have hmask := congrArg BitVec.toNat hpc
    rw [masked_toNat] at hmask
    have hb := even_mod ha
    have htarget' := even_mod htarget
    by_cases hodd : d.toNat % 2 = 0
    · have hd : target - a = d := by
        bv_omega
      rwa [hd]
    · have hd : target - a = d - 1 := by
        bv_omega
      have hint : (d - 1).toInt = d.toInt - 1 := by
        rw [BitVec.toInt_sub, show (1 : Word).toInt = 1 from rfl, Int.bmod_eq_of_le (by omega) (by omega)]
      have hcond := d.toInt_eq_toNat_cond
      rw [hd, hint]
      split at hcond <;> omega
  · rintro ⟨hge, hlt⟩
    refine ⟨((target - a + 0x800).sshiftRight 12).setWidth 20, (target - a).setWidth 12, fun s => ?_⟩
    rw [pair_pc hrs1, auipc_jalr hge hlt, add_sub_cancel, even_masked htarget]

def farPair (offset : Word) (rd rs1 : Reg) : List Inst :=
  [.auipc rs1 (((offset + 0x800).sshiftRight 12).setWidth 20), .jalr rd rs1 (offset.setWidth 12)]

theorem jalrHelper_accepts (h : -2 ^ 31 ≤ (target - p.writeP).toInt ∧ (target - p.writeP).toInt ≤ 2 ^ 31 - 1) :
    p.jalrHelper target rd rs1 = (0, ⟨emit p.writeP (farPair (target - p.writeP) rd rs1) p.code, past p.writeP 8⟩) := by
  rw [Writer.jalrHelper, if_neg (by omega)]
  show (0, (⟨_, past (past p.writeP 4) 4⟩ : Writer)) = _
  rw [past_past]
  rfl

theorem jalrHelper_refuses (h : ¬ (-2 ^ 31 ≤ (target - p.writeP).toInt ∧ (target - p.writeP).toInt ≤ 2 ^ 31 - 1)) :
    p.jalrHelper target rd rs1 = (-1, p) := by
  rw [Writer.jalrHelper, if_pos (by omega)]

theorem farPair_run {code : Code} (hrs1 : rs1 ≠ zero) (htarget : target.getLsbD 0 = false)
    (hge : -2 ^ 31 - 2048 ≤ (target - a).toInt) (hlt : (target - a).toInt < 2 ^ 31 - 2048)
    (hcode : CodeAt rv (fetch code) a (farPair (target - a) rd rs1)) (s : State) :
    ∃ t u, Steps rv (fetch code) (s.goto a) t ∧ Steps rv (fetch code) t u ∧ u.pc = target := by
  obtain ⟨hauipc, hjalr, -⟩ := hcode
  have hfirst := steps_exec (s := s) hauipc rfl
  rw [exec, State.goto_pc, State.set_goto, State.goto_goto] at hfirst
  refine ⟨_, _, hfirst, steps_exec hjalr rfl, ?_⟩
  rw [exec, State.get_goto, State.get_set_self hrs1, BitVec.add_assoc, auipc_jalr hge hlt, add_sub_cancel,
    even_masked htarget, State.goto_pc]

/-- The helper takes the distances of an int for those of the pair, which are 2048
lower on both sides. -/
theorem jalrHelper_jumpsFar_iff (hrs1 : rs1 ≠ zero) (hp : p.writeP.getLsbD 0 = false) (htarget : target.getLsbD 0 = false) :
    JumpsFar p target rd rs1 (p.jalrHelper target rd rs1) ↔
      ¬ (2 ^ 31 - 2048 ≤ (target - p.writeP).toInt ∧ (target - p.writeP).toInt ≤ 2 ^ 31 - 1) ∧
        ¬ (-2 ^ 31 - 2048 ≤ (target - p.writeP).toInt ∧ (target - p.writeP).toInt < -2 ^ 31) := by
  have hreaches := @pairReaches_iff _ _ rd rs1 hrs1 hp htarget
  have hne : (0 : Int) ≠ -1 := by decide
  by_cases hrange : -2 ^ 31 ≤ (target - p.writeP).toInt ∧ (target - p.writeP).toInt ≤ 2 ^ 31 - 1
  · rw [jalrHelper_accepts hrange]
    constructor
    · intro h
      have hpair : PairReaches p.writeP target rd rs1 := by
        by_contra hno
        exact hne (h.refuses.mpr hno)
      have hbounds := hreaches.mp hpair
      omega
    · rintro ⟨habove, -⟩
      have hpair := hreaches.mpr ⟨by omega, by omega⟩
      have hcode : CodeAt rv (fetch (emit p.writeP (farPair (target - p.writeP) rd rs1) p.code)) p.writeP
          (farPair (target - p.writeP) rd rs1) := emit_codeAt (show 8 < 2 ^ 64 by decide)
      exact ⟨fun _ s => farPair_run hrs1 htarget (by omega) (by omega) hcode s,
        iff_of_false hne (not_not.mpr hpair), fun h => absurd h hne⟩
  · rw [jalrHelper_refuses hrange]
    constructor
    · intro h
      have hno := hreaches.not.mp (h.refuses.mp rfl)
      omega
    · rintro ⟨-, hbelow⟩
      have hno := hreaches.not.mpr (by omega)
      exact ⟨fun h => absurd h hne.symm, iff_of_true rfl hno, fun _ => rfl⟩

/-- The call of the dispatcher from 256 bytes behind it. -/
theorem jalrHelper_jumpsFar_dispatcher :
    JumpsFar ⟨fun _ => none, 0x10000100⟩ 0x10000000 zero s1
      (Writer.jalrHelper ⟨fun _ => none, 0x10000100⟩ 0x10000000 zero s1) :=
  (jalrHelper_jumpsFar_iff (by decide) (by decide) (by decide)).mpr ⟨by decide, by decide⟩

/-- Two bytes short of 2 GiB on, the helper accepts what no pair reaches. -/
theorem jalrHelper_wraps : ¬ JumpsFar ⟨fun _ => none, 0x10000000⟩ 0x8FFFFFFE zero s1
    (Writer.jalrHelper ⟨fun _ => none, 0x10000000⟩ 0x8FFFFFFE zero s1) := by
  intro h
  have hrange := (jalrHelper_jumpsFar_iff (p := ⟨fun _ => none, 0x10000000⟩) (by decide) (by decide) (by decide)).mp h
  exact absurd hrange.1 (by decide)

end Pairs

section Constants

variable {code : Code} {a value : Word} {reg : Reg} {s : State}

/-- A register gets any constant and the others keep theirs, with the room it takes. -/
theorem copyToReg_exact (hreg : reg ≠ zero) (hcode : CodeAt rv (fetch code) a (copyToReg reg value)) :
    (∃ u, Reaches rv (fetch code) (s.goto a) u ∧ u.pc = past a (bytes (copyToReg reg value)) ∧ u.get reg = value ∧
      (∀ r, r ≠ reg → u.get r = s.get r) ∧ u.mem = s.mem) ∧
    bytes (copyToReg reg value) ≤ 26 ∧ (value.toNat < 2 ^ 47 → bytes (copyToReg reg value) ≤ 20) := by
  refine ⟨⟨_, copyToReg_run hreg hcode, State.goto_pc, ?_, fun r hr => ?_, ?_⟩, bytes_copyToReg reg value, fun hlt => ?_⟩
  · rw [State.get_goto, State.get_set_self hreg]
  · rw [State.get_goto, State.get_set_of_ne hr]
  · exact State.set_mem
  · exact bytes_copyToReg_le (d := 2) (by omega)

/-- A value whose upper part is rounded up. -/
theorem copyToReg_exact_carry : ∃ u, Reaches rv (fetch (emit 0x1000 (copyToReg a0 0x7FFFFFFFFFFFFFFF) fun _ => none))
    (State.goto ⟨0, fun _ => 0, fun _ => 0⟩ 0x1000) u ∧ u.get a0 = 0x7FFFFFFFFFFFFFFF := by
  have hlen := bytes_copyToReg a0 0x7FFFFFFFFFFFFFFF
  have hcode := @emit_codeAt (fun _ => none) 0x1000 _ (hlen.trans_lt (by decide))
  obtain ⟨⟨u, hrun, -, hvalue, -⟩, -⟩ := copyToReg_exact (s := ⟨0, fun _ => 0, fun _ => 0⟩) (by decide) hcode
  exact ⟨u, hrun, hvalue⟩

end Constants

end Mambo.RvHelpers
