import Mambo.A64LoadStore
import Mambo.A64PushCalls
import Mathlib.Tactic.Linarith

namespace Mambo.A64AccessAddr

open A64 (Word Reg State)
open A64Plugin EmitResults SignBits A64LoadStore A64PushCalls
open A64AddSub (sp emitAddSubI)
open SafeFcalls (Emitted)

section Decoding

variable {inst : Instruction} {w : Encoding}

def Indexed (inst : Instruction) (w : Encoding) : Prop := inst = .ldrStrReg ∧ rm w ≠ 31

instance : Decidable (Indexed inst w) := inferInstanceAs (Decidable (_ ∧ _))

theorem shifted_eq (w : Encoding) : shifted (v w) (opc w) (size w) = scale w := by
  have hall : ∀ (a : BitVec 1) (b c : BitVec 2), shifted a b c = if a = 1 then (b.extractLsb' 1 1 ++ c).toNat else c.toNat := by
    decide
  exact hall (v w) (opc w) (size w)

theorem scale_le (h : v w = 1 → (opc w).getLsbD 1 = true → size w = 0) : scale w ≤ 4 := by
  have hall : ∀ (a : BitVec 1) (b c : BitVec 2), (a = 1 → b.getLsbD 1 = true → c = 0) →
      (if a = 1 then (b.extractLsb' 1 1 ++ c).toNat else c.toNat) ≤ 4 := by
    decide
  exact hall (v w) (opc w) (size w) h

theorem pairScale_eq (h : ¬IsStgp w) : pairScale w = 2 + (size w).toNat >>> (1 - (v w).toNat) := by
  have hall : ∀ (a : BitVec 1) (b : BitVec 2),
      (if a = 1 then 2 + b.toNat else 2 + (b.getLsbD 1).toNat) = 2 + b.toNat >>> (1 - a.toNat) := by
    decide
  rw [pairScale, if_neg h]
  exact hall (v w) (size w)

theorem pairShift_le (h : size w ≠ 3) : 2 + (size w).toNat >>> (1 - (v w).toNat) ≤ 4 := by
  have hall : ∀ (a : BitVec 1) (b : BitVec 2), b ≠ 3 → 2 + b.toNat >>> (1 - a.toNat) ≤ 4 := by decide
  exact hall (v w) (size w) h

theorem toInt_shiftLeft {n k : Nat} {x : BitVec n} (hlow : -2 ^ n ≤ 2 * (x.toInt * 2 ^ k)) (hhigh : 2 * (x.toInt * 2 ^ k) < 2 ^ n) :
    (x <<< k).toInt = x.toInt * 2 ^ k := by
  have hmod : ((x.toNat : Int) * 2 ^ k).bmod (2 ^ n) = (x.toInt * 2 ^ k).bmod (2 ^ n) := by
    rw [BitVec.toInt_eq_toNat_bmod, Int.bmod_mul_bmod]
  rw [BitVec.toInt_shiftLeft, Nat.shiftLeft_eq, Nat.cast_mul, Nat.cast_pow, Nat.cast_ofNat, hmod]
  apply Int.bmod_eq_of_le <;> push_cast <;> omega

theorem signExtend_shiftLeft {n k : Nat} (x : BitVec n) (hfits : n + k ≤ 32) :
    (x.signExtend 32 <<< k).toInt = x.toInt * 2 ^ k ∧ (x.signExtend 32 <<< k).signExtend 64 = x.signExtend 64 <<< k := by
  have hwide {m : Nat} (hm : 32 ≤ m) : (x.signExtend m <<< k).toInt = x.toInt * 2 ^ k := by
    have hint : (x.signExtend m).toInt = x.toInt := BitVec.toInt_signExtend_of_le (by omega)
    have hpow : (2 : Int) ^ n * 2 ^ k ≤ 2 ^ m := by
      rw [← pow_add]
      exact pow_le_pow_right₀ (by decide) (by omega)
    have hpos : (0 : Int) < 2 ^ k := pow_pos (by decide) k
    have hlow := mul_le_mul_of_nonneg_right (BitVec.le_two_mul_toInt (x := x)) hpos.le
    have hhigh := mul_lt_mul_of_pos_right (BitVec.two_mul_toInt_lt (x := x)) hpos
    have hassoc : 2 * x.toInt * 2 ^ k = 2 * (x.toInt * 2 ^ k) := mul_assoc ..
    rw [toInt_shiftLeft, hint] <;> rw [hint] <;> linarith
  refine ⟨hwide (le_refl 32), BitVec.eq_of_toInt_eq ?_⟩
  rw [BitVec.toInt_signExtend_of_le (by decide), hwide (le_refl 32), hwide (by decide)]

theorem setWidth_shiftLeft {k : Nat} (x : BitVec 12) (hk : k ≤ 4) :
    (x.setWidth 32 <<< k).toInt = x.toNat * 2 ^ k ∧ (x.setWidth 32 <<< k).signExtend 64 = x.setWidth 64 <<< k := by
  have hpow : 2 ^ k ≤ 2 ^ 4 := Nat.pow_le_pow_right (by decide) hk
  have hlt : x.toNat * 2 ^ k < 2 ^ 12 * 2 ^ 4 := Nat.mul_lt_mul_of_lt_of_le x.isLt hpow (by decide)
  have hwide {m : Nat} (hm : 32 ≤ m) : (x.setWidth m <<< k).toNat = x.toNat * 2 ^ k := by
    have hm' : 2 ^ 32 ≤ 2 ^ m := Nat.pow_le_pow_right (by decide) hm
    have hx := x.isLt
    rw [BitVec.toNat_shiftLeft, BitVec.toNat_setWidth, Nat.shiftLeft_eq, Nat.mod_eq_of_lt (show x.toNat < 2 ^ m by omega),
      Nat.mod_eq_of_lt (by omega)]
  have hint : (x.setWidth 32 <<< k).toInt = x.toNat * 2 ^ k := by
    have hnat := hwide (le_refl 32)
    rw [BitVec.toInt_eq_toNat_of_lt (by omega), hnat, Nat.cast_mul, Nat.cast_pow, Nat.cast_ofNat]
  refine ⟨hint, ?_⟩
  rw [← A64AddSub.setWidth_of_nonneg (by rw [hint]; positivity)]
  apply BitVec.eq_of_toNat_eq
  rw [BitVec.toNat_setWidth, hwide (le_refl 32), hwide (by decide), Nat.mod_eq_of_lt (by omega)]

theorem decoded_pair (hall : Allocated .ldpStp w) : ∃ d : BitVec 32, decoded .ldpStp w = some (regInvalid, d) ∧
    d.signExtend 64 = immedOffset .ldpStp w - lost .ldpStp w ∧ -0x400 ≤ d.toInt ∧ d.toInt ≤ 0xFFF0 := by
  refine ⟨_, rfl, ?_⟩
  rw [signExtendBits_setWidth (imm7 w) (by decide) (by decide)]
  by_cases htype : pairType w = 1
  · rw [if_neg (not_not.mpr htype), immedOffset, if_pos htype, lost, if_neg fun h => h.2.2 htype]
    decide
  · have hle := pairShift_le (hall.1 rfl).1
    have hpow : (2 : Int) ^ (2 + (size w).toNat >>> (1 - (v w).toNat)) ≤ 2 ^ 4 := pow_le_pow_right₀ (by decide) hle
    have hpos : (0 : Int) < 2 ^ (2 + (size w).toNat >>> (1 - (v w).toNat)) := pow_pos (by decide) _
    obtain ⟨hint, hwide⟩ := signExtend_shiftLeft (imm7 w) (show 7 + (2 + (size w).toNat >>> (1 - (v w).toNat)) ≤ 32 by omega)
    have hge := BitVec.le_two_mul_toInt (x := imm7 w)
    have hlt := BitVec.two_mul_toInt_lt (x := imm7 w)
    rw [if_pos htype, hwide, hint, immedOffset, if_neg htype]
    refine ⟨?_, by nlinarith, by nlinarith⟩
    by_cases hstgp : IsStgp w
    · have hshift : 2 + (size w).toNat >>> (1 - (v w).toNat) = 2 := by
        rw [hstgp.1, hstgp.2.1]
        rfl
      have hscale : pairScale w = 4 := by
        rw [pairScale, hstgp.1, if_neg (by decide), if_pos hstgp]
      rw [hshift, hscale, lost, if_pos ⟨rfl, hstgp, htype⟩, sub_sub_cancel]
    · rw [← pairScale_eq hstgp, lost, if_neg fun h => hstgp h.2.1]
      exact (sub_zero _).symm

theorem lost_eq_zero (hne : inst ≠ .ldpStp) : lost inst w = 0 := by rw [lost, if_neg fun h => hne h.1]

/-- Where no index register is added, the code adds the immediate offset, up to what is lost of it. -/
theorem decoded_constant (hlit : inst ≠ .ldrLit) (hother : inst ≠ .other) (hidx : ¬Indexed inst w)
    (hall : Allocated inst w) : ∃ d : BitVec 32, decoded inst w = some (regInvalid, d) ∧
    d.signExtend 64 = immedOffset inst w - lost inst w ∧ -0x400 ≤ d.toInt ∧ d.toInt ≤ 0xFFF0 := by
  have hzero {d : BitVec 32} (hd : d = 0) (himm : immedOffset inst w = 0) (hlost : lost inst w = 0) :
      d.signExtend 64 = immedOffset inst w - lost inst w ∧ -0x400 ≤ d.toInt ∧ d.toInt ≤ 0xFFF0 := by
    rw [hd, himm, hlost]
    decide
  cases inst with
  | ldpStp => exact decoded_pair hall
  | ldrLit => exact absurd rfl hlit
  | other => exact absurd rfl hother
  | ldrStrUnsignedImmed =>
      refine ⟨_, rfl, ?_⟩
      have hle := scale_le (hall.2.1 (Or.inl rfl))
      obtain ⟨hint, hwide⟩ := setWidth_shiftLeft (imm12 w) hle
      have hpow : (2 : Int) ^ scale w ≤ 2 ^ 4 := pow_le_pow_right₀ (by decide) hle
      have hpos : (0 : Int) < 2 ^ scale w := pow_pos (by decide) _
      have hlt : ((imm12 w).toNat : Int) ≤ 4095 := by omega
      rw [shifted_eq, hwide, hint, lost_eq_zero (by decide), sub_zero]
      exact ⟨rfl, by nlinarith, by nlinarith⟩
  | ldrStrImmed =>
      refine ⟨_, rfl, ?_⟩
      rw [signExtendBits_setWidth (imm9 w) (by decide) (by decide), lost_eq_zero (by decide), sub_zero, immedOffset]
      by_cases htype : immedType w = 1
      · rw [if_neg (not_not.mpr htype), if_pos htype]
        decide
      · have hge := BitVec.le_two_mul_toInt (x := imm9 w)
        have hlt := BitVec.two_mul_toInt_lt (x := imm9 w)
        rw [if_pos htype, if_neg htype, BitVec.toInt_signExtend_of_le (by decide)]
        refine ⟨?_, by omega, by omega⟩
        apply BitVec.eq_of_toInt_eq
        rw [BitVec.toInt_signExtend_of_le (by decide), BitVec.toInt_signExtend_of_le (by decide),
          BitVec.toInt_signExtend_of_le (by decide)]
  | ldrStrReg =>
      have hrm : rm w = 31 := not_not.mp fun hne => hidx ⟨rfl, hne⟩
      exact ⟨0, by rw [decoded, if_pos hrm], hzero rfl rfl (lost_eq_zero (by decide))⟩
  | ldxStx | ldxStxMultiple | ldxStxMultiplePost | ldxStxSingle | ldxStxSinglePost | ldadd | ldclr | ldeor | ldset | swp =>
      exact ⟨0, rfl, hzero rfl rfl (lost_eq_zero (by decide))⟩

theorem decoded_index (hidx : Indexed inst w) :
    decoded inst w = some (((rm w).toNat : Int), BitVec.ofNat 32 (indexShift w) <<< 3 ||| (option w).setWidth 32) := by
  obtain ⟨rfl, hrm⟩ := hidx
  rw [decoded, if_neg hrm, shifted_eq, indexShift]
  have hbit : sBit w ≠ 0 ↔ sBit w = 1 := by
    have hall : ∀ b : BitVec 1, b ≠ 0 ↔ b = 1 := by decide
    exact hall (sBit w)
  simp only [hbit]

end Decoding

section Generation

variable {reg base r : Reg} {count : Int} {d : BitVec 32} {opt : BitVec 3} {k : Nat}

/-- The offsets that `emit_add_sub_i` takes. -/
def Fits (d : BitVec 32) : Prop := -0xFFFFFF ≤ d.toInt ∧ d.toInt ≤ 0xFFFFFF

instance : Decidable (Fits d) := inferInstanceAs (Decidable (_ ∧ _))

instance : Decidable (A64AddSub.Exact reg base d) := inferInstanceAs (Decidable (¬_))

theorem getBase_goto {t : State} {p : Word} : (t.goto p).getBase r = t.getBase r := rfl

theorem setBase_goto {t : State} {p x : Word} : (t.goto p).setBase r x = (t.setBase r x).goto p := by
  rw [State.setBase, State.setBase]
  split
  · rfl
  · exact State.set_goto

/-- What `emit_add_sub_i` leaves in the destination, where it fails too. -/
def outcome (reg base : Reg) (d : BitVec 32) (t : State) : Word :=
  if Fits d ∧ A64AddSub.Exact reg base d then t.getBase base + d.signExtend 64 else t.getBase reg

theorem emitAddSubI_ret (h : Fits d) : (emitAddSubI reg base d).ret = 0 := by
  rw [emitAddSubI]
  split
  · rfl
  · rw [if_neg (by rw [Fits] at h; omega)]
    split <;> rfl

theorem emitAddSubI_exec (t : State) : execAll (emitAddSubI reg base d).code t =
    (t.setBase reg (outcome reg base d t)).goto (t.pc + BitVec.ofNat 64 (4 * (emitAddSubI reg base d).code.length)) := by
  rw [outcome]
  by_cases hfits : Fits d
  · by_cases hexact : A64AddSub.Exact reg base d
    · rw [if_pos ⟨hfits, hexact⟩]
      exact (A64AddSub.sets_of_exact hexact).code (emitAddSubI_ret hfits) t
    · rw [if_neg fun h => hexact h.2, setBase_getBase]
      obtain ⟨rfl, hbase, rfl⟩ := not_not.mp hexact
      rw [emitAddSubI, if_pos rfl, if_pos hbase.symm, A64AddSub.emitMov, if_neg hbase]
      rfl
  · rw [if_neg fun h => hfits h.1, setBase_getBase, emitAddSubI, if_neg (by rintro rfl; exact hfits (by decide)),
      if_pos (by rw [Fits] at hfits; omega)]
    exact (State.goto_self (add_zero _).symm).symm

def applied (base : Reg) (count : Int) : BitVec 32 := if base = sp then BitVec.ofInt 32 count * 8 else 0

theorem generateAddr_constant :
    generateAddr count reg base regInvalid d = some (emitAddSubI reg base (d + applied base count)).code := by
  rw [generateAddr, if_neg (by decide)]
  exact if_pos (Or.inr (le_refl _))

theorem emitAddSubExt_index (hk : k ≤ 4) :
    emitAddSubExt reg base r.toNat (((BitVec.ofNat 32 k <<< 3 ||| opt.setWidth 32) &&& 7).setWidth 3)
      ((BitVec.ofNat 32 k <<< 3 ||| opt.setWidth 32).sshiftRight 3) = .ok [.addSubExtReg 0 r opt (BitVec.ofNat 3 k) base reg] := by
  have hall : ∀ (k : Fin 5) (opt : BitVec 3), ((BitVec.ofNat 32 k <<< 3 ||| opt.setWidth 32) &&& 7).setWidth 3 = opt ∧
      (BitVec.ofNat 32 k <<< 3 ||| opt.setWidth 32).sshiftRight 3 = BitVec.ofNat 32 k ∧
      ¬((BitVec.ofNat 32 k).toInt > 4 ∨ (BitVec.ofNat 32 k).toInt < 0) ∧
      (BitVec.ofNat 32 k).setWidth 3 = BitVec.ofNat 3 k := by
    decide
  obtain ⟨hopt, hshift, hrange, hwidth⟩ := hall ⟨k, by omega⟩ opt
  dsimp only at hopt hshift hrange hwidth
  rw [hopt, hshift, emitAddSubExt, if_neg hrange, hwidth, if_neg (by omega), Int.natAbs_natCast, BitVec.ofNat_toNat,
    BitVec.setWidth_eq]

/-- The correction of an index form has to fit into one instruction. -/
def Small (d : BitVec 32) : Prop := 0 ≤ d.toInt ∧ d.toInt ≤ 0xFFF

theorem generateAddr_index_none (hr : r ≠ 31) (hsmall : ¬Small (applied base count)) :
    generateAddr count reg base r.toNat d = none := by
  have hnat : r.toNat ≠ 31 := fun h => hr (BitVec.eq_of_toNat_eq h)
  have hlt := r.isLt
  rw [generateAddr, if_neg (by omega)]
  dsimp only
  rw [← applied, if_neg (by rw [regInvalid]; omega), if_pos, if_neg]
  · rw [Small] at hsmall
    omega
  · intro h
    rw [h] at hsmall
    exact hsmall ⟨by decide, by decide⟩

theorem generateAddr_index (hr : r ≠ 31) (hk : k ≤ 4) (hsmall : Small (applied base count)) :
    ∃ code, generateAddr count reg base r.toNat (BitVec.ofNat 32 k <<< 3 ||| opt.setWidth 32) = some code ∧
      ∀ t, execAll code t = (t.setBase reg (t.getBase base + extend opt (t.get r) <<< k +
        (applied base count).signExtend 64)).goto (t.pc + BitVec.ofNat 64 (4 * code.length)) := by
  have hnat : r.toNat ≠ 31 := fun h => hr (BitVec.eq_of_toNat_eq h)
  have hlt := r.isLt
  have hshift : (BitVec.ofNat 3 k).toNat = k := by rw [BitVec.toNat_ofNat, Nat.mod_eq_of_lt (by omega)]
  have hfirst (t : State) : exec (.addSubExtReg 0 r opt (BitVec.ofNat 3 k) base reg) t =
      (t.setBase reg (t.getBase base + extend opt (t.get r) <<< k)).goto (t.pc + 4) := by
    rw [exec, hshift, addSub, if_neg (by decide), State.next, setBase_pc]
  rw [generateAddr, if_neg (by omega)]
  dsimp only
  rw [← applied, if_neg (by rw [regInvalid]; omega), emitAddSubExt_index hk]
  by_cases hzero : applied base count = 0
  · refine ⟨_, if_neg (not_not.mpr hzero), fun t => ?_⟩
    show exec (.addSubExtReg 0 r opt (BitVec.ofNat 3 k) base reg) t = (t.setBase reg _).goto (t.pc + 4)
    rw [hfirst, hzero]
    congr 2
    exact (add_zero _).symm
  · have hpos : (applied base count).toInt ≠ 0 := fun h => hzero (BitVec.eq_of_toInt_eq h)
    have hfits : Fits (applied base count) := ⟨by have := hsmall.1; omega, by have := hsmall.2; omega⟩
    have hexact : A64AddSub.Exact reg reg (applied base count) := fun h => h.2.1 h.1
    refine ⟨_, (if_pos hzero).trans (if_pos ⟨hsmall.2, lt_of_le_of_ne hsmall.1 hpos.symm⟩), fun t => ?_⟩
    have hlen : t.pc + 4 + BitVec.ofNat 64 (4 * (emitAddSubI reg reg (applied base count)).code.length) =
        t.pc + BitVec.ofNat 64 (4 * ((emitAddSubI reg reg (applied base count)).code.length + 1)) :=
      A64Emit.cell_succ _ _
    show execAll (emitAddSubI reg reg (applied base count)).code (exec (.addSubExtReg 0 r opt (BitVec.ofNat 3 k) base reg) t) =
      (t.setBase reg _).goto (t.pc + BitVec.ofNat 64 (4 * ((emitAddSubI reg reg (applied base count)).code.length + 1)))
    rw [hfirst, emitAddSubI_exec, outcome, if_pos ⟨hfits, hexact⟩, getBase_goto, getBase_setBase_self, setBase_goto,
      setBase_setBase, State.goto_goto, State.goto_pc, hlen]

end Generation

section Addresses

variable {calls : List Call} {e : Emitted 64 Inst} {readAddress start : Word} {inst : Instruction} {w : Encoding} {reg : Reg}
  {code : List Inst} {f : State → Word} {s : State}

/-- Nothing is pushed yet. -/
def fresh (start : Word) : Emitted 64 Inst := ⟨start, [], [], 0⟩

/-- The code sets reg to the address of the access in the state before the pushes and pops, and nothing else. -/
def Right (e : Emitted 64 Inst) (readAddress : Word) (inst : Instruction) (w : Encoding) (reg : Reg) : Prop :=
  ∃ code, calcLdStAddr readAddress e.pluginPushedRegCount inst w reg = some (.ok code) ∧
    ∀ s, execAll code (execAll e.code s) = ((execAll e.code s).setBase reg (address readAddress inst w s)).goto
      ((execAll e.code s).pc + BitVec.ofNat 64 (4 * code.length))

/-- The state after the pushes and pops, with the stack pointer of the guest. -/
def guest (code : List Inst) (s : State) : State := { execAll code s with sp := s.sp }

/-- The pushes and pops leave the sum of base and offset as it was. -/
def Undisturbed (code : List Inst) (inst : Instruction) (w : Encoding) : Prop :=
  ∀ s, (guest code s).getBase (rn w) + offset inst w (guest code s) = s.getBase (rn w) + offset inst w s

/-- Of a base that is the stack pointer: what the code adds is the offset and the bytes on the stack. -/
def Corrected (calls : List Call) (count : Int) (inst : Instruction) (w : Encoding) (reg : Reg) : Prop :=
  let correction := BitVec.ofInt 32 count * 8
  let bytes := BitVec.ofInt 64 (bytes calls)
  if Indexed inst w then Small correction ∧ correction.signExtend 64 = bytes
  else
    let sum := (immedOffset inst w - lost inst w).setWidth 32 + correction
    if Fits sum then sum.signExtend 64 = immedOffset inst w + bytes else reg = sp ∧ immedOffset inst w + bytes = 0

def Exact (calls : List Call) (e : Emitted 64 Inst) (inst : Instruction) (w : Encoding) (reg : Reg) : Prop :=
  if inst = .ldrLit then reg ≠ sp
  else Undisturbed e.code inst w ∧
    if rn w = sp then Corrected calls e.pluginPushedRegCount inst w reg
    else lost inst w = 0 ∧ ¬(reg = sp ∧ ¬Indexed inst w ∧ immedOffset inst w = 0)

theorem right_iff (hcode : calcLdStAddr readAddress e.pluginPushedRegCount inst w reg = some (.ok code))
    (hexec : ∀ t, execAll code t = (t.setBase reg (f t)).goto (t.pc + BitVec.ofNat 64 (4 * code.length))) :
    Right e readAddress inst w reg ↔ ∀ s, f (execAll e.code s) = address readAddress inst w s := by
  constructor
  · rintro ⟨code', hcode', hright⟩ s
    obtain rfl : code = code' := congrArg Result.code (Option.some.inj (hcode.symm.trans hcode'))
    have hstate := congrArg (State.getBase · reg) ((hexec (execAll e.code s)).symm.trans (hright s))
    simpa only [getBase_goto, getBase_setBase_self] using hstate
  · exact fun h => ⟨code, hcode, fun s => by rw [hexec, h]⟩

theorem exists_sp (hmoves : Moves e.code (bytes calls)) (p : Word) : ∃ s, Blank s ∧ (execAll e.code s).sp = p := by
  refine ⟨⟨0, fun _ => 0, p + BitVec.ofInt 64 (bytes calls), ⟨false, false, false, false⟩, fun _ => 0⟩, ⟨fun _ => rfl, rfl⟩, ?_⟩
  rw [hmoves.sp, add_sub_cancel_right]

theorem calc_of_decoded (hlit : inst ≠ .ldrLit) {count : Int} {rm : Int} {d : BitVec 32}
    (hdec : decoded inst w = some (rm, d)) :
    calcLdStAddr readAddress count inst w reg = (generateAddr count reg (rn w) rm d).map .ok := by
  cases inst with
  | ldrLit => exact absurd rfl hlit
  | _ =>
      rw [calcLdStAddr, hdec]
      exact hlit

theorem literal_iff (hmoves : Moves e.code (bytes calls)) : Right e readAddress .ldrLit w reg ↔ reg ≠ sp := by
  let value := readAddress + (imm19 w).signExtend 64 <<< 2
  have hcode : calcLdStAddr readAddress e.pluginPushedRegCount .ldrLit w reg =
      some (.ok ((A64Emit.copyToReg64bits reg value).map .core)) := by
    rw [calcLdStAddr, signExtendBits_setWidth (imm19 w) (by decide) (by decide)]
  have hexec (t : State) : execAll ((A64Emit.copyToReg64bits reg value).map .core) t =
      (t.setBase reg (if reg = sp then t.getBase reg else value)).goto
        (t.pc + BitVec.ofNat 64 (4 * ((A64Emit.copyToReg64bits reg value).map Inst.core).length)) := by
    rw [execAll_core, A64SafeFcalls.copyToReg64bits_exec, List.length_map]
    split
    next hreg => rw [setBase_getBase, State.set, if_pos (show reg = A64.xzr from hreg)]
    next hreg => rw [State.setBase, if_neg (show ¬reg = A64.xzr from hreg)]
  rw [right_iff hcode hexec]
  constructor
  · rintro h rfl
    obtain ⟨s, -, hsp⟩ := exists_sp hmoves (value + 1)
    have hvalue : (execAll e.code s).sp = value := h s
    exact absurd (add_eq_left.mp (hsp.symm.trans hvalue)) (by decide)
  · intro h s
    rw [if_neg h]
    rfl

theorem offset_constant (hidx : ¬Indexed inst w) (t : State) : offset inst w t = immedOffset inst w := by
  rw [offset]
  split
  next hreg =>
    have hzero : ∀ opt : BitVec 3, extend opt 0 = 0 := by decide
    have hrm : rm w = 31 := not_not.mp fun hne => hidx ⟨hreg, hne⟩
    rw [hrm, hreg, State.get, if_pos (show (31 : Reg) = A64.xzr from rfl), hzero]
    exact BitVec.zero_shiftLeft _
  next => rfl

theorem setWidth_signExtend (d : BitVec 32) : (d.signExtend 64).setWidth 32 = d := by
  apply BitVec.eq_of_getLsbD_eq
  intro i hi
  rw [BitVec.getLsbD_setWidth, BitVec.getLsbD_signExtend]
  simp [hi, show i < 64 by omega]

theorem sub_add_eq_iff (a m x y : Word) : a - m + y = a + x ↔ y = x + m := by
  rw [sub_add_eq_add_sub, sub_eq_iff_eq_add, add_assoc, add_right_inj]

theorem constant_sp (hmoves : Moves e.code (bytes calls)) {d : BitVec 32} {x : Word} :
    (∀ s, outcome reg sp d (execAll e.code s) = s.getBase sp + x) ↔
      if Fits d then d.signExtend 64 = x + BitVec.ofInt 64 (bytes calls)
      else reg = sp ∧ x + BitVec.ofInt 64 (bytes calls) = 0 := by
  have hexact : A64AddSub.Exact reg sp d := fun h => h.2.1 rfl
  have hsp (s : State) : (execAll e.code s).getBase sp = s.getBase sp - BitVec.ofInt 64 (bytes calls) := hmoves.sp s
  obtain ⟨s, hs, hzero⟩ := exists_sp hmoves (1 - (x + BitVec.ofInt 64 (bytes calls)))
  split
  next hfits =>
    simp only [outcome, if_pos (And.intro hfits hexact), hsp, sub_add_eq_iff]
    exact ⟨fun h => h s, fun h _ => h⟩
  next hfits =>
    have houtcome (t : State) : outcome reg sp d t = t.getBase reg := if_neg fun h => hfits h.1
    simp only [houtcome]
    constructor
    · intro h
      have hstate := h s
      by_cases hreg : reg = sp
      · rw [hreg, hsp, ← add_zero (s.getBase sp - _), sub_add_eq_iff] at hstate
        exact ⟨hreg, hstate.symm⟩
      · have hbase : (execAll e.code s).getBase reg = 0 := by
          rw [State.getBase, if_neg (show ¬reg = A64.xzr from hreg), (hmoves.blank s hs).x]
        have hdist : s.getBase sp - BitVec.ofInt 64 (bytes calls) = 1 - (x + BitVec.ofInt 64 (bytes calls)) :=
          (hsp s).symm.trans hzero
        rw [hbase, sub_eq_iff_eq_add.mp hdist, add_assoc, add_comm (BitVec.ofInt 64 _) x, sub_add_cancel] at hstate
        exact absurd hstate (by decide)
    · rintro ⟨rfl, h⟩ s
      rw [hsp, ← add_zero (s.getBase sp - _), sub_add_eq_iff]
      exact h.symm

theorem constant_base (hmoves : Moves e.code (bytes calls)) {d : BitVec 32} {base : Reg} {x y : Word} (hbase : base ≠ sp)
    (hfits : Fits d) (hd : d.signExtend 64 = x - y) :
    (∀ s, outcome reg base d (execAll e.code s) = s.getBase base + x) ↔
      (∀ s, (guest e.code s).getBase base = s.getBase base) ∧ y = 0 ∧ ¬(reg = sp ∧ x = 0) := by
  have hguest (s : State) : (guest e.code s).getBase base = (execAll e.code s).getBase base := by
    rw [State.getBase, State.getBase, if_neg (show ¬base = A64.xzr from hbase), if_neg (show ¬base = A64.xzr from hbase)]
    rfl
  have hblank (s : State) (hs : Blank s) : s.getBase base = 0 := by
    rw [State.getBase, if_neg (show ¬base = A64.xzr from hbase), hs.x]
  obtain ⟨s, hs, hsp⟩ := exists_sp hmoves (x + 1)
  simp only [hguest]
  by_cases hexact : A64AddSub.Exact reg base d
  · simp only [outcome, if_pos (And.intro hfits hexact), hd]
    constructor
    · intro h
      have hy : y = 0 := by
        have hstate := h s
        rwa [hblank s hs, hblank _ (hmoves.blank s hs), add_left_cancel_iff, sub_eq_self] at hstate
      refine ⟨fun s => ?_, hy, fun hmov => hexact ⟨hmov.1, hbase, ?_⟩⟩
      · have hstate := h s
        rwa [hy, sub_zero, add_left_inj] at hstate
      · rw [← setWidth_signExtend d, hd, hmov.2, hy]
        rfl
    · rintro ⟨h, hy, -⟩ s
      rw [h, hy, sub_zero]
  · have houtcome (t : State) : outcome reg base d t = t.getBase reg := if_neg fun h => hexact h.2
    obtain ⟨rfl, -, rfl⟩ := not_not.mp hexact
    simp only [houtcome]
    constructor
    · intro h
      have hstate : (execAll e.code s).sp = s.getBase base + x := h s
      rw [hsp, hblank s hs, zero_add] at hstate
      exact absurd (add_eq_left.mp hstate) (by decide)
    · rintro ⟨-, rfl, hmov⟩
      exact absurd ⟨trivial, (hd.trans (sub_zero x)).symm⟩ hmov

theorem constant_iff (hmoves : Moves e.code (bytes calls)) (hlit : inst ≠ .ldrLit) (hother : inst ≠ .other)
    (hidx : ¬Indexed inst w) (hall : Allocated inst w) :
    Right e readAddress inst w reg ↔ Exact calls e inst w reg := by
  obtain ⟨d, hdec, hwide, hge, hle⟩ := decoded_constant hlit hother hidx hall
  have hcode : calcLdStAddr readAddress e.pluginPushedRegCount inst w reg =
      some (.ok (emitAddSubI reg (rn w) (d + applied (rn w) e.pluginPushedRegCount)).code) := by
    rw [calc_of_decoded hlit hdec, generateAddr_constant]
    rfl
  have haddress (s : State) : address readAddress inst w s = s.getBase (rn w) + immedOffset inst w := by
    rw [address, if_neg hlit, offset_constant hidx]
  rw [right_iff hcode emitAddSubI_exec, Exact, if_neg hlit]
  simp only [haddress, Undisturbed, offset_constant hidx, add_left_inj]
  by_cases hsp : rn w = sp
  · have hd : (immedOffset inst w - lost inst w).setWidth 32 = d := by rw [← hwide, setWidth_signExtend]
    have hguest : ∀ s, (guest e.code s).getBase (rn w) = s.getBase (rn w) := fun s => by rw [hsp]; rfl
    rw [if_pos hsp, Corrected, if_neg hidx, hd, hsp, applied, if_pos rfl]
    rw [hsp] at hguest
    refine Iff.trans ?_ (and_iff_right hguest).symm
    exact constant_sp hmoves
  · have happlied : applied (rn w) e.pluginPushedRegCount = 0 := if_neg hsp
    rw [if_neg hsp, happlied, show d + 0 = d from add_zero d]
    simp only [hidx, not_false_eq_true, true_and]
    exact constant_base hmoves hsp ⟨by omega, by omega⟩ hwide

theorem index_iff (hmoves : Moves e.code (bytes calls)) (hidx : Indexed inst w) (hall : Allocated inst w) :
    Right e readAddress inst w reg ↔ Exact calls e inst w reg := by
  have hdec := decoded_index hidx
  obtain ⟨rfl, hrm⟩ := id hidx
  have hk : indexShift w ≤ 4 := by
    rw [indexShift]
    split
    · exact scale_le (hall.2.1 (Or.inr rfl))
    · exact Nat.zero_le 4
  have hlit : Instruction.ldrStrReg ≠ .ldrLit := by decide
  have hblank (s : State) (hs : Blank s) : offset .ldrStrReg w s = 0 := by
    have hzero : ∀ opt : BitVec 3, extend opt 0 = 0 := by decide
    rw [offset, if_pos rfl, hs.get, hzero]
    exact BitVec.zero_shiftLeft _
  have hoffset (s : State) : offset .ldrStrReg w (guest e.code s) = offset .ldrStrReg w (execAll e.code s) := rfl
  have hlost : lost .ldrStrReg w = 0 := lost_eq_zero (by decide)
  rw [Exact, if_neg hlit, Corrected, if_pos hidx]
  simp only [Undisturbed, hoffset, hlost, hidx, not_true_eq_false, false_and, and_false, not_false_eq_true, and_true]
  by_cases hsmall : Small (applied (rn w) e.pluginPushedRegCount)
  · obtain ⟨code, hgen, hexec⟩ := @generateAddr_index reg _ _ _ (option w) _ hrm hk hsmall
    have hcode : calcLdStAddr readAddress e.pluginPushedRegCount .ldrStrReg w reg = some (.ok code) := by
      rw [calc_of_decoded hlit hdec, hgen]
      rfl
    have hsum (t : State) : execAll code t = (t.setBase reg (t.getBase (rn w) + offset .ldrStrReg w t +
        (applied (rn w) e.pluginPushedRegCount).signExtend 64)).goto (t.pc + BitVec.ofNat 64 (4 * code.length)) := hexec t
    rw [right_iff hcode hsum]
    by_cases hsp : rn w = sp
    · have hstack (s : State) : (execAll e.code s).getBase (rn w) = s.getBase (rn w) - BitVec.ofInt 64 (bytes calls) := by
        rw [hsp]
        exact hmoves.sp s
      have hguest (s : State) : (guest e.code s).getBase (rn w) = s.getBase (rn w) := by
        rw [hsp]
        rfl
      rw [applied, if_pos hsp] at hsmall
      simp only [if_pos hsp, hsmall, true_and, hstack, hguest, add_right_inj, applied, address, if_neg hlit]
      constructor
      · intro h
        obtain ⟨s, hs, -⟩ := exists_sp hmoves 0
        have hcorr : (BitVec.ofInt 32 e.pluginPushedRegCount * 8).signExtend 64 = BitVec.ofInt 64 (bytes calls) := by
          have hstate := h s
          rwa [hblank s hs, hblank _ (hmoves.blank s hs), add_zero, sub_add_eq_iff, zero_add] at hstate
        refine ⟨fun s => ?_, hcorr⟩
        have hstate := h s
        rwa [hcorr, add_right_comm, sub_add_cancel, add_right_inj] at hstate
      · rintro ⟨h, hcorr⟩ s
        rw [hcorr, add_right_comm, sub_add_cancel, h]
    · have happlied : (applied (rn w) e.pluginPushedRegCount).signExtend 64 = 0 := by
        rw [applied, if_neg hsp]
        rfl
      have hguest (s : State) : (guest e.code s).getBase (rn w) = (execAll e.code s).getBase (rn w) := by
        rw [State.getBase, State.getBase, if_neg (show ¬rn w = A64.xzr from hsp), if_neg (show ¬rn w = A64.xzr from hsp)]
        rfl
      simp only [if_neg hsp, happlied, hguest, add_zero, address, if_neg hlit, and_true]
  · have hsp : rn w = sp := by
      by_contra hsp
      rw [applied, if_neg hsp] at hsmall
      exact hsmall ⟨by decide, by decide⟩
    have hnone : calcLdStAddr readAddress e.pluginPushedRegCount .ldrStrReg w reg = none := by
      rw [calc_of_decoded hlit hdec, generateAddr_index_none hrm hsmall]
      rfl
    rw [applied, if_pos hsp] at hsmall
    rw [if_pos hsp]
    refine iff_of_false ?_ fun h => hsmall h.2.1
    rintro ⟨code, hcode, -⟩
    exact absurd (hnone.symm.trans hcode) (by simp)

/-- For every access and every history of pushes and pops: when the address is right. -/
theorem access_right_iff_exact (hw : Matches inst w) (hall : Allocated inst w)
    (hcalls : emitCalls calls (fresh start) = some e) :
    Right e readAddress inst w reg ↔ Exact calls e inst w reg := by
  obtain ⟨is, his, hmoves⟩ := emitCalls_moves hcalls
  obtain rfl : e.code = is := his
  by_cases hlit : inst = .ldrLit
  · subst hlit
    rw [Exact, if_pos rfl]
    exact literal_iff hmoves
  · have hother : inst ≠ .other := by
      rintro rfl
      obtain ⟨p, hp, -⟩ := hw
      exact absurd hp (by simp [pattern])
    by_cases hidx : Indexed inst w
    · exact index_iff hmoves hidx hall
    · exact constant_iff hmoves hlit hother hidx hall

/-- With few registers on the stack, a counter of registers is right for the base sp if as many calls of `emit_push`
had an odd number of registers as of `emit_pop`. -/
theorem corrected_iff_odd (hcalls : emitCalls calls (fresh start) = some e) (hlen : calls.length < 2 ^ 32)
    (hcount : 8 * e.pluginPushedRegCount ≤ 0xFFF) (hlit : inst ≠ .ldrLit) (hother : inst ≠ .other)
    (hall : Allocated inst w) (hlost : lost inst w = 0) :
    Corrected calls e.pluginPushedRegCount inst w reg ↔ odd calls = 0 := by
  have hbytes : 8 * (e.pluginPushedRegCount - 0) + 8 * odd calls = bytes calls := emitCalls_bytes hcalls
  have hpos := emitCalls_nonneg hcalls (le_refl 0)
  have hodd := odd_le calls
  have hcorr : (BitVec.ofInt 32 e.pluginPushedRegCount * 8).toInt = 8 * e.pluginPushedRegCount := by
    have hmul : BitVec.ofInt 32 e.pluginPushedRegCount * 8 = BitVec.ofInt 32 (e.pluginPushedRegCount * 8) := by
      rw [BitVec.ofInt_mul]
      rfl
    rw [hmul, BitVec.toInt_ofInt, Int.bmod_eq_of_le (by omega) (by omega)]
    omega
  have hsmall : (BitVec.ofInt 64 (bytes calls)).toInt = bytes calls := by
    rw [BitVec.toInt_ofInt, Int.bmod_eq_of_le (by omega) (by omega)]
  rw [Corrected]
  split
  next hidx =>
    rw [and_iff_right (show Small _ from ⟨by omega, by omega⟩), ← BitVec.toInt_inj, BitVec.toInt_signExtend_of_le (by decide),
      hcorr, hsmall]
    omega
  next hidx =>
    obtain ⟨d, -, hwide, hge, hle⟩ := decoded_constant hlit hother hidx hall
    have hsum : (d + BitVec.ofInt 32 e.pluginPushedRegCount * 8).toInt = d.toInt + 8 * e.pluginPushedRegCount := by
      rw [BitVec.toInt_add, hcorr, Int.bmod_eq_of_le (by omega) (by omega)]
    have hright : (d.signExtend 64 + BitVec.ofInt 64 (bytes calls)).toInt = d.toInt + bytes calls := by
      rw [BitVec.toInt_add, hsmall, BitVec.toInt_signExtend_of_le (by decide), Int.bmod_eq_of_le (by omega) (by omega)]
    rw [← hwide, setWidth_signExtend, if_pos (show Fits _ from ⟨by omega, by omega⟩)]
    rw [hlost, sub_zero] at hwide
    rw [← hwide, ← BitVec.toInt_inj, BitVec.toInt_signExtend_of_le (by decide), hsum, hright]
    omega

theorem emitCalls_push {regs : BitVec 32} {is : List A64.Inst} (his : A64Stack.emitA64Push regs = some is) :
    emitCalls [.push regs] (fresh start) = some ⟨start, is.map .core, [], RegLists.countBits regs⟩ := by
  have hpush : SafeFcalls.a64.push regs = some (is.map .core) := congrArg (Option.map _) his
  rw [emitCalls, Call.emit, SafeFcalls.emitPush, hpush, Option.map_some, Option.bind_some, emitCalls]
  simp [fresh, Emitted.emit]

/-- After a push of x1 and x2, a load into x0 from 8 bytes above the stack pointer. -/
theorem even_push_right : ∃ e, emitCalls [.push 6] (fresh 0) = some e ∧ Right e 0 .ldrStrUnsignedImmed 0xF94007E0 0 := by
  have hcount : RegLists.countBits 6 = 2 := by
    rw [RegLists.countBits_eq]
    decide
  have his : A64Stack.emitA64Push 6 = some [A64Emit.pushPairReg 1 2] := by
    rw [A64Stack.emitA64Push, hcount]
    decide
  have hodd : odd [.push 6] = 0 := by
    rw [odd, List.map_cons, Call.odd, hcount]
    rfl
  have hcalls : emitCalls [.push 6] (fresh 0) = some _ := emitCalls_push his
  refine ⟨_, hcalls, (access_right_iff_exact (by decide) (by decide) hcalls).mpr ?_⟩
  rw [Exact, if_neg (by decide)]
  refine ⟨fun s => rfl, ?_⟩
  rw [if_pos (by decide)]
  refine (corrected_iff_odd hcalls (by decide) ?_ (by decide) (by decide) (by decide) (by decide)).mpr hodd
  rw [hcount]
  decide

/-- After a push of x1 alone, the address of a load from the stack pointer is 8 bytes too low. -/
theorem odd_push_wrong : emitCalls [.push 2] (fresh 0) = some ⟨0, [.core (A64Emit.pushReg 1)], [], 1⟩ ∧
    Matches .ldrStrUnsignedImmed 0xF94003E0 ∧ Allocated .ldrStrUnsignedImmed 0xF94003E0 ∧
    ¬Right ⟨0, [.core (A64Emit.pushReg 1)], [], 1⟩ 0 .ldrStrUnsignedImmed 0xF94003E0 0 := by
  have hcount : RegLists.countBits 2 = 1 := by
    rw [RegLists.countBits_eq]
    decide
  have his : A64Stack.emitA64Push 2 = some [A64Emit.pushReg 1] := by
    rw [A64Stack.emitA64Push, hcount]
    decide
  refine ⟨?_, by decide, by decide, ?_⟩
  · have hcalls : emitCalls [.push 2] (fresh 0) = some _ := emitCalls_push his
    rwa [hcount] at hcalls
  · rintro ⟨code, hcode, h⟩
    have hcalc : calcLdStAddr 0 1 .ldrStrUnsignedImmed 0xF94003E0 0 = some (.ok [.addSubImmed 0 0 8 31 0]) := rfl
    obtain rfl : [.addSubImmed 0 0 8 31 0] = code := congrArg Result.code (Option.some.inj (hcalc.symm.trans hcode))
    have hstate := congrArg (State.get · 0) (h ⟨0, fun _ => 0, 16, ⟨false, false, false, false⟩, fun _ => 0⟩)
    exact absurd hstate (by decide)

end Addresses

end Mambo.A64AccessAddr
