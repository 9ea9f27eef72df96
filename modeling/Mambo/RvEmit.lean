import Mambo.Immediates
import Mambo.RvCode
import Mathlib.Tactic.IntervalCases

namespace Mambo.RvEmit

open BitPlacement Bytes ByteMemory CodeRuns Immediates Rv RvCode

section Helpers

/-- The fields of an offset, or none where the source returns -1. The offsets of
branches arrive there as ints. -/
def createBImmPair (offset : BitVec 32) : Option (BitVec 7 × BitVec 5) :=
  if offset &&& 1 ≠ 0 ∨ offset.toInt < -4096 ∨ offset.toInt ≥ 4096 then none
  else some ((extr 6 5 offset ||| extr 1 12 offset <<< 6).setWidth 7, (extr 1 11 offset ||| extr 4 1 offset <<< 1).setWidth 5)

def createCbImmPair (offset : BitVec 32) : Option (BitVec 3 × BitVec 5) :=
  if offset &&& 1 ≠ 0 ∨ offset.toInt < -256 ∨ offset.toInt ≥ 256 then none
  else some ((extr 1 8 offset <<< 2 ||| extr 2 3 offset).setWidth 3,
    (extr 2 6 offset <<< 4 ||| extr 2 1 offset <<< 1 ||| extr 1 5 offset).setWidth 5)

def createCldspImmPair (offset : BitVec 32) : Option (BitVec 1 × BitVec 5) :=
  if offset &&& 7 ≠ 0 ∨ offset.toNat > 0x1FF then none
  else some ((extr 1 5 offset).setWidth 1, (extr 3 6 offset ||| extr 2 3 offset <<< 3).setWidth 5)

def createCAddi16spPair (offset : BitVec 32) : Option (BitVec 1 × BitVec 5) :=
  if offset &&& 0xF ≠ 0 ∨ offset.toInt < -512 ∨ offset.toInt ≥ 512 then none
  else some ((extr 1 9 offset).setWidth 1,
    (extr 1 4 offset <<< 4 ||| extr 1 6 offset <<< 3 ||| extr 2 7 offset <<< 1 ||| extr 1 5 offset).setWidth 5)

def cBeqzHelper (writeP target : Word) (rs1 : Reg) : Option Inst :=
  (createCbImmPair ((target - writeP).setWidth 32)).map fun pair => .cBeqz (rs1.setWidth 3) pair.1 pair.2

def branchHelper (writeP target : Word) (rs1 rs2 : Reg) (condition : BitVec 3) : Option Inst :=
  (createBImmPair ((target - writeP).setWidth 32)).map fun pair => .branch condition rs1 rs2 pair.1 pair.2

def jalrHelper (writeP target : Word) (rd rs1 : Reg) : Option (List Inst) :=
  let offset := target - writeP
  if offset.toInt < -2 ^ 31 ∨ offset.toInt > 2 ^ 31 - 1 then none
  else some [.auipc rs1 (((offset + 0x800).sshiftRight 12).setWidth 20), .jalr rd rs1 (offset.setWidth 12)]

def jalHelper (writeP target : Word) (rd : Reg) : Option Inst :=
  let offset := target - writeP
  if offset &&& 1 ≠ 0 ∨ offset.toInt < -1024 * 1024 ∨ offset.toInt ≥ 1024 * 1024 then none
  else some (.jal rd ((extr 10 1 offset <<< 9 ||| extr 1 11 offset <<< 8 ||| extr 8 12 offset <<< 0 |||
    extr 1 20 offset <<< 19).setWidth 20))

def stores (regs : List Reg) (o : Nat) : List Inst :=
  match regs with
  | [] => []
  | reg :: regs => .sd reg sp (BitVec.ofNat 7 (o >>> 5)) (BitVec.ofNat 5 o) :: stores regs (o + 8)

/-- Of a set of registers, in ascending order; the assertion on the offset holds
for any of them. -/
def push (regs : List Reg) : List Inst := .addi sp sp (-BitVec.ofNat 12 (8 * regs.length)) :: stores regs 0

def loads (regs : List Reg) (o : Nat) : Option (List Inst) :=
  match regs with
  | [] => some []
  | reg :: regs => do
    let pair ← createCldspImmPair (BitVec.ofNat 32 o)
    return .cLdsp reg pair.1 pair.2 :: (← loads regs (o + 8))

def pop (regs : List Reg) : Option (List Inst) := do
  let o := 8 * regs.length
  let unstack := match createCAddi16spPair (BitVec.ofNat 32 o) with
    | some pair => .cAddi16sp pair.1 pair.2
    | none => .addi sp sp (BitVec.ofNat 12 o)
  return (← loads regs 0) ++ [unstack]

def saveContext : List Inst := push [s1, a0, a1]

def copyToReg32bits (reg : Reg) (value : BitVec 32) : List Inst :=
  let low12 : BitVec 12 := value.setWidth 12
  let hi20 : BitVec 20 := ((value + 0x800) >>> 12).setWidth 20
  (if hi20 ≠ 0 then [.lui reg hi20] else []) ++
    (if low12 ≠ 0 ∨ hi20 = 0 then [.addiw reg (if hi20 ≠ 0 then reg else zero) low12] else [])

def ffsll (v : Word) : Nat :=
  match (List.range 64).find? fun k => v.getLsbD k with
  | some k => k + 1
  | none => 0

theorem hi52_lt {value : Word} (h : ¬ (-2 ^ 31 ≤ value.toInt ∧ value.toInt ≤ 2 ^ 31 - 1)) :
    0 < ((value + 0x800) >>> 12).toNat ∧ ((value + 0x800) >>> 12).toNat < value.toNat ∧
      ((value + 0x800) >>> 12).toNat < 2 ^ 52 ∧ ((value + 0x800) >>> 12).toNat = (value.toNat + 2048) / 4096 := by
  have hlt := value.isLt
  rw [BitVec.toInt_eq_toNat_cond] at h
  have hsum : (value + 0x800).toNat = value.toNat + 2048 := by
    rw [BitVec.toNat_add, show (0x800 : Word).toNat = 2048 from rfl, Nat.mod_eq_of_lt]
    split at h <;> omega
  rw [BitVec.toNat_ushiftRight, hsum, Nat.shiftRight_eq_div_pow]
  split at h <;> omega

theorem hi_le (v : Word) (k : Nat) (h : v.toNat < 2 ^ 52) : (v.sshiftRight k).toNat ≤ v.toNat := by
  have hmsb : v.msb = false := by
    rw [BitVec.msb_eq_decide, decide_eq_false]
    omega
  rw [BitVec.sshiftRight_eq_of_msb_false hmsb, BitVec.toNat_ushiftRight, Nat.shiftRight_eq_div_pow]
  exact Nat.div_le_self _ _

def copyToReg64bits (reg : Reg) (value : Word) : List Inst :=
  if -2 ^ 31 ≤ value.toInt ∧ value.toInt ≤ 2 ^ 31 - 1 then copyToReg32bits reg (value.setWidth 32)
  else
    let lo12 : BitVec 12 := value.setWidth 12
    let hi52 := (value + 0x800) >>> 12
    let shift := 12 + ffsll hi52 - 1
    copyToReg64bits reg (hi52.sshiftRight (shift - 12)) ++
      (.cSlli reg (BitVec.ofNat 1 (shift >>> 5)) (BitVec.ofNat 5 (shift &&& 0x1F)) ::
        if lo12 ≠ 0 then [.addi reg reg lo12] else [])
termination_by value.toNat
decreasing_by
  rename_i h
  exact lt_of_le_of_lt (hi_le _ _ (hi52_lt h).2.2.1) (hi52_lt h).2.1

def copyToReg (reg : Reg) (value : Word) : List Inst := copyToReg64bits reg value

def goToDispatcher (writeP dispatcherAddr : Word) : Option (List Inst) := jalrHelper writeP dispatcherAddr zero s1

end Helpers

section Branches

variable {writeP target : Word} {i : Inst} {rs1 rs2 : Reg}

theorem even_bit {w : Nat} (hw : 0 < w) {d : BitVec w} (h : d &&& 1 = 0) : d.getLsbD 0 = false := by
  have hone : (1 : BitVec w).getLsbD 0 = true := by simp [hw]
  have hbit := congrArg (fun x => x.getLsbD 0) h
  rw [BitVec.getLsbD_and, hone, Bool.and_true] at hbit
  exact hbit.trans BitVec.getLsbD_zero

theorem decodeJImm_fields {d : Word} (hd : d.getLsbD 0 = false) :
    decodeJImm ((extr 10 1 d <<< 9 ||| extr 1 11 d <<< 8 ||| extr 8 12 d <<< 0 ||| extr 1 20 d <<< 19).setWidth 20) =
      (d.setWidth 21).signExtend 64 := by
  have hclear : ∀ k ∈ [0], d.getLsbD k = false := List.forall_mem_singleton.mpr hd
  simp only [decodeJImm]
  apply Bitwise.ext_of_clear ?_ ?_ ?_ d hclear
  · fun_prop
  · fun_prop
  · decide

theorem decodeBImm_fields {d : BitVec 32} (hd : d.getLsbD 0 = false) :
    decodeBImm ((extr 6 5 d ||| extr 1 12 d <<< 6).setWidth 7) ((extr 1 11 d ||| extr 4 1 d <<< 1).setWidth 5) =
      (d.setWidth 13).signExtend 64 := by
  have hclear : ∀ k ∈ [0], d.getLsbD k = false := List.forall_mem_singleton.mpr hd
  simp only [decodeBImm]
  apply Bitwise.ext_of_clear ?_ ?_ ?_ d hclear
  · fun_prop
  · fun_prop
  · decide

/-- The two bits that the source shifts by one too many have to be zero. -/
theorem decodeCbOffset_fields {d : BitVec 32} (hd : d.getLsbD 0 = false) (h6 : d.getLsbD 6 = false)
    (h7 : d.getLsbD 7 = false) :
    decodeCbOffset ((extr 1 8 d <<< 2 ||| extr 2 3 d).setWidth 3)
        ((extr 2 6 d <<< 4 ||| extr 2 1 d <<< 1 ||| extr 1 5 d).setWidth 5) = (d.setWidth 9).signExtend 64 := by
  have hclear : ∀ k ∈ [0, 6, 7], d.getLsbD k = false :=
    List.forall_mem_cons.mpr ⟨hd, List.forall_mem_cons.mpr ⟨h6, List.forall_mem_singleton.mpr h7⟩⟩
  simp only [decodeCbOffset]
  apply Bitwise.ext_of_clear ?_ ?_ ?_ d hclear
  · fun_prop
  · fun_prop
  · decide

theorem jalHelper_exec (h : jalHelper writeP target zero = some i) (s : State) :
    exec i (s.goto writeP) = s.goto target := by
  rw [jalHelper] at h
  split_ifs at h with hrange
  rw [not_or, not_or, not_not, not_lt, not_le] at hrange
  obtain ⟨heven, hge, hlt⟩ := hrange
  rw [← Option.some.inj h, exec, decodeJImm_fields (even_bit (by decide) heven),
    signExtend_setWidth (by decide) (by decide) (by omega) (by omega), State.set_zero, State.goto_pc, add_sub_cancel,
    State.goto_goto]

def Near (writeP target : Word) : Prop := -2 ^ 31 ≤ (target - writeP).toInt ∧ (target - writeP).toInt < 2 ^ 31

theorem Near.toInt_int (h : Near writeP target) : ((target - writeP).setWidth 32).toInt = (target - writeP).toInt := by
  have hext := signExtend_setWidth (n := 32) (by decide) (by decide) h.2 h.1
  have hint := congrArg BitVec.toInt hext
  rwa [BitVec.toInt_signExtend_of_le (by decide)] at hint

theorem branchHelper_exec {cond : BitVec 3} (h : branchHelper writeP target rs1 rs2 cond = some i)
    (hnear : Near writeP target) (s : State) :
    exec i (s.goto writeP) =
      if condHolds cond (s.get rs1) (s.get rs2) then s.goto target else s.goto (past writeP 4) := by
  obtain ⟨pair, hpair, rfl⟩ := Option.map_eq_some_iff.mp h
  rw [createBImmPair] at hpair
  split_ifs at hpair with hrange
  rw [not_or, not_or, not_not, not_lt, not_le, hnear.toInt_int] at hrange
  obtain ⟨heven, hge, hlt⟩ := hrange
  obtain ⟨hhi, hlo⟩ := Prod.mk.inj (Option.some.inj hpair)
  rw [exec, ← hhi, ← hlo, decodeBImm_fields (even_bit (by decide) heven), BitVec.setWidth_setWidth_of_le _ (by decide),
    signExtend_setWidth (by decide) (by decide) (by omega) (by omega), State.goto_pc, add_sub_cancel, State.get_goto,
    State.get_goto]
  split <;> rfl

theorem bit_of_lt {d : Word} {k : Nat} (h : d.toNat < 64) (hk : 6 ≤ k) (hk' : k < 32) :
    (d.setWidth 32).getLsbD k = false := by
  have hpow : 2 ^ 6 ≤ 2 ^ k := Nat.pow_le_pow_right (by decide) hk
  rw [BitVec.getLsbD_setWidth, decide_eq_true hk', Bool.true_and, BitVec.getLsbD]
  exact Nat.testBit_lt_two_pow (by omega)

theorem cBeqzHelper_exec (h : cBeqzHelper writeP target rs1 = some i) (hnear : (target - writeP).toNat < 64)
    (hrs1 : wide (rs1.setWidth 3) = rs1) (s : State) :
    exec i (s.goto writeP) = if s.get rs1 == 0 then s.goto target else s.goto (past writeP 2) := by
  obtain ⟨pair, hpair, rfl⟩ := Option.map_eq_some_iff.mp h
  have hint : (target - writeP).toInt = (target - writeP).toNat := BitVec.toInt_eq_toNat_of_lt (by omega)
  rw [createCbImmPair] at hpair
  split_ifs at hpair with hrange
  rw [not_or, not_or, not_not, not_lt, not_le] at hrange
  obtain ⟨heven, -, -⟩ := hrange
  obtain ⟨hhi, hlo⟩ := Prod.mk.inj (Option.some.inj hpair)
  have hfields := decodeCbOffset_fields (even_bit (by decide) heven) (bit_of_lt hnear (by decide) (by decide))
    (bit_of_lt hnear (by decide) (by decide))
  rw [exec, ← hhi, ← hlo, hfields,
    BitVec.setWidth_setWidth_of_le _ (by decide), signExtend_setWidth (by decide) (by decide) (by omega) (by omega),
    State.goto_pc, add_sub_cancel, hrs1, State.get_goto]
  split <;> rfl

end Branches

section Far

variable {code : Code} {a target : Word} {rs1 : Reg} {s : State} {is : List Inst}

theorem sshiftRight_shiftLeft {w : Nat} (x : BitVec w) (k : Nat) : x.sshiftRight k <<< k = x >>> k <<< k := by
  apply BitVec.eq_of_getLsbD_eq
  intro i hi
  rw [BitVec.getLsbD_shiftLeft, BitVec.getLsbD_shiftLeft, BitVec.getLsbD_sshiftRight, BitVec.getLsbD_ushiftRight]
  by_cases hk : i < k
  · simp [hk]
  · have hin : k + (i - k) < w := by omega
    have hle : ¬ w ≤ i - k := by omega
    simp [hin, hle]

theorem even_masked {v : Word} (h : v.getLsbD 0 = false) : v &&& ~~~1 = v := by
  apply BitVec.eq_of_getLsbD_eq
  intro i hi
  rw [BitVec.getLsbD_and, BitVec.getLsbD_not]
  by_cases h0 : i = 0
  · subst h0
    rw [h, Bool.false_and]
  · have hone : (1#64).getLsbD i = false := by
      rw [BitVec.getLsbD_one, decide_eq_false h0, Bool.and_false]
    rw [show (1 : Word) = 1#64 from rfl, hone, decide_eq_true hi]
    exact Bool.and_true _

theorem auipc_jalr {d : Word} (hge : -2 ^ 31 - 2048 ≤ d.toInt) (hlt : d.toInt < 2 ^ 31 - 2048) :
    uImm (((d + 0x800).sshiftRight 12).setWidth 20) + (d.setWidth 12).signExtend 64 = d := by
  have hsum : (d + 0x800).toInt = d.toInt + 2048 := by
    rw [BitVec.toInt_add, show (0x800 : Word).toInt = 2048 from rfl, Int.bmod_eq_of_le (by omega) (by omega)]
  have hshift : ((d + 0x800).sshiftRight 12).toInt = (d.toInt + 2048) / 4096 := by
    rw [BitVec.toInt_sshiftRight, hsum, Int.shiftRight_eq_div_pow]
    rfl
  rw [uImm, signExtend_setWidth (by decide) (by decide) (by omega) (by omega), sshiftRight_shiftLeft]
  exact high_add_low (by decide) d

theorem jalrHelper_run (h : jalrHelper a target zero rs1 = some is) (hrs1 : rs1 ≠ zero)
    (heven : target.getLsbD 0 = false) (hlt : (target - a).toInt < 2 ^ 31 - 2048)
    (hcode : CodeAt rv (fetch code) a is) :
    ∃ v, Reaches rv (fetch code) (s.goto a) ((s.set rs1 v).goto target) := by
  rw [jalrHelper] at h
  split_ifs at h with hrange
  rw [not_or, not_lt, not_lt] at hrange
  obtain rfl := Option.some.inj h
  obtain ⟨hauipc, hjalr, -⟩ := hcode
  refine ⟨a + uImm (((target - a + 0x800).sshiftRight 12).setWidth 20), ?_⟩
  refine Relation.ReflTransGen.head (steps_exec hauipc rfl) (Relation.ReflTransGen.single ?_)
  refine steps_exec hjalr ?_
  rw [exec, State.set_zero, State.get_goto, State.goto_pc, State.set_goto, State.get_goto, State.get_set_self hrs1,
    BitVec.add_assoc, auipc_jalr (by omega) hlt, add_sub_cancel, even_masked heven, State.goto_goto, State.goto_goto]

end Far

section Stack

variable {code : Code} {a : Word} {s : State} {regs : List Reg}

theorem sImm_small : ∀ o : BitVec 9, sImm (BitVec.ofNat 7 (o.toNat >>> 5)) (BitVec.ofNat 5 o.toNat) = o.setWidth 64 := by
  decide

theorem stores_plain {o : Nat} : ∀ i ∈ stores regs o, Plain rv i := by
  induction regs generalizing o with
  | nil => exact fun i hi => absurd hi List.not_mem_nil
  | cons reg regs ih =>
      intro i hi
      rcases List.mem_cons.mp hi with rfl | hi
      · exact fun _ => rfl
      · exact ih i hi

theorem stores_exec {o : Nat} (ho : o + 8 * regs.length ≤ 512) :
    execAll (stores regs o) (s.goto a) =
      { s with mem := storeAll s.mem (past (s.get sp) o) (regs.map s.get) }.goto (past a (bytes (stores regs o))) := by
  induction regs generalizing a s o with
  | nil =>
      rw [stores, bytes, past_zero]
      rfl
  | cons reg regs ih =>
      rw [List.length_cons] at ho
      have himm : sImm (BitVec.ofNat 7 (o >>> 5)) (BitVec.ofNat 5 o) = BitVec.ofNat 64 o := by
        have hsmall := sImm_small (BitVec.ofNat 9 o)
        rw [BitVec.toNat_ofNat, Nat.mod_eq_of_lt (by omega)] at hsmall
        rw [hsmall]
        apply BitVec.eq_of_toNat_eq
        rw [BitVec.toNat_setWidth, BitVec.toNat_ofNat, BitVec.toNat_ofNat, Nat.mod_eq_of_lt (by omega)]
        omega
      have hstore : exec (.sd reg sp (BitVec.ofNat 7 (o >>> 5)) (BitVec.ofNat 5 o)) (s.goto a) =
          { s with mem := store64 s.mem (past (s.get sp) o) (s.get reg) }.goto (past a 4) := by
        rw [exec, himm]
        rfl
      have hrest := ih (s := { s with mem := store64 s.mem (past (s.get sp) o) (s.get reg) }) (a := past a 4) (o := o + 8)
        (by omega)
      rw [past_past] at hrest
      have haddr : past (s.get sp) (o + 8) = past (s.get sp) o + BitVec.ofNat 64 8 := (past_past _ o 8).symm
      rw [stores, execAll_cons, hstore, hrest, bytes, List.map_cons, storeAll, ← haddr]
      rfl

def pushed (regs : List Reg) (s : State) : State :=
  { s with mem := storeAll s.mem (s.get sp - BitVec.ofNat 64 (8 * regs.length)) (regs.map s.get) }.set sp
    (s.get sp - BitVec.ofNat 64 (8 * regs.length))

theorem pushed_get {r : Reg} (hr : r ≠ sp) : (pushed regs s).get r = s.get r := State.get_set_of_ne hr

theorem pushed_sp : (pushed regs s).get sp = s.get sp - BitVec.ofNat 64 (8 * regs.length) :=
  State.get_set_self (by decide)

theorem pushed_mem : (pushed regs s).mem =
    storeAll s.mem (s.get sp - BitVec.ofNat 64 (8 * regs.length)) (regs.map s.get) := State.set_mem

theorem negate_small : ∀ o : BitVec 9, (-BitVec.ofNat 12 o.toNat).signExtend 64 = -(o.setWidth 64) := by decide

theorem negate_room {n : Nat} (hn : n ≤ 32) :
    (-BitVec.ofNat 12 (8 * n)).signExtend 64 = -BitVec.ofNat 64 (8 * n) := by
  have hsmall := negate_small (BitVec.ofNat 9 (8 * n))
  rw [BitVec.toNat_ofNat, Nat.mod_eq_of_lt (by omega)] at hsmall
  rw [hsmall]
  congr 1
  apply BitVec.eq_of_toNat_eq
  rw [BitVec.toNat_setWidth, BitVec.toNat_ofNat, BitVec.toNat_ofNat, Nat.mod_eq_of_lt (by omega)]
  omega

theorem push_exec (hsp : sp ∉ regs) (hlen : regs.length ≤ 32) :
    execAll (push regs) (s.goto a) = (pushed regs s).goto (past a (bytes (push regs))) := by
  have himm := negate_room hlen
  have hmap : regs.map (s.set sp (s.get sp - BitVec.ofNat 64 (8 * regs.length))).get = regs.map s.get :=
    List.map_congr_left fun r hr => State.get_set_of_ne fun heq => hsp (heq ▸ hr)
  have haddi : exec (.addi sp sp (-BitVec.ofNat 12 (8 * regs.length))) (s.goto a) =
      (s.set sp (s.get sp - BitVec.ofNat 64 (8 * regs.length))).goto (past a 4) := by
    rw [exec, State.get_goto, himm, ← sub_eq_add_neg, State.set_goto]
    rfl
  have hstores := @stores_exec (past a 4) (s.set sp (s.get sp - BitVec.ofNat 64 (8 * regs.length))) regs 0 (by omega)
  rw [hmap, State.get_set_self (by decide), past_zero, past_past, State.set_mem] at hstores
  rw [push, execAll_cons, haddi, hstores]
  rfl

theorem push_run (hsp : sp ∉ regs) (hlen : regs.length ≤ 32) (hcode : CodeAt rv (fetch code) a (push regs)) :
    Reaches rv (fetch code) (s.goto a) ((pushed regs s).goto (past a (bytes (push regs)))) := by
  have hplain : ∀ i ∈ push regs, Plain rv i := by
    intro i hi
    rcases List.mem_cons.mp hi with rfl | hi
    · exact fun _ => rfl
    · exact stores_plain i hi
  have hrun := plain_run (s := s) hplain hcode
  rwa [push_exec hsp hlen] at hrun

def loaded (regs : List Reg) (o : Nat) (s : State) : State :=
  match regs with
  | [] => s
  | reg :: regs => loaded regs (o + 8) (s.set reg (load64 s.mem (past (s.get sp) o)))

def popped (regs : List Reg) (s : State) : State :=
  (loaded regs 0 s).set sp (s.get sp + BitVec.ofNat 64 (8 * regs.length))

theorem loaded_get {o : Nat} {r : Reg} (h : r ∉ regs) : (loaded regs o s).get r = s.get r := by
  induction regs generalizing s o with
  | nil => rfl
  | cons reg regs ih =>
      obtain ⟨hne, hr⟩ := not_or.mp (List.mem_cons.not.mp h)
      rw [loaded, ih hr, State.get_set_of_ne hne]

theorem cldsp_small : ∀ k : BitVec 6, ∀ pair, createCldspImmPair (BitVec.ofNat 32 (8 * k.toNat)) = some pair →
    ldspImm pair.1 pair.2 = BitVec.ofNat 64 (8 * k.toNat) := by
  decide

theorem loads_plain {o : Nat} {is : List Inst} (h : loads regs o = some is) : ∀ i ∈ is, Plain rv i := by
  induction regs generalizing o is with
  | nil =>
      obtain rfl := Option.some.inj h
      exact fun i hi => absurd hi List.not_mem_nil
  | cons reg regs ih =>
      simp only [loads, Option.bind_eq_bind, Option.bind_eq_some_iff, Option.pure_def, Option.some.injEq] at h
      obtain ⟨pair, -, rest, hrest, rfl⟩ := h
      intro i hi
      rcases List.mem_cons.mp hi with rfl | hi
      · exact fun _ => rfl
      · exact ih hrest i hi

theorem loads_exec {o : Nat} {is : List Inst} (h : loads regs (8 * o) = some is) (ho : o + regs.length ≤ 64) :
    execAll is (s.goto a) = (loaded regs (8 * o) s).goto (past a (bytes is)) := by
  induction regs generalizing a s o is with
  | nil =>
      obtain rfl := Option.some.inj h
      rw [loaded, bytes, past_zero]
      rfl
  | cons reg regs ih =>
      simp only [loads, Option.bind_eq_bind, Option.bind_eq_some_iff, Option.pure_def, Option.some.injEq] at h
      obtain ⟨pair, hpair, rest, hrest, rfl⟩ := h
      rw [List.length_cons] at ho
      have himm : ldspImm pair.1 pair.2 = BitVec.ofNat 64 (8 * o) := by
        have hsmall := cldsp_small (BitVec.ofNat 6 o) pair
        rw [BitVec.toNat_ofNat, Nat.mod_eq_of_lt (by omega)] at hsmall
        exact hsmall hpair
      have hload : exec (.cLdsp reg pair.1 pair.2) (s.goto a) =
          (s.set reg (load64 s.mem (past (s.get sp) (8 * o)))).goto (past a 2) := by
        rw [exec, himm, State.get_goto, State.set_goto]
        rfl
      have hnext := @ih (past a 2) (s.set reg (load64 s.mem (past (s.get sp) (8 * o)))) (o + 1) rest hrest
        (by omega)
      rw [past_past] at hnext
      rw [execAll_cons, hload, hnext, bytes]
      rfl

theorem cAddi16sp_small : ∀ k : BitVec 6, ∀ pair, createCAddi16spPair (BitVec.ofNat 32 (8 * k.toNat)) = some pair →
    addi16spImm pair.1 pair.2 = BitVec.ofNat 64 (8 * k.toNat) := by
  decide

theorem addi_small : ∀ k : BitVec 6, (BitVec.ofNat 12 (8 * k.toNat)).signExtend 64 = BitVec.ofNat 64 (8 * k.toNat) := by
  decide

def unstack (n : Nat) : Inst :=
  match createCAddi16spPair (BitVec.ofNat 32 n) with
  | some pair => .cAddi16sp pair.1 pair.2
  | none => .addi sp sp (BitVec.ofNat 12 n)

theorem unstack_plain (n : Nat) : Plain rv (unstack n) := by
  rw [unstack]
  split <;> exact fun _ => rfl

theorem unstack_exec {n : Nat} (hn : n < 64) :
    exec (unstack (8 * n)) (s.goto a) =
      (s.set sp (s.get sp + BitVec.ofNat 64 (8 * n))).goto (past a (unstack (8 * n)).size) := by
  have hn' : (BitVec.ofNat 6 n).toNat = n := by
    rw [BitVec.toNat_ofNat, Nat.mod_eq_of_lt (by omega)]
  rw [unstack]
  cases hpair : createCAddi16spPair (BitVec.ofNat 32 (8 * n)) with
  | none =>
      have himm := addi_small (BitVec.ofNat 6 n)
      rw [hn'] at himm
      show exec (.addi sp sp (BitVec.ofNat 12 (8 * n))) _ = _
      rw [exec, State.get_goto, himm, State.set_goto]
      rfl
  | some pair =>
      have himm := cAddi16sp_small (BitVec.ofNat 6 n) pair
      rw [hn'] at himm
      show exec (.cAddi16sp pair.1 pair.2) _ = _
      rw [exec, State.get_goto, himm hpair, State.set_goto]
      rfl

theorem pop_some {is : List Inst} (h : pop regs = some is) :
    ∃ is', loads regs 0 = some is' ∧ is = is' ++ [unstack (8 * regs.length)] := by
  simp only [pop, Option.bind_eq_bind, Option.bind_eq_some_iff, Option.pure_def, Option.some.injEq] at h
  obtain ⟨is', hloads, rfl⟩ := h
  exact ⟨is', hloads, rfl⟩

theorem pop_exec_loaded {is : List Inst} (h : pop regs = some is) (hlen : regs.length ≤ 32) :
    execAll is (s.goto a) = ((loaded regs 0 s).set sp ((loaded regs 0 s).get sp + BitVec.ofNat 64 (8 * regs.length))).goto
      (past a (bytes is)) := by
  obtain ⟨is', hloads, rfl⟩ := pop_some h
  have hrun := loads_exec (s := s) (a := a) (show loads regs (8 * 0) = some is' from hloads) (by omega)
  rw [execAll_append, hrun, bytes_append, ← past_past]
  show exec (unstack (8 * regs.length)) _ = _
  rw [unstack_exec (by omega), Nat.mul_zero]
  rfl

theorem pop_exec {is : List Inst} (h : pop regs = some is) (hsp : sp ∉ regs) (hlen : regs.length ≤ 32) :
    execAll is (s.goto a) = (popped regs s).goto (past a (bytes is)) := by
  rw [pop_exec_loaded h hlen, loaded_get hsp]
  rfl

theorem pop_run {is : List Inst} (h : pop regs = some is) (hsp : sp ∉ regs) (hlen : regs.length ≤ 32)
    (hcode : CodeAt rv (fetch code) a is) :
    Reaches rv (fetch code) (s.goto a) ((popped regs s).goto (past a (bytes is))) := by
  obtain ⟨is', hloads, hparts⟩ := pop_some h
  have hplain : ∀ i ∈ is, Plain rv i := by
    intro i hi
    rw [hparts] at hi
    rcases List.mem_append.mp hi with hi | hi
    · exact loads_plain hloads i hi
    · rw [List.mem_singleton.mp hi]
      exact unstack_plain _
  have hrun := plain_run (s := s) hplain hcode
  rwa [pop_exec h hsp hlen] at hrun

end Stack

section Constants

variable {code : Code} {a : Word} {s : State} {reg : Reg}

theorem toInt_uImm (imm : BitVec 20) : (uImm imm).toInt = imm.toInt * 4096 := by
  have hlt := BitVec.toInt_lt (x := imm)
  have hge := BitVec.le_toInt imm
  have heq : uImm imm = BitVec.ofInt 64 (imm.toInt * 4096) := by
    have htwo : BitVec.twoPow 64 12 = BitVec.ofInt 64 4096 := by decide
    rw [uImm, BitVec.shiftLeft_eq_mul_twoPow, BitVec.signExtend, htwo, ← BitVec.ofInt_mul]
  rw [heq, BitVec.toInt_ofInt, Int.bmod_eq_of_le (by omega) (by omega)]

theorem uImm_setWidth (v : BitVec 32) :
    (uImm ((v >>> 12).setWidth 20)).setWidth 32 = v >>> 12 <<< 12 := by
  apply BitVec.eq_of_getLsbD_eq
  intro i hi
  rw [uImm, BitVec.getLsbD_setWidth, BitVec.getLsbD_shiftLeft, BitVec.getLsbD_signExtend, BitVec.getLsbD_setWidth,
    BitVec.getLsbD_shiftLeft]
  by_cases h12 : i < 12
  · simp [h12]
  · have h1 : i < 64 := by omega
    have h2 : i - 12 < 64 := by omega
    have h3 : i - 12 < 20 := by omega
    simp [h12, hi, h1, h2, h3]

theorem lui_addiw (v : BitVec 32) :
    (uImm (((v + 0x800) >>> 12).setWidth 20) + (v.setWidth 12).signExtend 64).setWidth 32 = v := by
  have hlow : ((v.setWidth 12).signExtend 64).setWidth 32 = (v.setWidth 12).signExtend 32 := by
    apply BitVec.eq_of_getLsbD_eq
    intro i hi
    rw [BitVec.getLsbD_setWidth, BitVec.getLsbD_signExtend, BitVec.getLsbD_signExtend]
    have h1 : i < 64 := by omega
    simp [hi, h1]
  rw [BitVec.setWidth_add _ _ (by decide), uImm_setWidth, hlow]
  exact high_add_low (by decide) v

theorem copyToReg32bits_run (hreg : reg ≠ zero) {value : BitVec 32}
    (hcode : CodeAt rv (fetch code) a (copyToReg32bits reg value)) :
    Reaches rv (fetch code) (s.goto a)
      ((s.set reg (value.signExtend 64)).goto (past a (bytes (copyToReg32bits reg value)))) := by
  have hparts := lui_addiw value
  rw [copyToReg32bits] at hcode ⊢
  generalize ((value + 0x800) >>> 12).setWidth 20 = hi at *
  generalize value.setWidth 12 = low at *
  by_cases hhi : hi = 0
  · subst hhi
    have hzero : uImm 0 = 0 := by decide
    rw [hzero] at hparts
    simp only [ne_eq, not_true, if_false, or_true, if_true, List.nil_append] at hcode ⊢
    refine Relation.ReflTransGen.single (steps_exec hcode.1 ?_)
    rw [exec, State.get_goto, State.get_zero, hparts, State.set_goto]
    rfl
  · simp only [ne_eq, hhi, not_false_iff, if_true, or_false] at hcode ⊢
    have hlui : Steps rv (fetch code) (s.goto a) ((s.set reg (uImm hi)).goto (past a 4)) := by
      refine steps_exec hcode.1 ?_
      rw [exec, State.set_goto]
      rfl
    by_cases hlow : low = 0
    · subst hlow
      have hvalue : value.signExtend 64 = uImm hi := by
        have hlt := BitVec.toInt_lt (x := hi)
        have hge := BitVec.le_toInt hi
        have hint := toInt_uImm hi
        have hzero : (0 : BitVec 12).signExtend 64 = 0 := by decide
        rw [← hparts, hzero, add_zero]
        exact signExtend_setWidth (by decide) (by decide) (by omega) (by omega)
      simp only [not_true, if_false, List.append_nil] at hcode ⊢
      rw [hvalue]
      exact Relation.ReflTransGen.single hlui
    · simp only [hlow, not_false_iff, if_true, List.singleton_append] at hcode ⊢
      refine (Relation.ReflTransGen.single hlui).tail (steps_exec hcode.2.1 ?_)
      rw [exec, State.get_goto, State.get_set_self hreg, hparts, State.set_goto, State.set_set]
      exact congrArg (State.goto _) (past_past a 4 4)

theorem ffsll_spec {v : Word} (h : 0 < v.toNat) :
    ∃ k, ffsll v = k + 1 ∧ v.getLsbD k = true ∧ ∀ j, j < k → v.getLsbD j = false := by
  have hsome : ((List.range 64).find? fun k => v.getLsbD k).isSome := by
    rw [List.find?_isSome]
    by_contra hnone
    have hzero : v = 0 := by
      apply BitVec.eq_of_getLsbD_eq
      intro i hi
      rw [show (0 : Word) = 0#64 from rfl, BitVec.getLsbD_zero]
      by_contra hbit
      exact hnone ⟨i, List.mem_range.mpr hi, by simpa using hbit⟩
    rw [hzero] at h
    exact absurd h (by decide)
  obtain ⟨k, hk⟩ := Option.isSome_iff_exists.mp hsome
  refine ⟨k, by rw [ffsll, hk], List.find?_some hk, fun j hj => ?_⟩
  obtain ⟨-, hmem, hbefore⟩ := List.find?_range_eq_some.mp hk
  simpa using hbefore j hj

theorem shift_back {v : Word} {k : Nat} (h : ∀ j, j < k → v.getLsbD j = false) :
    v >>> k <<< (12 + k) = v <<< 12 := by
  apply BitVec.eq_of_getLsbD_eq
  intro i hi
  rw [BitVec.getLsbD_shiftLeft, BitVec.getLsbD_shiftLeft, BitVec.getLsbD_ushiftRight]
  by_cases h12 : i < 12
  · have h1 : i < 12 + k := by omega
    simp [h12, h1]
  · by_cases hk : i < 12 + k
    · have hbit := h (i - 12) (by omega)
      simp [hk, hbit]
    · have hidx : k + (i - (12 + k)) = i - 12 := by omega
      simp [h12, hk, hidx]

theorem slli_fields : ∀ n : BitVec 6,
    (BitVec.ofNat 1 (n.toNat >>> 5) ++ BitVec.ofNat 5 (n.toNat &&& 0x1F)).toNat = n.toNat := by
  decide

theorem copyToReg64bits_big {value : Word} (hbig : ¬ (-2 ^ 31 ≤ value.toInt ∧ value.toInt ≤ 2 ^ 31 - 1)) :
    ∃ k, k < 52 ∧ (∀ j, j < k → ((value + 0x800) >>> 12).getLsbD j = false) ∧
      copyToReg64bits reg value = copyToReg64bits reg ((value + 0x800) >>> 12 >>> k) ++
        (.cSlli reg (BitVec.ofNat 1 ((12 + k) >>> 5)) (BitVec.ofNat 5 ((12 + k) &&& 0x1F)) ::
          if (value.setWidth 12 : BitVec 12) ≠ 0 then [.addi reg reg (value.setWidth 12)] else []) := by
  obtain ⟨hpos, -, h52, -⟩ := hi52_lt hbig
  obtain ⟨k, hffs, hbit, hlow⟩ := ffsll_spec hpos
  have hmsb : ((value + 0x800) >>> 12).msb = false := by
    rw [BitVec.msb_eq_decide, decide_eq_false]
    omega
  refine ⟨k, ?_, hlow, ?_⟩
  · by_contra hge
    have hle : 2 ^ k ≤ ((value + 0x800) >>> 12).toNat := Nat.ge_two_pow_of_testBit hbit
    have hpow : 2 ^ 52 ≤ 2 ^ k := Nat.pow_le_pow_right (by decide) (by omega)
    omega
  · rw [copyToReg64bits, if_neg hbig]
    simp only [hffs, show 12 + (k + 1) - 1 = 12 + k by omega, Nat.add_sub_cancel_left,
      BitVec.sshiftRight_eq_of_msb_false hmsb]

theorem hi_lt {value : Word} (hbig : ¬ (-2 ^ 31 ≤ value.toInt ∧ value.toInt ≤ 2 ^ 31 - 1)) (k : Nat) :
    ((value + 0x800) >>> 12 >>> k).toNat < value.toNat ∧
      ((value + 0x800) >>> 12 >>> k).toNat ≤ (value.toNat + 2048) / 4096 := by
  obtain ⟨-, hlt, -, heq⟩ := hi52_lt hbig
  have hle : ((value + 0x800) >>> 12 >>> k).toNat ≤ ((value + 0x800) >>> 12).toNat := by
    rw [BitVec.toNat_ushiftRight _ k, Nat.shiftRight_eq_div_pow]
    exact Nat.div_le_self _ _
  omega

theorem copyToReg_run (hreg : reg ≠ zero) {value : Word} (hcode : CodeAt rv (fetch code) a (copyToReg reg value)) :
    Reaches rv (fetch code) (s.goto a) ((s.set reg value).goto (past a (bytes (copyToReg reg value)))) := by
  rw [copyToReg] at hcode ⊢
  induction hn : value.toNat using Nat.strong_induction_on generalizing value a with
  | _ n ih =>
      by_cases hsmall : -2 ^ 31 ≤ value.toInt ∧ value.toInt ≤ 2 ^ 31 - 1
      · have hvalue : (value.setWidth 32).signExtend 64 = value :=
          signExtend_setWidth (by decide) (by decide) (by omega) hsmall.1
        rw [copyToReg64bits, if_pos hsmall] at hcode ⊢
        have hrun := copyToReg32bits_run (s := s) hreg hcode
        rwa [hvalue] at hrun
      · obtain ⟨k, hk, hlow, heq⟩ := @copyToReg64bits_big reg value hsmall
        rw [heq, codeAt_append_past, codeAt_cons] at hcode
        obtain ⟨hhigh, hslli, hlo⟩ := hcode
        have hrec := ih _ (hn ▸ (hi_lt hsmall k).1) hhigh rfl
        have hshift : (BitVec.ofNat 1 ((12 + k) >>> 5) ++ BitVec.ofNat 5 ((12 + k) &&& 0x1F)).toNat = 12 + k := by
          have hfields := slli_fields (BitVec.ofNat 6 (12 + k))
          rwa [BitVec.toNat_ofNat, Nat.mod_eq_of_lt (by omega)] at hfields
        have hslliRun := steps_exec (s := s.set reg ((value + 0x800) >>> 12 >>> k)) hslli rfl
        rw [exec, State.get_goto, State.get_set_self hreg, hshift, shift_back hlow, State.set_goto, State.set_set,
          State.goto_pc, State.goto_goto] at hslliRun
        have hparts : (value + 0x800) >>> 12 <<< 12 + (value.setWidth 12).signExtend 64 = value :=
          high_add_low (by decide) value
        have hreach := (hrec.tail hslliRun)
        rw [heq, bytes_append, bytes, ← past_past, ← past_past]
        by_cases hlo0 : (value.setWidth 12 : BitVec 12) = 0
        · have hzero : (0 : BitVec 12).signExtend 64 = 0 := by decide
          rw [hlo0, hzero, add_zero] at hparts
          rw [hparts] at hreach
          rw [if_neg (not_not.mpr hlo0), bytes, past_zero]
          exact hreach
        · rw [if_pos hlo0] at hlo ⊢
          refine hreach.tail (steps_exec hlo.1 ?_)
          rw [exec, State.get_goto, State.get_set_self hreg, hparts, State.set_goto, State.set_set]
          rfl

theorem bytes_copyToReg32bits (value : BitVec 32) : bytes (copyToReg32bits reg value) ≤ 8 := by
  rw [copyToReg32bits]
  split_ifs <;> simp [bytes, Inst.size]

theorem bytes_copyToReg_le {value : Word} {d : Nat} (h : value.toNat ≤ 2 ^ (30 + 12 * d)) :
    bytes (copyToReg64bits reg value) ≤ 8 + 6 * d := by
  induction d generalizing value with
  | zero =>
      have hsmall : -2 ^ 31 ≤ value.toInt ∧ value.toInt ≤ 2 ^ 31 - 1 := by
        rw [BitVec.toInt_eq_toNat_of_lt (by omega)]
        omega
      rw [copyToReg64bits, if_pos hsmall]
      exact bytes_copyToReg32bits _
  | succ d ih =>
      by_cases hsmall : -2 ^ 31 ≤ value.toInt ∧ value.toInt ≤ 2 ^ 31 - 1
      · rw [copyToReg64bits, if_pos hsmall]
        exact (bytes_copyToReg32bits _).trans (by omega)
      · obtain ⟨k, -, -, heq⟩ := @copyToReg64bits_big reg value hsmall
        have hpow : 2 ^ (30 + 12 * (d + 1)) = 4096 * 2 ^ (30 + 12 * d) := by
          rw [show 30 + 12 * (d + 1) = 12 + (30 + 12 * d) by omega, Nat.pow_add]
        have hhigh := ih ((hi_lt hsmall k).2.trans (by omega))
        have hlow : bytes (if (value.setWidth 12 : BitVec 12) ≠ 0 then [.addi reg reg (value.setWidth 12)] else []) ≤ 4 := by
          split <;> simp [bytes, Inst.size]
        rw [heq, bytes_append, bytes]
        have hslli : (Inst.cSlli reg (BitVec.ofNat 1 ((12 + k) >>> 5)) (BitVec.ofNat 5 ((12 + k) &&& 0x1F))).size = 2 := rfl
        omega

theorem bytes_copyToReg (reg : Reg) (value : Word) : bytes (copyToReg reg value) ≤ 26 := by
  have hlt := value.isLt
  exact bytes_copyToReg_le (d := 3) (by omega)

end Constants

end Mambo.RvEmit
