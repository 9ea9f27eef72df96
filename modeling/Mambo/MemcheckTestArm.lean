import Mambo.ArmAddSub
import Mambo.ArmSafeFcalls
import Mambo.MemcheckTest

namespace Mambo.MemcheckTestArm

open MemcheckMark (Build)
open MemcheckTest
open T32 (Word Reg State)

/-- The instructions of the test: the change to T32 code, and T32 code without setting of flags. -/
inductive Inst
  | a32 (i : A32.Inst)
  | plugin (i : T32Plugin.Inst)
  | andi32 (imm1 : BitVec 1) (rn : Reg) (imm3 : BitVec 3) (rd : Reg) (imm8 : BitVec 8)
  | bici32 (imm1 : BitVec 1) (rn : Reg) (imm3 : BitVec 3) (rd : Reg) (imm8 : BitVec 8)
  | orri32 (imm1 : BitVec 1) (rn : Reg) (imm3 : BitVec 3) (rd : Reg) (imm8 : BitVec 8)
  | lsri32 (imm3 : BitVec 3) (rd : Reg) (imm2 : BitVec 2) (rm : Reg)
  | lsl32 (rn rd rm : Reg)
  | ldri16 (imm5 : BitVec 5) (rn rd : BitVec 3)
  | and32 (rn : Reg) (imm3 : BitVec 3) (rd : Reg) (imm2 shiftType : BitVec 2) (rm : Reg)
  | eor32 (rn : Reg) (imm3 : BitVec 3) (rd : Reg) (imm2 shiftType : BitVec 2) (rm : Reg)
  deriving DecidableEq

def Inst.size : Inst → Nat
  | .plugin i => i.size
  | .ldri16 .. => 2
  | _ => 4

section Execution

/-- An immediate of T32 data processing; none where the architecture leaves it open. -/
def thumbExpandImm (imm1 : BitVec 1) (imm3 : BitVec 3) (imm8 : BitVec 8) : Option Word :=
  let imm12 := imm1 ++ imm3 ++ imm8
  let b := imm8.setWidth 32
  if imm12.extractLsb' 10 2 = 0 then
    match (imm12.extractLsb' 8 2).toNat with
    | 0 => some b
    | 1 => if imm8 = 0 then none else some (b <<< 16 ||| b)
    | 2 => if imm8 = 0 then none else some (b <<< 24 ||| b <<< 8)
    | _ => if imm8 = 0 then none else some (b <<< 24 ||| b <<< 16 ||| b <<< 8 ||| b)
  else some ((((1 : BitVec 1) ++ imm12.extractLsb' 0 7).setWidth 32).rotateRight (imm12.extractLsb' 7 5).toNat)

/-- A result, unless a register is one that the architecture forbids. -/
def result (s : State) (regs : List Reg) (rd : Reg) (v : Word) : Option State :=
  if T32.pc ∈ rd :: regs ∨ T32.sp ∈ rd :: regs then none else some ((s.set rd v).goto (s.pc + 4))

/-- None for an instruction of the other instruction set. -/
def exec (i : Inst) (s : State) : Option State :=
  match i with
  | .a32 i => if s.thumb then none else some (A32.exec i s)
  | i =>
    if !s.thumb then none
    else
      match i with
      | .a32 _ => none
      | .plugin i => T32Plugin.exec i s
      | .andi32 imm1 rn imm3 rd imm8 => (thumbExpandImm imm1 imm3 imm8).bind fun v => result s [rn] rd (s.r rn &&& v)
      | .bici32 imm1 rn imm3 rd imm8 => (thumbExpandImm imm1 imm3 imm8).bind fun v => result s [rn] rd (s.r rn &&& ~~~v)
      | .orri32 imm1 rn imm3 rd imm8 => (thumbExpandImm imm1 imm3 imm8).bind fun v => result s [rn] rd (s.r rn ||| v)
      | .lsri32 imm3 rd imm2 rm => result s [rm] rd (A32.shiftImm 1 (imm3 ++ imm2) s.flags.c (s.r rm))
      | .lsl32 rn rd rm => result s [rn, rm] rd (s.r rn <<< ((s.r rm).toNat % 256))
      | .ldri16 imm5 rn rd =>
        some ((s.set (T32.low rd) (WordMemory.loadWord s.mem (s.r (T32.low rn) + imm5.setWidth 32 <<< 2))).goto (s.pc + 2))
      | .and32 rn imm3 rd imm2 shiftType rm =>
        result s [rn, rm] rd (s.r rn &&& A32.shiftImm shiftType (imm3 ++ imm2) s.flags.c (s.r rm))
      | .eor32 rn imm3 rd imm2 shiftType rm =>
        result s [rn, rm] rd (s.r rn ^^^ A32.shiftImm shiftType (imm3 ++ imm2) s.flags.c (s.r rm))

/-- The instructions one after the other from an address on; none where the counter is not at the next one. -/
def run : Word → List Inst → State → Option State
  | _, [], s => some s
  | a, i :: is, s => if s.pc = a then (exec i s).bind (run (a + BitVec.ofNat 32 i.size) is) else none

end Execution

def r0 : Reg := 0

def r1 : Reg := 1

def r2 : Reg := 2

def r3 : Reg := 3

/-- `__memcheck_inst_aarch32`; none for the endless loop. -/
def memcheckInst (armInst : Bool) (size : Nat) : Option (List Inst) :=
  if 24 < size then none
  else do
    let switch ← if armInst then (ArmAddSub.A32.emitAddSubI T32.pc T32.pc (-3)).map fun r => r.code.map Inst.a32 else some []
    let imm12 : Nat := 0x400
    return switch ++ [.andi32 0 r0 0 r1 7,
      .bici32 (BitVec.ofNat 1 (imm12 >>> 11)) r0 (BitVec.ofNat 3 (imm12 >>> 8)) r2 (BitVec.ofNat 8 imm12),
      .lsri32 0 r2 3 r2,
      .orri32 (BitVec.ofNat 1 (imm12 >>> 11)) r2 (BitVec.ofNat 3 (imm12 >>> 8)) r2 (BitVec.ofNat 8 imm12)] ++
      (SafeFcalls.thumbCopyToReg32bit r3 ((1 : Word) <<< size - 1)).map Inst.plugin ++
      [.lsl32 r3 r3 r1, .ldri16 0 2 1, .and32 r1 0 r1 0 0 r3, .eor32 r1 0 r1 0 0 r3]

section Test

variable {s t : State} {i : Inst} {is : List Inst} {size : Nat}

theorem run_cons (hexec : exec i s = some t) (hpc : t.pc = s.pc + BitVec.ofNat 32 i.size) :
    run s.pc (i :: is) s = run t.pc is t := by
  rw [run, if_pos rfl, hexec, Option.bind_some, hpc]

def shadowOf (address : Word) : Word := (address &&& ~~~(0x80000000 : Word)) >>> 3 ||| 0x80000000

theorem shadowOf_toNat (address : Word) :
    (shadowOf address).toNat = Build.aarch32.reservedBase + address.toNat % Build.aarch32.reservedBase / 8 :=
  @shadow_toNat 32 31 (~~~(0x80000000 : Word)) 0x80000000 address rfl rfl

theorem run_copy (hthumb : s.thumb = true) (reg : Reg) (value : Word) (hreg : reg ≠ T32.pc) :
    ∃ n, run s.pc ((SafeFcalls.thumbCopyToReg32bit reg value).map Inst.plugin ++ is) s =
      run n is ((s.set reg value).goto n) := by
  have hexec {s : State} (hthumb : s.thumb = true) (i : T32Plugin.Inst) : exec (.plugin i) s = T32Plugin.exec i s := by
    rw [exec, hthumb]
    rfl
  rw [SafeFcalls.thumbCopyToReg32bit]
  split_ifs with hsmall
  · refine ⟨s.pc + 4, ?_⟩
    have hstep : exec (.plugin (.core (.movwi32 (value.extractLsb' 11 1) (value.extractLsb' 12 4) (value.extractLsb' 8 3) reg
        (value.extractLsb' 0 8)))) s = some ((s.set reg value).goto (s.pc + 4)) := by
      rw [hexec hthumb]
      show some ((s.set reg _).goto (s.pc + 4)) = _
      rw [ArmSafeFcalls.movw_thumb, ArmSafeFcalls.small_value hsmall]
    exact run_cons hstep rfl
  · refine ⟨CodeCells.past s.pc 8, ?_⟩
    have hcopy : T32Emit.performAll (T32Emit.copyToReg32bit reg value) s = (s.set reg value).goto (CodeCells.past s.pc 8) :=
      T32Emit.performAll_copy hreg value
    let low : T32.Inst := .movwi32 (value.extractLsb' 11 1) (value.extractLsb' 12 4) (value.extractLsb' 8 3) reg
      (value.extractLsb' 0 8)
    let high : T32.Inst := .movti32 (value.extractLsb' 27 1) (value.extractLsb' 28 4) (value.extractLsb' 24 3) reg
      (value.extractLsb' 16 8)
    have hlow : exec (.plugin (.core low)) s = some (T32.perform low s) := hexec hthumb _
    have hhigh : exec (.plugin (.core high)) (T32.perform low s) = some (T32.perform high (T32.perform low s)) :=
      hexec (show (T32.perform low s).thumb = true from hthumb) _
    exact (run_cons hlow rfl).trans ((run_cons hhigh rfl).trans (congrArg (fun t => run t.pc is t) hcopy))

theorem mask_eq (hle : size ≤ 24) : (1 : Word) <<< size - 1 = ones 32 size := by
  have hpow : 2 ^ size ≤ 2 ^ 24 := Nat.pow_le_pow_right (by decide) hle
  have hpos : 1 ≤ 2 ^ size := Nat.one_le_two_pow
  have hone : ((1 : Word) <<< size).toNat = 2 ^ size := by
    rw [BitVec.toNat_shiftLeft, Nat.shiftLeft_eq, show (1 : Word).toNat = 1 from rfl, Nat.one_mul, Nat.mod_eq_of_lt (by omega)]
  apply BitVec.eq_of_toNat_eq
  rw [BitVec.toNat_sub_of_le (by rw [BitVec.le_def, hone]; exact hpos), hone, ones, BitVec.toNat_ofNat, Nat.mod_eq_of_lt (by omega)]
  rfl

theorem run_thumb (hle : size ≤ 24) (hthumb : s.thumb = true) :
    ∃ code t, memcheckInst false size = some code ∧ run s.pc code s = some t ∧
      t.r r1 = (WordMemory.loadWord s.mem (shadowOf (s.r r0)) &&& ones 32 size <<< ((s.r r0).toNat % 8)) ^^^
        ones 32 size <<< ((s.r r0).toNat % 8) := by
  have hoffset : (s.r r0 &&& 7).toNat % 256 = (s.r r0).toNat % 8 := by
    have hand : (s.r r0 &&& 7).toNat = (s.r r0).toNat % 8 := by
      rw [BitVec.toNat_and]
      exact Nat.and_two_pow_sub_one_eq_mod _ 3
    omega
  let s₁ := (s.set r1 (s.r r0 &&& 7)).goto (s.pc + 4)
  let s₂ := (s₁.set r2 (s₁.r r0 &&& ~~~(0x80000000 : Word))).goto (s₁.pc + 4)
  let s₃ := (s₂.set r2 (s₂.r r2 >>> 3)).goto (s₂.pc + 4)
  let s₄ := (s₃.set r2 (s₃.r r2 ||| 0x80000000)).goto (s₃.pc + 4)
  have h₁ : exec (.andi32 0 r0 0 r1 7) s = some s₁ := by
    simp only [exec, hthumb]
    rfl
  have h₂ : exec (.bici32 0 r0 4 r2 0) s₁ = some s₂ := by
    simp only [exec, show s₁.thumb = true from hthumb]
    rfl
  have h₃ : exec (.lsri32 0 r2 3 r2) s₂ = some s₃ := by
    simp only [exec, show s₂.thumb = true from hthumb]
    rfl
  have h₄ : exec (.orri32 0 r2 4 r2 0) s₃ = some s₄ := by
    simp only [exec, show s₃.thumb = true from hthumb]
    rfl
  obtain ⟨n, hcopy⟩ := @run_copy s₄ [.lsl32 r3 r3 r1, .ldri16 0 2 1, .and32 r1 0 r1 0 0 r3, .eor32 r1 0 r1 0 0 r3] hthumb r3
    ((1 : Word) <<< size - 1) (by decide)
  let s₅ := (s₄.set r3 ((1 : Word) <<< size - 1)).goto n
  let s₆ := (s₅.set r3 (s₅.r r3 <<< ((s₅.r r1).toNat % 256))).goto (s₅.pc + 4)
  let s₇ := (s₆.set r1 (WordMemory.loadWord s₆.mem (s₆.r r2 + 0))).goto (s₆.pc + 2)
  let s₈ := (s₇.set r1 (s₇.r r1 &&& s₇.r r3 <<< 0)).goto (s₇.pc + 4)
  let s₉ := (s₈.set r1 (s₈.r r1 ^^^ s₈.r r3 <<< 0)).goto (s₈.pc + 4)
  have h₆ : exec (.lsl32 r3 r3 r1) s₅ = some s₆ := by
    simp only [exec, show s₅.thumb = true from hthumb]
    rfl
  have h₇ : exec (.ldri16 0 2 1) s₆ = some s₇ := by
    simp only [exec, show s₆.thumb = true from hthumb]
    rfl
  have h₈ : exec (.and32 r1 0 r1 0 0 r3) s₇ = some s₈ := by
    simp only [exec, show s₇.thumb = true from hthumb]
    rfl
  have h₉ : exec (.eor32 r1 0 r1 0 0 r3) s₈ = some s₉ := by
    simp only [exec, show s₈.thumb = true from hthumb]
    rfl
  refine ⟨_, s₉, by rw [memcheckInst, if_neg (by omega)]; rfl, ?_, ?_⟩
  · exact (run_cons h₁ rfl).trans ((run_cons h₂ rfl).trans ((run_cons h₃ rfl).trans ((run_cons h₄ rfl).trans
      (hcopy.trans ((run_cons h₆ rfl).trans ((run_cons h₇ rfl).trans ((run_cons h₈ rfl).trans (run_cons h₉ rfl))))))))
  · simp (disch := decide) only [s₉, s₈, s₇, s₆, s₅, s₄, s₃, s₂, s₁, State.goto_r, State.goto_mem, State.set_mem,
      State.set_r_self, State.set_r_of_ne, BitVec.shiftLeft_zero, hoffset, mask_eq hle, add_zero]
    rfl

theorem run_arm (hthumb : s.thumb = false) (halign : s.pc.toNat % 4 = 0) (code : List Inst) :
    run s.pc (.a32 (.subI T32.pc T32.pc 3) :: code) s = run (s.pc + 4) code { s.goto (s.pc + 4) with thumb := true } := by
  have htarget : (A32.get s T32.pc - A32.expandImm 3).toNat = (s.pc.toNat + 5) % 2 ^ 32 := by
    rw [A32.get, if_pos rfl, show A32.expandImm 3 = 3 by decide]
    bv_omega
  have hentry : T32.entry (A32.get s T32.pc - A32.expandImm 3) = s.pc + 4 := by
    apply BitVec.eq_of_toNat_eq
    rw [T32Emit.entry_toNat, htarget, BitVec.toNat_add, show (4 : Word).toNat = 4 from rfl]
    omega
  have hbit : (A32.get s T32.pc - A32.expandImm 3).getLsbD 0 = true := by
    rw [BitVec.getLsbD, Nat.testBit_zero, htarget, decide_eq_true_eq]
    omega
  have hstep : exec (.a32 (.subI T32.pc T32.pc 3)) s = some { s.goto (s.pc + 4) with thumb := true } := by
    simp only [exec, hthumb]
    show some (T32.bxTo _ s) = _
    rw [T32.bxTo, hentry, hbit]
  exact run_cons hstep rfl

/-- The code of either instruction set leaves zero in register 1 exactly if the whole access is marked. -/
theorem memcheckInst_zero_iff (hle : size ≤ 24) (s : State) (halign : s.thumb = false → s.pc.toNat % 4 = 0) :
    ∃ code t, memcheckInst (!s.thumb) size = some code ∧ run s.pc code s = some t ∧
      (t.r r1 = 0 ↔ AllMarked .aarch32 s.mem (s.r r0) size) := by
  have hzero {t : State} (hvalue : t.r r1 = (WordMemory.loadWord s.mem (shadowOf (s.r r0)) &&&
      ones 32 size <<< ((s.r r0).toNat % 8)) ^^^ ones 32 size <<< ((s.r r0).toNat % 8)) :
      t.r r1 = 0 ↔ AllMarked .aarch32 s.mem (s.r r0) size := by
    have hbase := shadowOf_toNat (s.r r0)
    have hmod : (s.r r0).toNat % Build.aarch32.reservedBase % 8 = (s.r r0).toNat % 8 := Nat.mod_mod_of_dvd _ (by decide)
    rw [hvalue, missing_iff _ (by omega)]
    refine Iff.trans (forall₂_congr fun i hi => ?_) (@allMarked_iff .aarch32 s.mem (s.r r0) _ size hbase hmod).symm
    have hbit : (WordMemory.loadWord s.mem (shadowOf (s.r r0))).getLsbD ((s.r r0).toNat % 8 + i) =
        (s.mem (shadowOf (s.r r0) + BitVec.ofNat 32 (((s.r r0).toNat % 8 + i) / 8))).getLsbD
          (((s.r r0).toNat % 8 + i) % 8) := by
      rw [← loadBytes_bit s.mem _ (show (s.r r0).toNat % 8 + i < 8 * 4 by omega), WordMemory.loadWord, BitVec.getLsbD_ofNat,
        decide_eq_true (by omega), Bool.true_and]
    rw [hbit]
    rfl
  cases hthumb : s.thumb with
  | true =>
      obtain ⟨code, t, hcode, hrun, hvalue⟩ := run_thumb hle hthumb
      exact ⟨code, t, hcode, hrun, hzero hvalue⟩
  | false =>
      obtain ⟨code, t, hcode, hrun, hvalue⟩ := @run_thumb { s.goto (s.pc + 4) with thumb := true } size hle rfl
      refine ⟨.a32 (.subI T32.pc T32.pc 3) :: code, t, ?_, (run_arm hthumb (halign hthumb) code).trans hrun, hzero hvalue⟩
      rw [memcheckInst, if_neg (by omega)] at hcode ⊢
      obtain rfl := Option.some.inj hcode
      rfl

/-- On each instruction set, the emitted test of an access equals the check of the shadow bits
that `memcheck_mark` sets. -/
theorem memcheck_test_iff :
    (∀ size, 1 ≤ size → size ≤ 56 → ∀ s : A64.State, ∃ t, A64.execAll (A64.memcheckInst size) s = some t ∧
      (t.get A64.x1 = 0 ↔ AllMarked .aarch64 s.mem (s.get A64.x0) size)) ∧
    ∀ size, 1 ≤ size → size ≤ 24 → ∀ s : State, (s.thumb = false → s.pc.toNat % 4 = 0) →
      ∃ code t, memcheckInst (!s.thumb) size = some code ∧ run s.pc code s = some t ∧
        (t.r r1 = 0 ↔ AllMarked .aarch32 s.mem (s.r r0) size) :=
  ⟨fun _ hpos hle s => A64.memcheckInst_zero_iff hpos hle s, fun _ _ hle s halign => memcheckInst_zero_iff hle s halign⟩

theorem memcheck_test_byte :
    (∃ t, A64.execAll (A64.memcheckInst 1) ⟨0, fun _ => 0, 0, ⟨false, false, false, false⟩, fun _ => 0⟩ = some t ∧
      (t.get A64.x1 = 0 ↔ AllMarked .aarch64 (fun _ => 0) 0 1)) ∧
    ∃ code t, memcheckInst true 24 = some code ∧
      run 0 code ⟨0, false, fun _ => 5, ⟨false, false, false, false⟩, 0, fun _ => 0xFF⟩ = some t ∧
        (t.r r1 = 0 ↔ AllMarked .aarch32 (fun _ => 0xFF) 5 24) :=
  ⟨memcheck_test_iff.1 1 (by decide) (by decide) _,
    memcheck_test_iff.2 24 (by decide) (by decide)
      ⟨0, false, fun _ => 5, ⟨false, false, false, false⟩, 0, fun _ => 0xFF⟩ fun _ => rfl⟩

end Test

end Mambo.MemcheckTestArm
