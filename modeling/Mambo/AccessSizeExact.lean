import Mambo.A64AccessAddr
import Mambo.AccessSize

namespace Mambo.AccessSizeExact

open AccessSize EmitResults

/-- What plugins are told agrees with what an instruction accesses. How much it accesses and
where is only asked for the instructions that tell it. -/
structure Agrees (isLoad isStore : Bool) (size : Option Int) (succeeds : Prop) (access : Access) : Prop where
  load_iff : isLoad = access.reads
  store_iff : isStore = access.writes
  size_eq : ∀ n ∈ access.bytes, isLoad ∨ isStore → size = some (n : Int) ∧ succeeds

variable {isLoad isStore : Bool} {size : Option Int} {succeeds : Prop} {access : Access} {n : Nat}

theorem agrees_nothing : Agrees false false size succeeds nothing := ⟨rfl, rfl, fun _ h => by cases h⟩

theorem agrees_iff_of_access (hload : isLoad = access.reads) (hstore : isStore = access.writes)
    (hsome : isLoad ∨ isStore) (hbytes : access.bytes = some n) :
    Agrees isLoad isStore size succeeds access ↔ size = some (n : Int) ∧ succeeds := by
  constructor
  · exact fun h => h.size_eq n hbytes hsome
  · intro h
    refine ⟨hload, hstore, fun m hm _ => ?_⟩
    rw [hbytes] at hm
    cases hm
    exact h

theorem agrees_update : Agrees true true size succeeds (update n) ↔ size = some (n : Int) ∧ succeeds :=
  agrees_iff_of_access rfl rfl (by decide) rfl

theorem agrees_transfer (b : Bool) :
    Agrees b (!b) size succeeds (transfer b n) ↔ size = some (n : Int) ∧ succeeds := by
  cases b <;> exact agrees_iff_of_access rfl rfl (by decide) rfl

theorem agrees_transfer_of (b : Bool) (hsize : size = some (n : Int)) :
    Agrees b (!b) size succeeds (transfer b n) ↔ succeeds := by
  rw [agrees_transfer, and_iff_right hsize]

theorem agrees_counted (b : Bool) {bytes : Option Nat} (hsize : size = bytes.map Nat.cast) :
    Agrees b (!b) size succeeds { transfer b 0 with bytes := bytes } ↔ (bytes.isSome → succeeds) := by
  cases bytes with
  | none => refine iff_of_true ?_ (by rintro ⟨⟩); cases b <;> exact ⟨rfl, rfl, fun _ h => by cases h⟩
  | some n =>
      have heq : { transfer b 0 with bytes := some n } = transfer b n := by cases b <;> rfl
      rw [heq, agrees_transfer_of b hsize]
      exact ⟨fun h _ => h, fun h => h rfl⟩

theorem map_ok {ι : Type*} {code : Option (List ι)} :
    (∃ is, code.map Result.ok = some (.ok is)) ↔ ∃ is, code = some is := by
  cases code with
  | none => exact iff_of_false (fun ⟨_, h⟩ => by cases h) fun ⟨_, h⟩ => by cases h
  | some is => exact iff_of_true ⟨is, rfl⟩ ⟨is, rfl⟩

section A64

open A64LoadStore (Encoding IsStgp v opc rm rn calcLdStAddr)
open A64AddSub (sp)

def IsStrQ (w : Encoding) : Prop := v w = 1 ∧ opc w = 2

instance (w : Encoding) : Decidable (IsStrQ w) := inferInstanceAs (Decidable (_ ∧ _))

def IsPrefetch (w : Encoding) : Prop := A64LoadStore.size w = 3 ∧ v w = 0 ∧ opc w = 2

instance (w : Encoding) : Decidable (IsPrefetch w) := inferInstanceAs (Decidable (_ ∧ _ ∧ _))

/-- An index register is added to the stack pointer only while few registers are pushed. -/
def A64IndexRight (count : Int) (w : Encoding) : Prop :=
  rm w ≠ 31 → rn w = sp → A64AccessAddr.Small (BitVec.ofInt 32 count * 8)

/-- The compares and swaps and the atomic minima and maxima are missed, a store of 16 bytes is
taken for a load, and half of a store of a pair with a tag is not counted. -/
def A64Right (count : Int) (inst : A64Inst) (w : Encoding) : Prop :=
  match inst with
  | .known .ldpStp => ¬IsStgp w
  | .known .ldrStrImmed | .known .ldrStrUnsignedImmed => ¬IsStrQ w
  | .known .ldrStrReg => ¬IsStrQ w ∧ (¬IsPrefetch w → A64IndexRight count w)
  | .known .ldxStx => o1 w = 1 → o2 w = 0 ∧ (A64LoadStore.size w).getLsbD 1 = true
  | .ldsmax | .ldsmin | .ldumax | .ldumin => False
  | .sys => dcZva w = false
  | _ => True

def A64Agrees (readAddress : A64.Word) (count : Int) (inst : A64Inst) (w : Encoding) : Prop :=
  Agrees (a64IsLoadOrStore inst w).1 (a64IsLoadOrStore inst w).2 (a64GetLdStSize inst w)
    (∀ reg, ∃ code, calcLdStAddr readAddress count inst.instruction w reg = some (.ok code)) (a64Access inst w)

variable {readAddress : A64.Word} {count : Int} {inst : A64Inst} {w : Encoding} {reg base r : A64.Reg}

theorem generateAddr_index_iff {d : BitVec 32} (hr : r ≠ 31) :
    (∃ code, A64LoadStore.generateAddr count reg base r.toNat d = some code) ↔
      (base = sp → A64AccessAddr.Small (BitVec.ofInt 32 count * 8)) := by
  have hnat : r.toNat ≠ 31 := fun h => hr (BitVec.eq_of_toNat_eq h)
  have hlt := r.isLt
  by_cases hsmall : A64AccessAddr.Small (A64AccessAddr.applied base count)
  · refine iff_of_true ?_ fun hbase => ?_
    · rw [A64LoadStore.generateAddr, if_neg (by omega)]
      dsimp only
      rw [← A64AccessAddr.applied, if_neg (by rw [A64LoadStore.regInvalid]; omega)]
      by_cases hzero : A64AccessAddr.applied base count = 0
      · exact ⟨_, if_neg (not_not.mpr hzero)⟩
      · have hpos : (A64AccessAddr.applied base count).toInt ≠ 0 := fun h => hzero (BitVec.eq_of_toInt_eq h)
        exact ⟨_, (if_pos hzero).trans (if_pos ⟨hsmall.2, lt_of_le_of_ne hsmall.1 hpos.symm⟩)⟩
    · rwa [A64AccessAddr.applied, if_pos hbase] at hsmall
  · refine iff_of_false ?_ fun h => hsmall ?_
    · rintro ⟨code, hcode⟩
      rw [A64AccessAddr.generateAddr_index_none hr hsmall] at hcode
      cases hcode
    · rw [A64AccessAddr.applied]
      split
      next hbase => exact h hbase
      next => exact ⟨by decide, by decide⟩

/-- Only an index register can stop the address calculator on a load or store. -/
theorem a64_succeeds_iff {i : A64LoadStore.Instruction} (hother : i ≠ .other) :
    (∀ reg, ∃ code, calcLdStAddr readAddress count i w reg = some (.ok code)) ↔
      (i = .ldrStrReg → A64IndexRight count w) := by
  by_cases hlit : i = .ldrLit
  · subst hlit
    exact iff_of_true (fun _ => ⟨_, rfl⟩) fun h => absurd h (by decide)
  have hconstant {d : BitVec 32} (hdec : A64LoadStore.decoded i w = some (A64LoadStore.regInvalid, d)) :
      ∀ reg, ∃ code, calcLdStAddr readAddress count i w reg = some (.ok code) := by
    intro reg
    rw [A64AccessAddr.calc_of_decoded hlit hdec, map_ok]
    exact ⟨_, A64AccessAddr.generateAddr_constant⟩
  by_cases hreg : i = .ldrStrReg
  · subst hreg
    by_cases hrm : rm w = 31
    · refine iff_of_true (hconstant (if_pos hrm)) fun _ hne => absurd hrm hne
    · have hindexed : A64AccessAddr.Indexed .ldrStrReg w := ⟨rfl, hrm⟩
      simp only [A64AccessAddr.calc_of_decoded hlit (A64AccessAddr.decoded_index hindexed), map_ok,
        generateAddr_index_iff hrm]
      exact ⟨fun h _ _ => h 0, fun h _ => h trivial hrm⟩
  · refine iff_of_true ?_ fun h => absurd h hreg
    cases i with
    | ldrLit => exact absurd rfl hlit
    | ldrStrReg => exact absurd rfl hreg
    | other => exact absurd rfl hother
    | _ => exact hconstant rfl

theorem bit_eq (b : BitVec 1) : b = 0 ∨ b = 1 := by
  revert b
  decide

theorem a64_transfer_iff (b : Bool) (hclass : a64IsLoadOrStore inst w = (b, !b))
    (haccess : a64Access inst w = transfer b n) (hother : inst.instruction ≠ .other) :
    A64Agrees readAddress count inst w ↔
      a64GetLdStSize inst w = some (n : Int) ∧ (inst.instruction = .ldrStrReg → A64IndexRight count w) := by
  rw [A64Agrees, hclass, haccess, agrees_transfer, a64_succeeds_iff hother]

theorem a64_update_iff (hclass : a64IsLoadOrStore inst w = (true, true)) (haccess : a64Access inst w = update n)
    (hother : inst.instruction ≠ .other) (hreg : inst.instruction ≠ .ldrStrReg) :
    A64Agrees readAddress count inst w ↔ a64GetLdStSize inst w = some (n : Int) := by
  rw [A64Agrees, hclass, haccess, agrees_update, a64_succeeds_iff hother]
  exact and_iff_left fun h => absurd h hreg

theorem a64_not_agrees (hclass : (a64IsLoadOrStore inst w).1 ≠ (a64Access inst w).reads) :
    ¬A64Agrees readAddress count inst w := fun h => hclass h.load_iff

theorem isLoadBit_class (w : Encoding) :
    (if isLoadBit w ≠ 0 then (true, false) else (false, true)) =
      (decide (isLoadBit w = 1), !decide (isLoadBit w = 1)) := by
  rcases bit_eq (isLoadBit w) with h | h <;> rw [h] <;> decide

theorem ldrLit_agrees : A64Agrees readAddress count (.known .ldrLit) w := by
  by_cases hnothing : A64LoadStore.size w = 3 ∧ v w = 0
  · have hclass : a64IsLoadOrStore (.known .ldrLit) w = (false, false) := if_pos hnothing
    have haccess : a64Access (.known .ldrLit) w = nothing := by
      rw [a64Access, hnothing.1, hnothing.2]
      rfl
    rw [A64Agrees, hclass, haccess]
    exact agrees_nothing
  · have hbytes : ∀ (size : BitVec 2) (v : BitVec 1), ¬(size = 3 ∧ v = 0) →
        (if v = 1 then load (4 * 2 ^ size.toNat) else if size = 3 then nothing else load (if size = 1 then 8 else 4)) =
          transfer true (if v ≠ 0 then 4 <<< size.toNat else 4 <<< (size.toNat &&& 1)) := by
      decide
    have hclass : a64IsLoadOrStore (.known .ldrLit) w = (true, false) := if_neg hnothing
    have haccess : a64Access (.known .ldrLit) w = _ := hbytes _ _ hnothing
    exact (a64_transfer_iff true hclass haccess (by decide)).mpr ⟨rfl, fun h => absurd h (by decide)⟩

theorem ldpStp_agrees_iff : A64Agrees readAddress count (.known .ldpStp) w ↔ ¬IsStgp w := by
  have hclass : a64IsLoadOrStore (.known .ldpStp) w = _ := isLoadBit_class w
  have hbytes : ∀ (v : BitVec 1) (size : BitVec 2) (l : BitVec 1),
      some ((if v ≠ 0 then 8 <<< size.toNat else 8 <<< (size.toNat >>> 1) : Nat) : Int) = some ((2 * if v = 1 then
        4 * 2 ^ size.toNat else if (v = 0 ∧ size = 1 ∧ l = 0) ∨ size.getLsbD 1 = true then 8 else 4 : Nat) : Int) ↔
          ¬(v = 0 ∧ size = 1 ∧ l = 0) := by
    decide
  rw [a64_transfer_iff _ hclass rfl (by decide)]
  exact (and_iff_left fun h => absurd h (by decide)).trans (hbytes _ _ _)

theorem ldrStr_agrees_iff {i : A64LoadStore.Instruction}
    (hi : i = .ldrStrImmed ∨ i = .ldrStrReg ∨ i = .ldrStrUnsignedImmed) :
    A64Agrees readAddress count (.known i) w ↔
      ¬IsStrQ w ∧ (¬IsPrefetch w → i = .ldrStrReg → A64IndexRight count w) := by
  have hclass : a64IsLoadOrStore (.known i) w = if IsPrefetch w then (false, false) else
      if opc w ≠ 0 then (true, false) else (false, true) := by
    rcases hi with rfl | rfl | rfl <;> rfl
  have haccess : a64Access (.known i) w = if v w = 1 then transfer ((opc w).getLsbD 0) (2 ^ A64LoadStore.scale w)
      else if A64LoadStore.size w = 3 ∧ opc w = 2 then nothing
      else transfer (opc w ≠ 0) (2 ^ A64LoadStore.scale w) := by
    rcases hi with rfl | rfl | rfl <;> rfl
  have hsize : a64GetLdStSize (.known i) w = some ((2 ^ A64LoadStore.scale w : Nat) : Int) := by
    have hall : ∀ (v : BitVec 1) (size opc : BitVec 2),
        (if v ≠ 0 then 1 <<< (size.toNat + opc.toNat >>> 1 <<< 2) else 1 <<< size.toNat) =
          2 ^ (if v = 1 then (opc.extractLsb' 1 1 ++ size).toNat else size.toNat) := by decide
    rw [A64LoadStore.scale, ← hall]
    rcases hi with rfl | rfl | rfl <;> rfl
  by_cases hprefetch : IsPrefetch w
  · rw [if_pos hprefetch] at hclass
    obtain ⟨hthree, hv, hopc⟩ := hprefetch
    rw [hv, if_neg (by decide), if_pos ⟨hthree, hopc⟩] at haccess
    rw [A64Agrees, hclass, haccess]
    have hstrq : ¬IsStrQ w := fun h => absurd (hv.symm.trans h.1) (by decide)
    exact iff_of_true agrees_nothing ⟨hstrq, fun h => absurd ⟨hthree, hv, hopc⟩ h⟩
  · rw [if_neg hprefetch] at hclass
    by_cases hstrq : IsStrQ w
    · refine iff_of_false (a64_not_agrees ?_) fun h => h.1 hstrq
      rw [hclass, haccess, hstrq.1, hstrq.2]
      exact Bool.true_eq_false.mp
    · have hbit : (if opc w ≠ 0 then (true, false) else (false, true)) = (decide (opc w ≠ 0), !decide (opc w ≠ 0)) := by
        by_cases h : opc w = 0
        · rw [h]
          rfl
        · rw [if_pos h, decide_eq_true h]
          rfl
      have htransfer : a64Access (.known i) w = transfer (opc w ≠ 0) (2 ^ A64LoadStore.scale w) := by
        rw [haccess]
        by_cases hv : v w = 1
        · have hall : ∀ opc : BitVec 2, opc ≠ 2 → opc.getLsbD 0 = decide (opc ≠ 0) := by decide
          rw [if_pos hv, hall _ fun h => hstrq ⟨hv, h⟩]
        · rw [if_neg hv, if_neg fun h => hprefetch ⟨h.1, (bit_eq (v w)).resolve_right hv, h.2⟩]
      have hother : i ≠ .other := by rintro rfl; simp at hi
      rw [a64_transfer_iff _ (hclass.trans hbit) htransfer hother, hsize, and_iff_right rfl]
      exact ⟨fun h => ⟨hstrq, fun _ => h⟩, fun h => h.2 hprefetch⟩

theorem ldxStx_agrees_iff : A64Agrees readAddress count (.known .ldxStx) w ↔
    (o1 w = 1 → o2 w = 0 ∧ (A64LoadStore.size w).getLsbD 1 = true) := by
  have hclass : a64IsLoadOrStore (.known .ldxStx) w = _ := isLoadBit_class w
  have hsize : a64GetLdStSize (.known .ldxStx) w =
      some ((1 <<< ((A64LoadStore.size w).toNat + (o1 w).toNat) : Nat) : Int) := rfl
  have hupdate {m : Nat} (h : exclusiveAccess w = update m) : ¬A64Agrees readAddress count (.known .ldxStx) w := by
    intro hagrees
    have hload := hagrees.load_iff
    have hstore := hagrees.store_iff
    rw [hclass, show a64Access (.known .ldxStx) w = update m from h] at hload hstore
    rw [show decide (isLoadBit w = 1) = true from hload] at hstore
    cases hstore
  have hplain {m : Nat} (h : exclusiveAccess w = transfer (isLoadBit w = 1) m) :
      A64Agrees readAddress count (.known .ldxStx) w ↔ 1 <<< ((A64LoadStore.size w).toNat + (o1 w).toNat) = m := by
    rw [a64_transfer_iff _ hclass h (by decide), hsize]
    refine (and_iff_left fun h => absurd h (by decide)).trans ?_
    rw [Option.some.injEq, Nat.cast_inj]
  rcases bit_eq (o1 w) with ho1 | ho1
  · have hall : ∀ size : BitVec 2, 1 <<< (size.toNat + (0 : BitVec 1).toNat) = 2 ^ size.toNat := by decide
    refine iff_of_true ((hplain (if_pos ho1)).mpr ?_) fun h => absurd (ho1.symm.trans h) (by decide)
    rw [ho1, hall]
  have hne : o1 w ≠ 0 := by rw [ho1]; decide
  rw [exclusiveAccess, if_neg hne] at hupdate hplain
  rcases bit_eq (o2 w) with ho2 | ho2
  · rw [if_neg (by rw [ho2]; decide)] at hupdate hplain
    by_cases hpair : (A64LoadStore.size w).getLsbD 1 = true
    · have hall : ∀ size : BitVec 2, 1 <<< (size.toNat + (1 : BitVec 1).toNat) = 2 * 2 ^ size.toNat := by decide
      refine iff_of_true ((hplain (if_pos hpair)).mpr ?_) fun _ => ⟨ho2, hpair⟩
      rw [ho1, hall]
    · exact iff_of_false (hupdate (if_neg hpair)) fun h => hpair (h ho1).2
  · exact iff_of_false (hupdate (if_pos ho2)) fun h => absurd (ho2.symm.trans (h ho1).1) (by decide)

theorem multiple_agrees {i : A64LoadStore.Instruction} (hi : i = .ldxStxMultiple ∨ i = .ldxStxMultiplePost) :
    A64Agrees readAddress count (.known i) w := by
  have hclass : a64IsLoadOrStore (.known i) w = (decide (isLoadBit w = 1), !decide (isLoadBit w = 1)) := by
    rw [← isLoadBit_class]
    rcases hi with rfl | rfl <;> rfl
  have hbytes : ∀ (op : BitVec 4) (q : BitVec 1) (es : BitVec 2),
      (multipleRegs op).map (fun regs => ((regs * 8 <<< q.toNat : Nat) : Int)) =
        ((structures op).map fun n =>
          n.1 * n.2 * (2 ^ es.toNat * ((if q = 1 then 16 else 8) / 2 ^ es.toNat))).map Nat.cast := by
    decide
  have hother : i ≠ .other := by rintro rfl; simp at hi
  have hreg : i ≠ .ldrStrReg := by rintro rfl; simp at hi
  have hsucceeds : ∀ reg, ∃ code, calcLdStAddr readAddress count i w reg = some (.ok code) :=
    (a64_succeeds_iff hother).mpr fun h => absurd h hreg
  have hcounted := (agrees_counted (decide (isLoadBit w = 1)) (hbytes (opcode w) (q w) (elementSize w))).mpr
    fun _ => hsucceeds
  rw [A64Agrees, hclass]
  rcases hi with rfl | rfl <;> exact hcounted

theorem single_agrees {i : A64LoadStore.Instruction} (hi : i = .ldxStxSingle ∨ i = .ldxStxSinglePost) :
    A64Agrees readAddress count (.known i) w := by
  have hclass : a64IsLoadOrStore (.known i) w = (decide (isLoadBit w = 1), !decide (isLoadBit w = 1)) := by
    rw [← isLoadBit_class]
    rcases hi with rfl | rfl <;> rfl
  have haccess : a64Access (.known i) w = transfer (isLoadBit w = 1) (singleRegs w * singleBytes w) := by
    rcases hi with rfl | rfl <;> rfl
  have hother : i ≠ .other := by rintro rfl; simp at hi
  have hreg : i ≠ .ldrStrReg := by rintro rfl; simp at hi
  refine (a64_transfer_iff _ hclass haccess hother).mpr ⟨?_, fun h => absurd h hreg⟩
  have hsize : 1 <<< (if (singleOpcode w).toNat >>> 1 = 3 then (elementSize w).toNat
      else if (singleOpcode w).toNat >>> 1 = 2 then if (elementSize w).toNat &&& 1 ≠ 0 then 3 else 2
      else (singleOpcode w).toNat >>> 1) * ((((singleOpcode w).toNat &&& 1) <<< 1 ||| (r w).toNat) + 1) =
        singleRegs w * singleBytes w := by
    rw [singleRegs, singleBytes]
    generalize singleOpcode w = op, r w = r, elementSize w = es
    revert op r es
    decide
  rcases hi with rfl | rfl <;> exact congrArg (fun n : Nat => some (n : Int)) hsize

theorem a64_agrees_iff : A64Agrees readAddress count inst w ↔ A64Right count inst w := by
  cases inst with
  | known i =>
      cases i with
      | ldpStp => exact ldpStp_agrees_iff
      | ldrLit => exact iff_of_true ldrLit_agrees trivial
      | ldrStrImmed | ldrStrUnsignedImmed =>
          exact (ldrStr_agrees_iff (by simp)).trans (and_iff_left fun _ h => absurd h (by decide))
      | ldrStrReg =>
          rw [ldrStr_agrees_iff (by simp)]
          exact and_congr_right fun _ => forall_congr' fun _ => ⟨fun h => h rfl, fun h _ => h⟩
      | ldxStx => exact ldxStx_agrees_iff
      | ldxStxMultiple | ldxStxMultiplePost => exact iff_of_true (multiple_agrees (by simp)) trivial
      | ldxStxSingle | ldxStxSinglePost => exact iff_of_true (single_agrees (by simp)) trivial
      | ldadd | ldclr | ldeor | ldset | swp =>
          refine iff_of_true ((a64_update_iff rfl rfl (by decide) (by decide)).mpr ?_) trivial
          rw [a64GetLdStSize, Nat.one_shiftLeft]
      | other => exact iff_of_true agrees_nothing trivial
  | ldsmax | ldsmin | ldumax | ldumin => exact iff_of_false (a64_not_agrees Bool.false_ne_true) id
  | sys =>
      constructor
      · exact fun h => h.store_iff.symm
      · exact fun h => ⟨rfl, h.symm, fun _ h => by cases h⟩

end A64

section AArch32

open ArmLoadStore
open T32 (Reg Word sp pc)

/-- An index register other than the stack pointer and the counter is added to the stack
pointer only while few registers are pushed. -/
def IndexRight (count : Int) (index : Option (Reg × Int)) : Prop :=
  ∀ i ∈ index, (i.2 ≠ pc.toNat ∧ i.2 ≠ sp.toNat) ∧ (i.1 = sp → A64AccessAddr.Small (BitVec.ofInt 32 count * 4))

def WholeDoubles (double : Bool) (imm8 : BitVec 8) : Prop := double = true → 2 ∣ imm8.toNat

def thumbIndex : ThumbInst → Option (Reg × Int)
  | .reg16 _ rm rn => some (rn.setWidth 4, rm.toNat)
  | .reg32 _ rn _ rm => some (rn, rm.toNat)
  | _ => none

/-- The base register and the index register, negative where it is subtracted. -/
def armIndex : ArmInst → Option (Reg × Int)
  | .single _ true rn operand2 true u =>
      some (rn, (decodeArm false true u (operand2.setWidth 32)).1)
  | .half _ false rn rmImm4l imm4h true u =>
      some (rn, (decodeArm false true u (imm4h.setWidth 32 <<< 4 ||| rmImm4l.setWidth 32)).1)
  | _ => none

/-- The words of an odd transfer of doublewords and the size 3 of a load to all lanes are
counted wrong, and some index registers stop the process. -/
def ThumbRight (count : Int) (inst : ThumbInst) : Prop :=
  match inst with
  | .vpop double regs | .vpush double regs => WholeDoubles double regs
  | .vfpMultiple _ double p upwards _ imm8 => p ≠ upwards ∧ WholeDoubles double imm8
  | .neonAll _ size _ => size ≠ 3
  | inst => IndexRight count (thumbIndex inst)

def ArmRight (count : Int) (inst : ArmInst) : Prop :=
  match inst with
  | .vfpMultiple _ double p u _ imm8 => p ≠ u ∧ WholeDoubles double imm8
  | .neonAll _ size _ => size ≠ 3
  | inst => IndexRight count (armIndex inst)

def ThumbAgrees (readAddress : Word) (count : Int) (inst : ThumbInst) : Prop :=
  Agrees (thumbIsLoad inst) (thumbIsStore inst) (thumbGetLdStSize inst)
    (∀ reg ≠ pc, ∃ code, thumbCalcLdStAddr readAddress count inst reg = some (.ok code)) (thumbAccess inst)

def ArmAgrees (readAddress : Word) (count : Int) (inst : ArmInst) : Prop :=
  Agrees (armIsLoad inst) (armIsStore inst) (armGetLdStSize inst)
    (∀ reg ≠ pc, ∃ code, armCalcLdStAddr readAddress count inst reg = some (.ok code)) (armAccess inst)

section Addresses

variable {ι : Type*} {H : Helpers ι} {readAddress : Word} {count : Int} {reg rn : Reg} {rm : Int} {offset : BitVec 32}

/-- The helpers stop at no register but the counter. -/
structure Emits (H : Helpers ι) : Prop where
  addSubI : ∀ {rd rn : Reg} (offset : BitVec 32), rd ≠ pc → rd = rn ∨ rn ≠ pc → ∃ r, H.addSubI rd rn offset = some r
  push : ∀ (r : Reg), r = 0 ∨ r = 1 → ∃ is, H.emitters.push (1 <<< r.toNat) = some is
  pop : ∀ (r : Reg), r = 0 ∨ r = 1 → ∃ is, H.emitters.pop (1 <<< r.toNat) = some is

theorem arm_emits : Emits arm where
  addSubI {rd rn} offset hrd hrn := by
    show ∃ r, ArmAddSub.A32.emitAddSubI rd rn offset = some r
    rw [ArmAddSub.A32.emitAddSubI]
    by_cases hne : offset = 0
    · by_cases heq : rd = rn
      · exact ⟨_, by rw [if_pos hne, if_neg (not_not.mpr heq)]⟩
      · exact ⟨_, by rw [if_pos hne, if_pos heq, ArmAddSub.A32.emitMov, if_pos ⟨hrd, hrn.resolve_left heq⟩]; rfl⟩
    · rw [if_neg hne]
      split_ifs <;> exact ⟨_, rfl⟩
  push _ _ := ⟨_, rfl⟩
  pop _ _ := ⟨_, rfl⟩

theorem thumb_emits : Emits thumb where
  addSubI {rd rn} offset hrd hrn := by
    show ∃ r, ArmAddSub.T32.emitAddSubI rd rn offset = some r
    rw [ArmAddSub.T32.emitAddSubI]
    by_cases hne : offset = 0
    · by_cases heq : rd = rn
      · exact ⟨_, by rw [if_pos hne, if_neg (not_not.mpr heq)]⟩
      · exact ⟨_, by rw [if_pos hne, if_pos heq, ArmAddSub.T32.emitMov, if_pos ⟨hrd, hrn.resolve_left heq⟩]; rfl⟩
    · rw [if_neg hne]
      split_ifs <;> exact ⟨_, rfl⟩
  push := by rintro r (rfl | rfl) <;> exact ⟨_, rfl⟩
  pop := by rintro r (rfl | rfl) <;> exact ⟨_, rfl⟩

theorem generateAddr_constant (hemits : Emits H) (hreg : reg ≠ pc) :
    ∃ code, generateAddr H readAddress count reg rn regInvalid offset = some code := by
  have hconstant : Constant regInvalid := Or.inr (le_refl _)
  rw [generateAddr, if_neg (by decide)]
  split
  next =>
    obtain ⟨r, hr⟩ := hemits.addSubI (0 + 0) hreg (Or.inl rfl)
    rw [if_neg (by have := reg.isLt; rw [regInvalid]; omega), generateSum, if_pos hconstant, hr]
    exact ⟨_, rfl⟩
  next hrn =>
    rw [generateSum, if_pos hconstant]
    obtain ⟨r, hr⟩ := hemits.addSubI _ hreg (Or.inr hrn)
    exact ⟨_, by rw [hr]; rfl⟩

theorem generateSum_index {apply : BitVec 32} (hemits : Emits H) (hreg : reg ≠ pc) (hindex : ¬Constant rm)
    (rn : Reg) (offset : BitVec 32) :
    (∃ code, generateSum H apply reg rn rm offset = some code) ↔ A64AccessAddr.Small apply := by
  rw [generateSum, if_neg hindex]
  by_cases hzero : apply = 0
  · subst hzero
    exact iff_of_true ⟨_, if_neg (by decide)⟩ ⟨by decide, by decide⟩
  · have hpos : apply.toInt ≠ 0 := fun h => hzero (BitVec.eq_of_toInt_eq h)
    dsimp only
    rw [if_pos hzero]
    by_cases hsmall : A64AccessAddr.Small apply
    · obtain ⟨r, hr⟩ := hemits.addSubI apply hreg (Or.inl rfl)
      refine iff_of_true ?_ hsmall
      rw [if_pos ⟨hsmall.2, lt_of_le_of_ne hsmall.1 hpos.symm⟩, hr]
      exact ⟨_, rfl⟩
    · rw [if_neg fun h => hsmall ⟨h.2.le, h.1⟩]
      exact iff_of_false (fun ⟨_, h⟩ => by cases h) hsmall

theorem indexRight_some : IndexRight count (some (rn, rm)) ↔
    (rm ≠ pc.toNat ∧ rm ≠ sp.toNat) ∧ (rn = sp → A64AccessAddr.Small (BitVec.ofInt 32 count * 4)) := by
  constructor
  · exact fun h => h _ rfl
  · rintro h _ ⟨⟩
    exact h

/-- Which index registers stop the emission of an address. -/
theorem generateAddr_index (hemits : Emits H) (hreg : reg ≠ pc) (hindex : ¬Constant rm) :
    (∃ code, generateAddr H readAddress count reg rn rm offset = some code) ↔ IndexRight count (some (rn, rm)) := by
  rw [indexRight_some, generateAddr]
  by_cases hstops : rm = pc.toNat ∨ rm = sp.toNat
  · rw [if_pos hstops]
    refine iff_of_false (fun ⟨_, h⟩ => by cases h) fun h => ?_
    exact hstops.elim h.1.1 h.1.2
  have hne := not_or.mp hstops
  rw [if_neg hstops, and_iff_right hne]
  by_cases hpc : rn = pc
  · have hsp : rn ≠ sp := by rw [hpc]; decide
    refine iff_of_true ?_ fun h => absurd h hsp
    have hzero : A64AccessAddr.Small 0 := ⟨by decide, by decide⟩
    rw [if_pos hpc, if_neg hindex, if_neg hindex]
    dsimp only
    split
    next =>
      obtain ⟨before, hbefore⟩ := hemits.push (if reg = 0 then 1 else 0) (by split <;> simp)
      obtain ⟨after, hafter⟩ := hemits.pop (if reg = 0 then 1 else 0) (by split <;> simp)
      obtain ⟨sum, hsum⟩ := (generateSum_index hemits hreg hindex (if reg = 0 then 1 else 0) offset).mpr hzero
      rw [hbefore, hsum, hafter]
      exact ⟨_, rfl⟩
    next =>
      obtain ⟨sum, hsum⟩ := (generateSum_index hemits hreg hindex reg offset).mpr hzero
      rw [hsum]
      exact ⟨_, rfl⟩
  · rw [if_neg hpc, generateSum_index hemits hreg hindex]
    by_cases hsp : rn = sp
    · rw [if_pos hsp]
      exact ⟨fun h _ => h, fun h => h hsp⟩
    · rw [if_neg hsp]
      exact iff_of_true ⟨by decide, by decide⟩ fun h => absurd h hsp

theorem constant_succeeds (hemits : Emits H) (readAddress : Word) (count : Int) (rn : Reg) (offset : BitVec 32) :
    ∀ reg ≠ pc, ∃ code, (generateAddr H readAddress count reg rn regInvalid offset).map Result.ok = some (.ok code) :=
  fun _ hreg => map_ok.mpr (generateAddr_constant hemits hreg)

theorem index_succeeds_iff (hemits : Emits H) (hindex : ¬Constant rm) :
    (∀ reg ≠ pc, ∃ code, (generateAddr H readAddress count reg rn rm offset).map Result.ok = some (.ok code)) ↔
      IndexRight count (some (rn, rm)) := by
  constructor
  · exact fun h => (generateAddr_index hemits (by decide) hindex).mp (map_ok.mp (h 0 (by decide)))
  · exact fun h reg hreg => map_ok.mpr ((generateAddr_index hemits hreg hindex).mpr h)

theorem indexRight_none : IndexRight count none := fun _ h => by cases h

end Addresses

section Sizes

theorem transferAccess_eq (i : Transfer) : transferAccess i = transfer i.isLoad i.getSize := by
  revert i
  rintro (i | _ | _)
  · cases i <;> rfl
  all_goals rfl

theorem plainAccess_eq (i : Plain) : plainAccess i = transfer i.isLoad i.getSize := by cases i <;> rfl

theorem singleAccess_eq (i : Single) : singleAccess i = transfer i.isLoad i.getSize := by cases i <;> rfl

theorem halfAccess_eq (i : Half) : halfAccess i = transfer i.isLoad i.getSize := by cases i <;> rfl

theorem literalAccess_eq (i : Literal) : literalAccess i = transfer true i.getSize := by cases i <;> rfl

theorem exclusiveBytes_eq (size : ExclusiveSize) : exclusiveBytes size = size.getSize := by cases size <;> rfl

theorem countBits_setWidth {n : Nat} (hn : n ≤ 32) (reglist : BitVec n) :
    RegLists.countBits (reglist.setWidth 32) = (T32.regsOf reglist).length := by
  have hlist : RegLists.members (reglist.setWidth 32) = (List.range n).filter fun i => reglist.getLsbD i := by
    refine RegLists.members_eq (List.pairwise_lt_range.filter _) fun k => ?_
    rw [List.mem_filter, List.mem_range, BitVec.getLsbD_setWidth]
    constructor
    · rintro ⟨hk, hbit⟩
      rw [hbit, decide_eq_true (by omega), Bool.and_self]
    · intro h
      have hbit := (Bool.and_eq_true_iff.mp h).2
      refine ⟨by_contra fun hge => ?_, hbit⟩
      rw [BitVec.getLsbD_of_ge _ _ (by omega)] at hbit
      cases hbit
  rw [T32.regsOf, List.length_map, RegLists.countBits_eq, hlist]

theorem countedSize_eq {n : Nat} (hn : n ≤ 32) (reglist : BitVec n) :
    countedSize reglist = some (listBytes reglist : Int) := by
  rw [countedSize, listBytes, countBits_setWidth hn, Nat.mul_comm]

theorem agrees_listed (b : Bool) {m : Nat} (hm : m ≤ 32) (reglist : BitVec m) (h : succeeds) :
    Agrees b (!b) (countedSize reglist) succeeds (transfer b (listBytes reglist)) :=
  (agrees_transfer_of b (countedSize_eq hm reglist)).mpr h

theorem vfpBytes_iff (double : Bool) (imm8 : BitVec 8) :
    some ((imm8.toNat * 4 : Nat) : Int) = some (vfpBytes double imm8 : Int) ↔ WholeDoubles double imm8 := by
  rw [Option.some.injEq, Nat.cast_inj, vfpBytes, WholeDoubles]
  cases double
  · simp [Nat.mul_comm]
  · simp only [if_true, forall_const]
    omega

theorem getSizeVldxVstxM_eq (op : BitVec 4) :
    getSizeVldxVstxM op = ((neonStructures op).map fun n => n.1 * n.2 * 8).map Nat.cast := by
  revert op
  decide

theorem neonOneBytes_eq (op size : BitVec 2) : 1 <<< size.toNat * (op.toNat + 1) = neonOneBytes op size := by
  rw [neonOneBytes, Nat.one_shiftLeft, Nat.mul_comm]

theorem neonAllBytes_iff (op size : BitVec 2) :
    some ((1 <<< size.toNat * (op.toNat + 1) : Nat) : Int) = some (neonAllBytes op size : Int) ↔ size ≠ 3 := by
  revert op size
  decide

end Sizes

variable {readAddress : Word} {count : Int}

theorem not_constant (rm : Reg) : ¬Constant rm.toNat := by
  have hlt := rm.isLt
  rintro (h | h) <;> rw [regInvalid] at h <;> omega

theorem thumb_agrees_iff (inst : ThumbInst) : ThumbAgrees readAddress count inst ↔ ThumbRight count inst := by
  have hconstant := constant_succeeds thumb_emits readAddress count
  cases inst with
  | multiple16 load rn reglist =>
      exact iff_of_true (agrees_listed load (by decide) reglist (hconstant _ _)) indexRight_none
  | reg16 i rm rn =>
      rw [ThumbAgrees, thumbAccess, transferAccess_eq]
      have hindex : ¬Constant rm.toNat := by
        have hlt := rm.isLt
        rintro (h | h) <;> rw [regInvalid] at h <;> omega
      exact (agrees_transfer_of i.isLoad rfl).trans (index_succeeds_iff thumb_emits hindex)
  | reg32 i rn shift rm =>
      rw [ThumbAgrees, thumbAccess, transferAccess_eq]
      exact (agrees_transfer_of i.isLoad rfl).trans (index_succeeds_iff thumb_emits (not_constant rm))
  | imm16 i =>
      rw [ThumbAgrees, thumbAccess, plainAccess_eq]
      exact iff_of_true ((agrees_transfer_of i.isLoad rfl).mpr (hconstant _ _)) indexRight_none
  | imm8 i | imm12 i =>
      rw [ThumbAgrees, thumbAccess, transferAccess_eq]
      exact iff_of_true ((agrees_transfer_of i.isLoad rfl).mpr (hconstant _ _)) indexRight_none
  | ldrPc16 =>
      exact iff_of_true ((agrees_transfer_of true rfl).mpr fun _ _ => ⟨_, rfl⟩) indexRight_none
  | literal i =>
      rw [ThumbAgrees, thumbAccess, literalAccess_eq]
      exact iff_of_true ((agrees_transfer_of true rfl).mpr fun _ _ => ⟨_, rfl⟩) indexRight_none
  | sp16 load | exclusive32 load | double load =>
      exact iff_of_true ((agrees_transfer_of load rfl).mpr (hconstant _ _)) indexRight_none
  | pop16 reglist =>
      exact iff_of_true (agrees_listed true (by decide) reglist (hconstant _ _)) indexRight_none
  | push16 reglist =>
      exact iff_of_true (agrees_listed false (by decide) reglist (hconstant _ _)) indexRight_none
  | multiple32 i rn reglist =>
      refine iff_of_true ?_ indexRight_none
      cases i with
      | ldmea | ldmfd => exact agrees_listed true (by decide) reglist (hconstant _ _)
      | stmea | stmfd => exact agrees_listed false (by decide) reglist (hconstant _ _)
  | vpop double regs =>
      exact ((agrees_transfer true).trans (and_iff_left (hconstant _ _))).trans (vfpBytes_iff double regs)
  | vpush double regs =>
      exact ((agrees_transfer false).trans (and_iff_left (hconstant _ _))).trans (vfpBytes_iff double regs)
  | exclusive load size =>
      rw [ThumbAgrees, thumbAccess, exclusiveBytes_eq]
      exact iff_of_true ((agrees_transfer_of load rfl).mpr (hconstant _ _)) indexRight_none
  | vfpMultiple load double p upwards rn imm8 =>
      refine (agrees_transfer load).trans ((and_congr (vfpBytes_iff double imm8) ?_).trans and_comm)
      by_cases hp : p = upwards
      · refine iff_of_false (fun h => ?_) (not_not.mpr hp)
        obtain ⟨code, hcode⟩ := h 0 (by decide)
        rw [thumbCalcLdStAddr, if_pos hp] at hcode
        cases hcode
      · refine iff_of_true (fun reg hreg => ?_) hp
        rw [thumbCalcLdStAddr, if_neg hp]
        exact hconstant _ _ reg hreg
  | vfpSingle load double =>
      refine iff_of_true ((agrees_transfer_of load ?_).mpr (hconstant _ _)) indexRight_none
      cases double <;> rfl
  | neonMultiple load op =>
      exact iff_of_true ((agrees_counted load (getSizeVldxVstxM_eq op)).mpr fun _ => hconstant _ _) indexRight_none
  | neonOne load op size =>
      refine iff_of_true ((agrees_transfer_of load ?_).mpr (hconstant _ _)) indexRight_none
      exact congrArg (fun n : Nat => some (n : Int)) (neonOneBytes_eq op size)
  | neonAll op size =>
      exact ((agrees_transfer true).trans (and_iff_left (hconstant _ _))).trans (neonAllBytes_iff op size)
  | coprocessor load =>
      have hnone : (none : Option Int) = (none : Option Nat).map Nat.cast := rfl
      exact iff_of_true ((agrees_counted load hnone).mpr (by rintro ⟨⟩)) indexRight_none
  | other => exact iff_of_true agrees_nothing indexRight_none

theorem decodeArm_not_constant (u : Bool) (op2 : BitVec 32) : ¬Constant (decodeArm false true u op2).1 := by
  have hlt : (op2 &&& 0xF).toNat ≤ 0xF := Nat.and_le_right
  have heq : (decodeArm false true u op2).1 = if u then ((op2 &&& 0xF).toNat : Int) else -(op2 &&& 0xF).toNat := rfl
  rw [heq]
  cases u
  · rintro (h | h) <;> simp only [regInvalid, Bool.false_eq_true, if_false] at h <;> omega
  · rintro (h | h) <;> simp only [regInvalid, if_true] at h <;> omega

theorem arm_agrees_iff (inst : ArmInst) : ArmAgrees readAddress count inst ↔ ArmRight count inst := by
  have hconstant := constant_succeeds arm_emits readAddress count
  cases inst with
  | single i registerOffset rn operand2 p u =>
      rw [ArmAgrees, armAccess, singleAccess_eq]
      refine (agrees_transfer_of i.isLoad rfl).trans ?_
      cases p with
      | false => cases registerOffset <;> exact iff_of_true (hconstant _ _) indexRight_none
      | true =>
          cases registerOffset with
          | false => exact iff_of_true (hconstant _ _) indexRight_none
          | true => exact index_succeeds_iff arm_emits (decodeArm_not_constant u _)
  | half i immediate rn rmImm4l imm4h p u =>
      rw [ArmAgrees, armAccess, halfAccess_eq]
      refine (agrees_transfer_of i.isLoad rfl).trans ?_
      cases p with
      | false => cases immediate <;> exact iff_of_true (hconstant _ _) indexRight_none
      | true =>
          cases immediate with
          | true => exact iff_of_true (hconstant _ _) indexRight_none
          | false => exact index_succeeds_iff arm_emits (decodeArm_not_constant u _)
  | multiple load rn registers =>
      exact iff_of_true (agrees_listed load (by decide) registers (hconstant _ _)) indexRight_none
  | exclusive load size =>
      refine iff_of_true ?_ indexRight_none
      cases size with
      | none => exact (agrees_transfer_of load rfl).mpr (hconstant _ _)
      | some size =>
          rw [ArmAgrees, armAccess, exclusiveBytes_eq]
          exact (agrees_transfer_of load rfl).mpr (hconstant _ _)
  | vfpMultiple load double p u rn imm8 =>
      refine (agrees_transfer load).trans ((and_congr (vfpBytes_iff double imm8) ?_).trans and_comm)
      by_cases hp : p = u
      · refine iff_of_false (fun h => ?_) (not_not.mpr hp)
        obtain ⟨code, hcode⟩ := h 0 (by decide)
        rw [armCalcLdStAddr, if_pos hp] at hcode
        cases hcode
      · refine iff_of_true (fun reg hreg => ?_) hp
        rw [armCalcLdStAddr, if_neg hp]
        exact hconstant _ _ reg hreg
  | vfpSingle load double =>
      refine iff_of_true ((agrees_transfer_of load ?_).mpr (hconstant _ _)) indexRight_none
      cases double <;> rfl
  | neonMultiple load op =>
      exact iff_of_true ((agrees_counted load (getSizeVldxVstxM_eq op)).mpr fun _ => hconstant _ _) indexRight_none
  | neonOne load op size =>
      refine iff_of_true ((agrees_transfer_of load ?_).mpr (hconstant _ _)) indexRight_none
      exact congrArg (fun n : Nat => some (n : Int)) (neonOneBytes_eq op size)
  | neonAll op size =>
      exact ((agrees_transfer true).trans (and_iff_left (hconstant _ _))).trans (neonAllBytes_iff op size)
  | coprocessor load =>
      have hnone : (none : Option Int) = (none : Option Nat).map Nat.cast := rfl
      exact iff_of_true ((agrees_counted load hnone).mpr (by rintro ⟨⟩)) indexRight_none
  | other => exact iff_of_true agrees_nothing indexRight_none

end AArch32

section Riscv

open RvLoadStore (riscvCalcLdStAddr decoded_eq)

def RiscvRight (inst : RiscvInst) : Prop := inst ≠ .flh ∧ inst ≠ .fsh ∧ inst ≠ .cboZero

def RiscvAgrees (pluginPushedRegCount : BitVec 32) (inst : RiscvInst) (w : RvIsa.Encoding) : Prop :=
  Agrees (riscvIsLoadOrStore inst).1 (riscvIsLoadOrStore inst).2 (some (riscvGetLdStSize inst))
    (∀ reg, (riscvCalcLdStAddr pluginPushedRegCount inst.instruction w reg).ret = 0) (riscvAccess inst)

variable {pluginPushedRegCount : BitVec 32} {w : RvIsa.Encoding}

theorem riscv_succeeds {i : RvLoadStore.Inst} (hother : i ≠ .other) (reg : Rv.Reg) :
    (riscvCalcLdStAddr pluginPushedRegCount i w reg).ret = 0 := by
  obtain ⟨d, hdecoded, -⟩ := @decoded_eq w i hother
  rw [riscvCalcLdStAddr, hdecoded]
  rfl

theorem riscv_agrees_iff (inst : RiscvInst) : RiscvAgrees pluginPushedRegCount inst w ↔ RiscvRight inst := by
  cases inst with
  | flh => exact iff_of_false (fun h => Bool.false_ne_true h.load_iff) fun h => h.1 rfl
  | fsh => exact iff_of_false (fun h => Bool.false_ne_true h.store_iff) fun h => h.2.1 rfl
  | cboZero => exact iff_of_false (fun h => Bool.false_ne_true h.store_iff) fun h => h.2.2 rfl
  | known i =>
      refine iff_of_true ?_ ⟨RiscvInst.noConfusion, RiscvInst.noConfusion, RiscvInst.noConfusion⟩
      cases i with
      | cLoad i | cLoadSp i | load i =>
          cases i <;> exact (agrees_transfer_of true rfl).mpr (riscv_succeeds (by decide))
      | cStore i | cStoreSp i | store i =>
          cases i <;> exact (agrees_transfer_of false rfl).mpr (riscv_succeeds (by decide))
      | lr size => cases size <;> exact (agrees_transfer_of true rfl).mpr (riscv_succeeds (by decide))
      | amo i size =>
          cases i with
          | sc => cases size <;> exact (agrees_transfer_of false rfl).mpr (riscv_succeeds (by decide))
          | _ => cases size <;> exact agrees_update.mpr ⟨rfl, riscv_succeeds (by decide)⟩
      | vector i => cases i <;> exact ⟨rfl, rfl, fun _ h => by cases h⟩
      | other => exact agrees_nothing

end Riscv

/-- On every load and store of the four instruction sets, what plugins are told agrees with what
it accesses just when it is none of those that are missed, miscounted or stopped at. -/
theorem access_agrees_iff (count : Int) (wordAddress : A64.Word) (inst : A64Inst) (w : A64LoadStore.Encoding)
    (readAddress : T32.Word) (thumb : ArmLoadStore.ThumbInst) (arm : ArmLoadStore.ArmInst)
    (pluginPushedRegCount : BitVec 32) (riscv : RiscvInst) (v : RvIsa.Encoding) :
    (A64Agrees wordAddress count inst w ↔ A64Right count inst w) ∧
      (ThumbAgrees readAddress count thumb ↔ ThumbRight count thumb) ∧
      (ArmAgrees readAddress count arm ↔ ArmRight count arm) ∧
      (RiscvAgrees pluginPushedRegCount riscv v ↔ RiscvRight riscv) :=
  ⟨a64_agrees_iff, thumb_agrees_iff thumb, arm_agrees_iff arm, riscv_agrees_iff riscv⟩

/-- A store of q0 is taken for a load, a compare and swap of x0 for a store of 16 bytes; a load of
a half-precision float is missed, and a load with the index sp stops the process. -/
theorem stores_misread :
    (A64LoadStore.Matches .ldrStrUnsignedImmed 0x3D800000 ∧
      ¬A64Agrees 0 0 (.known .ldrStrUnsignedImmed) 0x3D800000) ∧
    (A64LoadStore.Matches .ldxStx 0xC8A07C20 ∧ ¬A64Agrees 0 0 (.known .ldxStx) 0xC8A07C20 ∧
      a64GetLdStSize (.known .ldxStx) 0xC8A07C20 = some 16) ∧
    ¬RiscvAgrees 0 .flh 0x00051007 ∧
    ¬ArmAgrees 0 0 (.single .ldr true 1 0x00D true true) := by
  refine ⟨⟨by decide, fun h => ?_⟩, ⟨by decide, fun h => ?_, by decide⟩, fun h => ?_, fun h => ?_⟩
  · exact absurd h.load_iff (by decide)
  · exact absurd h.load_iff (by decide)
  · exact absurd h.load_iff (by decide)
  · obtain ⟨-, hsucceeds⟩ := h.size_eq 4 rfl (.inl rfl)
    obtain ⟨code, hcode⟩ := hsucceeds 0 (by decide)
    cases hcode

end Mambo.AccessSizeExact
