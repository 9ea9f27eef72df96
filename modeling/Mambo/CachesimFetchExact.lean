import Mambo.A64SafeFcalls
import Mambo.ArmSafeFcalls
import Mambo.CachesimFetchRuns
import Mambo.RvSafeFcalls

namespace Mambo.CachesimFetchExact

open CachesimFetch CachesimFetchRuns
open CallRuns (Goes Sets)
open SafeFcalls (armCopyToReg32bit thumbCopyToReg32bit)

section Sizes

variable {n : Nat}

theorem size_toNat {w : Nat} (hw : 16 ≤ w) (hn : n ≤ 0x7FFF) : (BitVec.ofNat w (n <<< 1)).toNat = 2 * n := by
  have hpow : 2 ^ 16 ≤ 2 ^ w := Nat.pow_le_pow_right (by decide) hw
  rw [BitVec.toNat_ofNat, Nat.shiftLeft_eq, Nat.mod_eq_of_lt (by omega), Nat.mul_comm]

theorem halfWord_size {k : Nat} (hk : 0 < k) (hn : n ≤ 0x7FFF) :
    A64Emit.halfWord (BitVec.ofNat 64 (n <<< 1)) k = 0 := by
  apply BitVec.eq_of_toNat_eq
  have hsmall : 2 * n / 2 ^ (16 * k) = 0 := by
    apply Nat.div_eq_of_lt
    have hpow : 2 ^ 16 ≤ 2 ^ (16 * k) := Nat.pow_le_pow_right (by decide) (by omega)
    omega
  rw [A64Emit.halfWord, BitVec.toNat_setWidth, BitVec.toNat_ushiftRight, size_toNat (by decide) hn,
    Nat.shiftRight_eq_div_pow, hsmall]
  rfl

theorem lawful_a64 : Lawful a64 A64SafeFcalls.machine where
  len_le _ := le_refl 4
  wide := by decide
  placeholder := by decide
  patch n hn := by
    have hkeep {k : Nat} (hk : 0 < k) (hw : BitVec 2) (r : A64.Reg) :
        A64Emit.moveKeep (BitVec.ofNat 64 (n <<< 1)) k hw r = [] := by
      rw [A64Emit.moveKeep, halfWord_size hk hn]
      rfl
    show bytes a64 ((A64Emit.copyToReg64bits 1 _).map .core) = 4
    rw [A64Emit.copyToReg64bits, hkeep (by decide), hkeep (by decide), hkeep (by decide)]
    rfl
  general := ⟨show 0 < 31 by decide, show 1 < 31 by decide⟩
  apart := by decide
  sets0 v := A64SafeFcalls.sets_copy (by decide) v
  sets1 n _ := A64SafeFcalls.sets_copy (by decide) _
  sets2 v := A64SafeFcalls.sets_copy (by decide) v

theorem size_le (hn : n ≤ 0x7FFF) : BitVec.ofNat 32 (n <<< 1) ≤ 0xFFFF := by
  show (BitVec.ofNat 32 (n <<< 1)).toNat ≤ 0xFFFF
  rw [size_toNat (by decide) hn]
  omega

theorem lawful_a32 : Lawful a32 ArmSafeFcalls.a32Machine where
  len_le _ := le_refl 4
  wide := by decide
  placeholder := by decide
  patch n hn := by
    show bytes a32 (armCopyToReg32bit 1 _) = 4
    rw [armCopyToReg32bit, if_pos (size_le hn)]
    rfl
  general := ⟨show 0 < 15 ∧ 0 ≠ 13 by decide, show 1 < 15 ∧ 1 ≠ 13 by decide⟩
  apart := by decide
  sets0 v := ArmSafeFcalls.sets_arm (by decide) v
  sets1 n _ := ArmSafeFcalls.sets_arm (by decide) _
  sets2 v := ArmSafeFcalls.sets_arm (by decide) v

theorem thumb_len_le (i : ThumbInst) : i.len ≤ 4 := by
  rw [ThumbInst.len]
  split
  all_goals first | decide | split <;> decide

theorem lawful_t32 : Lawful t32 ArmSafeFcalls.t32Machine where
  len_le := thumb_len_le
  wide := by decide
  placeholder := by decide
  patch n hn := by
    show bytes t32 (thumbCopyToReg32bit 1 _) = 4
    rw [thumbCopyToReg32bit, if_pos (size_le hn)]
    rfl
  general := ⟨show 0 < 15 ∧ 0 ≠ 13 by decide, show 1 < 15 ∧ 1 ≠ 13 by decide⟩
  apart := by decide
  sets0 v := ArmSafeFcalls.sets_thumb (by decide) v
  sets1 n _ := ArmSafeFcalls.sets_thumb (by decide) _
  sets2 v := ArmSafeFcalls.sets_thumb (by decide) v

end Sizes

section Riscv

def rvMachine : CallRuns.Machine 64 RvInst RvPlugin.Machine where
  exec
    | .plugin i, m => RvSafeFcalls.machine.exec i m
    | .ori rd rs1 imm, m => some (m.set rd (m.get rs1 ||| imm.signExtend 64)).next
  calls
    | .plugin i => RvSafeFcalls.machine.calls i
    | .ori .. => false
  size := RvInst.size
  place := RvSafeFcalls.machine.place
  jump := RvSafeFcalls.machine.jump
  set := RvSafeFcalls.machine.set
  general := RvSafeFcalls.machine.general
  get := RvSafeFcalls.machine.get
  sp := RvSafeFcalls.machine.sp
  mem := RvSafeFcalls.machine.mem

variable {is : List RvPlugin.Inst} {m u : RvPlugin.Machine} {n k : Nat} {v : BitVec 64}

theorem bytes_plugin (is : List RvPlugin.Inst) :
    CallRuns.bytes rvMachine (is.map .plugin) = CallRuns.bytes RvSafeFcalls.machine is := by
  rw [CallRuns.bytes, CallRuns.bytes, List.map_map]
  rfl

theorem goes_plugin (h : Goes RvSafeFcalls.machine is m u) : Goes rvMachine (is.map .plugin) m u where
  silent i hi := by
    obtain ⟨j, hj, rfl⟩ := List.mem_map.mp hi
    exact h.silent j hj
  exec := by
    have hexec := h.exec
    rw [CallRuns.execAll] at hexec ⊢
    rw [List.foldlM_map]
    exact hexec
  place := by
    rw [bytes_plugin]
    exact h.place

theorem sets_plugin (h : Sets RvSafeFcalls.machine k v is) : Sets rvMachine k v (is.map .plugin) := by
  intro m
  obtain ⟨u, hgoes, hvalue, hothers, hstack⟩ := h m
  exact ⟨u, goes_plugin hgoes, hvalue, hothers, hstack.1, hstack.2⟩

def fixedCode (value : BitVec 32) : List Rv.Inst :=
  [.lui Rv.a1 (((value + 0x800) >>> 12).setWidth 20), .addiw Rv.a1 Rv.a1 (value.setWidth 12)]

theorem fixedCode_exec (value : BitVec 32) (s : Rv.State) : RvCode.execAll (fixedCode value) s =
    (s.set Rv.a1 (value.signExtend 64)).goto (RvCode.past s.pc (RvCode.bytes (fixedCode value))) := by
  have ha1 : Rv.a1 ≠ Rv.zero := by decide
  have hsum := RvEmit.lui_addiw value
  rw [fixedCode]
  generalize ((value + 0x800) >>> 12).setWidth 20 = hi at *
  generalize value.setWidth 12 = low at *
  have hlui : Rv.exec (.lui Rv.a1 hi) s = (s.set Rv.a1 (Rv.uImm hi)).goto (s.pc + 4) := rfl
  have haddiw (t : Rv.State) : Rv.exec (.addiw Rv.a1 Rv.a1 low) t =
      (t.set Rv.a1 (((t.get Rv.a1 + low.signExtend 64).setWidth 32).signExtend 64)).goto (t.pc + 4) := rfl
  rw [RvCode.execAll_cons, RvCode.execAll_cons, hlui, haddiw, Rv.State.get_goto, Rv.State.get_set_self ha1, hsum,
    Rv.State.set_goto, Rv.State.set_set, Rv.State.goto_goto, Rv.State.goto_pc, add_assoc]
  rfl

theorem sets_fixedCode (value : BitVec 32) :
    Sets RvSafeFcalls.machine 11 (value.signExtend 64) ((fixedCode value).map .core) := by
  intro m
  have ha1 : Rv.a1 ≠ Rv.zero := by decide
  have hsp : Rv.sp ≠ Rv.a1 := by decide
  have htouches : ∀ i ∈ fixedCode value, RvSafeFcalls.Touches [Rv.a1] i := by
    intro i hi
    rcases List.mem_pair.mp hi with rfl | rfl
    · exact .lui _ (List.mem_singleton_self _)
    · exact .addiw _ _ (List.mem_singleton_self _)
  refine ⟨_, RvSafeFcalls.goes_core htouches (fixedCode_exec value m.core), ?_,
    fun r hr hrk => Rv.State.get_set_of_ne (RvSafeFcalls.reg_ne hr.1 (by decide) hrk), ?_, Rv.State.set_mem⟩
  · show (m.core.set Rv.a1 (value.signExtend 64)).get Rv.a1 = value.signExtend 64
    exact Rv.State.get_set_self ha1
  · show (m.core.set Rv.a1 (value.signExtend 64)).get Rv.sp = m.core.get Rv.sp
    exact Rv.State.get_set_of_ne hsp

theorem sets_fixed (hn : n ≤ 0x7FFF) :
    Sets rvMachine 11 (BitVec.ofNat 64 (n <<< 1)) (emitFixedInstSize (BitVec.ofNat 64 (n <<< 1))) := by
  have hvalue : ((BitVec.ofNat 64 (n <<< 1)).setWidth 32).signExtend 64 = BitVec.ofNat 64 (n <<< 1) := by
    have hmsb : ((BitVec.ofNat 64 (n <<< 1)).setWidth 32).msb = false := by
      rw [BitVec.msb_eq_decide, BitVec.toNat_setWidth, size_toNat (by decide) hn, decide_eq_false]
      omega
    apply BitVec.eq_of_toNat_eq
    rw [BitVec.signExtend_eq_setWidth_of_msb_false hmsb, BitVec.toNat_setWidth, BitVec.toNat_setWidth,
      size_toNat (by decide) hn]
    omega
  have hsets := sets_plugin (sets_fixedCode ((BitVec.ofNat 64 (n <<< 1)).setWidth 32))
  rwa [hvalue] at hsets

theorem bytes_fixed (v : BitVec 64) : bytes riscv (emitFixedInstSize v) = 8 := rfl

theorem riscv_len_le (i : RiscvInst) : i.len ≤ 4 := by
  rw [RiscvInst.len]
  split
  all_goals first | decide | split <;> decide

theorem lawful_riscv : Lawful riscv rvMachine where
  len_le := riscv_len_le
  wide := by decide
  placeholder := by rw [show riscv.instSize 0 = emitFixedInstSize 0 from rfl, bytes_fixed]; decide
  patch _ _ := (bytes_fixed _).trans (bytes_fixed 0).symm
  general := ⟨show 10 < 32 ∧ 10 ≠ 2 by decide, show 11 < 32 ∧ 11 ≠ 2 by decide⟩
  apart := by decide
  sets0 v := sets_plugin (RvSafeFcalls.sets_copy (by decide) v)
  sets1 _ hn := sets_fixed hn
  sets2 v := sets_plugin (RvSafeFcalls.sets_copy (by decide) v)

theorem riscv_emits (env : Env 64) : Emits riscv env := by
  have hpush (regs : BitVec 32) : ∃ is, riscv.emitters.push regs = some is := by
    obtain ⟨is, his⟩ := Option.isSome_iff_exists.mp (@RvPluginStack.emitRiscvPush_isSome regs)
    exact ⟨is.map .plugin, congrArg (Option.map _) his⟩
  have hpop (regs : BitVec 32) : ∃ is, riscv.emitters.pop regs = some is := by
    obtain ⟨is, his⟩ := Option.isSome_iff_exists.mp (@RvPluginStack.emitRiscvPop_isSome regs)
    exact ⟨is.map .plugin, congrArg (Option.map _) his⟩
  exact ⟨hpush _, hpop _, hpush _, hpop _, fun p => ⟨_, rfl⟩⟩

theorem riscv_served {i : RiscvInst} (haccess : riscv.isLoad i = true ∨ riscv.isStore i = true)
    (hvector : i.isRvvMem = true → RvvSize.isRvvMem i.word = true) : Served riscv i where
  always := rfl
  size := ⟨_, rfl⟩
  addr readAddress count := by
    have hdecoded : ∃ r, RvLoadStore.decoded i.inst.instruction i.word = some r := by
      have haccess : (AccessSize.riscvIsLoadOrStore i.inst).1 = true ∨
          (AccessSize.riscvIsLoadOrStore i.inst).2 = true := haccess
      generalize i.inst = inst at haccess
      cases inst with
      | flh => exact absurd haccess (by decide)
      | fsh | cboZero => exact absurd haccess (by decide)
      | known inst =>
          cases inst with
          | other => exact absurd haccess (by decide)
          | _ => exact ⟨_, rfl⟩
    obtain ⟨r, hr⟩ := hdecoded
    refine ⟨_, rfl, ?_⟩
    rw [RvLoadStore.riscvCalcLdStAddr, hr]
    rfl
  info hrvv := ⟨_, congrArg (Option.map _) (RvvSize.calcRvvLdStSize_of_mem (hvector hrvv))⟩

/-- On RISC-V no assertion stops the scan of a block whose vector accesses have encodings of the vector extension. -/
theorem riscv_completes (env : Env 64) (address : BitVec 64) (ws : List Written)
    (block : List (RiscvInst × List Written)) (t : Thread RvInst)
    (hvector : ∀ i ∈ block.map Prod.fst, i.isRvvMem = true → RvvSize.isRvvMem i.word = true)
    (hnull : address ≠ 0) (hend : address.toNat + len riscv (block.map Prod.fst) < 2 ^ 64) :
    ∃ t', scanBlock riscv env address ws block t = some t' :=
  scan_completes (riscv_emits env) (fun i hi haccess => riscv_served haccess (hvector i hi)) hnull hend

end Riscv

section Sets

def State : Isa → Type
  | .a64 => A64.State
  | .a32 | .t32 => T32.State
  | .riscv => RvPlugin.Machine

def machine : (isa : Isa) → CallRuns.Machine isa.width isa.Code (State isa)
  | .a64 => A64SafeFcalls.machine
  | .a32 => ArmSafeFcalls.a32Machine
  | .t32 => ArmSafeFcalls.t32Machine
  | .riscv => rvMachine

theorem lawful (isa : Isa) : Lawful (target isa) (machine isa) := by
  cases isa with
  | a64 => exact lawful_a64
  | a32 => exact lawful_a32
  | t32 => exact lawful_t32
  | riscv => exact lawful_riscv

/-- The fetches that the handlers leave in the code partition the bytes of a block, and every one passes the address
and the size of its range. -/
theorem fetches_partition (isa : Isa) (env : Env isa.width) (address : BitVec isa.width) (ws : List Written)
    (block : List (isa.Inst × List Written)) (t t' : Thread isa.Code)
    (hback : (target isa).callsBack (block.map Prod.fst) = true)
    (hsized : ∀ i ∈ block.map Prod.fst, Sized (target isa) i)
    (hscan : scanBlock (target isa) env address ws block t = some t') :
    Partitions (target isa) (machine isa) env t'.code address (block.map Prod.fst) t'.fetches ∧
      t.code.Keeps t'.code :=
  scan_partitions (lawful isa) hback hsized hscan

def empty (ι : Type) : Thread ι := ⟨⟨fun _ => [], 0, fun _ _ => rfl⟩, ⟨0, 0⟩, 0, []⟩

def someEnv : Env 64 := ⟨fun _ => 0x7F00000000, 0x10000, 0x20000, 0x30000⟩

def loadBlock : List (RiscvInst × List Written) :=
  [(⟨.known (.load .lw), 0x0005A503, false, false⟩, [.bytes 4]),
    (⟨.known .other, 0x8067, false, true⟩, [.chunk, .bytes 12])]

def atomicBlock : List (RiscvInst × List Written) :=
  [(⟨.known (.lr .w), 0x1005A52F, false, false⟩, [.bytes 4]), (⟨.known .other, 0xFE051EE3, false, true⟩, [.bytes 12])]

theorem load_block_partitions :
    ∃ t', scanBlock (target .riscv) someEnv 0x10000 [] loadBlock (empty RvInst) = some t' ∧
      Partitions (target .riscv) (machine .riscv) someEnv t'.code 0x10000 (loadBlock.map Prod.fst) t'.fetches ∧
        (empty RvInst).code.Keeps t'.code := by
  obtain ⟨t', ht'⟩ := riscv_completes someEnv 0x10000 [] loadBlock (empty RvInst) (by decide) (by decide) (by decide)
  exact ⟨t', ht', fetches_partition .riscv someEnv 0x10000 [] loadBlock (empty RvInst) t' (by decide) (by decide) ht'⟩

/-- The scanner calls back for none of the eight bytes. -/
theorem atomic_block_missed :
    ∃ t', scanBlock (target .riscv) someEnv 0x10000 [] atomicBlock (empty RvInst) = some t' ∧
      ¬Partitions (target .riscv) (machine .riscv) someEnv t'.code 0x10000 (atomicBlock.map Prod.fst) t'.fetches := by
  obtain ⟨t', ht'⟩ := riscv_completes someEnv 0x10000 [] atomicBlock (empty RvInst) (by decide) (by decide) (by decide)
  refine ⟨t', ht', fun hpartitions => ?_⟩
  obtain ⟨p, hfetches, hempty⟩ := scan_uncounted lawful_riscv (by decide) ht'
  rw [hfetches] at hpartitions
  have hsizes : cells riscv (emitFixedInstSize (BitVec.ofNat 64 (8 <<< 1))) ≠
      cells riscv (emitFixedInstSize (BitVec.ofNat 64 (0 <<< 1))) := by decide
  exact hsizes (hpartitions.single.unique hempty)

end Sets

end Mambo.CachesimFetchExact
