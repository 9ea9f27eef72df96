import Mambo.RvScan
import Mathlib.Tactic.SplitIfs

namespace Mambo.RvCodeRoom

open Rv RvCode RvEmit RvExits RvScan

section Pieces

variable {value writeP target : Word} {reg rd rs1 : Reg} {code : List Inst}

/-- A value for which at most two further rounds of shifts are needed. -/
def Short (value : Word) : Prop := -2 ^ 31 ≤ value.toInt ∧ value.toInt ≤ 2 ^ 54

theorem bytes_copyToReg_short (reg : Reg) (h : Short value) : bytes (copyToReg reg value) ≤ 20 := by
  rw [copyToReg]
  obtain ⟨hge, hle⟩ := h
  by_cases hneg : value.toInt < 0
  · rw [copyToReg64bits, if_pos ⟨hge, by omega⟩]
    exact (bytes_copyToReg32bits _).trans (by decide)
  · rw [BitVec.toInt_eq_toNat_cond] at hneg hle
    refine bytes_copyToReg_le (d := 2) ?_
    split at hle <;> omega

theorem bytes_copyToReg_id (reg : Reg) (h : value.toNat < 2 ^ 16) : bytes (copyToReg reg value) ≤ 8 :=
  bytes_copyToReg_le (d := 0) (by omega)

theorem bytes_stores (regs : List Reg) (o : Nat) : bytes (stores regs o) = 4 * regs.length := by
  induction regs generalizing o with
  | nil => rfl
  | cons reg regs ih =>
      rw [stores, bytes, ih, List.length_cons, Nat.mul_succ, Nat.add_comm]
      rfl

theorem bytes_push (regs : List Reg) : bytes (push regs) = 4 + 4 * regs.length := by
  rw [push, bytes, bytes_stores]
  rfl

theorem bytes_saveContext : bytes saveContext = 16 := bytes_push _

theorem bytes_pop_one : ∀ reg : Reg, (pop [reg]).map bytes = some 6 := by decide

theorem bytes_pop_a0_a1 : (pop [a0, a1]).map bytes = some 6 := by decide

theorem bytes_of_pop {regs : List Reg} {n : Nat} (hn : (pop regs).map bytes = some n) (h : pop regs = some code) :
    bytes code = n := by
  rw [h, Option.map_some] at hn
  exact Option.some.inj hn

theorem bytes_jalrHelper (h : jalrHelper writeP target rd rs1 = some code) : bytes code = 8 := by
  rw [jalrHelper] at h
  split_ifs at h
  rw [← Option.some.inj h]
  rfl

theorem bytes_goToDispatcher (h : goToDispatcher writeP target = some code) : bytes code = 8 := bytes_jalrHelper h

theorem size_branchHelper {rs2 : Reg} {cond : BitVec 3} {i : Inst} (h : branchHelper writeP target rs1 rs2 cond = some i) :
    i.size = 4 := by
  obtain ⟨pair, -, rfl⟩ := Option.map_eq_some_iff.mp h
  rfl

theorem size_cBeqzHelper {i : Inst} (h : cBeqzHelper writeP target rs1 = some i) : i.size = 2 := by
  obtain ⟨pair, -, rfl⟩ := Option.map_eq_some_iff.mp h
  rfl

theorem size_jalHelper {i : Inst} (h : jalHelper writeP target rd = some i) : i.size = 4 := by
  rw [jalHelper] at h
  split_ifs at h
  rw [← Option.some.inj h]
  rfl

end Pieces

section Exits

/-- The values that the code for an instruction loads. -/
structure Small (mambo : Addresses) (site : Site) : Prop where
  id : site.basicBlock.toNat < 2 ^ 16
  ret : Short site.retAddr
  entries : Short mambo.entries

variable {mambo : Addresses} {site : Site} {writeP target : Word} {rd rs1 rs2 : Reg} {imm : BitVec 12} {link : Bool}
  {code : List Inst}

theorem bytes_linkCode (hsmall : Small mambo site) : bytes (linkCode site rd) ≤ if rd = zero then 0 else 20 := by
  rw [linkCode]
  by_cases hrd : rd = zero
  · rw [if_neg (not_not.mpr hrd), if_pos hrd]
    rfl
  · rw [if_pos hrd, if_neg hrd]
    exact bytes_copyToReg_short rd hsmall.ret

theorem bytes_riscvJump (hsmall : Small mambo site) (htarget : Short target)
    (h : riscvJump mambo site writeP rd target = some code) : bytes code ≤ (if rd = zero then 0 else 20) + 52 := by
  simp only [riscvJump, Option.bind_eq_bind, Option.bind_eq_some_iff, Option.pure_def, Option.some.injEq] at h
  obtain ⟨-, -, jump, hjump, rfl⟩ := h
  have hlink : bytes (linkCode site rd) ≤ if rd = zero then 0 else 20 := bytes_linkCode hsmall
  have ha0 := bytes_copyToReg_short a0 htarget
  have ha1 := bytes_copyToReg_id a1 hsmall.id
  simp only [bytes_append, bytes_saveContext, bytes_goToDispatcher hjump]
  omega

theorem bytes_branchSide {before : List Inst} (htarget : Short target)
    (h : branchSide mambo writeP target before = some code) : bytes code ≤ bytes before + 28 := by
  simp only [branchSide, Option.bind_eq_bind, Option.bind_eq_some_iff, Option.pure_def, Option.some.injEq] at h
  obtain ⟨jump, hjump, rfl⟩ := h
  have ha0 := bytes_copyToReg_short a0 htarget
  simp only [bytes_append, bytes_goToDispatcher hjump]
  omega

theorem bytes_condBranch {cond : BitVec 3} (hsmall : Small mambo site) (htarget : Short target)
    (h : condBranch mambo site writeP cond rs1 rs2 target = some code) : bytes code ≤ 132 := by
  have hid := bytes_copyToReg_id a1 hsmall.id
  have hnops : bytes nops = 24 := rfl
  simp only [condBranch] at h
  split at h
  · simp only [Option.bind_eq_bind, Option.bind_eq_some_iff, Option.pure_def, Option.some.injEq] at h
    obtain ⟨skipped, hskipped, taken, htaken, branch, hbranch, rfl⟩ := h
    have h1 := bytes_branchSide hsmall.ret hskipped
    have h2 := bytes_branchSide htarget htaken
    rw [bytes_append, bytes_saveContext] at h1 h2
    simp only [bytes_append, bytes, size_branchHelper hbranch, hnops]
    omega
  · simp only [Option.bind_eq_bind, Option.bind_eq_some_iff, Option.pure_def, Option.some.injEq] at h
    obtain ⟨skipped, hskipped, taken, htaken, branch, hbranch, rfl⟩ := h
    have h1 := bytes_branchSide hsmall.ret hskipped
    have h2 := bytes_branchSide htarget htaken
    simp only [bytes_append, bytes, size_branchHelper hbranch, hnops, bytes_saveContext]
    by_cases honA1 : rs1 = a1 ∨ rs2 = a1
    · simp only [decide_eq_true honA1, if_true] at h1 h2 ⊢
      rw [bytes]
      omega
    · simp only [decide_eq_false honA1, Bool.false_eq_true, if_false, bytes] at h1 h2 ⊢
      omega

theorem bytes_moves : bytes (moves rs1 imm link) ≤ if useA2 rs1 link then 12 else 4 := by
  rw [moves]
  split
  · rw [bytes_append, bytes_push]
    split <;> simp [bytes, Inst.size]
  · rfl

theorem bytes_popA2 (h : popA2 rs1 link = some code) : bytes code = if useA2 rs1 link then 6 else 0 := by
  rw [popA2] at h
  split at h
  · rename_i hused
    rw [if_pos hused]
    exact bytes_of_pop (bytes_pop_one a2) h
  · rename_i hused
    rw [if_neg hused, ← Option.some.inj h]
    rfl

theorem bytes_hashCode (hsmall : Small mambo site) : bytes (hashCode rs1 link mambo.entries) ≤ 44 := by
  have hsize : bytes (copyToReg a0 (BitVec.ofNat 64 CodeCacheHash.codeCacheHashSize)) ≤ 8 :=
    bytes_copyToReg_le (d := 0) (by decide)
  have hentries := bytes_copyToReg_short a0 hsmall.entries
  simp only [hashCode, bytes_append, bytes, Inst.size]
  omega

theorem bytes_foundCode (hsmall : Small mambo site) (h : foundCode rs1 link site rd = some code) :
    bytes code ≤ (if useA2 rs1 link then 6 else 0) + (if rd = zero then 0 else 20) + 2 := by
  simp only [foundCode, Option.bind_eq_bind, Option.bind_eq_some_iff, Option.pure_def, Option.some.injEq] at h
  obtain ⟨popped, hpopped, rfl⟩ := h
  have hlink : bytes (linkCode site rd) ≤ if rd = zero then 0 else 20 := bytes_linkCode hsmall
  simp only [bytes_append, bytes_popA2 hpopped, bytes, Inst.size]
  omega

theorem bytes_notFoundCode (hsmall : Small mambo site) (h : notFoundCode rs1 link mambo site rd writeP = some code) :
    bytes code ≤ (if useA2 rs1 link then 6 else 0) + 2 * (if rd = zero then 0 else 20) + 28 := by
  simp only [notFoundCode, Option.bind_eq_bind, Option.bind_eq_some_iff, Option.pure_def, Option.some.injEq] at h
  obtain ⟨popped, hpopped, jump, hjump, rfl⟩ := h
  have hlink : bytes (linkCode site rd) ≤ if rd = zero then 0 else 20 := bytes_linkCode hsmall
  have hid := bytes_copyToReg_id a1 hsmall.id
  simp only [bytes_append, bytes_popA2 hpopped, bytes_goToDispatcher hjump, bytes, Inst.size, bytes_push,
    List.length_singleton]
  omega

theorem bytes_inlineHashLookup (hsmall : Small mambo site)
    (h : inlineHashLookup rs1 imm link mambo site rd writeP false = some code) : bytes code ≤ 192 := by
  simp only [inlineHashLookup, Option.bind_eq_bind, Option.bind_eq_some_iff, Option.pure_def, Option.some.injEq,
    if_false, Bool.false_eq_true] at h
  obtain ⟨toLoop, hloop, found, hfound, toNotFound, hto, guards, hguards, miss, hmiss, rfl⟩ := h
  have hmoves := @bytes_moves rs1 imm link
  have hhash : bytes (hashCode rs1 link mambo.entries) ≤ 44 := bytes_hashCode hsmall
  have h1 := bytes_foundCode hsmall hfound
  have h2 := bytes_notFoundCode hsmall hmiss
  have hguard : bytes guards = 0 := by
    rw [← hguards]
    rfl
  simp only [bytes_append, bytes, size_branchHelper hloop, size_cBeqzHelper hto, bytes_push, hguard,
    List.length_cons, List.length_nil]
  simp only [Inst.size]
  have hlink : (if rd = zero then 0 else 20) ≤ 20 := by split <;> decide
  by_cases hused : useA2 rs1 link = true
  · rw [if_pos hused] at hmoves h1 h2
    omega
  · rw [if_neg hused] at hmoves h1 h2
    omega

end Exits

section Instructions

variable {mambo : Addresses} {basicBlock r : Nat} {d writeP : Word} {g : Guest} {first : Bool} {out : List Out}

theorem short_ofNat_add (hr : r < 2 ^ 48) (hge : -2 ^ 31 ≤ d.toInt) (hlt : d.toInt < 2 ^ 31) :
    Short (BitVec.ofNat 64 r + d) := by
  have hint : (BitVec.ofNat 64 r).toInt = r := by
    rw [BitVec.toInt_eq_toNat_of_lt, BitVec.toNat_ofNat, Nat.mod_eq_of_lt (by omega)]
    rw [BitVec.toNat_ofNat, Nat.mod_eq_of_lt (by omega)]
    omega
  rw [Short, BitVec.toInt_add, hint, Int.bmod_eq_of_le (by omega) (by omega)]
  omega

theorem signExtend_bounds {n : Nat} (hpos : 0 < n) (hn : n ≤ 32) (x : BitVec n) :
    -2 ^ 31 ≤ (x.signExtend 64).toInt ∧ (x.signExtend 64).toInt < 2 ^ 31 := by
  have hpow : (2 : Int) ^ (n - 1) ≤ 2 ^ 31 := by
    exact_mod_cast Nat.pow_le_pow_right (by decide) (by omega)
  have hge := BitVec.le_toInt x
  have hlt := BitVec.toInt_lt (x := x)
  rw [BitVec.toInt_signExtend_of_le (by omega)]
  omega

theorem uImm_bounds (imm : BitVec 20) : -2 ^ 31 ≤ (uImm imm).toInt ∧ (uImm imm).toInt < 2 ^ 31 := by
  have hge := BitVec.le_toInt imm
  have hlt := BitVec.toInt_lt (x := imm)
  rw [toInt_uImm]
  omega

theorem guest_size (g : Guest) : g.size = 2 ∨ g.size = 4 := by
  cases g <;> first | exact Or.inl rfl | exact Or.inr rfl

def room : Guest → Nat
  | .cJ .. | .invalid => 52
  | .cBranch .. | .branch .. => 132
  | .cJr .. | .cJalr .. | .jalr .. => 192
  | .jal .. => 72
  | .auipc .. => 20
  | .ecall => 50
  | .cCopy => 2
  | .copy | .atomic | .unhandled => 4

def totalSize (out : List Out) : Nat := (out.map Out.size).sum

theorem totalSize_insts (code : List Inst) : totalSize (insts code) = bytes code := by
  induction code with
  | nil => rfl
  | cons i code ih =>
      rw [bytes, ← ih]
      rfl

theorem bytes_jumpRegister {site : Site} {rd rs1 : Reg} {imm : BitVec 12} {code : List Inst} (hsmall : Small mambo site)
    (h : jumpRegister mambo site writeP rd rs1 imm = some code) : bytes code ≤ 192 := by
  simp only [jumpRegister, Option.bind_eq_bind, Option.bind_eq_some_iff] at h
  obtain ⟨-, -, h⟩ := h
  exact bytes_inlineHashLookup hsmall h

theorem bytes_ecallCode {code : List Inst} (hr : r < 2 ^ 48)
    (h : ecallCode mambo (BitVec.ofNat 64 r) writeP = some code) : bytes code ≤ 50 := by
  simp only [ecallCode, Option.bind_eq_bind, Option.bind_eq_some_iff, Option.pure_def, Option.some.injEq] at h
  obtain ⟨call, hcall, popped, hpopped, rfl⟩ := h
  have hpush : bytes (pushOffset [ra, 8, s1] 2) = 16 := rfl
  have hcopy := bytes_copyToReg_short 8 (short_ofNat_add (d := 4) hr (by decide) (by decide))
  rw [bytes_append, bytes_append, bytes_append, hpush, bytes_jalrHelper hcall, bytes_of_pop bytes_pop_a0_a1 hpopped]
  omega

theorem instCode_size (hid : basicBlock < 2 ^ 16) (hentries : Short mambo.entries) (hr : r < 2 ^ 48)
    (h : instCode mambo basicBlock g first (BitVec.ofNat 64 r) writeP = some out) : totalSize out ≤ room g := by
  have hsmall : Small mambo ⟨BitVec.ofNat 64 r, BitVec.ofNat 64 g.size, BitVec.ofNat 64 basicBlock⟩ := by
    refine ⟨?_, ?_, hentries⟩
    · rw [BitVec.toNat_ofNat, Nat.mod_eq_of_lt (by omega)]
      exact hid
    · have hshort : ∀ n : Nat, n = 2 ∨ n = 4 → Short (BitVec.ofNat 64 r + BitVec.ofNat 64 n) := by
        rintro n (rfl | rfl)
        · exact short_ofNat_add hr (by decide) (by decide)
        · exact short_ofNat_add hr (by decide) (by decide)
      exact hshort g.size (guest_size g)
  cases g with
  | cJ imm =>
      obtain ⟨code, hcode, rfl⟩ := Option.map_eq_some_iff.mp h
      have hbounds := signExtend_bounds (n := 12) (by decide) (by decide)
      rw [totalSize_insts]
      exact bytes_riscvJump hsmall (short_ofNat_add hr (hbounds _).1 (hbounds _).2) hcode
  | cBranch bnez rs1 immhi immlo =>
      obtain ⟨code, hcode, rfl⟩ := Option.map_eq_some_iff.mp h
      have hbounds := signExtend_bounds (n := 9) (by decide) (by decide)
      rw [totalSize_insts]
      exact bytes_condBranch hsmall (short_ofNat_add hr (hbounds _).1 (hbounds _).2) hcode
  | cJr rs1 =>
      obtain ⟨code, hcode, rfl⟩ := Option.map_eq_some_iff.mp h
      rw [totalSize_insts]
      exact bytes_jumpRegister hsmall hcode
  | cJalr rs1 =>
      obtain ⟨code, hcode, rfl⟩ := Option.map_eq_some_iff.mp h
      rw [totalSize_insts]
      exact bytes_jumpRegister hsmall hcode
  | auipc rd imm =>
      obtain rfl := Option.some.inj h
      have hbounds := uImm_bounds imm
      rw [totalSize_insts]
      exact bytes_copyToReg_short rd (short_ofNat_add hr hbounds.1 hbounds.2)
  | jal rd imm =>
      obtain ⟨code, hcode, rfl⟩ := Option.map_eq_some_iff.mp h
      have hbounds := signExtend_bounds (n := 21) (by decide) (by decide)
      rw [totalSize_insts]
      have hlink : (if rd = zero then 0 else 20) ≤ 20 := by split <;> decide
      exact (bytes_riscvJump hsmall (short_ofNat_add hr (hbounds _).1 (hbounds _).2) hcode).trans
        (Nat.add_le_add_right hlink 52)
  | jalr rd rs1 imm =>
      obtain ⟨code, hcode, rfl⟩ := Option.map_eq_some_iff.mp h
      rw [totalSize_insts]
      exact bytes_jumpRegister hsmall hcode
  | branch cond rs1 rs2 immhi immlo =>
      obtain ⟨code, hcode, rfl⟩ := Option.map_eq_some_iff.mp h
      have hbounds := signExtend_bounds (n := 13) (by decide) (by decide)
      rw [totalSize_insts]
      exact bytes_condBranch hsmall (short_ofNat_add hr (hbounds _).1 (hbounds _).2) hcode
  | ecall =>
      obtain ⟨code, hcode, rfl⟩ := Option.map_eq_some_iff.mp h
      rw [totalSize_insts]
      exact bytes_ecallCode hr hcode
  | invalid =>
      cases first with
      | true => exact nomatch h
      | false =>
          obtain ⟨code, hcode, rfl⟩ := Option.map_eq_some_iff.mp h
          have hzero := short_ofNat_add (d := 0) hr (by decide) (by decide)
          rw [add_zero] at hzero
          rw [totalSize_insts]
          exact bytes_riscvJump hsmall hzero hcode
  | unhandled => exact nomatch h
  | _ =>
      obtain rfl := Option.some.inj h
      exact le_refl _

theorem bytes_headIncrCall (mambo : Addresses) (writeP : Word) : bytes (headIncrCall mambo writeP) ≤ 8 := by
  rw [headIncrCall]
  split
  · rename_i jal hjal
    rw [bytes, size_jalHelper hjal]
    decide
  · cases hfar : jalrHelper writeP mambo.traceHeadIncrAddr ra a0 with
    | none => decide
    | some code => exact (bytes_jalrHelper hfar).le

theorem entryCode_size {program : Nat → Guest} {fuel readAddress : Nat} (hid : basicBlock < 2 ^ 16)
    (h : entryCode mambo program basicBlock fuel readAddress writeP = some out) : totalSize out ≤ 54 := by
  have hid' : (BitVec.ofNat 64 basicBlock).toNat < 2 ^ 16 := by
    rw [BitVec.toNat_ofNat, Nat.mod_eq_of_lt (by omega)]
    exact hid
  have hcopy := bytes_copyToReg_id a1 hid'
  simp only [entryCode, Option.bind_eq_bind, Option.bind_eq_some_iff] at h
  obtain ⟨restored, hrestored, h⟩ := h
  have hpop := bytes_of_pop bytes_pop_a0_a1 hrestored
  split_ifs at h
  · simp only [Option.bind_eq_some_iff, Option.pure_def, Option.some.injEq, traceHeadCall, Option.bind_eq_bind] at h
    obtain ⟨call, ⟨poppedRa, hra, popped, hpopped, rfl⟩, rfl⟩ := h
    have hcall := bytes_headIncrCall mambo (past (past writeP (bytes restored))
      (bytes (push [a0, a1] ++ push [ra] ++ copyToReg a1 (BitVec.ofNat 64 basicBlock))))
    have hcontext : bytes (push [a0, a1]) = 12 := bytes_push _
    have hra' : bytes (push [ra]) = 8 := bytes_push _
    simp only [bytes_append] at hcall
    simp only [totalSize_insts, bytes_append, bytes_of_pop (bytes_pop_one ra) hra,
      bytes_of_pop bytes_pop_a0_a1 hpopped]
    omega
  · rw [← Option.some.inj h, totalSize_insts, hpop]
    decide

end Instructions

end Mambo.RvCodeRoom
