import Mambo.A64Scan
import Mathlib.Tactic.SplitIfs

namespace Mambo.A64CodeRoom

open A64 A64Emit A64HashLookup A64Scan
open A64Exits (branchJump branchJumpCond branchImmReg length_branchJump)

section Constants

variable {value : Word} {reg : Reg}

theorem toNat_halfWord (value : Word) (k : Nat) : (halfWord value k).toNat = value.toNat / 2 ^ (16 * k) % 2 ^ 16 := by
  rw [halfWord, BitVec.toNat_setWidth, BitVec.toNat_ushiftRight, Nat.shiftRight_eq_div_pow]

theorem length_moveKeep (value : Word) (k : Nat) (hw : BitVec 2) (reg : Reg) :
    (moveKeep value k hw reg).length = if value.toNat / 2 ^ (16 * k) % 2 ^ 16 = 0 then 0 else 1 := by
  rw [moveKeep, toNat_halfWord]
  by_cases hzero : value.toNat / 2 ^ (16 * k) % 2 ^ 16 = 0
  · rw [if_pos hzero, if_neg (by omega)]
    rfl
  · rw [if_neg hzero, if_pos (by omega)]
    rfl

theorem length_copyToReg64bits_eq (reg : Reg) (value : Word) :
    (copyToReg64bits reg value).length =
      1 + (moveKeep value 1 1 reg).length + (moveKeep value 2 2 reg).length + (moveKeep value 3 3 reg).length := by
  rw [copyToReg64bits, List.length_cons, List.length_append, List.length_append]
  omega

/-- An address of 48 bits takes three instructions, and the first one after them
takes two. -/
theorem length_copyToReg64bits_address (reg : Reg) (h : value.toNat ≤ 2 ^ 48) :
    (copyToReg64bits reg value).length ≤ 3 := by
  rw [length_copyToReg64bits_eq, length_moveKeep, length_moveKeep, length_moveKeep]
  by_cases htop : value.toNat = 2 ^ 48
  · rw [htop]
    decide
  · have hhigh : value.toNat / 2 ^ (16 * 3) % 2 ^ 16 = 0 := by omega
    rw [if_pos hhigh]
    split_ifs <;> omega

theorem length_copyToReg64bits_id (reg : Reg) (h : value.toNat < 2 ^ 16) : (copyToReg64bits reg value).length = 1 := by
  rw [length_copyToReg64bits_eq, length_moveKeep, length_moveKeep, length_moveKeep, if_pos (by omega),
    if_pos (by omega), if_pos (by omega)]

end Constants

section Exits

variable {dispatcherAddr writeP id target readAddress : Word} {code : List Inst}

theorem length_branchJumpCond {cond : Word}
    (h : branchJumpCond dispatcherAddr writeP id target readAddress cond = some code) :
    code.length = 6 + (copyToReg64bits 1 id).length + (copyToReg64bits 0 target).length +
      (copyToReg64bits 0 (readAddress + 4)).length := by
  obtain ⟨jump, _, h⟩ := Option.bind_eq_some_iff.mp h
  obtain ⟨toSkipped, _, h⟩ := Option.bind_eq_some_iff.mp h
  obtain ⟨jumpSkipped, _, h⟩ := Option.bind_eq_some_iff.mp h
  rw [← Option.some.inj h]
  simp only [List.length_append, List.length_cons, List.length_nil]
  omega

theorem length_branchImmReg {helper : Word → Word → Option Inst}
    (h : branchImmReg dispatcherAddr writeP id target readAddress helper = some code) :
    code.length = 6 + 2 * (copyToReg64bits 1 id).length + (copyToReg64bits 0 target).length +
      (copyToReg64bits 0 (readAddress + 4)).length := by
  obtain ⟨takenJump, htaken, h⟩ := Option.bind_eq_some_iff.mp h
  obtain ⟨toSkipped, _, h⟩ := Option.bind_eq_some_iff.mp h
  obtain ⟨skippedJump, hskipped, h⟩ := Option.bind_eq_some_iff.mp h
  have htakenLength := length_branchJump _ htaken
  have hskippedLength := length_branchJump _ hskipped
  rw [← Option.some.inj h]
  simp only [List.length_append, List.length_cons, List.length_nil]
  omega

theorem length_inlineHashLookup {entries : Word} {rn : Reg} {link : Bool}
    (h : inlineHashLookup dispatcherAddr entries id writeP readAddress rn link = some code) :
    code.length = (lookupHead entries readAddress rn link).length + 4 + (found rn link).length +
      (missing id rn link).length + 1 := by
  obtain ⟨toLoop, _, h⟩ := Option.bind_eq_some_iff.mp h
  obtain ⟨toNotFound, _, h⟩ := Option.bind_eq_some_iff.mp h
  obtain ⟨jump, _, h⟩ := Option.bind_eq_some_iff.mp h
  rw [← Option.some.inj h]
  simp only [List.length_append, List.length_cons, List.length_nil]

end Exits

section Pieces

variable {mambo : Addresses} {basicBlock : Nat} {readAddress writeP : Word} {out : List Out}

@[simp] theorem length_insts (code : List Inst) : (insts code).length = code.length := List.length_map _

/-- The addresses that an instruction and its exit are for are of 48 bits. -/
structure Small (mambo : Addresses) (basicBlock : Nat) (readAddress : Word) : Prop where
  id : basicBlock < 2 ^ 16
  next : (readAddress + 4).toNat ≤ 2 ^ 48
  entries : mambo.entries.toNat ≤ 2 ^ 48

theorem Small.length_id (h : Small mambo basicBlock readAddress) (reg : Reg) :
    (copyToReg64bits reg (BitVec.ofNat 64 basicBlock)).length = 1 := by
  refine length_copyToReg64bits_id reg ?_
  have hid := h.id
  rw [BitVec.toNat_ofNat]
  omega

theorem Small.length_next (h : Small mambo basicBlock readAddress) (reg : Reg) :
    (copyToReg64bits reg (readAddress + 4)).length ≤ 3 := length_copyToReg64bits_address reg h.next

theorem Small.length_lookupHead (h : Small mambo basicBlock readAddress) (rn : Reg) (link : Bool) :
    (lookupHead mambo.entries readAddress rn link).length ≤ 9 + 2 * (popScratch rn link).length := by
  have hentries := length_copyToReg64bits_address 0 h.entries
  have hlink : (if link then copyToReg64bits lr (readAddress + 4) else []).length ≤ 3 := by
    split_ifs
    · exact h.length_next lr
    · exact Nat.zero_le 3
  rw [lookupHead, popScratch]
  generalize (if link then copyToReg64bits lr (readAddress + 4) else []) = linked at hlink ⊢
  simp only [List.length_cons, List.length_append]
  split_ifs <;> simp only [List.length_cons, List.length_nil] <;> omega

theorem Small.length_lookup (h : Small mambo basicBlock readAddress) {rn : Reg} {link : Bool} {code : List Inst}
    (hcode : inlineHashLookup mambo.dispatcherAddr mambo.entries (BitVec.ofNat 64 basicBlock) writeP readAddress rn
      link = some code) : code.length ≤ 22 := by
  have hhead := h.length_lookupHead rn link
  have hid := h.length_id 1
  have hpop : (popScratch rn link).length ≤ 1 := by
    rw [popScratch]
    split_ifs
    · exact le_refl 1
    · exact Nat.zero_le 1
  rw [length_inlineHashLookup hcode, found, missing]
  simp only [List.length_append, List.length_cons, List.length_nil]
  omega

theorem Small.length_svc (h : Small mambo basicBlock readAddress) (hout : svcCode mambo readAddress writeP = some out) :
    out.length ≤ 6 := by
  have hnext := h.length_next 29
  obtain ⟨call, _, hout⟩ := Option.bind_eq_some_iff.mp hout
  rw [← Option.some.inj hout, List.length_append, length_insts, List.length_cons]
  simp only [List.length_cons, List.length_nil]
  omega

theorem length_tlsCode (mambo : Addresses) (r : BitVec 1) (rt : Reg) : (tlsCode mambo r rt).length ≤ 7 := by
  have htls := length_copyToReg64bits (spilledReg rt) mambo.tls
  rw [tlsCode, List.length_append, length_insts, List.length_cons]
  simp only [List.length_cons, List.length_nil]
  omega

theorem Small.length_bBl (h : Small mambo basicBlock readAddress) {op : BitVec 1} {imm26 : BitVec 26}
    (hout : bBlCode mambo op imm26 readAddress writeP (BitVec.ofNat 64 basicBlock) = some out) : out.length ≤ 11 := by
  have hid := h.length_id 1
  have htarget := length_copyToReg64bits 0 (branchTarget imm26 readAddress)
  have hlink : (linkCode op readAddress).length ≤ 3 := by
    rw [linkCode]
    split_ifs
    · exact h.length_next lr
    · exact Nat.zero_le 3
  obtain ⟨jump, hjump, hout⟩ := Option.bind_eq_some_iff.mp hout
  have hlength := length_branchJump _ hjump
  rw [← Option.some.inj hout, length_insts, List.length_append, List.length_append]
  simp only [List.length_cons, List.length_nil]
  omega

theorem length_ldrLit {opc : BitVec 2} {v : BitVec 1} {imm19 : BitVec 19} {rt : Reg}
    (hout : ldrLitCode opc v imm19 rt readAddress = some out) : out.length ≤ 7 := by
  obtain ⟨⟨size, op⟩, _, hout⟩ := Option.map_eq_some_iff.mp hout
  have hrt := length_copyToReg64bits rt (readAddress + offset imm19)
  have hx0 := length_copyToReg64bits 0 (readAddress + offset imm19)
  rw [← hout]
  split_ifs
  · rw [List.length_append, length_insts]
    simp only [List.length_cons, List.length_nil]
    omega
  · rw [List.length_append, length_insts]
    simp only [List.length_cons, List.length_nil]
    omega

theorem Small.length_deferred (h : Small mambo basicBlock readAddress)
    (hout : deferredCode mambo readAddress writeP (BitVec.ofNat 64 basicBlock) = some out) : out.length ≤ 7 := by
  have hid := h.length_id 1
  have htarget := length_copyToReg64bits 0 readAddress
  obtain ⟨jump, hjump, hout⟩ := Option.bind_eq_some_iff.mp hout
  have hlength := length_branchJump _ hjump
  rw [← Option.some.inj hout, length_insts, List.length_cons]
  omega

theorem Small.length_condExit (h : Small mambo basicBlock readAddress) {target cond : Word} {code : List Inst}
    (hcode : branchJumpCond mambo.dispatcherAddr writeP (BitVec.ofNat 64 basicBlock) target readAddress cond = some code) :
    code.length ≤ 14 := by
  have hid := h.length_id 1
  have hnext := h.length_next 0
  have htarget := length_copyToReg64bits 0 target
  rw [length_branchJumpCond hcode]
  omega

theorem Small.length_immReg (h : Small mambo basicBlock readAddress) {target : Word} {code : List Inst}
    {helper : Word → Word → Option Inst}
    (hcode : branchImmReg mambo.dispatcherAddr writeP (BitVec.ofNat 64 basicBlock) target readAddress helper = some code) :
    code.length ≤ 15 := by
  have hid := h.length_id 1
  have hnext := h.length_next 0
  have htarget := length_copyToReg64bits 0 target
  rw [length_branchImmReg hcode]
  omega

/-- The room, in words, that an instruction of the guest may ask for. -/
def room : Guest → Nat
  | .indirect .. => 22
  | _ => 15

theorem le_room {g : Guest} {n : Nat} (hn : n ≤ 15) : n ≤ room g := by
  cases g with
  | indirect inst rn => exact hn.trans (Nat.le_add_right 15 7)
  | _ => exact hn

theorem length_copied {g : Guest} (readAddress : Word) : [Out.copy readAddress].length ≤ room g :=
  le_room (Nat.le_add_left 1 14)

theorem instCode_length (h : Small mambo basicBlock readAddress) {g : Guest} {first : Bool}
    (hout : instCode mambo basicBlock g first readAddress writeP = some out) : out.length ≤ room g := by
  cases g with
  | cbzCbnz sf op imm19 rt =>
      obtain ⟨code, hcode, rfl⟩ := Option.map_eq_some_iff.mp hout
      exact (length_insts code).le.trans (h.length_immReg hcode)
  | bCond imm19 cond =>
      obtain ⟨code, hcode, rfl⟩ := Option.map_eq_some_iff.mp hout
      exact (length_insts code).le.trans ((h.length_condExit hcode).trans (le_room (by decide)))
  | svc => exact (h.length_svc hout).trans (le_room (by decide))
  | mrsMsrReg r o0 op1 crn crm op2 rt =>
      rw [instCode] at hout
      split_ifs at hout
      · rw [← Option.some.inj hout]
        exact (length_tlsCode mambo r rt).trans (le_room (by decide))
      · rw [← Option.some.inj hout]
        exact length_copied readAddress
  | tbzTbnz b5 op b40 imm14 rt =>
      obtain ⟨code, hcode, rfl⟩ := Option.map_eq_some_iff.mp hout
      exact (length_insts code).le.trans (h.length_immReg hcode)
  | bBl op imm26 => exact (h.length_bBl hout).trans (le_room (by decide))
  | indirect inst rn =>
      obtain ⟨code, hcode, rfl⟩ := Option.map_eq_some_iff.mp hout
      exact (length_insts code).le.trans (h.length_lookup hcode)
  | ldrLit opc v imm19 rt => exact (length_ldrLit hout).trans (le_room (by decide))
  | adr op immlo immhi rd =>
      rw [← Option.some.inj hout, length_insts]
      exact (length_copyToReg64bits rd _).trans (le_room (by decide))
  | other =>
      rw [← Option.some.inj hout]
      exact length_copied readAddress
  | invalid =>
      rw [instCode] at hout
      split_ifs at hout
      · rw [← Option.some.inj hout]
        exact length_copied readAddress
      · exact (h.length_deferred hout).trans (le_room (by decide))
  | unhandled => exact absurd hout (Option.some_ne_none out).symm

theorem entryCode_length {program : Nat → Guest} {fuel address : Nat} {type : TraceState.CcType}
    (hid : basicBlock < 2 ^ 16) (hout : entryCode mambo program basicBlock fuel type address writeP = some out) :
    out.length ≤ 5 := by
  have hlength : (copyToReg64bits 1 (BitVec.ofNat 64 basicBlock)).length = 1 := by
    refine length_copyToReg64bits_id 1 ?_
    rw [BitVec.toNat_ofNat]
    omega
  have hpop : (if type ≠ .trace then [Out.inst (popPairReg 0 1)] else []).length ≤ 1 := by
    split_ifs
    · exact le_refl 1
    · exact Nat.zero_le 1
  rw [entryCode] at hout
  generalize (if type ≠ .trace then [Out.inst (popPairReg 0 1)] else []) = pop at hpop hout
  split_ifs at hout
  · obtain ⟨call, hcall, hout⟩ := Option.bind_eq_some_iff.mp hout
    obtain ⟨bl, _, hcall⟩ := Option.bind_eq_some_iff.mp hcall
    rw [← Option.some.inj hout, ← Option.some.inj hcall]
    simp only [List.length_append, length_insts, List.length_cons, List.length_nil]
    omega
  · rw [← Option.some.inj hout]
    omega

end Pieces

end Mambo.A64CodeRoom
