import Mambo.RvAddSub

namespace Mambo.RvAddSub

open ByteMemory BarrelShift RegLists RvEmit RvStack
open Rv (Reg Word State zero sp)
open RvPlugin RvPluginStack

section Temporaries

def temp (c : Nat) : Nat := (riscvFindNextFreeReg c).getD 0

theorem ofNat_ne {n : Nat} {r : Reg} (hpos : 1 ≤ n) (hlt : n < 32) (hfree : n &&& r.toNat = 0) : BitVec.ofNat 5 n ≠ r := by
  rintro rfl
  rw [BitVec.toNat_ofNat, Nat.mod_eq_of_lt hlt, Nat.and_self] at hfree
  omega

theorem and_or_eq_zero {n a b : Nat} (h : n &&& (a ||| b) = 0) : n &&& a = 0 ∧ n &&& b = 0 := by
  rw [Nat.and_or_distrib_left, Nat.or_eq_zero_iff] at h
  exact h

theorem oneShl_eq_some {n : Nat} {v : BitVec 32} : oneShl n = some v ↔ n < 31 ∧ (1 : BitVec 32) <<< n = v := by
  rw [oneShl]
  split <;> simp [*]

theorem getLsbD_oneShl {n i : Nat} (hn : n < 31) : ((1 : BitVec 32) <<< n).getLsbD i = decide (i = n) := by
  rw [BitVec.getLsbD_shiftLeft, show (1 : BitVec 32) = 1#32 from rfl, BitVec.getLsbD_one]
  by_cases heq : i = n
  · simp [heq, show n < 32 by omega]
  · by_cases hlt : i < n
    · simp [heq, hlt]
    · simp [heq, show i - n ≠ 0 by omega]

def pair (a b : Nat) : BitVec 32 := (1 : BitVec 32) <<< a ||| (1 : BitVec 32) <<< b

theorem members_pair {a b : Nat} (hab : a < b) (hb : b < 31) : members (pair a b) = [a, b] := by
  refine members_eq (by simpa using hab) fun k => ?_
  rw [pair, BitVec.getLsbD_or, getLsbD_oneShl (by omega), getLsbD_oneShl hb]
  simp

theorem mem_pair {a b : Nat} (ha : a < 31) (hb : b < 31) {r : Reg} :
    r ∈ regList (pair a b) ↔ r = BitVec.ofNat 5 a ∨ r = BitVec.ofNat 5 b := by
  have hnat (n : Nat) (hn : n < 31) : r = BitVec.ofNat 5 n ↔ r.toNat = n := by
    rw [← BitVec.toNat_inj, BitVec.toNat_ofNat, Nat.mod_eq_of_lt (by omega)]
  rw [mem_regList, pair, BitVec.getLsbD_or, getLsbD_oneShl ha, getLsbD_oneShl hb, hnat a ha, hnat b hb]
  simp

theorem room_pair {a b : Nat} (ha : a < 31) (hb : b < 31) (hne : a ≠ b) : room (pair a b) = 16 := by
  rw [room, regList_length]
  rcases Nat.lt_or_gt_of_ne hne with hlt | hlt
  · rw [members_pair hlt hb]
    rfl
  · rw [pair, BitVec.or_comm, ← pair, members_pair hlt ha]
    rfl

end Temporaries

section Rotations

variable {rd rn rm r : Reg} {q : Nat} {amount : BitVec 6} {is : List Inst} {m : Machine}

structure Rotation (rd rn rm : Reg) (q : Nat) (amount : BitVec 6) (is : List Inst) (a b : Nat) (saved restored : List Inst) :
    Prop where
  first : riscvFindNextFreeReg (rd.toNat ||| rn.toNat ||| rm.toNat ||| q) = some a
  second : riscvFindNextFreeReg (rd.toNat ||| rn.toNat ||| rm.toNat ||| q ||| a) = some b
  first_lt : a < 31
  second_lt : b < 31
  push : emitRiscvPush (pair a b) = some saved
  pop : emitRiscvPop (pair a b) = some restored
  code : is = saved ++
    [.core (.srli (BitVec.ofNat 5 a) (BitVec.ofNat 5 q) amount), .core (.slli (BitVec.ofNat 5 b) (BitVec.ofNat 5 q) (-amount)),
      .or (BitVec.ofNat 5 q) (BitVec.ofNat 5 a) (BitVec.ofNat 5 b)] ++ restored

theorem emitRotate_some (h : emitRotate rd rn rm q amount = some is) :
    ∃ a b saved restored, Rotation rd rn rm q amount is a b saved restored := by
  simp only [emitRotate, Option.bind_eq_bind, Option.bind_eq_some_iff, Option.pure_def, Option.some.injEq,
    oneShl_eq_some] at h
  obtain ⟨a, hfirst, b, hsecond, _, ⟨ha, rfl⟩, _, ⟨hb, rfl⟩, saved, hsaved, restored, hrestored, hcode⟩ := h
  exact ⟨a, b, saved, restored, hfirst, hsecond, ha, hb, hsaved, hrestored, hcode.symm⟩

theorem emitRotate_isSome (amount : BitVec 6) {q a b : Nat}
    (hfirst : riscvFindNextFreeReg (rd.toNat ||| rn.toNat ||| rm.toNat ||| q) = some a)
    (hsecond : riscvFindNextFreeReg (rd.toNat ||| rn.toNat ||| rm.toNat ||| q ||| a) = some b) (ha : a < 31) (hb : b < 31) :
    ∃ is, emitRotate rd rn rm q amount = some is := by
  obtain ⟨saved, hsaved⟩ := Option.isSome_iff_exists.mp (@emitRiscvPush_isSome (pair a b))
  obtain ⟨restored, hrestored⟩ := Option.isSome_iff_exists.mp (@emitRiscvPop_isSome (pair a b))
  simp only [emitRotate, Option.bind_eq_bind, hfirst, hsecond, Option.bind_some, oneShl, if_pos ha, if_pos hb]
  rw [← pair, hsaved, hrestored]
  exact ⟨_, rfl⟩

theorem find_some {c n : Nat} (h : riscvFindNextFreeReg c = some n) : 1 ≤ n ∧ n &&& c = 0 := by
  obtain hmem := List.mem_of_find?_eq_some h
  have hfree := List.find?_some h
  rw [List.mem_range'_1] at hmem
  exact ⟨hmem.1, by simpa using hfree⟩

theorem rotateRight_eq (hamount : amount ≠ 0) (v : Word) :
    v >>> amount.toNat ||| v <<< (-amount).toNat = v.rotateRight amount.toNat := by
  have hlt := amount.isLt
  have hpos : amount.toNat ≠ 0 := fun hzero => hamount (BitVec.eq_of_toNat_eq hzero)
  rw [BitVec.rotateRight_def, Nat.mod_eq_of_lt hlt, BitVec.toNat_neg, Nat.mod_eq_of_lt (by omega)]

/-- The three instructions of a rotation, between the push and the pop. -/
def middle (a b q : Reg) (amount : BitVec 6) : List Inst :=
  [.core (.srli a q amount), .core (.slli b q (-amount)), .or q a b]

section Middle

variable {a b reg : Reg}

theorem middle_get_reg (hamount : amount ≠ 0) (ha : a ≠ zero) (hb : b ≠ zero) (hreg : reg ≠ zero) (hab : a ≠ b)
    (har : a ≠ reg) : (execAll (middle a b reg amount) m).get reg = (m.get reg).rotateRight amount.toNat := by
  rw [← rotateRight_eq hamount]
  simp [middle, ha, hb, hreg, hab, har.symm]

theorem middle_get (hra : r ≠ a) (hrb : r ≠ b) (hrq : r ≠ reg) : (execAll (middle a b reg amount) m).get r = m.get r := by
  simp [middle, hra, hrb, hrq]

theorem middle_get_temp (ha : a ≠ zero) (hb : b ≠ zero) (har : a ≠ reg) (hv : m.get reg = 0) (hr : r = a ∨ r = b)
    (hrq : r ≠ reg) : (execAll (middle a b reg amount) m).get r = 0 := by
  by_cases hrb : r = b
  · subst hrb
    simp [middle, hb, hrq, har.symm, hv]
  · obtain rfl := hr.resolve_right hrb
    simp [middle, ha, hrq, hrb, hv]

theorem middle_mem : (execAll (middle a b reg amount) m).core.mem = m.core.mem := by simp [middle]

end Middle

/-- The temporaries are two registers other than x0 and other than those in use. -/
structure Rotation.Apart (rd rn rm : Reg) (q a b : Nat) : Prop where
  first_ne_zero : BitVec.ofNat 5 a ≠ zero
  second_ne_zero : BitVec.ofNat 5 b ≠ zero
  distinct : BitVec.ofNat 5 a ≠ BitVec.ofNat 5 b
  first_ne : ∀ r : Reg, r.toNat &&& (rd.toNat ||| rn.toNat ||| rm.toNat ||| q) = r.toNat → BitVec.ofNat 5 a ≠ r
  second_ne : ∀ r : Reg, r.toNat &&& (rd.toNat ||| rn.toNat ||| rm.toNat ||| q) = r.toNat → BitVec.ofNat 5 b ≠ r

variable {a b : Nat} {saved restored : List Inst}

theorem ofNat_ne_of_within {n c : Nat} (hpos : 1 ≤ n) (hlt : n < 31) (hfree : n &&& c = 0) (hr : r.toNat &&& c = r.toNat) :
    BitVec.ofNat 5 n ≠ r := by
  refine ofNat_ne hpos (by omega) ?_
  rw [← hr, Nat.and_comm r.toNat c, ← Nat.and_assoc, hfree, Nat.zero_and]

theorem Rotation.apart (h : Rotation rd rn rm q amount is a b saved restored) : Rotation.Apart rd rn rm q a b := by
  obtain ⟨hapos, hafree⟩ := find_some h.first
  obtain ⟨hbpos, hbfree⟩ := find_some h.second
  obtain ⟨hbfree, hba⟩ := and_or_eq_zero hbfree
  have ha := h.first_lt
  have hb := h.second_lt
  have haNat : (BitVec.ofNat 5 a).toNat = a := by rw [BitVec.toNat_ofNat, Nat.mod_eq_of_lt (by omega)]
  refine ⟨ofNat_ne hapos (by omega) (Nat.and_zero a), ofNat_ne hbpos (by omega) (Nat.and_zero b), ?_,
    fun r hr => ofNat_ne_of_within hapos ha hafree hr, fun r hr => ofNat_ne_of_within hbpos hb hbfree hr⟩
  exact (ofNat_ne hbpos (by omega) (by rw [haNat]; exact hba)).symm

theorem and_or_self_right (x y : Nat) : y &&& (x ||| y) = y := by
  apply Nat.eq_of_testBit_eq
  intro i
  rw [Nat.testBit_and, Nat.testBit_or]
  cases x.testBit i <;> cases y.testBit i <;> rfl

theorem within_self (c : Nat) (hq : q < 32) :
    (BitVec.ofNat 5 q).toNat &&& (c ||| q) = (BitVec.ofNat 5 q).toNat := by
  rw [BitVec.toNat_ofNat, Nat.mod_eq_of_lt hq]
  exact and_or_self_right c q

theorem Rotation.code_eq (h : Rotation rd rn rm q amount is a b saved restored) :
    is = saved ++ (middle (BitVec.ofNat 5 a) (BitVec.ofNat 5 b) (BitVec.ofNat 5 q) amount ++ restored) := by
  rw [h.code, List.append_assoc]
  rfl

theorem Rotation.room (h : Rotation rd rn rm q amount is a b saved restored) : room (pair a b) = 16 := by
  refine room_pair h.first_lt h.second_lt ?_
  rintro rfl
  exact h.apart.distinct rfl

/-- The rotated register keeps its value to the end, but for the stack pointer, which the push and the pop move. -/
theorem Rotation.get_reg (h : Rotation rd rn rm q amount is a b saved restored) (hamount : amount ≠ 0) (hq : q < 32)
    (hzero : BitVec.ofNat 5 q ≠ zero) :
    (execAll is m).get (BitVec.ofNat 5 q) =
      if BitVec.ofNat 5 q = sp then (m.get sp - 16).rotateRight amount.toNat + 16
      else (m.get (BitVec.ofNat 5 q)).rotateRight amount.toNat := by
  have hwithin := within_self (rd.toNat ||| rn.toNat ||| rm.toNat) hq
  have hapart := h.apart
  have hqa := hapart.first_ne _ hwithin
  have hqb := hapart.second_ne _ hwithin
  have hout : BitVec.ofNat 5 q ∉ regList (pair a b) := by
    rw [mem_pair h.first_lt h.second_lt]
    exact not_or.mpr ⟨hqa.symm, hqb.symm⟩
  have hmiddle := @middle_get_reg amount (execAll saved m) (BitVec.ofNat 5 a) (BitVec.ofNat 5 b) (BitVec.ofNat 5 q) hamount
    hapart.first_ne_zero hapart.second_ne_zero hzero hapart.distinct hqa
  rw [push_get h.push, h.room] at hmiddle
  rw [h.code_eq, execAll_append, execAll_append]
  split
  next hsp =>
    rw [hsp] at hout hmiddle ⊢
    rw [if_pos rfl] at hmiddle
    rw [pop_sp h.pop hout, h.room, hmiddle]
  next hsp =>
    rw [if_neg hsp] at hmiddle
    rw [pop_get h.pop hout hsp, hmiddle]

theorem Rotation.get_of_within (h : Rotation rd rn rm q amount is a b saved restored)
    (hwithin : r.toNat &&& (rd.toNat ||| rn.toNat ||| rm.toNat ||| q) = r.toNat) (hrq : r ≠ BitVec.ofNat 5 q)
    (hsp : r ≠ sp) : (execAll is m).get r = m.get r := by
  have hra := (h.apart.first_ne _ hwithin).symm
  have hrb := (h.apart.second_ne _ hwithin).symm
  have hout : r ∉ regList (pair a b) := by
    rw [mem_pair h.first_lt h.second_lt]
    exact not_or.mpr ⟨hra, hrb⟩
  rw [h.code_eq, execAll_append, execAll_append, pop_get h.pop hout hsp, middle_get hra hrb hrq, push_get h.push,
    if_neg hsp]

theorem Rotation.saveable (h : Rotation rd rn rm q amount is a b saved restored) (ha : BitVec.ofNat 5 a ≠ sp)
    (hb : BitVec.ofNat 5 b ≠ sp) : Saveable (pair a b) := by
  have hapos := (find_some h.first).1
  have hbpos := (find_some h.second).1
  have hbit (i : Nat) : (pair a b).getLsbD i = (decide (i = a) || decide (i = b)) := by
    rw [pair, BitVec.getLsbD_or, getLsbD_oneShl h.first_lt, getLsbD_oneShl h.second_lt]
  have ha2 : ¬2 = a := fun heq => ha (by rw [← heq]; rfl)
  have hb2 : ¬2 = b := fun heq => hb (by rw [← heq]; rfl)
  refine ⟨fun hzero => ?_, ?_, ?_⟩
  · have hset := hbit a
    rw [hzero] at hset
    simp at hset
  · rw [hbit]
    simp [show ¬0 = a by omega, show ¬0 = b by omega]
  · rw [hbit]
    simp [ha2, hb2]

/-- With temporaries other than the stack pointer, the rotated register is the only one that changes. -/
theorem Rotation.get (h : Rotation rd rn rm q amount is a b saved restored) (hamount : amount ≠ 0) (hq : q < 32)
    (ha : BitVec.ofNat 5 a ≠ sp) (hb : BitVec.ofNat 5 b ≠ sp) (hsp : BitVec.ofNat 5 q ≠ sp) :
    (execAll is m).get r = (m.set (BitVec.ofNat 5 q) ((m.get (BitVec.ofNat 5 q)).rotateRight amount.toNat)).get r := by
  have hwithin := within_self (rd.toNat ||| rn.toNat ||| rm.toNat) hq
  have hapart := h.apart
  have hqa := hapart.first_ne _ hwithin
  have hqb := hapart.second_ne _ hwithin
  have hmem (r : Reg) := @mem_pair a b h.first_lt h.second_lt r
  rw [h.code_eq, execAll_append, execAll_append]
  refine pop_push_get (h.saveable ha hb) h.push h.pop hsp ?_ ?_ middle_mem ?_ fun r hrq hr => ?_
  · rw [hmem]
    exact not_or.mpr ⟨hqa.symm, hqb.symm⟩
  · exact middle_get ha.symm hb.symm hsp.symm
  · by_cases hzero : BitVec.ofNat 5 q = zero
    · rw [hzero, Machine.get_zero, Machine.get_zero]
    · rw [middle_get_reg hamount hapart.first_ne_zero hapart.second_ne_zero hzero hapart.distinct hqa,
        push_get h.push, if_neg hsp, Machine.get_set_self hzero]
  · rw [hmem, not_or] at hr
    exact middle_get hr.1 hr.2 hrq

def idle : Machine where
  core := ⟨0, fun r => if r = sp then 0x1000 else 0, fun _ => 0⟩
  csr _ := 0

theorem idle_get (hr : r ≠ sp) : idle.get r = 0 := by
  rw [Machine.get, State.get]
  split
  · rfl
  · exact if_neg hr

theorem loaded_zero {rs : List Reg} {o : Nat} {s : State} (hsp : s.get sp = 0)
    (hmem : ∀ i, i < rs.length → load64 s.mem (RvCode.past 0 (o + 8 * i)) = 0) : (loaded rs o s).get sp = 0 := by
  induction rs generalizing o s with
  | nil => exact hsp
  | cons r rs ih =>
      have hfirst := hmem 0 (Nat.succ_pos _)
      rw [Nat.mul_zero, Nat.add_zero] at hfirst
      rw [loaded, hsp, hfirst]
      refine ih ?_ fun i hi => ?_
      · by_cases hr : sp = r
        · rw [← hr, State.get_set_self (by decide)]
        · rw [State.get_set_of_ne hr, hsp]
      · have hnext := hmem (i + 1) (Nat.succ_lt_succ hi)
        rw [State.set_mem, Nat.add_assoc, Nat.add_comm 8, ← Nat.mul_succ]
        exact hnext

theorem Rotation.get_sp (h : Rotation rd rn rm q amount is a b saved restored) (hq : q < 32)
    (hsp : BitVec.ofNat 5 q ≠ sp) (htemp : BitVec.ofNat 5 a = sp ∨ BitVec.ofNat 5 b = sp) :
    (execAll is idle).get sp = 16 := by
  have hwithin := within_self (rd.toNat ||| rn.toNat ||| rm.toNat) hq
  have hapart := h.apart
  have hroom := h.room
  have hlen : (regList (pair a b)).length = 2 := by
    have hle := @length_regList_le (pair a b)
    have hnat := congrArg BitVec.toNat hroom
    rw [RvPluginStack.room, BitVec.toNat_ofNat, Nat.mod_eq_of_lt (by omega)] at hnat
    have hsixteen : (16 : Word).toNat = 16 := rfl
    omega
  have hmid : (execAll (middle (BitVec.ofNat 5 a) (BitVec.ofNat 5 b) (BitVec.ofNat 5 q) amount)
      (execAll saved idle)).core.get sp = 0 := by
    refine middle_get_temp hapart.first_ne_zero hapart.second_ne_zero (hapart.first_ne _ hwithin) ?_ ?_ hsp.symm
    · rw [push_get h.push, if_neg hsp, idle_get hsp]
    · exact htemp.imp Eq.symm Eq.symm
  obtain ⟨p, hcore, -⟩ := execAll_emitRiscvPop
    (m := execAll (middle (BitVec.ofNat 5 a) (BitVec.ofNat 5 b) (BitVec.ofNat 5 q) amount) (execAll saved idle)) h.pop
  rw [h.code_eq, execAll_append, execAll_append, Machine.get, hcore, State.get_goto, State.get_set_self (by decide), hroom,
    loaded_zero hmid]
  · rfl
  intro i hi
  rw [middle_mem, push_mem h.push, load64_storeAll_apart, Nat.zero_add]
  · rw [hlen] at hi
    have hcases : i = 0 ∨ i = 1 := by omega
    rcases hcases with rfl | rfl <;> rfl
  · rw [List.length_map, hlen, hroom]
    rw [hlen] at hi
    have hcases : i = 0 ∨ i = 1 := by omega
    unfold ByteMemory.Apart
    rcases hcases with rfl | rfl <;> decide

end Rotations

section Emitted

variable {rd rn rm r : Reg} {t : ShiftType} {amount : BitVec 6} {is : List Inst} {m : Machine} {v : Word}

/-- The emitted code sets rd to rn plus the shifted rm, in any state, and no other register. -/
def Adds (rd rn rm : Reg) (t : ShiftType) (amount : BitVec 6) (is : List Inst) : Prop :=
  ∀ m r, (execAll is m).get r = (m.set rd (m.get rn + shift t (m.get rm) amount.toNat)).get r

/-- With these register numbers in use, the two lowest clear bits below 32 are there, and neither is that of sp. -/
def TempsFree (c : Reg) : Prop :=
  c.getLsbD 1 = true ∧ 2 ≤ ([0, 2, 3, 4].filter fun i => !c.getLsbD i).length

instance (c : Reg) : Decidable (TempsFree c) := inferInstanceAs (Decidable (_ ∧ _))

theorem temps_of_free : ∀ c : Reg, TempsFree c →
    temp c.toNat < 31 ∧ temp c.toNat ≠ 2 ∧ temp (c.toNat ||| temp c.toNat) < 31 ∧ temp (c.toNat ||| temp c.toNat) ≠ 2 ∧
      riscvFindNextFreeReg c.toNat = some (temp c.toNat) ∧
      riscvFindNextFreeReg (c.toNat ||| temp c.toNat) = some (temp (c.toNat ||| temp c.toNat)) := by
  decide

theorem temps_of_not_free : ∀ c : Reg, ¬TempsFree c →
    c.getLsbD 1 = false ∧ (temp c.toNat = 2 ∨ temp (c.toNat ||| temp c.toNat) = 2) ∨
      31 ≤ temp c.toNat ∨ 31 ≤ temp (c.toNat ||| temp c.toNat) := by
  decide

theorem ofNat_reg : BitVec.ofNat 5 rm.toNat = rm := by rw [BitVec.ofNat_toNat, BitVec.setWidth_eq]

theorem get_add : (exec (.core (.add rd rn rm)) m).get r = (m.set rd (m.get rn + m.get rm)).get r := by
  rw [exec_add, Machine.get_next]

theorem get_set_congr {m' : Machine} (h : ∀ r, r ≠ rd → m'.get r = m.get r) : (m'.set rd v).get r = (m.set rd v).get r := by
  by_cases hzero : rd = zero
  · rw [hzero, Machine.set, State.set_zero, Machine.set, State.set_zero]
    by_cases hr : r = zero
    · rw [hr]
      exact Machine.get_zero.trans Machine.get_zero.symm
    · exact h r (hzero ▸ hr)
  · by_cases hr : r = rd
    · rw [hr, Machine.get_set_self hzero, Machine.get_set_self hzero]
    · rw [Machine.get_set_of_ne hr, Machine.get_set_of_ne hr, h r hr]

theorem adds_of_shifted {first : List Inst} (hfirst : ∀ m r, (execAll first m).get r =
      (m.set rm (shift t (m.get rm) amount.toNat)).get r)
    (hne : rn ≠ rm) (hrm : rm = rd ∨ rm = zero) : Adds rd rn rm t amount (first ++ [.core (.add rd rn rm)]) := by
  intro m r
  have hrn : (execAll first m).get rn = m.get rn := by rw [hfirst, Machine.get_set_of_ne hne]
  have hval : (execAll first m).get rm = shift t (m.get rm) amount.toNat := by
    rw [hfirst]
    by_cases hzero : rm = zero
    · rw [hzero, Machine.get_zero, Machine.get_zero]
      exact shift_zero_left.symm
    · exact Machine.get_set_self hzero
  rw [execAll_append, execAll_cons, execAll_nil, get_add, hrn, hval]
  refine get_set_congr fun r hr => ?_
  rw [hfirst]
  rcases hrm with rfl | rfl
  · exact Machine.get_set_of_ne hr
  · rw [Machine.set, State.set_zero]

theorem emitAddSubShift_zero : emitAddSubShift rd rn rm t 0 = some [.core (.add rd rn rm)] := rfl

theorem emitAddSubShift_eq (hamount : amount ≠ 0) : emitAddSubShift rd rn rm t amount = some is ↔
    ∃ saved q shifted, shiftedReg rd rn rm = some (saved, q) ∧ emitShift rd rn rm q t amount = some shifted ∧
      is = saved ++ (shifted ++ [.core (.add rd rn rm)]) := by
  rw [emitAddSubShift, if_pos hamount]
  simp only [emitShifted, Option.bind_eq_bind, Option.bind_eq_some_iff, Option.pure_def, Option.some.injEq]
  constructor
  · rintro ⟨_, ⟨⟨saved, q⟩, hreg, shifted, hshift, rfl⟩, rfl⟩
    exact ⟨saved, q, shifted, hreg, hshift, List.append_assoc ..⟩
  · rintro ⟨saved, q, shifted, hreg, hshift, rfl⟩
    exact ⟨_, ⟨(saved, q), hreg, shifted, hshift, rfl⟩, List.append_assoc ..⟩

theorem emitShift_get (ht : t ≠ .ror) {q : Nat} {shifted : List Inst} (h : emitShift rd rn rm q t amount = some shifted) :
    (execAll shifted m).get r =
      (m.set (BitVec.ofNat 5 q) (shift t (m.get (BitVec.ofNat 5 q)) amount.toNat)).get r := by
  cases t with
  | lsl =>
      obtain rfl := Option.some.inj h
      rw [execAll_cons, exec_slli, execAll_nil, Machine.get_next]
      rfl
  | lsr =>
      obtain rfl := Option.some.inj h
      rw [execAll_cons, exec_srli, execAll_nil, Machine.get_next]
      rfl
  | asr =>
      obtain rfl := Option.some.inj h
      rw [execAll_cons, exec_srai, execAll_nil, Machine.get_next]
      rfl
  | ror => exact absurd rfl ht

def Exact (rd rn rm : Reg) (t : ShiftType) (amount : BitVec 6) : Prop :=
  amount = 0 ∨
    rn ≠ rm ∧ (rm = rd ∨ rm = zero) ∧ (t = .ror → rm ≠ sp ∧ TempsFree (rd ||| rn ||| rm))

theorem used_or (rd rn rm : Reg) :
    rd.toNat ||| rn.toNat ||| rm.toNat ||| rm.toNat = (rd ||| rn ||| rm).toNat := by
  rw [Nat.or_assoc _ rm.toNat, Nat.or_self, BitVec.toNat_or, BitVec.toNat_or]

theorem ne_sp {n : Nat} (hlt : n < 31) (hne : n ≠ 2) : BitVec.ofNat 5 n ≠ sp := by
  intro heq
  have hnat := congrArg BitVec.toNat heq
  rw [BitVec.toNat_ofNat, Nat.mod_eq_of_lt (by omega)] at hnat
  exact hne hnat

theorem adds_of_exact (h : Exact rd rn rm t amount) :
    ∃ is, emitAddSubShift rd rn rm t amount = some is ∧ Adds rd rn rm t amount is := by
  by_cases hamount : amount = 0
  · subst hamount
    refine ⟨_, emitAddSubShift_zero, fun m r => ?_⟩
    rw [execAll_cons, execAll_nil, get_add]
    exact congrArg (fun v => (m.set rd (m.get rn + v)).get r) shift_zero_right.symm
  obtain ⟨hne, hrm, htemps⟩ := h.resolve_left hamount
  have hreg : shiftedReg rd rn rm = some ([], rm.toNat) := if_neg hne
  by_cases ht : t = .ror
  · obtain ⟨hsp, hfree⟩ := htemps ht
    subst ht
    have hused := used_or rd rn rm
    obtain ⟨ha, ha2, hb, hb2, hfirst, hsecond⟩ := temps_of_free _ hfree
    rw [← hused] at ha ha2 hb hb2 hfirst hsecond
    obtain ⟨shifted, hshift⟩ := emitRotate_isSome amount hfirst hsecond ha hb
    refine ⟨_, (emitAddSubShift_eq hamount).mpr ⟨_, _, shifted, hreg, hshift, rfl⟩, ?_⟩
    obtain ⟨a, b, saved, restored, hrotation⟩ := emitRotate_some hshift
    obtain rfl := Option.some.inj (hfirst.symm.trans hrotation.first)
    obtain rfl := Option.some.inj (hsecond.symm.trans hrotation.second)
    refine adds_of_shifted (fun m r => ?_) hne hrm
    have hget := @Rotation.get rd rn rm r rm.toNat amount shifted m _ _ saved restored hrotation hamount rm.isLt
      (ne_sp ha ha2) (ne_sp hb hb2)
    rw [ofNat_reg] at hget
    exact hget hsp
  · obtain ⟨shifted, hshift⟩ : ∃ shifted, emitShift rd rn rm rm.toNat t amount = some shifted := by
      cases t with
      | lsl | lsr | asr => exact ⟨_, rfl⟩
      | ror => exact absurd rfl ht
    refine ⟨_, (emitAddSubShift_eq hamount).mpr ⟨_, _, shifted, hreg, hshift, rfl⟩, ?_⟩
    refine adds_of_shifted (fun m r => ?_) hne hrm
    rw [emitShift_get ht hshift, ofNat_reg]

theorem shift_one_ne : ∀ amount : BitVec 6, amount ≠ 0 → shift t (1 : Word) amount.toNat ≠ 1 := by
  cases t <;> decide

theorem rotate_sixteen_ne : ∀ amount : BitVec 6, amount ≠ 0 → (16 : Word).rotateRight amount.toNat ≠ 16 := by decide

def probe (q : Reg) (x : Word) : Machine where
  core := ⟨0, fun r => if r = q then x else if r = sp then 8 else 0, fun _ => 0⟩
  csr _ := 0

theorem probe_get {q : Reg} {x : Word} (hq : q ≠ zero) : (probe q x).get q = x := by
  rw [Machine.get, State.get, if_neg hq]
  exact if_pos rfl

theorem probe_get_of_ne {q : Reg} {x : Word} (hrq : r ≠ q) :
    (probe q x).get r = if r = sp then 8 else 0 := by
  rw [Machine.get, State.get]
  split
  next hr => rw [hr]; rfl
  next hr => exact if_neg hrq

theorem shiftedReg_some {saved : List Inst} {q : Nat} (heq : rn = rm) (h : shiftedReg rd rn rm = some (saved, q)) :
    1 ≤ q ∧ q < 31 ∧ q &&& rd.toNat = 0 ∧ q &&& rm.toNat = 0 ∧
      ∀ x, (execAll saved (probe (BitVec.ofNat 5 q) x)).get (BitVec.ofNat 5 q) = 0 := by
  rw [shiftedReg, if_pos heq] at h
  simp only [Option.bind_eq_bind, Option.bind_eq_some_iff, Option.pure_def, Option.some.injEq, oneShl_eq_some,
    Prod.mk.injEq] at h
  obtain ⟨n, hfind, _, ⟨hlt, rfl⟩, pushed, hpush, hsaved, rfl⟩ := h
  obtain ⟨hpos, hfree⟩ := find_some hfind
  obtain ⟨hfree, hrm⟩ := and_or_eq_zero hfree
  obtain ⟨hrd, -⟩ := and_or_eq_zero hfree
  refine ⟨hpos, hlt, hrd, hrm, fun x => ?_⟩
  have hzero : BitVec.ofNat 5 n ≠ zero := ofNat_ne hpos (by omega) (Nat.and_zero _)
  have hne := ofNat_ne hpos (by omega) hrm
  have hmembers : members ((1 : BitVec 32) <<< n) = [n] := members_eq (by simp) fun k => by
    rw [getLsbD_oneShl hlt]
    simp
  have hroom : room ((1 : BitVec 32) <<< n) = 8 := by
    rw [room, regList_length, hmembers]
    rfl
  rw [← hsaved, execAll_append, execAll_cons, exec_addi, execAll_nil, Machine.get_next, Machine.get_set_self hzero,
    push_get hpush, hroom, probe_get_of_ne hne.symm]
  split
  next hsp =>
    rw [← hsp, probe_get_of_ne hne.symm, if_pos hsp]
    decide
  next => decide

/-- What the copied register holds at the end says nothing about what it held before. -/
theorem shifted_lost {saved shifted : List Inst} {q : Nat} (hamount : amount ≠ 0) (heq : rn = rm)
    (hreg : shiftedReg rd rn rm = some (saved, q)) (hshift : emitShift rd rn rm q t amount = some shifted) :
    ∃ v, ∀ x, (execAll shifted (execAll saved (probe (BitVec.ofNat 5 q) x))).get (BitVec.ofNat 5 q) = v := by
  obtain ⟨hpos, hlt, -, -, hcopy⟩ := shiftedReg_some heq hreg
  have hzero : BitVec.ofNat 5 q ≠ zero := ofNat_ne hpos (by omega) (Nat.and_zero _)
  by_cases ht : t = .ror
  · subst ht
    obtain ⟨a, b, first, restored, hrotation⟩ := emitRotate_some hshift
    by_cases hsp : BitVec.ofNat 5 q = sp
    · refine ⟨(0 - 16 : Word).rotateRight amount.toNat + 16, fun x => ?_⟩
      rw [hrotation.get_reg hamount (by omega) hzero, if_pos hsp, ← hsp, hcopy]
    · refine ⟨(0 : Word).rotateRight amount.toNat, fun x => ?_⟩
      rw [hrotation.get_reg hamount (by omega) hzero, if_neg hsp, hcopy]
  · refine ⟨shift t 0 amount.toNat, fun x => ?_⟩
    rw [emitShift_get ht hshift, Machine.get_set_self hzero, hcopy]

theorem not_adds_of_eq (hamount : amount ≠ 0) (heq : rn = rm) (h : emitAddSubShift rd rn rm t amount = some is) :
    ¬Adds rd rn rm t amount is := by
  intro hadds
  obtain ⟨saved, q, shifted, hreg, hshift, rfl⟩ := (emitAddSubShift_eq hamount).mp h
  obtain ⟨hpos, hlt, hrd, -, -⟩ := shiftedReg_some heq hreg
  obtain ⟨v, hv⟩ := shifted_lost hamount heq hreg hshift
  have hzero : BitVec.ofNat 5 q ≠ zero := ofNat_ne hpos (by omega) (Nat.and_zero _)
  have hqrd : BitVec.ofNat 5 q ≠ rd := ofNat_ne hpos (by omega) hrd
  have hkept := hadds (probe (BitVec.ofNat 5 q) (v + 1)) (BitVec.ofNat 5 q)
  rw [execAll_append, execAll_append, execAll_cons, execAll_nil, get_add, Machine.get_set_of_ne hqrd, hv,
    Machine.get_set_of_ne hqrd, probe_get hzero] at hkept
  exact absurd hkept (by simp)

theorem not_adds_of_kept (hamount : amount ≠ 0) (hne : rn ≠ rm) (hrd : rm ≠ rd) (hzero : rm ≠ zero)
    (h : emitAddSubShift rd rn rm t amount = some is) : ¬Adds rd rn rm t amount is := by
  intro hadds
  obtain ⟨saved, q, shifted, hreg, hshift, rfl⟩ := (emitAddSubShift_eq hamount).mp h
  rw [shiftedReg, if_neg hne, Option.some.injEq, Prod.mk.injEq] at hreg
  obtain ⟨rfl, rfl⟩ := hreg
  have hkept (x : Word) : (execAll shifted (probe rm x)).get rm = x := by
    have hx := hadds (probe rm x) rm
    rwa [List.nil_append, execAll_append, execAll_cons, execAll_nil, get_add, Machine.get_set_of_ne hrd,
      Machine.get_set_of_ne hrd, probe_get hzero] at hx
  by_cases ht : t = .ror
  · subst ht
    obtain ⟨a, b, first, restored, hrotation⟩ := emitRotate_some hshift
    have hget (x : Word) := @Rotation.get_reg rd rn rm rm.toNat amount shifted (probe rm x) _ _ first restored hrotation
      hamount rm.isLt (by rwa [ofNat_reg])
    simp only [ofNat_reg, hkept, probe_get hzero] at hget
    have hone := @shift_one_ne .ror amount hamount
    split at hget
    next hsp =>
      have hval := hget 17
      rw [← hsp, probe_get hzero, show (17 : Word) - 16 = 1 by decide] at hval
      refine hone (add_right_cancel (b := 16) ?_)
      exact hval.symm
    next => exact hone (hget 1).symm
  · have hval := hkept 1
    rw [emitShift_get ht hshift, ofNat_reg, Machine.get_set_self hzero, probe_get hzero] at hval
    exact shift_one_ne amount hamount hval

theorem not_adds_of_sp (hamount : amount ≠ 0) (hne : rn ≠ sp) (h : emitAddSubShift sp rn sp .ror amount = some is) :
    ¬Adds sp rn sp .ror amount is := by
  intro hadds
  obtain ⟨saved, q, shifted, hreg, hshift, rfl⟩ := (emitAddSubShift_eq hamount).mp h
  rw [shiftedReg, if_neg hne, Option.some.injEq, Prod.mk.injEq] at hreg
  obtain ⟨rfl, rfl⟩ := hreg
  obtain ⟨a, b, first, restored, hrotation⟩ := emitRotate_some hshift
  have hsp : sp ≠ zero := by decide
  have hget := @Rotation.get_reg sp rn sp sp.toNat amount shifted (probe sp 16) _ _ first restored hrotation hamount
    sp.isLt hsp
  have hrn : (execAll shifted (probe sp 16)).get rn = (probe sp 16).get rn := by
    refine hrotation.get_of_within ?_ hne hne
    rw [Nat.or_comm sp.toNat, Nat.or_assoc, Nat.or_assoc, Nat.or_comm]
    exact and_or_self_right _ _
  have hval := hadds (probe sp 16) sp
  rw [List.nil_append, execAll_append, execAll_cons, execAll_nil, get_add, Machine.get_set_self hsp,
    Machine.get_set_self hsp, hrn, probe_get hsp] at hval
  rw [ofNat_reg, if_pos rfl, probe_get hsp, show (16 : Word) - 16 = 0 by decide] at hget
  rw [hget] at hval
  have hzero : (0 : Word).rotateRight amount.toNat = 0 := @shift_zero_left 64 .ror amount.toNat
  rw [hzero, zero_add] at hval
  exact rotate_sixteen_ne amount hamount (add_left_cancel hval).symm

theorem not_adds_of_temps (hamount : amount ≠ 0) (hne : rn ≠ rm) (hsp : rm ≠ sp) (hfree : ¬TempsFree (rd ||| rn ||| rm))
    (h : emitAddSubShift rd rn rm .ror amount = some is) : ¬Adds rd rn rm .ror amount is := by
  intro hadds
  obtain ⟨saved, q, shifted, hreg, hshift, rfl⟩ := (emitAddSubShift_eq hamount).mp h
  rw [shiftedReg, if_neg hne, Option.some.injEq, Prod.mk.injEq] at hreg
  obtain ⟨rfl, rfl⟩ := hreg
  obtain ⟨a, b, first, restored, hrotation⟩ := emitRotate_some hshift
  have ha : a = temp (rd ||| rn ||| rm).toNat := by
    rw [temp, ← used_or, hrotation.first, Option.getD_some]
  have hb : b = temp ((rd ||| rn ||| rm).toNat ||| temp (rd ||| rn ||| rm).toNat) := by
    rw [← ha, temp, ← used_or, hrotation.second, Option.getD_some]
  have hlta := hrotation.first_lt
  have hltb := hrotation.second_lt
  obtain ⟨hbit, htemp⟩ | hlarge := temps_of_not_free _ hfree
  · have hrd : sp ≠ rd := by
      rintro rfl
      rw [BitVec.getLsbD_or, BitVec.getLsbD_or, show sp.getLsbD 1 = true from rfl] at hbit
      exact absurd hbit (by simp)
    have hlost := hrotation.get_sp rm.isLt (by rwa [ofNat_reg]) <| by
      rw [ha, hb]
      exact htemp.imp (fun heq => by rw [heq]; rfl) (fun heq => by rw [heq]; rfl)
    have hval := hadds idle sp
    rw [List.nil_append, execAll_append, execAll_cons, execAll_nil, get_add, Machine.get_set_of_ne hrd,
      Machine.get_set_of_ne hrd, hlost] at hval
    exact absurd hval (by decide)
  · omega

theorem exact_of_adds (h : emitAddSubShift rd rn rm t amount = some is) (hadds : Adds rd rn rm t amount is) :
    Exact rd rn rm t amount := by
  by_cases hamount : amount = 0
  · exact Or.inl hamount
  have hne : rn ≠ rm := fun heq => not_adds_of_eq hamount heq h hadds
  have hrm : rm = rd ∨ rm = zero := by
    by_contra hnot
    rw [not_or] at hnot
    exact not_adds_of_kept hamount hne hnot.1 hnot.2 h hadds
  refine Or.inr ⟨hne, hrm, ?_⟩
  rintro rfl
  have hsp : rm ≠ sp := by
    rintro rfl
    obtain rfl := hrm.resolve_right (by decide)
    exact not_adds_of_sp hamount hne h hadds
  refine ⟨hsp, ?_⟩
  by_contra hfree
  exact not_adds_of_temps hamount hne hsp hfree h hadds

/-- The emitter is right exactly where nothing is shifted, or the shifted register is overwritten by the sum and a
rotation finds its temporaries. -/
theorem adds_iff_exact (rd rn rm : Reg) (t : ShiftType) (amount : BitVec 6) :
    (∃ is, emitAddSubShift rd rn rm t amount = some is ∧ Adds rd rn rm t amount is) ↔ Exact rd rn rm t amount :=
  ⟨fun ⟨_, h, hadds⟩ => exact_of_adds h hadds, adds_of_exact⟩

/-- The sum a0 + (a2 << 3) into a0 leaves a2 shifted. -/
theorem shifted_a2_lost : ∃ is, emitAddSubShift 10 11 12 .lsl 3 = some is ∧
    ¬Adds 10 11 12 .lsl 3 is := by
  obtain ⟨is, his⟩ : ∃ is, emitAddSubShift 10 11 12 .lsl 3 = some is := ⟨_, rfl⟩
  exact ⟨is, his, not_adds_of_kept (by decide) (by decide) (by decide) (by decide) his⟩

end Emitted

end Mambo.RvAddSub
