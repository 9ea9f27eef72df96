import Mambo.SafeFcallRuns
import Mambo.T32Emit

namespace Mambo.ArmSafeFcalls

open BitPlacement Bytes ByteMemory WordMemory RegLists
open T32 (Word Reg State sp entry loadRegs regsOf)
open T32Emit (Loads loadRegs_loads loadRegs_mem)
open CallRuns (Machine Routine Goes Sets Saves Links Abides Intact SameStack Silent past)
open SafeFcalls SafeFcallRuns

section Machines

def reg (k : Nat) : Reg := BitVec.ofNat 4 k

/-- The processor in one of its two instruction sets; the lowest bit of an address to jump to chooses between them. -/
def machine {ι : Type} (exec : ι → State → Option State) (calls : ι → Bool) (size : ι → Nat) (thumb : Bool) :
    Machine 32 ι State where
  exec := exec
  calls := calls
  size := size
  place s := (s.pc, s.thumb)
  jump a := (entry a, a.getLsbD 0)
  set := thumb
  general r := r < 15 ∧ r ≠ 13
  get s r := s.r (reg r)
  sp s := s.r sp
  mem := State.mem

def a32Machine : Machine 32 A32.Inst State :=
  machine (fun i s => some (A32.exec i s))
    (fun
      | .b cond _ => cond == 15
      | .bl .. | .blx _ => true
      | _ => false)
    (fun _ => 4) false

def t32Machine : Machine 32 T32Plugin.Inst State :=
  machine T32Plugin.exec
    (fun
      | .bl32 .. | .blArm32 .. | .core (.blx16 _) => true
      | _ => false)
    T32Plugin.Inst.size true

def abi : Abi where
  argument a := a
  function := 4
  clobbers r := r ≤ 4 ∨ r = 14

end Machines

section Registers

variable {r k : Nat} {regs : List Reg} {mask : BitVec 32} {s u v : State}

theorem reg_toNat (hk : k < 16) : (reg k).toNat = k := by
  rw [reg, BitVec.toNat_ofNat, Nat.mod_eq_of_lt hk]

theorem reg_ne (hr : r < 16) (hk : k < 16) (hne : r ≠ k) : reg r ≠ reg k := by
  intro heq
  have hnat := congrArg BitVec.toNat heq
  rw [reg_toNat hr, reg_toNat hk] at hnat
  exact hne hnat

theorem reg_ne_sp (hr : r < 15 ∧ r ≠ 13) : reg r ≠ sp := reg_ne (by omega) (by decide) hr.2

theorem loads_of_words {w : Reg → Word} {m : Word → Byte} {a : Word}
    (h : ∀ i r, regs[i]? = some r → loadWord m (a + BitVec.ofNat 32 (4 * i)) = w r) : Loads w m regs a := by
  induction regs generalizing a with
  | nil => trivial
  | cons r regs ih =>
      refine ⟨?_, ih fun i r' hr' => ?_⟩
      · have hfirst := h 0 r rfl
        rwa [Nat.mul_zero, BitVec.add_zero] at hfirst
      · have hnext := h (i + 1) r' hr'
        rw [Nat.mul_succ, Nat.add_comm, BitVec.ofNat_add, ← add_assoc] at hnext
        exact hnext

/-- The list of registers that a mask stands for. -/
structure Stands (mask : BitVec 32) (regs : List Reg) : Prop where
  mem : ∀ r, r < 16 → (reg r ∈ regs ↔ mask.getLsbD r = true)
  sp : T32.sp ∉ regs
  short : regs.length ≤ 16

theorem below_add (p : Word) (n d : Nat) : p - BitVec.ofNat 32 n + BitVec.ofNat 32 (n + d) = p + BitVec.ofNat 32 d := by
  rw [BitVec.ofNat_add, ← add_assoc, sub_add_cancel]

theorem storeWords_below {m : Word → Byte} {p : Word} {vs : List Word} {d : Nat} (hd : 4 * vs.length + d < 2 ^ 32) :
    storeWords m (p - BitVec.ofNat 32 (4 * vs.length)) vs (p + BitVec.ofNat 32 d) = m (p + BitVec.ofNat 32 d) := by
  refine storeWords_outside (by omega) ?_
  rw [Within, ← below_add p (4 * vs.length) d, add_sub_cancel_left, BitVec.toNat_ofNat, Nat.mod_eq_of_lt hd]
  omega

theorem push_sp : (T32.push regs s).r sp = s.r sp - BitVec.ofNat 32 (4 * regs.length) := by
  rw [T32.push]
  exact State.set_r_self

end Registers

section Stack

variable {ι : Type} {exec : ι → State → Option State} {calls : ι → Bool} {size : ι → Nat} {thumb : Bool} {i j : ι}
  {mask : BitVec 32} {regs : List Reg}

theorem goes_one {s u : State} (hcalls : calls i = false) (hexec : exec i s = some u)
    (hplace : (u.pc, u.thumb) = (s.pc + BitVec.ofNat 32 (size i), s.thumb)) :
    Goes (machine exec calls size thumb) [i] s u where
  silent k hk := by
    rw [List.mem_singleton.mp hk]
    exact hcalls
  exec := by
    show (exec i s).bind some = some u
    rw [hexec, Option.bind_some]
  place := by
    rw [CallRuns.bytes, List.map_singleton, List.sum_singleton]
    exact hplace

theorem saves_one (h : Stands mask regs) (hi : calls i = false) (hj : calls j = false)
    (hpush : ∀ s, exec i s = some ((T32.push regs s).goto (s.pc + BitVec.ofNat 32 (size i))))
    (hpop : ∀ s, exec j s = some ((loadRegs regs (s.r sp)
      (s.set sp (s.r sp + BitVec.ofNat 32 (4 * regs.length)))).goto (s.pc + BitVec.ofNat 32 (size j)))) :
    Saves (machine exec calls size thumb) mask (4 * regs.length) [i] [j] := by
  intro s
  have hshort := h.short
  have hlen : (regs.map s.r).length = regs.length := List.length_map _
  refine ⟨_, goes_one hi (hpush s) rfl, fun r hr => State.set_r_of_ne (reg_ne_sp hr), fun v n hn hv => ?_⟩
  have hsp : v.r sp = s.r sp - BitVec.ofNat 32 (4 * regs.length) := hv.sp.trans push_sp
  have hbytes : ∀ d, d < 4 * regs.length + n → v.mem (s.r sp - BitVec.ofNat 32 (4 * regs.length) + BitVec.ofNat 32 d) =
      storeWords s.mem (s.r sp - BitVec.ofNat 32 (4 * regs.length)) (regs.map s.r)
        (s.r sp - BitVec.ofNat 32 (4 * regs.length) + BitVec.ofNat 32 d) := fun d hd => by
    have hmem := hv.mem d hd
    have hbase : ((T32.push regs s).goto (s.pc + BitVec.ofNat 32 (size i))).r sp =
        s.r sp - BitVec.ofNat 32 (4 * regs.length) := push_sp
    rw [show (machine exec calls size thumb).sp ((T32.push regs s).goto (s.pc + BitVec.ofNat 32 (size i))) =
      s.r sp - BitVec.ofNat 32 (4 * regs.length) from hbase] at hmem
    exact hmem
  have hloads : Loads s.r v.mem regs (v.r sp) := by
    refine loads_of_words fun k r hr => ?_
    have hk := (List.getElem?_eq_some_iff.mp hr).1
    have hword : (regs.map s.r)[k]? = some (s.r r) := by rw [List.getElem?_map, hr, Option.map_some]
    rw [hsp, ← loadWord_storeWords (m := s.mem) (a := s.r sp - BitVec.ofNat 32 (4 * regs.length)) (by omega) hword,
      loadWord, loadWord]
    refine congrArg _ (loadBytes_congr fun d hd => ?_)
    rw [add_assoc, ← BitVec.ofNat_add]
    exact hbytes _ (by omega)
  have hget := loadRegs_loads (s := v.set sp (v.r sp + BitVec.ofNat 32 (4 * regs.length))) hloads
  refine ⟨_, goes_one hj (hpop v) ?_, ⟨?_, fun d hd => ?_⟩, fun r hr => ?_⟩
  · show (_, (loadRegs regs (v.r sp) _).thumb) = _
    rw [T32Emit.loadRegs_thumb]
    rfl
  · show (loadRegs regs (v.r sp) _).r sp = s.r sp
    rw [hget, if_neg h.sp, State.set_r_self, hsp, sub_add_cancel]
  · show (loadRegs regs (v.r sp) _).mem _ = s.mem (s.r sp + BitVec.ofNat 32 d)
    have hmem := hbytes (4 * regs.length + d) (by omega)
    have hbelow : storeWords s.mem (s.r sp - BitVec.ofNat 32 (4 * (regs.map s.r).length)) (regs.map s.r)
        (s.r sp + BitVec.ofNat 32 d) = s.mem (s.r sp + BitVec.ofNat 32 d) := storeWords_below (by omega)
    rw [hlen] at hbelow
    rw [below_add, hbelow] at hmem
    rw [loadRegs_mem]
    exact hmem
  · show (loadRegs regs (v.r sp) _).r (reg r) = if mask.getLsbD r = true then s.r (reg r) else v.r (reg r)
    rw [hget, State.set_r_of_ne (reg_ne_sp hr)]
    by_cases hin : mask.getLsbD r = true
    · rw [if_pos hin, if_pos ((h.mem r (by have := hr.1; omega)).mpr hin)]
    · rw [if_neg hin, if_neg fun hmem => hin ((h.mem r (by have := hr.1; omega)).mp hmem)]

end Stack

section Masks

variable {mask : BitVec 32} {r argno : Nat}

theorem mem_regsOf {x : BitVec 16} (hr : r < 16) : reg r ∈ regsOf x ↔ x.getLsbD r = true := by
  rw [regsOf, List.mem_map]
  constructor
  · rintro ⟨k, hk, heq⟩
    obtain ⟨hlt, hbit⟩ := List.mem_filter.mp hk
    have hnat := congrArg BitVec.toNat heq
    rw [reg_toNat hr, BitVec.toNat_ofNat, Nat.mod_eq_of_lt (List.mem_range.mp hlt)] at hnat
    rw [← hnat]
    exact hbit
  · exact fun hbit => ⟨r, List.mem_filter.mpr ⟨List.mem_range.mpr hr, hbit⟩, rfl⟩

theorem length_regsOf (x : BitVec 16) : (regsOf x).length ≤ 16 := by
  have hle := List.length_filter_le (fun i => x.getLsbD i) (List.range 16)
  rw [List.length_range] at hle
  rwa [regsOf, List.length_map]

theorem notMem_regsOf (hr : r < 16) (h : mask.getLsbD r = false) : reg r ∉ regsOf (mask.setWidth 16) := by
  rw [mem_regsOf hr, BitVec.getLsbD_setWidth, h, Bool.and_false]
  exact Bool.false_ne_true

theorem stands (hsp : mask.getLsbD 13 = false) : Stands mask (regsOf (mask.setWidth 16)) where
  mem r hr := by
    rw [mem_regsOf hr, BitVec.getLsbD_setWidth, decide_eq_true hr, Bool.true_and]
  sp := notMem_regsOf (by decide) hsp
  short := length_regsOf _

theorem toPush_bit (hn : argno ≤ 4) : (armToPush argno).getLsbD r = decide (argno ≤ r ∧ r ≤ 4 ∨ r = 14) := by
  have hall : ∀ n : Fin 5, ∀ r : Fin 32, (armToPush n).getLsbD r = decide (n.val ≤ r ∧ r.val ≤ 4 ∨ r.val = 14) := by decide
  by_cases hr : r < 32
  · exact hall ⟨argno, by omega⟩ ⟨r, hr⟩
  · rw [BitVec.getLsbD_of_ge _ _ (by omega), decide_eq_false (by omega)]

end Masks

section Jumps

variable {p : Word}

theorem entry_even (h : p.toNat % 2 = 0) : entry p = p := by
  apply BitVec.eq_of_toNat_eq
  rw [T32Emit.entry_toNat]
  omega

theorem bit_even (h : p.toNat % 2 = 0) : p.getLsbD 0 = false := by
  rw [BitVec.getLsbD, Nat.testBit_zero, decide_eq_false (by omega)]

theorem add_four_even (h : p.toNat % 2 = 0) : (p + 4).toNat % 2 = 0 := by
  rw [BitVec.toNat_add, show (4 : Word).toNat = 4 from rfl]
  omega

theorem thumb_return (h : p.toNat % 2 = 0) : entry (p + 2 + 1) = p + 2 ∧ (p + 2 + 1).getLsbD 0 = true := by
  have hlt := p.isLt
  have htwo : (p + 2).toNat = (p.toNat + 2) % 2 ^ 32 := BitVec.toNat_add p 2
  have hthree : (p + 2 + 1).toNat = ((p + 2).toNat + 1) % 2 ^ 32 := BitVec.toNat_add (p + 2) 1
  constructor
  · apply BitVec.eq_of_toNat_eq
    rw [T32Emit.entry_toNat]
    omega
  · rw [BitVec.getLsbD, Nat.testBit_zero, decide_eq_true_eq]
    omega

end Jumps

section Arm

variable {s : State} {mask : BitVec 32} {value : Word}

theorem saves_arm (hsp : mask.getLsbD 13 = false) (hpc : mask.getLsbD 15 = false) :
    Saves a32Machine mask (4 * (regsOf (mask.setWidth 16)).length) [.push (mask.setWidth 16)] [.pop (mask.setWidth 16) 1] := by
  refine saves_one (stands hsp) rfl rfl (fun s => rfl) fun s => congrArg some ?_
  rw [A32.exec, T32.ldm, if_pos ⟨rfl, notMem_regsOf (by decide) hsp⟩,
    T32Emit.loadMultiple_straight (notMem_regsOf (by decide) hpc)]
  rfl

theorem movw_value (value : Word) : A32.imm16 ((value >>> 12).setWidth 4) (value.setWidth 12) = value.setWidth 16 := by
  rw [A32.imm16]
  revert value
  exact Bitwise.ext (by fun_prop) (by fun_prop) (by decide)

theorem movt_value (value : Word) :
    A32.imm16 ((value >>> 28).setWidth 4) ((value >>> 16).setWidth 12) = (value >>> 16).setWidth 16 := by
  have hshift : value >>> 28 = (value >>> 16) >>> 12 := by rw [← BitVec.shiftRight_add]
  rw [hshift, movw_value]

theorem small_value (h : value ≤ 0xFFFF) : (value.setWidth 16).setWidth 32 = value := by
  apply BitVec.eq_of_toNat_eq
  have hle : value.toNat ≤ 0xFFFF := h
  rw [BitVec.toNat_setWidth, BitVec.toNat_setWidth]
  omega

theorem halves_value (value : Word) :
    (value >>> 16).setWidth 16 ++ ((value.setWidth 16).setWidth 32).extractLsb' 0 16 = value := by
  apply BitVec.eq_of_getLsbD_eq
  intro i hi
  rw [BitVec.getLsbD_append, BitVec.getLsbD_setWidth, BitVec.getLsbD_ushiftRight, BitVec.getLsbD_extractLsb',
    BitVec.getLsbD_setWidth, BitVec.getLsbD_setWidth]
  by_cases hlow : i < 16
  · simp [hlow]
    omega
  · have hsum : 16 + (i - 16) = i := by omega
    have hlt : i - 16 < 16 := by omega
    simp [hlow, hsum, hlt]

theorem execAll_arm (is : List A32.Inst) (s : State) : CallRuns.execAll a32Machine is s = some (A32.execAll is s) := by
  induction is generalizing s with
  | nil => rfl
  | cons i is ih => exact ih (A32.exec i s)

theorem copy_exec {rd : Reg} (hrd : rd ≠ T32.pc) : A32.execAll (armCopyToReg32bit rd value) s =
    (s.set rd value).goto (s.pc + BitVec.ofNat 32 (4 * (armCopyToReg32bit rd value).length)) := by
  have hmovw (rest : List A32.Inst) :
      A32.execAll (.movw rd ((value >>> 12).setWidth 4) (value.setWidth 12) :: rest) s =
        A32.execAll rest ((s.set rd ((value.setWidth 16).setWidth 32)).goto (s.pc + 4)) := by
    rw [A32.execAll_cons, A32.exec, movw_value]
    rfl
  rw [armCopyToReg32bit]
  split
  next hsmall =>
    rw [hmovw, A32.execAll_nil, small_value hsmall]
    rfl
  next =>
    rw [hmovw, A32.execAll_cons, A32.execAll_nil, A32.exec, movt_value, A32.get_of_ne hrd, State.goto_r,
      State.set_r_self, halves_value, State.set_goto, State.set_set, A32.next, State.goto_goto, State.goto_pc, add_assoc]
    rfl

theorem sets_arm {k : Nat} (hk : k < 15 ∧ k ≠ 13) (value : Word) : Sets a32Machine k value (a32.setReg k value) := by
  intro s
  have hne : reg k ≠ reg 15 := reg_ne (by omega) (by decide) (by omega)
  have hexec : A32.execAll (armCopyToReg32bit (reg k) value) s =
      (s.set (reg k) value).goto (s.pc + BitVec.ofNat 32 (4 * (armCopyToReg32bit (reg k) value).length)) := copy_exec hne
  have hsilent : Silent a32Machine (armCopyToReg32bit (reg k) value) := by
    rw [armCopyToReg32bit]
    intro i hi
    split at hi
    · rw [List.mem_singleton.mp hi]
      rfl
    · rcases List.mem_pair.mp hi with rfl | rfl <;> rfl
  refine ⟨(s.set (reg k) value).goto (s.pc + BitVec.ofNat 32 (4 * (armCopyToReg32bit (reg k) value).length)),
    ⟨hsilent, (execAll_arm _ s).trans (congrArg some hexec), ?_⟩, State.set_r_self,
    fun r hr hrk => State.set_r_of_ne (reg_ne (by have := hr.1; omega) (by omega) hrk),
    ⟨State.set_r_of_ne (reg_ne_sp hk).symm, rfl⟩⟩
  have hbytes : CallRuns.bytes a32Machine (a32.setReg k value) = 4 * (armCopyToReg32bit (reg k) value).length := by
    show ((armCopyToReg32bit (reg k) value).map fun _ => 4).sum = _
    simp [Nat.mul_comm]
  rw [hbytes]
  rfl

theorem links_arm : Links a32Machine 14 (.blx T32.lr) := by
  refine ⟨rfl, fun s hs => ⟨_, rfl, rfl, ?_, fun r hr hne => ?_, ?_, rfl⟩⟩
  · have heven : (s.pc + 4).toNat % 2 = 0 := add_four_even hs.1
    show (entry ((s.set T32.lr (s.pc + 4)).r T32.lr), ((s.set T32.lr (s.pc + 4)).r T32.lr).getLsbD 0) = (s.pc + 4, s.thumb)
    rw [State.set_r_self, entry_even heven, bit_even heven]
    exact congrArg (Prod.mk _) hs.2.symm
  · exact State.set_r_of_ne (reg_ne (by have := hr.1; omega) (by decide) hne)
  · show (s.set T32.lr (s.pc + 4)).r sp = s.r sp
    exact State.set_r_of_ne (by decide)

end Arm

section Thumb

variable {s : State} {mask : BitVec 32} {value : Word} {argno : Nat}

theorem perform_push16 {reg : BitVec 9} {regs : List Reg} (hregs : T32.regs16 T32.lr reg = regs) (s : State) :
    T32Plugin.exec (.core (.push16 reg)) s = some ((T32.push regs s).goto (s.pc + BitVec.ofNat 32 2)) := by
  rw [T32Plugin.exec, T32.perform, hregs]
  rfl

theorem perform_pop16 {reg : BitVec 9} {regs : List Reg} (hregs : T32.regs16 T32.pc reg = regs) (hpc : T32.pc ∉ regs)
    (s : State) : T32Plugin.exec (.core (.pop16 reg)) s = some ((loadRegs regs (s.r sp)
      (s.set sp (s.r sp + BitVec.ofNat 32 (4 * regs.length)))).goto (s.pc + BitVec.ofNat 32 2)) := by
  rw [T32Plugin.exec, T32.perform, hregs]
  exact congrArg some (T32Emit.loadMultiple_straight hpc _ _ _)

theorem perform_ldmfd {reglist : BitVec 16} {regs : List Reg} (hregs : regsOf reglist = regs) (hsp : sp ∉ regs)
    (hpc : T32.pc ∉ regs) (s : State) : T32Plugin.exec (.core (.ldmfd32 1 sp reglist)) s = some ((loadRegs regs (s.r sp)
      (s.set sp (s.r sp + BitVec.ofNat 32 (4 * regs.length)))).goto (s.pc + BitVec.ofNat 32 4)) :=
  congrArg some (T32Emit.perform_ldmfd hregs (by decide) hsp hpc s)

theorem saves_reglist : ∀ n : Fin 5, n ≠ 0 → ∃ is js, thumbPushRegs (reglist n) = some is ∧
    thumbPopRegs (reglist n) = some js ∧
    Saves t32Machine (reglist n) (4 * (regsOf ((reglist n).setWidth 16)).length) is js := by
  have hshape : ∀ n : Fin 5, n ≠ 0 → thumbPushRegs (reglist n) = some [.core (.push16 ((reglist n).setWidth 9))] ∧
      thumbPopRegs (reglist n) = some [.core (.pop16 ((reglist n).setWidth 9))] := by decide
  have hregs : ∀ n : Fin 5, T32.regs16 T32.lr ((reglist n).setWidth 9) = regsOf ((reglist n).setWidth 16) ∧
      T32.regs16 T32.pc ((reglist n).setWidth 9) = regsOf ((reglist n).setWidth 16) := by decide
  have hsp : ∀ n : Fin 5, (reglist n).getLsbD 13 = false ∧ (reglist n).getLsbD 15 = false := by decide
  intro n hn
  exact ⟨_, _, (hshape n hn).1, (hshape n hn).2, saves_one (stands (hsp n).1) rfl rfl (perform_push16 (hregs n).1)
    (perform_pop16 (hregs n).2 (notMem_regsOf (by decide) (hsp n).2))⟩

theorem saves_toPush : ∀ n : Fin 5, ∃ is js, thumbPushRegs (armToPush n) = some is ∧ thumbPopRegs (armToPush n) = some js ∧
    Saves t32Machine (armToPush n) (4 * (regsOf ((armToPush n).setWidth 16)).length) is js := by
  have hshape : ∀ n : Fin 5,
      thumbPushRegs (armToPush n) = some [.core (.push16 ((armToPush n &&& 0xFF ||| 1 <<< 8).setWidth 9))] ∧
        thumbPopRegs (armToPush n) = some [.core (.ldmfd32 1 sp ((armToPush n).setWidth 16))] := by decide
  have hregs : ∀ n : Fin 5, T32.regs16 T32.lr ((armToPush n &&& 0xFF ||| 1 <<< 8).setWidth 9) =
      regsOf ((armToPush n).setWidth 16) := by decide
  have hsp : ∀ n : Fin 5, (armToPush n).getLsbD 13 = false ∧ (armToPush n).getLsbD 15 = false := by decide
  intro n
  exact ⟨_, _, (hshape n).1, (hshape n).2, saves_one (stands (hsp n).1) rfl rfl (perform_push16 (hregs n))
    (perform_ldmfd rfl (notMem_regsOf (by decide) (hsp n).1) (notMem_regsOf (by decide) (hsp n).2))⟩

theorem movw_thumb (value : Word) :
    T32.imm16 (value.extractLsb' 11 1) (value.extractLsb' 12 4) (value.extractLsb' 8 3) (value.extractLsb' 0 8) =
      value.setWidth 16 := by
  rw [T32.imm16]
  revert value
  exact Bitwise.ext (by fun_prop) (by fun_prop) (by decide)

theorem execAll_thumb (is : List T32.Inst) (s : State) :
    CallRuns.execAll t32Machine (is.map .core) s = some (T32Emit.performAll is s) := by
  induction is generalizing s with
  | nil => rfl
  | cons i is ih => exact ih (T32.perform i s)

theorem sets_thumb {k : Nat} (hk : k < 15 ∧ k ≠ 13) (value : Word) : Sets t32Machine k value (t32.setReg k value) := by
  intro s
  have hne : reg k ≠ reg 15 := reg_ne (by omega) (by decide) (by omega)
  have hset (n : Word) : ∀ r, t32Machine.general r → r ≠ k → ((s.set (reg k) value).goto n).r (reg r) = s.r (reg r) :=
    fun r hr hrk => State.set_r_of_ne (reg_ne (by have := hr.1; omega) (by omega) hrk)
  have hsp (n : Word) : SameStack t32Machine s ((s.set (reg k) value).goto n) :=
    ⟨State.set_r_of_ne (reg_ne_sp hk).symm, rfl⟩
  show ∃ u, Goes t32Machine (thumbCopyToReg32bit (reg k) value) s u ∧ _
  rw [thumbCopyToReg32bit]
  split
  next hsmall =>
    refine ⟨(s.set (reg k) value).goto (s.pc + 4), ⟨?_, ?_, rfl⟩, State.set_r_self, hset (s.pc + 4), hsp (s.pc + 4)⟩
    · intro i hi
      rw [List.mem_singleton.mp hi]
      rfl
    · show some ((s.set (reg k) _).goto (s.pc + 4)) = _
      rw [movw_thumb, small_value hsmall]
  next =>
    refine ⟨(s.set (reg k) value).goto (CodeCells.past s.pc 8), ⟨?_, ?_, rfl⟩, State.set_r_self, hset (CodeCells.past s.pc 8),
      hsp (CodeCells.past s.pc 8)⟩
    · intro i hi
      obtain ⟨j, hj, rfl⟩ := List.mem_map.mp hi
      rcases List.mem_pair.mp hj with rfl | rfl <;> rfl
    · rw [execAll_thumb, T32Emit.performAll_copy hne]

theorem links_thumb : Links t32Machine 14 (.core (.blx16 T32.lr)) := by
  refine ⟨rfl, fun s hs => ⟨_, rfl, ?_, ?_, fun r hr hne => ?_, ?_, rfl⟩⟩
  · show (entry (s.get T32.lr), (s.get T32.lr).getLsbD 0) = _
    rw [State.get_of_ne (by decide)]
    rfl
  · have heven : s.pc.toNat % 2 = 0 := hs.1
    show (entry ((s.set T32.lr (s.pc + 2 + 1)).r T32.lr), ((s.set T32.lr (s.pc + 2 + 1)).r T32.lr).getLsbD 0) =
      (s.pc + 2, s.thumb)
    rw [State.set_r_self, (thumb_return heven).1, (thumb_return heven).2]
    exact congrArg (Prod.mk _) hs.2.symm
  · exact State.set_r_of_ne (reg_ne (by have := hr.1; omega) (by decide) hne)
  · show (s.set T32.lr (s.pc + 2 + 1)).r sp = s.r sp
    exact State.set_r_of_ne (by decide)

end Thumb

section Calls

variable {start tramp fptr site : Word} {args : Nat → Word} {argno : Nat}

def standing (start : Word) (thumb : Bool) : State :=
  ⟨start, thumb, fun _ => 0, ⟨false, false, false, false⟩, 0, fun _ => 0⟩

def routine (tramp : Word) : Routine 32 State where
  entry := tramp
  run u := T32.bxTo (u.r T32.lr) u

variable {ι : Type} {exec : ι → State → Option State} {calls : ι → Bool} {size : ι → Nat} {thumb : Bool}

theorem routine_abides : Abides (machine exec calls size thumb) (routine tramp) 14 abi.clobbers frame where
  returns _ _ := rfl
  keeps _ _ _ _ _ := rfl
  stack _ _ := ⟨rfl, fun _ _ => rfl⟩

theorem convention (heven : ∀ i, size i % 2 = 0) (hn : argno ≤ 4) :
    CallRuns.Convention (machine exec calls size thumb) (reglist argno) (armToPush argno) 4 14 argno abi.clobbers where
  even := heven
  general r hr := show r < 15 ∧ r ≠ 13 by omega
  ne := by decide
  outer r := reglist_bit (by omega)
  args r hr := by rw [toPush_bit hn, decide_eq_false (by omega)]
  f := by rw [toPush_bit hn, decide_eq_true (by omega)]
  lr := by rw [toPush_bit hn, decide_eq_true (by omega)]
  clobbers r hr := by
    have hr : r ≤ 4 ∨ r = 14 := hr
    rw [toPush_bit hn, decide_eq_true_eq]
    omega

theorem room_le (x : BitVec 16) : 2 * (4 * (regsOf x).length) ≤ frame := by
  have hle := length_regsOf x
  rw [frame]
  omega

theorem pop_a32 {mask : BitVec 32} (hsp : mask.getLsbD 13 = false) :
    a32.pop mask = some [.pop (mask.setWidth 16) 1] := by
  show some [A32.Inst.pop (mask.setWidth 16) (if mask.getLsbD 13 then 0 else 1)] = _
  rw [hsp, if_neg Bool.false_ne_true]

theorem lawful_a32 (hn : argno ≤ 4) : Lawful a32 a32Machine abi argno where
  few := hn
  convention := convention (fun _ => show 4 % 2 = 0 from rfl) hn
  outer := by
    have hbits : ∀ n : Fin 5, (reglist n).getLsbD 13 = false ∧ (reglist n).getLsbD 15 = false := by decide
    have hreg := hbits ⟨argno, by omega⟩
    by_cases h0 : argno = 0
    · subst h0
      exact ⟨0, [], [], rfl, rfl, saves_nil, by decide⟩
    · rw [outerPush, outerPop, if_neg h0, if_neg h0]
      exact ⟨_, _, _, rfl, pop_a32 hreg.1, saves_arm hreg.1 hreg.2, room_le _⟩
  inner := by
    have hsp : (armToPush argno).getLsbD 13 = false := by rw [toPush_bit hn, decide_eq_false (by omega)]
    have hpc : (armToPush argno).getLsbD 15 = false := by rw [toPush_bit hn, decide_eq_false (by omega)]
    exact ⟨_, _, _, rfl, pop_a32 hsp, saves_arm hsp hpc, room_le _⟩
  sets r hr v := sets_arm (by rcases hr with hr | rfl | rfl <;> [omega; decide; decide]) v
  links := links_arm
  arguments _ _ := rfl
  function := rfl
  width := by decide

theorem size_even (i : T32Plugin.Inst) : i.size % 2 = 0 := by
  cases i with
  | core i =>
      show i.size % 2 = 0
      rcases T32.size_eq i with h | h <;> rw [h]
  | _ =>
      show 4 % 2 = 0
      rfl

theorem lawful_t32 (hn : argno ≤ 4) : Lawful t32 t32Machine abi argno where
  few := hn
  convention := convention size_even hn
  outer := by
    by_cases h0 : argno = 0
    · subst h0
      exact ⟨0, [], [], rfl, rfl, saves_nil, by decide⟩
    · obtain ⟨is, js, his, hjs, hsaves⟩ := saves_reglist ⟨argno, by omega⟩ fun h => h0 (congrArg Fin.val h)
      rw [outerPush, outerPop, if_neg h0, if_neg h0]
      exact ⟨_, is, js, his, hjs, hsaves, room_le _⟩
  inner := by
    obtain ⟨is, js, his, hjs, hsaves⟩ := saves_toPush ⟨argno, by omega⟩
    exact ⟨_, is, js, his, hjs, hsaves, room_le _⟩
  sets r hr v := sets_thumb (by rcases hr with hr | rfl | rfl <;> [omega; decide; decide]) v
  links := links_thumb
  arguments _ _ := rfl
  function := rfl
  width := by decide

theorem branchLink_a32 : (∃ r, a32.branchLink site tramp = some r ∧ r.ret ≠ 0) ↔
    tramp.getLsbD 0 = true ∨ ¬BranchEmitters.Within BranchEmitters.A32.reach 4 (entry tramp - site - 8).toInt := by
  have hlink : a32.branchLink site tramp = BranchEmitters.A32.emitBranchCondAt site tramp BranchEmitters.AL true := rfl
  rw [hlink, BranchEmitters.A32.emitBranchCondAt, if_neg (by decide), BranchEmitters.Within, BranchEmitters.A32.reach]
  by_cases hthumb : tramp.getLsbD 0 = true
  · rw [if_pos hthumb]
    exact iff_of_true ⟨_, rfl, by decide⟩ (Or.inl hthumb)
  · rw [if_neg hthumb]
    by_cases hfar : (entry tramp - site - 8).toInt < -33554432 ∨ (entry tramp - site - 8).toInt > 33554428
    · rw [if_pos hfar]
      exact iff_of_true ⟨_, rfl, by decide⟩ (Or.inr (by omega))
    · rw [if_neg hfar]
      refine iff_of_false ?_ (not_or.mpr ⟨hthumb, by omega⟩)
      rintro ⟨r, hr, hret⟩
      obtain ⟨i, -, rfl⟩ := Option.map_eq_some_iff.mp hr
      exact hret rfl

theorem branchLink_t32 : (∃ r, t32.branchLink site tramp = some r ∧ r.ret ≠ 0) ↔
    ¬BranchEmitters.Within (BranchEmitters.T32.reach BranchEmitters.AL) 2 (BranchEmitters.T32.diff site tramp).toInt := by
  have hlink : t32.branchLink site tramp = BranchEmitters.T32.emitBranchCondAt site tramp BranchEmitters.AL true := rfl
  rw [hlink, BranchEmitters.T32.emitBranchCondAt, if_neg (by decide), if_pos rfl, BranchEmitters.Within,
    BranchEmitters.T32.reach, if_pos rfl]
  by_cases hfar : (BranchEmitters.T32.diff site tramp).toInt < -16777216 ∨
      (BranchEmitters.T32.diff site tramp).toInt > 16777214
  · rw [if_pos hfar]
    exact iff_of_true ⟨_, rfl, by decide⟩ (by omega)
  · rw [if_neg hfar]
    refine iff_of_false ?_ (by omega)
    rintro ⟨r, hr, hret⟩
    obtain ⟨i, -, rfl⟩ := Option.map_eq_some_iff.mp hr
    exact hret rfl

theorem safe_iff_far_a32 (hn : argno ≤ 4) (heven : start.toNat % 2 = 0) :
    Safe a32 a32Machine abi start tramp fptr argno args ↔ tramp.getLsbD 0 = true ∨
      ¬BranchEmitters.Within BranchEmitters.A32.reach 4 (entry tramp - callSite a32 start fptr argno args - 8).toInt :=
  (safe_iff (R := routine tramp) (s := standing start false) (lawful_a32 hn) ⟨heven, rfl⟩ rfl rfl routine_abides).trans
    branchLink_a32

theorem safe_iff_far_t32 (hn : argno ≤ 4) (heven : start.toNat % 2 = 0) :
    Safe t32 t32Machine abi start tramp fptr argno args ↔
      ¬BranchEmitters.Within (BranchEmitters.T32.reach BranchEmitters.AL) 2
        (BranchEmitters.T32.diff (callSite t32 start fptr argno args) tramp).toInt :=
  (safe_iff (R := routine tramp) (s := standing start true) (lawful_t32 hn) ⟨heven, rfl⟩ rfl rfl routine_abides).trans
    branchLink_t32

end Calls

end Mambo.ArmSafeFcalls
