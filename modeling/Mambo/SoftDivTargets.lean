import Mambo.SoftDivExact

namespace Mambo.SoftDivTargets

open SafeFcalls SoftDiv SoftDivRuns SoftDivExact
open ArmSafeFcalls (reg a32Machine t32Machine)
open CallRuns (Machine Routine Goes Puts Sets Saves Links SameStack)
open SafeFcallRuns (frame)
open T32 (Word Reg Flags State)

section Lifting

variable {ι : Type} {M : Machine 32 ι State} {rest : BitVec 28} {is js : List ι} {i : ι} {s u : State} {r room : Nat}
  {mask : BitVec 32} {value : State → Word}

def KeepsFlags (M : Machine 32 ι State) (is : List ι) : Prop := ∀ i ∈ is, ∀ s t, M.exec i s = some t → t.flags = s.flags

theorem KeepsFlags.execAll (h : KeepsFlags M is) (hexec : CallRuns.execAll M is s = some u) : u.flags = s.flags := by
  induction is generalizing s with
  | nil => rw [Option.some.inj hexec]
  | cons i is ih =>
      obtain ⟨t, ht, hrest⟩ := Option.bind_eq_some_iff.mp hexec
      rw [ih (fun j hj => h j (List.mem_cons_of_mem i hj)) hrest, h i List.mem_cons_self s t ht]

theorem execAll_helper (is : List ι) (s : State) :
    CallRuns.execAll (withStatus M rest) (is.map .helper) s = CallRuns.execAll M is s := by
  induction is generalizing s with
  | nil => rfl
  | cons i is ih =>
      show (M.exec i s).bind _ = (M.exec i s).bind _
      congr 1
      funext t
      exact ih t

theorem goes_helper (h : Goes M is s u) : Goes (withStatus M rest) (is.map .helper) s u where
  silent i hi := by
    obtain ⟨j, hj, rfl⟩ := List.mem_map.mp hi
    exact h.silent j hj
  exec := (execAll_helper is s).trans h.exec
  place := by
    have hbytes : CallRuns.bytes (withStatus M rest) (is.map .helper) = CallRuns.bytes M is := by
      rw [CallRuns.bytes, CallRuns.bytes, List.map_map]
      rfl
    rw [hbytes]
    exact h.place

theorem get_general (hgeneral : ¬M.general statusReg) (hr : M.general r) (s : State) :
    (withStatus M rest).get s r = M.get s r := by
  have hne : r ≠ statusReg := fun heq => hgeneral (heq ▸ hr)
  exact if_neg hne

theorem get_status (s : State) : (withStatus M rest).get s statusReg = cpsr s.flags 0 := by
  show (if statusReg = statusReg then cpsr s.flags 0 else M.get s statusReg) = _
  exact if_pos rfl

theorem puts_helper (hgeneral : ¬M.general statusReg) (hr : M.general r) (hkeeps : KeepsFlags M is) (h : Puts M r value is) :
    Puts (withStatus M rest) r value (is.map .helper) := by
  intro s
  obtain ⟨u, hgoes, hvalue, hothers, hstack⟩ := h s
  refine ⟨u, goes_helper hgoes, (get_general hgeneral hr u).trans hvalue, fun r' hr' hne => ?_, hstack.sp, hstack.mem⟩
  rcases hr' with hr' | rfl
  · rw [get_general hgeneral hr', get_general hgeneral hr', hothers r' hr' hne]
  · rw [get_status, get_status, hkeeps.execAll hgoes.exec]

theorem saves_helper (hgeneral : ¬M.general statusReg) (hmask : mask.getLsbD statusReg = false) (his : KeepsFlags M is)
    (hjs : KeepsFlags M js) (h : Saves M mask room is js) :
    Saves (withStatus M rest) mask room (is.map .helper) (js.map .helper) := by
  intro s
  obtain ⟨u, hgoes, hsame, hload⟩ := h s
  refine ⟨u, goes_helper hgoes, fun r hr => ?_, fun v n hn hv => ?_⟩
  · rcases hr with hr | rfl
    · rw [get_general hgeneral hr, get_general hgeneral hr, hsame r hr]
    · rw [get_status, get_status, his.execAll hgoes.exec]
  · obtain ⟨t, hgoes', hintact, hregs⟩ := hload v n hn ⟨hv.sp, hv.mem⟩
    refine ⟨t, goes_helper hgoes', ⟨hintact.sp, hintact.mem⟩, fun r hr => ?_⟩
    rcases hr with hr | rfl
    · rw [get_general hgeneral hr, get_general hgeneral hr, get_general hgeneral hr, hregs r hr]
    · rw [get_status, get_status, hmask, if_neg Bool.false_ne_true, get_status, hjs.execAll hgoes'.exec]

theorem links_helper (hgeneral : ¬M.general statusReg) (hr : M.general r) (hkeeps : KeepsFlags M [i]) (h : Links M r i) :
    Links (withStatus M rest) r (.helper i) := by
  refine ⟨h.1, fun s hs => ?_⟩
  obtain ⟨u, hexec, hplace, hback, hothers, hstack⟩ := h.2 s hs
  refine ⟨u, hexec, ?_, ?_, fun r' hr' hne => ?_, hstack.sp, hstack.mem⟩
  · rw [get_general hgeneral hr]
    exact hplace
  · rw [get_general hgeneral hr]
    exact hback
  · rcases hr' with hr' | rfl
    · rw [get_general hgeneral hr', get_general hgeneral hr', hothers r' hr' hne]
    · rw [get_status, get_status, hkeeps i List.mem_cons_self s u hexec]

end Lifting

section Flags

variable {s : State}

theorem loadRegs_flags (regs : List Reg) (a : Word) : (T32.loadRegs regs a s).flags = s.flags := by
  induction regs generalizing a s with
  | nil => rfl
  | cons r regs ih =>
      rw [T32.loadRegs, ih]
      rfl

theorem loadMultiple_flags (regs : List Reg) (base next : Word) : (T32.loadMultiple regs base next s).flags = s.flags := by
  rw [T32.loadMultiple]
  split
  · exact loadRegs_flags regs base
  · exact loadRegs_flags regs base

theorem ldm_flags (writeback : BitVec 1) (rn : Reg) (regs : List Reg) (base result next : Word) :
    (T32.ldm writeback rn regs base result next s).flags = s.flags := by
  rw [T32.ldm, loadMultiple_flags]
  split <;> rfl

theorem exec_flags (i : A32.Inst) (s : State) : (A32.exec i s).flags = s.flags := by
  have hwrite (rd : Reg) (v : Word) : (A32.write rd v s).flags = s.flags := by
    rw [A32.write]
    split <;> rfl
  cases i with
  | addI | subI | add | sub | mov => exact hwrite _ _
  | movw | movt | blx | push => rfl
  | b cond offset =>
      rw [A32.exec]
      repeat' split
      all_goals rfl
  | bl cond offset =>
      rw [A32.exec]
      repeat' split
      all_goals rfl
  | pop registers writeback => exact ldm_flags ..

theorem keeps_arm (is : List A32.Inst) : KeepsFlags a32Machine is := fun i _ s t h => by
  rw [← Option.some.inj h]
  exact exec_flags i s

end Flags

section Arm

variable {rest : BitVec 28} {rd rm : Nat}

theorem status_arm : ¬a32Machine.general statusReg := fun h => absurd h.1 (by decide)

theorem shiftedReg_plain (r : Reg) (hr : r ≠ T32.pc) (s : State) : A32.shiftedReg (r.setWidth 12) s = s.r r := by
  have hfields : ∀ r : Reg, (r.setWidth 12 : BitVec 12).extractLsb' 5 2 = 0 ∧ (r.setWidth 12 : BitVec 12).extractLsb' 7 5 = 0 ∧
      (r.setWidth 12 : BitVec 12).extractLsb' 0 4 = r := by decide
  obtain ⟨htype, hshift, hreg⟩ := hfields r
  rw [A32.shiftedReg, htype, hshift, hreg, A32.shiftImm_zero, A32.get_of_ne hr]

theorem puts_arm (hrd : rd < 15 ∧ rd ≠ 13) (hrm : rm < 15) :
    Puts a32Machine rd (fun s => s.r (reg rm)) [arm.mov rd rm] := by
  intro s
  have hne {r : Nat} (hr : r < 15) : reg r ≠ T32.pc := ArmSafeFcalls.reg_ne (k := 15) (by omega) (by decide) (by omega)
  have hexec : A32.exec (arm.mov rd rm) s = A32.next (s.set (reg rd) (s.r (reg rm))) := by
    show A32.write (reg rd) (A32.shiftedReg ((reg rm).setWidth 12) s) s = _
    rw [shiftedReg_plain _ (hne hrm), A32.write_of_ne (hne hrd.1)]
  refine ⟨A32.next (s.set (reg rd) (s.r (reg rm))), ArmSafeFcalls.goes_one rfl (congrArg some hexec) rfl, State.set_r_self,
    fun r hr hrd' => State.set_r_of_ne (ArmSafeFcalls.reg_ne (by have := hr.1; omega) (by omega) hrd'),
    State.set_r_of_ne (ArmSafeFcalls.reg_ne_sp hrd).symm, rfl⟩

theorem room_le (x : BitVec 16) : 4 * (T32.regsOf x).length ≤ frame := by
  have hle := ArmSafeFcalls.length_regsOf x
  rw [frame]
  omega

theorem saved_bits {sr : Nat} (hsr : 4 ≤ sr ∧ sr ≤ 7) (rd : Nat) : (saved sr rd).getLsbD 13 = false ∧
    (saved sr rd).getLsbD 15 = false ∧ (saved sr rd).getLsbD statusReg = false := by
  rw [saved_bit (by omega), saved_bit (by omega), saved_bit (by omega), statusReg]
  exact ⟨decide_eq_false (by omega), decide_eq_false (by omega), decide_eq_false (by omega)⟩

theorem lawful_arm (rest : BitVec 28) : Lawful arm rest where
  grain := .inr rfl
  sizes _ := (by decide : 4 % 4 = 0 ∧ 4 ≤ 4)
  size := rfl
  place _ := rfl
  general _ := Iff.rfl
  get _ _ := rfl
  sp _ := rfl
  mem := rfl
  jump _ := rfl
  lr := rfl
  saves sr rd hsr _ := by
    obtain ⟨hsp, hpc, hstatus⟩ := saved_bits hsr rd
    refine ⟨_, [.push ((saved sr rd).setWidth 16)], [.pop ((saved sr rd).setWidth 16) 1], rfl, ?_, rfl, rfl, room_le _,
      saves_helper status_arm hstatus (keeps_arm _) (keeps_arm _) (ArmSafeFcalls.saves_arm hsp hpc)⟩
    show some [A32.Inst.pop _ (if (saved sr rd).getLsbD 13 then 0 else 1)] = _
    rw [hsp, if_neg Bool.false_ne_true]
  puts rd rm hrd hrm := puts_helper status_arm hrd (keeps_arm _) (puts_arm hrd hrm)
  sets v := puts_helper status_arm (show 14 < 15 ∧ 14 ≠ 13 by decide) (keeps_arm _)
    (ArmSafeFcalls.sets_arm (show 14 < 15 ∧ 14 ≠ 13 by decide) v)
  short v := by
    show (armCopyToReg32bit _ v).length ≤ 2
    rw [armCopyToReg32bit]
    split <;> simp
  links := links_helper status_arm (show 14 < 15 ∧ 14 ≠ 13 by decide) (keeps_arm _) ArmSafeFcalls.links_arm
  branch write n cond hcond hwrite hn hle := by
    have halt : cond ≠ BranchEmitters.ALT := fun heq => by
      rw [heq] at hcond
      exact absurd hcond (by decide)
    have hn : n % 4 = 0 := hn
    have hdistance : write + BitVec.ofNat 32 4 + BitVec.ofNat 32 n - write - 8 = BitVec.ofNat 32 n - 4 := by bv_omega
    have hint : (BitVec.ofNat 32 n - 4).toInt = n - 4 := by
      rw [BitVec.toInt_eq_toNat_cond, BitVec.toNat_sub, BitVec.toNat_ofNat, show (4 : Word).toNat = 4 from rfl]
      split <;> omega
    have htarget : write + BitVec.ofNat 32 4 + BitVec.ofNat 32 n &&& 3 = 0 := by
      rw [BranchTargets.A32.aligned_iff, BitVec.toNat_add, BitVec.toNat_add, BitVec.toNat_ofNat, BitVec.toNat_ofNat]
      have hwrite : write.toNat % 4 = 0 := hwrite
      omega
    have hgoes := BranchTargets.A32.b_goes halt (BranchTargets.A32.aligned_iff.mpr hwrite) htarget (by
      rw [hdistance, hint, BranchEmitters.A32.reach]
      exact ⟨by omega, by omega⟩)
    refine ⟨_, if_pos htarget, rfl, fun s hs => ?_⟩
    have hself : s.goto write = s := by rw [← hs]; rfl
    have hexec := hgoes s
    rw [hself] at hexec
    refine congrArg some (hexec.trans ?_)
    show _ = s.goto (write + BitVec.ofNat 32 4 + _)
    split
    · rfl
    · rw [add_zero]
      rfl

end Arm

section Thumb

variable {rest : BitVec 28} {rd rm sr : Nat}

theorem status_thumb : ¬t32Machine.general statusReg := fun h => absurd h.1 (by decide)

theorem keeps_core {is : List T32.Inst} (h : ∀ i ∈ is, ∀ s, (T32.perform i s).flags = s.flags) :
    KeepsFlags t32Machine (is.map .core) := fun i hi s t ht => by
  obtain ⟨j, hj, rfl⟩ := List.mem_map.mp hi
  rw [← Option.some.inj ht]
  exact h j hj s

theorem keeps_one {i : T32.Inst} (h : ∀ s, (T32.perform i s).flags = s.flags) : KeepsFlags t32Machine [.core i] :=
  @keeps_core [i] fun j hj => by
    rw [List.mem_singleton.mp hj]
    exact h

theorem puts_thumb (hrd : rd < 15 ∧ rd ≠ 13) (hrm : rm < 15) :
    Puts t32Machine rd (fun s => s.r (reg rm)) [thumb.mov rd rm] := by
  intro s
  have hne {r : Nat} (hr : r < 15) : reg r ≠ T32.pc := ArmSafeFcalls.reg_ne (k := 15) (by omega) (by decide) (by omega)
  have hfields : (reg rd).extractLsb' 3 1 ++ (reg rd).extractLsb' 0 3 = reg rd :=
    (by decide : ∀ r : Reg, r.extractLsb' 3 1 ++ r.extractLsb' 0 3 = r) _
  have hexec : T32.perform (.movh16 ((reg rd).extractLsb' 3 1) (reg rm) ((reg rd).extractLsb' 0 3)) s =
      (s.set (reg rd) (s.r (reg rm))).goto (s.pc + BitVec.ofNat 32 2) := by
    rw [T32.perform, hfields, if_neg (hne hrd.1), State.get_of_ne (hne hrm)]
    rfl
  refine ⟨(s.set (reg rd) (s.r (reg rm))).goto (s.pc + BitVec.ofNat 32 2), ArmSafeFcalls.goes_one rfl (congrArg some hexec) rfl,
    State.set_r_self, fun r hr hrd' => State.set_r_of_ne (ArmSafeFcalls.reg_ne (by have := hr.1; omega) (by omega) hrd'),
    State.set_r_of_ne (ArmSafeFcalls.reg_ne_sp hrd).symm, rfl⟩

def pushField (regs : BitVec 32) : BitVec 9 := (if regs.getLsbD 14 then regs &&& 0xFF ||| 1 <<< 8 else regs).setWidth 9

theorem push_shape : ∀ sr : Fin 8, 4 ≤ sr.val → ∀ rd : Fin 15,
    thumbPushRegs (saved sr rd) = some [.core (.push16 (pushField (saved sr rd)))] ∧
      T32.regs16 T32.lr (pushField (saved sr rd)) = T32.regsOf ((saved sr rd).setWidth 16) := by decide

theorem pop_shape : ∀ sr : Fin 8, 4 ≤ sr.val → ∀ rd : Fin 15, rd ≠ 14 →
    thumbPopRegs (saved sr rd) = some [.core (.ldmfd32 1 T32.sp ((saved sr rd).setWidth 16))] := by decide

theorem pop_shape_lr : ∀ sr : Fin 8, 4 ≤ sr.val → thumbPopRegs (saved sr 14) = some [.core (.pop16 ((saved sr 14).setWidth 9))] ∧
    T32.regs16 T32.pc ((saved sr 14).setWidth 9) = T32.regsOf ((saved sr 14).setWidth 16) := by decide

theorem saves_thumb (hsr : 4 ≤ sr ∧ sr ≤ 7) (hrd : rd < 15) : ∃ is js : List T32.Inst,
    thumbPushRegs (saved sr rd) = some (is.map .core) ∧ thumbPopRegs (saved sr rd) = some (js.map .core) ∧
      is.length = 1 ∧ js.length = 1 ∧ KeepsFlags t32Machine (is.map .core) ∧ KeepsFlags t32Machine (js.map .core) ∧
        Saves t32Machine (saved sr rd) (4 * (T32.regsOf ((saved sr rd).setWidth 16)).length) (is.map .core) (js.map .core) := by
  obtain ⟨hsp, hpc, -⟩ := saved_bits hsr rd
  obtain ⟨hpush, hregs⟩ := push_shape ⟨sr, by omega⟩ hsr.1 ⟨rd, hrd⟩
  have hpcs := ArmSafeFcalls.notMem_regsOf (show 15 < 16 by decide) hpc
  have hsps := ArmSafeFcalls.notMem_regsOf (show 13 < 16 by decide) hsp
  have hkeeps : KeepsFlags t32Machine [.core (.push16 (pushField (saved sr rd)))] := keeps_one fun s => rfl
  by_cases hlr : rd = 14
  · subst hlr
    obtain ⟨hpop, hregs'⟩ := pop_shape_lr ⟨sr, by omega⟩ hsr.1
    exact ⟨[_], [_], hpush, hpop, rfl, rfl, hkeeps, keeps_one fun s => loadMultiple_flags .., ArmSafeFcalls.saves_one
      (ArmSafeFcalls.stands hsp) rfl rfl (ArmSafeFcalls.perform_push16 hregs)
      (ArmSafeFcalls.perform_pop16 hregs' hpcs)⟩
  · have hpop := pop_shape ⟨sr, by omega⟩ hsr.1 ⟨rd, hrd⟩ fun h => hlr (congrArg Fin.val h)
    exact ⟨[_], [_], hpush, hpop, rfl, rfl, hkeeps, keeps_one fun s => ldm_flags .., ArmSafeFcalls.saves_one
      (ArmSafeFcalls.stands hsp) rfl rfl (ArmSafeFcalls.perform_push16 hregs) (ArmSafeFcalls.perform_ldmfd rfl hsps hpcs)⟩

theorem keeps_copy (v : Word) : KeepsFlags t32Machine (thumbCopyToReg32bit (reg 14) v) := by
  rw [thumbCopyToReg32bit]
  split
  · exact keeps_one fun s => rfl
  · refine keeps_core fun i hi s => ?_
    rcases List.mem_pair.mp hi with rfl | rfl <;> rfl

theorem lawful_thumb (rest : BitVec 28) : Lawful thumb rest where
  grain := .inl rfl
  sizes i := by
    have hcore : ∀ i : T32.Inst, i.size % 2 = 0 ∧ i.size ≤ 4 := fun i => by
      cases i <;> simp [T32.Inst.size]
    cases i with
    | core i => exact hcore i
    | _ => exact (by decide : 4 % 2 = 0 ∧ 4 ≤ 4)
  size := rfl
  place _ := rfl
  general _ := Iff.rfl
  get _ _ := rfl
  sp _ := rfl
  mem := rfl
  jump _ := rfl
  lr := rfl
  saves sr rd hsr hrd := by
    obtain ⟨-, -, hstatus⟩ := saved_bits hsr rd
    obtain ⟨is, js, hpush, hpop, his, hjs, hkeepsi, hkeepsj, hsaves⟩ := saves_thumb hsr hrd
    exact ⟨_, _, _, hpush, hpop, (List.length_map _).trans his, (List.length_map _).trans hjs, room_le _,
      saves_helper status_thumb hstatus hkeepsi hkeepsj hsaves⟩
  puts rd rm hrd hrm := puts_helper status_thumb hrd (keeps_one fun s => by
    rw [T32.perform]
    split <;> rfl) (puts_thumb hrd hrm)
  sets v := puts_helper status_thumb (show 14 < 15 ∧ 14 ≠ 13 by decide) (keeps_copy v)
    (ArmSafeFcalls.sets_thumb (show 14 < 15 ∧ 14 ≠ 13 by decide) v)
  short v := by
    show (thumbCopyToReg32bit _ v).length ≤ 2
    rw [thumbCopyToReg32bit]
    split <;> simp [T32Emit.copyToReg32bit]
  links := links_helper status_thumb (show 14 < 15 ∧ 14 ≠ 13 by decide) (keeps_one fun s => rfl) ArmSafeFcalls.links_thumb
  branch write n cond hcond hwrite hn hle := by
    have hn : n % 2 = 0 := hn
    have hdistance : write + BitVec.ofNat 32 2 + BitVec.ofNat 32 n - write - 4 = BitVec.ofNat 32 n - 2 := by bv_omega
    have hint : (BitVec.ofNat 32 n - 2).toInt = n - 2 := by
      rw [BitVec.toInt_eq_toNat_cond, BitVec.toNat_sub, BitVec.toNat_ofNat, show (2 : Word).toNat = 2 from rfl]
      split <;> omega
    have hentry : T32.entry (BitVec.ofNat 32 n - 2) = BitVec.ofNat 32 n - 2 := by
      refine ArmSafeFcalls.entry_even ?_
      rw [BitVec.toNat_sub, BitVec.toNat_ofNat, show (2 : Word).toNat = 2 from rfl]
      omega
    refine ⟨.core (.bCond16 cond ((BitVec.ofNat 32 n - 2).extractLsb' 1 8)), ?_, rfl, fun s hs => ?_⟩
    · show (T32Branches.b16CondHelper write (write + BitVec.ofNat 32 2 + BitVec.ofNat 32 n) cond).bind _ = _
      rw [T32Branches.b16CondHelper, hdistance, if_pos (by omega)]
      rfl
    · refine congrArg some ?_
      rw [T32.perform, T32Branches.offset16_entry (by omega) (by omega), hentry, hs]
      show s.goto _ = s.goto (write + BitVec.ofNat 32 2 + _)
      split
      · rw [show write + 4 + (BitVec.ofNat 32 n - 2) = write + BitVec.ofNat 32 2 + BitVec.ofNat 32 n by bv_omega]
      · rw [add_zero]
        rfl

end Thumb

section Plugin

/-- The divisions that are transparent: those whose condition fails; and in T32 code those into r12 that do not
overwrite the divisor, or whose quotient is one, in A32 code only where the flags are the upper bits of the quotient too. -/
theorem soft_div_transparent_iff (d : Divide) (s : State) (hdivisor : s.r (reg d.rm) ≠ 0) :
    (s.thumb = false → s.pc.toNat % 4 = 0 → (Transparent arm d s ↔ (holds d s = true → d.rd = 12 ∧
      (d.rm = 0 → d.rn = 0 ∨ d.value s = 1) ∧ flagsOf (d.value s) = s.flags))) ∧
    (s.thumb = true → s.pc.toNat % 2 = 0 → (Transparent thumb d s ↔ (holds d s = true → d.rd = 12 ∧
      (d.rm = 0 → d.rn = 0 ∨ d.value s = 1)))) := by
  constructor
  · intro hthumb haligned
    rw [target_transparent_iff lawful_arm ⟨hthumb, haligned⟩ hdivisor, Exact]
    simp [arm]
  · intro hthumb haligned
    rw [target_transparent_iff lawful_thumb ⟨hthumb, haligned⟩ hdivisor, Exact]
    simp [thumb]

def divideIntoR12 : Divide := ⟨true, BranchEmitters.AL, 12, 0, 1, by decide, by decide⟩

def beforeDivide (inThumb : Bool) : State :=
  ⟨0, inThumb, fun r => if r = 0 then 20 else 3, ⟨false, false, false, false⟩, 0, fun _ => 0⟩

/-- 20 divided by 3 into r12, on both instruction sets. -/
theorem soft_div_transparent_r12 :
    Transparent arm divideIntoR12 (beforeDivide false) ∧ Transparent thumb divideIntoR12 (beforeDivide true) :=
  ⟨((soft_div_transparent_iff _ _ (by decide)).1 rfl rfl).mpr fun _ => ⟨rfl, fun h => absurd h (by decide), rfl⟩,
    ((soft_div_transparent_iff _ _ (by decide)).2 rfl rfl).mpr fun _ => ⟨rfl, fun h => absurd h (by decide)⟩⟩

/-- A division into r3, with a condition that always holds: the function of the library may have changed r12. -/
theorem soft_div_loses_r12 :
    ¬Transparent thumb ⟨true, BranchEmitters.AL, 3, 0, 1, by decide, by decide⟩
      ⟨0, true, fun _ => 6, ⟨false, false, false, false⟩, 0, fun _ => 0⟩ := by
  rw [target_transparent_iff lawful_thumb ⟨rfl, rfl⟩ (by decide)]
  exact fun h => absurd (h rfl).1 (by decide)

end Plugin

end Mambo.SoftDivTargets
