import Mambo.SoftDiv

namespace Mambo.SoftDivRuns

open RegLists (clear getLsbD_clear countBits)
open SafeFcalls SafeFcallRuns SoftDiv
open ArmSafeFcalls (reg)
open CallRuns (Machine Routine Goes Puts Sets Saves Links Abides Intact SameStack Called InCode Silent)
open T32 (Word Reg Flags State)

section Lists

variable {k r sr rd : Nat}

theorem getLsbD_bit (hk : k < 32) : (bit k).getLsbD r = decide (r = k) := by
  rw [bit, BitVec.getLsbD_shiftLeft]
  by_cases hr : r < 32
  · rcases Nat.lt_trichotomy r k with hlt | rfl | hgt
    · simp [hlt, Nat.ne_of_lt hlt]
    · simp [hr]
    · have hpos : r - k ≠ 0 := by omega
      simp [Nat.ne_of_gt hgt, hpos]
  · rw [decide_eq_false hr, Bool.false_and, Bool.false_and, decide_eq_false (by omega)]

theorem callReglist_bit : callReglist.getLsbD r = decide (r ≤ 3 ∨ r = 14) := by
  by_cases hr : r < 32
  · exact (by decide : ∀ r : Fin 32, callReglist.getLsbD r = decide (r.val ≤ 3 ∨ r.val = 14)) ⟨r, hr⟩
  · rw [BitVec.getLsbD_of_ge _ _ (by omega), decide_eq_false (by omega)]

theorem saved_bit (hsr : sr < 32) : (saved sr rd).getLsbD r = decide ((r ≤ 3 ∨ r = 14 ∨ r = sr) ∧ r ≠ rd) := by
  rw [saved, getLsbD_clear, BitVec.getLsbD_or, callReglist_bit, getLsbD_bit hsr]
  simp only [← Bool.decide_or, ← Bool.decide_and, or_assoc]

theorem srReglist_bit : srReglist.getLsbD r = decide (4 ≤ r ∧ r ≤ 7) := by
  by_cases hr : r < 32
  · exact (by decide : ∀ r : Fin 32, srReglist.getLsbD r = decide (4 ≤ r.val ∧ r.val ≤ 7)) ⟨r, hr⟩
  · rw [BitVec.getLsbD_of_ge _ _ (by omega), decide_eq_false (by omega)]

theorem next_some {regs : BitVec 32} (hlt : k < 16) (hbit : regs.getLsbD k = true) :
    ∃ r, nextRegInList regs 0 = r ∧ r < 16 ∧ regs.getLsbD r = true := by
  have hsome : ((List.range' 0 16).find? fun r => regs.getLsbD r).isSome = true :=
    List.find?_isSome.mpr ⟨k, List.mem_range'_1.mpr (by omega), hbit⟩
  obtain ⟨r, hr⟩ := Option.isSome_iff_exists.mp hsome
  have hmem := List.mem_range'_1.mp (List.mem_of_find?_eq_some hr)
  exact ⟨r, by rw [nextRegInList, hr, Option.getD_some], by omega, List.find?_some hr⟩

theorem operands (d : Divide) : (d.rd < 15 ∧ d.rd ≠ 13) ∧ (d.rn < 15 ∧ d.rn ≠ 13) ∧ d.rm < 15 ∧ d.rm ≠ 13 := by
  simpa only [List.mem_cons, List.not_mem_nil, or_false, forall_eq_or_imp, forall_eq] using d.general

/-- There is a register for the flags, and it is none of the three. -/
theorem scratch_spec (d : Divide) : ∃ sr, getScratchReg srReglist (bit d.rn ||| bit d.rm ||| bit d.rd) = sr ∧
    (4 ≤ sr ∧ sr ≤ 7) ∧ sr ≠ d.rn ∧ sr ≠ d.rm ∧ sr ≠ d.rd := by
  obtain ⟨hrd, hrn, hrm⟩ := operands d
  have hbits (r : Nat) (hr : r < 32) : (srReglist &&& ~~~(bit d.rn ||| bit d.rm ||| bit d.rd)).getLsbD r =
      decide ((4 ≤ r ∧ r ≤ 7) ∧ r ≠ d.rn ∧ r ≠ d.rm ∧ r ≠ d.rd) := by
    rw [BitVec.getLsbD_and, BitVec.getLsbD_not, BitVec.getLsbD_or, BitVec.getLsbD_or, getLsbD_bit (by omega),
      getLsbD_bit (by omega), getLsbD_bit (by omega), srReglist_bit, decide_eq_true hr]
    simp only [Bool.true_and, ← Bool.decide_or, ← decide_not, ← Bool.decide_and, not_or, ne_eq, and_assoc]
  obtain ⟨k, hk⟩ : ∃ k, (4 ≤ k ∧ k ≤ 7) ∧ k ≠ d.rn ∧ k ≠ d.rm ∧ k ≠ d.rd := by
    by_contra hnone
    have h₄ : ¬(4 ≠ d.rn ∧ 4 ≠ d.rm ∧ 4 ≠ d.rd) := fun h => hnone ⟨4, by omega, h⟩
    have h₅ : ¬(5 ≠ d.rn ∧ 5 ≠ d.rm ∧ 5 ≠ d.rd) := fun h => hnone ⟨5, by omega, h⟩
    have h₆ : ¬(6 ≠ d.rn ∧ 6 ≠ d.rm ∧ 6 ≠ d.rd) := fun h => hnone ⟨6, by omega, h⟩
    have h₇ : ¬(7 ≠ d.rn ∧ 7 ≠ d.rm ∧ 7 ≠ d.rd) := fun h => hnone ⟨7, by omega, h⟩
    omega
  have hbit := hbits k (by omega)
  rw [decide_eq_true hk] at hbit
  obtain ⟨sr, hsr, hlt, hin⟩ := next_some (by omega) hbit
  rw [hbits sr (by omega), decide_eq_true_eq] at hin
  exact ⟨sr, hsr, hin⟩

theorem rescanned (hsr : sr < 32) (hrd : rd < 15) (hne : rd ≠ 0) : getScratchReg (saved sr rd) (bit rd) = 0 := by
  have hbit : (saved sr rd &&& ~~~bit rd).getLsbD 0 = true := by
    rw [BitVec.getLsbD_and, BitVec.getLsbD_not, saved_bit hsr, getLsbD_bit (by omega)]
    simp [Ne.symm hne]
  rw [getScratchReg, nextRegInList, List.range'_succ, List.find?_cons_of_pos hbit, Option.getD_some]

end Lists

section Flags

theorem cpsr_bits (f : Flags) (rest : BitVec 28) : (cpsr f rest).getLsbD 31 = f.n ∧ (cpsr f rest).getLsbD 30 = f.z ∧
    (cpsr f rest).getLsbD 29 = f.c ∧ (cpsr f rest).getLsbD 28 = f.v := by
  simp only [cpsr, BitVec.getLsbD_append]
  simp

theorem flagsOf_cpsr (f : Flags) (rest : BitVec 28) : flagsOf (cpsr f rest) = f := by
  obtain ⟨hn, hz, hc, hv⟩ := cpsr_bits f rest
  rw [flagsOf, hn, hz, hc, hv]

theorem cpsr_inj {f g : Flags} (h : cpsr f 0 = cpsr g 0) : f = g := by
  rw [← flagsOf_cpsr f 0, h, flagsOf_cpsr]

end Flags

section Code

variable {ι : Type} (T : Target ι) (rest : BitVec 28)

/-- What an instruction set has to do for the code of the plugin. -/
structure Lawful : Prop where
  grain : T.branchSize = 2 ∨ T.branchSize = 4
  sizes : ∀ i, T.machine.size i % T.branchSize = 0 ∧ T.machine.size i ≤ 4
  size : T.emitters.size = T.machine.size
  place : ∀ s, T.machine.place s = (s.pc, s.thumb)
  general : ∀ r, T.machine.general r ↔ r < 15 ∧ r ≠ 13
  get : ∀ s r, T.machine.get s r = s.r (reg r)
  sp : ∀ s, T.machine.sp s = s.r T32.sp
  mem : T.machine.mem = State.mem
  jump : ∀ a, T.machine.jump a = (T32.entry a, a.getLsbD 0)
  lr : T.emitters.lr = 14
  saves : ∀ sr rd, 4 ≤ sr ∧ sr ≤ 7 → rd < 15 → ∃ room is js, T.emitters.push (saved sr rd) = some is ∧
    T.emitters.pop (saved sr rd) = some js ∧ is.length = 1 ∧ js.length = 1 ∧ room ≤ frame ∧
    Saves (withStatus T.machine rest) (saved sr rd) room (is.map .helper) (js.map .helper)
  puts : ∀ rd rm, rd < 15 ∧ rd ≠ 13 → rm < 15 → Puts (withStatus T.machine rest) rd (fun s => s.r (reg rm)) [.helper (T.mov rd rm)]
  sets : ∀ v, Sets (withStatus T.machine rest) 14 v ((T.emitters.setReg 14 v).map .helper)
  short : ∀ v, (T.emitters.setReg 14 v).length ≤ 2
  links : Links (withStatus T.machine rest) 14 (.helper T.emitters.callLr)
  branch : ∀ (write : Word) (n : Nat) (cond : BranchEmitters.Cond), cond.toNat < 14 → write.toNat % T.branchSize = 0 →
    n % T.branchSize = 0 → n ≤ 40 → ∃ i,
      T.branch write (write + BitVec.ofNat 32 T.branchSize + BitVec.ofNat 32 n) cond = some i ∧ T.machine.size i = T.branchSize ∧
        ∀ s : State, s.pc = write → T.machine.exec i s =
          some (s.goto (write + BitVec.ofNat 32 T.branchSize + if A64.condHolds cond s.flags then BitVec.ofNat 32 n else 0))

variable {T rest} {s u : State} {sr rd rm rn : Nat} {R : Routine 32 State}

theorem Lawful.getReg (hT : Lawful T rest) (s : State) {r : Nat} (hr : r ≠ statusReg) :
    (withStatus T.machine rest).get s r = s.r (reg r) := (if_neg hr).trans (hT.get s r)

theorem getStatus (s : State) : (withStatus T.machine rest).get s statusReg = cpsr s.flags 0 := by
  show (if statusReg = statusReg then cpsr s.flags 0 else T.machine.get s statusReg) = _
  exact if_pos rfl

theorem Lawful.size_even (hT : Lawful T rest) (i : Inst ι) : (withStatus T.machine rest).size i % 2 = 0 := by
  cases i with
  | helper i =>
      have hsize := (hT.sizes i).1
      rcases hT.grain with heq | heq
      · rwa [heq] at hsize
      · rw [heq] at hsize
        show T.machine.size i % 2 = 0
        omega
  | mrs rd => exact (by decide : 4 % 2 = 0)
  | msr rn mask => exact (by decide : 4 % 2 = 0)

theorem goes_own {i : Inst ι} (hT : Lawful T rest) (hcalls : (withStatus T.machine rest).calls i = false)
    (hsize : (withStatus T.machine rest).size i = 4) (hexec : SoftDiv.exec T.machine rest i s = some u)
    (hpc : u.pc = s.pc + 4) (hthumb : u.thumb = s.thumb) : Goes (withStatus T.machine rest) [i] s u where
  silent j hj := by
    rw [List.mem_singleton.mp hj]
    exact hcalls
  exec := by
    show (SoftDiv.exec T.machine rest i s).bind some = some u
    rw [hexec, Option.bind_some]
  place := by
    rw [CallRuns.bytes, List.map_singleton, List.sum_singleton, hsize]
    show T.machine.place u = CallRuns.past (T.machine.place s) 4
    rw [hT.place, hT.place, hpc, hthumb]
    rfl

theorem puts_mrs (hT : Lawful T rest) (hsr : sr < 13) :
    Puts (withStatus T.machine rest) sr (fun s => cpsr s.flags rest) [.mrs (reg sr)] := by
  intro s
  refine ⟨(s.set (reg sr) (cpsr s.flags rest)).goto (s.pc + 4), goes_own hT rfl rfl rfl rfl rfl, ?_, fun r hr hne => ?_, ?_, ?_⟩
  · rw [hT.getReg _ (by rw [statusReg]; omega)]
    exact State.set_r_self
  · by_cases hstatus : r = statusReg
    · rw [hstatus, getStatus, getStatus]
      rfl
    · have hlt := (hT.general r).mp (hr.resolve_right hstatus)
      rw [hT.getReg _ hstatus, hT.getReg _ hstatus]
      exact State.set_r_of_ne (ArmSafeFcalls.reg_ne (by omega) (by omega) hne)
  · show T.machine.sp _ = T.machine.sp s
    rw [hT.sp, hT.sp]
    exact State.set_r_of_ne (ArmSafeFcalls.reg_ne_sp ⟨by omega, by omega⟩).symm
  · show T.machine.mem _ = T.machine.mem s
    rw [hT.mem]
    rfl

theorem puts_msr (hT : Lawful T rest) (sr : Nat) : Puts (withStatus T.machine rest) statusReg
    (fun s => cpsr (flagsOf (s.r (reg sr))) 0) [.msr (reg sr) 3] := by
  intro s
  refine ⟨{ s.goto (s.pc + 4) with flags := flagsOf (s.r (reg sr)) }, goes_own hT rfl rfl rfl rfl rfl, getStatus _,
    fun r _ hne => ?_, ?_, ?_⟩
  · rw [hT.getReg _ hne, hT.getReg _ hne]
    rfl
  · show T.machine.sp _ = T.machine.sp s
    rw [hT.sp, hT.sp]
    rfl
  · show T.machine.mem _ = T.machine.mem s
    rw [hT.mem]
    rfl

/-- The move that is left out where the register is the one already. -/
def movCode (T : Target ι) (rd rm : Nat) : List (Inst ι) := if rm ≠ rd then [.helper (T.mov rd rm)] else []

theorem puts_mov (hT : Lawful T rest) (hrd : rd < 15 ∧ rd ≠ 13) (hrm : rm < 15) :
    Puts (withStatus T.machine rest) rd (fun s => s.r (reg rm)) (movCode T rd rm) := by
  rw [movCode]
  split
  next => exact hT.puts rd rm hrd hrm
  next heq =>
    rw [ne_eq, not_not] at heq
    have hvalue : (fun s : State => s.r (reg rm)) = fun s => (withStatus T.machine rest).get s rd := by
      funext s
      rw [heq, hT.getReg s (by rw [statusReg]; omega)]
    rw [hvalue]
    exact Puts.nil

/-- The register that the flags are loaded from. -/
def source (T : Target ι) (sr rd : Nat) : Nat := if T.rescans then getScratchReg (saved sr rd) (bit rd) else sr

/-- The code of a division, around what saves and loads the registers. -/
def divideCode (T : Target ι) (entry : Word) (d : Divide) (sr : Nat) (is js : List ι) : List (Inst ι) :=
  is.map .helper ++ [.mrs (reg sr)] ++ movCode T 0 d.rn ++ movCode T 1 d.rm ++
    ((T.emitters.setReg T.emitters.lr entry).map .helper ++ [.helper T.emitters.callLr]) ++ movCode T d.rd 0 ++
      [.msr (reg (source T sr d.rd)) 3] ++ js.map .helper

theorem adds_mov (rd rm : Nat) (e : Emitted 32 (Inst ι)) : Adds e (movCode T rd rm) 0 (emitMov T rd rm e) := by
  rw [movCode, emitMov]
  split
  next => exact adds_emit
  next => exact ⟨rfl, (List.append_nil _).symm, (add_zero _).symm⟩

/-- A register that can hold the flags, and the code that saves it with those of the call. -/
structure Chosen (T : Target ι) (d : Divide) (sr : Nat) (is js : List ι) : Prop where
  scratch : getScratchReg srReglist (bit d.rn ||| bit d.rm ||| bit d.rd) = sr
  range : 4 ≤ sr ∧ sr ≤ 7
  ne : sr ≠ d.rn ∧ sr ≠ d.rm ∧ sr ≠ d.rd
  push : T.emitters.push (saved sr d.rd) = some is
  pop : T.emitters.pop (saved sr d.rd) = some js
  lengths : is.length = 1 ∧ js.length = 1

theorem exists_chosen (hT : Lawful T rest) (d : Divide) : ∃ sr is js, Chosen T d sr is js := by
  obtain ⟨sr, hsr, hrange, hne⟩ := scratch_spec d
  obtain ⟨-, is, js, hpush, hpop, his, hjs, -⟩ := hT.saves sr d.rd hrange (operands d).1.1
  exact ⟨sr, is, js, hsr, hrange, hne, hpush, hpop, his, hjs⟩

theorem emitDivide_some {is js : List ι} {d : Divide} (h : Chosen T d sr is js) (start entry : Word) (count : Nat) :
    ∃ e, emitDivide T entry d ⟨start, [], [], count⟩ = some e ∧ e.start = start ∧
      e.code = divideCode T entry d sr is js := by
  have hpush' : (helpers T.emitters).push (saved sr d.rd) = some (is.map .helper) := congrArg (Option.map _) h.push
  have hpop' : (helpers T.emitters).pop (saved sr d.rd) = some (js.map .helper) := congrArg (Option.map _) h.pop
  obtain ⟨e₁, he₁, hadds₁⟩ := emitPush_some (e := ⟨start, [], [], count⟩) hpush'
  have hadds := (((((hadds₁.trans (@adds_emit _ _ [.mrs (reg sr)] _)).trans (@adds_mov _ T 0 d.rn _)).trans
    (@adds_mov _ T 1 d.rm _)).trans ((@adds_emit _ _ ((helpers T.emitters).setReg (helpers T.emitters).lr entry) _).trans
      (@adds_emit _ _ [(helpers T.emitters).callLr] _))).trans (@adds_mov _ T d.rd 0 _)).trans
        (@adds_emit _ _ [.msr (reg (source T sr d.rd)) 3] _)
  obtain ⟨e₂, he₂, hadds₂⟩ := emitPop_some (e := _) hpop' (by
    rw [hadds.count]
    simp)
  refine ⟨e₂, ?_, (hadds.trans hadds₂).start, (hadds.trans hadds₂).code⟩
  have hvalid : sr ≠ regInvalid := by
    have hle := h.range.2
    rw [regInvalid]
    omega
  simp only [emitDivide, h.scratch, if_neg hvalid]
  rw [he₁]
  exact he₂

end Code

section Runs

variable {ι : Type} {T : Target ι} {rest : BitVec 28} {R : Routine 32 State} {d : Divide} {s : State}

def passed (d : Divide) (s : State) : Word := if d.rm = 0 then s.r (reg d.rn) else s.r (reg d.rm)

/-- What the code between a state and the one behind it has done, through a call of the routine in the state u. -/
structure Ran (T : Target ι) (R : Routine 32 State) (d : Divide) (s u t : State) : Prop where
  called : T.machine.place u = T.machine.jump R.entry
  dividend : u.r 0 = s.r (reg d.rn)
  divisor : u.r 1 = passed d s
  result : t.r (reg d.rd) = (R.run u).r 0
  others : ∀ r, r < 15 → r ≠ 13 → r ≠ d.rd → r ≠ 12 → t.r (reg r) = s.r (reg r)
  scratch : d.rd ≠ 12 → t.r 12 = (R.run u).r 12
  sp : t.r T32.sp = s.r T32.sp
  kept : T.rescans = false → t.flags = s.flags
  loaded : T.rescans = true → d.rd ≠ 0 → t.flags = flagsOf ((R.run u).r 0)

theorem divideCode_runs {sr : Nat} {is js : List ι} (hT : Lawful T rest) (hchosen : Chosen T d sr is js)
    (habides : Abides (withStatus T.machine rest) R 14 Clobbers frame)
    (hcode : InCode (withStatus T.machine rest) ((withStatus T.machine rest).place s)) :
    ∃ u t, Called (withStatus T.machine rest) R (divideCode T R.entry d sr is js) s u t ∧ Ran T R d s u t := by
  obtain ⟨hrd, hrn, hrm⟩ := operands d
  obtain ⟨-, hsr, hne, hpush, hpop, -⟩ := hchosen
  obtain ⟨room, is', js', hpush', hpop', -, -, hroom, hsaves⟩ := hT.saves sr d.rd hsr hrd.1
  obtain rfl := Option.some.inj (hpush.symm.trans hpush')
  obtain rfl := Option.some.inj (hpop.symm.trans hpop')
  have hgen {r : Nat} (hr : r < 15 ∧ r ≠ 13) : (withStatus T.machine rest).general r := Or.inl ((hT.general r).mpr hr)
  have hget (v : State) {r : Nat} (hr : r < 15) : (withStatus T.machine rest).get v r = v.r (reg r) :=
    hT.getReg v (by rw [statusReg]; omega)
  obtain ⟨s₁, hgoes₁, hsame₁, hload⟩ := hsaves s
  obtain ⟨s₂, hgoes₂, hvalue₂, hothers₂, hstack₂⟩ := puts_mrs hT (show sr < 13 by omega) s₁
  obtain ⟨s₃, hgoes₃, hvalue₃, hothers₃, hstack₃⟩ := puts_mov hT (show 0 < 15 ∧ 0 ≠ 13 by omega) hrn.1 s₂
  obtain ⟨s₄, hgoes₄, hvalue₄, hothers₄, hstack₄⟩ := puts_mov hT (show 1 < 15 ∧ 1 ≠ 13 by omega) hrm.1 s₃
  have hbefore := ((hgoes₁.append hgoes₂).append hgoes₃).append hgoes₄
  have hcode₄ : InCode (withStatus T.machine rest) ((withStatus T.machine rest).place s₄) := by
    rw [hbefore.place]
    exact hcode.past (CallRuns.bytes_even hT.size_even)
  obtain ⟨u, hcalled, hplace, hothers₅, hstack₅⟩ :=
    CallRuns.called_routine hT.size_even (hT.sets R.entry) hT.links habides hcode₄
  obtain ⟨s₆, hgoes₆, hvalue₆, hothers₆, hstack₆⟩ := puts_mov hT hrd (show 0 < 15 by omega) (R.run u)
  obtain ⟨s₇, hgoes₇, hvalue₇, hothers₇, hstack₇⟩ := puts_msr hT (source T sr d.rd) s₆
  have hintact : Intact (withStatus T.machine rest) frame s₁ s₇ :=
    ((((hstack₂.trans hstack₃).trans hstack₄).trans hstack₅).intact.trans (habides.stack u hplace)).trans
      (hstack₆.trans hstack₇).intact
  obtain ⟨t, hgoes, hstack, hregs⟩ := hload s₇ 0 (by rw [frame] at hroom; omega) (hintact.mono (by omega))
  have hstart (r : Nat) (hr : r < 15 ∧ r ≠ 13) : s₁.r (reg r) = s.r (reg r) := by
    rw [← hget s₁ hr.1, ← hget s hr.1, hsame₁ r (hgen hr)]
  have hold (r : Nat) (hr : r < 15 ∧ r ≠ 13) (hsr' : r ≠ sr) : s₂.r (reg r) = s.r (reg r) := by
    rw [← hstart r hr, ← hget s₂ hr.1, ← hget s₁ hr.1, hothers₂ r (hgen hr) hsr']
  have hzero : s₃.r (reg 0) = s.r (reg d.rn) := by
    rw [← hget s₃ (by omega)]
    exact hvalue₃.trans (hold d.rn hrn (Ne.symm hne.1))
  have hthird (r : Nat) (hr : r < 15 ∧ r ≠ 13) (h0 : r ≠ 0) : s₃.r (reg r) = s₂.r (reg r) := by
    rw [← hget s₃ hr.1, ← hget s₂ hr.1, hothers₃ r (hgen hr) h0]
  have hfourth (r : Nat) (hr : r < 15 ∧ r ≠ 13) (h1 : r ≠ 1) : s₄.r (reg r) = s₃.r (reg r) := by
    rw [← hget s₄ hr.1, ← hget s₃ hr.1, hothers₄ r (hgen hr) h1]
  have hcall (r : Nat) (hr : r < 15 ∧ r ≠ 13) (h14 : r ≠ 14) : u.r (reg r) = s₄.r (reg r) := by
    rw [← hget u hr.1, ← hget s₄ hr.1, hothers₅ r (hgen hr) h14]
  have hkept (r : Nat) (hr : r < 15 ∧ r ≠ 13) (hclobber : ¬Clobbers r) : (R.run u).r (reg r) = u.r (reg r) := by
    rw [← hget (R.run u) hr.1, ← hget u hr.1, habides.keeps u r hplace (hgen hr) hclobber]
  have hsixth (r : Nat) (hr : r < 15 ∧ r ≠ 13) (hrd' : r ≠ d.rd) : s₆.r (reg r) = (R.run u).r (reg r) := by
    rw [← hget s₆ hr.1, ← hget (R.run u) hr.1, hothers₆ r (hgen hr) hrd']
  have hlast (r : Nat) (hr : r < 15 ∧ r ≠ 13) : t.r (reg r) = if (saved sr d.rd).getLsbD r then s.r (reg r) else s₆.r (reg r) := by
    rw [← hget t hr.1, hregs r (hgen hr), hget s hr.1, hget s₇ hr.1, ← hget s₇ hr.1,
      hothers₇ r (hgen hr) (by rw [statusReg]; omega), hget s₆ hr.1]
  have hflags : t.flags = flagsOf (s₆.r (reg (source T sr d.rd))) := by
    have hstatus := hregs statusReg (Or.inr rfl)
    rw [saved_bit (by omega), if_neg (by rw [statusReg]; simp; omega), hvalue₇, getStatus] at hstatus
    exact cpsr_inj hstatus
  rw [divideCode, hT.lr]
  refine ⟨u, t, (((hcalled.after hbefore).before hgoes₆).before hgoes₇).before hgoes, hplace, ?_, ?_, ?_,
    fun r hlt hr hrd' h12 => ?_, fun hrd' => ?_, ?_, fun hrescans => ?_, fun hrescans hrd' => ?_⟩
  · exact (hcall 0 (by omega) (by omega)).trans ((hfourth 0 (by omega) (by omega)).trans hzero)
  · have hpass : s₃.r (reg d.rm) = passed d s := by
      rw [passed]
      split
      next h0 => rw [h0, hzero]
      next h0 => rw [hthird d.rm hrm h0, hold d.rm hrm (Ne.symm hne.2.1)]
    exact (hcall 1 (by omega) (by omega)).trans ((hget s₄ (by omega)).symm.trans (hvalue₄.trans hpass))
  · rw [hlast d.rd hrd, saved_bit (by omega), if_neg (by simp), ← hget s₆ hrd.1]
    exact hvalue₆
  · rw [hlast r ⟨hlt, hr⟩, saved_bit (by omega)]
    by_cases hin : r ≤ 3 ∨ r = 14 ∨ r = sr
    · rw [if_pos (decide_eq_true ⟨hin, hrd'⟩)]
    · have hclobber : ¬Clobbers r := by
        rw [Clobbers, statusReg]
        omega
      rw [if_neg (by simp [hin]), hsixth r ⟨hlt, hr⟩ hrd', hkept r ⟨hlt, hr⟩ hclobber, hcall r ⟨hlt, hr⟩ (by omega),
        hfourth r ⟨hlt, hr⟩ (by omega), hthird r ⟨hlt, hr⟩ (by omega), hold r ⟨hlt, hr⟩ (by omega)]
  · have hbit : (saved sr d.rd).getLsbD 12 = false := by
      rw [saved_bit (by omega), decide_eq_false (by omega)]
    have htwelve := hlast 12 (by omega)
    rw [hbit, if_neg Bool.false_ne_true] at htwelve
    exact htwelve.trans (hsixth 12 (by omega) (Ne.symm hrd'))
  · exact (hT.sp t).symm.trans (hstack.sp.trans (hT.sp s))
  · have hsource : source T sr d.rd = sr := by rw [source, hrescans, if_neg Bool.false_ne_true]
    have hclobber : ¬Clobbers sr := by
      rw [Clobbers, statusReg]
      omega
    have hsr' : sr < 15 ∧ sr ≠ 13 := by omega
    have hsaved : s₂.r (reg sr) = cpsr s₁.flags rest := by
      rw [← hget s₂ hsr'.1]
      exact hvalue₂
    have hstatus := hsame₁ statusReg (Or.inr rfl)
    rw [getStatus, getStatus] at hstatus
    rw [hflags, hsource, hsixth sr hsr' hne.2.2, hkept sr hsr' hclobber, hcall sr hsr' (by omega), hfourth sr hsr' (by omega),
      hthird sr hsr' (by omega), hsaved, flagsOf_cpsr, cpsr_inj hstatus]
  · have hsource : source T sr d.rd = 0 := by rw [source, hrescans, if_pos rfl, rescanned (by omega) hrd.1 hrd']
    rw [hflags, hsource, hsixth 0 (by omega) (Ne.symm hrd')]
    rfl

end Runs

section Emission

variable {ι : Type} {T : Target ι} {rest : BitVec 28} {d : Divide} {sr : Nat} {is js : List ι}

theorem Lawful.size_le (hT : Lawful T rest) (i : Inst ι) :
    (withStatus T.machine rest).size i % T.branchSize = 0 ∧ (withStatus T.machine rest).size i ≤ 4 := by
  have hfour : 4 % T.branchSize = 0 ∧ 4 ≤ 4 := by rcases hT.grain with heq | heq <;> simp [heq]
  cases i with
  | helper i => exact hT.sizes i
  | mrs rd => exact hfour
  | msr rn mask => exact hfour

theorem bytes_le (hT : Lawful T rest) (code : List (Inst ι)) :
    CallRuns.bytes (withStatus T.machine rest) code % T.branchSize = 0 ∧
      CallRuns.bytes (withStatus T.machine rest) code ≤ 4 * code.length := by
  induction code with
  | nil => exact ⟨Nat.zero_mod _, Nat.le_refl 0⟩
  | cons i code ih =>
      obtain ⟨hmod, hle⟩ := hT.size_le i
      rw [CallRuns.bytes, List.map_cons, List.sum_cons, ← CallRuns.bytes, List.length_cons]
      refine ⟨?_, by omega⟩
      rw [Nat.add_mod, hmod, ih.1]
      exact Nat.zero_mod _

theorem length_movCode (rd rm : Nat) : (movCode T rd rm).length ≤ 1 := by
  rw [movCode]
  split <;> simp

theorem divideCode_bytes (hT : Lawful T rest) (h : Chosen T d sr is js) (entry : Word) :
    CallRuns.bytes (withStatus T.machine rest) (divideCode T entry d sr is js) % T.branchSize = 0 ∧
      0 < CallRuns.bytes (withStatus T.machine rest) (divideCode T entry d sr is js) ∧
        CallRuns.bytes (withStatus T.machine rest) (divideCode T entry d sr is js) ≤ 40 := by
  obtain ⟨hmod, hle⟩ := bytes_le hT (divideCode T entry d sr is js)
  have hlength : (divideCode T entry d sr is js).length ≤ 10 := by
    have h₀ := length_movCode (T := T) 0 d.rn
    have h₁ := length_movCode (T := T) 1 d.rm
    have h₂ := length_movCode (T := T) d.rd 0
    have hset := hT.short entry
    rw [divideCode, hT.lr]
    simp only [List.length_append, List.length_map, List.length_cons, List.length_nil, h.lengths]
    omega
  have hmrs : CallRuns.bytes (withStatus T.machine rest) [.mrs (reg sr)] = 4 := rfl
  refine ⟨hmod, ?_, by omega⟩
  rw [divideCode]
  simp only [CallRuns.bytes_append, hmrs]
  omega

theorem writeP_eq (hT : Lawful T rest) (e : Emitted 32 (Inst ι)) :
    e.writeP (helpers T.emitters) = e.start + BitVec.ofNat 32 (CallRuns.bytes (withStatus T.machine rest) e.code) := by
  have hsize : (helpers T.emitters).size = (withStatus T.machine rest).size := by
    funext i
    cases i with
    | helper i => exact congrFun hT.size i
    | mrs rd => rfl
    | msr rn mask => rfl
  rw [Emitted.writeP, hsize, CallRuns.bytes]

theorem softDivPreInst_some (hT : Lawful T rest) (h : Chosen T d sr is js) (idiv uidiv writeP : Word) (count : Nat)
    (haligned : writeP.toNat % T.branchSize = 0) :
    ∃ g, softDivPreInst T idiv uidiv d writeP count = some g ∧
      g.code = divideCode T (if d.signed then idiv else uidiv) d sr is js ∧
        (d.cond = BranchEmitters.AL ∧ g.branch = none ∨ d.cond.toNat < 14 ∧ ∃ i, g.branch = some i ∧ T.machine.size i = T.branchSize ∧
          ∀ s : State, s.pc = writeP → T.machine.exec i s = some (s.goto (writeP + BitVec.ofNat 32 T.branchSize +
            if holds d s then 0 else BitVec.ofNat 32 (CallRuns.bytes (withStatus T.machine rest) g.code)))) := by
  rw [softDivPreInst]
  by_cases hal : d.cond = BranchEmitters.AL
  · obtain ⟨e, he, -, hcode⟩ := emitDivide_some h writeP (if d.signed then idiv else uidiv) count
    simp only [if_pos hal, he, Option.map_some]
    exact ⟨_, rfl, hcode, Or.inl ⟨hal, rfl⟩⟩
  · have hcond : d.cond.toNat < 14 := by
      have hlt := d.cond_lt
      have hne : d.cond.toNat ≠ 14 := fun heq => hal (BitVec.eq_of_toNat_eq heq)
      omega
    obtain ⟨e, he, hstart, hcode⟩ := emitDivide_some h (writeP + BitVec.ofNat 32 T.branchSize)
      (if d.signed then idiv else uidiv) count
    obtain ⟨hmod, -, hle⟩ := divideCode_bytes hT h (if d.signed then idiv else uidiv)
    obtain ⟨i, hi, hsize, hexec⟩ := hT.branch writeP _ _ (T32Branches.Request.inverse_lt d.cond hcond) haligned hmod hle
    rw [← hcode, ← hstart, ← writeP_eq hT] at hi
    simp only [if_neg hal, he]
    refine ⟨⟨some i, e.code⟩, ?_, hcode, Or.inr ⟨hcond, i, rfl, hsize, fun s hs => ?_⟩⟩
    · show (T.branch writeP (e.writeP (helpers T.emitters)) (d.cond ^^^ 1)).bind _ = _
      rw [hi]
      rfl
    · rw [hexec s hs, T32Branches.Request.condHolds_inverse d.cond hcond, hcode, holds]
      cases A64.condHolds d.cond s.flags <;> rfl

end Emission

end Mambo.SoftDivRuns
