import Mambo.SafeFcallRuns

namespace Mambo.A64SafeFcalls

open ByteMemory RegLists A64Plugin
open A64 (Word Reg State xzr)
open A64Emit (pushPairReg pushReg popReg copyToReg64bits halfWord lowPart moveKeep partly)
open A64Stack (reg emitA64Push emitA64Pop popPair Kept SlotsAt depth Saveable)
open CallRuns (Machine Routine Goes Sets Saves Links Abides Intact SameStack Silent past)
open SafeFcalls SafeFcallRuns

/-- The registers below the stack pointer's number are the general ones. -/
def machine : Machine 64 Inst State where
  exec i s := some (exec i s)
  calls
    | .bl _ | .blr _ => true
    | _ => false
  size _ := 4
  place s := (s.pc, false)
  jump a := (a, false)
  set := false
  general r := r < 31
  get s r := s.get (reg r)
  sp := State.sp
  mem := State.mem

def abi : Abi where
  argument a := a
  function := 8
  clobbers r := r ≤ 8 ∨ r = 30

section Straight

variable {is js : List A64.Inst} {s u v : State} {r a b : Reg}

theorem execAll_core (is : List A64.Inst) (s : State) :
    CallRuns.execAll machine (is.map .core) s = some (A64Stack.execAll is s) := by
  induction is generalizing s with
  | nil => rfl
  | cons i is ih => exact ih (A64.exec i s)

theorem silent_core (is : List A64.Inst) : Silent machine (is.map .core) := by
  intro i hi
  obtain ⟨j, -, rfl⟩ := List.mem_map.mp hi
  rfl

theorem bytes_eq (is : List Inst) : CallRuns.bytes machine is = 4 * is.length := by
  induction is with
  | nil => rfl
  | cons i is ih =>
      rw [CallRuns.bytes, List.map_cons, List.sum_cons, ← CallRuns.bytes, ih, List.length_cons]
      show 4 + 4 * is.length = 4 * (is.length + 1)
      omega

theorem goes_core (hpc : (A64Stack.execAll is s).pc = s.pc + BitVec.ofNat 64 (4 * is.length)) :
    Goes machine (is.map .core) s (A64Stack.execAll is s) where
  silent := silent_core is
  exec := execAll_core is s
  place := by
    rw [bytes_eq, List.length_map]
    exact congrArg (fun p => (p, false)) hpc

theorem execAll_append (s : State) : A64Stack.execAll (is ++ js) s = A64Stack.execAll js (A64Stack.execAll is s) :=
  List.foldl_append

theorem execAll_pc (hplain : ∀ i ∈ is, ∀ s, (A64.exec i s).pc = s.pc + 4) :
    (A64Stack.execAll is s).pc = s.pc + BitVec.ofNat 64 (4 * is.length) := by
  induction is generalizing s with
  | nil => exact (add_zero _).symm
  | cons i is ih =>
      rw [A64Stack.execAll_cons, ih fun j hj => hplain j (List.mem_cons_of_mem i hj), hplain i List.mem_cons_self,
        List.length_cons]
      exact A64Emit.cell_succ s.pc is.length

end Straight

section Constants

variable {s : State} {r : Reg} {value p : Word}

theorem moveKeep_exec {k : Nat} {hw : BitVec 2} (hk : hw.toNat = k) :
    A64Stack.execAll (moveKeep value k hw r) (partly s r value p k) =
      partly s r value (p + BitVec.ofNat 64 (4 * (moveKeep value k hw r).length)) (k + 1) := by
  rw [moveKeep]
  by_cases hpos : 0 < (halfWord value k).toNat
  · rw [if_pos hpos]
    exact A64Emit.movk_exec hk
  · have hzero : halfWord value k = 0 := BitVec.eq_of_toNat_eq (by simpa using hpos)
    rw [if_neg hpos, partly, partly, A64Emit.lowPart_skip value hzero, List.length_nil, Nat.mul_zero, BitVec.add_zero]
    rfl

theorem copyToReg64bits_exec : A64Stack.execAll (copyToReg64bits r value) s =
    (s.set r value).goto (s.pc + BitVec.ofNat 64 (4 * (copyToReg64bits r value).length)) := by
  have hshift : (halfWord value 0).setWidth 64 <<< ((0 : BitVec 2).toNat * 16) = lowPart value 1 := by
    rw [A64Emit.lowPart_one]
    exact BitVec.shiftLeft_zero _
  have hmovz : A64.exec (.movz 0 (halfWord value 0) r) s = partly s r value (s.pc + 4) 1 := by
    rw [A64.exec, hshift, State.next, State.set_pc, partly]
  have hlen : (copyToReg64bits r value).length = 1 + (moveKeep value 1 1 r).length + (moveKeep value 2 2 r).length +
      (moveKeep value 3 3 r).length := by
    rw [copyToReg64bits, List.length_cons, List.length_append, List.length_append]
    omega
  rw [hlen, copyToReg64bits, A64Stack.execAll_cons, hmovz, execAll_append, execAll_append,
    moveKeep_exec (show (1 : BitVec 2).toNat = 1 from rfl), moveKeep_exec (show (2 : BitVec 2).toNat = 2 from rfl),
    moveKeep_exec (show (3 : BitVec 2).toNat = 3 from rfl), partly, A64Emit.lowPart_four]
  refine congrArg (State.goto _) ?_
  simp only [Nat.mul_add, BitVec.ofNat_add, add_assoc]
  rfl

theorem reg_inj {k j : Nat} (hk : k < 31) (hj : j < 31) (h : reg k = reg j) : k = j := by
  have hnat := congrArg BitVec.toNat h
  rwa [A64Stack.reg_toNat (by omega), A64Stack.reg_toNat (by omega)] at hnat

theorem sets_copy {k : Nat} (hk : k < 31) (value : Word) : Sets machine k value (a64.setReg k value) := by
  intro s
  have hexec : A64Stack.execAll (copyToReg64bits (reg k) value) s =
      (s.set (reg k) value).goto (s.pc + BitVec.ofNat 64 (4 * (copyToReg64bits (reg k) value).length)) :=
    copyToReg64bits_exec
  refine ⟨_, goes_core ((congrArg State.pc hexec).trans State.goto_pc), ?_, fun r hr hne => ?_, ?_, ?_⟩
  · show (A64Stack.execAll (copyToReg64bits (reg k) value) s).get (reg k) = value
    rw [hexec, State.get_goto, State.get_set_self (A64Stack.reg_ne hk)]
  · show (A64Stack.execAll (copyToReg64bits (reg k) value) s).get (reg r) = s.get (reg r)
    rw [hexec, State.get_goto, State.get_set_of_ne fun h => hne (reg_inj hr hk h)]
  · show (A64Stack.execAll (copyToReg64bits (reg k) value) s).sp = s.sp
    rw [hexec]
    exact State.set_sp
  · show (A64Stack.execAll (copyToReg64bits (reg k) value) s).mem = s.mem
    rw [hexec]
    exact State.set_mem

theorem links_blr : Links machine 30 (.blr A64.lr) := by
  refine ⟨rfl, fun s _ => ⟨_, rfl, rfl, rfl, fun r hr hne => ?_, ?_, ?_⟩⟩
  · show (s.set A64.lr (s.pc + 4)).get (reg r) = s.get (reg r)
    exact State.get_set_of_ne fun h => hne (reg_inj hr (by decide) h)
  · exact State.set_sp
  · exact State.set_mem

end Constants

section Stack

variable {is : List A64.Inst} {s u v : State} {regs : BitVec 32} {ms : List Nat}

inductive Pushes : A64.Inst → Prop
  | pair (a b : Reg) : Pushes (pushPairReg a b)
  | one (a : Reg) : Pushes (pushReg a)

inductive Pops : A64.Inst → Prop
  | pair (a b : Reg) : Pops (popPair a b)
  | one (a : Reg) : Pops (popReg a)

theorem pushPairs_pushes {rounds : Nat} (his : A64Stack.pushPairs rounds regs = some is) : ∀ i ∈ is, Pushes i := by
  induction rounds generalizing regs is with
  | zero =>
      rw [A64Stack.pushPairs] at his
      split at his
      · obtain rfl := Option.some.inj his
        exact fun i hi => absurd hi List.not_mem_nil
      · exact absurd his (by simp)
  | succ rounds ih =>
      rw [A64Stack.pushPairs] at his
      split at his
      · obtain rfl := Option.some.inj his
        exact fun i hi => absurd hi List.not_mem_nil
      · obtain ⟨top, -, hrest⟩ := Option.bind_eq_some_iff.mp his
        obtain ⟨js, hjs, rfl⟩ := Option.map_eq_some_iff.mp hrest
        exact List.forall_mem_cons.mpr ⟨.pair _ _, ih hjs⟩

theorem emitA64Push_pushes (his : emitA64Push regs = some is) : ∀ i ∈ is, Pushes i := by
  rw [emitA64Push] at his
  split at his
  · obtain ⟨first, -, hrest⟩ := Option.bind_eq_some_iff.mp his
    obtain ⟨js, hjs, rfl⟩ := Option.map_eq_some_iff.mp hrest
    exact List.forall_mem_cons.mpr ⟨.one _, pushPairs_pushes hjs⟩
  · exact pushPairs_pushes his

theorem emitA64Pop_pops : ∀ i ∈ emitA64Pop regs, Pops i := by
  fun_induction emitA64Pop regs with
  | case1 => exact fun i hi => absurd hi List.not_mem_nil
  | case2 regs hne first second hsecond ih => exact List.forall_mem_cons.mpr ⟨.pair _ _, ih⟩
  | case3 regs hne first second hsecond ih => exact List.forall_mem_cons.mpr ⟨.one _, ih⟩

/-- What one push does besides saving its registers. -/
structure Lowered (s u : State) (n : Nat) : Prop where
  pc : u.pc = s.pc + BitVec.ofNat 64 (4 * n)
  sp : u.sp = s.sp - BitVec.ofNat 64 (16 * n)
  get : ∀ r, u.get r = s.get r
  mem : ∀ d, d + 16 * n < 2 ^ 64 → u.mem (s.sp + BitVec.ofNat 64 d) = s.mem (s.sp + BitVec.ofNat 64 d)

theorem store64_below {m : Word → Bytes.Byte} {p w : Word} {n d : Nat} (hn : 8 ≤ n) (hd : d + n < 2 ^ 64) :
    store64 m (p - BitVec.ofNat 64 n) w (p + BitVec.ofNat 64 d) = m (p + BitVec.ofNat 64 d) := by
  apply store64_of_ge
  have hsub : p + BitVec.ofNat 64 d - (p - BitVec.ofNat 64 n) = BitVec.ofNat 64 (n + d) := by
    rw [← A64Stack.sub_add_ofNat p n d, add_sub_cancel_left]
  rw [hsub, BitVec.toNat_ofNat, Nat.mod_eq_of_lt (by omega)]
  omega

theorem Pushes.lowered {i : A64.Inst} (h : Pushes i) (s : State) : Lowered s (A64.exec i s) 1 := by
  cases h with
  | pair a b =>
      rw [A64Stack.pushPair_exec]
      refine ⟨rfl, rfl, fun r => rfl, fun d hd => ?_⟩
      dsimp only
      rw [store64_below (by decide) (by omega), store64_below (by decide) (by omega)]
  | one a =>
      rw [A64Stack.pushReg_exec]
      refine ⟨rfl, rfl, fun r => rfl, fun d hd => ?_⟩
      dsimp only
      rw [store64_below (by decide) (by omega)]

theorem pushes_lowered (h : ∀ i ∈ is, Pushes i) (s : State) : Lowered s (A64Stack.execAll is s) is.length := by
  induction is generalizing s with
  | nil => exact ⟨(add_zero _).symm, (sub_zero _).symm, fun r => rfl, fun d _ => rfl⟩
  | cons i is ih =>
      have hfirst := (h i List.mem_cons_self).lowered s
      have hrest := ih (fun j hj => h j (List.mem_cons_of_mem i hj)) (A64.exec i s)
      rw [A64Stack.execAll_cons, List.length_cons]
      refine ⟨?_, ?_, fun r => (hrest.get r).trans (hfirst.get r), fun d hd => ?_⟩
      · rw [hrest.pc, hfirst.pc]
        exact A64Emit.cell_succ s.pc is.length
      · rw [hrest.sp, hfirst.sp, sub_sub, ← BitVec.ofNat_add]
        congr 2
        omega
      · have hshift := A64Stack.sub_add_ofNat s.sp (16 * 1) d
        rw [← hfirst.sp] at hshift
        rw [← hfirst.mem d (by omega), ← hshift]
        exact hrest.mem _ (by omega)

theorem Pops.pc {i : A64.Inst} (h : Pops i) (s : State) : (A64.exec i s).pc = s.pc + 4 := by
  cases h with
  | pair a b => rw [A64Stack.popPair_exec]
  | one a => rw [A64Stack.popReg_exec]

theorem Pops.mem {i : A64.Inst} (h : Pops i) (s : State) : (A64.exec i s).mem = s.mem := by
  cases h with
  | pair a b =>
      rw [A64Stack.popPair_exec]
      exact State.set_mem.trans State.set_mem
  | one a =>
      rw [A64Stack.popReg_exec]
      exact State.set_mem

theorem pops_mem (h : ∀ i ∈ is, Pops i) (s : State) : (A64Stack.execAll is s).mem = s.mem := by
  induction is generalizing s with
  | nil => rfl
  | cons i is ih =>
      rw [A64Stack.execAll_cons, ih (fun j hj => h j (List.mem_cons_of_mem i hj)), (h i List.mem_cons_self).mem]

theorem SlotsAt.rebase {s' : State} {o : Nat} (h : SlotsAt s u o ms) (hsame : ∀ k ∈ ms, s'.get (reg k) = s.get (reg k)) :
    SlotsAt s' u o ms := by
  induction o, ms using A64Stack.SlotsAt.induct with
  | case1 o => trivial
  | case2 o a =>
      rw [SlotsAt, hsame a (List.mem_singleton_self a)]
      exact h
  | case3 o a b ms ih =>
      obtain ⟨ha, hb, hrest⟩ := h
      refine ⟨?_, ?_, ih hrest fun k hk => hsame k (by simp [hk])⟩
      · rw [hsame a (by simp)]
        exact ha
      · rw [hsame b (by simp)]
        exact hb

theorem pushPairs_length {rounds : Nat} (his : A64Stack.pushPairs rounds regs = some is) : is.length ≤ rounds := by
  induction rounds generalizing regs is with
  | zero =>
      rw [A64Stack.pushPairs] at his
      split at his
      · rw [← Option.some.inj his, List.length_nil]
      · exact absurd his (by simp)
  | succ rounds ih =>
      rw [A64Stack.pushPairs] at his
      split at his
      · rw [← Option.some.inj his, List.length_nil]
        exact Nat.zero_le _
      · obtain ⟨top, -, hrest⟩ := Option.bind_eq_some_iff.mp his
        obtain ⟨js, hjs, rfl⟩ := Option.map_eq_some_iff.mp hrest
        exact Nat.succ_le_succ (ih hjs)

theorem emitA64Push_length (his : emitA64Push regs = some is) : is.length ≤ 17 := by
  rw [emitA64Push] at his
  split at his
  · obtain ⟨first, -, hrest⟩ := Option.bind_eq_some_iff.mp his
    obtain ⟨js, hjs, rfl⟩ := Option.map_eq_some_iff.mp hrest
    exact Nat.succ_le_succ (pushPairs_length hjs)
  · exact (pushPairs_length his).trans (by decide)

/-- The state that a pop leads to: the registers of the set are those of the push, the others those before the pop. -/
def restored (ms : List Nat) (s v : State) : State :=
  { v with sp := s.sp, x := fun r => if r.toNat ∈ ms then s.x r else v.x r }

theorem restored_get (r : Reg) : (restored ms s v).get r = if r.toNat ∈ ms then s.get r else v.get r := by
  simp only [State.get, restored]
  split_ifs <;> rfl

theorem Kept.restore (h : Kept s ms u) (hlen : ms.length ≤ 32) (hms : Saveable ms) {n : Nat}
    (hv : Intact machine (depth ms + n) u v) : Kept (restored ms s v) ms v where
  stack := (show v.sp = u.sp from hv.sp).trans h.stack
  slots := by
    have hdepth := A64Stack.depth_le hlen
    have hsp : v.sp = u.sp := hv.sp
    refine SlotsAt.rebase (h.slots.congr fun d hd => ?_) fun k hk => ?_
    · rw [hsp]
      refine load64_congr fun i hi => ?_
      rw [A64Stack.add_ofNat_assoc]
      exact hv.mem _ (by omega)
    · have hlt := hms k hk
      rw [restored_get, A64Stack.reg_toNat (by omega), if_pos hk]
  others r hr := by rw [restored_get, if_neg hr]

theorem saves (hms : Saveable (members regs)) : ∃ is, emitA64Push regs = some is ∧
    Saves machine regs (depth (members regs)) (is.map .core) ((emitA64Pop regs).map .core) := by
  have hpush (s : State) : ∃ is, emitA64Push regs = some is ∧ Kept s (members regs) (A64Stack.execAll is s) := by
    have hlen : (members regs ++ []).length ≤ 32 := by
      rw [List.append_nil]
      exact members_length_le
    have hnil : Kept s [] s := A64Stack.kept_nil_iff.mpr ⟨rfl, fun r => rfl⟩
    have hspec := A64Stack.emitA64Push_spec hnil rfl (Or.inl rfl) hms (fun j _ k hk => absurd hk List.not_mem_nil) hlen
    rwa [List.append_nil] at hspec
  obtain ⟨is, his, -⟩ := hpush ⟨0, fun _ => 0, 0, ⟨false, false, false, false⟩, fun _ => 0⟩
  refine ⟨is, his, fun s => ?_⟩
  obtain ⟨is', his', hkept⟩ := hpush s
  obtain rfl : is = is' := Option.some.inj (his.symm.trans his')
  have hlow := pushes_lowered (emitA64Push_pushes his) s
  have hlen := emitA64Push_length his
  have hdepth : depth (members regs) ≤ 512 := A64Stack.depth_le members_length_le
  have hroom : 16 * is.length = depth (members regs) := by
    have heq := sub_right_injective (hlow.sp.symm.trans hkept.stack)
    have hnat := congrArg BitVec.toNat heq
    rwa [BitVec.toNat_ofNat, BitVec.toNat_ofNat, Nat.mod_eq_of_lt (by omega), Nat.mod_eq_of_lt (by omega)] at hnat
  refine ⟨A64Stack.execAll is s, goes_core hlow.pc, fun r _ => hlow.get (reg r), fun v n hn hv => ?_⟩
  have hback := A64Stack.emitA64Pop_spec (Kept.restore hkept members_length_le hms hv) hms
  obtain ⟨hsp, hget⟩ := A64Stack.kept_nil_iff.mp hback
  refine ⟨A64Stack.execAll (emitA64Pop regs) v, goes_core (execAll_pc fun i hi => (emitA64Pop_pops i hi).pc), ⟨hsp, ?_⟩,
    fun r hr => ?_⟩
  · intro d hd
    show (A64Stack.execAll (emitA64Pop regs) v).mem (s.sp + BitVec.ofNat 64 d) = s.mem (s.sp + BitVec.ofNat 64 d)
    have haddr := A64Stack.sub_add_ofNat s.sp (depth (members regs)) d
    rw [← hkept.stack] at haddr
    rw [pops_mem emitA64Pop_pops, ← hlow.mem d (by omega), ← haddr]
    exact hv.mem _ (by omega)
  · show (A64Stack.execAll (emitA64Pop regs) v).get (reg r) = _
    have hlt : r < 31 := hr
    rw [hget, restored_get, A64Stack.reg_toNat (by omega)]
    simp only [mem_members]
    rfl

end Stack

section Calls

variable {argno : Nat} {start tramp fptr : Word} {args : Nat → Word}

def standing (start : Word) : State := ⟨start, fun _ => 0, 0, ⟨false, false, false, false⟩, fun _ => 0⟩

def routine (tramp : Word) : Routine 64 State where
  entry := tramp
  run u := u.goto (u.get A64.lr)

theorem routine_abides : Abides machine (routine tramp) a64.lr abi.clobbers frame where
  returns _ _ := rfl
  keeps _ _ _ _ _ := rfl
  stack _ _ := ⟨rfl, fun _ _ => rfl⟩

theorem toPush_bit {r : Nat} (hn : argno ≤ 8) :
    (a64ToPush argno).getLsbD r = decide (argno ≤ r ∧ r ≤ 8 ∨ r = 30) := by
  have hall : ∀ n : Fin 9, ∀ r : Fin 32, (a64ToPush n).getLsbD r = decide (n.val ≤ r ∧ r.val ≤ 8 ∨ r.val = 30) := by decide
  by_cases hr : r < 32
  · exact hall ⟨argno, by omega⟩ ⟨r, hr⟩
  · rw [BitVec.getLsbD_of_ge _ _ (by omega), decide_eq_false (by omega)]

theorem saves_small {regs : BitVec 32} (hms : ∀ k ∈ members regs, k < 31) (hlen : (members regs).length ≤ 15) :
    ∃ room is js, a64.push regs = some is ∧ a64.pop regs = some js ∧ Saves machine regs room is js ∧ 2 * room ≤ frame := by
  obtain ⟨is, his, hsaves⟩ := saves hms
  refine ⟨_, _, _, congrArg (Option.map _) his, rfl, hsaves, ?_⟩
  rw [depth, frame]
  omega

theorem lawful (hn : argno ≤ 8) : Lawful a64 machine abi argno where
  few := hn
  convention :=
    { even := fun _ => show 4 % 2 = 0 from rfl
      general := fun r hr => show r < 31 by rcases hr with hr | rfl <;> [omega; decide]
      ne := by decide
      outer := fun r => reglist_bit hn
      args := fun r hr => by
        rw [show a64.toPush argno = a64ToPush argno from rfl, toPush_bit hn, decide_eq_false (by omega)]
      f := (toPush_bit hn).trans (decide_eq_true (Or.inl ⟨hn, le_refl 8⟩))
      lr := (toPush_bit hn).trans (decide_eq_true (Or.inr rfl))
      clobbers := fun r hr => by
        have hr : r ≤ 8 ∨ r = 30 := hr
        rw [show a64.toPush argno = a64ToPush argno from rfl, toPush_bit hn, decide_eq_true_eq]
        omega }
  outer := by
    have hsmall : ∀ n : Fin 9, (∀ k ∈ members (reglist n), k < 31) ∧ (members (reglist n)).length ≤ 15 := by decide
    by_cases h0 : argno = 0
    · subst h0
      exact ⟨0, [], [], rfl, rfl, saves_nil, by decide⟩
    · rw [outerPush, outerPop, if_neg h0, if_neg h0]
      exact saves_small (hsmall ⟨argno, by omega⟩).1 (hsmall ⟨argno, by omega⟩).2
  inner := by
    have hsmall : ∀ n : Fin 9, (∀ k ∈ members (a64ToPush n), k < 31) ∧ (members (a64ToPush n)).length ≤ 15 := by decide
    exact saves_small (hsmall ⟨argno, by omega⟩).1 (hsmall ⟨argno, by omega⟩).2
  sets r hr v := sets_copy (by rcases hr with hr | rfl | rfl <;> [omega; decide; decide]) v
  links := links_blr
  arguments _ _ := rfl
  function := rfl
  width := by decide

theorem branchLink_far {site : Word} : (∃ r, a64.branchLink site tramp = some r ∧ r.ret ≠ 0) ↔
    ¬BranchEmitters.Within (BranchEmitters.A64.reach BranchEmitters.AL) 4 (tramp - site).toInt := by
  have hlink : a64.branchLink site tramp = BranchEmitters.A64.emitBranchCondAt site tramp BranchEmitters.AL true := rfl
  rw [hlink, BranchEmitters.A64.emitBranchCondAt, if_neg (by decide), if_pos rfl, BranchEmitters.Within,
    BranchEmitters.A64.reach, if_pos rfl]
  by_cases hfar : (tramp - site).toInt < -134217728 ∨ (tramp - site).toInt > 134217724
  · rw [if_pos hfar]
    exact iff_of_true ⟨_, rfl, by decide⟩ (by omega)
  · rw [if_neg hfar]
    refine iff_of_false ?_ (by omega)
    rintro ⟨r, hr, hret⟩
    obtain ⟨i, -, rfl⟩ := Option.map_eq_some_iff.mp hr
    exact hret rfl

theorem safe_iff_far (hn : argno ≤ 8) (heven : start.toNat % 2 = 0) : Safe a64 machine abi start tramp fptr argno args ↔
    ¬BranchEmitters.Within (BranchEmitters.A64.reach BranchEmitters.AL) 4 (tramp - callSite a64 start fptr argno args).toInt :=
  (safe_iff (R := routine tramp) (s := standing start) (lawful hn) ⟨heven, rfl⟩ rfl rfl routine_abides).trans branchLink_far

end Calls

end Mambo.A64SafeFcalls
