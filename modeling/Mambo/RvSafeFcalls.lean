import Mambo.SafeFcallRuns

namespace Mambo.RvSafeFcalls

open ByteMemory RegLists RvCode RvEmit RvStack
open Rv (Reg Word State zero ra sp)
open RvPlugin (Machine)
open CallRuns (Routine Goes Sets Saves Links Abides Intact SameStack Silent)
open SafeFcalls SafeFcallRuns

section Machines

def reg (k : Nat) : Reg := BitVec.ofNat 5 k

/-- A jump through a register drops the lowest bit. -/
def machine : CallRuns.Machine 64 RvPlugin.Inst Machine where
  exec i m := some (RvPlugin.exec i m)
  calls
    | .core (.jal rd _) | .core (.jalr rd _ _) => rd == ra
    | _ => false
  size := rvSize
  place m := (m.core.pc, false)
  jump a := (a &&& ~~~1, false)
  set := false
  general r := r < 32 ∧ r ≠ 2
  get m r := m.get (reg r)
  sp m := m.get sp
  mem m := m.core.mem

def abi : Abi where
  argument a := 10 + a
  function := 17
  clobbers r := 10 ≤ r ∧ r ≤ 17 ∨ r = 1

end Machines

section Straight

/-- What saves, restores and sets registers: it writes only registers of a list and goes on behind itself. -/
inductive Touches (rs : List Reg) : Rv.Inst → Prop
  | lui {rd : Reg} (imm : BitVec 20) (h : rd ∈ rs) : Touches rs (.lui rd imm)
  | addi {rd : Reg} (rs1 : Reg) (imm : BitVec 12) (h : rd ∈ rs) : Touches rs (.addi rd rs1 imm)
  | addiw {rd : Reg} (rs1 : Reg) (imm : BitVec 12) (h : rd ∈ rs) : Touches rs (.addiw rd rs1 imm)
  | cSlli {rd : Reg} (hi : BitVec 1) (lo : BitVec 5) (h : rd ∈ rs) : Touches rs (.cSlli rd hi lo)
  | cLdsp {rd : Reg} (hi : BitVec 1) (lo : BitVec 5) (h : rd ∈ rs) : Touches rs (.cLdsp rd hi lo)
  | cAddi16sp (hi : BitVec 1) (lo : BitVec 5) (h : sp ∈ rs) : Touches rs (.cAddi16sp hi lo)
  | sd (rs2 rs1 : Reg) (hi : BitVec 7) (lo : BitVec 5) : Touches rs (.sd rs2 rs1 hi lo)

variable {is js : List Rv.Inst} {i : Rv.Inst} {rs rs' : List Reg} {regs : BitVec 32} {rd r : Reg} {value : Word}
  {s u : State} {m : Machine}

theorem Touches.mono (h : Touches rs i) (hsub : ∀ r ∈ rs, r ∈ rs') : Touches rs' i := by
  cases h with
  | lui imm h => exact .lui imm (hsub _ h)
  | addi rs1 imm h => exact .addi rs1 imm (hsub _ h)
  | addiw rs1 imm h => exact .addiw rs1 imm (hsub _ h)
  | cSlli hi lo h => exact .cSlli hi lo (hsub _ h)
  | cLdsp hi lo h => exact .cLdsp hi lo (hsub _ h)
  | cAddi16sp hi lo h => exact .cAddi16sp hi lo (hsub _ h)
  | sd rs2 rs1 hi lo => exact .sd rs2 rs1 hi lo

theorem Touches.plain (h : Touches rs i) : CodeRuns.Plain Rv.rv i := by
  cases h <;> exact fun s => rfl

theorem Touches.silent (h : Touches rs i) : machine.calls (.core i) = false := by
  cases h <;> rfl

theorem Touches.get (h : Touches rs i) (hr : r ∉ rs) (s : State) : (Rv.exec i s).get r = s.get r := by
  cases h with
  | sd rs2 rs1 hi lo => rfl
  | lui imm h => exact State.get_set_of_ne fun heq => hr (heq ▸ h)
  | addi rs1 imm h => exact State.get_set_of_ne fun heq => hr (heq ▸ h)
  | addiw rs1 imm h => exact State.get_set_of_ne fun heq => hr (heq ▸ h)
  | cSlli hi lo h => exact State.get_set_of_ne fun heq => hr (heq ▸ h)
  | cLdsp hi lo h => exact State.get_set_of_ne fun heq => hr (heq ▸ h)
  | cAddi16sp hi lo h =>
      have hne : r ≠ sp := fun heq => hr (heq ▸ h)
      exact State.get_set_of_ne hne

theorem silent_core (h : ∀ i ∈ is, Touches rs i) : Silent machine (is.map .core) := by
  intro i hi
  obtain ⟨j, hj, rfl⟩ := List.mem_map.mp hi
  exact (h j hj).silent

theorem touches_stores (rl : List Reg) (o : Nat) : ∀ i ∈ stores rl o, Touches [sp] i := by
  induction rl generalizing o with
  | nil => exact fun i hi => absurd hi List.not_mem_nil
  | cons r rl ih => exact List.forall_mem_cons.mpr ⟨.sd _ _ _ _, ih (o + 8)⟩

theorem touches_push (his : riscvPush regs = some is) : ∀ i ∈ is, Touches [sp] i := by
  rw [riscvPush_eq] at his
  obtain rfl := Option.some.inj his
  exact List.forall_mem_cons.mpr ⟨.addi _ _ (List.mem_singleton_self sp), touches_stores _ _⟩

theorem touches_loads {rl : List Reg} {o : Nat} (his : loads rl o = some is) : ∀ i ∈ is, Touches rl i := by
  induction rl generalizing o is with
  | nil =>
      obtain rfl := Option.some.inj his
      exact fun i hi => absurd hi List.not_mem_nil
  | cons r rl ih =>
      simp only [loads, Option.bind_eq_bind, Option.bind_eq_some_iff, Option.pure_def, Option.some.injEq] at his
      obtain ⟨pair, -, rest, hrest, rfl⟩ := his
      refine List.forall_mem_cons.mpr ⟨.cLdsp _ _ List.mem_cons_self, fun i hi => ?_⟩
      exact (ih hrest i hi).mono fun r' hr' => List.mem_cons_of_mem r hr'

theorem touches_unstack (n : Nat) : Touches [sp] (unstack n) := by
  rw [unstack]
  split
  · exact .cAddi16sp _ _ (List.mem_singleton_self sp)
  · exact .addi _ _ (List.mem_singleton_self sp)

theorem touches_pop (his : riscvPop regs = some is) : ∀ i ∈ is, Touches (sp :: regList regs) i := by
  rw [riscvPop_eq] at his
  obtain ⟨is', hloads, rfl⟩ := pop_some his
  intro i hi
  rcases List.mem_append.mp hi with hi | hi
  · exact (touches_loads hloads i hi).mono fun r hr => List.mem_cons_of_mem sp hr
  · rw [List.mem_singleton.mp hi]
    exact (touches_unstack _).mono fun r hr => by
      rw [List.mem_singleton.mp hr]
      exact List.mem_cons_self

theorem touches_copy32 (v : BitVec 32) : ∀ i ∈ copyToReg32bits rd v, Touches [rd] i := by
  intro i hi
  rcases List.mem_append.mp hi with hi | hi
  · split at hi
    · rw [List.mem_singleton.mp hi]
      exact .lui _ (List.mem_singleton_self rd)
    · exact absurd hi List.not_mem_nil
  · split at hi
    · rw [List.mem_singleton.mp hi]
      exact .addiw _ _ (List.mem_singleton_self rd)
    · exact absurd hi List.not_mem_nil

theorem touches_copy : ∀ i ∈ copyToReg rd value, Touches [rd] i := by
  rw [copyToReg]
  fun_induction copyToReg64bits rd value with
  | case1 value hsmall => exact touches_copy32 _
  | case2 value hbig lo12 hi52 shift ih =>
      intro i hi
      rcases List.mem_append.mp hi with hi | hi
      · exact ih i hi
      · rcases List.mem_cons.mp hi with rfl | hi
        · exact .cSlli _ _ (List.mem_singleton_self rd)
        · split at hi
          · rw [List.mem_singleton.mp hi]
            exact .addi _ _ (List.mem_singleton_self rd)
          · exact absurd hi List.not_mem_nil

end Straight

section Laws

variable {is js : List Rv.Inst} {rs : List Reg} {regs : BitVec 32} {rd r : Reg} {value : Word} {s u : State} {m : Machine}
  {k : Nat}

theorem reg_toNat (hk : k < 32) : (reg k).toNat = k := by
  rw [reg, BitVec.toNat_ofNat, Nat.mod_eq_of_lt hk]

theorem reg_ne {j : Nat} (hj : j < 32) (hk : k < 32) (hne : j ≠ k) : reg j ≠ reg k := by
  intro heq
  have hnat := congrArg BitVec.toNat heq
  rw [reg_toNat hj, reg_toNat hk] at hnat
  exact hne hnat

theorem execAll_core (is : List Rv.Inst) (m : Machine) :
    CallRuns.execAll machine (is.map .core) m = some { m with core := RvCode.execAll is m.core } := by
  induction is generalizing m with
  | nil => rfl
  | cons i is ih => exact ih { m with core := Rv.exec i m.core }

theorem bytes_core (is : List Rv.Inst) : CallRuns.bytes machine (is.map .core) = bytes is := by
  induction is with
  | nil => rfl
  | cons i is ih =>
      rw [List.map_cons, CallRuns.bytes, List.map_cons, List.sum_cons, ← CallRuns.bytes, ih]
      rfl

theorem goes_core (htouches : ∀ i ∈ is, Touches rs i)
    (hexec : RvCode.execAll is m.core = u.goto (past m.core.pc (bytes is))) :
    Goes machine (is.map .core) m { m with core := u.goto (past m.core.pc (bytes is)) } where
  silent := silent_core htouches
  exec := by rw [execAll_core, hexec]
  place := by
    rw [bytes_core]
    rfl

/-- The constant is loaded, by the run over the code in an otherwise empty memory. -/
theorem copyToReg_exec (hrd : rd ≠ zero) : RvCode.execAll (copyToReg rd value) s =
    (s.set rd value).goto (past s.pc (bytes (copyToReg rd value))) := by
  have hlen := bytes_copyToReg rd value
  have hcode : CodeRuns.CodeAt Rv.rv (Rv.fetch (emit s.pc (copyToReg rd value) fun _ => none)) s.pc (copyToReg rd value) :=
    emit_codeAt (by omega)
  have hstop : Rv.fetch (emit s.pc (copyToReg rd value) fun _ => none) (past s.pc (bytes (copyToReg rd value))) = none := by
    rw [Rv.fetch, emit_outside fun k hk heq => absurd (past_inj (by omega) (by omega) heq) (by omega)]
  have hplain : ∀ i ∈ copyToReg rd value, CodeRuns.Plain Rv.rv i := fun i hi => (touches_copy i hi).plain
  obtain ⟨hreach, hpc⟩ := hcode.reaches (s := s) hplain
  have hrun := copyToReg_run (s := s) hrd hcode
  have hend : (RvCode.execAll (copyToReg rd value) s).pc = past s.pc (bytes (copyToReg rd value)) :=
    hpc.trans (past_bytes _ _)
  exact hreach.stop_unique (by rw [← hstop, ← hend]; rfl) hrun hstop

theorem sets_copy (hk : k < 32 ∧ k ≠ 2 ∧ k ≠ 0) (value : Word) : Sets machine k value (riscv.setReg k value) := by
  intro m
  have hzero : reg k ≠ reg 0 := reg_ne hk.1 (by decide) hk.2.2
  have hsp : sp ≠ reg k := (reg_ne hk.1 (by decide) hk.2.1).symm
  refine ⟨_, goes_core touches_copy (copyToReg_exec hzero), State.get_set_self hzero,
    fun r hr hrk => State.get_set_of_ne (reg_ne hr.1 hk.1 hrk), State.get_set_of_ne hsp, State.set_mem⟩

theorem and_even {p : Word} (h : p.toNat % 2 = 0) : p &&& ~~~1 = p :=
  even_masked (by rw [BitVec.getLsbD, Nat.testBit_zero, decide_eq_false (by omega)])

theorem links_jalr : Links machine 1 (.core (.jalr ra ra 0)) := by
  refine ⟨rfl, fun m hm => ⟨_, rfl, ?_, ?_, fun r hr hne => ?_, ?_, ?_⟩⟩
  · have hzero : (0 : BitVec 12).signExtend 64 = 0 := by decide
    show ((m.core.get ra + (0 : BitVec 12).signExtend 64) &&& ~~~1, false) = (m.core.get ra &&& ~~~1, false)
    rw [hzero, add_zero]
  · have heven : (m.core.pc + 4).toNat % 2 = 0 := by
      have hpc : m.core.pc.toNat % 2 = 0 := hm.1
      rw [BitVec.toNat_add, show (4 : Word).toNat = 4 from rfl]
      omega
    show ((m.core.set ra (m.core.pc + 4)).get ra &&& ~~~1, false) = (m.core.pc + 4, false)
    rw [State.get_set_self (by decide), and_even heven]
  · exact State.get_set_of_ne (reg_ne hr.1 (by decide) hne)
  · show (m.core.set ra (m.core.pc + 4)).get sp = m.core.get sp
    exact State.get_set_of_ne (by decide)
  · exact State.set_mem

theorem loaded_mem (rl : List Reg) (o : Nat) (s : State) : (loaded rl o s).mem = s.mem := by
  induction rl generalizing o s with
  | nil => rfl
  | cons r rl ih => rw [loaded, ih, State.set_mem]

theorem storeAll_below {mem : Word → Bytes.Byte} {p : Word} {vs : List Word} {d : Nat} (hd : 8 * vs.length + d < 2 ^ 64) :
    storeAll mem (p - BitVec.ofNat 64 (8 * vs.length)) vs (p + BitVec.ofNat 64 d) = mem (p + BitVec.ofNat 64 d) := by
  apply storeAll_of_ge
  have hsub : p + BitVec.ofNat 64 d - (p - BitVec.ofNat 64 (8 * vs.length)) = BitVec.ofNat 64 (8 * vs.length + d) := by
    rw [← A64Stack.sub_add_ofNat p (8 * vs.length) d, add_sub_cancel_left]
  rw [hsub, BitVec.toNat_ofNat, Nat.mod_eq_of_lt hd]
  omega

theorem saves (hregs : Saveable regs) (his : riscvPush regs = some is) (hjs : riscvPop regs = some js) :
    Saves machine regs (8 * (regList regs).length) (is.map .core) (js.map .core) := by
  have hlen := @RvPluginStack.length_regList_le regs
  have hsp : sp ∉ regList regs := sp_notMem hregs.sp
  have hzero : zero ∉ regList regs := by
    rw [mem_regList, show zero.toNat = 0 from rfl, hregs.zero]
    exact Bool.false_ne_true
  intro m
  have hpush := execAll_push (t := m.core) hregs.sp his
  refine ⟨_, goes_core (touches_push his) hpush, fun r hr => pushed_get (reg_ne hr.1 (by decide) hr.2),
    fun v n hn hv => ?_⟩
  have hvsp : v.core.get sp = m.core.get sp - BitVec.ofNat 64 (8 * (regList regs).length) := hv.sp.trans pushed_sp
  have hbytes (d : Nat) (hd : d < 8 * (regList regs).length + n) : v.core.mem (v.core.get sp + BitVec.ofNat 64 d) =
      storeAll m.core.mem (v.core.get sp) ((regList regs).map m.core.get) (v.core.get sp + BitVec.ofNat 64 d) := by
    have hmem := hv.mem d hd
    have hsp' : machine.sp v = _ := hv.sp
    rw [← hsp'] at hmem
    rw [hvsp, ← pushed_mem, ← hvsp]
    exact hmem
  have hpop := pop_exec (s := v.core) (a := v.core.pc) (riscvPop_eq ▸ hjs) hsp hlen
  refine ⟨_, goes_core (touches_pop hjs) hpop, ⟨?_, fun d hd => ?_⟩, fun r hr => ?_⟩
  · show (popped (regList regs) v.core).get sp = m.core.get sp
    rw [popped, State.get_set_self (by decide), hvsp, sub_add_cancel]
  · show (popped (regList regs) v.core).mem (m.core.get sp + BitVec.ofNat 64 d) = m.core.mem (m.core.get sp + BitVec.ofNat 64 d)
    have hmem := hbytes (8 * (regList regs).length + d) (by omega)
    have hbelow : storeAll m.core.mem (m.core.get sp - BitVec.ofNat 64 (8 * ((regList regs).map m.core.get).length))
        ((regList regs).map m.core.get) (m.core.get sp + BitVec.ofNat 64 d) = m.core.mem (m.core.get sp + BitVec.ofNat 64 d) :=
      storeAll_below (by rw [List.length_map]; omega)
    have haddr : v.core.get sp + BitVec.ofNat 64 (8 * (regList regs).length + d) = m.core.get sp + BitVec.ofNat 64 d := by
      rw [hvsp, BitVec.ofNat_add, ← add_assoc, sub_add_cancel]
    rw [List.length_map, ← hvsp] at hbelow
    rw [haddr, hbelow] at hmem
    rw [popped, State.set_mem, loaded_mem]
    exact hmem
  · have hne : reg r ≠ sp := reg_ne hr.1 (by decide) hr.2
    have hin : reg r ∈ regList regs ↔ regs.getLsbD r = true := by rw [mem_regList, reg_toNat hr.1]
    show (popped (regList regs) v.core).get (reg r) = if regs.getLsbD r = true then m.core.get (reg r) else v.core.get (reg r)
    rw [popped, State.get_set_of_ne hne]
    by_cases hmem : reg r ∈ regList regs
    · obtain ⟨i, hi⟩ := List.getElem?_of_mem hmem
      obtain ⟨hlt, -⟩ := List.getElem?_eq_some_iff.mp hi
      have hword : ((regList regs).map m.core.get)[i]? = some (m.core.get (reg r)) := by
        rw [List.getElem?_map, hi, Option.map_some]
      rw [if_pos (hin.mp hmem), loaded_of_mem regList_nodup hzero hsp hi, Nat.zero_add,
        ← load64_storeAll (m := m.core.mem) (a := v.core.get sp) (by rw [List.length_map]; omega) hword, past]
      refine load64_congr fun d hd => ?_
      rw [add_assoc, ← BitVec.ofNat_add]
      exact hbytes _ (by omega)
    · rw [if_neg fun h => hmem (hin.mpr h), loaded_get hmem]

end Laws

section Calls

variable {start tramp fptr site : Word} {args : Nat → Word} {argno : Nat}

/-- A state to run the code in, with one value in every register, and some trampoline. -/
def standing (start v : Word) : Machine := ⟨⟨start, fun _ => v, fun _ => 0⟩, fun _ => 0⟩

def routine (tramp : Word) : Routine 64 Machine where
  entry := tramp
  run m := m.goto (m.get ra &&& ~~~1)

theorem routine_abides : Abides machine (routine tramp) riscv.lr abi.clobbers frame where
  returns _ _ := rfl
  keeps _ _ _ _ _ := rfl
  stack _ _ := ⟨rfl, fun _ _ => rfl⟩

theorem toPush_bit : ∀ r, (rvToPush 0).getLsbD r = decide (10 ≤ r ∧ r ≤ 17 ∨ r = 1) := by
  have hall : ∀ r : Fin 32, (rvToPush 0).getLsbD r = decide (10 ≤ r.val ∧ r.val ≤ 17 ∨ r.val = 1) := by decide
  intro r
  by_cases hr : r < 32
  · exact hall ⟨r, hr⟩
  · rw [BitVec.getLsbD_of_ge _ _ (by omega), decide_eq_false (by omega)]

theorem size_even (i : RvPlugin.Inst) : rvSize i % 2 = 0 := by
  cases i with
  | core i =>
      show i.size % 2 = 0
      rcases RvCode.size_eq i with h | h <;> rw [h]
  | _ =>
      show 4 % 2 = 0
      rfl

theorem push_some (regs : BitVec 32) : ∃ is, riscvPush regs = some is ∧ riscv.push regs = some (is.map .core) := by
  obtain ⟨is, his⟩ := Option.isSome_iff_exists.mp (show (riscvPush regs).isSome by rw [riscvPush_eq]; rfl)
  exact ⟨is, his, congrArg (Option.map _) his⟩

theorem pop_some (regs : BitVec 32) : ∃ is, riscvPop regs = some is ∧ riscv.pop regs = some (is.map .core) := by
  obtain ⟨is, his⟩ := Option.isSome_iff_exists.mp (@riscvPop_isSome regs)
  exact ⟨is, his, congrArg (Option.map _) his⟩

theorem lawful : Lawful riscv machine abi 0 where
  few := Nat.zero_le _
  convention :=
    { even := size_even
      general := fun r hr => by
        have hr : r < 0 ∨ r = 17 := hr
        show r < 32 ∧ r ≠ 2
        omega
      ne := by decide
      outer := fun r => reglist_bit (Nat.zero_le 8)
      args := fun r hr => absurd hr (Nat.not_lt_zero r)
      f := (toPush_bit 17).trans (by decide)
      lr := (toPush_bit 1).trans (by decide)
      clobbers := fun r hr => Or.inl ((toPush_bit r).trans (decide_eq_true hr)) }
  outer := ⟨0, [], [], rfl, rfl, saves_nil, by decide⟩
  inner := by
    have hregs : Saveable (rvToPush 0) := ⟨by decide, by decide, by decide⟩
    have hlen : (regList (rvToPush 0)).length ≤ 16 := by decide
    obtain ⟨is, his, hpush⟩ := push_some (rvToPush 0)
    obtain ⟨js, hjs, hpop⟩ := pop_some (rvToPush 0)
    have hroom : 2 * (8 * (regList (rvToPush 0)).length) ≤ frame := by
      rw [frame]
      omega
    exact ⟨_, _, _, hpush, hpop, saves hregs his hjs, hroom⟩
  sets r hr v := by
    have hr : r < 0 ∨ r = 17 ∨ r = 1 := hr
    exact sets_copy (by omega) v
  links := links_jalr
  arguments a ha := absurd ha (Nat.not_lt_zero a)
  function := rfl
  width := by decide

theorem branchLink_far : (∃ r, riscv.branchLink site tramp = some r ∧ r.ret ≠ 0) ↔
    ¬BranchEmitters.Within BranchEmitters.Rv.reach 2 (tramp - site).toInt := by
  have hlink : riscv.branchLink site tramp =
    some (BranchEmitters.Rv.emitBranchCondAt site tramp BranchEmitters.Rv.AL true) := rfl
  rw [hlink, BranchEmitters.Rv.emitBranchCondAt, if_neg (by decide), if_pos rfl, BranchEmitters.Within,
    BranchEmitters.Rv.reach]
  by_cases hfar : (tramp - site).toInt < -1048576 ∨ (tramp - site).toInt > 1048574
  · rw [if_pos hfar]
    exact iff_of_true ⟨_, rfl, by decide⟩ (by omega)
  · rw [if_neg hfar]
    refine iff_of_false ?_ (by omega)
    rintro ⟨r, hr, hret⟩
    obtain rfl := Option.some.inj hr
    exact hret rfl

def KeepsA0 (is : List RvPlugin.Inst) : Prop :=
  ∀ i ∈ is, ∀ m m', machine.exec i m = some m' → machine.get m' 10 = machine.get m 10

theorem KeepsA0.append {is js : List RvPlugin.Inst} (h : KeepsA0 is) (h' : KeepsA0 js) : KeepsA0 (is ++ js) :=
  fun i hi => (List.mem_append.mp hi).elim (h i) (h' i)

theorem keepsA0_core {is : List Rv.Inst} {rs : List Reg} (h : ∀ i ∈ is, Touches rs i) (hout : reg 10 ∉ rs) :
    KeepsA0 (is.map .core) := by
  intro i hi m m' hm
  obtain ⟨j, hj, rfl⟩ := List.mem_map.mp hi
  rw [← Option.some.inj hm]
  exact (h j hj).get hout m.core

theorem keepsA0_set {k : Nat} (hk : k < 32) (hne : k ≠ 10) (value : Word) : KeepsA0 (riscv.setReg k value) :=
  keepsA0_core touches_copy fun h => reg_ne (by decide) hk hne.symm (List.mem_singleton.mp h)

theorem keepsA0_args (hle : argno ≤ 8) : KeepsA0 ((List.range argno).flatMap fun a => riscv.setReg a (args a)) := by
  intro i hi
  obtain ⟨a, ha, hmem⟩ := List.mem_flatMap.mp hi
  rw [List.mem_range] at ha
  exact keepsA0_set (by omega) (by omega) (args a) i hmem

theorem keepsA0_fcall (r : EmitResults.Result RvPlugin.Inst) : KeepsA0 (fcallCode riscv tramp r) := by
  rw [fcallCode]
  split
  · exact fun i hi => absurd hi List.not_mem_nil
  · refine (keepsA0_set (by decide) (by decide) tramp).append fun i hi m m' hm => ?_
    rw [List.mem_singleton.mp hi] at hm
    rw [← Option.some.inj hm]
    show (m.core.set ra (m.core.pc + 4)).get (reg 10) = m.core.get (reg 10)
    exact State.get_set_of_ne (by decide)

theorem keepsA0_push {regs : BitVec 32} {is : List RvPlugin.Inst} (his : riscv.push regs = some is) : KeepsA0 is := by
  obtain ⟨js, hjs, hpush⟩ := push_some regs
  obtain rfl := Option.some.inj (his.symm.trans hpush)
  exact keepsA0_core (touches_push hjs) fun h => reg_ne (by decide) (by decide) (by decide : 10 ≠ 2) (List.mem_singleton.mp h)

theorem keepsA0_pop {regs : BitVec 32} {is : List RvPlugin.Inst} (his : riscv.pop regs = some is)
    (hout : regs.getLsbD 10 = false) : KeepsA0 is := by
  obtain ⟨js, hjs, hpop⟩ := pop_some regs
  obtain rfl := Option.some.inj (his.symm.trans hpop)
  refine keepsA0_core (touches_pop hjs) fun h => ?_
  rcases List.mem_cons.mp h with h | h
  · exact reg_ne (by decide) (by decide) (by decide : 10 ≠ 2) h
  · rw [mem_regList, reg_toNat (by decide), hout] at h
    exact Bool.false_ne_true h

theorem not_safe_args (hpos : 0 < argno) (hle : argno ≤ 8) : ¬Safe riscv machine abi start tramp fptr argno args := by
  intro hsafe
  have hbits : ∀ n : Fin 9, 0 < n.val → (rvToPush n).getLsbD 10 = false ∧ (reglist n).getLsbD 10 = false := by decide
  obtain ⟨hinner, houter⟩ := hbits ⟨argno, by omega⟩ hpos
  have h0 : argno ≠ 0 := by omega
  obtain ⟨isO, -, hpushO⟩ := push_some (reglist argno)
  obtain ⟨jsO, -, hpopO⟩ := pop_some (reglist argno)
  obtain ⟨isI, -, hpushI⟩ := push_some (rvToPush argno)
  obtain ⟨jsI, -, hpopI⟩ := pop_some (rvToPush argno)
  obtain ⟨e, he, hcode⟩ := @emitStatic_some 64 _ riscv _ _ _ _ start tramp fptr args argno _ _ hle
    (show outerPush riscv argno = some (isO.map .core) by rw [outerPush, if_neg h0, hpushO])
    (show outerPop riscv argno = some (jsO.map .core) by rw [outerPop, if_neg h0, hpopO]) hpushI hpopI (le_refl 0) rfl
  obtain ⟨e', he', hcalls⟩ := hsafe 0 (le_refl 0)
  obtain rfl : e = e' := (Prod.mk.inj (Option.some.inj (he.symm.trans he'))).2
  obtain ⟨u, t, hcalled, -, hargs, -⟩ := hcalls (routine tramp) rfl routine_abides (standing start (args 0 + 1)) rfl
  have hkeeps : KeepsA0 e.code := by
    rw [hcode]
    exact ((keepsA0_push hpushO).append ((keepsA0_args hle).append (((keepsA0_push hpushI).append
      ((keepsA0_set (by decide) (by decide) fptr).append (keepsA0_fcall _))).append (keepsA0_pop hpopI hinner)))).append
      (keepsA0_pop hpopO houter)
  have hfirst := CallRuns.run_first_call (f := fun m => machine.get m 10) hkeeps hcalled.run
  have hvalue : machine.get u 10 = args 0 := hargs 0 hpos
  exact absurd (hfirst.symm.trans hvalue) (by simp [machine, standing, reg, RvPlugin.Machine.get, State.get, zero])

/-- A call is safe where it has no arguments and the trampoline is too far away for a jump. -/
theorem safe_iff_far (hn : argno ≤ 8) (heven : start.toNat % 2 = 0) :
    Safe riscv machine abi start tramp fptr argno args ↔ argno = 0 ∧
      ¬BranchEmitters.Within BranchEmitters.Rv.reach 2 (tramp - callSite riscv start fptr argno args).toInt := by
  by_cases h0 : argno = 0
  · subst h0
    rw [← branchLink_far]
    have hiff : Safe riscv machine abi start tramp fptr 0 args ↔
        ∃ r, riscv.branchLink (callSite riscv start fptr 0 args) tramp = some r ∧ r.ret ≠ 0 :=
      @safe_iff 64 _ _ riscv machine abi start tramp fptr 0 args (routine tramp) (standing start 0) lawful ⟨heven, rfl⟩ rfl
        rfl routine_abides
    exact hiff.trans (iff_and_self.mpr fun _ => rfl)
  · exact iff_of_false (not_safe_args (by omega) hn) fun h => h0 h.1

end Calls

end Mambo.RvSafeFcalls
