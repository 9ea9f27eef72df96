import Mambo.A64BlockSpace
import Mambo.A64ExitLinks
import Mambo.A64LookupRuns
import Mambo.A64Machine

namespace Mambo.A64PositionDependent

open Bytes ByteMemory CodeRuns A64 A64Emit A64Exits A64ExitLinks A64LookupRuns A64Scan A64Machine

section Guests

/-- The address of a literal, an offset in words from the instruction. -/
def wordOffset {n : Nat} (imm : BitVec n) : Word := (imm ++ (0 : BitVec 2)).signExtend 64

def pageOf (pc : Word) : Word := (pc.extractLsb' 12 52 ++ (0 : BitVec 12) : BitVec 64)

/-- The loads of a literal: of 32 bits, of 64, of a signed word, and the prefetch, and
those into the SIMD registers. -/
def loadLiteral (opc : BitVec 2) (v : BitVec 1) (address : Word) (rt : Reg) (m : Machine) : Option Machine :=
  if v = 0 then
    match opc with
    | 0 => some (m.setX rt (BitVec.ofNat 64 (loadBytes m.core.mem address 4)))
    | 1 => some (m.setX rt (BitVec.ofNat 64 (loadBytes m.core.mem address 8)))
    | 2 => some (m.setX rt ((BitVec.ofNat 32 (loadBytes m.core.mem address 4)).signExtend 64))
    | _ => some m
  else
    match opc with
    | 0 => some (m.setV rt (loadBytes m.core.mem address 4))
    | 1 => some (m.setV rt (loadBytes m.core.mem address 8))
    | 2 => some (m.setV rt (loadBytes m.core.mem address 16))
    | _ => none

def literalBytes (opc : BitVec 2) (v : BitVec 1) : Nat :=
  if v = 0 then
    match opc with
    | 0 => 4
    | 1 => 8
    | 2 => 4
    | _ => 0
  else 4 * 2 ^ opc.toNat

/-- What an instruction does at its own address, for those that depend on it and
those on the thread pointer. -/
def guestStep (inst : Guest) (m : Machine) : Option Machine :=
  let pc := m.core.pc
  match inst with
  | .adr op immlo immhi rd =>
    some (m.setX rd (if op = 0 then pc + (immhi ++ immlo).signExtend 64
      else pageOf pc + (immhi ++ immlo ++ (0 : BitVec 12)).signExtend 64)).next
  | .ldrLit opc v imm19 rt => (loadLiteral opc v (pc + wordOffset imm19) rt m).map Machine.next
  | .mrsMsrReg r o0 op1 crn crm op2 rt =>
    if isTpidrEl0 o0 op1 crn crm op2 then
      some (if r = 0 then { m with tpidr := m.core.get rt } else m.setX rt m.tpidr).next
    else none
  | .bBl op imm26 =>
    let linked := if op = 1 then m.setX lr (pc + 4) else m
    some { linked with core := linked.core.goto (pc + wordOffset imm26) }
  | _ => none

/-- The bytes of its literal that an instruction at an address reads. -/
def Literal (inst : Guest) (pc x : Word) : Prop :=
  match inst with
  | .ldrLit opc v imm19 _ => Within (pc + wordOffset imm19) (literalBytes opc v) x
  | _ => False

def IsSimd : Guest → Prop
  | .ldrLit _ v _ _ => v = 1
  | _ => False

end Guests

section Offsets

theorem signExtend_append_zeros {n k : Nat} (hn : 0 < n) (x : BitVec n) :
    (x ++ (0 : BitVec k)).signExtend 64 = x.signExtend 64 <<< k := by
  have hmsb : (x ++ (0 : BitVec k)).msb = x.msb := by
    rw [BitVec.msb_append]
    simp [Nat.ne_of_gt hn]
  apply BitVec.eq_of_getLsbD_eq
  intro i hi
  simp only [BitVec.getLsbD_signExtend, BitVec.getLsbD_shiftLeft, BitVec.getLsbD_append, hmsb, hi, decide_true,
    Bool.true_and]
  by_cases hlow : i < k
  · have hlt : i < n + k := by omega
    simp [hlow, hlt]
  · have hiff : i < n + k ↔ i - k < n := by omega
    have h64 : i - k < 64 := by omega
    simp [hlow, hiff, h64]

theorem wordOffset_eq {n : Nat} (hn : 0 < n) (imm : BitVec n) : wordOffset imm = offset imm :=
  signExtend_append_zeros hn imm

theorem pageOf_eq (pc : Word) : pageOf pc = pc &&& ~~~(0xFFF : Word) := by
  apply BitVec.eq_of_getLsbD_eq
  intro i hi
  have hmask : (0xFFF : Word).getLsbD i = decide (i < 12) :=
    (by decide : ∀ j, j < 64 → (0xFFF : Word).getLsbD j = decide (j < 12)) i hi
  rw [pageOf, BitVec.getLsbD_append, BitVec.getLsbD_and, BitVec.getLsbD_not, hmask]
  by_cases hlow : i < 12
  · simp [hlow]
  · have hadd : 12 + (i - 12) = i := by omega
    have hlt : i - 12 < 52 := by omega
    simp [hlow, hi, hadd, hlt]

theorem adrValue_eq (op : BitVec 1) (immlo : BitVec 2) (immhi : BitVec 19) (pc : Word) :
    adrValue op immlo immhi pc =
      if op = 0 then pc + (immhi ++ immlo).signExtend 64
      else pageOf pc + (immhi ++ immlo ++ (0 : BitVec 12)).signExtend 64 := by
  rw [adrValue, pageOf_eq, signExtend_append_zeros (by decide)]

end Offsets

section Follows

/-- A machine in the code cache follows the guest's: its registers are those of the
guest, the thread pointer is in the record of the thread, and the memory is that of
the guest outside the record, some lost bytes apart. -/
structure Follows (tls : Word) (lost : Word → Prop) (g h : Machine) : Prop where
  x : h.core.x = g.core.x
  sp : h.core.sp = g.core.sp
  flags : h.core.flags = g.core.flags
  simd : h.simd = g.simd
  tpidr : load64 h.core.mem tls = g.tpidr
  mem : ∀ a, ¬Within tls 8 a → ¬lost a → h.core.mem a = g.core.mem a

/-- The block that is entered next takes x0 and x1 from the stack. -/
def resumed (h : Machine) : Machine := { h with core := A64.exec (popPairReg 0 1) h.core }

/-- Where the code for an instruction leads: behind it, or for a branch to the
dispatcher with the target. -/
def Done (mambo : Addresses) (basicBlock : Nat) (inst : Guest) (after : Word) (lost : Word → Prop) (g h : Machine) :
    Prop :=
  match inst with
  | .bBl .. =>
    h.core.pc = mambo.dispatcherAddr ∧ h.core.x 0 = g.core.pc ∧ h.core.x 1 = BitVec.ofNat 64 basicBlock ∧
      Follows mambo.tls lost g (resumed h)
  | _ => h.core.pc = after ∧ Follows mambo.tls lost g h

variable {tls : Word} {lost lost' : Word → Prop} {g h : Machine} {rt : Reg} {p q w : Word} {n : Nat}

theorem Follows.get (hf : Follows tls lost g h) (r : Reg) : h.core.get r = g.core.get r := by
  rw [State.get, State.get, hf.x]

theorem Follows.goto (hf : Follows tls lost g h) (p q : Word) :
    Follows tls lost { g with core := g.core.goto p } { h with core := h.core.goto q } :=
  ⟨hf.x, hf.sp, hf.flags, hf.simd, hf.tpidr, hf.mem⟩

theorem set_x (s : State) (r : Reg) (v : Word) :
    (s.set r v).x = if r = xzr then s.x else Function.update s.x r v := by
  rw [State.set]
  split <;> rfl

theorem Follows.setX (hf : Follows tls lost g h) (rt : Reg) (v : Word) :
    Follows tls lost (g.setX rt v) (h.setX rt v) := by
  refine ⟨?_, ?_, ?_, hf.simd, ?_, ?_⟩
  · rw [Machine.setX, Machine.setX, set_x, set_x, hf.x]
  · rw [Machine.setX, Machine.setX, State.set_sp, State.set_sp, hf.sp]
  · rw [Machine.setX, Machine.setX, State.set_flags, State.set_flags, hf.flags]
  · rw [Machine.setX, Machine.setX, State.set_mem]
    exact hf.tpidr
  · intro a hrecord hkept
    rw [Machine.setX, Machine.setX, State.set_mem, State.set_mem]
    exact hf.mem a hrecord hkept

theorem Follows.setV (hf : Follows tls lost g h) (rt : Reg) (v : Nat) :
    Follows tls lost (g.setV rt v) (h.setV rt v) := by
  refine ⟨hf.x, hf.sp, hf.flags, ?_, hf.tpidr, hf.mem⟩
  rw [Machine.setV, Machine.setV, hf.simd]

theorem Follows.mono (hf : Follows tls lost g h) (hle : ∀ a, lost a → lost' a) : Follows tls lost' g h :=
  ⟨hf.x, hf.sp, hf.flags, hf.simd, hf.tpidr, fun a hrecord hkept => hf.mem a hrecord fun hl => hkept (hle a hl)⟩

end Follows

section Loads

theorem opc_cases : ∀ opc : BitVec 2, opc = 0 ∨ opc = 1 ∨ opc = 2 ∨ opc = 3 := by decide

theorem v_cases : ∀ v : BitVec 1, v = 0 ∨ v = 1 := by decide

def literalValue (opc : BitVec 2) (n : Nat) : Word :=
  if opc = 2 then (BitVec.ofNat 32 n).signExtend 64 else BitVec.ofNat 64 n

variable {opc size op : BitVec 2} {v : BitVec 1} {address : Word} {rt : Reg} {m : Machine} {copied : Word → Machine → Machine}

theorem literalBytes_lt (opc : BitVec 2) (v : BitVec 1) : literalBytes opc v < 2 ^ 64 := by
  revert opc v
  decide

theorem loadLiteral_int (hopc : opc ≠ 3) :
    loadLiteral opc 0 address rt m =
      some (m.setX rt (literalValue opc (loadBytes m.core.mem address (literalBytes opc 0)))) := by
  rcases opc_cases opc with rfl | rfl | rfl | rfl
  · rfl
  · rfl
  · rfl
  · exact absurd rfl hopc

theorem loadLiteral_simd (hopc : opc ≠ 3) :
    loadLiteral opc 1 address rt m = some (m.setV rt (loadBytes m.core.mem address (literalBytes opc 1))) := by
  rcases opc_cases opc with rfl | rfl | rfl | rfl
  · rfl
  · rfl
  · rfl
  · exact absurd rfl hopc

theorem loadLiteral_prefetch : loadLiteral 3 0 address rt m = some m := rfl

theorem access_literal (h : ldrLitFields opc v = some (size, op)) :
    access size v op address rt m = loadLiteral opc v address rt m := by
  rcases v_cases v with rfl | rfl <;> rcases opc_cases opc with rfl | rfl | rfl | rfl
  case inr.inr.inr.inr => cases (h : (none : Option (BitVec 2 × BitVec 2)) = some (size, op))
  all_goals
    obtain ⟨rfl, rfl⟩ := Prod.mk.inj (Option.some.inj h)
    simp [access, loadLiteral]

theorem ldrLit_exec (copied : Word → Machine → Machine) {rn : Reg} (h : ldrLitFields opc v = some (size, op)) :
    A64Machine.exec copied (.ldrStrUnsignedImmed size v op 0 rn rt) m =
      ((loadLiteral opc v (m.core.getBase rn) rt m).map Machine.next).getD m := by
  have hzero : (0 : BitVec 12).setWidth 64 <<< scale size v op = (0 : Word) := by
    rw [show (0 : BitVec 12).setWidth 64 = (0 : Word) from rfl]
    exact BitVec.zero_shiftLeft _
  rw [A64Machine.exec, hzero, add_zero, access_literal h]

end Loads

section Spills

variable {copied : Word → Machine → Machine} {code : Word → Option Out} {m m' : Machine} {s : State} {a v : Word}
  {r : Reg} {o : Out}

def spilled (r : Reg) (v : Word) (s : State) : State := (pushedReg r s).set r v

theorem spilled_x (hr : r ≠ xzr) : (spilled r v s).x = Function.update s.x r v := by
  rw [spilled, set_x, if_neg hr]
  rfl

theorem spill_run (hr : r ≠ xzr)
    (hcode : CodeAt (processor copied) code a (insts (pushReg r :: copyToReg64bits r v) ++ [o, .inst (popReg r)]))
    (hexec : A64Machine.exec copied o { m with core := (spilled r v s).goto (cell a ((copyToReg64bits r v).length + 1)) } =
      m'.next)
    (hpc : m'.core.pc = cell a ((copyToReg64bits r v).length + 1)) :
    Reaches (processor copied) code { m with core := s.goto a }
      { m' with core := (poppedReg r m'.core).goto (cell a ((copyToReg64bits r v).length + 3)) } := by
  rw [codeAt_out_append, codeAt_own] at hcode
  obtain ⟨⟨hpush, hcopy⟩, hload, hpop, -⟩ := hcode
  rw [insts, List.length_map, List.length_cons] at hload hpop
  have hpushRun := pushReg_run (s := s) hpush
  have hcopyRun := copyToReg64bits_run (s := pushedReg r s) hcopy
  rw [a64_size, cell_succ] at hcopyRun
  generalize (copyToReg64bits r v).length = n at *
  change code (cell a (n + 1) + 4) = _ at hpop
  rw [cell_next] at hpop
  have hsaved : Reaches (processor copied) code { m with core := s.goto a }
      { m with core := (spilled r v s).goto (cell a (n + 1)) } :=
    own_run copied ((Relation.ReflTransGen.single hpushRun).trans hcopyRun)
  have hloaded : Steps (processor copied) code { m with core := (spilled r v s).goto (cell a (n + 1)) } m'.next := by
    rw [← hexec]
    exact out_steps copied hload
  have hnext : m'.next = { m' with core := m'.core.goto (cell a (n + 2)) } := by
    rw [Machine.next, State.next, hpc, cell_next]
  have hpopRun := popReg_run (u := m'.core) hr (own_eq_some.mpr hpop)
  rw [cell_next] at hpopRun
  rw [hnext] at hloaded
  exact (hsaved.tail hloaded).trans (own_run (m := m') copied (Relation.ReflTransGen.single hpopRun))

end Spills

section Slots

/-- The bytes that the emitted code may overwrite: those below the stack pointer
that it pushes registers to, besides what was lost before. -/
def below (sp : Word) (lost : Word → Prop) (a : Word) : Prop := lost a ∨ Within (sp - 16) 16 a

variable {tls sp x : Word} {lost : Word → Prop} {s u : State} {g g' h m : Machine} {r : Reg} {q : Word}

theorem within_mono {a : Word} {n k : Nat} (hle : n ≤ k) (h : Within a n x) : Within a k x := lt_of_lt_of_le h hle

theorem within_second {a : Word} (h : Within (a + 8) 8 x) (hout : ¬Within a 16 x) : False := by
  rw [Within] at h hout
  bv_omega

theorem popped_x {y : Reg → Word} (hsp : u.sp = s.sp - 16) (hload : load64 u.mem (s.sp - 16) = s.x r)
    (hx : ∀ r', r' ≠ r → u.x r' = y r') (hy : s.x r = y r) : (poppedReg r u).x = y := by
  funext r'
  by_cases heq : r' = r
  · rw [heq, poppedReg_self, hsp, hload, hy]
  · rw [← hx r' heq]
    exact Function.update_of_ne heq _ _

theorem Follows.restored (hf : Follows tls lost g h) (hsp : m.core.sp = h.core.sp - 16)
    (hload : load64 m.core.mem (h.core.sp - 16) = h.core.x r) (hx : ∀ r', r' ≠ r → m.core.x r' = g'.core.x r')
    (hy : g.core.x r = g'.core.x r) (hspg : g'.core.sp = g.core.sp) (hflags : m.core.flags = g'.core.flags)
    (hsimd : m.simd = g'.simd) (htpidr : load64 m.core.mem tls = g'.tpidr)
    (hmem : ∀ a, ¬Within tls 8 a → ¬below g.core.sp lost a → m.core.mem a = g'.core.mem a) :
    Follows tls (below g.core.sp lost) g' { m with core := (poppedReg r m.core).goto q } := by
  refine ⟨popped_x hsp hload hx (by rw [hf.x, hy]), ?_, hflags, hsimd, htpidr, hmem⟩
  change m.core.sp + 16 = _
  rw [hsp, sub_add_cancel, hf.sp, hspg]

end Slots

section Codes

variable {mambo : Addresses} {basicBlock : Nat} {copied : Word → Machine → Machine} {code : Word → Option Out}
  {lost : Word → Prop} {g h : Machine} {r : Reg} {readAddress writeP v address : Word} {tls : Word}

theorem copy_run (hw : h.core.pc = writeP) (hcode : CodeAt (processor copied) code writeP (insts (copyToReg64bits r v))) :
    Reaches (processor copied) code h
      { h with core := (h.core.set r v).goto (cell writeP (copyToReg64bits r v).length) } := by
  have hrun := own_run (m := h) copied (copyToReg64bits_run (s := h.core) (codeAt_own.mp hcode))
  rwa [State.goto_self hw] at hrun

/-- The loads that use their target register for the address. With register 31 the
address is not set and the load is of the top of the stack, but it loads nothing. -/
theorem intLoad_run {opc size op : BitVec 2} {rt : Reg} (hopc : opc ≠ 3) (hfields : ldrLitFields opc 0 = some (size, op))
    (hw : h.core.pc = writeP)
    (hcode : CodeAt (processor copied) code writeP
      (insts (copyToReg64bits rt address) ++ [.ldrStrUnsignedImmed size 0 op 0 rt rt])) :
    Reaches (processor copied) code h
      { h with
        core := (h.core.set rt (literalValue opc (loadBytes h.core.mem address (literalBytes opc 0)))).goto
          (cell writeP ((copyToReg64bits rt address).length + 1)) } := by
  rw [codeAt_out_append] at hcode
  obtain ⟨hcopy, hload, -⟩ := hcode
  rw [insts, List.length_map] at hload
  have hstep := out_steps copied
    (m := { h with core := (h.core.set rt address).goto (cell writeP (copyToReg64bits rt address).length) }) hload
  rw [ldrLit_exec copied hfields, loadLiteral_int hopc, Option.map_some, Option.getD_some] at hstep
  refine (copy_run hw hcopy).tail ?_
  by_cases hrt : rt = xzr
  · subst hrt
    rw [← cell_next]
    exact hstep
  · have hbase : ((h.core.set rt address).goto (cell writeP (copyToReg64bits rt address).length)).getBase rt =
        address := by
      rw [State.getBase, if_neg hrt, State.set, if_neg hrt]
      exact Function.update_self _ _ _
    rw [hbase] at hstep
    simp only [Machine.setX, Machine.next, State.set_goto, State.next_goto, State.set_set] at hstep
    rw [cell_next] at hstep
    have hmem : ((h.core.set rt address).goto (cell writeP (copyToReg64bits rt address).length)).mem = h.core.mem :=
      State.set_mem
    rwa [hmem] at hstep

end Codes

section Spilled

variable {mambo : Addresses} {basicBlock : Nat} {copied : Word → Machine → Machine} {code : Word → Option Out}
  {lost : Word → Prop} {g h : Machine} {writeP address tls : Word} {rt : Reg}

theorem within_add {a : Word} {n i : Nat} (hn : n < 2 ^ 64) (hi : i < n) : Within a n (a + BitVec.ofNat 64 i) := by
  rw [Within, add_sub_cancel_left, BitVec.toNat_ofNat, Nat.mod_eq_of_lt (by omega)]
  exact hi

theorem spilled_mem (r : Reg) (v : Word) (s : State) :
    (spilled r v s).mem = store64 s.mem (s.sp - 16) (s.get r) := State.set_mem

theorem spilled_sp (r : Reg) (v : Word) (s : State) : (spilled r v s).sp = s.sp - 16 := State.set_sp

theorem spilled_base {r : Reg} (hr : r ≠ xzr) (v p : Word) (s : State) : ((spilled r v s).goto p).getBase r = v := by
  rw [State.getBase, if_neg hr]
  change (spilled r v s).x r = v
  rw [spilled_x hr, Function.update_self]

theorem spilled_others {r r' : Reg} (hr : r ≠ xzr) (hne : r' ≠ r) (v : Word) (s : State) :
    (spilled r v s).x r' = s.x r' := by
  rw [spilled_x hr, Function.update_of_ne hne]

theorem spilled_load {r : Reg} (hr : r ≠ xzr) (v : Word) (s : State) :
    load64 (spilled r v s).mem (s.sp - 16) = s.x r := by
  rw [spilled_mem, load64_store64 (by decide), State.get, if_neg hr]

theorem spilled_keeps (hf : Follows tls lost g h) (r : Reg) (v : Word) {a : Word} (hrecord : ¬Within tls 8 a)
    (hkept : ¬below g.core.sp lost a) : (spilled r v h.core).mem a = g.core.mem a := by
  rw [spilled_mem, hf.sp, store64_outside fun hin => hkept (Or.inr (within_mono (by decide) hin))]
  exact hf.mem a hrecord fun hl => hkept (Or.inl hl)

theorem spilled_tpidr (hf : Follows tls lost g h) (hapart : Apart (g.core.sp - 16) tls) (r : Reg) (v : Word) :
    load64 (spilled r v h.core).mem tls = g.tpidr := by
  rw [spilled_mem, hf.sp, load64_store64_apart hapart, hf.tpidr]

theorem literal_run {opc size op : BitVec 2} {v : BitVec 1} {u : Machine} (hfields : ldrLitFields opc v = some (size, op))
    (hw : h.core.pc = writeP)
    (hcode : CodeAt (processor copied) code writeP (insts (pushReg 0 :: copyToReg64bits 0 address) ++
      [.ldrStrUnsignedImmed size v op 0 0 rt, .inst (popReg 0)]))
    (hload : loadLiteral opc v address rt
      { h with core := (spilled 0 address h.core).goto (cell writeP ((copyToReg64bits 0 address).length + 1)) } = some u)
    (hpc : u.core.pc = cell writeP ((copyToReg64bits 0 address).length + 1)) :
    Reaches (processor copied) code h
      { u with core := (poppedReg 0 u.core).goto (cell writeP ((copyToReg64bits 0 address).length + 3)) } := by
  let loading : Machine :=
    { h with core := (spilled 0 address h.core).goto (cell writeP ((copyToReg64bits 0 address).length + 1)) }
  have hexec : A64Machine.exec copied (.ldrStrUnsignedImmed size v op 0 0 rt) loading =
      ((loadLiteral opc v (loading.core.getBase 0) rt loading).map Machine.next).getD loading := ldrLit_exec copied hfields
  rw [spilled_base (by decide), hload, Option.map_some, Option.getD_some] at hexec
  have hrun := spill_run (m := h) (s := h.core) (by decide) hcode hexec hpc
  rwa [State.goto_self hw] at hrun

theorem ldrLitFields_prefetch : ldrLitFields 3 0 = some (3, 2) := rfl

theorem prefetch_done (hf : Follows tls lost g h) (hapart : Apart (g.core.sp - 16) tls) (hw : h.core.pc = writeP)
    (hcode : CodeAt (processor copied) code writeP (insts (pushReg 0 :: copyToReg64bits 0 address) ++
      [.ldrStrUnsignedImmed 3 0 2 0 0 rt, .inst (popReg 0)])) :
    ∃ h', Reaches (processor copied) code h h' ∧ h'.core.pc = cell writeP ((copyToReg64bits 0 address).length + 3) ∧
      Follows tls (below g.core.sp lost) g.next h' := by
  refine ⟨_, literal_run ldrLitFields_prefetch hw hcode loadLiteral_prefetch rfl, rfl, ?_⟩
  refine hf.restored (spilled_sp _ _ _) (spilled_load (by decide) _ _) ?_ rfl rfl ?_ hf.simd
    (spilled_tpidr hf hapart _ _) fun a hrecord hkept => spilled_keeps hf 0 address hrecord hkept
  · intro r' hne
    exact (spilled_others (by decide) hne _ _).trans (congrFun hf.x r')
  · exact State.set_flags.trans hf.flags

theorem simdLoad_done {opc size op : BitVec 2} (hopc : opc ≠ 3) (hfields : ldrLitFields opc 1 = some (size, op))
    (hf : Follows tls lost g h) (hapart : Apart (g.core.sp - 16) tls) (hw : h.core.pc = writeP)
    (hliteral : ∀ x, Within address (literalBytes opc 1) x →
      ¬Within tls 8 x ∧ ¬lost x ∧ ¬Within (g.core.sp - 16) 8 x)
    (hcode : CodeAt (processor copied) code writeP (insts (pushReg 0 :: copyToReg64bits 0 address) ++
      [.ldrStrUnsignedImmed size 1 op 0 0 rt, .inst (popReg 0)])) :
    ∃ h', Reaches (processor copied) code h h' ∧ h'.core.pc = cell writeP ((copyToReg64bits 0 address).length + 3) ∧
      Follows tls (below g.core.sp lost) (g.setV rt (loadBytes g.core.mem address (literalBytes opc 1))).next h' := by
  have hbytes : loadBytes (spilled 0 address h.core).mem address (literalBytes opc 1) =
      loadBytes g.core.mem address (literalBytes opc 1) := by
    refine loadBytes_congr fun i hi => ?_
    obtain ⟨hrecord, hkept, hslot⟩ := hliteral _ (within_add (literalBytes_lt opc 1) hi)
    rw [spilled_mem, hf.sp, store64_outside hslot]
    exact hf.mem _ hrecord hkept
  refine ⟨_, literal_run hfields hw hcode (loadLiteral_simd hopc) rfl, rfl, ?_⟩
  refine hf.restored (spilled_sp _ _ _) (spilled_load (by decide) _ _) ?_ rfl rfl ?_ ?_
    (spilled_tpidr hf hapart _ _) fun a hrecord hkept => spilled_keeps hf 0 address hrecord hkept
  · intro r' hne
    exact (spilled_others (by decide) hne _ _).trans (congrFun hf.x r')
  · exact State.set_flags.trans hf.flags
  · change Function.update h.simd rt _ = Function.update g.simd rt _
    rw [hf.simd]
    congr 2

end Spilled

section ThreadPointer

variable {mambo : Addresses} {copied : Word → Machine → Machine} {code : Word → Option Out} {lost : Word → Prop}
  {g h : Machine} {writeP : Word} {rt : Reg}

theorem spilledReg_ne (rt : Reg) : spilledReg rt ≠ xzr ∧ spilledReg rt ≠ rt := by
  rw [spilledReg]
  split
  · rename_i hrt
    rw [hrt]
    decide
  · rename_i hrt
    exact ⟨by decide, Ne.symm hrt⟩

theorem tls_run {r : BitVec 1} {u : Machine} (hw : h.core.pc = writeP)
    (hcode : CodeAt (processor copied) code writeP (tlsCode mambo r rt))
    (haccess : access 3 0 (if r = 0 then 0 else 1) mambo.tls rt
      { h with
        core := (spilled (spilledReg rt) mambo.tls h.core).goto
          (cell writeP ((copyToReg64bits (spilledReg rt) mambo.tls).length + 1)) } = some u)
    (hpc : u.core.pc = cell writeP ((copyToReg64bits (spilledReg rt) mambo.tls).length + 1)) :
    Reaches (processor copied) code h
      { u with
        core := (poppedReg (spilledReg rt) u.core).goto
          (cell writeP ((copyToReg64bits (spilledReg rt) mambo.tls).length + 3)) } := by
  have hne := spilledReg_ne rt
  have hzero : (0 : BitVec 9).signExtend 64 = (0 : Word) := by decide
  have hexec : A64Machine.exec copied (.ldrStrImmed 3 0 (if r = 0 then 0 else 1) 0 (spilledReg rt) rt)
      { h with
        core := (spilled (spilledReg rt) mambo.tls h.core).goto
          (cell writeP ((copyToReg64bits (spilledReg rt) mambo.tls).length + 1)) } = u.next := by
    rw [A64Machine.exec, hzero, add_zero, spilled_base hne.1, haccess, Option.map_some, Option.getD_some]
  have hrun := spill_run (m := h) (s := h.core) hne.1 hcode hexec hpc
  rwa [State.goto_self hw] at hrun

theorem mrs_done (hf : Follows mambo.tls lost g h) (hapart : Apart (g.core.sp - 16) mambo.tls)
    (hw : h.core.pc = writeP) (hcode : CodeAt (processor copied) code writeP (tlsCode mambo 1 rt)) :
    ∃ h', Reaches (processor copied) code h h' ∧
      h'.core.pc = cell writeP ((copyToReg64bits (spilledReg rt) mambo.tls).length + 3) ∧
      Follows mambo.tls (below g.core.sp lost) (g.setX rt g.tpidr).next h' := by
  obtain ⟨hr, hne⟩ := spilledReg_ne rt
  have htpidr := spilled_tpidr hf hapart (spilledReg rt) mambo.tls
  have haccess : ∀ m : Machine, access 3 0 (if (1 : BitVec 1) = 0 then 0 else 1) mambo.tls rt m =
      some (m.setX rt (load64 m.core.mem mambo.tls)) := fun _ => rfl
  refine ⟨_, tls_run hw hcode (haccess _) State.set_pc, rfl, ?_⟩
  generalize spilledReg rt = r at *
  refine hf.restored ?_ ?_ ?_ ?_ ?_ ?_ hf.simd ?_ ?_
  · exact State.set_sp.trans (spilled_sp _ _ _)
  · change load64 (State.set _ rt _).mem _ = _
    rw [State.set_mem]
    exact spilled_load hr _ _
  · intro r' hr'
    change (State.set _ rt _).x r' = (g.core.set rt g.tpidr).x r'
    rw [set_x, set_x]
    have hx : (spilled r mambo.tls h.core).x r' = g.core.x r' :=
      (spilled_others hr hr' _ _).trans (congrFun hf.x r')
    by_cases hrt : rt = xzr
    · rw [if_pos hrt, if_pos hrt]
      exact hx
    · rw [if_neg hrt, if_neg hrt]
      by_cases heq : r' = rt
      · rw [heq, Function.update_self, Function.update_self]
        exact htpidr
      · rw [Function.update_of_ne heq, Function.update_of_ne heq]
        exact hx
  · exact (State.set_x_of_ne hne).symm
  · exact State.set_sp
  · change (State.set _ rt _).flags = (g.core.set rt g.tpidr).flags
    rw [State.set_flags, State.set_flags]
    exact State.set_flags.trans hf.flags
  · change load64 (State.set _ rt _).mem _ = _
    rw [State.set_mem]
    exact htpidr
  · intro a hrecord hkept
    change (State.set _ rt _).mem a = (g.core.set rt g.tpidr).mem a
    rw [State.set_mem, State.set_mem]
    exact spilled_keeps hf r mambo.tls hrecord hkept

theorem msr_done (hf : Follows mambo.tls lost g h) (hapart : Apart (g.core.sp - 16) mambo.tls)
    (hw : h.core.pc = writeP) (hcode : CodeAt (processor copied) code writeP (tlsCode mambo 0 rt)) :
    ∃ h', Reaches (processor copied) code h h' ∧
      h'.core.pc = cell writeP ((copyToReg64bits (spilledReg rt) mambo.tls).length + 3) ∧
      Follows mambo.tls (below g.core.sp lost) ({ g with tpidr := g.core.get rt } : Machine).next h' := by
  obtain ⟨hr, hne⟩ := spilledReg_ne rt
  have haccess : ∀ m : Machine, access 3 0 (if (0 : BitVec 1) = 0 then 0 else 1) mambo.tls rt m =
      some { m with core := { m.core with mem := store64 m.core.mem mambo.tls (m.core.get rt) } } := fun _ => rfl
  refine ⟨_, tls_run hw hcode (haccess _) rfl, rfl, ?_⟩
  generalize spilledReg rt = r at *
  refine hf.restored (spilled_sp _ _ _) ?_ ?_ rfl rfl ?_ hf.simd ?_ ?_
  · change load64 (store64 _ _ _) _ = _
    rw [hf.sp, load64_store64_apart hapart.symm, ← hf.sp]
    exact spilled_load hr _ _
  · intro r' hr'
    exact (spilled_others hr hr' _ _).trans (congrFun hf.x r')
  · exact State.set_flags.trans hf.flags
  · change load64 (store64 _ _ _) _ = g.core.get rt
    rw [load64_store64 (by decide), ← hf.get rt]
    exact State.get_set_of_ne hne.symm
  · intro a hrecord hkept
    change store64 _ _ _ a = _
    rw [store64_outside hrecord]
    exact spilled_keeps hf r mambo.tls hrecord hkept

end ThreadPointer

section Branches

variable {mambo : Addresses} {copied : Word → Machine → Machine} {code : Word → Option Out} {lost : Word → Prop}
  {g h : Machine} {s : State} {tls readAddress writeP id : Word} {op : BitVec 1} {imm26 : BitVec 26} {out : List Out}

def linked (op : BitVec 1) (readAddress : Word) (m : Machine) : Machine :=
  if op = 1 then m.setX lr (readAddress + 4) else m

theorem Follows.linked (hf : Follows tls lost g h) (op : BitVec 1) (readAddress : Word) :
    Follows tls lost (linked op readAddress g) (linked op readAddress h) := by
  by_cases hop : op = 1
  · rw [A64PositionDependent.linked, A64PositionDependent.linked, if_pos hop, if_pos hop]
    exact hf.setX lr _
  · rw [A64PositionDependent.linked, A64PositionDependent.linked, if_neg hop, if_neg hop]
    exact hf

theorem link_done (copied : Word → Machine → Machine) (hw : h.core.pc = writeP)
    (hcode : CodeAt (processor copied) code writeP (insts (linkCode op readAddress))) :
    Reaches (processor copied) code h { linked op readAddress h with
      core := (linked op readAddress h).core.goto (cell writeP (linkCode op readAddress).length) } := by
  rw [linked, linkCode] at *
  by_cases hop : op = 1
  · rw [if_pos hop] at hcode ⊢
    rw [if_pos hop]
    exact copy_run hw hcode
  · rw [if_neg hop, if_neg hop, List.length_nil, cell_zero, State.goto_self hw]

theorem popPair_exec (u : State) :
    A64.exec (popPairReg 0 1) u =
      { u with
        pc := u.pc + 4
        x := Function.update (Function.update u.x 0 (load64 u.mem u.sp)) 1 (load64 u.mem (u.sp + 8))
        sp := u.sp + 16 } := by
  have himm : (2 : BitVec 7).signExtend 64 <<< 3 = (16 : Word) := by decide
  rw [popPairReg, A64.exec, himm]
  rfl

/-- The registers that a branch of the scanner saves are taken back by the next block. -/
theorem resumed_follows {target d : Word} (hf : Follows tls lost g h) (hapart : Apart (g.core.sp - 16) tls)
    (hapart' : Apart (g.core.sp - 16 + 8) tls) :
    Follows tls (below g.core.sp lost) { g with core := g.core.goto target }
      (resumed { h with core := (((pushed h.core).set 0 target).set 1 id).goto d }) := by
  have hmem : ((((pushed h.core).set 0 target).set 1 id).goto d).mem = (pushed h.core).mem :=
    State.set_mem.trans State.set_mem
  have hsp : ((((pushed h.core).set 0 target).set 1 id).goto d).sp = h.core.sp - 16 :=
    State.set_sp.trans State.set_sp
  rw [resumed, popPair_exec, hmem, hsp, pushed_x0, pushed_x1]
  refine ⟨?_, ?_, ?_, hf.simd, ?_, ?_⟩
  · funext r
    change Function.update (Function.update (((pushed h.core).set 0 target).set 1 id).x 0 (h.core.x 0)) 1
      (h.core.x 1) r = g.core.x r
    rw [← hf.x]
    by_cases h1 : r = 1
    · rw [h1, Function.update_self]
    · rw [Function.update_of_ne h1]
      by_cases h0 : r = 0
      · rw [h0, Function.update_self]
      · rw [Function.update_of_ne h0]
        exact (State.set_x_of_ne h1).trans (State.set_x_of_ne h0)
  · change h.core.sp - 16 + 16 = g.core.sp
    rw [sub_add_cancel, hf.sp]
  · exact State.set_flags.trans (State.set_flags.trans hf.flags)
  · change load64 (pushed h.core).mem tls = g.tpidr
    rw [pushed_mem, hf.sp, load64_store64_apart hapart', load64_store64_apart hapart, hf.tpidr]
  · intro a hrecord hkept
    change (pushed h.core).mem a = g.core.mem a
    have hout : ¬Within (g.core.sp - 16) 16 a := fun hin => hkept (Or.inr hin)
    rw [pushed_mem, hf.sp, store64_outside fun hin => within_second hin hout,
      store64_outside fun hin => hout (within_mono (by decide) hin)]
    exact hf.mem a hrecord fun hl => hkept (Or.inl hl)

theorem bBl_run (hout : bBlCode mambo op imm26 readAddress writeP id = some out) (hw : h.core.pc = writeP)
    (hcode : CodeAt (processor copied) code writeP out) :
    Reaches (processor copied) code h { linked op readAddress h with
      core := (((pushed (linked op readAddress h).core).set 0 (branchTarget imm26 readAddress)).set 1 id).goto
        mambo.dispatcherAddr } := by
  rw [bBlCode] at hout
  simp only [Option.bind_eq_bind, Option.bind_eq_some_iff, Option.pure_def, Option.some.injEq] at hout
  obtain ⟨jump, hjump, rfl⟩ := hout
  rw [codeAt_own, codeAt_append_cell, codeAt_append_cell] at hcode
  obtain ⟨⟨hlink, hnop, hpush, -⟩, hjumpAt⟩ := hcode
  rw [List.length_append] at hjump hjumpAt
  have hfirst := link_done (h := h) copied hw (codeAt_own.mpr hlink)
  generalize linked op readAddress h = h₁ at *
  generalize (linkCode op readAddress).length = n at *
  change own code (cell writeP n + 4) = _ at hpush
  rw [cell_next] at hpush
  have hnopRun : Steps a64 (own code) (h₁.core.goto (cell writeP n)) (h₁.core.goto (cell writeP (n + 1))) := by
    refine steps_exec hnop ?_
    rw [A64.exec, State.next_goto, cell_next]
  have hpushRun := push_run (s := h₁.core) hpush
  rw [cell_next] at hpushRun
  have hjumpRun := branchJump_run (s := pushed h₁.core) hjump hjumpAt
  exact hfirst.trans (own_run copied ((((Relation.ReflTransGen.single hnopRun).tail hpushRun)).trans hjumpRun))

theorem bBl_done (hout : bBlCode mambo op imm26 readAddress writeP id = some out) (hw : h.core.pc = writeP)
    (hf : Follows mambo.tls lost g h) (hapart : Apart (g.core.sp - 16) mambo.tls)
    (hapart' : Apart (g.core.sp - 16 + 8) mambo.tls) (hcode : CodeAt (processor copied) code writeP out) :
    ∃ h', Reaches (processor copied) code h h' ∧ h'.core.pc = mambo.dispatcherAddr ∧
      h'.core.x 0 = branchTarget imm26 readAddress ∧ h'.core.x 1 = id ∧
      Follows mambo.tls (below g.core.sp lost) { linked op readAddress g with
        core := (linked op readAddress g).core.goto (branchTarget imm26 readAddress) } (resumed h') := by
  have hsp : (linked op readAddress g).core.sp = g.core.sp := by
    rw [linked]
    split
    · exact State.set_sp
    · rfl
  refine ⟨_, bBl_run hout hw hcode, rfl, rfl, rfl, ?_⟩
  · rw [← hsp] at hapart hapart' ⊢
    exact resumed_follows (hf.linked op readAddress) hapart hapart'

end Branches

section Main

variable {mambo : Addresses} {basicBlock : Nat} {copied : Word → Machine → Machine} {code : Word → Option Out}
  {lost : Word → Prop} {inst : Guest} {g g' h : Machine} {readAddress writeP : Word} {first : Bool} {out : List Out}

theorem ldrLit_done {opc : BitVec 2} {v : BitVec 1} {imm19 : BitVec 19} {rt : Reg}
    (hstep : guestStep (.ldrLit opc v imm19 rt) g = some g') (hpc : g.core.pc = readAddress)
    (hout : ldrLitCode opc v imm19 rt readAddress = some out) (hw : h.core.pc = writeP)
    (hcode : CodeAt (processor copied) code writeP out) (hf : Follows mambo.tls lost g h)
    (hapart : Apart (g.core.sp - 16) mambo.tls)
    (hliteral : ∀ x, Literal (.ldrLit opc v imm19 rt) readAddress x → ¬Within mambo.tls 8 x ∧ ¬lost x)
    (hsimd : v = 1 → ∀ x, Literal (.ldrLit opc v imm19 rt) readAddress x → ¬Within (g.core.sp - 16) 8 x) :
    ∃ h', Reaches (processor copied) code h h' ∧ h'.core.pc = cell writeP out.length ∧
      Follows mambo.tls (below g.core.sp lost) g' h' := by
  obtain ⟨m, hm, rfl⟩ := Option.map_eq_some_iff.mp hstep
  obtain ⟨⟨size, op⟩, hfields, rfl⟩ := Option.map_eq_some_iff.mp hout
  simp only [Literal, wordOffset_eq (show 0 < 19 by decide)] at hliteral hsimd
  rw [hpc, wordOffset_eq (by decide)] at hm
  generalize readAddress + offset imm19 = address at *
  dsimp only at hcode ⊢
  rcases v_cases v with rfl | rfl
  · by_cases hopc : opc = 3
    · subst hopc
      obtain ⟨rfl, rfl⟩ := Prod.mk.inj (Option.some.inj hfields)
      obtain rfl := Option.some.inj hm
      rw [if_neg (by decide)] at hcode ⊢
      simpa [insts] using prefetch_done hf hapart hw hcode
    · rw [if_pos ⟨rfl, hopc⟩] at hcode ⊢
      obtain rfl := Option.some.inj ((loadLiteral_int hopc).symm.trans hm)
      have hbytes : loadBytes h.core.mem address (literalBytes opc 0) = loadBytes g.core.mem address (literalBytes opc 0) :=
        loadBytes_congr fun i hi =>
          have hx := hliteral _ (within_add (literalBytes_lt opc 0) hi)
          hf.mem _ hx.1 hx.2
      refine ⟨_, intLoad_run hopc hfields hw hcode, by simp [insts], ?_⟩
      rw [hbytes]
      exact ((hf.setX rt _).goto _ _).mono fun _ => Or.inl
  · have hopc : opc ≠ 3 := by
      rintro rfl
      cases (hfields : (none : Option (BitVec 2 × BitVec 2)) = some (size, op))
    rw [if_neg (by simp)] at hcode ⊢
    obtain rfl := Option.some.inj ((loadLiteral_simd hopc).symm.trans hm)
    have hbytes := fun x hx => (⟨(hliteral x hx).1, (hliteral x hx).2, hsimd rfl x hx⟩ : _ ∧ _ ∧ _)
    simpa [insts] using simdLoad_done hopc hfields hf hapart hw hbytes hcode

/-- The code for an instruction that depends on its address has the effect of the
instruction on the registers, the thread pointer, the flags and the memory other than
below the stack pointer. A branch reaches the dispatcher with its target. The literal
of a SIMD load may not be where x0 is pushed. -/
theorem position_dependent (hstep : guestStep inst g = some g') (hpc : g.core.pc = readAddress)
    (hout : instCode mambo basicBlock inst first readAddress writeP = some out) (hw : h.core.pc = writeP)
    (hcode : CodeAt (processor copied) code writeP out) (hf : Follows mambo.tls lost g h)
    (hrecord : Apart (g.core.sp - 16) mambo.tls ∧ Apart (g.core.sp - 16 + 8) mambo.tls)
    (hliteral : ∀ x, Literal inst readAddress x → ¬Within mambo.tls 8 x ∧ ¬lost x)
    (hsimd : IsSimd inst → ∀ x, Literal inst readAddress x → ¬Within (g.core.sp - 16) 8 x) :
    ∃ h', Reaches (processor copied) code h h' ∧
      Done mambo basicBlock inst (cell writeP out.length) (below g.core.sp lost) g' h' := by
  obtain ⟨hapart, hapart'⟩ := hrecord
  cases inst with
  | adr op immlo immhi rd =>
      obtain rfl := Option.some.inj hout
      obtain rfl := Option.some.inj hstep
      refine ⟨_, copy_run hw hcode, by simp [insts], ?_⟩
      rw [hpc, ← adrValue_eq]
      exact ((hf.setX rd _).goto _ _).mono fun _ => Or.inl
  | ldrLit opc v imm19 rt => exact ldrLit_done hstep hpc hout hw hcode hf hapart hliteral hsimd
  | mrsMsrReg r o0 op1 crn crm op2 rt =>
      rw [instCode] at hout
      simp only [guestStep] at hstep
      by_cases htpidr : isTpidrEl0 o0 op1 crn crm op2
      · rw [if_pos htpidr] at hout hstep
        obtain rfl := Option.some.inj hout
        have hlength : (tlsCode mambo r rt).length = (copyToReg64bits (spilledReg rt) mambo.tls).length + 3 := by
          simp [tlsCode, insts]
        rw [hlength]
        rcases v_cases r with rfl | rfl
        · obtain rfl := Option.some.inj hstep
          exact msr_done hf hapart hw hcode
        · obtain rfl := Option.some.inj hstep
          exact mrs_done hf hapart hw hcode
      · rw [if_neg htpidr] at hstep
        cases hstep
  | bBl op imm26 =>
      obtain rfl := Option.some.inj hstep
      obtain ⟨h', hrun, hd, htarget, hid, hfollows⟩ := bBl_done hout hw hf hapart hapart' hcode
      rw [branchTarget, ← wordOffset_eq (by decide)] at htarget hfollows
      rw [← hpc] at htarget hfollows
      exact ⟨h', hrun, hd, htarget, hid, hfollows⟩
  | _ => cases hstep

end Main

section Example

def someLoad (opc : BitVec 2) : Guest := .ldrLit opc 1 4 0

def someMachine (pc sp : Word) : Machine :=
  ⟨⟨pc, fun r => if r = 0 then 7 else 0, sp, ⟨false, false, false, false⟩, fun a => if a = 0x10010 then 5 else 0⟩,
    fun _ => 0, 0⟩

def someOut (opc : BitVec 2) : List Out :=
  (instCode A64BlockSpace.someAddresses 1 (someLoad opc) false 0x10000 0x400000).getD []

def someCode (opc : BitVec 2) (a : Word) : Option Out :=
  if (a - 0x400000).toNat % 4 = 0 then (someOut opc)[(a - 0x400000).toNat / 4]? else none

theorem someMachine_follows (sp : Word) :
    Follows A64BlockSpace.someAddresses.tls (fun _ => False) (someMachine 0x10000 sp) (someMachine 0x400000 sp) := by
  have htpidr : load64 (fun a : Word => if a = 0x10010 then (5 : Byte) else 0) A64BlockSpace.someAddresses.tls = 0 := by
    decide
  exact ⟨rfl, rfl, rfl, rfl, htpidr, fun _ _ _ => rfl⟩

theorem someCode_placed (opc : BitVec 2) (hopc : opc ≠ 3) :
    instCode A64BlockSpace.someAddresses 1 (someLoad opc) false 0x10000 0x400000 = some (someOut opc) ∧
      CodeAt (processor fun _ m => m) (someCode opc) 0x400000 (someOut opc) := by
  rcases opc_cases opc with rfl | rfl | rfl | rfl
  · exact ⟨rfl, rfl, rfl, rfl, rfl, rfl, trivial⟩
  · exact ⟨rfl, rfl, rfl, rfl, rfl, rfl, trivial⟩
  · exact ⟨rfl, rfl, rfl, rfl, rfl, rfl, trivial⟩
  · exact absurd rfl hopc

/-- A literal in the doubleword where x0 is pushed: D0 gets the value of x0. -/
theorem simd_literal_pushed_over :
    ∃ g', guestStep (someLoad 1) (someMachine 0x10000 0x10020) = some g' ∧
      instCode A64BlockSpace.someAddresses 1 (someLoad 1) false 0x10000 0x400000 = some (someOut 1) ∧
      CodeAt (processor fun _ m => m) (someCode 1) 0x400000 (someOut 1) ∧
      Follows A64BlockSpace.someAddresses.tls (fun _ => False) (someMachine 0x10000 0x10020)
        (someMachine 0x400000 0x10020) ∧
      (Apart (0x10020 - 16) A64BlockSpace.someAddresses.tls ∧ Apart (0x10020 - 16 + 8) A64BlockSpace.someAddresses.tls) ∧
      (∀ x, Literal (someLoad 1) 0x10000 x → ¬Within A64BlockSpace.someAddresses.tls 8 x) ∧
      ¬∃ h', Reaches (processor fun _ m => m) (someCode 1) (someMachine 0x400000 0x10020) h' ∧
        Done A64BlockSpace.someAddresses 1 (someLoad 1) (cell 0x400000 (someOut 1).length)
          (below 0x10020 fun _ => False) g' h' := by
  obtain ⟨hout, hcode⟩ := someCode_placed 1 (by decide)
  refine ⟨_, rfl, hout, hcode, someMachine_follows _, ⟨by unfold Apart; decide, by unfold Apart; decide⟩, ?_, ?_⟩
  · intro x hx hin
    have hx' : (x - 0x10010).toNat < 8 := hx
    have hin' : (x - 0x20000000).toNat < 8 := hin
    bv_omega
  · rintro ⟨h', hrun, hpc, hfollows⟩
    have hfields : ldrLitFields 1 1 = some (3, 1) := rfl
    have hreach := literal_run (h := someMachine 0x400000 0x10020) hfields rfl hcode (loadLiteral_simd (by decide)) rfl
    have hstop : someCode 1 (cell 0x400000 (someOut 1).length) = none := by decide
    have heq := Reaches.stop_unique hreach hstop hrun (by rw [← hstop]; exact congrArg _ hpc)
    have hsimd := congrFun hfollows.simd 0
    rw [← heq] at hsimd
    exact absurd hsimd (by decide)

theorem position_dependent_simd :
    ∃ h', Reaches (processor fun _ m => m) (someCode 2) (someMachine 0x400000 0x20000) h' ∧
      Done A64BlockSpace.someAddresses 1 (someLoad 2) (cell 0x400000 (someOut 2).length)
        (below 0x20000 fun _ => False) (((someMachine 0x10000 0x20000).setV 0 5).next) h' := by
  obtain ⟨hout, hcode⟩ := someCode_placed 2 (by decide)
  have haddress : (0x10000 : Word) + wordOffset (4 : BitVec 19) = 0x10010 := by decide
  have hbytes : loadBytes (someMachine 0x10000 0x20000).core.mem 0x10010 (literalBytes 2 1) = 5 := by decide
  have hload : loadLiteral 2 1 0x10010 0 (someMachine 0x10000 0x20000) =
      some ((someMachine 0x10000 0x20000).setV 0
        (loadBytes (someMachine 0x10000 0x20000).core.mem 0x10010 (literalBytes 2 1))) := loadLiteral_simd (by decide)
  rw [hbytes, ← haddress] at hload
  have hstep : guestStep (someLoad 2) (someMachine 0x10000 0x20000) =
      some ((someMachine 0x10000 0x20000).setV 0 5).next := congrArg (Option.map Machine.next) hload
  refine position_dependent (g := someMachine 0x10000 0x20000) hstep rfl hout rfl hcode (someMachine_follows _)
    ⟨by unfold Apart; decide, by unfold Apart; decide⟩ ?_ ?_
  · intro x hx
    have hx' : (x - 0x10010).toNat < 16 := hx
    refine ⟨fun hin => ?_, id⟩
    have hin' : (x - 0x20000000).toNat < 8 := hin
    bv_omega
  · intro _ x hx hin
    have hx' : (x - 0x10010).toNat < 16 := hx
    have hin' : (x - 0x1FFF0).toNat < 8 := hin
    bv_omega

end Example

end Mambo.A64PositionDependent
