import Mambo.RvCode

namespace Mambo.RvPlugin

open Bytes Rv RvCode

abbrev Csr := BitVec 12

/-- The instructions that the helpers of plugins emit: those of the code cache and some more. -/
inductive Inst
  | core (i : Rv.Inst)
  | sll (rd rs1 rs2 : Reg)
  | srai (rd rs1 : Reg) (shamt : BitVec 6)
  | or (rd rs1 rs2 : Reg)
  | andi (rd rs1 : Reg) (imm : BitVec 12)
  | csrrs (rd : Reg) (csr : Csr) (rs1 : Reg)
  deriving DecidableEq

structure Machine where
  core : Rv.State
  csr : Csr → Word

namespace Machine

def get (m : Machine) (r : Reg) : Word := m.core.get r

def set (m : Machine) (r : Reg) (v : Word) : Machine := { m with core := m.core.set r v }

def goto (m : Machine) (p : Word) : Machine := { m with core := m.core.goto p }

def next (m : Machine) : Machine := { m with core := m.core.goto (m.core.pc + 4) }

variable {m : Machine} {r r' : Reg} {v : Word}

@[simp] theorem get_set_self (hr : r ≠ zero) : (m.set r v).get r = v := State.get_set_self hr

@[simp] theorem get_set_of_ne (hne : r' ≠ r) : (m.set r v).get r' = m.get r' := State.get_set_of_ne hne

@[simp] theorem get_next : m.next.get r = m.get r := rfl

@[simp] theorem get_zero : m.get zero = 0 := State.get_zero

@[simp] theorem csr_set : (m.set r v).csr = m.csr := rfl

@[simp] theorem csr_next : m.next.csr = m.csr := rfl

@[simp] theorem mem_set : (m.set r v).core.mem = m.core.mem := State.set_mem

@[simp] theorem mem_next : m.next.core.mem = m.core.mem := rfl

end Machine

def exec (i : Inst) (m : Machine) : Machine :=
  match i with
  | .core i => { m with core := Rv.exec i m.core }
  | .sll rd rs1 rs2 => (m.set rd (m.get rs1 <<< ((m.get rs2).setWidth 6).toNat)).next
  | .srai rd rs1 shamt => (m.set rd ((m.get rs1).sshiftRight shamt.toNat)).next
  | .or rd rs1 rs2 => (m.set rd (m.get rs1 ||| m.get rs2)).next
  | .andi rd rs1 imm => (m.set rd (m.get rs1 &&& imm.signExtend 64)).next
  | .csrrs rd csr rs1 =>
    let m' := if rs1 = zero then m else { m with csr := Function.update m.csr csr (m.csr csr ||| m.get rs1) }
    (m'.set rd (m.csr csr)).next

/-- Instructions that go on to the next one run as they stand. -/
def execAll (is : List Inst) (m : Machine) : Machine := is.foldl (fun m i => exec i m) m

variable {m : Machine} {is js : List Inst} {i : Inst} {rd rs1 rs2 : Reg}

@[simp] theorem execAll_nil : execAll [] m = m := rfl

@[simp] theorem execAll_cons : execAll (i :: is) m = execAll is (exec i m) := rfl

theorem execAll_append : execAll (is ++ js) m = execAll js (execAll is m) := List.foldl_append

theorem execAll_core (is : List Rv.Inst) : execAll (is.map .core) m = { m with core := RvCode.execAll is m.core } := by
  induction is generalizing m with
  | nil => rfl
  | cons i is ih => rw [List.map_cons, execAll_cons, ih, RvCode.execAll_cons, exec]

@[simp] theorem exec_addi {imm : BitVec 12} :
    exec (.core (.addi rd rs1 imm)) m = (m.set rd (m.get rs1 + imm.signExtend 64)).next := by
  rw [exec, Rv.exec, Machine.next, Machine.set, State.set_pc]
  rfl

@[simp] theorem exec_slli {shamt : BitVec 6} :
    exec (.core (.slli rd rs1 shamt)) m = (m.set rd (m.get rs1 <<< shamt.toNat)).next := by
  rw [exec, Rv.exec, Machine.next, Machine.set, State.set_pc]
  rfl

@[simp] theorem exec_srli {shamt : BitVec 6} :
    exec (.core (.srli rd rs1 shamt)) m = (m.set rd (m.get rs1 >>> shamt.toNat)).next := by
  rw [exec, Rv.exec, Machine.next, Machine.set, State.set_pc]
  rfl

@[simp] theorem exec_add : exec (.core (.add rd rs1 rs2)) m = (m.set rd (m.get rs1 + m.get rs2)).next := by
  rw [exec, Rv.exec, Machine.next, Machine.set, State.set_pc]
  rfl

@[simp] theorem exec_sub : exec (.core (.sub rd rs1 rs2)) m = (m.set rd (m.get rs1 - m.get rs2)).next := by
  rw [exec, Rv.exec, Machine.next, Machine.set, State.set_pc]
  rfl

@[simp] theorem exec_srai {shamt : BitVec 6} :
    exec (.srai rd rs1 shamt) m = (m.set rd ((m.get rs1).sshiftRight shamt.toNat)).next := rfl

@[simp] theorem exec_or : exec (.or rd rs1 rs2) m = (m.set rd (m.get rs1 ||| m.get rs2)).next := rfl

@[simp] theorem exec_sll :
    exec (.sll rd rs1 rs2) m = (m.set rd (m.get rs1 <<< ((m.get rs2).setWidth 6).toNat)).next := rfl

@[simp] theorem exec_andi {imm : BitVec 12} :
    exec (.andi rd rs1 imm) m = (m.set rd (m.get rs1 &&& imm.signExtend 64)).next := rfl

@[simp] theorem exec_csrrs {csr : Csr} : exec (.csrrs rd csr zero) m = (m.set rd (m.csr csr)).next := by
  rw [exec, if_pos rfl]

section Effects

/-- Some code has changed at most the registers of a list, and none of the rest of the machine but its pc. -/
structure Changes (rs : List Reg) (m m' : Machine) : Prop where
  get : ∀ r, r ∉ rs → m'.get r = m.get r
  mem : m'.core.mem = m.core.mem
  csr : m'.csr = m.csr

variable {rs : List Reg} {m m' m'' : Machine} {r : Reg} {v : Word}

theorem Changes.refl (rs : List Reg) (m : Machine) : Changes rs m m := ⟨fun _ _ => rfl, rfl, rfl⟩

theorem Changes.trans (h : Changes rs m m') (h' : Changes rs m' m'') : Changes rs m m'' where
  get r hr := (h'.get r hr).trans (h.get r hr)
  mem := h'.mem.trans h.mem
  csr := h'.csr.trans h.csr

theorem changes_set (hr : r ∈ rs) : Changes rs m (m.set r v).next where
  get r' hr' := by
    rw [Machine.get_next]
    exact Machine.get_set_of_ne fun heq => hr' (heq ▸ hr)
  mem := Machine.mem_set
  csr := rfl

theorem Changes.mono {rs' : List Reg} (h : Changes rs m m') (hsub : ∀ r ∈ rs, r ∈ rs') : Changes rs' m m' where
  get r hr := h.get r fun hmem => hr (hsub r hmem)
  mem := h.mem
  csr := h.csr

theorem Changes.set (h : Changes rs m m') (hr : r ∈ rs) : Changes rs m (m'.set r v).next := h.trans (changes_set hr)

end Effects

end Mambo.RvPlugin
