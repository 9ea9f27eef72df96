import Mambo.A64

namespace Mambo.A64Plugin

open A64 (Word Reg State xzr)

/-- The instructions that the helpers of plugins emit: those of the code cache and some more, with 64-bit operands
and without setting of flags. -/
inductive Inst
  | core (i : A64.Inst)
  | addSubImmed (op : BitVec 1) (shift : BitVec 2) (imm12 : BitVec 12) (rn rd : Reg)
  | addSubExtReg (op : BitVec 1) (rm : Reg) (option imm3 : BitVec 3) (rn rd : Reg)
  | bl (imm26 : BitVec 26)
  | blr (rn : Reg)
  deriving DecidableEq

section Operands

def addSub (op : BitVec 1) (x y : Word) : Word := if op = 1 then x - y else x + y

/-- The n low bits of a register, extended by zeros or by the sign. -/
def extend (option : BitVec 3) (v : Word) : Word :=
  match option.toNat with
  | 0 => (v.setWidth 8).setWidth 64
  | 1 => (v.setWidth 16).setWidth 64
  | 2 => (v.setWidth 32).setWidth 64
  | 4 => (v.setWidth 8).signExtend 64
  | 5 => (v.setWidth 16).signExtend 64
  | 6 => (v.setWidth 32).signExtend 64
  | _ => v

def immediate (shift : BitVec 2) (imm12 : BitVec 12) : Word :=
  if shift = 1 then imm12.setWidth 64 <<< 12 else imm12.setWidth 64

end Operands

section Execution

def exec (i : Inst) (s : State) : State :=
  match i with
  | .core i => A64.exec i s
  | .addSubImmed op shift imm12 rn rd => (s.setBase rd (addSub op (s.getBase rn) (immediate shift imm12))).next
  | .addSubExtReg op rm option imm3 rn rd =>
    (s.setBase rd (addSub op (s.getBase rn) (extend option (s.get rm) <<< imm3.toNat))).next
  | .bl imm26 => (s.set A64.lr (s.pc + 4)).goto (s.pc + A64.offset imm26)
  | .blr rn => (s.set A64.lr (s.pc + 4)).goto (s.get rn)

def execAll (is : List Inst) (s : State) : State := is.foldl (fun s i => exec i s) s

variable {is js : List Inst} {i : Inst} {s : State} {r r' : Reg} {v v' : Word}

@[simp] theorem execAll_nil : execAll [] s = s := rfl

@[simp] theorem execAll_cons : execAll (i :: is) s = execAll is (exec i s) := rfl

theorem execAll_append : execAll (is ++ js) s = execAll js (execAll is s) := List.foldl_append

end Execution

section Bases

variable {s : State} {r r' : Reg} {v v' : Word}

@[simp] theorem getBase_setBase_self : (s.setBase r v).getBase r = v := by
  by_cases hr : r = xzr
  · simp [State.setBase, State.getBase, hr]
  · simp [State.setBase, State.getBase, State.set, hr]

@[simp] theorem getBase_next : s.next.getBase r = s.getBase r := rfl

@[simp] theorem setBase_mem : (s.setBase r v).mem = s.mem := by
  rw [State.setBase]
  split
  · rfl
  · exact State.set_mem

@[simp] theorem setBase_flags : (s.setBase r v).flags = s.flags := by
  rw [State.setBase]
  split
  · rfl
  · exact State.set_flags

@[simp] theorem setBase_pc : (s.setBase r v).pc = s.pc := by
  rw [State.setBase]
  split
  · rfl
  · exact State.set_pc

theorem setBase_next : s.next.setBase r v = (s.setBase r v).next := by
  by_cases hr : r = xzr
  · simp [State.setBase, hr, State.next, State.goto]
  · rw [State.setBase, if_neg hr, State.setBase, if_neg hr, State.next, State.set_goto, State.next, State.set_pc]

theorem setBase_setBase : (s.setBase r v).setBase r v' = s.setBase r v' := by
  by_cases hr : r = xzr
  · simp [State.setBase, hr]
  · simp only [State.setBase, if_neg hr]
    exact State.set_set

theorem setBase_getBase : s.setBase r (s.getBase r) = s := by
  by_cases hr : r = xzr
  · rw [State.setBase, if_pos hr, State.getBase, if_pos hr]
  · rw [State.setBase, if_neg hr, State.getBase, if_neg hr, State.set, if_neg hr, Function.update_eq_self]

end Bases

end Mambo.A64Plugin
