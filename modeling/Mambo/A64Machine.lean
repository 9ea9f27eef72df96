import Mambo.A64Scan

namespace Mambo.A64Machine

open Bytes ByteMemory CodeRuns A64 A64Emit A64Scan

/-- The processor with the registers for SIMD and the thread pointer of the
program that runs on it. -/
structure Machine where
  core : State
  simd : Reg → BitVec 128
  tpidr : Word

section Accesses

namespace Machine

variable (m : Machine)

def mem : Word → Byte := m.core.mem

def setX (rt : Reg) (v : Word) : Machine := { m with core := m.core.set rt v }

def setV (rt : Reg) (v : Nat) : Machine := { m with simd := Function.update m.simd rt (BitVec.ofNat 128 v) }

def store (address : Word) (bytes v : Nat) : Machine :=
  { m with core := { m.core with mem := storeBytes m.core.mem address bytes v } }

def next : Machine := { m with core := m.core.next }

end Machine

/-- A load or store of an unsigned offset or an unscaled one, at its address. None
for the encodings that are not allocated. The last integer load of eight bytes
is the prefetch. -/
def access (size : BitVec 2) (v : BitVec 1) (opc : BitVec 2) (address : Word) (rt : Reg) (m : Machine) : Option Machine :=
  let bytes := 2 ^ size.toNat
  let loaded := loadBytes m.core.mem address bytes
  if v = 0 then
    match opc with
    | 0 => some (m.store address bytes (m.core.get rt).toNat)
    | 1 => some (m.setX rt (BitVec.ofNat 64 loaded))
    | 2 => if size = 3 then some m else some (m.setX rt ((BitVec.ofNat (8 * bytes) loaded).signExtend 64))
    | _ =>
      if size = 0 ∨ size = 1 then some (m.setX rt (((BitVec.ofNat (8 * bytes) loaded).signExtend 32).setWidth 64))
      else none
  else
    match opc with
    | 0 => some (m.store address bytes (m.simd rt).toNat)
    | 1 => some (m.setV rt loaded)
    | 2 => if size = 0 then some (m.store address 16 (m.simd rt).toNat) else none
    | _ => if size = 0 then some (m.setV rt (loadBytes m.core.mem address 16)) else none

def scale (size : BitVec 2) (v : BitVec 1) (opc : BitVec 2) : Nat :=
  if v = 1 ∧ 2 ≤ opc.toNat then 4 + size.toNat else size.toNat

end Accesses

section Running

variable (copied : Word → Machine → Machine)

/-- A word that is not allocated stays where it is. What a copy of an instruction of
the guest does is a parameter. -/
def exec (o : Out) (m : Machine) : Machine :=
  match o with
  | .inst i => { m with core := A64.exec i m.core }
  | .bl imm26 => { m with core := (m.core.set lr (m.core.pc + 4)).goto (m.core.pc + offset imm26) }
  | .ldrStrImmed size v opc imm9 rn rt =>
    ((access size v opc (m.core.getBase rn + imm9.signExtend 64) rt m).map Machine.next).getD m
  | .ldrStrUnsignedImmed size v opc imm12 rn rt =>
    ((access size v opc (m.core.getBase rn + imm12.setWidth 64 <<< scale size v opc) rt m).map Machine.next).getD m
  | .copy readAddress => copied readAddress m

def processor : Processor 64 Out Machine where
  pc m := m.core.pc
  size _ := 4
  exec := exec copied

variable {copied} {code : Word → Option Out} {a : Word} {m : Machine} {s t : State} {o : Out} {is : List Inst}
  {out : List Out}

def own (code : Word → Option Out) : Code := fun a => (code a).bind fun
  | .inst i => some i
  | _ => none

theorem own_eq_some {i : Inst} : own code a = some i ↔ code a = some (.inst i) := by
  rw [own, Option.bind_eq_some_iff]
  constructor
  · rintro ⟨o, ho, hi⟩
    cases o with
    | inst j => rw [ho, ← Option.some.inj hi]
    | _ => exact absurd hi (by simp)
  · intro h
    exact ⟨_, h, rfl⟩

theorem own_run (copied : Word → Machine → Machine) (h : Reaches a64 (own code) s t) :
    Reaches (processor copied) code { m with core := s } { m with core := t } := by
  refine Relation.ReflTransGen.lift (fun s => { m with core := s }) (fun u v hstep => ?_) _ _ h
  obtain ⟨i, hi, hexec⟩ := Option.map_eq_some_iff.mp hstep
  rw [← hexec]
  exact steps_of_fetch (P := processor copied) (s := { m with core := u }) (own_eq_some.mp hi)

theorem codeAt_own : CodeAt (processor copied) code a (insts is) ↔ CodeAt a64 (own code) a is := by
  induction is generalizing a with
  | nil => exact Iff.rfl
  | cons i is ih => exact and_congr own_eq_some.symm ih

theorem codeAt_out_append {out' : List Out} :
    CodeAt (processor copied) code a (out ++ out') ↔
      CodeAt (processor copied) code a out ∧ CodeAt (processor copied) code (cell a out.length) out' := by
  induction out generalizing a with
  | nil => simp [CodeAt, cell_zero]
  | cons o out ih =>
      rw [List.cons_append, CodeAt, CodeAt, ih, and_assoc, List.length_cons]
      exact and_congr Iff.rfl (and_congr Iff.rfl (by rw [← cell_succ]; rfl))

theorem out_steps (copied : Word → Machine → Machine) (h : code m.core.pc = some o) :
    Steps (processor copied) code m (exec copied o m) :=
  steps_of_fetch (P := processor copied) h

end Running

end Mambo.A64Machine
