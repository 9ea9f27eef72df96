import Mambo.ArmSafeFcalls
import Mambo.T32Branches

namespace Mambo.SoftDiv

open RegLists SafeFcalls
open ArmSafeFcalls (reg)
open BranchEmitters (Cond AL)
open CallRuns (Machine Routine Goes Puts Sets Saves Links Abides Silent)
open SafeFcallRuns (frame)
open T32 (Word Reg Flags State)

section Machines

/-- The instructions of the plugin's code: those that its helpers emit, and the moves of the status register. -/
inductive Inst (ι : Type)
  | helper (i : ι)
  | mrs (rd : Reg)
  | msr (rn : Reg) (mask : BitVec 2)

def cpsr (flags : Flags) (rest : BitVec 28) : Word :=
  BitVec.ofBool flags.n ++ BitVec.ofBool flags.z ++ BitVec.ofBool flags.c ++ BitVec.ofBool flags.v ++ rest

def flagsOf (v : Word) : Flags where
  n := v.getLsbD 31
  z := v.getLsbD 30
  c := v.getLsbD 29
  v := v.getLsbD 28

def statusReg : Nat := 16

def exec {ι : Type} (M : Machine 32 ι State) (rest : BitVec 28) (i : Inst ι) (s : State) : Option State :=
  match i with
  | .helper i => M.exec i s
  | .mrs rd => some ((s.set rd (cpsr s.flags rest)).goto (s.pc + 4))
  | .msr rn mask => some { s.goto (s.pc + 4) with flags := if mask.getLsbD 1 then flagsOf (s.r rn) else s.flags }

def withStatus {ι : Type} (M : Machine 32 ι State) (rest : BitVec 28) : Machine 32 (Inst ι) State where
  exec := exec M rest
  calls
    | .helper i => M.calls i
    | _ => false
  size
    | .helper i => M.size i
    | _ => 4
  place := M.place
  jump := M.jump
  set := M.set
  general r := M.general r ∨ r = statusReg
  get s r := if r = statusReg then cpsr s.flags 0 else M.get s r
  sp := M.sp
  mem := M.mem

end Machines

section Emitter

structure Divide where
  signed : Bool
  cond : Cond
  rd : Nat
  rn : Nat
  rm : Nat
  cond_lt : cond.toNat < 15
  general : ∀ r ∈ [rd, rn, rm], r < 15 ∧ r ≠ 13

/-- What differs between the instruction sets in the plugin. -/
structure Target (ι : Type) where
  machine : Machine 32 ι State
  emitters : Emitters 32 ι
  /-- A move between registers that leaves the flags alone. -/
  mov : Nat → Nat → ι
  /-- The branch over the code, and the place that is kept for it. -/
  branch : Word → Word → Cond → Option ι
  branchSize : Nat
  /-- The register to load the flags from is looked up again. -/
  rescans : Bool

def regInvalid : Nat := 16

def nextRegInList (reglist : BitVec 32) (start : Nat) : Nat :=
  ((List.range' start (16 - start)).find? fun r => reglist.getLsbD r).getD regInvalid

def bit (r : Nat) : BitVec 32 := (1 : BitVec 32) <<< r

def getScratchReg (reglist excludeList : BitVec 32) : Nat := nextRegInList (reglist &&& ~~~excludeList) 0

def srReglist : BitVec 32 := bit 4 ||| bit 5 ||| bit 6 ||| bit 7

def callReglist : BitVec 32 := bit 0 ||| bit 1 ||| bit 2 ||| bit 3 ||| bit 14

def saved (sr rd : Nat) : BitVec 32 := clear (callReglist ||| bit sr) rd

def helpers {ι : Type} (E : Emitters 32 ι) : Emitters 32 (Inst ι) where
  maxFcallArgs := E.maxFcallArgs
  lr := E.lr
  function := E.function
  size
    | .helper i => E.size i
    | _ => 4
  push regs := (E.push regs).map (List.map .helper)
  pop regs := (E.pop regs).map (List.map .helper)
  setReg r v := (E.setReg r v).map .helper
  branchLink write target := (E.branchLink write target).map fun r => ⟨r.ret, r.code.map .helper⟩
  callLr := .helper E.callLr
  toPush := E.toPush

variable {ι : Type} (T : Target ι)

/-- `emit_arm_fcall` and `emit_thumb_fcall`. -/
def emitFcall (functionPtr : Word) (e : Emitted 32 (Inst ι)) : Emitted 32 (Inst ι) :=
  let E := helpers T.emitters
  (emitSetReg E E.lr functionPtr e).emit [E.callLr]

def emitMov (rd rm : Nat) (e : Emitted 32 (Inst ι)) : Emitted 32 (Inst ι) :=
  if rm ≠ rd then e.emit [.helper (T.mov rd rm)] else e

/-- The code but for the branch over it; none where an assertion stops it. -/
def emitDivide (functionPtr : Word) (d : Divide) (e : Emitted 32 (Inst ι)) : Option (Emitted 32 (Inst ι)) := do
  let sr := getScratchReg srReglist (bit d.rn ||| bit d.rm ||| bit d.rd)
  if sr = regInvalid then none
  else
    let regs := saved sr d.rd
    let e ← emitPush (helpers T.emitters) regs e
    let e := emitMov T 1 d.rm (emitMov T 0 d.rn (e.emit [.mrs (reg sr)]))
    let e := emitMov T d.rd 0 (emitFcall T functionPtr e)
    let sr := if T.rescans then getScratchReg regs (bit d.rd) else sr
    emitPop (helpers T.emitters) regs (e.emit [.msr (reg sr) 3])

/-- Code, and the branch over it where there is a condition. -/
structure Guarded (ι : Type) where
  branch : Option ι
  code : List (Inst ι)

/-- `soft_div_pre_inst` from the write pointer on, behind a count of pushed registers. -/
def softDivPreInst (idiv uidiv : Word) (d : Divide) (writeP : Word) (count : Nat) : Option (Guarded ι) :=
  let functionPtr := if d.signed then idiv else uidiv
  if d.cond = AL then (emitDivide T functionPtr d ⟨writeP, [], [], count⟩).map fun e => ⟨none, e.code⟩
  else do
    let e ← emitDivide T functionPtr d ⟨writeP + BitVec.ofNat 32 T.branchSize, [], [], count⟩
    let b ← T.branch writeP (e.writeP (helpers T.emitters)) (d.cond ^^^ 1)
    return ⟨some b, e.code⟩

end Emitter

section Targets

def arm : Target A32.Inst where
  machine := ArmSafeFcalls.a32Machine
  emitters := a32
  mov rd rm := .mov (reg rd) ((reg rm).setWidth 12)
  branch write target cond := BranchEmitters.A32.branchHelper write target false cond
  branchSize := 4
  rescans := true

def thumb : Target T32Plugin.Inst where
  machine := ArmSafeFcalls.t32Machine
  emitters := t32
  mov rd rm := .core (.movh16 ((reg rd).extractLsb' 3 1) (reg rm) ((reg rd).extractLsb' 0 3))
  branch write target cond := (T32Branches.b16CondHelper write target cond).bind fun
    | .plugin i => some i
    | .miscCbz16 .. => none
  branchSize := 2
  rescans := false

end Targets

section Meaning

variable {ι : Type} (T : Target ι)

/-- A run over the code; a branch goes to the code or behind it. -/
def Guarded.run (rest : BitVec 28) (R : Routine 32 State) (g : Guarded ι) (s : State) : Option State :=
  let M := T.machine
  let N := withStatus M rest
  let go (s : State) := (CallRuns.run N R g.code s).map Prod.fst
  match g.branch with
  | none => go s
  | some i =>
    (M.exec i s).bind fun u =>
      if M.place u = CallRuns.past (M.place s) (M.size i) then go u
      else if M.place u = CallRuns.past (M.place s) (M.size i + CallRuns.bytes N g.code) then some u
      else none

def Guarded.bytes (g : Guarded ι) : Nat :=
  (g.branch.toList.map T.machine.size).sum + CallRuns.bytes (withStatus T.machine 0) g.code

def quotient (signed : Bool) (n d : Word) : Word := if signed then n.sdiv d else n.udiv d

def Clobbers (r : Nat) : Prop := r ≤ 3 ∨ r = 12 ∨ r = 14 ∨ r = statusReg

/-- A function of the run-time library that divides. -/
structure Divides (R : Routine 32 State) (signed : Bool) : Prop where
  abides : Abides (withStatus T.machine 0) R 14 Clobbers frame
  quotient : ∀ u, T.machine.place u = T.machine.jump R.entry → u.r 1 ≠ 0 → (R.run u).r 0 = quotient signed (u.r 0) (u.r 1)

def holds (d : Divide) (s : State) : Bool := A64.condHolds d.cond s.flags

/-- The state that a division ends in, but for the counter. -/
structure Divided (d : Divide) (s t : State) : Prop where
  result : holds d s = true → t.r (reg d.rd) = quotient d.signed (s.r (reg d.rn)) (s.r (reg d.rm))
  others : ∀ r, r < 15 → r ≠ 13 → (holds d s = true → r ≠ d.rd) → t.r (reg r) = s.r (reg r)
  sp : t.r T32.sp = s.r T32.sp
  flags : t.flags = s.flags
  memory : holds d s = false → t.mem = s.mem

/-- With any functions of the library, the code divides as the instruction does and goes on behind itself. -/
def Transparent (d : Divide) (s : State) : Prop :=
  ∀ (rest : BitVec 28) (idiv uidiv : Routine 32 State) (count : Nat), Divides T idiv true → Divides T uidiv false →
    ∃ g t, softDivPreInst T idiv.entry uidiv.entry d s.pc count = some g ∧
      g.run T rest (if d.signed then idiv else uidiv) s = some t ∧
      T.machine.place t = CallRuns.past (T.machine.place s) (g.bytes T) ∧ Divided d s t

/-- The value that the instruction leaves in its destination. -/
def Divide.value (d : Divide) (s : State) : Word := quotient d.signed (s.r (reg d.rn)) (s.r (reg d.rm))

/-- Where the condition holds, the destination is r12, the divisor is not in r0 behind another dividend, and the flags
are those that the code looks up. -/
def Exact (d : Divide) (s : State) : Prop :=
  holds d s = true → d.rd = 12 ∧ (d.rm = 0 → d.rn = 0 ∨ d.value s = 1) ∧
    (T.rescans = true → flagsOf (d.value s) = s.flags)

end Meaning

end Mambo.SoftDiv
