import Mambo.A64Stack
import Mambo.BranchEmitters
import Mambo.RvPluginStack

namespace Mambo.SafeFcalls

open EmitResults RegLists

section Helpers

/-- What differs between the instruction sets in the helpers that call functions. -/
structure Emitters (w : Nat) (ι : Type*) where
  maxFcallArgs : Nat
  lr : Nat
  /-- The register that `emit_safe_fcall` sets to the function. -/
  function : Nat
  size : ι → Nat
  push : BitVec 32 → Option (List ι)
  pop : BitVec 32 → Option (List ι)
  setReg : Nat → BitVec w → List ι
  /-- `__emit_branch_cond` with AL and a link. -/
  branchLink : BitVec w → BitVec w → Option (Result ι)
  callLr : ι
  toPush : Nat → BitVec 32

/-- The code from an address up to the write pointer, and what has been written from there on without moving it. -/
structure Emitted (w : Nat) (ι : Type*) where
  start : BitVec w
  code : List ι
  ahead : List ι
  pluginPushedRegCount : Int

variable {w : Nat} {ι : Type*} (E : Emitters w ι)

def Emitted.writeP (e : Emitted w ι) : BitVec w := e.start + BitVec.ofNat w (e.code.map E.size).sum

/-- What had been written ahead is written over. -/
def Emitted.emit (e : Emitted w ι) (is : List ι) : Emitted w ι :=
  { e with code := e.code ++ is, ahead := if is.isEmpty then e.ahead else [] }

/-- `emit_push`; none where the code stops. -/
def emitPush (regs : BitVec 32) (e : Emitted w ι) : Option (Emitted w ι) :=
  (E.push regs).map fun is => { e.emit is with pluginPushedRegCount := e.pluginPushedRegCount + countBits regs }

def emitPop (regs : BitVec 32) (e : Emitted w ι) : Option (Emitted w ι) :=
  let count := e.pluginPushedRegCount - countBits regs
  if 0 ≤ e.pluginPushedRegCount ∧ 0 ≤ count then
    (E.pop regs).map fun is => { e.emit is with pluginPushedRegCount := count }
  else none

def emitSetReg (reg : Nat) (value : BitVec w) (e : Emitted w ι) : Emitted w ι := e.emit (E.setReg reg value)

/-- The branch in range is written at a copy of the write pointer, which stays where it is. -/
def emitFcall (functionPtr : BitVec w) (e : Emitted w ι) : Option (Emitted w ι) :=
  (E.branchLink (e.writeP E) functionPtr).map fun r =>
    if r.ret = 0 then { e with ahead := r.code } else (emitSetReg E E.lr functionPtr e).emit [E.callLr]

def emitSafeFcall (safeFcallTrampoline functionPtr : BitVec w) (argno : Nat) (e : Emitted w ι) :
    Option (Int × Emitted w ι) :=
  if E.maxFcallArgs < argno then some (-1, e)
  else do
    let e ← emitPush E (E.toPush argno) e
    let e ← emitFcall E safeFcallTrampoline (emitSetReg E E.function functionPtr e)
    let e ← emitPop E (E.toPush argno) e
    return (0, e)

def reglist (argno : Nat) : BitVec 32 := 0xFF >>> (8 - argno)

def emitArgs (args : Nat → BitVec w) : Nat → Emitted w ι → Emitted w ι
  | 0, e => e
  | a + 1, e => emitSetReg E a (args a) (emitArgs args a e)

def emitSafeFcallStaticArgs (safeFcallTrampoline fptr : BitVec w) (argno : Int) (args : Nat → BitVec w)
    (e : Emitted w ι) : Option (Int × Emitted w ι) :=
  if argno > E.maxFcallArgs ∨ argno < 0 then some (-1, e)
  else if argno > 0 then do
    let e ← emitPush E (reglist argno.toNat) e
    let r ← emitSafeFcall E safeFcallTrampoline fptr argno.toNat (emitArgs E args argno.toNat e)
    let e ← emitPop E (reglist argno.toNat) r.2
    return (0, e)
  else do
    let r ← emitSafeFcall E safeFcallTrampoline fptr argno.toNat e
    return (0, r.2)

end Helpers

section Sets

open BranchEmitters

def a64ToPush (argno : Nat) : BitVec 32 := ((1 : BitVec 32) <<< 30 ||| 0x1FF) &&& ~~~(((1 : BitVec 32) <<< 8 - 1) >>> (8 - argno))

def a64 : Emitters 64 A64Plugin.Inst where
  maxFcallArgs := 8
  lr := 30
  function := 8
  size _ := 4
  push regs := (A64Stack.emitA64Push regs).map fun is => is.map .core
  pop regs := some ((A64Stack.emitA64Pop regs).map .core)
  setReg reg value := (A64Emit.copyToReg64bits (BitVec.ofNat 5 reg) value).map .core
  branchLink write target := BranchEmitters.A64.emitBranchCondAt write target AL true
  callLr := .blr A64.lr
  toPush := a64ToPush

def armToPush (argno : Nat) : BitVec 32 :=
  ((1 : BitVec 32) <<< 14 ||| (1 <<< 0 ||| 1 <<< 1 ||| 1 <<< 2 ||| 1 <<< 3 ||| 1 <<< 4)) &&&
    ~~~(((1 : BitVec 32) <<< 4 - 1) >>> (4 - argno))

def armCopyToReg32bit (reg : T32.Reg) (value : T32.Word) : List A32.Inst :=
  if value ≤ 0xFFFF then [.movw reg ((value >>> 12).setWidth 4) (value.setWidth 12)]
  else
    [.movw reg ((value >>> 12).setWidth 4) (value.setWidth 12),
      .movt reg ((value >>> 28).setWidth 4) ((value >>> 16).setWidth 12)]

def a32 : Emitters 32 A32.Inst where
  maxFcallArgs := 4
  lr := 14
  function := 4
  size _ := 4
  push regs := some [.push (regs.setWidth 16)]
  pop regs := some [.pop (regs.setWidth 16) (if regs.getLsbD 13 then 0 else 1)]
  setReg reg value := armCopyToReg32bit (BitVec.ofNat 4 reg) value
  branchLink write target := BranchEmitters.A32.emitBranchCondAt write target AL true
  callLr := .blx T32.lr
  toPush := armToPush

/-- `thumb_push_regs`; none where it hangs. -/
def thumbPushRegs (regs : BitVec 32) : Option (List T32Plugin.Inst) :=
  if regs &&& 0xFFFFA000 ≠ 0 ∨ regs = 0 then none
  else if regs &&& 0xBF00 ≠ 0 then some [.stmfd32 T32.sp (regs.setWidth 16)]
  else if regs.getLsbD 14 then some [.core (.push16 ((regs &&& 0xFF ||| 1 <<< 8).setWidth 9))]
  else some [.core (.push16 (regs.setWidth 9))]

def thumbPopRegs (regs : BitVec 32) : Option (List T32Plugin.Inst) :=
  if regs &&& 0xFFFFA000 ≠ 0 ∨ regs = 0 then none
  else if regs &&& 0x7F00 ≠ 0 then some [.core (.ldmfd32 1 T32.sp (regs.setWidth 16))]
  else if regs.getLsbD 15 then some [.core (.pop16 ((regs &&& 0xFF ||| 1 <<< 8).setWidth 9))]
  else some [.core (.pop16 (regs.setWidth 9))]

def thumbCopyToReg32bit (reg : T32.Reg) (value : T32.Word) : List T32Plugin.Inst :=
  if value ≤ 0xFFFF then
    [.core (.movwi32 (value.extractLsb' 11 1) (value.extractLsb' 12 4) (value.extractLsb' 8 3) reg
      (value.extractLsb' 0 8))]
  else (T32Emit.copyToReg32bit reg value).map .core

def t32 : Emitters 32 T32Plugin.Inst where
  maxFcallArgs := 4
  lr := 14
  function := 4
  size := T32Plugin.Inst.size
  push := thumbPushRegs
  pop := thumbPopRegs
  setReg reg value := thumbCopyToReg32bit (BitVec.ofNat 4 reg) value
  branchLink write target := BranchEmitters.T32.emitBranchCondAt write target AL true
  callLr := .core (.blx16 T32.lr)
  toPush := armToPush

def rvToPush (argno : Nat) : BitVec 32 :=
  ((1 : BitVec 32) <<< 1 ||| 0x3FC00) &&& ~~~(((1 : BitVec 32) <<< 18 - 1) >>> (8 - argno)) ||| 1 <<< 1

def rvSize : RvPlugin.Inst → Nat
  | .core i => i.size
  | _ => 4

def riscv : Emitters 64 RvPlugin.Inst where
  maxFcallArgs := 8
  lr := 1
  function := 17
  size := rvSize
  push := RvPluginStack.emitRiscvPush
  pop := RvPluginStack.emitRiscvPop
  setReg reg value := (RvEmit.copyToReg (BitVec.ofNat 5 reg) value).map .core
  branchLink write target := some (BranchEmitters.Rv.emitBranchCondAt write target BranchEmitters.Rv.AL true)
  callLr := .core (.jalr Rv.ra Rv.ra 0)
  toPush := rvToPush

end Sets

end Mambo.SafeFcalls
