import Mambo.A64Emit
import Mambo.A64Plugin
import Mambo.EmitResults
import Mambo.RvEmit
import Mambo.RvPlugin
import Mambo.T32Emit
import Mambo.T32Plugin

namespace Mambo.BranchEmitters

open EmitResults

abbrev Cond := BitVec 4

def AL : Cond := 14

def ALT : Cond := 15

/-- A distance that a signed field reaches, in steps of the granule. -/
def Within (reach granule : Int) (distance : Int) : Prop := -reach ≤ distance ∧ distance ≤ reach - granule

instance (reach granule distance : Int) : Decidable (Within reach granule distance) :=
  inferInstanceAs (Decidable (_ ∧ _))

/-- The emitters for a branch at the write pointer move it past what they wrote. -/
def advance {w : Nat} {Inst : Type*} (size writeP : BitVec w) (r : Result Inst) : Result Inst × BitVec w :=
  (r, if r.ret = 0 then writeP + size else writeP)

namespace A64

open A64Plugin
open Mambo.A64 (Word Reg)

def reach (cond : Cond) : Int := if cond = AL then 134217728 else 1048576

def branchHelper (writeP target : Word) (link : Bool) : Option Inst :=
  let difference := target - writeP
  if difference &&& 3 = 0 ∧ difference.toInt < 128 * 1024 * 1024 ∧ -128 * 1024 * 1024 ≤ difference.toInt then
    let imm26 := (difference.sshiftRight 2).setWidth 26
    some (if link then .bl imm26 else .core (.b imm26))
  else none

/-- `__emit_branch_cond` on AArch64; none where an assertion stops it. -/
def emitBranchCondAt (write target : Word) (cond : Cond) (link : Bool) : Option (Result Inst) :=
  let diff := target - write
  if cond ≠ AL ∧ link then some .fail
  else if cond = AL then
    if diff.toInt < -134217728 ∨ diff.toInt > 134217724 then some .fail
    else (branchHelper write target link).map fun i => .ok [i]
  else if diff.toInt < -1048576 ∨ diff.toInt > 1048572 then some .fail
  else (A64Emit.bCondHelper write target (cond.setWidth 64)).map fun i => .ok [.core i]

/-- `emit_branch_cond`, and with AL `emit_branch`. -/
def emitBranchCond (writeP target : Word) (cond : Cond) : Option (Result Inst × Word) :=
  (emitBranchCondAt writeP target cond false).map (advance 4 writeP)

/-- `emit_local_branch_cond`, and with AL `emit_local_branch`: from a reserved place to the write pointer. -/
def emitLocalBranchCond (loc writeP : Word) (cond : Cond) : Option (Result Inst) :=
  emitBranchCondAt loc writeP cond false

def emitBranchCbzCbnzAt (writeP target : Word) (reg : Reg) (isCbz : Bool) : Result Inst :=
  match A64Emit.cbzCbnzHelper writeP (!isCbz) target 1 reg with
  | none => .fail
  | some i => .ok [.core i]

def emitBranchCbzCbnz (writeP target : Word) (reg : Reg) (isCbz : Bool) : Result Inst × Word :=
  advance 4 writeP (emitBranchCbzCbnzAt writeP target reg isCbz)

def emitLocalBranchCbzCbnz (loc writeP : Word) (reg : Reg) (isCbz : Bool) : Result Inst :=
  emitBranchCbzCbnzAt loc writeP reg isCbz

end A64

namespace T32

open T32Plugin
open Mambo.T32 (Word)

/-- A write pointer into T32 code. -/
abbrev Place := {p : Word // p.toNat % 2 = 0}

def reach (cond : Cond) : Int := if cond = AL then 16777216 else 1048576

def diff (write target : Word) : Word := Mambo.T32.entry target - write - 4

def bBlHelper (writeP destAddr : Word) (link toArm : Bool) : Option Inst :=
  let difference := destAddr - (if toArm then writeP &&& ~~~2 else writeP) - 4
  if difference.toInt < -(16 * 1024 * 1024) ∨ 16 * 1024 * 1024 ≤ difference.toInt then none
  else
    let signBit := difference.extractLsb' 31 1
    let i1 := ~~~(difference.extractLsb' 23 1 ^^^ signBit)
    let i2 := ~~~(difference.extractLsb' 22 1 ^^^ signBit)
    let offsetHigh := difference.extractLsb' 12 10
    let offsetLow := difference.extractLsb' 1 11
    some (if link then
        if toArm then .blArm32 signBit offsetHigh i1 i2 offsetLow else .bl32 signBit offsetHigh i1 i2 offsetLow
      else .core (.b32 signBit offsetHigh i1 i2 offsetLow))

/-- A target that is too far away gets an unconditional branch, which the inverted condition skips. -/
def b32CondHelper (writeP destAddr : Word) (condition : Cond) : Option (List Inst) :=
  let difference := destAddr - writeP - 4
  if difference.toInt < -(1 * 1024 * 1024) ∨ 1 * 1024 * 1024 ≤ difference.toInt then
    if condition.toNat < 14 then
      (bBlHelper (writeP + 2) destAddr false false).map fun b => [.core (.bCond16 (condition ^^^ 1) 1), b]
    else none
  else some [.bCond32 (difference.extractLsb' 31 1) condition (difference.extractLsb' 12 6)
    (difference.extractLsb' 18 1) (difference.extractLsb' 19 1) (difference.extractLsb' 1 11)]

/-- `__emit_branch_cond` in T32 code; none where an assertion stops it. -/
def emitBranchCondAt (write target : Word) (cond : Cond) (link : Bool) : Option (Result Inst) :=
  if cond ≠ AL ∧ link then some .fail
  else if cond = AL then
    let toArm := link && !target.getLsbD 0
    if (diff write target).toInt < -16777216 ∨ (diff write target).toInt > 16777214 then some .fail
    else (bBlHelper write (Mambo.T32.entry target) link toArm).map fun i => .ok [i]
  else if (diff write target).toInt < -1048576 ∨ (diff write target).toInt > 1048574 then some .fail
  else do
    let code ← b32CondHelper write target cond
    if (code.map Inst.size).sum = 4 then some (.ok code) else none

def emitBranchCond (writeP : Place) (target : Word) (cond : Cond) : Option (Result Inst × Word) :=
  (emitBranchCondAt writeP target cond false).map (advance 4 writeP.val)

def emitLocalBranchCond (loc writeP : Place) (cond : Cond) : Option (Result Inst) :=
  emitBranchCondAt loc (writeP.val ||| 1) cond false

end T32

namespace A32

open Mambo.A32
open Mambo.T32 (Word)

def reach : Int := 33554432

/-- None stands for the endless loop on a target that is not aligned. -/
def branchHelper (writeP target : Word) (link : Bool) (cond : Cond) : Option Inst :=
  if target &&& 3 = 0 then
    let offsetBranch := ((target - writeP - 8) >>> 2).setWidth 24
    some (if link then .bl cond offsetBranch else .b cond offsetBranch)
  else none

/-- `__emit_branch_cond` in A32 code. -/
def emitBranchCondAt (write target : Word) (cond : Cond) (link : Bool) : Option (Result Inst) :=
  let diff := Mambo.T32.entry target - write - 8
  if cond ≠ AL ∧ link then some .fail
  else if target.getLsbD 0 then some .fail
  else if diff.toInt < -33554432 ∨ diff.toInt > 33554428 then some .fail
  else (branchHelper write target link cond).map fun i => .ok [i]

/-- A write pointer into A32 code. -/
abbrev Place := {p : Word // p &&& 3 = 0}

def emitBranchCond (writeP : Place) (target : Word) (cond : Cond) : Option (Result Inst × Word) :=
  (emitBranchCondAt writeP target cond false).map (advance 4 writeP.val)

def emitLocalBranchCond (loc writeP : Place) (cond : Cond) : Option (Result Inst) :=
  emitBranchCondAt loc writeP cond false

end A32

namespace Rv

open RvPlugin
open Mambo.Rv (Word)

abbrev Cond := BitVec 32

def AL : Cond := 0

def reach : Int := 1048576

/-- `__emit_branch_cond` on RISC-V, where what the helper returns is ignored. -/
def emitBranchCondAt (write target : Word) (cond : Cond) (link : Bool) : Result Inst :=
  let diff := target - write
  if cond ≠ AL ∧ link then .fail
  else if cond = AL then
    if diff.toInt < -1048576 ∨ diff.toInt > 1048574 then .fail
    else .ok ((RvEmit.jalHelper write target Mambo.Rv.ra).map Inst.core).toList
  else .fail

def emitBranchCond (writeP target : Word) (cond : Cond) : Result Inst × Word :=
  advance 4 writeP (emitBranchCondAt writeP target cond false)

def emitLocalBranchCond (loc writeP : Word) (cond : Cond) : Result Inst := emitBranchCondAt loc writeP cond false

end Rv

end Mambo.BranchEmitters
