import Mambo.A64Stack
import Mambo.RvStack

namespace Mambo.ScratchRegs

open RegLists

/-- A processor for which code is written, with the pushes and pops of the API on it. -/
structure Machine where
  Inst : Type
  State : Type
  push : BitVec 32 → Option (List Inst)
  pop : BitVec 32 → Option (List Inst)
  execAll : List Inst → State → State
  Reserved : Nat → Prop
  Same : State → State → Prop
  Saved : State → BitVec 32 → State → Prop
  Loses : BitVec 32 → State → State → Prop

inductive Isa
  | a64
  | riscv

/-- The stack pointer and the zero register are reserved. `Saved` says that exactly the
registers of a set are on the stack, `Loses` what other code may do then. -/
def machine : Isa → Machine
  | .a64 =>
    { Inst := A64.Inst
      State := A64.State
      push := A64Stack.emitA64Push
      pop := fun regs => some (A64Stack.emitA64Pop regs)
      execAll := A64Stack.execAll
      Reserved := fun k => k = 31
      Same := fun s u => u.sp = s.sp ∧ ∀ r, u.get r = s.get r
      Saved := fun s regs u => A64Stack.Kept s (members regs) u ∧ A64Stack.Saveable (members regs)
      Loses := fun regs => A64Stack.Clobbered (members regs) }
  | .riscv =>
    { Inst := Rv.Inst
      State := Rv.State
      push := RvStack.riscvPush
      pop := RvStack.riscvPop
      execAll := RvCode.execAll
      Reserved := fun k => k = 0 ∨ k = 2
      Same := fun s u => ∀ r, u.get r = s.get r
      Saved := RvStack.Kept
      Loses := RvStack.Clobbered }

section Api

/-- The fields of the context that the calls use. -/
structure Code where
  pushedRegs : BitVec 32
  availableRegs : BitVec 32
  pluginPushedRegCount : Int

def setMamboContextCode : Code := ⟨0, 0, 0⟩

/-- The loop of `mambo_get_scratch_regs`: the registers available, those to push and those
handed out. -/
def getLoop : Nat → BitVec 32 → Nat → BitVec 32 → List Nat → BitVec 32 × BitVec 32 × List Nat
  | 0, availableRegs, _, toPush, regs => (availableRegs, toPush, regs)
  | count + 1, availableRegs, minPushedReg, toPush, regs =>
    let reg := nextRegInList availableRegs 0
    if reg ≠ regInvalid then getLoop count (clear availableRegs reg) minPushedReg toPush (regs ++ [reg])
    else
      match minPushedReg with
      | 0 => (availableRegs, toPush, regs)
      | reg + 1 => getLoop count availableRegs reg (toPush ||| (1 : BitVec 32) <<< reg) (regs ++ [reg])

variable (m : Machine)

def emitPush (code : Code) (out : m.State) (regs : BitVec 32) : Option (Code × m.State) :=
  (m.push regs).map fun is =>
    ({ code with pluginPushedRegCount := code.pluginPushedRegCount + countBits regs }, m.execAll is out)

/-- None if an assertion fails. -/
def emitPop (code : Code) (out : m.State) (regs : BitVec 32) : Option (Code × m.State) :=
  if 0 ≤ code.pluginPushedRegCount ∧ 0 ≤ code.pluginPushedRegCount - countBits regs then
    (m.pop regs).map fun is =>
      ({ code with pluginPushedRegCount := code.pluginPushedRegCount - countBits regs }, m.execAll is out)
  else none

def minPushedReg (code : Code) : Nat :=
  if code.pushedRegs ≠ 0 then nextRegInList code.pushedRegs 0 else 8

def mamboGetScratchRegs (code : Code) (out : m.State) (count : Int) : Option (Code × m.State × List Nat) :=
  let (availableRegs, toPush, regs) := getLoop count.toNat code.availableRegs (minPushedReg code) 0 []
  let code := { code with availableRegs := availableRegs, pushedRegs := code.pushedRegs ||| toPush }
  if toPush ≠ 0 then (emitPush m code out toPush).map fun r => (r.1, r.2, regs) else some (code, out, regs)

def mamboGetScratchReg (code : Code) (out : m.State) : Option (Code × m.State × List Nat) :=
  mamboGetScratchRegs m code out 1

omit m

def mamboFreeScratchRegs (code : Code) (regs : BitVec 32) : Code × Int :=
  if regs &&& code.pushedRegs ≠ regs then (code, -1)
  else ({ code with availableRegs := code.availableRegs ||| regs }, 0)

/-- It calls itself; the number of nested calls is limited to the first argument. -/
def mamboFreeScratchReg : Nat → Code → BitVec 32 → Option (Code × Int)
  | 0, _, _ => none
  | depth + 1, code, reg => mamboFreeScratchReg depth code (1 <<< reg.toNat)

end Api

section Delivery

inductive Call
  | getRegs (count : Int)
  | getReg
  | freeRegs (regs : BitVec 32)
  | freeReg (reg : BitVec 32)

def Call.count : Call → Int
  | .getRegs count => count
  | .getReg => 1
  | _ => 0

/-- A delivery of callbacks: the context, the processor after the code written so far, the
registers handed out to the plugin and not freed, whether its callback is running, and
whether it has written code. -/
structure Delivery (m : Machine) where
  code : Code
  out : m.State
  held : List Nat
  inside : Bool
  wrote : Bool

variable {m : Machine}

def deliveryStart (s : m.State) : Delivery m := ⟨setMamboContextCode, s, [], false, false⟩

def stillHeld (held : List Nat) (regs : BitVec 32) (ret : Int) : List Nat :=
  if ret = 0 then held.filter (fun k => !regs.getLsbD k) else held

/-- A call by the plugin; none if it does not return. -/
def call (depth : Nat) (d : Delivery m) : Call → Option (Delivery m)
  | .getRegs count => (mamboGetScratchRegs m d.code d.out count).map fun r =>
      { d with
        code := r.1
        out := r.2.1
        held := d.held ++ r.2.2
        wrote := d.wrote || d.code.pushedRegs != r.1.pushedRegs }
  | .getReg => (mamboGetScratchReg m d.code d.out).map fun r =>
      { d with
        code := r.1
        out := r.2.1
        held := d.held ++ r.2.2
        wrote := d.wrote || d.code.pushedRegs != r.1.pushedRegs }
  | .freeRegs regs =>
      let r := mamboFreeScratchRegs d.code regs
      some { d with code := r.1, held := stillHeld d.held regs r.2 }
  | .freeReg reg => (mamboFreeScratchReg depth d.code reg).map fun r =>
      { d with code := r.1, held := stillHeld d.held (1 <<< reg.toNat) r.2 }

/-- What happens in a delivery: the scanner turns to the next plugin with a callback, the
plugin calls the API or writes code of its own, and its callback returns to the scanner. -/
inductive Event (m : Machine)
  | enter
  | call (c : Call)
  | own (out : m.State)
  | leave

/-- The steps of `a64_scanner_deliver_callbacks` and `riscv_scanner_deliver_callbacks`. -/
def next (allowWrite : Bool) (depth : Nat) (d : Delivery m) : Event m → Option (Delivery m)
  | .enter =>
      some { d with
        code := { d.code with availableRegs := d.code.pushedRegs }
        held := []
        inside := true
        wrote := false }
  | .call c => call depth d c
  | .own out => some { d with out := out, wrote := true }
  | .leave =>
      if allowWrite then
        if (countBits d.code.pushedRegs : Int) = d.code.pluginPushedRegCount then
          if d.code.pushedRegs ≠ 0 then
            (emitPop m d.code d.out d.code.pushedRegs).map fun r =>
              { d with code := r.1, out := r.2, inside := false }
          else some { d with inside := false }
        else none
      else if d.wrote then none else some { d with inside := false }

/-- The order of the steps, and plugins' own code that loses nothing but saved registers. -/
def Proper (d : Delivery m) : Event m → Prop
  | .enter => d.inside = false
  | .call _ => d.inside = true
  | .own out => d.inside = true ∧ m.Loses d.code.pushedRegs d.out out
  | .leave => d.inside = true

def shortfall (code : Code) (count : Int) : Nat :=
  min (count.toNat - countBits code.availableRegs) (minPushedReg code)

/-- On A64 the pushes after the first are of an even number of registers; on RISC-V x0 to x2
are not reached. -/
def Room (isa : Isa) (code : Code) (n : Nat) : Prop :=
  match isa with
  | .a64 => code.pushedRegs = 0 ∨ n % 2 = 0
  | .riscv => n + 3 ≤ minPushedReg code

/-- The steps for which scratch registers work: no register is freed on its own, no earlier
plugin has pushed any, and what is pushed can be. -/
def Meets (isa : Isa) (allowWrite : Bool) (d : Delivery (machine isa)) : Event (machine isa) → Prop
  | .enter => d.code.pushedRegs = 0
  | .call (.freeReg _) => False
  | .call c => shortfall d.code c.count = 0 ∨ allowWrite = true ∧ Room isa d.code (shortfall d.code c.count)
  | .own _ => allowWrite = true
  | .leave => True

inductive Reaches (isa : Isa) (allowWrite : Bool) (s : (machine isa).State) : Delivery (machine isa) → Prop
  | start : Reaches isa allowWrite s (deliveryStart s)
  | step {d d' : Delivery (machine isa)} {e : Event (machine isa)} {depth : Nat} (before : Reaches isa allowWrite s d)
      (proper : Proper d e) (meets : Meets isa allowWrite d e) (h : next allowWrite depth d e = some d') :
      Reaches isa allowWrite s d'

end Delivery

end Mambo.ScratchRegs
