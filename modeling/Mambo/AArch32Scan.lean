import Mambo.T32
import Mambo.Walks

namespace Mambo.AArch32Scan

open T32 (Word Reg sp lr pc)
open Walks (Turn run)

inductive BranchType
  | traceInlineMax
  | uncondImmThumb
  | uncondRegThumb
  | condImmThumb
  | cbzThumb
  | uncondBlxiThumb
  | condImmArm
  | uncondImmArm
  | condRegArm
  | uncondRegArm
  | uncondBlxiArm
  | condBlxiArm
  | tbIndirect
  deriving DecidableEq

def maxBackInline : Nat := 5

/-- The condition code of instructions that are always executed. -/
def al : BitVec 4 := 14

section Thumb

inductive SpecialOp
  | addh
  | cmph
  | movh
  deriving DecidableEq

inductive LoadForm
  | word
  | half
  | signedHalf
  | byte
  | signedByte
  deriving DecidableEq

inductive BranchForm
  | b
  | bl
  | blArm
  deriving DecidableEq

/-- What the decoder and the field decoders tell of an instruction of the guest. The
instructions that the scanner copies or rewrites without leaving the block are other:
it may handle them in an IT block, and accepts them unless it asserts that some field is
not pc. Those that no case of it lists are unhandled. -/
inductive ThumbInst
  | specialDataProc (op : SpecialOp) (dn : BitVec 1) (rm : Reg) (rdn : BitVec 3)
  | bx (link : Bool) (rm : Reg)
  | cbz (nonzero : Bool) (rn : BitVec 3)
  | pop (reglist : BitVec 9)
  | it (condition mask : BitVec 4)
  | bCond16 (condition : BitVec 4)
  | b16 (imm11 : BitVec 11)
  | ldri32 (form : LoadForm) (unprivileged : Bool) (rt rn : Reg) (imm8 : BitVec 8)
      (preIndex upwards writeback : Bool)
  | ldr32 (form : LoadForm) (rn rt rm : Reg)
  | branch32 (form : BranchForm)
  | bCond32 (condition : BitVec 4)
  | tb (half : Bool) (rn rm : Reg)
  | ldm32 (full writeback : Bool) (rn : Reg) (reglist : BitVec 16)
  | other (wide handled accepted : Bool)
  | unhandled (wide : Bool)
  deriving DecidableEq

def ThumbInst.size : ThumbInst → Word
  | .specialDataProc .. | .bx .. | .cbz .. | .pop .. | .it .. | .bCond16 _ | .b16 .. => 2
  | .other wide .. | .unhandled wide => if wide then 4 else 2
  | _ => 4

abbrev ThumbCode := Word → ThumbInst

def specialRdn (dn : BitVec 1) (rdn : BitVec 3) : Reg := rdn.setWidth 4 ||| dn.setWidth 4 <<< 3

def b16Offset (imm11 : BitVec 11) : Word :=
  (if imm11 &&& 0x400 ≠ 0 then 0xFFFFF000 else 0) ||| imm11.setWidth 32 <<< 1

/-- The type that pass1_thumb gives to a block for one of its instructions. -/
def thumbBbType : ThumbInst → Option BranchType
  | .specialDataProc _ dn _ rdn => if specialRdn dn rdn = pc then some .uncondRegThumb else none
  | .bx .. => some .uncondRegThumb
  | .cbz .. => some .cbzThumb
  | .pop reglist => if reglist.getLsbD 8 then some .uncondRegThumb else none
  | .bCond16 _ => some .condImmThumb
  | .ldri32 form unprivileged rt .. =>
      if (form = .word ∨ form = .half ∨ form = .byte) ∧ unprivileged = false ∧ rt = pc then some .uncondRegThumb
      else none
  | .ldr32 form _ rt _ =>
      if (form = .word ∨ form = .half ∨ form = .byte) ∧ rt = pc then some .uncondRegThumb else none
  | .branch32 .b | .branch32 .bl => some .uncondImmThumb
  | .branch32 .blArm => some .uncondBlxiThumb
  | .bCond32 _ => some .condImmThumb
  | .tb .. => some .tbIndirect
  | .ldm32 _ _ _ reglist => if reglist.getLsbD 15 then some .uncondRegThumb else none
  | .it .. | .b16 _ | .other .. | .unhandled _ => none

def pass1ThumbStep (code : ThumbCode) (readAddress : Word) : Turn Word BranchType :=
  let inst := code readAddress
  match thumbBbType inst with
  | some bbType => .stops bbType
  | none =>
      let readAddress := match inst with
        | .b16 imm11 => readAddress + 4 - 2 + b16Offset imm11
        | _ => readAddress
      .goes (readAddress + inst.size)

def pass1Thumb (code : ThumbCode) (readAddress : Word) (fuel : Nat) : Option BranchType :=
  run (pass1ThumbStep code) fuel readAddress

/-- The variables of scan_t32 that decide what it does next. The rest, as the addresses it
writes to, is in emitted, and popped tells that the instruction before was a POP. -/
structure ThumbState (ε : Type*) where
  readAddress : Word
  inlineBackCount : Nat
  condInstAfterIt : Nat
  popped : Bool
  emitted : ε

/-- The variables after the cases of one instruction. -/
structure ThumbAfter where
  readAddress : Word
  inlineBackCount : Nat
  condInstAfterIt : Nat
  itCondHandled : Bool
  popped : Bool
  exitBranchType : Option BranchType
  stop : Bool

def itGetNoOfInst (mask : BitVec 4) : Nat :=
  if mask.getLsbD 0 then 4 else if mask.getLsbD 1 then 3 else if mask.getLsbD 2 then 2 else 1

/-- Whether the instruction was handled; none for the assertion. -/
def linkBxAlt (condInstAfterIt : Nat) : Option Bool :=
  if condInstAfterIt = 0 then some false
  else if condInstAfterIt = 1 then some true
  else none

variable {ε : Type*}

/-- The cases of scan_t32 for a basic block; none for assertions and loops without end. -/
def thumbSwitch (startScan : Word) (s : ThumbState ε) (inst : ThumbInst) : Option ThumbAfter :=
  let next : ThumbAfter :=
    { readAddress := s.readAddress
      inlineBackCount := s.inlineBackCount
      condInstAfterIt := s.condInstAfterIt
      itCondHandled := false
      popped := false
      exitBranchType := none
      stop := false }
  let leave (type : BranchType) : ThumbAfter := { next with exitBranchType := some type, stop := true }
  match inst with
  | .specialDataProc op dn rm rdn =>
      if specialRdn dn rdn ≠ pc ∧ rm ≠ pc then some { next with itCondHandled := true }
      else if specialRdn dn rdn = pc then
        if rm ≠ pc ∧ rm ≠ sp ∧ op = .movh then some (leave .uncondRegThumb) else none
      else if op = .cmph then none
      else some next
  | .bx link rm =>
      if rm = sp ∨ rm = pc ∧ link = true then none
      else if s.condInstAfterIt = 1 then
        if s.popped then none
        else some { leave .uncondRegThumb with itCondHandled := true, condInstAfterIt := 0 }
      else if s.condInstAfterIt > 1 then none
      else some (leave .uncondRegThumb)
  | .cbz .. => some (leave .cbzThumb)
  | .pop reglist =>
      if reglist.getLsbD 8 = false then some { next with popped := true }
      else (linkBxAlt s.condInstAfterIt).map fun handled =>
        { leave .uncondRegThumb with itCondHandled := handled }
  | .it _ mask => some { next with condInstAfterIt := itGetNoOfInst mask + 1, itCondHandled := true }
  | .bCond16 _ | .bCond32 _ => some (leave .condImmThumb)
  | .b16 imm11 =>
      let target := s.readAddress + 4 + 1 + b16Offset imm11
      let back := target - 1 ≤ s.readAddress
      if back ∧ s.inlineBackCount ≥ maxBackInline then some (leave .traceInlineMax)
      else
        let inlineBackCount := if back then s.inlineBackCount + 1 else s.inlineBackCount
        if target ≥ 0x8000 then
          some { next with inlineBackCount := inlineBackCount, readAddress := target - 1 - 2 }
        else some { leave .uncondImmThumb with inlineBackCount := inlineBackCount }
  | .ldri32 form unprivileged rt rn imm8 preIndex upwards writeback =>
      if rn = pc then none
      else if rt ≠ pc then some { next with itCondHandled := true }
      else if form = .word ∧ unprivileged = false ∧ rn = sp ∧ writeback ∧ upwards ∧ preIndex = false ∧
          imm8 &&& 3 = 0 ∧ imm8 ≥ 4 then some (leave .uncondRegThumb)
      else none
  | .ldr32 form rn rt rm =>
      if rn = pc ∨ rm = pc then none
      else if rt ≠ pc then some { next with itCondHandled := true }
      else if form = .word ∧ rn ≠ sp ∧ rm ≠ sp then some (leave .uncondRegThumb)
      else none
  | .branch32 form => (linkBxAlt s.condInstAfterIt).map fun handled =>
      { leave (if form = .blArm then .uncondBlxiThumb else .uncondImmThumb) with itCondHandled := handled }
  | .tb _ rn rm =>
      if rm = pc ∨ rn = sp ∨ rm = sp ∨ rn ≠ pc then none else some (leave .tbIndirect)
  | .ldm32 full writeback rn reglist =>
      if rn = pc ∨ writeback ∧ reglist.getLsbD rn.toNat then none
      else if reglist.getLsbD 15 then
        (linkBxAlt s.condInstAfterIt).bind fun handled =>
          if writeback ∧ (rn = sp → full) then some { leave .uncondRegThumb with itCondHandled := handled }
          else none
      else some { next with itCondHandled := true, popped := full && writeback && rn == sp }
  | .other _ handled accepted => if accepted then some { next with itCondHandled := handled } else none
  | .unhandled _ =>
      if s.readAddress ≠ startScan then some { next with itCondHandled := true, stop := true } else none

/-- One round of the loop. What it emits for an instruction is left to emit, none where the
emission ends in an error; the result is the exit type, if one was recorded. -/
def scanT32Step (emit : ε → Word → ThumbInst → Option ε) (code : ThumbCode) (startScan : Word)
    (s : ThumbState ε) : Turn (ThumbState ε) (Option BranchType) :=
  let inst := code s.readAddress
  match thumbSwitch startScan s inst, emit s.emitted s.readAddress inst with
  | some after, some emitted =>
      if after.condInstAfterIt > 0 ∧ after.itCondHandled = false then .hangs
      else if after.stop then .stops after.exitBranchType
      else .goes
        { readAddress := after.readAddress + inst.size
          inlineBackCount := after.inlineBackCount
          condInstAfterIt := after.condInstAfterIt - 1
          popped := after.popped
          emitted := emitted }
  | _, _ => .hangs

def thumbStart (readAddress : Word) (emitted : ε) : ThumbState ε := ⟨readAddress, 0, 0, false, emitted⟩

/-- The loop of scan_t32, after its call of pass1_thumb. -/
def scanT32 (emit : ε → Word → ThumbInst → Option ε) (code : ThumbCode) (readAddress : Word) (emitted : ε)
    (fuel : Nat) : Option (Option BranchType) :=
  run (scanT32Step emit code readAddress) fuel (thumbStart readAddress emitted)

end Thumb

section Arm

inductive DataProcOp
  | adc
  | add
  | eor
  | mov
  | orr
  | sbc
  | sub
  | rsc
  deriving DecidableEq

/-- What the decoder and the field decoders tell of an instruction of the guest. The
scanner copies or rewrites what is other without leaving the block, and accepts it unless
it asserts that some field is not pc or knows no case for it. -/
inductive ArmInst
  | dataProc (op : DataProcOp) (cond : BitVec 4) (immediate setFlags : Bool) (rd rn : Reg) (operand2 : BitVec 12)
  | b (cond : BitVec 4) (link : Bool) (offset : BitVec 24)
  | bx (cond : BitVec 4) (link : Bool) (rn : Reg)
  | blxi (h : BitVec 1) (offset : BitVec 24)
  | ldm (cond : BitVec 4) (rn : Reg) (registers : BitVec 16) (prepostindex updown writeback psr : Bool)
  | ldr (cond : BitVec 4) (byte registerOffset : Bool) (rd rn : Reg) (offset : BitVec 12)
      (prepostindex updown writeback : Bool)
  | udf
  | other (accepted : Bool)
  deriving DecidableEq

abbrev ArmCode := Word → ArmInst

def ArmInst.conditionCode : ArmInst → BitVec 4
  | .dataProc _ cond .. | .b cond .. | .bx cond .. | .ldm cond .. | .ldr cond .. => cond
  | .blxi .. => 15
  | .udf | .other _ => al

def armOffset (offset : BitVec 24) : Word :=
  (if offset &&& 0x800000 ≠ 0 then 0xFC000000 else 0) ||| offset.setWidth 32 <<< 2

/-- Where a walk through the code is, and how many branches backwards it has followed. -/
structure Place where
  readAddr : Word
  inlinedBackCount : Nat
  deriving DecidableEq

/-- None for a branch that is not inlined. -/
def inlineUncondImm (target : Word) (p : Place) : Option Place :=
  if target ≤ p.readAddr then
    if p.inlinedBackCount ≥ maxBackInline then none else some ⟨target - 4, p.inlinedBackCount + 1⟩
  else some ⟨target - 4, p.inlinedBackCount⟩

def regType (conditionCode : BitVec 4) : BranchType := if conditionCode = al then .uncondRegArm else .condRegArm

def pass1ArmStep (code : ArmCode) (p : Place) : Turn Place BranchType :=
  let inst := code p.readAddr
  let next (p : Place) : Turn Place BranchType := .goes { p with readAddr := p.readAddr + 4 }
  match inst with
  | .b cond _ offset =>
      if cond = al then
        match inlineUncondImm (p.readAddr + 8 + armOffset offset) p with
        | some p => next p
        | none => .stops .uncondImmArm
      else .stops .condImmArm
  | .bx .. => .stops (regType inst.conditionCode)
  | .blxi .. => .stops (if inst.conditionCode = al then .uncondBlxiArm else .condBlxiArm)
  | .ldm _ _ registers .. => if registers.getLsbD 15 then .stops (regType inst.conditionCode) else next p
  | .ldr _ byte _ rd .. => if byte = false ∧ rd = pc then .stops (regType inst.conditionCode) else next p
  | .dataProc _ _ _ _ rd .. => if rd = pc then .stops (regType inst.conditionCode) else next p
  | .udf | .other _ => next p

def pass1Arm (code : ArmCode) (readAddress : Word) (fuel : Nat) : Option BranchType :=
  run (pass1ArmStep code) fuel ⟨readAddress, 0⟩

structure ArmAfter where
  place : Place
  exitBranchType : Option BranchType
  stop : Bool

/-- The cases of scan_a32 for a basic block; none for assertions and loops without end. -/
def armSwitch (startScan : Word) (p : Place) (inst : ArmInst) : Option ArmAfter :=
  let next : ArmAfter := ⟨p, none, false⟩
  let leave (type : BranchType) : ArmAfter := ⟨p, some type, true⟩
  match inst with
  | .dataProc _ _ immediate setFlags rd rn operand2 =>
      let rm : Reg := operand2.setWidth 4
      if rd ≠ pc ∧ rn ≠ pc ∧ (immediate = true ∨ rm ≠ pc) then some next
      else if rd = pc then
        if rn ≠ sp ∧ (immediate = true ∨ rm ≠ sp) ∧ setFlags = false ∧
            (rn ≠ pc ∨ immediate = true ∨ rm ≠ pc) then some (leave .uncondRegArm)
        else none
      else if rn = pc ∧ immediate = false ∧ rm = pc then none
      else some next
  | .b cond _ offset =>
      if cond = al then
        match inlineUncondImm (p.readAddr + 8 + armOffset offset) p with
        | some p => some { next with place := p }
        | none => some (leave .traceInlineMax)
      else some (leave .condImmArm)
  | .bx _ _ rn => if rn ≠ pc ∧ rn ≠ sp then some (leave .uncondRegArm) else none
  | .blxi .. => some (leave .uncondBlxiArm)
  | .ldm _ rn registers prepostindex updown writeback psr =>
      if rn = pc then none
      else if registers.getLsbD 15 = false then some next
      else if registers.getLsbD rn.toNat then
        if rn = sp ∧ writeback = false ∧ prepostindex = false ∧ registers.getLsbD lr.toNat = false then
          some (leave .uncondRegArm)
        else none
      else if writeback ∧ rn = sp ∧ prepostindex = false ∧ updown ∧ psr = false then some (leave .uncondRegArm)
      else none
  | .ldr _ byte registerOffset rd rn offset prepostindex updown writeback =>
      let rm : Reg := offset.setWidth 4
      if registerOffset ∧ rm = pc then none
      else if rd = pc then
        if byte then none
        else if rn = sp ∧ (writeback ∨ prepostindex = false) then
          if registerOffset = false ∧ prepostindex = false ∧ updown ∧ writeback = false ∧ offset &&& 3 = 0 ∧
              offset ≥ 4 then some (leave .uncondRegArm)
          else none
        else if (writeback = false ∧ prepostindex ∨ rn ≠ 4 ∧ rn ≠ 5 ∧ rn ≠ 6 ∧ rn ≠ sp) ∧
            (rn = sp → registerOffset = false ∧ updown) then some (leave .uncondRegArm)
        else none
      else some next
  | .udf => if startScan = p.readAddr then some next else some (leave .uncondImmArm)
  | .other accepted => if accepted then some next else none

variable {ε : Type*}

def scanA32Step (emit : ε → Word → ArmInst → Option ε) (code : ArmCode) (startScan : Word) (s : Place × ε) :
    Turn (Place × ε) (Option BranchType) :=
  let inst := code s.1.readAddr
  match armSwitch startScan s.1 inst, emit s.2 s.1.readAddr inst with
  | some after, some emitted =>
      if after.stop then .stops after.exitBranchType
      else .goes ({ after.place with readAddr := after.place.readAddr + 4 }, emitted)
  | _, _ => .hangs

/-- The loop of scan_a32, after its call of pass1_arm. -/
def scanA32 (emit : ε → Word → ArmInst → Option ε) (code : ArmCode) (readAddress : Word) (emitted : ε)
    (fuel : Nat) : Option (Option BranchType) :=
  run (scanA32Step emit code readAddress) fuel (⟨readAddress, 0⟩, emitted)

end Arm

end Mambo.AArch32Scan
