import Mambo.A64Exits
import Mambo.A64HashLookup
import Mambo.TraceState

namespace Mambo.A64Scan

open A64 A64Emit A64HashLookup
open A64Exits (invertCond branchJump branchJumpCond branchImmReg)
open TraceState (BranchType CcType CodeCacheMeta codeCacheSize blockBytes maxBranchRange)

section Instructions

/-- What the decoder and the field decoders tell of an instruction of the guest.
Those that are copied are other, and unhandled is for those that no case of the
scanner lists. -/
inductive Guest
  | cbzCbnz (sf op : BitVec 1) (imm19 : BitVec 19) (rt : Reg)
  | bCond (imm19 : BitVec 19) (cond : BitVec 4)
  | svc
  | mrsMsrReg (r o0 : BitVec 1) (op1 : BitVec 3) (crn crm : BitVec 4) (op2 : BitVec 3) (rt : Reg)
  | tbzTbnz (b5 op : BitVec 1) (b40 : BitVec 5) (imm14 : BitVec 14) (rt : Reg)
  | bBl (op : BitVec 1) (imm26 : BitVec 26)
  | indirect (inst : IndirectBranch) (rn : Reg)
  | ldrLit (opc : BitVec 2) (v : BitVec 1) (imm19 : BitVec 19) (rt : Reg)
  | adr (op : BitVec 1) (immlo : BitVec 2) (immhi : BitVec 19) (rd : Reg)
  | other
  | invalid
  | unhandled
  deriving DecidableEq

/-- What the scanner writes: instructions of its own, and copies of an instruction
of the guest. The type of ldrStrImmed is 0, without a write back. -/
inductive Out
  | inst (i : Inst)
  | bl (imm26 : BitVec 26)
  | ldrStrImmed (size : BitVec 2) (v : BitVec 1) (opc : BitVec 2) (imm9 : BitVec 9) (rn rt : Reg)
  | ldrStrUnsignedImmed (size : BitVec 2) (v : BitVec 1) (opc : BitVec 2) (imm12 : BitVec 12) (rn rt : Reg)
  | copy (readAddress : Word)
  deriving DecidableEq

end Instructions

structure Addresses where
  codeCache : Nat
  dispatcherAddr : Word
  syscallWrapperAddr : Word
  traceHeadIncrAddr : Word
  tls : Word
  entries : Word

section Emitters

variable (mambo : Addresses)

def popPairReg (rt rt2 : Reg) : Inst := .ldpPost 2 rt2 xzr rt

def blHelper (writeP target : Word) : Option Out :=
  (branchHelper writeP target).bind fun
    | .b imm26 => some (.bl imm26)
    | _ => none

def insts (code : List Inst) : List Out := code.map .inst

/-- The call at the start of a block that may become the head of a trace. -/
def traceHeadCall (writeP basicBlock : Word) : Option (List Out) := do
  let head := pushPairReg 1 30 :: copyToReg64bits 1 basicBlock
  let call ← blHelper (cell writeP head.length) mambo.traceHeadIncrAddr
  return insts head ++ [call, .inst (popPairReg 1 30)]

def svcCode (readAddress writeP : Word) : Option (List Out) := do
  let head := pushPairReg 29 30 :: copyToReg64bits 29 (readAddress + 4)
  let call ← blHelper (cell writeP head.length) mambo.syscallWrapperAddr
  return insts head ++ [call, .inst (popPairReg 0 1)]

def isTpidrEl0 (o0 : BitVec 1) (op1 : BitVec 3) (crn crm : BitVec 4) (op2 : BitVec 3) : Bool :=
  o0 = 1 ∧ op1 = 3 ∧ crn = 13 ∧ crm = 0 ∧ op2 = 2

def spilledReg (rt : Reg) : Reg := if rt = 0 then 1 else 0

/-- The thread pointer of the guest is in the record of the thread. -/
def tlsCode (r : BitVec 1) (rt : Reg) : List Out :=
  insts (pushReg (spilledReg rt) :: copyToReg64bits (spilledReg rt) mambo.tls) ++
    [.ldrStrImmed 3 0 (if r = 0 then 0 else 1) 0 (spilledReg rt) rt, .inst (popReg (spilledReg rt))]

def linkCode (op : BitVec 1) (readAddress : Word) : List Inst :=
  if op = 1 then copyToReg64bits lr (readAddress + 4) else []

def branchTarget (imm26 : BitVec 26) (readAddress : Word) : Word := readAddress + offset imm26

/-- The first word after the link register is set is for a later link. -/
def bBlCode (op : BitVec 1) (imm26 : BitVec 26) (readAddress writeP basicBlock : Word) : Option (List Out) := do
  let head := linkCode op readAddress ++ [.nop, pushPairReg 0 1]
  let jump ← branchJump mambo.dispatcherAddr (cell writeP head.length) basicBlock (branchTarget imm26 readAddress) true true
  return insts (head ++ jump)

/-- The size and the operation of the load, or none for the loop on the encoding
that is not allocated. -/
def ldrLitFields (opc : BitVec 2) (v : BitVec 1) : Option (BitVec 2 × BitVec 2) :=
  if v = 0 then
    match opc with
    | 0 => some (2, 1)
    | 1 => some (3, 1)
    | 2 => some (2, 2)
    | _ => some (3, 2)
  else
    match opc with
    | 0 => some (2, 1)
    | 1 => some (3, 1)
    | 2 => some (0, 3)
    | _ => none

/-- The integer loads use their target register for the address, and the others
push x0. -/
def ldrLitCode (opc : BitVec 2) (v : BitVec 1) (imm19 : BitVec 19) (rt : Reg) (readAddress : Word) : Option (List Out) :=
  let address := readAddress + offset imm19
  (ldrLitFields opc v).map fun (size, op) =>
    if v = 0 ∧ opc ≠ 3 then insts (copyToReg64bits rt address) ++ [.ldrStrUnsignedImmed size v op 0 rt rt]
    else insts (pushReg 0 :: copyToReg64bits 0 address) ++ [.ldrStrUnsignedImmed size v op 0 0 rt, .inst (popReg 0)]

def adrValue (op : BitVec 1) (immlo : BitVec 2) (immhi : BitVec 19) (readAddress : Word) : Word :=
  let imm : Word := (immhi ++ immlo).signExtend 64
  if op = 0 then readAddress + imm else (readAddress &&& ~~~(0xFFF : Word)) + imm <<< 12

/-- The branch to the dispatcher for an unknown word that is not the first one. -/
def deferredCode (readAddress writeP basicBlock : Word) : Option (List Out) := do
  let jump ← branchJump mambo.dispatcherAddr (cell writeP 1) basicBlock readAddress true true
  return insts (pushPairReg 0 1 :: jump)

end Emitters

section Scanner

/-- How a scan ends. It is full if a further block is wanted and there is none. -/
inductive Ending
  | exit
  | assertion
  | full
  | overrun
  | endless
  deriving DecidableEq, Repr

/-- A scan in progress. The log, latest first, holds the address of each word that
was written and the end of the block at that time; it is not part of the program. -/
structure Scan where
  readAddress : Nat
  writeP : Nat
  dataP : Nat
  freeBlock : Nat
  bbMeta : CodeCacheMeta
  code : Word → Option Out
  log : List (Nat × Nat)
  ending : Option Ending

namespace Scan

variable (st : Scan)

def write (o : Out) : Scan :=
  { st with
    writeP := st.writeP + 4
    code := Function.update st.code (BitVec.ofNat 64 st.writeP) (some o)
    log := (st.writeP, st.dataP) :: st.log }

def writeAll (code : List Out) : Scan := code.foldl write st

def fail (e : Ending) : Scan := { st with ending := some e }

def setMeta (f : CodeCacheMeta → CodeCacheMeta) : Scan := { st with bbMeta := f st.bbMeta }

end Scan

variable (mambo : Addresses) (program : Nat → Guest) (basicBlock : Nat)

def blockAddr (id : Nat) : Nat := mambo.codeCache + id * blockBytes

def checkFreeSpace (size : Nat) (st : Scan) : Scan :=
  if st.writeP + size ≥ st.dataP then
    if basicBlock ≥ codeCacheSize ∨ st.freeBlock ≥ codeCacheSize then st.fail .full
    else
      let block := blockAddr mambo st.freeBlock
      let grown := { st with freeBlock := st.freeBlock + 1 }
      if block ≠ st.dataP then
        match branchHelper (BitVec.ofNat 64 st.writeP) (BitVec.ofNat 64 block) with
        | none => st.fail .assertion
        | some jump => { grown.write (.inst jump) with writeP := block, dataP := block + blockBytes }
      else { grown with dataP := block + blockBytes }
  else st

/-- The code for an instruction, none where an assertion fails or a loop does not
end. -/
def instCode (g : Guest) (first : Bool) (readAddress writeP : Word) : Option (List Out) :=
  let id := BitVec.ofNat 64 basicBlock
  match g with
  | .cbzCbnz sf op imm19 rt =>
    (branchImmReg mambo.dispatcherAddr writeP id (readAddress + offset imm19) readAddress fun cbzBranch skipped =>
      cbzCbnzHelper cbzBranch (op ^^^ 1 ≠ 0) skipped sf rt).map insts
  | .bCond imm19 cond =>
    (branchJumpCond mambo.dispatcherAddr writeP id (readAddress + offset imm19) readAddress (cond.setWidth 64)).map insts
  | .svc => svcCode mambo readAddress writeP
  | .mrsMsrReg r o0 op1 crn crm op2 rt =>
    if isTpidrEl0 o0 op1 crn crm op2 then some (tlsCode mambo r rt) else some [.copy readAddress]
  | .tbzTbnz b5 op b40 imm14 rt =>
    (branchImmReg mambo.dispatcherAddr writeP id (readAddress + offset imm14) readAddress fun cbzBranch skipped =>
      tbzTbnzHelper cbzBranch (op ^^^ 1 ≠ 0) skipped rt (b5 ++ b40)).map insts
  | .bBl op imm26 => bBlCode mambo op imm26 readAddress writeP id
  | .indirect inst rn =>
    (inlineHashLookup mambo.dispatcherAddr mambo.entries id writeP readAddress rn inst.link).map insts
  | .ldrLit opc v imm19 rt => ldrLitCode opc v imm19 rt readAddress
  | .adr op immlo immhi rd => some (insts (copyToReg64bits rd (adrValue op immlo immhi readAddress)))
  | .other => some [.copy readAddress]
  | .invalid => if first then some [.copy readAddress] else deferredCode mambo readAddress writeP id
  | .unhandled => none

def exitMeta (g : Guest) (readAddress writeP : Word) (m : CodeCacheMeta) : CodeCacheMeta :=
  match g with
  | .cbzCbnz _ op imm19 _ =>
    { m with
      exitBranchType := .cbzA64
      branchCondition := op.toNat
      exitBranchAddr := writeP.toNat
      branchTakenAddr := (readAddress + offset imm19).toNat
      branchSkippedAddr := (readAddress + 4).toNat }
  | .bCond imm19 cond =>
    { m with
      exitBranchType := .condImmA64
      exitBranchAddr := writeP.toNat
      branchTakenAddr := (readAddress + offset imm19).toNat
      branchSkippedAddr := (readAddress + 4).toNat
      branchCondition := cond.toNat
      branchCacheStatus := 0 }
  | .tbzTbnz _ op _ imm14 _ =>
    { m with
      exitBranchType := .tbzA64
      branchCondition := op.toNat
      exitBranchAddr := writeP.toNat
      branchTakenAddr := (readAddress + offset imm14).toNat
      branchSkippedAddr := (readAddress + 4).toNat }
  | .bBl op imm26 =>
    { m with
      exitBranchType := .uncondImmA64
      exitBranchAddr := (cell writeP (linkCode op readAddress).length).toNat
      branchTakenAddr := (branchTarget imm26 readAddress).toNat }
  | .indirect _ _ =>
    { m with
      exitBranchType := .uncondBranchReg
      exitBranchAddr := writeP.toNat }
  | _ => m

def stops (g : Guest) (first : Bool) : Bool :=
  match g with
  | .cbzCbnz .. | .bCond .. | .tbzTbnz .. | .bBl .. | .indirect .. => true
  | .invalid => !first
  | _ => false

def minFspace : Nat := 60

def reserve (g : Guest) (st : Scan) : Scan :=
  match g with
  | .indirect .. => checkFreeSpace mambo basicBlock 88 st
  | _ => st

/-- The code for an instruction and the check after it, for a scan that began at an
address. -/
def scanInst (startScan : Nat) (g : Guest) (st : Scan) : Scan :=
  if st.ending.isSome then st
  else
    let first : Bool := st.readAddress = startScan
    let readAddress := BitVec.ofNat 64 st.readAddress
    let writeP := BitVec.ofNat 64 st.writeP
    match instCode mambo basicBlock g first readAddress writeP with
    | none => st.fail (if g = .unhandled then .endless else .assertion)
    | some code =>
      let st := (st.setMeta (exitMeta g readAddress writeP)).writeAll code
      if st.dataP ≤ st.writeP then st.fail .overrun
      else if stops g first then { st with ending := some .exit, readAddress := st.readAddress + 4 }
      else
        let st := checkFreeSpace mambo basicBlock minFspace st
        { st with readAddress := st.readAddress + 4 }

def scanRound (startScan : Nat) (st : Scan) : Scan :=
  scanInst mambo basicBlock startScan (program st.readAddress) (reserve mambo basicBlock (program st.readAddress) st)

/-- The state of the loop after some rounds, if it has not ended before. -/
def scanLoop (startScan : Nat) : Nat → Scan → Scan
  | 0, st => st
  | n + 1, st => if st.ending.isSome then st else scanLoop startScan n (scanRound mambo program basicBlock startScan st)

theorem scanLoop_ended {startScan n : Nat} {st : Scan} (h : st.ending.isSome) :
    scanLoop mambo program basicBlock startScan n st = st := by
  cases n with
  | zero => rfl
  | succ n => rw [scanLoop, if_pos h]

/-- The exit type that an instruction gives a fragment, none for those that do not
end one. -/
def exitType : Guest → Option BranchType
  | .bBl .. => some .uncondImmA64
  | .cbzCbnz .. => some .cbzA64
  | .bCond .. => some .condImmA64
  | .tbzTbnz .. => some .tbzA64
  | .indirect .. => some .uncondBranchReg
  | _ => none

/-- The exit type of the code from an address on, or unknown if some rounds do not
reach an exit. -/
def pass1 : Nat → Nat → BranchType
  | 0, _ => .unknown
  | n + 1, readAddress =>
    match exitType (program readAddress) with
    | some type => type
    | none => if program readAddress = .invalid then .unknown else pass1 n (readAddress + 4)

def isTraceHead (fuel : Nat) (readAddress : Nat) : Bool :=
  pass1 program fuel readAddress ≠ .uncondBranchReg ∧ pass1 program fuel readAddress ≠ .unknown

def entryCode (fuel : Nat) (type : CcType) (readAddress : Nat) (writeP : Word) : Option (List Out) := do
  let pop := if type ≠ .trace then [Out.inst (popPairReg 0 1)] else []
  if type = .bb ∧ isTraceHead program fuel readAddress then
    let call ← traceHeadCall mambo (cell writeP pop.length) (BitVec.ofNat 64 basicBlock)
    return pop ++ call
  else return pop

def emptyScan (type : CcType) (readAddress writeP freeBlock : Nat) (m : CodeCacheMeta) (code : Word → Option Out) : Scan :=
  let dataP := if type = .bb then writeP + blockBytes else mambo.codeCache + maxBranchRange
  let m := if type = .bb then m else { m with freeB := 0 }
  ⟨readAddress, writeP, dataP, freeBlock, m, code, [], none⟩

/-- The scan of a fragment up to its first instruction. The rounds bound the first
pass. -/
def scanStart (fuel : Nat) (type : CcType) (readAddress writeP freeBlock : Nat) (m : CodeCacheMeta)
    (code : Word → Option Out) : Scan :=
  let st := emptyScan mambo type readAddress writeP freeBlock m code
  match entryCode mambo program basicBlock fuel type readAddress (BitVec.ofNat 64 writeP) with
  | none => st.fail .assertion
  | some entry => st.writeAll entry

def scanA64 (fuel : Nat) (type : CcType) (readAddress writeP freeBlock : Nat) (m : CodeCacheMeta)
    (code : Word → Option Out) (n : Nat) : Scan :=
  scanLoop mambo program basicBlock readAddress n
    (scanStart mambo program basicBlock fuel type readAddress writeP freeBlock m code)

end Scanner

end Mambo.A64Scan
