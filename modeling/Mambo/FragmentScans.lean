import Mambo.HashRefines
import Mambo.TraceState

namespace Mambo.FragmentScans

open CodeCacheHash HashRefines
open TraceState (codeCacheSize codeCacheOverp blockBytes maxBranchRange traceFragmentNo)

inductive Arch
  | aarch32
  | aarch64
  | riscv64
  deriving DecidableEq, Repr

inductive BranchType
  | unknown
  | stub
  | traceInlineMax
  | uncondBToBlThumb
  | uncondImmThumb
  | uncondRegThumb
  | condImmThumb
  | condRegThumb
  | cbzThumb
  | uncondBlxiThumb
  | condBlxiThumb
  | condImmArm
  | uncondImmArm
  | condRegArm
  | uncondRegArm
  | uncondBlxiArm
  | condBlxiArm
  | tbb
  | tbh
  | tbIndirect
  | uncondImmA64
  | uncondBranchReg
  | condImmA64
  | cbzA64
  | tbzA64
  | traceExit
  | jalRiscv
  | jalrRiscv
  | branchRiscv
  | atomicMemoryRiscv
  deriving DecidableEq, Repr

structure CodeCacheMeta (w : Nat) where
  sourceAddr : BitVec w
  tpc : BitVec w
  exitBranchType : BranchType
  actualId : Nat

/-- The part of dbm_thread that the allocators use. The ids that were returned since the last flush and the number of
flushes are not part of the program. -/
structure Thread (w : Nat) where
  freeBlock : Nat
  codeCacheMeta : Nat → CodeCacheMeta w
  entryAddress : HashTable w
  traceId : Nat
  activeTraceId : Nat
  allocated : List Nat
  flushes : Nat

/-- The failed assertion of allocate_bb_overflow has a name of its own. -/
inductive Stop
  | overflow
  | assertion
  | fault (f : Fault)
  | endless
  deriving DecidableEq, Repr

/-- Where the code cache is, and how many of its blocks the trampolines take. -/
structure Cache (w : Nat) where
  arch : Arch
  codeCache : BitVec w
  trampolinesSizeBbs : Nat
  htShift : Nat
  aligned : codeCache.toNat % blockBytes = 0
  room : codeCache.toNat + maxBranchRange < 2 ^ w
  trampolines : trampolinesSizeBbs < codeCacheSize - codeCacheOverp

variable {w : Nat}

def hashResult {α : Type} : Except Fault α → Except Stop α
  | .ok a => .ok a
  | .error f => .error (.fault f)

def Thread.setMeta (t : Thread w) (id : Nat) (f : CodeCacheMeta w → CodeCacheMeta w) : Thread w :=
  { t with codeCacheMeta := Function.update t.codeCacheMeta id (f (t.codeCacheMeta id)) }

def Thread.setTable (t : Thread w) (table : HashTable w) : Thread w := { t with entryAddress := table }

def Thread.take (t : Thread w) : Thread w :=
  { t with freeBlock := t.freeBlock + 1, allocated := t.freeBlock :: t.allocated }

section Allocation

variable (c : Cache w) (t : Thread w)

def Cache.block (id : Nat) : BitVec w := c.codeCache + BitVec.ofNat w (id * blockBytes)

def Cache.traces : BitVec w := c.block codeCacheSize

def Cache.thumb (addr : BitVec w) : BitVec w := if c.arch = .aarch32 then addr &&& 1 else 0

def adjustCcEntry (addr : BitVec w) : BitVec w :=
  if c.arch = .aarch32 ∧ addr ≠ uintMax then addr + ((4 : BitVec w) - ((addr &&& 1) <<< 1)) else addr

def isTrace (addr : BitVec w) : Bool :=
  c.traces ≤ addr ∧ addr < c.traces + BitVec.ofNat w (maxBranchRange - codeCacheSize * blockBytes)

/-- None for -1. -/
def addrToBbId (addr : BitVec w) : Option Nat :=
  if addr < c.codeCache ∨ addr > c.traces then none else some ((addr - c.codeCache).toNat / blockBytes)

def resetMeta (m : CodeCacheMeta w) : CodeCacheMeta w := { m with exitBranchType := .unknown, actualId := 0 }

def flushCodeCache : Except Stop (Thread w) := do
  let table ← hashResult (hashInit t.entryAddress slots)
  .ok
    { freeBlock := c.trampolinesSizeBbs
      codeCacheMeta := fun i => if i < codeCacheSize then resetMeta (t.codeCacheMeta i) else t.codeCacheMeta i
      entryAddress := table
      traceId := codeCacheSize
      activeTraceId := codeCacheSize
      allocated := []
      flushes := t.flushes + 1 }

def allocateBb : Except Stop (Thread w × Nat) := do
  let t ← if t.freeBlock ≥ codeCacheSize - codeCacheOverp then flushCodeCache c t else .ok t
  .ok (t.take, t.freeBlock)

def allocateBbOverflow : Except Stop (Thread w × Nat) :=
  if t.freeBlock < codeCacheSize then .ok (t.take, t.freeBlock) else .error .overflow

def allocateTraceFragment : Except Stop (Thread w × Nat) :=
  if t.activeTraceId < codeCacheSize + traceFragmentNo then
    .ok ({ t with activeTraceId := t.activeTraceId + 1 }, t.activeTraceId)
  else .error .assertion

def ccLookup (target : BitVec w) : Except Stop (BitVec w) := do
  let addr ← hashResult (hashLookup c.htShift t.entryAddress target)
  .ok (adjustCcEntry c addr)

def addEntry (key value : BitVec w) : Except Stop (Thread w) := do
  let (added, table) ← hashResult (hashAdd c.htShift t.entryAddress key value)
  if added then .ok (t.setTable table) else .error .endless

def stubBb (target : BitVec w) : Except Stop (Thread w × BitVec w) := do
  let (t, basicBlock) ← allocateBb c t
  let blockAddress := c.block basicBlock + c.thumb target
  let t ← addEntry c (t.setMeta basicBlock fun m => { m with exitBranchType := .stub }) target blockAddress
  if c.arch = .aarch64 then .error .assertion else .ok (t, adjustCcEntry c blockAddress)

def lookupOrStub (target : BitVec w) : Except Stop (Thread w × BitVec w) := do
  let blockAddress ← ccLookup c t target
  if blockAddress = uintMax then stubBb c t target else .ok (t, blockAddress)

end Allocation

/-- What a scanner does for the rest of a fragment: it writes code, it sets the type of the exit, it goes on in another
block when the code comes to the end of the present one, or it asks for the translation of an address. -/
inductive Scan (w : Nat)
  | done
  | emit (k : Scan w)
  | setExit (type : BranchType) (k : Scan w)
  | overflow (k : Nat → Scan w)
  | lookupOrStub (target : BitVec w) (k : BitVec w → Scan w)

section Scanning

variable (c : Cache w)

def setExit (t : Thread w) (id : Nat) (type : BranchType) : Thread w :=
  t.setMeta id fun m => { m with exitBranchType := type }

def setActualId (t : Thread w) (id curBlock : Nat) : Thread w := t.setMeta id fun m => { m with actualId := curBlock }

def runScan (id : Nat) : Scan w → Thread w → Except Stop (Thread w)
  | .done, t => .ok t
  | .emit k, t => runScan id k t
  | .setExit type k, t => runScan id k (setExit t id type)
  | .overflow k, t => do
    let (t, block) ← allocateBbOverflow t
    runScan id (k block) (setActualId t block id)
  | .lookupOrStub target k, t => do
    let (t, addr) ← lookupOrStub c t target
    runScan id (k addr) t

/-- What scan does before it calls the scanner; the basic block is none for ALLOCATE_BB. -/
def enter (t : Thread w) (address : BitVec w) (basicBlock : Option Nat) : Except Stop (Thread w × Nat) := do
  let (t, id) ← match basicBlock with
    | none => allocateBb c t
    | some id => .ok (t, id)
  let t := t.setMeta id fun m => { m with sourceAddr := address, tpc := c.block id }
  match basicBlock with
  | none => do
    let t ← addEntry c t address (c.block id ||| c.thumb address)
    .ok (t, id)
  | some _ => .ok (t, id)

def scan (t : Thread w) (address : BitVec w) (basicBlock : Option Nat) (p : Nat → Scan w) :
    Except Stop (Thread w × BitVec w) := do
  let (t, id) ← enter c t address basicBlock
  let t ← runScan c id (p id) t
  .ok (t, adjustCcEntry c (c.block id ||| c.thumb address))

def lookupBb (t : Thread w) (target : BitVec w) : Except Stop (BitVec w × Option Nat) := do
  let blockAddress ← ccLookup c t target
  if blockAddress ≠ uintMax ∧ isTrace c blockAddress = false then
    match addrToBbId c blockAddress with
    | none => .error (.fault .bounds)
    | some basicBlock =>
      if (t.codeCacheMeta basicBlock).exitBranchType = .stub then .ok (uintMax, some basicBlock)
      else .ok (blockAddress, some basicBlock)
  else .ok (blockAddress, none)

def lookupOrScan (t : Thread w) (target : BitVec w) (p : Nat → Scan w) : Except Stop (Thread w × BitVec w) := do
  let (blockAddress, basicBlock) ← lookupBb c t target
  if blockAddress ≠ uintMax then .ok (t, blockAddress) else scan c t target basicBlock p

def enterTrace (t : Thread w) (address writeP : BitVec w) : Except Stop (Thread w × Nat) := do
  let (t, traceId) ← allocateTraceFragment t
  .ok (t.setMeta traceId fun m => { m with sourceAddr := address, tpc := writeP }, traceId)

def scanTrace (t : Thread w) (address writeP : BitVec w) (p : Nat → Scan w) : Except Stop (Thread w) := do
  let (t, traceId) ← enterTrace t address writeP
  runScan c traceId (p traceId) t

/-- The part of create_trace and of install_trace that the allocators depend on. -/
def createTrace (t : Thread w) : Thread w := { t with activeTraceId := t.traceId }

def installTrace (t : Thread w) (spc tpc : BitVec w) : Except Stop (Thread w) := do
  let t ← addEntry c t spc tpc
  .ok { t with traceId := t.activeTraceId }

end Scanning

section Scanners

/-- LINK_BX_ALT of an A32 instruction that may write the PC, and the way it goes on. -/
def linkBxAlt (readAddress : BitVec w) (conditional : Bool) (k : Scan w) : Scan w :=
  if conditional then .lookupOrStub (readAddress + 4) fun _ => .emit k else k

def scanBxArm (readAddress : BitVec w) (conditional : Bool) : Scan w :=
  .emit (linkBxAlt readAddress conditional (.setExit .uncondRegArm (.emit .done)))

end Scanners

section Runs

/-- What a thread does with its code cache: the entries of the dispatcher, the first scan of a thread, the fragments
of traces, and the flushes outside of scans. -/
inductive Op (w : Nat)
  | lookupOrScan (target : BitVec w) (p : Nat → Scan w)
  | scan (address : BitVec w) (p : Nat → Scan w)
  | createTrace
  | scanTrace (address writeP : BitVec w) (p : Nat → Scan w)
  | installTrace (spc tpc : BitVec w)
  | flush

def Op.program : Op w → Nat → Scan w
  | .lookupOrScan _ p | .scan _ p | .scanTrace _ _ p => p
  | _ => fun _ => .done

def Op.address : Op w → Option (BitVec w)
  | .lookupOrScan address _ | .scan address _ => some address
  | _ => none

variable (c : Cache w)

def step (t : Thread w) : Op w → Except Stop (Thread w)
  | .lookupOrScan target p => do
    let (t, _) ← lookupOrScan c t target p
    .ok t
  | .scan address p => do
    let (t, _) ← scan c t address none p
    .ok t
  | .createTrace => .ok (createTrace t)
  | .scanTrace address writeP p => scanTrace c t address writeP p
  | .installTrace spc tpc => installTrace c t spc tpc
  | .flush => flushCodeCache c t

/-- The state in which the scanner is called, its fragment, and whether the first block is fresh from allocate_bb. -/
def entered (t : Thread w) : Op w → Except Stop (Option (Thread w × Nat × Bool))
  | .lookupOrScan target _ => do
    let (blockAddress, basicBlock) ← lookupBb c t target
    if blockAddress ≠ uintMax then .ok none
    else do
      let (t, id) ← enter c t target basicBlock
      .ok (some (t, id, basicBlock.isNone))
  | .scan address _ => do
    let (t, id) ← enter c t address none
    .ok (some (t, id, true))
  | .scanTrace address writeP _ => do
    let (t, id) ← enterTrace t address writeP
    .ok (some (t, id, false))
  | _ => .ok none

def Throughout (id : Nat) (P : Thread w → Scan w → Prop) : Scan w → Thread w → Prop
  | .done, t => P t .done
  | .emit k, t => P t (.emit k) ∧ Throughout id P k t
  | .setExit type k, t => P t (.setExit type k) ∧ Throughout id P k (setExit t id type)
  | .overflow k, t => P t (.overflow k) ∧
      ∀ r, allocateBbOverflow t = .ok r → Throughout id P (k r.2) (setActualId r.1 r.2 id)
  | .lookupOrStub target k, t => P t (.lookupOrStub target k) ∧
      ∀ r, lookupOrStub c t target = .ok r → Throughout id P (k r.2) r.1

def lastExit (id : Nat) : Scan w → Thread w → BranchType → BranchType
  | .done, _, type => type
  | .emit k, t, type => lastExit id k t type
  | .setExit type k, t, _ => lastExit id k (setExit t id type) type
  | .overflow k, t, type =>
    match allocateBbOverflow t with
    | .ok r => lastExit id (k r.2) (setActualId r.1 r.2 id) type
    | .error _ => type
  | .lookupOrStub target k, t, type =>
    match lookupOrStub c t target with
    | .ok r => lastExit id (k r.2) r.1 type
    | .error _ => type

def Distinct (t : Thread w) : Prop := t.allocated.Nodup ∧ ∀ i ∈ t.allocated, i < codeCacheSize

/-- No flush comes between the start of a scan and any later point of it, and the reserve is large enough. -/
structure Whole (t₁ : Thread w) (id : Nat) (p : Scan w) : Prop where
  unsplit : Throughout c id (fun t _ => t.flushes = t₁.flushes) p t₁
  asserts : Throughout c id (fun t q => (∃ k, q = .overflow k) → t.freeBlock < codeCacheSize) p t₁
  distinct : Throughout c id (fun t _ => Distinct t) p t₁

/-- The table leads to the block, and its metadata is that of the address. -/
structure Described (t₁ : Thread w) (id : Nat) (p : Scan w) (address : BitVec w) (t : Thread w) : Prop where
  found : hashLookup c.htShift t.entryAddress address = .ok (c.block id ||| c.thumb address)
  source : (t.codeCacheMeta id).sourceAddr = address
  tpc : (t.codeCacheMeta id).tpc = c.block id
  exit : (t.codeCacheMeta id).exitBranchType = lastExit c id p t₁ (t₁.codeCacheMeta id).exitBranchType

structure StepOk (t : Thread w) (op : Op w) : Prop where
  whole : ∀ t₁ id reserved, entered c t op = .ok (some (t₁, id, reserved)) → Whole c t₁ id (op.program id)
  described : ∀ t₁ id reserved, entered c t op = .ok (some (t₁, id, reserved)) → ∀ address, op.address = some address →
    ∀ t', runScan c id (op.program id) t₁ = .ok t' → Described c t₁ id (op.program id) address t'
  distinct : ∀ t', step c t op = .ok t' → Distinct t'

def RunOk : Thread w → List (Op w) → Prop
  | _, [] => True
  | t, op :: ops => StepOk c t op ∧ ∀ t', step c t op = .ok t' → RunOk t' ops

/-- A stub that is not there is only asked for in front of the reserve; and a fragment that took no block of its own,
because it is a stub's or a trace's, only overflows while there is a block. -/
def Roomy (reserved : Bool) (t : Thread w) : Scan w → Prop
  | .overflow _ => reserved = false → t.freeBlock < codeCacheSize
  | .lookupOrStub target _ => ccLookup c t target = .ok uintMax → t.freeBlock < codeCacheSize - codeCacheOverp
  | _ => True

def Fits (t : Thread w) (op : Op w) : Prop :=
  ∀ t₁ id reserved, entered c t op = .ok (some (t₁, id, reserved)) →
    Throughout c id (Roomy c reserved) (op.program id) t₁

def RunFits : Thread w → List (Op w) → Prop
  | _, [] => True
  | t, op :: ops => Fits c t op ∧ ∀ t', step c t op = .ok t' → RunFits t' ops

def Spans : Nat → Scan w → Prop
  | _, .done => True
  | n, .emit k | n, .setExit _ k => Spans n k
  | n, .lookupOrStub _ k => ∀ addr, Spans n (k addr)
  | 0, .overflow _ => False
  | n + 1, .overflow k => ∀ id, Spans n (k id)

def StubFree : Scan w → Prop
  | .done => True
  | .emit k | .setExit _ k => StubFree k
  | .overflow k => ∀ id, StubFree (k id)
  | .lookupOrStub _ _ => False

/-- No fragment spans more than the reserve, only the scanners of AArch32 ask for stubs, there is no code at address
zero, and a trace is in the trace cache. -/
structure Op.Valid (op : Op w) : Prop where
  spans : ∀ id, Spans (codeCacheOverp - 1) (op.program id)
  stubs : c.arch ≠ .aarch32 → ∀ id, StubFree (op.program id)
  mapped : ∀ address, op.address = some address → address ≠ 0
  traces : ∀ spc tpc, op = .installTrace spc tpc → isTrace c tpc = true

/-- A thread after init_thread. -/
structure Initial (t : Thread w) : Prop where
  freeBlock : t.freeBlock = c.trampolinesSizeBbs
  table : ∃ raw : HashTable w, hashInit raw slots = .ok t.entryAddress
  traceId : t.traceId = codeCacheSize
  activeTraceId : t.activeTraceId = codeCacheSize
  allocated : t.allocated = []

end Runs

end Mambo.FragmentScans
