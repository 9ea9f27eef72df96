import Mathlib.Data.List.Basic
import Mathlib.Logic.Function.Basic

namespace Mambo.TraceState

section Constants

def codeCacheSize : Nat := 55000

def codeCacheOverp : Nat := 512

def traceFragmentNo : Nat := 60000

def traceFragmentOverp : Nat := 50

def maxBranchRange : Nat := 16 * 1024 * 1024

def traceLimitOffset : Nat := 1024 * 1024

def traceAlign : Nat := 4

def maxTraceFragments : Nat := 20

def maxTraceRecExits : Nat := maxTraceFragments + 1

def maxCcLinks : Nat := 100000

def blockBytes : Nat := 64 * 4

def uintMax : Nat := 0xFFFFFFFF

end Constants

inductive BranchType
  | unknown
  | stub
  | uncondImmA64
  | uncondBranchReg
  | condImmA64
  | cbzA64
  | tbzA64
  | traceExit
  | jalRiscv
  | jalrRiscv
  | branchRiscv
  | atomicMemoryRiscv
  deriving DecidableEq, Repr

inductive CcType
  | bb
  | trace
  | traceEntry
  deriving DecidableEq, Repr

def fallthroughLinked : Nat := 1

def branchLinked : Nat := 2

def bothLinked : Nat := 4

/-- The list holds the addresses of the links to a block, latest first. -/
structure CodeCacheMeta where
  sourceAddr : Nat
  tpc : Nat
  exitBranchType : BranchType
  actualId : Nat
  exitBranchAddr : Nat
  branchTakenAddr : Nat
  branchSkippedAddr : Nat
  branchCondition : Nat
  branchCacheStatus : Nat
  freeB : Nat
  linkedFrom : List Nat
  deriving DecidableEq, Repr

/-- The kind stands for the branch that was written at the address from. -/
structure TraceExit where
  source : Nat
  target : Nat
  fragmentId : Nat
  exitCondition : Nat
  kind : BranchType
  deriving DecidableEq, Repr

structure TraceInProg where
  id : Nat
  sourceBb : Nat
  writeP : Nat
  entryAddr : Nat
  active : Bool
  exits : List TraceExit
  deriving DecidableEq, Repr

/-- The code a link is in: a basic block or a trace, by its entry. -/
inductive Fragment
  | block (id : Nat)
  | trace (entry : Nat)
  deriving DecidableEq, Repr

/-- What happens in a run: the cache is flushed, a lookup finds the translation of
an address, a block is allocated for one, a trace is begun or entered in the hash
table, a number of bytes are written for a link or over one, an exit stub is
written that leads to an address, and a call returns where to go on. -/
inductive Event
  | flush
  | lookup (target tpc : Nat)
  | scan (target tpc id : Nat)
  | create (entry : Nat)
  | commit (spc entry : Nat)
  | link (addr size : Nat) (fragment : Fragment)
  | patch (addr size : Nat)
  | stub (target : Nat)
  | returned (addr : Nat)
  deriving DecidableEq, Repr

/-- A failed assertion, of which those on the range of a trace exit and on the
number of exits have their own names, and a loop that does not end. -/
inductive Stop
  | assertion
  | range
  | exits
  | endless
  deriving DecidableEq, Repr

/-- The part of dbm_thread that the traces use, for a hash table of type T. The
events, latest first, are not part of the program. -/
structure Thread (T : Type) where
  wasFlushed : Bool
  freeBlock : Nat
  codeCacheMeta : Nat → CodeCacheMeta
  entryAddress : T
  traceCacheNext : Nat
  traceId : Nat
  traceFragmentCount : Nat
  activeTrace : TraceInProg
  ccLinks : Nat
  events : List Event

/-- What a scan leaves: the exit of the fragment, its length and the number of
further blocks that it took. -/
structure Scanned where
  exitBranchType : BranchType
  exitBranchAddr : Nat
  branchTakenAddr : Nat
  branchSkippedAddr : Nat
  branchCondition : Nat
  size : Nat
  overflow : Nat
  deriving DecidableEq, Repr

/-- The address of the code cache, the number of blocks that the dispatcher takes
at its start, the hash table and the scanner. -/
structure Env (T : Type) where
  codeCache : Nat
  trampolinesSizeBbs : Nat
  hashInit : T → T
  hashAdd : T → Nat → Nat → T × Bool
  hashLookup : T → Nat → Nat
  scanner : Thread T → CcType → Nat → Nat → Nat → Except Stop Scanned

variable {T : Type}

namespace Thread

variable (t : Thread T)

def log (e : Event) : Thread T := { t with events := e :: t.events }

def setMeta (id : Nat) (f : CodeCacheMeta → CodeCacheMeta) : Thread T :=
  { t with codeCacheMeta := Function.update t.codeCacheMeta id (f (t.codeCacheMeta id)) }

def setActive (f : TraceInProg → TraceInProg) : Thread T := { t with activeTrace := f t.activeTrace }

def setWriteP (p : Nat) : Thread T := t.setActive fun a => { a with writeP := p }

def setFreeBlock (n : Nat) : Thread T := { t with freeBlock := n }

def setCcLinks (n : Nat) : Thread T := { t with ccLinks := n }

def setEntryAddress (table : T) : Thread T := { t with entryAddress := table }

def setTrace (id next : Nat) : Thread T := { t with traceId := id, traceCacheNext := next }

end Thread

section Cache

variable (env : Env T) (t : Thread T)

def Env.traces : Nat := env.codeCache + codeCacheSize * blockBytes

def Env.block (id : Nat) : Nat := env.codeCache + id * blockBytes

def isTrace (addr : Nat) : Bool := env.traces ≤ addr ∧ addr < env.codeCache + maxBranchRange

/-- None for -1. -/
def addrToBbId (addr : Nat) : Option Nat :=
  if addr < env.codeCache ∨ addr > env.traces then none else some ((addr - env.codeCache) / blockBytes)

def resetMeta (m : CodeCacheMeta) : CodeCacheMeta :=
  { m with exitBranchType := .unknown, linkedFrom := [], branchCacheStatus := 0, actualId := 0 }

def flushCodeCache : Thread T :=
  { t with
    wasFlushed := true
    freeBlock := env.trampolinesSizeBbs
    entryAddress := env.hashInit t.entryAddress
    traceCacheNext := env.traces
    traceId := codeCacheSize
    activeTrace := { t.activeTrace with id := codeCacheSize }
    codeCacheMeta := fun i => if i < codeCacheSize then resetMeta (t.codeCacheMeta i) else t.codeCacheMeta i
    ccLinks := 0
    events := .flush :: t.events }

def allocateBb : Thread T × Nat :=
  let t := if t.freeBlock ≥ codeCacheSize - codeCacheOverp then flushCodeCache env t else t
  (t.setFreeBlock (t.freeBlock + 1), t.freeBlock)

/-- The blocks that a fragment takes when it overflows its first one. -/
def allocateOverflows (id : Nat) : Nat → Thread T → Except Stop (Thread T)
  | 0, t => .ok t
  | n + 1, t =>
    if t.freeBlock < codeCacheSize then
      allocateOverflows id n
        ((t.setMeta t.freeBlock fun m => { m with actualId := id }).setFreeBlock (t.freeBlock + 1))
    else .error .assertion

/-- The scanner translates the code at an address into fragment id. -/
def scanCode (type : CcType) (address id writeP : Nat) : Except Stop (Thread T × Nat) := do
  let s ← env.scanner t type address id writeP
  let t ← allocateOverflows id s.overflow t
  .ok (t.setMeta id fun m =>
    { m with
      exitBranchType := s.exitBranchType
      exitBranchAddr := s.exitBranchAddr
      branchTakenAddr := s.branchTakenAddr
      branchSkippedAddr := s.branchSkippedAddr
      branchCondition := s.branchCondition }, s.size)

/-- The basic block is none for ALLOCATE_BB. -/
def scan (address : Nat) (basicBlock : Option Nat) : Except Stop (Thread T × Nat) := do
  let (t, id) := match basicBlock with
    | none => allocateBb env t
    | some id => (t, id)
  let t := t.setMeta id fun m => { m with sourceAddr := address, tpc := env.block id }
  let (table, added) := match basicBlock with
    | none => env.hashAdd t.entryAddress address (env.block id)
    | some _ => (t.entryAddress, true)
  if !added then .error .endless
  else
    let t := (t.setEntryAddress table).log (.scan address (env.block id) id)
    let (t, _) ← scanCode env t .bb address id (env.block id)
    .ok (t, env.block id)

def stubBlock (addr : Nat) : Option Nat :=
  if isTrace env addr then none
  else (addrToBbId env addr).filter fun id => (t.codeCacheMeta id).exitBranchType = .stub

def lookupOrScan (target : Nat) : Except Stop (Thread T × Nat) :=
  let addr := env.hashLookup t.entryAddress target
  if addr ≠ uintMax then
    match stubBlock env t addr with
    | none => .ok (t.log (.lookup target addr), addr)
    | some id => scan env t target (some id)
  else scan env t target none

end Cache

section ActiveTrace

variable (env : Env T) (t : Thread T)

def getActiveTraceSpc : Nat := (t.codeCacheMeta t.activeTrace.sourceBb).sourceAddr

def activeTraceLookupOrScan (target : Nat) : Except Stop (Thread T × Nat) :=
  if target = getActiveTraceSpc t then .ok (t, t.activeTrace.entryAddr) else lookupOrScan env t target

def activeTraceLookup (target : Nat) : Nat :=
  if target = getActiveTraceSpc t then t.activeTrace.entryAddr
  else
    let tpc := env.hashLookup t.entryAddress target
    if tpc ≥ env.traces then tpc else uintMax

def allocateTraceFragment : Except Stop (Thread T × Nat) :=
  if t.activeTrace.id < codeCacheSize + traceFragmentNo then
    .ok (t.setActive fun a => { a with id := a.id + 1 }, t.activeTrace.id)
  else .error .assertion

def recordCcLink (linkedFrom linkedToAddr : Nat) : Except Stop (Thread T) :=
  match addrToBbId env linkedToAddr with
  | none => .ok t
  | some id =>
    if t.ccLinks < maxCcLinks then
      .ok ((t.setMeta id fun m => { m with linkedFrom := linkedFrom :: m.linkedFrom }).setCcLinks (t.ccLinks + 1))
    else .error .assertion

/-- The assertion that follows each call is part of it. -/
def traceRecordExit (e : TraceExit) : Except Stop (Thread T) :=
  if t.activeTrace.exits.length < maxTraceRecExits then
    .ok (t.setActive fun a => { a with exits := a.exits ++ [e] })
  else .error .exits

end ActiveTrace

section Outcomes

variable (env : Env T) (t : Thread T)

/-- Where a call returns to, and the fragment that is executed next if the trace
is not finished. -/
structure Outcome where
  nextAddr : Nat
  fragment : Option Nat
  deriving DecidableEq, Repr

/-- The end of a call that returns an address that is not in an unfinished trace. -/
def leave (nextAddr : Nat) : Thread T × Outcome := (t.log (.returned nextAddr), ⟨nextAddr, none⟩)

def stay (nextAddr fragment : Nat) : Thread T × Outcome := (t.log (.returned nextAddr), ⟨nextAddr, some fragment⟩)

def resolve (target : Nat) : Except Stop (Thread T × Outcome) := do
  let (t, addr) ← lookupOrScan env t target
  .ok (leave t addr)

def alignTrace (p : Nat) : Nat := p + (traceAlign - p % traceAlign) % traceAlign

end Outcomes

end Mambo.TraceState
