import Mambo.FragmentEntries
import Mambo.Pieces

namespace Mambo.FunctionCallbacks

open CodeCacheHash FragmentScans Pieces
open TraceState (codeCacheSize codeCacheOverp blockBytes maxBranchRange alignTrace)

variable {w : Nat}

section Guest

/-- What the code around a watched function does, in the words of the functions that write it. -/
inductive Op (w : Nat)
  | push
  | pre (func : Nat)
  | fcall (target : BitVec w)
  | popIhl
  | post (func : Nat)
  | pop
  | branchBySpc
  | other

/-- The registers that this code uses, the stack, and the functions whose post callbacks have run. -/
structure Guest (w : Nat) where
  pc : BitVec w
  es : BitVec w
  lr : BitVec w
  stack : List (BitVec w)
  posts : List Nat

def exec (next : BitVec w) (g : Guest w) : Op w → Guest w
  | .push => { g with stack := g.es :: g.lr :: g.stack }
  | .pre _ => g
  | .fcall target => { g with lr := next, pc := target }
  | .popIhl => { g with stack := g.stack.drop 2 }
  | .post func => { g with posts := g.posts ++ [func] }
  | .pop =>
    match g.stack with
    | es :: lr :: stack => { g with es := es, lr := lr, stack := stack }
    | _ => g
  | .branchBySpc => { g with pc := g.lr }
  | .other => g

def run (next : BitVec w) (ops : List (Op w)) (g : Guest w) : Guest w := ops.foldl (exec next) g

end Guest

section Code

structure WatchedFunc where
  func : Nat
  preCallback : Bool
  postCallback : Bool

/-- How many halfwords of code come before the branch of a wrapper, and how many after it. -/
structure Lengths where
  entry : Nat
  post : Nat
  entry_pos : 0 < entry
  post_pos : 0 < post

structure Wrapper (w : Nat) where
  func : WatchedFunc
  lengths : Lengths
  start : Nat
  thumb : BitVec w

def Wrapper.back (wr : Wrapper w) : Nat := wr.start + 2 * wr.lengths.entry + 4

def Wrapper.stop (wr : Wrapper w) : Nat := wr.back + 2 * wr.lengths.post

/-- The address that a wrapper puts into the link register. -/
def Wrapper.ret (wr : Wrapper w) : BitVec w := BitVec.ofNat w wr.back ||| wr.thumb

abbrev Store (w : Nat) := Nat → Option (Piece (List (Op w)))

def entryOps (f : WatchedFunc) : List (Op w) := .push :: if f.preCallback then [.pre f.func] else []

def postOps (f : WatchedFunc) : List (Op w) := [.popIhl, .post f.func, .pop, .branchBySpc]

/-- The scanner at work: the thread, the code cache, the wrappers written since the last flush,
the place where it writes, and the end of the present block. -/
structure Writer (w : Nat) where
  thread : Thread w
  code : Store w
  wrappers : List (Wrapper w)
  writeP : Nat
  limit : Nat
  thumb : BitVec w

def Writer.write (s : Writer w) (ops : List (Op w)) (length : Nat) : Writer w :=
  { s with
    code := overwrite s.code s.writeP ⟨ops, length⟩
    writeP := s.writeP + length }

def mamboReserveBranch (s : Writer w) : Writer w := { s with writeP := s.writeP + 4 }

variable (c : Cache w)

def mamboAddIdentityMapping (s : Writer w) : Except Stop (Writer w) := do
  let addr := BitVec.ofNat w s.writeP ||| s.thumb
  let (added, table) ← hashResult (hashAdd c.htShift s.thread.entryAddress addr addr)
  if added then .ok { s with thread := s.thread.setTable table } else .error .assertion

def emitLocalFcall (s : Writer w) (loc : Nat) : Writer w :=
  { s with code := overwrite s.code loc ⟨[.fcall (BitVec.ofNat w s.writeP ||| s.thumb)], 4⟩ }

def functionCallbackWrapper (f : WatchedFunc) (n : Lengths) (s : Writer w) : Except Stop (Writer w) :=
  if f.postCallback then do
    let entry := s.write (entryOps f) (2 * n.entry)
    let back ← mamboAddIdentityMapping c (mamboReserveBranch entry)
    let done := emitLocalFcall (back.write (postOps f) (2 * n.post)) entry.writeP
    .ok { done with wrappers := ⟨f, n, s.writeP, s.thumb⟩ :: s.wrappers }
  else .ok (if f.preCallback then s.write [.pre f.func] (2 * n.entry) else s)

end Code

section Scanning

variable (c : Cache w)

/-- What a scanner does: it writes other code, it comes to a watched function, it goes on in
another block, or it asks for a stub. Code is counted in halfwords. -/
inductive Act (w : Nat)
  | emit (n : Nat)
  | wrapper (f : WatchedFunc) (n : Lengths)
  | overflow
  | stub (target : BitVec w) (n : Nat)

/-- A flush leaves no wrapper. -/
def standing (before after : Thread w) (wrappers : List (Wrapper w)) : List (Wrapper w) :=
  if after.flushes = before.flushes then wrappers else []

def act (id : Nat) (s : Writer w) : Act w → Except Stop (Writer w)
  | .emit n => .ok (s.write [.other] (2 * n))
  | .wrapper f n => functionCallbackWrapper c f n s
  | .overflow => do
    let (t, block) ← allocateBbOverflow s.thread
    .ok
      { s with
        thread := setActualId t block id
        writeP := (c.block block).toNat
        limit := (c.block block).toNat + blockBytes }
  | .stub target n => do
    let blockAddress ← ccLookup c s.thread target
    if blockAddress = uintMax then do
      let (t, _) ← stubBb c s.thread target
      .ok
        { s with
          thread := t
          code := overwrite s.code (c.block (t.freeBlock - 1)).toNat ⟨[.other], 2 * n⟩
          wrappers := standing s.thread t s.wrappers }
    else .ok s

def runActs (id : Nat) : List (Act w) → Writer w → Except Stop (Writer w)
  | [], s => .ok s
  | a :: as, s => do
    let s ← act c id s a
    runActs id as s

/-- A call of a watched function that has not returned: where it returns to, the registers and
the stack of its caller, and the stack that the function has got. -/
structure Call (w : Nat) where
  func : Nat
  ret : BitVec w
  es : BitVec w
  caller : BitVec w
  stack : List (BitVec w)
  inner : List (BitVec w)

/-- trace_cache_next and active_trace.write_p, the exit of the last fragment, which the trace dispatcher writes over,
and the place where that fragment starts. -/
structure Traces where
  cacheNext : Nat
  writeP : Nat
  exitBranchAddr : Nat
  fragmentStart : Nat

/-- A flush puts trace_cache_next back. -/
def Traces.after (before after : Thread w) (tr : Traces) : Traces :=
  if after.flushes = before.flushes then tr else { tr with cacheNext := c.traces.toNat }

/-- The wrappers that do not reach behind an address in the traces. -/
def kept (p : Nat) (wrappers : List (Wrapper w)) : List (Wrapper w) :=
  wrappers.filter fun wr => wr.start < c.traces.toNat ∨ wr.stop ≤ p

/-- A thread, its code cache and its guest. The wrappers written since the last flush and not
given up with a trace, the calls, innermost first, and the functions that have returned are not
part of the program. -/
structure State (w : Nat) where
  thread : Thread w
  code : Store w
  traces : Traces
  guest : Guest w
  wrappers : List (Wrapper w)
  calls : List (Call w)
  returned : List Nat

def atBlock (s : State w) (t : Thread w) (id : Nat) (target : BitVec w) : Writer w where
  thread := t
  code := s.code
  wrappers := standing s.thread t s.wrappers
  writeP := (c.block id).toNat
  limit := (c.block id).toNat + blockBytes
  thumb := c.thumb target

def atTrace (s : State w) (t : Thread w) (target : BitVec w) : Writer w where
  thread := t
  code := s.code
  wrappers := s.wrappers
  writeP := s.traces.writeP
  limit := c.codeCache.toNat + maxBranchRange
  thumb := c.thumb target

def finish (s : State w) (id : Nat) (exit : BranchType) (out : Writer w) : State w :=
  { s with
    thread := setExit out.thread id exit
    code := out.code
    traces := s.traces.after c s.thread out.thread
    wrappers := out.wrappers }

def scan (s : State w) (target : BitVec w) (basicBlock : Option Nat) (acts : List (Act w)) (exit : BranchType) :
    Except Stop (State w × BitVec w) := do
  let (t, id) ← enter c s.thread target basicBlock
  let out ← runActs c id acts (atBlock c s t id target)
  .ok (finish c s id exit out, adjustCcEntry c (c.block id ||| c.thumb target))

def lookupOrScan (s : State w) (target : BitVec w) (acts : List (Act w)) (exit : BranchType) :
    Except Stop (State w × BitVec w) := do
  let (blockAddress, basicBlock) ← lookupBb c s.thread target
  if blockAddress ≠ uintMax then .ok (s, blockAddress) else scan c s target basicBlock acts exit

/-- The exit of a fragment takes some code behind the rest of it. -/
def scanTrace (s : State w) (target : BitVec w) (acts : List (Act w)) (exit : BranchType) (length : Nat) :
    Except Stop (State w) := do
  let (t, id) ← enterTrace s.thread target (BitVec.ofNat w s.traces.writeP)
  let out ← runActs c id acts (atTrace c s t target)
  let done := finish c s id exit (out.write [.other] (2 * length))
  .ok
    { done with
      traces :=
        { cacheNext := done.traces.cacheNext
          writeP := out.writeP + 2 * length
          exitBranchAddr := out.writeP
          fragmentStart := s.traces.writeP } }

/-- A trace starts at trace_cache_next, aligned, whether or not the last one was installed. -/
def createTrace (s : State w) : State w :=
  let next := alignTrace s.traces.cacheNext
  { s with
    thread := FragmentScans.createTrace s.thread
    traces := ⟨next, next, next, next⟩
    wrappers := kept c next s.wrappers }

/-- Code that the trace dispatcher writes over the exit of the last fragment. -/
def setUpTraceExit (s : State w) (n : Nat) : State w :=
  { s with
    code := overwrite s.code s.traces.exitBranchAddr ⟨[.other], 2 * n⟩
    traces := { s.traces with writeP := s.traces.exitBranchAddr + 2 * n } }

/-- Code behind the last fragment: the branch of early_trace_exit. -/
def earlyTraceExit (s : State w) (n : Nat) : State w :=
  { s with
    code := overwrite s.code s.traces.writeP ⟨[.other], 2 * n⟩
    traces := { s.traces with writeP := s.traces.writeP + 2 * n } }

/-- The trace dispatcher takes back a fragment that leaves no room for the exit stubs. -/
def giveUpFragment (s : State w) : State w :=
  { s with
    traces :=
      { s.traces with
        writeP := s.traces.fragmentStart
        exitBranchAddr := s.traces.fragmentStart }
    wrappers := kept c s.traces.fragmentStart s.wrappers }

def installTrace (s : State w) (spc tpc : BitVec w) (n : Nat) : Except Stop (State w) := do
  let t ← FragmentScans.installTrace c s.thread spc tpc
  .ok
    { s with
      thread := t
      code := overwrite s.code s.traces.writeP ⟨[.other], 2 * n⟩
      traces :=
        { s.traces with
          cacheNext := s.traces.writeP + 2 * n
          writeP := s.traces.writeP + 2 * n } }

end Scanning

section Runs

variable (c : Cache w)

/-- Control comes to a wrapper. -/
def enterFunction (s : State w) (wr : Wrapper w) : Option (State w) :=
  (s.code wr.start).bind fun entry =>
    (s.code (wr.start + entry.length)).map fun branch =>
      let next := BitVec.ofNat w (wr.start + entry.length + branch.length) ||| wr.thumb
      let g := run next branch.content (run next entry.content s.guest)
      { s with
        guest := g
        calls := ⟨wr.func.func, g.lr, s.guest.es, s.guest.lr, s.guest.stack, g.stack⟩ :: s.calls }

def goTo (s : State w) (addr : BitVec w) (g : Guest w) : Guest w :=
  match s.code (addr.toNat - (c.thumb addr).toNat) with
  | some p => run addr p.content g
  | none => { g with pc := addr }

/-- A watched function returns: the inline lookup pushes two registers, and what it does not
find goes to the dispatcher. -/
def returnTo (s : State w) (ret x0 x1 : BitVec w) (acts : List (Act w)) (exit : BranchType) :
    Except Stop (State w) := do
  let addr ← hashResult (hashLookup c.htShift s.thread.entryAddress ret)
  if addr ≠ uintMax then .ok { s with guest := goTo c s addr { s.guest with stack := x0 :: x1 :: s.guest.stack } }
  else do
    let (s, addr) ← lookupOrScan c s ret acts exit
    .ok { s with guest := { s.guest with pc := addr } }

/-- What happens in a thread: application code runs; a watched function is called, returns or is
abandoned; the dispatcher is called for an address; traces are made; the code cache is flushed. -/
inductive Event (w : Nat)
  | app (g : Guest w)
  | call (wr : Wrapper w)
  | ret (x0 x1 : BitVec w) (acts : List (Act w)) (exit : BranchType)
  | unwind
  | lookupOrScan (target : BitVec w) (acts : List (Act w)) (exit : BranchType)
  | createTrace
  | scanTrace (target : BitVec w) (acts : List (Act w)) (exit : BranchType) (length : Nat)
  | setUpTraceExit (n : Nat)
  | earlyTraceExit (n : Nat)
  | giveUpFragment
  | installTrace (spc tpc : BitVec w) (n : Nat)
  | flush

def next (s : State w) : Event w → Option (State w)
  | .app g => some { s with guest := g }
  | .call wr => enterFunction s wr
  | .ret x0 x1 acts exit =>
    match s.calls with
    | f :: calls =>
      (returnTo c s f.ret x0 x1 acts exit).toOption.map fun s =>
        { s with
          calls := calls
          returned := s.returned ++ [f.func] }
    | [] => none
  | .unwind => some { s with calls := s.calls.tail }
  | .lookupOrScan target acts exit => (lookupOrScan c s target acts exit).toOption.map Prod.fst
  | .createTrace => some (createTrace c s)
  | .scanTrace target acts exit length => (scanTrace c s target acts exit length).toOption
  | .setUpTraceExit n => some (setUpTraceExit s n)
  | .earlyTraceExit n => some (earlyTraceExit s n)
  | .giveUpFragment => some (giveUpFragment c s)
  | .installTrace spc tpc n => (installTrace c s spc tpc n).toOption
  | .flush => (flushCodeCache c s.thread).toOption.map fun t =>
    { s with
      thread := t
      traces := { s.traces with cacheNext := c.traces.toNat }
      wrappers := [] }

def Outside (target : BitVec w) : Prop :=
  target ≠ 0 ∧ (target.toNat < c.codeCache.toNat ∨ c.codeCache.toNat + maxBranchRange ≤ target.toNat)

def StubsOutside (acts : List (Act w)) : Prop := ∀ target n, .stub target n ∈ acts → Outside c target

/-- What does not depend on the code cache: application code runs no callbacks, a watched
function returns with the stack it has got, application code is outside of the code cache, and
every scanner sets the exit of its fragment. -/
def Proper (s : State w) : Event w → Prop
  | .app g => g.posts = s.guest.posts
  | .ret .. => ∃ f calls, s.calls = f :: calls ∧ s.guest.stack = f.inner
  | .lookupOrScan target acts exit => Outside c target ∧ StubsOutside c acts ∧ exit ≠ .stub
  | .scanTrace _ acts exit _ => StubsOutside c acts ∧ exit ≠ .stub
  | .installTrace spc _ _ => Outside c spc
  | _ => True

def Flushes (t : Thread w) (target : BitVec w) : Prop :=
  t.freeBlock ≥ codeCacheSize - codeCacheOverp ∧ lookupBb c t target = .ok (uintMax, none)

/-- The code fits into the present block, and a stub is only made where that does not flush. -/
def Act.Fits (s : Writer w) : Act w → Prop
  | .emit n => s.writeP + 2 * n ≤ s.limit
  | .wrapper _ n => s.writeP + 2 * n.entry + 4 + 2 * n.post ≤ s.limit
  | .overflow => True
  | .stub target n =>
    2 * n ≤ blockBytes ∧
      (ccLookup c s.thread target = .ok uintMax → s.thread.freeBlock < codeCacheSize - codeCacheOverp)

def Fit (id : Nat) : List (Act w) → Writer w → Prop
  | [], _ => True
  | a :: as, s => a.Fits c s ∧ ∀ s', act c id s a = .ok s' → Fit id as s'

/-- The trace that is begun again, or the fragment that is given up, holds no wrapper of an active call. -/
def Holds (s s' : State w) : Prop :=
  ∀ f ∈ s.calls, ∀ wr ∈ s.wrappers, f.ret = wr.ret → wr ∈ s'.wrappers

/-- No flush comes while a watched function is active or in the middle of a scan, no trace is
abandoned while a call through one of its wrappers is active, calls go through wrappers that are
still there, and code stays in its block, or in the traces. -/
def Meets (s : State w) : Event w → Prop
  | .call wr => wr ∈ s.wrappers
  | .lookupOrScan target acts _ =>
    (s.calls = [] ∨ ¬ Flushes c s.thread target) ∧
      ∀ basicBlock t id, lookupBb c s.thread target = .ok (uintMax, basicBlock) →
        enter c s.thread target basicBlock = .ok (t, id) → Fit c id acts (atBlock c s t id target)
  | .createTrace => Holds s (createTrace c s)
  | .scanTrace target acts _ length =>
    .overflow ∉ acts ∧ ∀ t id, enterTrace s.thread target (BitVec.ofNat w s.traces.writeP) = .ok (t, id) →
      Fit c id acts (atTrace c s t target) ∧
        ∀ out, runActs c id acts (atTrace c s t target) = .ok out → out.writeP + 2 * length ≤ out.limit
  | .giveUpFragment => Holds s (giveUpFragment c s)
  | .flush => s.calls = []
  | _ => True

/-- A thread after init_thread, with no code in its cache. AArch32 has words of 32 bits. -/
structure Starts (s : State w) : Prop where
  width : c.arch = .aarch32 → w = 32
  initial : Initial c s.thread
  exits : ∀ i, (s.thread.codeCacheMeta i).exitBranchType = .unknown
  traces : s.traces = ⟨c.traces.toNat, c.traces.toNat, c.traces.toNat, c.traces.toNat⟩
  wrappers : s.wrappers = []
  calls : s.calls = []
  returned : s.guest.posts = s.returned

inductive Reaches (P : State w → Event w → Prop) : State w → Prop
  | start {s : State w} (h : Starts c s) : Reaches P s
  | step {s s' : State w} {e : Event w} (before : Reaches P s) (proper : Proper c s e) (cond : P s e)
      (h : next c s e = some s') : Reaches P s'

end Runs

end Mambo.FunctionCallbacks
