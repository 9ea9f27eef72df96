import Mathlib.Data.BitVec
import Mathlib.Logic.Function.Basic

namespace Mambo.CacheSim

inductive Policy
  | random
  | lru
  deriving DecidableEq, Repr

/-- The lowest bit of the tag says whether the line is dirty. -/
structure Line where
  tag : Nat
  timestamp : Nat
  deriving DecidableEq, Repr

/-- A cache without a parent. The counters have one value for reads and one for
writes; draws counts the calls of random. -/
structure Cache where
  size : Nat
  lineSize : Nat
  maxFetch : Nat
  assoc : Nat
  replacementPolicy : Policy
  sets : Nat
  setShift : Nat
  setMask : Nat
  tagShift : Nat
  maxFetchShift : Nat
  lastAddr : Nat
  lastLine : Nat
  references : Bool → Nat
  misses : Bool → Nat
  writebacks : Bool → Nat
  lines : Nat → Line
  draws : Nat

/-- A division by zero, an index that an int does not hold or that is negative,
and a loop that does not end. -/
inductive Fault
  | division
  | index
  | endless
  deriving DecidableEq, Repr

def isPow2 (val : Nat) : Bool := val &&& (val - 1) = 0

def ctz (val : Nat) : Nat := ((List.range 32).find? fun i => val.testBit i).getD 32

def getSet (c : Cache) (addr : Nat) : Nat := (addr >>> c.setShift) &&& c.setMask

def getTag (c : Cache) (addr : Nat) : Nat := addr >>> c.tagShift

/-- None for the return value -1. What the structure held before in the fields
for the last line stays there. -/
def cachesimModelInit (calloc : Nat → Bool) (cache : Cache) (size lineSize maxFetch assoc : BitVec 32)
    (replPolicy : Policy) : Except Fault (Option Cache) :=
  let waySize := (assoc * lineSize).toNat
  if size = 0 ∨ lineSize = 0 ∨ assoc = 0 ∨ ¬ isPow2 lineSize.toNat ∨ ¬ isPow2 maxFetch.toNat ∨
      waySize > size.toNat then .ok none
  else if waySize = 0 then .error .division
  else if size.toNat % waySize ≠ 0 then .ok none
  else
    let sets := size.toNat / waySize
    if ¬ isPow2 sets then .ok none
    else if !calloc (sets * assoc.toNat % 2 ^ 32) then .ok none
    else
      let maxFetch := if maxFetch ≠ 0 then maxFetch.toNat else lineSize.toNat
      .ok (some
        { cache with
          size := size.toNat
          lineSize := lineSize.toNat
          maxFetch := maxFetch
          assoc := assoc.toNat
          replacementPolicy := replPolicy
          sets := sets
          setShift := ctz lineSize.toNat
          setMask := sets - 1
          tagShift := ctz sets + ctz lineSize.toNat
          maxFetchShift := ctz maxFetch
          references := fun _ => 0
          misses := fun _ => 0
          writebacks := fun _ => 0
          lines := fun _ => ⟨0, 0⟩ })

def increment (counter : Bool → Nat) (isWrite : Bool) : Bool → Nat :=
  Function.update counter isWrite ((counter isWrite + 1) % 2 ^ 64)

def setLine (c : Cache) (line : Nat) (l : Line) : Cache := { c with lines := Function.update c.lines line l }

def loadLine (c : Cache) (line addr : Nat) (isWrite : Bool) : Cache :=
  setLine
    (if (c.lines line).tag &&& 1 ≠ 0 then { c with writebacks := increment c.writebacks isWrite } else c)
    line ⟨getTag c addr <<< 1 % 2 ^ 64, (c.lines line).timestamp⟩

def oldest (c : Cache) (line : Nat) : Option Nat :=
  ((List.range c.assoc).foldl (fun r i =>
    if (c.lines (line + i)).timestamp < r.1 then ((c.lines (line + i)).timestamp, some i) else r)
    (2 ^ 64 - 1, none)).2

/-- The way to replace, none for -1, with the values that random gives. -/
def evictLine (random : Nat → Nat) (c : Cache) (line : Nat) : Option Nat × Cache :=
  match c.replacementPolicy with
  | .random => (some (random c.draws % c.assoc), { c with draws := c.draws + 1 })
  | .lru => (oldest c line, c)

def updateDirtyBit (c : Cache) (line : Nat) (isWrite : Bool) : Cache :=
  if isWrite then setLine c line ⟨(c.lines line).tag ||| 1, (c.lines line).timestamp⟩ else c

def updateLine (c : Cache) (line : Nat) (isWrite : Bool) : Cache :=
  let c := updateDirtyBit c line isWrite
  setLine c line ⟨(c.lines line).tag, (c.references false + c.references true) % 2 ^ 64⟩

def findWay (c : Cache) (line tag : Nat) : Option Nat :=
  (List.range' 1 (c.assoc - 1)).find? fun i => (c.lines (line + i)).tag >>> 1 = tag

def swapLines (c : Cache) (line i : Nat) : Cache :=
  setLine (setLine c line (c.lines (line + i))) (line + i) (c.lines line)

section Reference

variable (random : Nat → Nat)

/-- The body of the loop for one line, with the index it leaves in the variable line. -/
def refLine (c : Cache) (addr : Nat) (isWrite : Bool) : Except Fault (Cache × Nat) :=
  if addr = c.lastAddr then .ok (updateDirtyBit c c.lastLine isWrite, c.lastLine)
  else
    let line := getSet c addr * c.assoc % 2 ^ 32
    let tag := getTag c addr
    if line + c.assoc > 2 ^ 31 then .error .index
    else if (c.lines line).tag >>> 1 = tag then .ok (updateDirtyBit c line isWrite, line)
    else
      match findWay c line tag with
      | some i => .ok (updateLine (swapLines c line i) line isWrite, line)
      | none =>
        match evictLine random { c with misses := increment c.misses isWrite } line with
        | (none, _) => .error .index
        | (some i, c) => .ok (updateLine (loadLine c (line + i) addr isWrite) (line + i) isWrite, line + i)

def refLoop : Nat → Cache → Nat → Nat → Nat → Bool → Except Fault Cache
  | 0, _, _, _, _, _ => .error .endless
  | n + 1, c, addr, end_, line, isWrite =>
    if addr < end_ then
      match refLine random c addr isWrite with
      | .error f => .error f
      | .ok (c, line) => refLoop n c ((addr + c.lineSize) % 2 ^ 64) end_ line isWrite
    else .ok { c with lastAddr := addr, lastLine := line }

/-- What a reference of a size at an address counts for. -/
def fetches (c : Cache) (addr size : Nat) : Nat :=
  let mask := c.maxFetch - 1
  let offset := addr % 2 ^ 32 &&& mask
  let tSize := (size + offset) % 2 ^ 32
  tSize >>> c.maxFetchShift + if tSize &&& mask ≠ 0 then 1 else 0

/-- The bound is more than the number of lines that the access can touch. -/
def cachesimRef (c : Cache) (addr : BitVec 64) (size : BitVec 32) (isWrite : Bool) : Except Fault Cache :=
  refLoop random (size.toNat / c.lineSize + 3)
    { c with
      references := Function.update c.references isWrite
        ((c.references isWrite + fetches c addr.toNat size.toNat) % 2 ^ 64) }
    (addr.toNat >>> c.setShift <<< c.setShift) ((addr.toNat + size.toNat) % 2 ^ 64) 0 isWrite

structure Access where
  addr : BitVec 64
  size : BitVec 32
  isWrite : Bool
  deriving DecidableEq

def refAll (c : Cache) : List Access → Except Fault Cache
  | [] => .ok c
  | a :: as =>
    match cachesimRef random c a.addr a.size a.isWrite with
    | .error f => .error f
    | .ok c => refAll c as

end Reference

end Mambo.CacheSim
