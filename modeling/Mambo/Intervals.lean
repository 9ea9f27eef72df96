import Mathlib.Data.Set.Basic
import Mathlib.Data.List.Basic

namespace Mambo.Intervals

structure IntervalMapEntry where
  start : Nat
  stop : Nat
  fd : Int
  deriving DecidableEq, Repr, Inhabited

/-- The live part of the array, the first entry_count slots. A write at a
higher index reaches only slots that interval_map_add_entry overwrites before
it makes them live, so it leaves this list as it is. -/
@[ext] structure IntervalMap where
  memSize : Nat
  entries : List IntervalMapEntry
  deriving DecidableEq, Repr

def intervalMapInit (size : Nat) : IntervalMap := ⟨size, []⟩

def intervalMapDeleteEntry (m : IntervalMap) (index : Nat) : Int × IntervalMap :=
  if index ≥ m.entries.length then (-1, m)
  else
    let moved := if m.entries.length ≥ 2 then m.entries.set index (m.entries.getLastD default)
      else m.entries
    (0, { m with entries := moved.dropLast })

def intervalMapAddEntry (m : IntervalMap) (start stop : Nat) (fd : Int) : Int × IntervalMap :=
  if m.entries.length ≥ m.memSize ∨ start ≥ stop then (-1, m)
  else (0, { m with entries := m.entries ++ [⟨start, stop, fd⟩] })

/-- The overlap test that opens the loop bodies of add and delete. -/
def hits (start stop : Nat) (e : IntervalMapEntry) : Bool := start < e.stop ∧ stop > e.start

/-- The locals of interval_map_add: the map, the two widened bounds and overlap_ind. -/
structure AddScan where
  imap : IntervalMap
  start : Nat
  stop : Nat
  overlapInd : Option Nat
  deriving DecidableEq, Repr

/-- The two assignments to entries[overlap_ind] that close the loop body. -/
def addExtend (st : AddScan) : AddScan :=
  match st.overlapInd with
  | none => st
  | some h => { st with imap := { st.imap with entries := st.imap.entries.modify h fun e =>
      { e with start := min e.start st.start, stop := max e.stop st.stop } } }

def addMerge (i : Nat) (e : IntervalMapEntry) (st : AddScan) : Option AddScan :=
  match st.overlapInd with
  | none => some { st with overlapInd := some i }
  | some h =>
    let r := intervalMapDeleteEntry st.imap i
    if r.1 = 0 then some ⟨r.2, min e.start st.start, max e.stop st.stop, some h⟩ else none

/-- One iteration of the loop of interval_map_add; none is a failed assert. -/
def addBody (fd : Int) (i : Nat) (st : AddScan) : Option AddScan :=
  let e := st.imap.entries.getD i default
  if hits st.start st.stop e then
    if fd < 0 ∧ e.fd < 0 then (addMerge i e st).map addExtend else none
  else some st

def addLoop (fd : Int) : Nat → AddScan → Option AddScan
  | 0, st => some st
  | i + 1, st => (addBody fd i st).bind (addLoop fd i)

/-- What follows the loop: a range that overlapped nothing is appended. -/
def addFinish (fd : Int) (st : AddScan) : Option (Int × IntervalMap) :=
  match st.overlapInd with
  | none =>
    let r := intervalMapAddEntry st.imap st.start st.stop fd
    if r.1 = 0 then some (0, r.2) else none
  | some _ => some (0, st.imap)

variable (dup : Int → Int)

/-- The mutex is taken to be free; dup is the system call of that name. -/
def intervalMapAdd (m : IntervalMap) (start stop : Nat) (fd : Int) : Option (Int × IntervalMap) :=
  if start ≥ stop then some (-1, m)
  else
    let fd' := if fd ≥ 0 then dup fd else fd
    if fd ≥ 0 ∧ fd' < 0 then none
    else (addLoop fd' m.entries.length ⟨m, start, stop, none⟩).bind (addFinish fd')

def searchLoop (entries : List IntervalMapEntry) (addr : Nat) : Nat → Option IntervalMapEntry
  | 0 => none
  | i + 1 =>
    let e := entries.getD i default
    if addr ≥ e.start ∧ addr < e.stop then some e else searchLoop entries addr i

/-- The result code together with the entry copied out, for a non-null out pointer. -/
def intervalMapSearchByAddr (m : IntervalMap) (addr : Nat) : Int × Option IntervalMapEntry :=
  match searchLoop m.entries addr m.entries.length with
  | some e => (1, some e)
  | none => (0, none)

def setEntry (m : IntervalMap) (i : Nat) (e : IntervalMapEntry) : IntervalMap :=
  { m with entries := m.entries.set i e }

/-- The last branch of interval_map_delete: cut the entry at start and append the rest. -/
def deleteSplit (start stop i : Nat) (e : IntervalMapEntry) (m : IntervalMap) : Option IntervalMap :=
  let fd := if e.fd ≥ 0 then dup e.fd else e.fd
  if e.fd ≥ 0 ∧ fd < 0 then none
  else
    let r := intervalMapAddEntry (setEntry m i { e with stop := start }) stop e.stop fd
    if r.1 = 0 then some r.2 else none

def deleteHit (start stop i : Nat) (e : IntervalMapEntry) (m : IntervalMap) : Option IntervalMap :=
  if start ≤ e.start ∧ stop ≥ e.stop then
    let r := intervalMapDeleteEntry m i
    if r.1 = 0 then some r.2 else none
  else if start = e.start ∧ stop < e.stop then some (setEntry m i { e with start := stop })
  else if stop = e.stop ∧ start > e.start then some (setEntry m i { e with stop := start })
  else deleteSplit dup start stop i e m

def deleteBody (start stop i : Nat) (st : Int × IntervalMap) : Option (Int × IntervalMap) :=
  let e := st.2.entries.getD i default
  if hits start stop e then (deleteHit dup start stop i e st.2).map fun m => (st.1 + 1, m)
  else some st

def deleteLoop (start stop : Nat) : Nat → Int × IntervalMap → Option (Int × IntervalMap)
  | 0, st => some st
  | i + 1, st => (deleteBody dup start stop i st).bind (deleteLoop start stop i)

def intervalMapDelete (m : IntervalMap) (start stop : Nat) : Option (Int × IntervalMap) :=
  if start ≥ stop then some (-1, m)
  else deleteLoop dup start stop m.entries.length (0, m)

end Mambo.Intervals
