import Mambo.Probing
import Mathlib.Data.Finset.Card
import Mathlib.Data.BitVec

namespace Mambo.CodeCacheHash

open Probing

def codeCacheHashSize : Nat := 0x7FFFF

def codeCacheHashOverp : Nat := 10

/-- The declared length of the entries array. -/
def slots : Nat := codeCacheHashSize + codeCacheHashOverp

structure HashEntry (w : Nat) where
  key : BitVec w
  value : BitVec w
  deriving DecidableEq, Repr

structure HashTable (w : Nat) where
  size : Nat
  collisions : Nat
  count : Nat
  entries : Nat → HashEntry w

/-- The endless loop after the overflow message, and an access outside the array. -/
inductive Fault
  | hang
  | bounds
  deriving DecidableEq, Repr

variable {w : Nat} (htShift : Nat)

def uintMax : BitVec w := BitVec.ofNat w 0xFFFFFFFF

def getIndex (t : HashTable w) (key : BitVec w) : Nat :=
  ((key >>> htShift) &&& BitVec.ofNat w (t.size - codeCacheHashOverp)).toNat

def lookupLoop (t : HashTable w) (key : BitVec w) (index : Nat) : Except Fault (BitVec w) :=
  if index < slots then
    let e := t.entries index
    if e.key = key then .ok e.value
    else if index + 1 < t.size - 1 ∧ e.key ≠ 0 then lookupLoop t key (index + 1)
    else .ok uintMax
  else .error .bounds
termination_by t.size - index

def hashLookup (t : HashTable w) (key : BitVec w) : Except Fault (BitVec w) :=
  lookupLoop t key (getIndex htShift t key)

def store (t : HashTable w) (key value : BitVec w) (index : Nat) : HashTable w :=
  { t with
    count := if (t.entries index).key = 0 then t.count + 1 else t.count
    entries := Function.update t.entries index ⟨key, value⟩ }

def addLoop (t : HashTable w) (key value : BitVec w) (index : Nat) : Except Fault (Bool × HashTable w) :=
  if index < slots then
    let e := t.entries index
    if e.key = 0 ∨ e.key = key then .ok (true, store t key value index)
    else if index + 1 ≥ t.size - 1 then .error .hang
    else
      let t' := { t with collisions := t.collisions + 1 }
      if index + 1 < t.size - 1 then addLoop t' key value (index + 1) else .ok (false, t')
  else .error .bounds
termination_by t.size - index

def hashAdd (t : HashTable w) (key value : BitVec w) : Except Fault (Bool × HashTable w) :=
  addLoop t key value (getIndex htShift t key)

/-- The loop of hash_init, from the last slot down. Values keep what was there. -/
def initLoop : Nat → HashTable w → Except Fault (HashTable w)
  | 0, t => .ok t
  | i + 1, t =>
    if i < slots then
      initLoop i { t with entries := Function.update t.entries i ⟨0, (t.entries i).value⟩ }
    else .error .bounds

def hashInit (t : HashTable w) (size : Nat) : Except Fault (HashTable w) :=
  initLoop size { t with size := size, collisions := 0, count := 0 }

/-- A sequence of hash_add calls; the flag they return is not looked at. -/
def addAll (t : HashTable w) : List (BitVec w × BitVec w) → Except Fault (HashTable w)
  | [] => .ok t
  | kv :: rest =>
    match hashAdd htShift t kv.1 kv.2 with
    | .ok r => addAll r.2 rest
    | .error f => .error f

def lastValue (adds : List (BitVec w × BitVec w)) (key : BitVec w) : Option (BitVec w) :=
  (adds.reverse.find? fun kv => kv.1 = key).map Prod.snd

end Mambo.CodeCacheHash
