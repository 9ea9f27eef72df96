import Mathlib.Data.BitVec

namespace Mambo.MamboHt

abbrev Word := BitVec 64

structure Entry where
  key : Word
  value : Word
  deriving DecidableEq, Repr

/-- The hash table of the plugin API; sizes and counts are of type size_t. -/
structure Table where
  size : Nat
  entryCount : Nat
  indexShift : Nat
  allowResize : Bool
  fillFactor : Nat
  resizeThreshold : Nat
  entries : Nat → Entry

/-- A loop that does not end, a failed assertion about a return value, and the
failed assertion after a resize for which there was no memory. -/
inductive Fault
  | hang
  | assertion
  | memory
  deriving DecidableEq, Repr

def cleared : Nat → Entry := fun _ => ⟨0, 0⟩

def threshold (size fillFactor : Nat) : Nat := size * fillFactor % 2 ^ 64 / 100

/-- Rounding up to a power of 2. A size that has been shifted out is 0 for ever. -/
def roundUp : Nat → Nat → Nat → Option Nat
  | 0, _, _ => none
  | n + 1, size, initialSize => if size < initialSize then roundUp n (size * 2 % 2 ^ 64) initialSize else some size

section Operations

variable (calloc : Nat → Bool)

/-- None for the return value -1; calloc says whether there is memory for a
number of entries. -/
def mamboHtInit (initialSize : Nat) (indexShift fillFactor : Int) (allowResize : Bool) :
    Except Fault (Option Table) :=
  if fillFactor < 10 ∨ fillFactor > 90 then .ok none
  else if indexShift < 0 ∨ indexShift > 20 then .ok none
  else
    match roundUp 65 1 initialSize with
    | none => .error .hang
    | some size =>
      if calloc size then
        .ok (some
          { size := size
            entryCount := 0
            indexShift := indexShift.toNat
            allowResize := allowResize
            fillFactor := fillFactor.toNat
            resizeThreshold := threshold size fillFactor.toNat
            entries := cleared })
      else .ok none

def getIndex (ht : Table) (key : Word) : Nat :=
  ((key >>> ht.indexShift) &&& BitVec.ofNat 64 (ht.size - 1)).toNat

/-- The probe loop, none when it has gone through n slots without an end. -/
def probe (ht : Table) (key : Word) : Nat → Nat → Option Nat
  | 0, _ => none
  | n + 1, index =>
    if (ht.entries index).key ≠ 0 ∧ (ht.entries index).key ≠ key then
      probe ht key n ((index + 1) &&& (ht.size - 1))
    else some index

def store (ht : Table) (key value : Word) (index : Nat) : Table :=
  { ht with
    entryCount := if (ht.entries index).key = 0 then ht.entryCount + 1 else ht.entryCount
    entries := Function.update ht.entries index ⟨key, value⟩ }

def insert (ht : Table) (key value : Word) : Except Fault (Int × Table) :=
  match probe ht key ht.size (getIndex ht key) with
  | some index => .ok (0, store ht key value index)
  | none => .error .hang

def reinsert (add : Table → Word → Word → Except Fault (Int × Table)) (prev : Nat → Entry) :
    Nat → Nat → Table → Except Fault Table
  | 0, _, ht => .ok ht
  | n + 1, i, ht =>
    if (prev i).key ≠ 0 then
      match add ht (prev i).key (prev i).value with
      | .error f => .error f
      | .ok (ret, ht) => if ret = 0 then reinsert add prev n (i + 1) ht else .error .assertion
    else reinsert add prev n (i + 1) ht

/-- The table with an array of twice the size, still to be filled. -/
def grown (ht : Table) : Table :=
  { ht with
    entries := cleared
    entryCount := 0
    size := ht.size * 2 % 2 ^ 64
    resizeThreshold := threshold (ht.size * 2 % 2 ^ 64) ht.fillFactor }

def mamboHtResize (add : Table → Word → Word → Except Fault (Int × Table)) (ht : Table) : Except Fault Table :=
  if calloc (grown ht).size then reinsert add ht.entries ht.size 0 (grown ht) else .error .memory

def mamboHtAddNolock : Nat → Table → Word → Word → Except Fault (Int × Table)
  | 0, _, _, _ => .error .hang
  | n + 1, ht, key, value =>
    if key = 0 then .ok (-1, ht)
    else if ht.entryCount ≥ ht.resizeThreshold then
      if ht.allowResize then
        match mamboHtResize calloc (mamboHtAddNolock n) ht with
        | .error f => .error f
        | .ok ht => insert ht key value
      else .ok (-1, ht)
    else insert ht key value

/-- An addition, with a level of calls for each entry that there is. -/
def mamboHtAdd (ht : Table) (key value : Word) : Except Fault (Int × Table) :=
  mamboHtAddNolock calloc (ht.entryCount + 1) ht key value

def mamboHtGet (ht : Table) (key : Word) : Except Fault (Option Word) :=
  if key = 0 then .ok none
  else
    match probe ht key ht.size (getIndex ht key) with
    | some index => .ok (if (ht.entries index).key = key then some (ht.entries index).value else none)
    | none => .error .hang

end Operations

inductive Call
  | add (key value : Word)
  | get (key : Word)
  deriving DecidableEq

inductive Answer
  | added (ret : Int)
  | got (value : Option Word)
  deriving DecidableEq

def call (calloc : Nat → Bool) (ht : Table) : Call → Except Fault (Answer × Table)
  | .add key value => (mamboHtAdd calloc ht key value).map fun r => (.added r.1, r.2)
  | .get key => (mamboHtGet ht key).map fun value => (.got value, ht)

def callAll (calloc : Nat → Bool) (ht : Table) : List Call → Except Fault (List Answer × Table)
  | [] => .ok ([], ht)
  | c :: cs =>
    match call calloc ht c with
    | .error f => .error f
    | .ok (answer, ht) => (callAll calloc ht cs).map fun r => (answer :: r.1, r.2)

/-- The calls on a finite map: an addition either takes effect, or returns -1 and
changes nothing. -/
inductive Answers : (Word → Option Word) → List Call → List Answer → (Word → Option Word) → Prop
  | nil (m) : Answers m [] [] m
  | added {m cs as m'} (key value : Word) (h : Answers (Function.update m key (some value)) cs as m') :
      Answers m (.add key value :: cs) (.added 0 :: as) m'
  | refused {m cs as m'} (key value : Word) (h : Answers m cs as m') :
      Answers m (.add key value :: cs) (.added (-1) :: as) m'
  | got {m cs as m'} (key : Word) (h : Answers m cs as m') : Answers m (.get key :: cs) (.got (m key) :: as) m'

end Mambo.MamboHt
