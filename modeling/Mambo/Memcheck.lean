import Mathlib.Data.BitVec
import Mambo.MamboHt

namespace Mambo.Memcheck

open MamboHt

/-- `RESERVED_BASE` of the 64-bit build: the shadow lies from here on. -/
def reservedBase : Nat := 0x4000000000

def magicFreed : Word := BitVec.ofNat 64 (2 ^ 64 - 2)

abbrev Shadow := Nat → BitVec 8

section Mark

def memset (shadow : Shadow) (address : Nat) (value : BitVec 8) (n : Nat) : Shadow :=
  fun x => if address ≤ x ∧ x < address + n then value else shadow x

def markByte (sb mask : BitVec 8) (valid : Bool) : BitVec 8 := if valid then sb ||| mask else sb &&& ~~~mask

def markEnd (shadow : Shadow) (start size : Word) (valid : Bool) : Shadow × Word :=
  let endBOffset := start + size
  let endBSize := endBOffset &&& 7
  if endBSize ≠ 0 then
    let eb := reservedBase + endBOffset.toNat / 8
    let mask := (0xFF : BitVec 8) >>> (8 - endBSize.toNat)
    (Function.update shadow eb (markByte (shadow eb) mask valid), size - endBSize)
  else (shadow, size)

/-- One bit for each byte of memory. The branch for a start that is not aligned to eight
ends in an empty loop. -/
def memcheckMark (shadow : Shadow) (start size : Word) (valid : Bool) : Except Fault Shadow :=
  if ¬ (start.toNat < reservedBase ∧ (start + size).toNat < reservedBase ∧ start + size ≥ start) then .error .assertion
  else if size = 0 then .ok shadow
  else if start &&& 7 ≠ 0 then .error .hang
  else
    let r := markEnd shadow start size valid
    if r.2 ≠ 0 then
      .ok (memset r.1 (reservedBase + start.toNat / 8) (if valid then 0xFF else 0) (r.2.toNat / 8))
    else .ok r.1

end Mark

section Hooks

inductive Report
  | invalidFree
  | doubleFree
  deriving DecidableEq

structure State where
  allocs : Table
  shadow : Shadow

variable (calloc : Nat → Bool)

def memcheckAllocHook (s : State) (start size : Word) : Except Fault State :=
  match mamboHtAdd calloc s.allocs start size with
  | .error f => .error f
  | .ok (ret, allocs) =>
    if ret = 0 then (memcheckMark s.shadow start size true).map fun shadow => ⟨allocs, shadow⟩
    else .error .assertion

/-- The size that is passed is overwritten with the one in the table. -/
def memcheckFreeHook (s : State) (start _size : Word) : Except Fault (State × Option Report) :=
  if start = 0 then .ok (s, none)
  else
    match mamboHtGet s.allocs start with
    | .error f => .error f
    | .ok none => .ok (s, some .invalidFree)
    | .ok (some size) =>
      if size = magicFreed then .ok (s, some .doubleFree)
      else
        match mamboHtAdd calloc s.allocs start magicFreed with
        | .error f => .error f
        | .ok (ret, allocs) =>
          if ret = 0 then (memcheckMark s.shadow start size false).map fun shadow => (⟨allocs, shadow⟩, none)
          else .error .assertion

end Hooks

section Events

inductive Event
  | alloc (start size : Word)
  | free (start size : Word)
  deriving DecidableEq

def Event.start : Event → Word
  | .alloc start _ => start
  | .free start _ => start

@[simp] theorem Event.start_alloc (start size : Word) : (Event.alloc start size).start = start := rfl

@[simp] theorem Event.start_free (start size : Word) : (Event.free start size).start = start := rfl

structure Block where
  start : Word
  size : Word
  deriving DecidableEq

def Block.Covers (b : Block) (a : Nat) : Prop := b.start.toNat ≤ a ∧ a < b.start.toNat + b.size.toNat

/-- The most recent event for an address; histories are kept newest first. -/
def latest (events : List Event) (start : Word) : Option Event := events.find? (fun e => e.start = start)

def Allocated (events : List Event) (start : Word) : Prop := ∃ size, Event.alloc start size ∈ events

/-- A free ends the newest block at its address, unless the event before it was a free too. -/
def live : List Event → List Block
  | [] => []
  | .alloc start size :: events => ⟨start, size⟩ :: live events
  | .free start _ :: events =>
    match latest events start with
    | some (.alloc _ _) => (live events).eraseP (fun b => b.start = start)
    | _ => live events

def EverAllocated (events : List Event) (a : Nat) : Prop :=
  ∃ start size, Event.alloc start size ∈ events ∧ (Block.mk start size).Covers a

/-- The events the tracking is for: starts that are aligned and not null, and no block
over another one that is live. -/
def Allowed (events : List Event) (e : Event) : Prop :=
  e.start ≠ 0 ∧ e.start.toNat % 8 = 0 ∧
    ∀ start size, e = .alloc start size → ∀ b ∈ live events, ∀ a, ¬ ((Block.mk start size).Covers a ∧ b.Covers a)

def hook (calloc : Nat → Bool) (s : State) : Event → Except Fault (State × Option Report)
  | .alloc start size => (memcheckAllocHook calloc s start size).map fun s => (s, none)
  | .free start size => memcheckFreeHook calloc s start size

/-- The states after a sequence of events, from any contents of the shadow. -/
inductive Reaches (calloc : Nat → Bool) : List Event → State → Prop
  | init {allocs : Table} (shadow : Shadow) (h : mamboHtInit calloc 10000 2 70 true = .ok (some allocs)) :
      Reaches calloc [] ⟨allocs, shadow⟩
  | step {events : List Event} {s s' : State} {e : Event} {report : Option Report} (before : Reaches calloc events s)
      (allowed : Allowed events e) (h : hook calloc s e = .ok (s', report)) : Reaches calloc (e :: events) s'

def bit (shadow : Shadow) (a : Nat) : Bool := (shadow (reservedBase + a / 8)).getLsbD (a % 8)

end Events

end Mambo.Memcheck
