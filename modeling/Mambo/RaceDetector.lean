import Mathlib.Algebra.Group.Int.Defs
import Mathlib.Algebra.Group.Nat.Defs
import Mathlib.Data.List.FinRange
import Mathlib.Logic.Function.Basic

namespace Mambo.RaceDetector

def vcInitialSz : Nat := 8

/-- The array of ints; every vector clock is allocated with VC_INITIAL_SZ slots. -/
abbrev VectorClock := Fin vcInitialSz → Int

def intMax : Int := 2 ^ 31 - 1

/-- An int plus one as the processors add, to which a build without -fwrapv gives no meaning
after INT_MAX. -/
def increment (clock : Int) : Int := (clock + 1).bmod (2 ^ 32)

def vectorClockInit : VectorClock := fun _ => 0

def vectorClockGet (vc : VectorClock) (idx : Fin vcInitialSz) : Int := vc idx

def vectorClockIncrement (vc : VectorClock) (idx : Fin vcInitialSz) : VectorClock :=
  Function.update vc idx (increment (vc idx))

def vectorClockSet (vc : VectorClock) (idx : Fin vcInitialSz) (clock : Int) : VectorClock :=
  Function.update vc idx clock

def vectorClockUpdate (vc otherVc : VectorClock) : VectorClock := fun i =>
  if vc i < otherVc i then otherVc i else vc i

def vectorClockHappensBefore (vc otherVc : VectorClock) : Bool :=
  (List.finRange vcInitialSz).all fun i => !decide (vc i > otherVc i)

structure Thread where
  idx : Fin vcInitialSz
  vc : VectorClock

/-- The assert of vector_clock_increment stops the ninth thread. -/
def threadInit (threadIdx : Nat) : Option Thread :=
  if h : threadIdx < vcInitialSz then
    some ⟨⟨threadIdx, h⟩, vectorClockIncrement vectorClockInit ⟨threadIdx, h⟩⟩
  else none

def threadGetClock (t : Thread) : Int := vectorClockGet t.vc t.idx

def threadIncrement (t : Thread) : Thread := { t with vc := vectorClockIncrement t.vc t.idx }

def threadUpdateVc (t : Thread) (otherClock : VectorClock) : Thread :=
  { t with vc := vectorClockUpdate t.vc otherClock }

/-- The part of a detector that variable_t makes different. An update returns
whether the access is free of races. -/
structure Detector where
  Var : Type
  variableInit : Nat → Var
  variableUpdateRead : Var → Thread → Bool × Var
  variableUpdateWrite : Var → Thread → Bool × Var

section Djit

structure DjitVar where
  rx : VectorClock
  wx : VectorClock

def DjitVar.readIsRaceFree (v : DjitVar) (threadClock : VectorClock) : Bool :=
  vectorClockHappensBefore v.wx threadClock

def DjitVar.writeIsRaceFree (v : DjitVar) (threadClock : VectorClock) : Bool :=
  vectorClockHappensBefore v.wx threadClock && vectorClockHappensBefore v.rx threadClock

def DjitVar.updateRead (v : DjitVar) (t : Thread) : Bool × DjitVar :=
  if v.readIsRaceFree t.vc then (true, { v with rx := vectorClockSet v.rx t.idx (threadGetClock t) })
  else (false, v)

def DjitVar.updateWrite (v : DjitVar) (t : Thread) : Bool × DjitVar :=
  if v.writeIsRaceFree t.vc then (true, { v with wx := vectorClockSet v.wx t.idx (threadGetClock t) })
  else (false, v)

def djit : Detector where
  Var := DjitVar
  variableInit _ := ⟨vectorClockInit, vectorClockInit⟩
  variableUpdateRead := DjitVar.updateRead
  variableUpdateWrite := DjitVar.updateWrite

end Djit

section FastTrack

structure Epoch where
  clock : Int
  threadIdx : Fin vcInitialSz
  deriving DecidableEq

def epochInit : Epoch := ⟨0, ⟨0, by decide⟩⟩

def epochHappensBeforeVc (epoch : Epoch) (vc : VectorClock) : Bool :=
  epoch.clock ≤ vectorClockGet vc epoch.threadIdx

structure FastTrackVar where
  rxVc : VectorClock
  rxEpoch : Epoch
  wxEpoch : Epoch
  isShared : Bool

def FastTrackVar.updateRead (v : FastTrackVar) (t : Thread) : Bool × FastTrackVar :=
  if v.rxEpoch.threadIdx = t.idx ∧ v.rxEpoch.clock = threadGetClock t then (true, v)
  else if v.isShared = true ∧ vectorClockGet v.rxVc t.idx = threadGetClock t then (true, v)
  else if !epochHappensBeforeVc v.wxEpoch t.vc then (false, v)
  else if v.isShared = true then (true, { v with rxVc := vectorClockSet v.rxVc t.idx (threadGetClock t) })
  else if epochHappensBeforeVc v.rxEpoch t.vc then (true, { v with rxEpoch := ⟨threadGetClock t, t.idx⟩ })
  else
    let rxVc := vectorClockSet v.rxVc v.rxEpoch.threadIdx v.rxEpoch.clock
    (true, { v with rxVc := vectorClockSet rxVc t.idx (threadGetClock t), isShared := true })

def FastTrackVar.updateWrite (v : FastTrackVar) (t : Thread) : Bool × FastTrackVar :=
  if v.wxEpoch.threadIdx = t.idx ∧ v.wxEpoch.clock = threadGetClock t then (true, v)
  else if !epochHappensBeforeVc v.wxEpoch t.vc then (false, v)
  else if (if !v.isShared then !epochHappensBeforeVc v.rxEpoch t.vc
      else !vectorClockHappensBefore v.rxVc t.vc) then (false, v)
  else (true, { v with wxEpoch := ⟨threadGetClock t, t.idx⟩ })

/-- variable_init leaves is_shared as malloc found it, here a value for each
variable in the order of allocation. -/
def fastTrack (garbage : Nat → Bool) : Detector where
  Var := FastTrackVar
  variableInit i := ⟨vectorClockInit, epochInit, epochInit, garbage i⟩
  variableUpdateRead := FastTrackVar.updateRead
  variableUpdateWrite := FastTrackVar.updateWrite

end FastTrack

section Lists

/-- A list of threads, locks or variables: the array and the hash table from keys
to its indices, the latter as the map it holds. -/
structure ItemList (α : Type) where
  ht : List (Nat × Nat)
  items : List α

def mamboHtGet (ht : List (Nat × Nat)) (key : Nat) : Option Nat :=
  if key = 0 then none else ht.lookup key

def mamboHtAdd (ht : List (Nat × Nat)) (key value : Nat) : List (Nat × Nat) :=
  if key = 0 then ht else (key, value) :: ht

def listInit {α : Type} : ItemList α := ⟨[], []⟩

variable {α : Type} (init : Nat → Option α)

def listAppend (l : ItemList α) (key : Nat) : Option (Nat × ItemList α) :=
  (init l.items.length).map fun x =>
    (l.items.length, ⟨mamboHtAdd l.ht key l.items.length, l.items ++ [x]⟩)

/-- The index of the item for a key, which is appended when there is none. -/
def smartGet (l : ItemList α) (key : Nat) : Option (Nat × ItemList α) :=
  match mamboHtGet l.ht key with
  | some index => some (index, l)
  | none => listAppend init l key

def ItemList.modify (l : ItemList α) (index : Nat) (f : α → α) : ItemList α :=
  { l with items := l.items.modify index f }

end Lists

section Events

/-- The calls that the plugin makes for the traced program. -/
inductive TraceEvent
  | fork (parentTid childTid : Nat)
  | join (parentTid childTid : Nat)
  | lock (tid addr : Nat)
  | unlock (tid addr : Nat)
  | read (tid addr : Nat)
  | write (tid addr : Nat)
  deriving DecidableEq, Repr

structure DetectorLists (Var : Type) where
  threads : ItemList Thread
  locks : ItemList VectorClock
  vars : ItemList Var

variable (d : Detector)

def start : DetectorLists d.Var := ⟨listInit, listInit, listInit⟩

def threadListSmartGet (l : ItemList Thread) (tid : Nat) : Option (Nat × ItemList Thread) :=
  smartGet threadInit l tid

def lockListSmartGet (l : ItemList VectorClock) (addr : Nat) : Option (Nat × ItemList VectorClock) :=
  smartGet (fun _ => some vectorClockInit) l addr

def variableListSmartGet (l : ItemList d.Var) (addr : Nat) : Option (Nat × ItemList d.Var) :=
  smartGet (fun i => some (d.variableInit i)) l addr

def threadVc (l : ItemList Thread) (index : Nat) : VectorClock :=
  (l.items[index]?).elim vectorClockInit Thread.vc

def threadFork (l : ItemList Thread) (parent child : Nat) : ItemList Thread :=
  (l.modify child fun t => threadUpdateVc t (threadVc l parent)).modify parent threadIncrement

def threadJoin (l : ItemList Thread) (parent child : Nat) : ItemList Thread :=
  (l.modify parent fun t => threadUpdateVc t (threadVc l child)).modify child threadIncrement

variable {d}

def processFork (s : DetectorLists d.Var) (parentTid childTid : Nat) : Option (DetectorLists d.Var) := do
  let (child, threads) ← threadListSmartGet s.threads childTid
  if parentTid ≠ 0 then
    let (parent, threads) ← threadListSmartGet threads parentTid
    some { s with threads := threadFork threads parent child }
  else some { s with threads := threads }

def processJoin (s : DetectorLists d.Var) (parentTid childTid : Nat) : Option (DetectorLists d.Var) := do
  let (child, threads) ← threadListSmartGet s.threads childTid
  let (parent, threads) ← threadListSmartGet threads parentTid
  some { s with threads := threadJoin threads parent child }

def processLock (s : DetectorLists d.Var) (tid addr : Nat) : Option (DetectorLists d.Var) := do
  let (thread, threads) ← threadListSmartGet s.threads tid
  let (lock, locks) ← lockListSmartGet s.locks addr
  let vc ← locks.items[lock]?
  some { s with threads := threads.modify thread fun t => threadUpdateVc t vc, locks := locks }

def processUnlock (s : DetectorLists d.Var) (tid addr : Nat) : Option (DetectorLists d.Var) := do
  let (thread, threads) ← threadListSmartGet s.threads tid
  let (lock, locks) ← lockListSmartGet s.locks addr
  let locks := locks.modify lock fun vc => vectorClockUpdate vc (threadVc threads thread)
  some { s with threads := threads.modify thread threadIncrement, locks := locks }

/-- process_read and process_write, which differ in the update they call. -/
def processAccess (update : d.Var → Thread → Bool × d.Var) (s : DetectorLists d.Var) (tid addr : Nat) :
    Option (Bool × DetectorLists d.Var) := do
  let (thread, threads) ← threadListSmartGet s.threads tid
  let (var, vars) ← variableListSmartGet d s.vars addr
  let t ← threads.items[thread]?
  let v ← vars.items[var]?
  let r := update v t
  some (r.1, { s with threads := threads, vars := vars.modify var fun _ => r.2 })

def processRead (s : DetectorLists d.Var) (tid addr : Nat) : Option (Bool × DetectorLists d.Var) :=
  processAccess d.variableUpdateRead s tid addr

def processWrite (s : DetectorLists d.Var) (tid addr : Nat) : Option (Bool × DetectorLists d.Var) :=
  processAccess d.variableUpdateWrite s tid addr

/-- One call: the verdict if it is an access, and the lists after it. A none is
the failed assert of a ninth thread. -/
def process (s : DetectorLists d.Var) : TraceEvent → Option (Option Bool × DetectorLists d.Var)
  | .fork parentTid childTid => (processFork s parentTid childTid).map (none, ·)
  | .join parentTid childTid => (processJoin s parentTid childTid).map (none, ·)
  | .lock tid addr => (processLock s tid addr).map (none, ·)
  | .unlock tid addr => (processUnlock s tid addr).map (none, ·)
  | .read tid addr => (processRead s tid addr).map fun r => (some r.1, r.2)
  | .write tid addr => (processWrite s tid addr).map fun r => (some r.1, r.2)

def verdictsFrom (s : DetectorLists d.Var) : List TraceEvent → Option (List (Option Bool))
  | [] => some []
  | e :: es => (process s e).bind fun r => (verdictsFrom r.2 es).map (r.1 :: ·)

variable (d)

/-- The verdicts on a whole trace, from freshly initialised lists. -/
def verdicts (es : List TraceEvent) : Option (List (Option Bool)) := verdictsFrom (start d) es

end Events

end Mambo.RaceDetector
