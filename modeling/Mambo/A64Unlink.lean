import Mathlib.Tactic.IntervalCases
import Mambo.A64ExitLinks
import Mambo.FragmentLookup

namespace Mambo.A64Unlink

open CodeRuns A64 A64Emit A64Exits
open TraceState (codeCacheSize codeCacheOverp blockBytes maxBranchRange Env Thread)
open FragmentLookup (isBb blockFragment IsFragment codeArea Laid)

section Memory

/-- A word of the code cache: an instruction, or the trap that unlinking writes. -/
inductive Slot
  | inst (i : Option Inst)
  | hvc (imm : Nat)
  deriving DecidableEq

abbrev Mem := Word → Slot

def plain (code : Code) : Mem := fun a => .inst (code a)

/-- `a64_decode` gives `A64_HVC`. -/
def isTrap : Slot → Bool
  | .inst _ => false
  | .hvc _ => true

def copyWords (mem : Mem) (a : Word) (n : Nat) (words : Nat → Slot) : Nat → Slot :=
  fun j => if j < n then mem (cell a j) else words j

def writeWords (mem : Mem) (a : Word) : Nat → (Nat → Slot) → Mem
  | 0, _ => mem
  | n + 1, words => Function.update (writeWords mem a n words) (cell a n) (words n)

end Memory

def signalTrapIb : Nat := 0x94

def signalTrapDb : Nat := 0x95

/-- The metadata of a fragment. The array of saved words has `maxSavedExitSz` bytes. -/
structure FragmentMeta where
  exit : CodeCacheMeta
  tpc : Word
  savedExit : Nat → Slot

section Signals

def isLinked (flag : Word) (m : CodeCacheMeta) : Bool := m.branchCacheStatus &&& flag != 0

/-- None for the types on which the function loops for ever. -/
def getDirectBranchExitTrapSz (m : CodeCacheMeta) (fragmentId : Nat) : Option Nat :=
  match m.exitBranchType with
  | .uncondImmA64 => some 4
  | .condImmA64 | .cbzA64 | .tbzA64 =>
    if fragmentId ≥ codeCacheSize then some 8
    else some (if isLinked bothLinked m then 12 else 8)
  | _ => none

/-- Returns the saved words and the code; none where the assertion fails. -/
def unlinkDirectBranch (f : FragmentMeta) (mem : Mem) (fragmentId : Nat) (pc : Word) : Option (FragmentMeta × Mem) := do
  let offset ← getDirectBranchExitTrapSz f.exit fragmentId
  let writeP := f.exit.exitBranchAddr
  if pc < writeP + BitVec.ofNat 64 offset then
    if f.exit.branchCacheStatus ≠ 0 then
      if isTrap (mem writeP) then some (f, mem)
      else some ({ f with savedExit := copyWords mem writeP (offset / 4) f.savedExit },
        writeWords mem writeP (offset / 4) fun _ => .hvc signalTrapDb)
    else some (f, mem)
  else if isLinked bothLinked f.exit then none
  else some (f, mem)

/-- The loop looks for a branch or a trap; none if it does not end in as many words. -/
def unlinkIndirectBranch (mem : Mem) : Nat → Word → Option Mem
  | 0, _ => none
  | n + 1, writeP =>
    match mem writeP with
    | .inst (some (.br _)) => some (Function.update mem writeP (.hvc signalTrapIb))
    | .hvc _ => some mem
    | _ => unlinkIndirectBranch mem n (writeP + 4)

/-- The trace fragments whose branch is left out, on the way to the next one. -/
def isElided (activeTraceId : Nat) (f : FragmentMeta) (fragmentId : Nat) : Bool :=
  f.exit.exitBranchType = .uncondImmA64 && !isLinked bothLinked f.exit && codeCacheSize ≤ fragmentId + 1 &&
    fragmentId + 1 < activeTraceId

def skipElided (metas : Nat → FragmentMeta) (activeTraceId : Nat) : Nat → Nat → Nat
  | 0, fragmentId => fragmentId
  | n + 1, fragmentId =>
    if isElided activeTraceId (metas fragmentId) fragmentId then skipElided metas activeTraceId n (fragmentId + 1)
    else fragmentId

/-- The trace that is recorded, and the ids that are installed. -/
structure TraceIds where
  traceId : Nat
  activeTraceId : Nat
  active : Bool

/-- The lookup is none for a failed assertion and for -1. -/
def unlinkFragment (lookup : Word → Option Nat) (t : TraceIds) (metas : Nat → FragmentMeta) (mem : Mem)
    (fragmentId : Nat) (pc : Word) : Option ((Nat → FragmentMeta) × Mem) := do
  let id := skipElided metas t.activeTraceId (t.activeTraceId - fragmentId) fragmentId
  if id ≥ t.traceId ∧ t.active = false then none
  else
    let isExit : Bool := (metas id).exit.exitBranchType = .traceExit
    let pc := if isExit then (metas id).tpc else pc
    let id ← if isExit then lookup (metas id).exit.branchTakenAddr else some id
    let f := metas id
    if f.exit.exitBranchType = .uncondBranchReg then
      (unlinkIndirectBranch mem codeCacheSize f.exit.exitBranchAddr).map fun mem => (metas, mem)
    else if f.exit.branchCacheStatus ≠ 0 then
      (unlinkDirectBranch f mem id pc).map fun r => (Function.update metas id r.1, r.2)
    else some (metas, mem)

end Signals

section Links

def isDirect (type : BranchType) : Bool :=
  type = .uncondImmA64 || type = .condImmA64 || type = .cbzA64 || type = .tbzA64

/-- The branch of `set_up_trace_exit`, with the offset that installing the trace puts in. -/
def traceExitBranch (m : CodeCacheMeta) (newCondition : Word) (imm19 : BitVec 19) : Option Inst :=
  match m.exitBranchType with
  | .cbzA64 => some (.cbzCbnz ((m.rn >>> 5).setWidth 1) (newCondition.setWidth 1) imm19 (m.rn.setWidth 5))
  | .condImmA64 => some (.bCond imm19 (newCondition.setWidth 4))
  | .tbzA64 => some (.tbzTbnz ((m.rn >>> 10).setWidth 1) (newCondition.setWidth 1) ((m.rn >>> 5).setWidth 5)
      (imm19.setWidth 14) (m.rn.setWidth 5))
  | _ => none

def setUpTraceExit (m : CodeCacheMeta) (code : Code) (isTaken : Bool) (imm19 : BitVec 19) :
    Option (CodeCacheMeta × Code) := do
  let branch ← traceExitBranch m (if isTaken then m.branchCondition ^^^ 1 else m.branchCondition) imm19
  return ({ m with branchCacheStatus := if isTaken then branchLinked else fallthroughLinked },
    Function.update code m.exitBranchAddr (some branch))

def earlyTraceExit (m : CodeCacheMeta) (code : Code) (tpc : Word) : Option (CodeCacheMeta × Code) := do
  let writeP := if m.exitBranchType = .uncondImmA64 then m.exitBranchAddr else m.exitBranchAddr + 4
  let jump ← branchHelper writeP (tpc + 4)
  return ({ m with branchCacheStatus := m.branchCacheStatus ||| bothLinked }, Function.update code writeP (some jump))

/-- The exits of a fragment in every state of its links. `allocate_bb` keeps the last blocks for overflows. -/
inductive Linked (id : Nat) : CodeCacheMeta → Code → Prop
  | block {m : CodeCacheMeta} {code : Code} (hid : id < codeCacheSize - codeCacheOverp)
      (htype : isDirect m.exitBranchType = true) (hstatus : m.branchCacheStatus = 0) : Linked id m code
  | link {m m' : CodeCacheMeta} {code code' : Code} {lookup : Word → Word} {target block : Word}
      (h : Linked id m code) (hid : id < codeCacheSize)
      (hlink : dispatcherAarch64 lookup target block m code m.exitBranchType = some (m', code')) : Linked id m' code'
  | fragment {m : CodeCacheMeta} {code : Code} (hid : codeCacheSize ≤ id)
      (htype : isDirect m.exitBranchType = true) (hstatus : m.branchCacheStatus = 0) : Linked id m code
  | setUp {m m' : CodeCacheMeta} {code code' : Code} {isTaken : Bool} {imm19 : BitVec 19} (h : Linked id m code)
      (hid : codeCacheSize ≤ id) (hstatus : m.branchCacheStatus = 0)
      (hlink : setUpTraceExit m code isTaken imm19 = some (m', code')) : Linked id m' code'
  | elide {m : CodeCacheMeta} {code : Code} (h : Linked id m code) (hid : codeCacheSize ≤ id)
      (htype : m.exitBranchType = .uncondImmA64) (hstatus : m.branchCacheStatus = 0) :
      Linked id { m with branchCacheStatus := branchLinked } code
  | early {m m' : CodeCacheMeta} {code code' : Code} {tpc : Word} (h : Linked id m code)
      (hid : codeCacheSize ≤ id) (hstatus : m.branchCacheStatus ≠ 0) (honce : isLinked bothLinked m = false)
      (hlink : earlyTraceExit m code tpc = some (m', code')) : Linked id m' code'

def linkedWords (id : Nat) (m : CodeCacheMeta) : Nat :=
  if m.exitBranchType = .uncondImmA64 then
    if codeCacheSize ≤ id then (if isLinked bothLinked m then 1 else 0)
    else if m.branchCacheStatus = 0 then 0 else 1
  else if m.branchCacheStatus = 0 then 0
  else if codeCacheSize ≤ id then (if isLinked bothLinked m then 2 else 1)
  else if isLinked bothLinked m then 3 else 2

end Links

section Visits

/-- Where a thread is inside a fragment: in front of its exit, or at a word of the exit. -/
inductive Pos
  | body
  | exit (j : Nat)

/-- A fragment that a thread runs, with the trace fragments in front of it whose branches are left out. The first
fragment of a trace starts with an instruction of its own, and the trace dispatcher has set the status of each one that
has a next one. -/
structure Visited where
  env : Env Unit
  thread : Thread Unit
  first : Nat
  id : Nat
  metas : Nat → FragmentMeta
  code : Code
  linked : Linked id (metas id).exit code
  first_le : first ≤ id
  elided : ∀ j, first ≤ j → j < id → isElided thread.activeTrace.id (metas j) j = true
  stays : isElided thread.activeTrace.id (metas id) id = false
  installed : id < thread.traceId ∨ thread.activeTrace.active = true
  room : (metas id).exit.exitBranchAddr.toNat + 256 < 2 ^ 64
  tpc_eq : ∀ j, (thread.codeCacheMeta j).tpc = (metas j).tpc.toNat
  laid : ∃ p, Laid env thread p
  single : (thread.codeCacheMeta codeCacheSize).actualId = 0
  begun : codeCacheSize ≤ id → codeCacheSize ≤ first ∧ id < thread.activeTrace.id
  front : codeCacheSize ≤ id → (metas first).tpc.toNat = env.traces → first = codeCacheSize
  entered : codeCacheSize ≤ id → env.traces < (metas id).exit.exitBranchAddr.toNat
  starts : codeCacheSize ≤ id → (metas id).tpc.toNat ≤ (metas id).exit.exitBranchAddr.toNat
  left : codeCacheSize ≤ id → id + 1 < thread.activeTrace.id → (metas id).exit.branchCacheStatus ≠ 0
  next : codeCacheSize ≤ id → id + 1 < thread.activeTrace.id →
    (metas id).exit.exitBranchAddr.toNat ≤ (metas (id + 1)).tpc.toNat

namespace Visited

variable (f : Visited)

def info : CodeCacheMeta := (f.metas f.id).exit

def exitWord (j : Nat) : Word := cell f.info.exitBranchAddr j

def words : Nat := linkedWords f.id f.info

def ids : TraceIds := ⟨f.thread.traceId, f.thread.activeTrace.id, f.thread.activeTrace.active⟩

def addrToFragmentId (pc : Word) : Option Nat := (FragmentLookup.addrToFragmentId f.env f.thread pc.toNat).join

/-- No fragment behind this one begins at a word that its links take: none was scanned and given up. -/
def Apart : Prop :=
  codeCacheSize ≤ f.id → f.id + 1 < f.thread.activeTrace.id →
    f.info.exitBranchAddr.toNat + 4 * f.words ≤ (f.metas (f.id + 1)).tpc.toNat

/-- How a thread goes on inside the fragment. A branch without a condition leaves it, as does any way behind the last
word of a trace fragment; behind the words of the linkers, the stub of a block only goes on to the dispatcher. -/
inductive Goes : Pos → Pos → Prop
  | body : Goes .body .body
  | enter : Goes .body (.exit 0)
  | linked {j j' : Nat} {i : Inst} {s : State} (hj : j < f.words) (hcode : f.code (f.exitWord j) = some i)
      (hbranch : ∀ imm26, i ≠ .b imm26) (hpc : (exec i (s.goto (f.exitWord j))).pc = f.exitWord j')
      (hinside : codeCacheSize ≤ f.id → j' < f.words) (hlt : j' < 64) : Goes (.exit j) (.exit j')
  | stub {j j' : Nat} (hj : f.words ≤ j) (hforward : j < j') (hlt : j' < 64) : Goes (.exit j) (.exit j')

/-- An address in the blocks of the fragment, or in the trace behind the start of the first one. -/
def Inside (pc : Word) : Prop :=
  if f.id < codeCacheSize then
    isBb f.env pc.toNat ∧ blockFragment f.thread ((pc.toNat - f.env.codeCache) / blockBytes) = f.id
  else (f.metas f.first).tpc.toNat ≤ pc.toNat ∧ pc.toNat < f.env.codeCache + maxBranchRange

def At : Pos → Word → Prop
  | .body, pc => f.Inside pc ∧ pc < f.info.exitBranchAddr
  | .exit j, pc => f.Inside pc ∧ pc = f.exitWord j

/-- A thread inside the fragment, and whether a signal has arrived. -/
structure Visit where
  metas : Nat → FragmentMeta
  mem : Mem
  pos : Pos
  signalled : Bool

def unlink (v : Visit) (pc : Word) : Option ((Nat → FragmentMeta) × Mem) := do
  unlinkFragment f.addrToFragmentId f.ids v.metas v.mem (← f.addrToFragmentId pc) pc

inductive Step : Visit → Visit → Prop
  | go {v : Visit} {p : Pos} (hgoes : f.Goes v.pos p)
      (hrun : ∀ j, v.pos = .exit j → isTrap (v.mem (f.exitWord j)) = false) : Step v { v with pos := p }
  | signal {v : Visit} {pc : Word} {r : (Nat → FragmentMeta) × Mem} (hat : f.At v.pos pc)
      (hunlink : f.unlink v pc = some r) : Step v ⟨r.1, r.2, v.pos, true⟩

/-- A thread comes to the fragment. -/
def start (p : Pos) : Visit := ⟨f.metas, plain f.code, p, false⟩

end Visited

end Visits

section Words

variable {mem : Mem} {a b : Word} {n j : Nat} {words : Nat → Slot}

end Words

section LinkedWords

variable {m m' : CodeCacheMeta} {code code' : Code} {id : Nat}

theorem isLinked_zero {flag : Word} (h : m.branchCacheStatus = 0) : isLinked flag m = false := by
  rw [isLinked, h]
  cases flag
  simp

theorem isDirect_iff {type : BranchType} : isDirect type = true ↔
    type = .uncondImmA64 ∨ type = .condImmA64 ∨ type = .cbzA64 ∨ type = .tbzA64 := by
  cases type <;> simp [isDirect]

theorem insertCondExitBranch_goes {cond : Word} {is : List Inst} (htype : m.exitBranchType ≠ .uncondImmA64)
    (h : insertCondExitBranch m a cond = some is) : ∃ i, is = [i] ∧ ∀ s : State,
      (exec i (s.goto a)).pc = cell a 1 ∨ (exec i (s.goto a)).pc = cell a 2 := by
  have hgo : ∀ (c : Bool) (s : State), (if c then s.goto (a + 8) else s.goto (a + 4)).pc = cell a 1 ∨
      (if c then s.goto (a + 8) else s.goto (a + 4)).pc = cell a 2 := by
    intro c s
    cases c with
    | true => exact Or.inr rfl
    | false => exact Or.inl rfl
  rw [insertCondExitBranch] at h
  cases hcase : m.exitBranchType with
  | uncondImmA64 => exact absurd hcase htype
  | condImmA64 =>
      simp only [hcase] at h
      obtain ⟨i, hi, rfl⟩ := Option.map_eq_some_iff.mp h
      refine ⟨i, rfl, fun s => ?_⟩
      rw [bCondHelper_exec hi]
      exact hgo _ s
  | cbzA64 =>
      simp only [hcase] at h
      obtain ⟨i, hi, rfl⟩ := Option.map_eq_some_iff.mp h
      obtain ⟨hlt, hge⟩ := small_cell a (k := 2) (by decide)
      refine ⟨i, rfl, fun s => ?_⟩
      rw [cbzCbnzHelper_exec hi hlt hge]
      exact hgo _ s
  | tbzA64 =>
      simp only [hcase] at h
      obtain ⟨i, hi, rfl⟩ := Option.map_eq_some_iff.mp h
      refine ⟨i, rfl, fun s => ?_⟩
      rw [tbzTbnzHelper_exec hi]
      exact hgo _ s
  | _ => simp [hcase] at h

theorem branchHelper_b {writeP target : Word} {i : Inst} (h : branchHelper writeP target = some i) :
    ∃ imm26, i = .b imm26 := by
  rw [branchHelper] at h
  split_ifs at h
  exact ⟨_, (Option.some.inj h).symm⟩

/-- The words that the dispatcher has written into the exit of a block. -/
structure BlockWords (m : CodeCacheMeta) (code : Code) : Prop where
  uncond : m.exitBranchType = .uncondImmA64 → isLinked bothLinked m = false
  first : m.exitBranchType ≠ .uncondImmA64 → m.branchCacheStatus ≠ 0 → ∃ i, code m.exitBranchAddr = some i ∧
    ∀ s : State, (exec i (s.goto m.exitBranchAddr)).pc = cell m.exitBranchAddr 1 ∨
      (exec i (s.goto m.exitBranchAddr)).pc = cell m.exitBranchAddr 2
  second : m.exitBranchType ≠ .uncondImmA64 → m.branchCacheStatus ≠ 0 →
    ∃ imm26, code (cell m.exitBranchAddr 1) = some (.b imm26)
  third : m.exitBranchType ≠ .uncondImmA64 → isLinked bothLinked m = true →
    ∃ imm26, code (cell m.exitBranchAddr 2) = some (.b imm26)

theorem BlockWords.linkFirst {lookup : Word → Word} {target block : Word}
    (htype : m.exitBranchType ≠ .uncondImmA64)
    (hlink : A64Exits.linkFirst lookup target block m code = some (m', code')) :
    BlockWords m' code' ∧ m'.exitBranchType = m.exitBranchType := by
  have h01 : m.exitBranchAddr ≠ cell m.exitBranchAddr 1 := by
    intro heq
    rw [← cell_zero m.exitBranchAddr, cell_add] at heq
    exact absurd (cell_inj (by decide) (by decide) heq) (by decide)
  have h02 : m.exitBranchAddr ≠ cell m.exitBranchAddr 2 := by
    intro heq
    rw [← cell_zero m.exitBranchAddr, cell_add] at heq
    exact absurd (cell_inj (by decide) (by decide) heq) (by decide)
  have h12 : cell m.exitBranchAddr 1 ≠ cell m.exitBranchAddr 2 := fun heq =>
    absurd (cell_inj (by decide) (by decide) heq) (by decide)
  simp only [A64Exits.linkFirst, Option.bind_eq_bind, Option.bind_eq_some_iff, Option.pure_def] at hlink
  obtain ⟨is, hins, jump, hjump, hrest⟩ := hlink
  obtain ⟨i, rfl, hgoes⟩ := insertCondExitBranch_goes htype hins
  obtain ⟨imm26, rfl⟩ := branchHelper_b hjump
  rw [List.length_singleton, emit, emit] at hrest
  generalize lookup _ = otherTarget at hrest
  have hstatus : ∀ c : Bool, (if c then branchLinked else fallthroughLinked) &&& bothLinked = 0 := by decide
  by_cases hfound : otherTarget ≠ uintMax
  · rw [if_pos hfound, Option.bind_eq_some_iff] at hrest
    obtain ⟨otherJump, hother, heq⟩ := hrest
    obtain ⟨imm26', rfl⟩ := branchHelper_b hother
    obtain ⟨rfl, rfl⟩ := Prod.mk.inj (Option.some.inj heq)
    rw [cell_next]
    refine ⟨⟨fun hun => absurd hun htype, fun _ _ => ⟨i, ?_, hgoes⟩, fun _ _ => ⟨imm26, ?_⟩, fun _ _ => ⟨imm26', ?_⟩⟩, rfl⟩
    · rw [Function.update_of_ne h02, Function.update_of_ne h01, Function.update_self]
    · rw [Function.update_of_ne h12, Function.update_self]
    · rw [Function.update_self]
  · rw [if_neg hfound] at hrest
    obtain ⟨rfl, rfl⟩ := Prod.mk.inj (Option.some.inj hrest)
    refine ⟨⟨fun hun => absurd hun htype, fun _ _ => ⟨i, ?_, hgoes⟩, fun _ _ => ⟨imm26, ?_⟩, fun _ hboth => ?_⟩, rfl⟩
    · rw [Function.update_of_ne h01, Function.update_self]
    · rw [Function.update_self]
    · simp only [isLinked, hstatus] at hboth
      exact absurd hboth (by decide)

theorem BlockWords.linkSecond {block : Word} (h : BlockWords m code) (htype : m.exitBranchType ≠ .uncondImmA64)
    (hne : m.branchCacheStatus ≠ 0) (hlink : A64Exits.linkSecond block m code = some (m', code')) :
    BlockWords m' code' ∧ m'.exitBranchType = m.exitBranchType := by
  have h02 : m.exitBranchAddr ≠ cell m.exitBranchAddr 2 := by
    intro heq
    rw [← cell_zero m.exitBranchAddr, cell_add] at heq
    exact absurd (cell_inj (by decide) (by decide) heq) (by decide)
  have h12 : cell m.exitBranchAddr 1 ≠ cell m.exitBranchAddr 2 := fun heq =>
    absurd (cell_inj (by decide) (by decide) heq) (by decide)
  simp only [A64Exits.linkSecond, Option.bind_eq_bind, Option.bind_eq_some_iff, Option.pure_def] at hlink
  obtain ⟨jump, hjump, heq⟩ := hlink
  obtain ⟨imm26, rfl⟩ := branchHelper_b hjump
  obtain ⟨rfl, rfl⟩ := Prod.mk.inj (Option.some.inj heq)
  have hcell : m.exitBranchAddr + 8 = cell m.exitBranchAddr 2 := rfl
  rw [hcell]
  obtain ⟨i, hi, hgoes⟩ := h.first htype hne
  obtain ⟨imm26', hsecond⟩ := h.second htype hne
  refine ⟨⟨fun hun => absurd hun htype, fun _ _ => ⟨i, ?_, hgoes⟩, fun _ _ => ⟨imm26', ?_⟩, fun _ _ => ⟨imm26, ?_⟩⟩, rfl⟩
  · rw [Function.update_of_ne h02, hi]
  · rw [Function.update_of_ne h12, hsecond]
  · rw [Function.update_self]

theorem BlockWords.link {lookup : Word → Word} {target block : Word} (h : BlockWords m code)
    (hdirect : isDirect m.exitBranchType = true)
    (hlink : dispatcherAarch64 lookup target block m code m.exitBranchType = some (m', code')) :
    BlockWords m' code' ∧ m'.exitBranchType = m.exitBranchType := by
  by_cases htype : m.exitBranchType = .uncondImmA64
  · simp only [dispatcherAarch64, htype, Option.bind_eq_bind, Option.bind_eq_some_iff, Option.pure_def] at hlink
    obtain ⟨jump, -, heq⟩ := hlink
    obtain ⟨rfl, rfl⟩ := Prod.mk.inj (Option.some.inj heq)
    exact ⟨⟨fun _ => show (branchLinked &&& bothLinked != 0) = false by decide, fun hne => absurd rfl hne,
      fun hne => absurd rfl hne, fun hne => absurd rfl hne⟩, htype.symm⟩
  · have hcond : (if m.branchCacheStatus = 0 then A64Exits.linkFirst lookup target block m code
        else A64Exits.linkSecond block m code) = some (m', code') := by
      rcases isDirect_iff.mp hdirect with hcase | hcase | hcase | hcase
      · exact absurd hcase htype
      all_goals
        simp only [dispatcherAarch64, hcase] at hlink
        exact hlink
    by_cases hstatus : m.branchCacheStatus = 0
    · rw [if_pos hstatus] at hcond
      exact BlockWords.linkFirst htype hcond
    · rw [if_neg hstatus] at hcond
      exact h.linkSecond htype hstatus hcond

theorem Linked.facts (h : Linked id m code) : isDirect m.exitBranchType = true ∧
    (id < codeCacheSize → id < codeCacheSize - codeCacheOverp ∧ BlockWords m code) := by
  induction h with
  | block hid htype hstatus =>
      refine ⟨htype, fun _ => ⟨hid, fun _ => isLinked_zero hstatus, fun _ hne => absurd hstatus hne,
        fun _ hne => absurd hstatus hne, fun _ hboth => ?_⟩⟩
      rw [isLinked_zero hstatus] at hboth
      exact absurd hboth Bool.false_ne_true
  | link h hid hlink ih =>
      obtain ⟨hwords, htype⟩ := (ih.2 hid).2.link ih.1 hlink
      exact ⟨htype ▸ ih.1, fun hlt => ⟨(ih.2 hlt).1, hwords⟩⟩
  | fragment hid htype hstatus => exact ⟨htype, fun hlt => absurd hlt (Nat.not_lt.mpr hid)⟩
  | setUp h hid hstatus hlink ih =>
      simp only [setUpTraceExit, Option.bind_eq_bind, Option.bind_eq_some_iff] at hlink
      obtain ⟨branch, -, hlink⟩ := hlink
      cases hlink
      exact ⟨ih.1, fun hlt => absurd hlt (Nat.not_lt.mpr hid)⟩
  | elide h hid htype hstatus ih => exact ⟨ih.1, fun hlt => absurd hlt (Nat.not_lt.mpr hid)⟩
  | early h hid hstatus honce hlink ih =>
      simp only [earlyTraceExit, Option.bind_eq_bind, Option.bind_eq_some_iff] at hlink
      obtain ⟨jump, -, hlink⟩ := hlink
      cases hlink
      exact ⟨ih.1, fun hlt => absurd hlt (Nat.not_lt.mpr hid)⟩

end LinkedWords

namespace Visited

variable {f : Visited} {v v' : Visit} {p : Pos} {n j : Nat}

def trapWords (f : Visited) : Nat :=
  if f.info.exitBranchType = .uncondImmA64 then 1
  else if codeCacheSize ≤ f.id then 2
  else if isLinked bothLinked f.info then 3 else 2

theorem words_both (h : isLinked bothLinked f.info = true) : f.words = f.trapWords := by
  have hstatus : f.info.branchCacheStatus ≠ 0 := fun hzero => by
    rw [isLinked_zero hzero] at h
    exact Bool.false_ne_true h
  have hblock : f.info.exitBranchType = .uncondImmA64 → codeCacheSize ≤ f.id := fun htype => by
    by_contra hlt
    have hno := (f.linked.facts.2 (Nat.not_le.mp hlt)).2.uncond htype
    exact Bool.false_ne_true (hno.symm.trans h)
  rw [words, linkedWords, trapWords]
  by_cases htype : f.info.exitBranchType = .uncondImmA64
  · rw [if_pos htype, if_pos htype, if_pos (hblock htype), if_pos h]
  · rw [if_neg htype, if_neg htype, if_neg hstatus, if_pos h, if_pos h]

def withSaved (f : Visited) (saved : Nat → Slot) : Nat → FragmentMeta :=
  Function.update f.metas f.id { f.metas f.id with savedExit := saved }

/-- A trace fragment with a next one has nothing behind the words of its links. -/
def Closed (f : Visited) (pos : Pos) : Prop :=
  codeCacheSize ≤ f.id → f.id + 1 < f.thread.activeTrace.id → ∀ j, pos = .exit j → j < f.words

theorem words_pos (hid : codeCacheSize ≤ f.id) (hnext : f.id + 1 < f.thread.activeTrace.id) : 0 < f.words := by
  have hleft : f.info.branchCacheStatus ≠ 0 := f.left hid hnext
  have hstays : isElided f.thread.activeTrace.id (f.metas f.id) f.id = false := f.stays
  rw [words, linkedWords, if_pos hid, if_neg hleft, if_pos hid]
  by_cases htype : f.info.exitBranchType = .uncondImmA64
  · have hboth : isLinked bothLinked f.info = true := by
      have htype' : (f.metas f.id).exit.exitBranchType = .uncondImmA64 := htype
      simp only [isElided, htype', decide_true, Bool.true_and, Nat.le_succ_of_le hid, hnext, Bool.and_true,
        Bool.not_eq_false'] at hstays
      exact hstays
    rw [if_pos htype, if_pos hboth]
    exact Nat.zero_lt_one
  · rw [if_neg htype]
    split_ifs <;> decide

theorem trapWords_pos (f : Visited) : 0 < f.trapWords := by
  rw [trapWords]
  split_ifs <;> omega

def savedWords (f : Visited) : Nat → Slot :=
  copyWords (plain f.code) f.info.exitBranchAddr f.trapWords (f.metas f.id).savedExit

def trappedMem (f : Visited) : Mem :=
  writeWords (plain f.code) f.info.exitBranchAddr f.trapWords fun _ => .hvc signalTrapDb

/-- Either no trap is written, and a thread that has had a signal is behind the exit, or all of it is traps, and the
thread has not passed it. -/
inductive Traps (f : Visited) (v : Visit) : Prop
  | clean (hmetas : v.metas = f.metas) (hmem : v.mem = plain f.code)
      (hpast : v.signalled = true → f.info.branchCacheStatus ≠ 0 → ∃ j, f.trapWords ≤ j ∧ v.pos = .exit j)
  | trapped (hmetas : v.metas = f.withSaved f.savedWords) (hmem : v.mem = f.trappedMem)
      (hstatus : f.info.branchCacheStatus ≠ 0) (hat : v.pos = .body ∨ ∃ j < f.trapWords, v.pos = .exit j)

structure Inv (f : Visited) (v : Visit) : Prop where
  lt : ∀ j, v.pos = .exit j → j < 64
  both : isLinked bothLinked f.info = true → ∀ j, v.pos = .exit j → j < f.words
  closed : f.Closed v.pos
  traps : f.Traps v

theorem inv_start (hp : p = .body ∨ p = .exit 0) : f.Inv (f.start p) where
  lt j hpos := by
    rcases hp with rfl | rfl
    · cases hpos
    · cases hpos
      decide
  both hboth j hpos := by
    rcases hp with rfl | rfl
    · cases hpos
    · cases hpos
      rw [words_both hboth]
      exact f.trapWords_pos
  closed hid hnext j hpos := by
    rcases hp with rfl | rfl
    · cases hpos
    · cases hpos
      exact words_pos hid hnext
  traps := .clean rfl rfl fun hsig => absurd hsig Bool.false_ne_true

section Direct

variable {saved : Nat → Slot} {pc : Word}

end Direct

section Runs

def cacheEnv : Env Unit :=
  ⟨0x50000000, 9, fun _ => (), fun _ _ _ => ((), true), fun _ _ => 0, fun _ _ _ _ _ => .error .endless⟩

def emptyMeta : TraceState.CodeCacheMeta := ⟨0, 0, .unknown, 0, 0, 0, 0, 0, 0, 0, []⟩

def installedThread (last : Nat) (metas : Nat → FragmentMeta) : Thread Unit where
  wasFlushed := false
  freeBlock := 11
  codeCacheMeta j := { emptyMeta with tpc := (metas j).tpc.toNat }
  entryAddress := ()
  traceCacheNext := cacheEnv.traces
  traceId := last
  traceFragmentCount := 0
  activeTrace := ⟨last, 10, cacheEnv.traces, cacheEnv.traces, false, []⟩
  ccLinks := 0
  events := []

def linkedExit : CodeCacheMeta := ⟨.uncondImmA64, 0x50000a10, 0x2000, 0, 0, branchLinked, 0⟩

/-- The exits of a trace whose next fragment was scanned, did not leave room for the stub, and was given up: the trace
ends in a branch where the code of that fragment began. -/
def rolledBackMetas (j : Nat) : FragmentMeta :=
  if j ≤ codeCacheSize then
    ⟨⟨.tbzA64, 0x50d6d808, 0x2000, 0x1004, 0, fallthroughLinked ||| bothLinked, 0⟩, 0x50d6d800, fun _ => .inst none⟩
  else if j = codeCacheSize + 1 then
    ⟨⟨.condImmA64, 0x50d7580c, 0xa00c, 0x9008, 0, 0, 0⟩, 0x50d6d80c, fun _ => .inst none⟩
  else ⟨⟨.traceExit, 0x50d6d818, 0x50000a08, 0, 0, branchLinked, 0⟩, 0x50d6d810, fun _ => .inst none⟩

def rolledBackCode : Code :=
  Function.update (Function.update (fun _ => none) 0x50d6d808 (some (.tbzTbnz 0 0 0 2 0)))
    0x50d6d80c (some (.b 0x3ca4cfe))

theorem linked_early : Linked codeCacheSize (rolledBackMetas codeCacheSize).exit rolledBackCode := by
  have hfragment : Linked codeCacheSize ⟨.tbzA64, 0x50d6d808, 0x2000, 0x1004, 0, 0, 0⟩ fun _ => none :=
    .fragment (Nat.le_refl _) rfl rfl
  have hset : setUpTraceExit ⟨.tbzA64, 0x50d6d808, 0x2000, 0x1004, 0, 0, 0⟩ (fun _ => none) false 2 =
      some (⟨.tbzA64, 0x50d6d808, 0x2000, 0x1004, 0, fallthroughLinked, 0⟩,
        Function.update (fun _ => none) 0x50d6d808 (some (.tbzTbnz 0 0 0 2 0))) := rfl
  have hearly : earlyTraceExit ⟨.tbzA64, 0x50d6d808, 0x2000, 0x1004, 0, fallthroughLinked, 0⟩
      (Function.update (fun _ => none) 0x50d6d808 (some (.tbzTbnz 0 0 0 2 0))) 0x50000c00 =
        some (⟨.tbzA64, 0x50d6d808, 0x2000, 0x1004, 0, fallthroughLinked ||| bothLinked, 0⟩, rolledBackCode) := rfl
  exact .early (.setUp hfragment (Nat.le_refl _) rfl hset) (Nat.le_refl _) (by decide) (by decide) hearly

theorem laid_rolledBack : Laid cacheEnv (installedThread (codeCacheSize + 3) rolledBackMetas) 0x50d6d820 where
  first := by decide
  limit := by decide
  start _ := by decide
  empty h := absurd h (by decide)
  ordered i hge hlt := by
    have hlt : i + 1 < codeCacheSize + 3 := hlt
    obtain rfl | rfl : i = codeCacheSize ∨ i = codeCacheSize + 1 := by omega
    all_goals decide
  behind i hi := by
    obtain ⟨hge, hlt⟩ := hi
    have hlt : i < codeCacheSize + 3 := hlt
    obtain rfl | rfl | rfl : i = codeCacheSize ∨ i = codeCacheSize + 1 ∨ i = codeCacheSize + 2 := by omega
    all_goals decide

def rolledBack : Visited where
  env := cacheEnv
  thread := installedThread (codeCacheSize + 3) rolledBackMetas
  first := codeCacheSize
  id := codeCacheSize
  metas := rolledBackMetas
  code := rolledBackCode
  linked := linked_early
  first_le := Nat.le_refl _
  elided j hle hlt := absurd hlt (Nat.not_lt.mpr hle)
  stays := by decide
  installed := Or.inl (by decide)
  room := by decide
  tpc_eq _ := rfl
  laid := ⟨_, laid_rolledBack⟩
  single := rfl
  begun _ := ⟨Nat.le_refl _, by decide⟩
  front _ _ := rfl
  entered _ := by decide
  starts _ := by decide
  left _ _ := by decide
  next _ _ := by decide

end Runs

end Visited

end Mambo.A64Unlink
