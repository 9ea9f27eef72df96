import Mambo.XtraceBlocks

namespace Mambo.XtraceThreads

open Bytes Xtrace XtraceDecode XtraceBlocks

/-- A guest instruction that a thread executes, with what its callbacks pass on.
An access of unknown size is not recorded by the callback before it. -/
inductive Instr
  | plain (pc encoding instType inst instLen now : Word)
  | access (pc encoding instType inst instLen now addr info : Word) (before after : Word → Byte)
  | unsized (isStore : Bool) (after : Word → Byte)

/-- The calls that the pre- and post-instruction handlers have put around the
instruction. -/
def Instr.calls : Instr → List Capture
  | .plain pc encoding instType inst instLen now => [.inst pc encoding instType inst instLen now]
  | .access pc encoding instType inst instLen now addr info before after =>
    .inst pc encoding instType inst instLen now :: .accessPre pc addr info before ::
      if info &&& infoStore ≠ 0 then [.storePost after] else []
  | .unsized isStore after => if isStore then [.storePost after] else []

/-- A registered thread and the calls of its current instruction still to come. -/
structure Running where
  thread : BinaryThread
  todo : List Capture

/-- Threads are numbered in the order in which they are registered. The history
has, for each thread, the calls made so far, one list for each instruction. -/
structure Tracer where
  started : Nat
  live : Nat → Option Running
  file : List Byte
  history : Nat → List (List Capture)

inductive Action
  | start
  | fetch (n : Nat) (i : Instr)
  | call (n : Nat)
  | stop (n : Nat)

def addCall (c : Capture) : List (List Capture) → List (List Capture)
  | [] => [[c]]
  | [g] => [g ++ [c]]
  | g :: gs => g :: addCall c gs

section Steps

variable (cfg : Config) (zstd : Zstd)

def tracerStart : Tracer where
  started := 0
  live _ := none
  file := headerFormat.write (fileHeader cfg)
  history _ := []

/-- One thread goes on: it is registered, it comes to its next instruction, it
makes the next call, or its post-thread handler flushes what it has buffered. -/
def step (w : Tracer) : Action → Option Tracer
  | .start => some
      { w with
        started := w.started + 1
        live := Function.update w.live w.started (some ⟨binaryStart (BitVec.ofNat 32 w.started), []⟩) }
  | .fetch n i =>
    match w.live n with
    | some ⟨t, []⟩ => some
        { w with
          live := Function.update w.live n (some ⟨t, i.calls⟩)
          history := Function.update w.history n (w.history n ++ [[]]) }
    | _ => none
  | .call n =>
    match w.live n with
    | some ⟨t, c :: todo⟩ => some
        { w with
          live := Function.update w.live n (some ⟨(recordBinary cfg zstd t c).2, todo⟩)
          file := w.file ++ (recordBinary cfg zstd t c).1
          history := Function.update w.history n (addCall c (w.history n)) }
    | _ => none
  | .stop n =>
    match w.live n with
    | some r => some
        { w with
          live := Function.update w.live n none
          file := w.file ++ (flushThread cfg zstd r.thread).1 }
    | none => none

def runFrom (w : Tracer) : List Action → Option Tracer
  | [] => some w
  | a :: as => (step cfg zstd w a).bind (runFrom · as)

def run (as : List Action) : Option Tracer := runFrom cfg zstd (tracerStart cfg) as

/-- The exit handler runs after the post-thread handlers of all threads. -/
def Tracer.Finished (w : Tracer) : Prop := ∀ n, w.live n = none

def traceFile (w : Tracer) : List Byte := w.file ++ blockFormat.write eofBlock

theorem run_invariant {P : Tracer → Prop} (hstart : P (tracerStart cfg))
    (hstep : ∀ w a w', P w → step cfg zstd w a = some w' → P w') {as : List Action} {w : Tracer}
    (hrun : run cfg zstd as = some w) : P w := by
  have hfrom : ∀ (as : List Action) (w₀ : Tracer), P w₀ → runFrom cfg zstd w₀ as = some w → P w := by
    intro as
    induction as with
    | nil =>
        intro w₀ h₀ h
        exact Option.some.inj h ▸ h₀
    | cons a as ih =>
        intro w₀ h₀ h
        obtain ⟨w₁, h₁, h₂⟩ := Option.bind_eq_some_iff.mp h
        exact ih w₁ (hstep w₀ a w₁ h₀ h₁) h₂
  exact hfrom as _ hstart hrun

end Steps

variable {cfg : Config} {zstd : Zstd} {w w' : Tracer} {a : Action}

theorem step_cases (h : step cfg zstd w a = some w') :
    (a = .start ∧ w' = { w with
        started := w.started + 1
        live := Function.update w.live w.started (some ⟨binaryStart (BitVec.ofNat 32 w.started), []⟩) }) ∨
    (∃ n i t, a = .fetch n i ∧ w.live n = some ⟨t, []⟩ ∧ w' = { w with
        live := Function.update w.live n (some ⟨t, i.calls⟩)
        history := Function.update w.history n (w.history n ++ [[]]) }) ∨
    (∃ n t c todo, a = .call n ∧ w.live n = some ⟨t, c :: todo⟩ ∧ w' = { w with
        live := Function.update w.live n (some ⟨(recordBinary cfg zstd t c).2, todo⟩)
        file := w.file ++ (recordBinary cfg zstd t c).1
        history := Function.update w.history n (addCall c (w.history n)) }) ∨
    (∃ n r, a = .stop n ∧ w.live n = some r ∧ w' = { w with
        live := Function.update w.live n none
        file := w.file ++ (flushThread cfg zstd r.thread).1 }) := by
  cases a with
  | start => exact Or.inl ⟨rfl, (Option.some.inj h).symm⟩
  | fetch n i =>
      refine Or.inr (Or.inl ?_)
      rcases hlive : w.live n with _ | ⟨t, _ | ⟨c, todo⟩⟩
      · simp [step, hlive] at h
      · refine ⟨n, i, t, rfl, hlive, ?_⟩
        simp only [step, hlive, Option.some.injEq] at h
        exact h.symm
      · simp [step, hlive] at h
  | call n =>
      refine Or.inr (Or.inr (Or.inl ?_))
      rcases hlive : w.live n with _ | ⟨t, _ | ⟨c, todo⟩⟩
      · simp [step, hlive] at h
      · simp [step, hlive] at h
      · refine ⟨n, t, c, todo, rfl, hlive, ?_⟩
        simp only [step, hlive, Option.some.injEq] at h
        exact h.symm
  | stop n =>
      refine Or.inr (Or.inr (Or.inr ?_))
      rcases hlive : w.live n with _ | r
      · simp [step, hlive] at h
      · refine ⟨n, r, rfl, hlive, ?_⟩
        simp only [step, hlive, Option.some.injEq] at h
        exact h.symm

section Recorder

variable {t : BinaryThread}

/-- The flush before an instruction that leaves room for its accesses. -/
def makeRoom (cfg : Config) (zstd : Zstd) (t : BinaryThread) : List Byte × BinaryThread :=
  if t.events.length > eventsPerBlock - 3 then flushThread cfg zstd t else ([], t)

theorem makeRoom_cases (cfg : Config) (zstd : Zstd) (t : BinaryThread) :
    (makeRoom cfg zstd t = ([], t) ∧ t.events.length ≤ eventsPerBlock - 3) ∨
      (makeRoom cfg zstd t = (blockBytes cfg zstd t.id t.events, { t with events := [] }) ∧
        t.events ≠ []) := by
  by_cases h : t.events.length > eventsPerBlock - 3
  · have hne : ¬ t.events.length = 0 := by omega
    refine Or.inr ⟨?_, fun hnil => hne (by rw [hnil, List.length_nil])⟩
    rw [makeRoom, if_pos h, flushThread, if_neg hne]
  · exact Or.inl ⟨by rw [makeRoom, if_neg h], by omega⟩

theorem makeRoom_length (cfg : Config) (zstd : Zstd) (t : BinaryThread) :
    (makeRoom cfg zstd t).2.events.length ≤ eventsPerBlock - 3 := by
  rcases makeRoom_cases cfg zstd t with ⟨h, hlen⟩ | ⟨h, -⟩
  · rw [h]
    exact hlen
  · rw [h]
    exact Nat.zero_le _

/-- The record of the instruction that follows count recorded ones. -/
def instRecord (cfg : Config) (count : Nat) (pc encoding info now : Word) : XtraceEvent where
  address := pc
  dataLo := encoding
  dataHi := if cfg.timestampMode ≠ .none ∧ count % timestampSampleInterval = 0 then now else 0
  metaWord := (info >>> 4).setWidth 32
  size := (info &&& 0xf).setWidth 16
  type := eventInst
  flags := if cfg.timestampMode ≠ .none ∧ count % timestampSampleInterval = 0 then eventFlagTimestampSample else 0

def accessRecord (type : BitVec 8) (addr info : Word) (memory : Word → Byte) : XtraceEvent :=
  captureValue (accessEvent type addr (info >>> 2)) addr (info >>> 2) memory

theorem appendEvent_room (hlen : t.events.length < eventsPerBlock) (e : XtraceEvent) :
    appendEvent cfg zstd t e = ([], { t with events := t.events ++ [e] }) := by
  rw [appendEvent, if_neg (by omega)]

theorem recordInstBinary_eq {pc : Word} (hf : ¬ pcFiltered cfg pc = true) (t : BinaryThread)
    (encoding info now : Word) :
    recordInstBinary cfg zstd t pc encoding info now = ((makeRoom cfg zstd t).1,
      { t with
        events := (makeRoom cfg zstd t).2.events ++ [instRecord cfg t.instructionCount pc encoding info now]
        instructionCount := t.instructionCount + 1 }) := by
  have hroom : (makeRoom cfg zstd t).2.events.length < eventsPerBlock :=
    lt_of_le_of_lt (makeRoom_length cfg zstd t) (by decide)
  have hfields : (makeRoom cfg zstd t).2 = { t with events := (makeRoom cfg zstd t).2.events } := by
    rcases makeRoom_cases cfg zstd t with ⟨h, -⟩ | ⟨h, -⟩
    · rw [h]
    · rw [h]
  have hcount : (makeRoom cfg zstd t).2.instructionCount = t.instructionCount := by rw [hfields]
  have heq : recordInstBinary cfg zstd t pc encoding info now =
      ((makeRoom cfg zstd t).1 ++ (appendEvent cfg zstd (makeRoom cfg zstd t).2
          (instRecord cfg (makeRoom cfg zstd t).2.instructionCount pc encoding info now)).1,
        { (appendEvent cfg zstd (makeRoom cfg zstd t).2
            (instRecord cfg (makeRoom cfg zstd t).2.instructionCount pc encoding info now)).2 with
          instructionCount := (appendEvent cfg zstd (makeRoom cfg zstd t).2
            (instRecord cfg (makeRoom cfg zstd t).2.instructionCount pc encoding info now)).2.instructionCount + 1 }) := by
    rw [recordInstBinary, if_neg hf]
    rfl
  rw [heq, appendEvent_room hroom, hcount, List.append_nil]
  rw [hfields]

theorem recordBinary_emits (cfg : Config) (zstd : Zstd) (hlen : t.events.length ≤ eventsPerBlock) (c : Capture) :
    ∃ es chunks, Emits cfg zstd t (recordBinary cfg zstd t c).1 (recordBinary cfg zstd t c).2 es chunks := by
  have hnothing : Emits cfg zstd t [] t [] [] := Emits.nothing rfl rfl hlen
  cases c with
  | inst pc encoding instType inst instLen now =>
      rw [recordBinary]
      by_cases hf : pcFiltered cfg pc = true
      · rw [recordInstBinary, if_pos hf]
        exact ⟨[], [], hnothing⟩
      · rw [recordInstBinary_eq hf]
        refine ⟨[instRecord cfg t.instructionCount pc encoding (instInfo instType inst instLen) now], ?_⟩
        rcases makeRoom_cases cfg zstd t with ⟨h, hroom⟩ | ⟨h, hne⟩
        · refine ⟨[], ?_⟩
          rw [h]
          refine ⟨rfl, by simp, rfl, rfl, ?_⟩
          rw [List.length_append, List.length_singleton]
          exact (Nat.add_le_add_right hroom 1).trans (by decide)
        · refine ⟨[t.events], ?_⟩
          rw [h]
          exact ⟨by rw [List.flatMap_singleton], by simpa using ⟨hne, hlen⟩, by simp, rfl,
            show 1 ≤ eventsPerBlock by decide⟩
  | accessPre pc addr info memory =>
      rw [recordBinary, recordAccessPreBinary]
      by_cases hf : pcFiltered cfg pc = true
      · rw [if_pos hf]
        exact ⟨[], [], hnothing⟩
      · rw [if_neg hf]
        by_cases hl : info &&& infoLoad ≠ 0
        · obtain ⟨chunks, hemit⟩ := appendEvent_emits cfg zstd hlen (accessRecord eventLoad addr info memory)
          refine ⟨[accessRecord eventLoad addr info memory], chunks, ?_⟩
          by_cases hs : info &&& infoStore ≠ 0
          · simp only [if_pos hl, if_pos hs]
            exact hemit.frame rfl rfl
          · simp only [if_pos hl, if_neg hs]
            exact hemit
        · refine ⟨[], [], ?_⟩
          by_cases hs : info &&& infoStore ≠ 0
          · simp only [if_neg hl, if_pos hs]
            exact hnothing.frame rfl rfl
          · simp only [if_neg hl, if_neg hs]
            exact hnothing
  | storePost memory =>
      rw [recordBinary, recordStorePostBinary]
      by_cases hp : t.storePending
      · obtain ⟨chunks, hemit⟩ := appendEvent_emits cfg zstd hlen
          (accessRecord eventStore t.storeAddr t.storeInfo memory)
        rw [if_neg (by simp [hp])]
        exact ⟨_, chunks, hemit.frame rfl rfl⟩
      · rw [if_pos (by simp [hp])]
        exact ⟨[], [], hnothing⟩

end Recorder

section File

/-- A block of the file: the thread number it was written for and its events. -/
abbrev Block := BitVec 32 × List XtraceEvent

def blocksBytes (cfg : Config) (zstd : Zstd) (blocks : List Block) : List Byte :=
  blocks.flatMap fun b => blockBytes cfg zstd b.1 b.2

theorem blocksBytes_append (cfg : Config) (zstd : Zstd) (blocks blocks' : List Block) :
    blocksBytes cfg zstd (blocks ++ blocks') = blocksBytes cfg zstd blocks ++ blocksBytes cfg zstd blocks' :=
  List.flatMap_append

theorem blocksBytes_of_thread (cfg : Config) (zstd : Zstd) (id : BitVec 32) (chunks : List (List XtraceEvent)) :
    blocksBytes cfg zstd (chunks.map (id, ·)) = chunks.flatMap (blockBytes cfg zstd id) := by
  rw [blocksBytes, List.flatMap_map]

/-- The buffers fit, and the file has nothing but whole blocks after its header. -/
structure Whole (cfg : Config) (zstd : Zstd) (w : Tracer) : Prop where
  length_le : ∀ n r, w.live n = some r → r.thread.events.length ≤ eventsPerBlock
  file_eq : ∃ blocks : List Block, (∀ b ∈ blocks, Flushable b.2) ∧
    w.file = headerFormat.write (fileHeader cfg) ++ blocksBytes cfg zstd blocks

theorem whole_start (cfg : Config) (zstd : Zstd) : Whole cfg zstd (tracerStart cfg) where
  length_le n r h := nomatch h
  file_eq := ⟨[], by simp, by simp [tracerStart, blocksBytes]⟩

theorem Whole.append (h : Whole cfg zstd w) {t t' : BinaryThread} {out : List Byte} {es : List XtraceEvent}
    {chunks : List (List XtraceEvent)} (hemit : Emits cfg zstd t out t' es chunks) :
    ∃ blocks : List Block, (∀ b ∈ blocks, Flushable b.2) ∧
      w.file ++ out = headerFormat.write (fileHeader cfg) ++ blocksBytes cfg zstd blocks := by
  obtain ⟨blocks, hblocks, hfile⟩ := h.file_eq
  refine ⟨blocks ++ chunks.map (t.id, ·), ?_, ?_⟩
  · intro b hb
    rcases List.mem_append.mp hb with hb | hb
    · exact hblocks b hb
    · obtain ⟨c, hc, rfl⟩ := List.mem_map.mp hb
      exact hemit.flushable c hc
  · rw [hfile, hemit.out_eq, blocksBytes_append, blocksBytes_of_thread, List.append_assoc]

theorem update_live {live : Nat → Option Running} {n : Nat} {r : Option Running} {P : Running → Prop}
    (hlive : ∀ m s, live m = some s → P s) (hr : ∀ s, r = some s → P s) (m : Nat) (s : Running)
    (h : Function.update live n r m = some s) : P s := by
  by_cases hm : m = n
  · subst hm
    rw [Function.update_self] at h
    exact hr s h
  · rw [Function.update_of_ne hm] at h
    exact hlive m s h

theorem Whole.step (h : Whole cfg zstd w) (hstep : step cfg zstd w a = some w') : Whole cfg zstd w' := by
  rcases step_cases hstep with ⟨-, rfl⟩ | ⟨n, i, t, -, hlive, rfl⟩ | ⟨n, t, c, todo, -, hlive, rfl⟩ |
    ⟨n, r, -, hlive, rfl⟩
  · refine ⟨update_live h.length_le ?_, h.file_eq⟩
    rintro s ⟨⟩
    exact Nat.zero_le _
  · refine ⟨update_live h.length_le ?_, h.file_eq⟩
    rintro s ⟨⟩
    exact h.length_le n ⟨t, []⟩ hlive
  · obtain ⟨es, chunks, hemit⟩ := recordBinary_emits cfg zstd (h.length_le n _ hlive) c
    refine ⟨update_live h.length_le ?_, h.append hemit⟩
    rintro s ⟨⟩
    exact hemit.length_le
  · obtain ⟨chunks, hemit, -⟩ := flushThread_emits cfg zstd (h.length_le n _ hlive)
    exact ⟨update_live h.length_le (fun s hs => nomatch hs), h.append hemit⟩

theorem run_whole {as : List Action} (hrun : run cfg zstd as = some w) : Whole cfg zstd w :=
  run_invariant cfg zstd (whole_start cfg zstd) (fun _ _ _ h hstep => h.step hstep) hrun

end File

end Mambo.XtraceThreads
