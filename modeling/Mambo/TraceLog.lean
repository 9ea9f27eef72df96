import Mambo.TraceState

namespace Mambo.TraceLog

open TraceState

section Events

def isCreate : Event → Bool
  | .create _ => true
  | _ => false

def sinceCreate (events : List Event) : List Event := events.takeWhile fun e => !isCreate e

def sinceFlush (events : List Event) : List Event := events.takeWhile (· ≠ .flush)

def lastCreate (events : List Event) : Option Nat :=
  events.findSome? fun
    | .create entry => some entry
    | _ => none

def Resolved (events : List Event) (addr : Nat) : Prop :=
  ∃ target, .lookup target addr ∈ sinceFlush events ∨ ∃ id, .scan target addr id ∈ sinceFlush events

/-- A trace is entered in the hash table only if it is the one begun last and the
cache was not flushed since then; after a flush a call returns only addresses that
were looked up or scanned after it. -/
def Atomic : List Event → Prop
  | [] => True
  | .commit _ entry :: older => (.flush ∉ sinceCreate older ∧ lastCreate older = some entry) ∧ Atomic older
  | .returned addr :: older => (.flush ∈ sinceCreate older → Resolved older addr) ∧ Atomic older
  | _ :: older => Atomic older

/-- The events other than the start, the stubs and the end of a trace and the end
of a call. -/
def inner : Event → Bool
  | .create _ | .commit _ _ | .stub _ | .returned _ => false
  | _ => true

variable {new older : List Event}

theorem Atomic.append (h : Atomic older) (hnew : ∀ e ∈ new, inner e) : Atomic (new ++ older) := by
  induction new with
  | nil => exact h
  | cons e rest ih =>
      have hrest := ih fun e he => hnew e (List.mem_cons_of_mem _ he)
      have he := hnew e List.mem_cons_self
      cases e with
      | create | commit | stub | returned => exact nomatch he
      | flush | lookup | scan | link | patch => exact hrest

theorem inner_not_create {e : Event} (h : inner e) : isCreate e = false := by
  cases e with
  | create => exact nomatch h
  | flush | lookup | scan | commit | link | patch | stub | returned => rfl

theorem sinceCreate_append (hnew : ∀ e ∈ new, inner e) : sinceCreate (new ++ older) = new ++ sinceCreate older := by
  refine List.takeWhile_append_of_pos ?_
  intro e he
  rw [inner_not_create (hnew e he)]
  rfl

theorem lastCreate_append (hnew : ∀ e ∈ new, inner e) : lastCreate (new ++ older) = lastCreate older := by
  rw [lastCreate, List.findSome?_append]
  have hnone : new.findSome? (fun e => match e with
      | .create entry => some entry
      | _ => none) = none := by
    rw [List.findSome?_eq_none_iff]
    intro e he
    have hin := hnew e he
    cases e with
    | create => exact nomatch hin
    | flush | lookup | scan | commit | link | patch | stub | returned => rfl
  rw [hnone]
  rfl

theorem sinceFlush_append (h : .flush ∉ new) : sinceFlush (new ++ older) = new ++ sinceFlush older := by
  refine List.takeWhile_append_of_pos ?_
  intro e he
  exact decide_eq_true fun heq => h (heq ▸ he)

theorem Resolved.append {addr : Nat} (h : Resolved older addr) (hnew : .flush ∉ new) : Resolved (new ++ older) addr := by
  obtain ⟨target, hlookup | ⟨id, hscan⟩⟩ := h
  · exact ⟨target, Or.inl (by rw [sinceFlush_append hnew]; exact List.mem_append_right _ hlookup)⟩
  · exact ⟨target, Or.inr ⟨id, by rw [sinceFlush_append hnew]; exact List.mem_append_right _ hscan⟩⟩

theorem live_create_mem {events : List Event} {entry : Nat} (hflush : .flush ∉ sinceCreate events)
    (hlast : lastCreate events = some entry) : .create entry ∈ sinceFlush events := by
  induction events with
  | nil => exact nomatch hlast
  | cons e rest ih =>
      by_cases hcreate : isCreate e
      · cases e with
        | create entry' =>
            obtain rfl : entry' = entry := Option.some.inj hlast
            exact List.mem_cons_self
        | flush | lookup | scan | commit | link | patch | stub | returned => exact nomatch hcreate
      · have hsince : sinceCreate (e :: rest) = e :: sinceCreate rest :=
          List.takeWhile_cons_of_pos (by simpa using hcreate)
        rw [hsince, List.mem_cons, not_or] at hflush
        have hrest : .create entry ∈ sinceFlush rest := by
          refine ih hflush.2 ?_
          cases e with
          | create => exact absurd rfl hcreate
          | flush | lookup | scan | commit | link | patch | stub | returned => exact hlast
        rw [sinceFlush, List.takeWhile_cons_of_pos (by simpa using Ne.symm hflush.1)]
        exact List.mem_cons_of_mem _ hrest

end Events

variable {T : Type} {env : Env T}

theorem bind_ok {ε α β : Type} {x : Except ε α} {f : α → Except ε β} {r : β} (h : (x >>= f) = .ok r) :
    ∃ a, x = .ok a ∧ f a = .ok r := by
  cases x with
  | error e => exact nomatch h
  | ok a => exact ⟨a, rfl, h⟩

def After {α : Type} (x : Except Stop α) (p : α → Prop) : Prop := ∀ a, x = .ok a → p a

instance {α : Type} (x : Except Stop α) (p : α → Prop) [DecidablePred p] : Decidable (After x p) :=
  match x with
  | .error _ => isTrue fun _ h => nomatch h
  | .ok a => decidable_of_iff (p a) ⟨fun hp _ h => Except.ok.inj h ▸ hp, fun h => h a rfl⟩

section Scans

/-- A scan of fragment id changes the number of blocks and what the blocks hold,
but no list of links, and no exit other than that of the fragment. -/
structure Framed (id : Nat) (t t' : Thread T) : Prop where
  rest : t' = { t with freeBlock := t'.freeBlock, codeCacheMeta := t'.codeCacheMeta }
  linked : ∀ i, (t'.codeCacheMeta i).linkedFrom = (t.codeCacheMeta i).linkedFrom
  exits : ∀ i, i ≠ id → (t'.codeCacheMeta i).exitBranchType = (t.codeCacheMeta i).exitBranchType
  sources : ∀ i, (t'.codeCacheMeta i).sourceAddr = (t.codeCacheMeta i).sourceAddr

variable {t t' t'' : Thread T} {id : Nat}

theorem Framed.refl : Framed id t t := ⟨rfl, fun _ => rfl, fun _ _ => rfl, fun _ => rfl⟩

theorem Framed.trans (h : Framed id t t') (h' : Framed id t' t'') : Framed id t t'' := by
  refine ⟨?_, fun i => (h'.linked i).trans (h.linked i), fun i hi => (h'.exits i hi).trans (h.exits i hi),
    fun i => (h'.sources i).trans (h.sources i)⟩
  rw [h'.rest, h.rest]

theorem framed_setMeta (i : Nat) (f : CodeCacheMeta → CodeCacheMeta)
    (hlinked : (f (t.codeCacheMeta i)).linkedFrom = (t.codeCacheMeta i).linkedFrom)
    (hexit : i ≠ id → (f (t.codeCacheMeta i)).exitBranchType = (t.codeCacheMeta i).exitBranchType)
    (hsource : (f (t.codeCacheMeta i)).sourceAddr = (t.codeCacheMeta i).sourceAddr) :
    Framed id t (t.setMeta i f) := by
  have hcases : ∀ j, (t.setMeta i f).codeCacheMeta j = t.codeCacheMeta j ∨
      j = i ∧ (t.setMeta i f).codeCacheMeta j = f (t.codeCacheMeta i) := by
    intro j
    by_cases hj : j = i
    · subst hj
      exact Or.inr ⟨rfl, Function.update_self ..⟩
    · exact Or.inl (Function.update_of_ne hj ..)
  refine ⟨rfl, ?_, ?_, ?_⟩
  · intro j
    rcases hcases j with heq | ⟨rfl, heq⟩
    · rw [heq]
    · rw [heq, hlinked]
  · intro j hj
    rcases hcases j with heq | ⟨rfl, heq⟩
    · rw [heq]
    · rw [heq, hexit hj]
  · intro j
    rcases hcases j with heq | ⟨rfl, heq⟩
    · rw [heq]
    · rw [heq, hsource]

theorem framed_setFreeBlock (n : Nat) : Framed id t (t.setFreeBlock n) :=
  ⟨rfl, fun _ => rfl, fun _ _ => rfl, fun _ => rfl⟩

theorem allocateOverflows_framed {n : Nat} (h : allocateOverflows id n t = .ok t') : Framed id t t' := by
  induction n generalizing t with
  | zero =>
      obtain rfl := Except.ok.inj h
      exact Framed.refl
  | succ n ih =>
      rw [allocateOverflows] at h
      split_ifs at h with hfree
      have hstep : Framed id t (t.setMeta t.freeBlock fun m => { m with actualId := id }) :=
        framed_setMeta _ _ rfl (fun _ => rfl) rfl
      exact (hstep.trans (framed_setFreeBlock _)).trans (ih h)

theorem scanCode_framed {type : CcType} {address writeP size : Nat}
    (h : scanCode env t type address id writeP = .ok (t', size)) : Framed id t t' := by
  obtain ⟨s, -, h⟩ := bind_ok h
  obtain ⟨t₁, hover, h⟩ := bind_ok h
  obtain ⟨rfl, -⟩ := Prod.mk.inj (Except.ok.inj h)
  exact (allocateOverflows_framed hover).trans (framed_setMeta _ _ rfl (fun hne => absurd rfl hne) rfl)

def entered (env : Env T) (t : Thread T) (target id : Nat) (table : T) : Thread T :=
  ((t.setMeta id fun m => { m with sourceAddr := target, tpc := env.block id }).setEntryAddress table).log
    (.scan target (env.block id) id)

/-- What lookup_or_scan does: it finds a translation, scans a stub again or
scans a new block, for which it may flush the cache first. -/
inductive Looked (env : Env T) (t : Thread T) (target : Nat) : Thread T → Nat → Prop
  | found (addr : Nat) : Looked env t target (t.log (.lookup target addr)) addr
  | stub {t' : Thread T} (id : Nat) (htype : (t.codeCacheMeta id).exitBranchType = .stub)
      (h : Framed id (entered env t target id t.entryAddress) t') : Looked env t target t' (env.block id)
  | scanned {t' : Thread T} (table : T) (hmiss : env.hashLookup t.entryAddress target = uintMax)
      (h : Framed (allocateBb env t).2 (entered env (allocateBb env t).1 target (allocateBb env t).2 table) t') :
      Looked env t target t' (env.block (allocateBb env t).2)

theorem lookupOrScan_looked {target addr : Nat} (h : lookupOrScan env t target = .ok (t', addr)) :
    Looked env t target t' addr := by
  rw [lookupOrScan] at h
  by_cases hmiss : env.hashLookup t.entryAddress target ≠ uintMax
  · rw [if_pos hmiss] at h
    cases hstub : stubBlock env t (env.hashLookup t.entryAddress target) with
    | none =>
        rw [hstub] at h
        obtain ⟨rfl, rfl⟩ := Prod.mk.inj (Except.ok.inj h)
        exact .found _
    | some id =>
        rw [hstub] at h
        obtain ⟨⟨t₁, size⟩, hscan, h⟩ := bind_ok h
        obtain ⟨rfl, rfl⟩ := Prod.mk.inj (Except.ok.inj h)
        refine .stub id ?_ (scanCode_framed hscan)
        rw [stubBlock] at hstub
        split_ifs at hstub
        exact of_decide_eq_true (Option.filter_eq_some_iff.mp hstub).2
  · rw [if_neg hmiss, scan] at h
    dsimp only at h
    split_ifs at h
    obtain ⟨⟨t₁, size⟩, hscan, h⟩ := bind_ok h
    obtain ⟨rfl, rfl⟩ := Prod.mk.inj (Except.ok.inj h)
    exact .scanned _ (not_not.mp hmiss) (scanCode_framed hscan)

end Scans

section Progress

/-- Part of a call between the start and the end of a trace: a flush leaves the
trace cache empty and is remembered, and nothing else changes the trace cache. -/
structure Proceeds (env : Env T) (t t' : Thread T) : Prop where
  events : ∃ new, t'.events = new ++ t.events ∧ (∀ e ∈ new, inner e) ∧
    (.flush ∈ new → t'.wasFlushed = true ∧ t'.traceId = codeCacheSize ∧ t'.traceCacheNext = env.traces) ∧
    (.flush ∉ new → t'.wasFlushed = t.wasFlushed ∧ t'.traceId = t.traceId ∧ t'.traceCacheNext = t.traceCacheNext)
  entry : t'.activeTrace.entryAddr = t.activeTrace.entryAddr
  source : t'.activeTrace.sourceBb = t.activeTrace.sourceBb

variable {t t' t'' : Thread T} {target addr id : Nat}

theorem Proceeds.trans (h : Proceeds env t t') (h' : Proceeds env t' t'') : Proceeds env t t'' := by
  obtain ⟨⟨new, hnew, hinner, hflush, hsame⟩, hentry, hsource⟩ := h
  obtain ⟨⟨new', hnew', hinner', hflush', hsame'⟩, hentry', hsource'⟩ := h'
  refine ⟨⟨new' ++ new, by rw [hnew', hnew, List.append_assoc], ?_, ?_, ?_⟩, hentry'.trans hentry, hsource'.trans hsource⟩
  · intro e he
    exact (List.mem_append.mp he).elim (hinner' e) (hinner e)
  · intro hin
    by_cases hlate : .flush ∈ new'
    · exact hflush' hlate
    · obtain ⟨hf, hid, hnext⟩ := hsame' hlate
      rw [hf, hid, hnext]
      exact hflush ((List.mem_append.mp hin).resolve_left hlate)
  · intro hnot
    rw [List.mem_append, not_or] at hnot
    obtain ⟨hf, hid, hnext⟩ := hsame' hnot.1
    rw [hf, hid, hnext]
    exact hsame hnot.2

theorem proceeds_silent
    (h : (t'.events, t'.wasFlushed, t'.traceId, t'.traceCacheNext, t'.activeTrace.entryAddr, t'.activeTrace.sourceBb) =
      (t.events, t.wasFlushed, t.traceId, t.traceCacheNext, t.activeTrace.entryAddr, t.activeTrace.sourceBb)) :
    Proceeds env t t' := by
  simp only [Prod.mk.injEq] at h
  obtain ⟨hevents, hflushed, hid, hnext, hentry, hsource⟩ := h
  refine ⟨⟨[], hevents, ?_, ?_, fun _ => ⟨hflushed, hid, hnext⟩⟩, hentry, hsource⟩
  · intro e he
    exact nomatch he
  · intro he
    exact nomatch he

theorem Proceeds.refl : Proceeds env t t := proceeds_silent rfl

theorem proceeds_setMeta (i : Nat) (f : CodeCacheMeta → CodeCacheMeta) : Proceeds env t (t.setMeta i f) :=
  proceeds_silent rfl

theorem proceeds_setActive {f : TraceInProg → TraceInProg} (hentry : (f t.activeTrace).entryAddr = t.activeTrace.entryAddr)
    (hsource : (f t.activeTrace).sourceBb = t.activeTrace.sourceBb) : Proceeds env t (t.setActive f) :=
  ⟨(proceeds_silent rfl : Proceeds env t t).events, hentry, hsource⟩

theorem proceeds_setWriteP (p : Nat) : Proceeds env t (t.setWriteP p) := proceeds_setActive rfl rfl

theorem proceeds_log {e : Event} (hinner : inner e) (hflush : e ≠ .flush) : Proceeds env t (t.log e) := by
  refine ⟨⟨[e], rfl, ?_, ?_, fun _ => ⟨rfl, rfl, rfl⟩⟩, rfl, rfl⟩
  · intro e' he
    rwa [List.mem_singleton.mp he]
  · intro he
    exact absurd (List.mem_singleton.mp he).symm hflush

theorem proceeds_flush : Proceeds env t (flushCodeCache env t) := by
  refine ⟨⟨[.flush], rfl, ?_, fun _ => ⟨rfl, rfl, rfl⟩, fun hnot => absurd List.mem_cons_self hnot⟩, rfl, rfl⟩
  intro e he
  rw [List.mem_singleton.mp he]
  rfl

theorem Framed.proceeds (h : Framed id t t') : Proceeds env t t' := by
  apply proceeds_silent
  rw [h.rest]

theorem allocateBb_proceeds : Proceeds env t (allocateBb env t).1 := by
  rw [allocateBb]
  dsimp only
  split_ifs
  · exact proceeds_flush.trans (proceeds_silent rfl)
  · exact proceeds_silent rfl

theorem entered_proceeds (table : T) : Proceeds env t (entered env t target id table) := by
  refine Proceeds.trans (proceeds_silent ?_) (proceeds_log rfl Event.noConfusion)
  rfl

theorem Looked.proceeds (h : Looked env t target t' addr) : Proceeds env t t' := by
  cases h with
  | found => exact proceeds_log rfl Event.noConfusion
  | stub id _ hframed => exact (entered_proceeds _).trans hframed.proceeds
  | scanned table _ hframed => exact (allocateBb_proceeds.trans (entered_proceeds table)).trans hframed.proceeds

/-- What a part leaves of a trace under construction: everything but the id of the
next fragment. -/
def SameTrace (t t' : Thread T) : Prop :=
  t'.activeTrace = { t.activeTrace with id := t'.activeTrace.id } ∧ t'.traceFragmentCount = t.traceFragmentCount

theorem SameTrace.refl : SameTrace t t := ⟨rfl, rfl⟩

theorem SameTrace.trans (h : SameTrace t t') (h' : SameTrace t' t'') : SameTrace t t'' := by
  refine ⟨?_, h'.2.trans h.2⟩
  rw [h'.1, h.1]

theorem Framed.sameTrace (h : Framed id t t') : SameTrace t t' := by
  rw [h.rest]
  exact ⟨rfl, rfl⟩

theorem Looked.sameTrace (h : Looked env t target t' addr) : SameTrace t t' := by
  cases h with
  | found => exact ⟨rfl, rfl⟩
  | stub id _ hframed =>
      rw [hframed.rest]
      exact ⟨rfl, rfl⟩
  | scanned table _ hframed =>
      have hblock : SameTrace t (allocateBb env t).1 := by
        rw [allocateBb]
        dsimp only
        split_ifs
        · exact ⟨rfl, rfl⟩
        · exact ⟨rfl, rfl⟩
      rw [hframed.rest]
      exact hblock

theorem Looked.resolved (h : Looked env t target t' addr) : Resolved t'.events addr := by
  cases h with
  | found => exact ⟨target, Or.inl List.mem_cons_self⟩
  | stub id _ hframed =>
      rw [hframed.rest]
      exact ⟨target, Or.inr ⟨_, List.mem_cons_self⟩⟩
  | scanned table _ hframed =>
      rw [hframed.rest]
      exact ⟨target, Or.inr ⟨_, List.mem_cons_self⟩⟩

theorem activeTraceLookupOrScan_proceeds (h : activeTraceLookupOrScan env t target = .ok (t', addr)) :
    Proceeds env t t' := by
  rw [activeTraceLookupOrScan] at h
  split_ifs at h
  · obtain ⟨rfl, -⟩ := Prod.mk.inj (Except.ok.inj h)
    exact Proceeds.refl
  · exact (lookupOrScan_looked h).proceeds

theorem activeTraceLookupOrScan_sameTrace (h : activeTraceLookupOrScan env t target = .ok (t', addr)) :
    SameTrace t t' := by
  rw [activeTraceLookupOrScan] at h
  split_ifs at h
  · obtain ⟨rfl, -⟩ := Prod.mk.inj (Except.ok.inj h)
    exact ⟨rfl, rfl⟩
  · exact (lookupOrScan_looked h).sameTrace

def Calm (env : Env T) (t t' : Thread T) : Prop := Proceeds env t t' ∧ t'.wasFlushed = t.wasFlushed

theorem Calm.trans (h : Calm env t t') (h' : Calm env t' t'') : Calm env t t'' :=
  ⟨h.1.trans h'.1, h'.2.trans h.2⟩

theorem Calm.refl : Calm env t t := ⟨Proceeds.refl, rfl⟩

theorem calm_log {e : Event} (hinner : inner e) (hflush : e ≠ .flush) : Calm env t (t.log e) :=
  ⟨proceeds_log hinner hflush, rfl⟩

theorem recordCcLink_calm {linkedFrom : Nat} (h : recordCcLink env t linkedFrom addr = .ok t') : Calm env t t' := by
  rw [recordCcLink] at h
  split at h
  · obtain rfl := Except.ok.inj h
    exact Calm.refl
  · split_ifs at h
    obtain rfl := Except.ok.inj h
    exact ⟨proceeds_silent rfl, rfl⟩

theorem recordCcLink_same {a b : Nat} (h : recordCcLink env t a b = .ok t') :
    t'.events = t.events ∧ t'.activeTrace = t.activeTrace := by
  rw [recordCcLink] at h
  split at h
  · obtain rfl := Except.ok.inj h
    exact ⟨rfl, rfl⟩
  · split_ifs at h
    obtain rfl := Except.ok.inj h
    exact ⟨rfl, rfl⟩

theorem traceRecordExit_ok {e : TraceExit} (h : traceRecordExit t e = .ok t') :
    t.activeTrace.exits.length < maxTraceRecExits ∧ t' = t.setActive fun a => { a with exits := a.exits ++ [e] } := by
  rw [traceRecordExit] at h
  split_ifs at h with hlt
  exact ⟨hlt, (Except.ok.inj h).symm⟩

theorem traceRecordExit_proceeds {e : TraceExit} (h : traceRecordExit t e = .ok t') : Proceeds env t t' := by
  obtain ⟨-, rfl⟩ := traceRecordExit_ok h
  exact proceeds_silent rfl

theorem allocateTraceFragment_proceeds (h : allocateTraceFragment t = .ok (t', id)) : Proceeds env t t' := by
  rw [allocateTraceFragment] at h
  split_ifs at h
  obtain ⟨rfl, -⟩ := Prod.mk.inj (Except.ok.inj h)
  exact proceeds_silent rfl

/-- The cache would be flushed to scan an address. -/
def WouldFlush (env : Env T) (t : Thread T) (target : Nat) : Prop :=
  target ≠ getActiveTraceSpc t ∧ env.hashLookup t.entryAddress target = uintMax ∧
    codeCacheSize - codeCacheOverp ≤ t.freeBlock

instance (target : Nat) : Decidable (WouldFlush env t target) :=
  inferInstanceAs (Decidable (target ≠ getActiveTraceSpc t ∧ env.hashLookup t.entryAddress target = uintMax ∧
    codeCacheSize - codeCacheOverp ≤ t.freeBlock))

theorem activeTraceLookupOrScan_unflushed (hno : ¬ WouldFlush env t target)
    (hscan : activeTraceLookupOrScan env t target = .ok (t', addr)) : t'.wasFlushed = t.wasFlushed := by
  rw [activeTraceLookupOrScan] at hscan
  split_ifs at hscan with hspc
  · obtain ⟨rfl, -⟩ := Prod.mk.inj (Except.ok.inj hscan)
    rfl
  · cases lookupOrScan_looked hscan with
    | found => rfl
    | stub id _ hframed =>
        rw [hframed.rest]
        rfl
    | scanned table hmiss hframed =>
        have hroom : ¬ t.freeBlock ≥ codeCacheSize - codeCacheOverp := fun hfull => hno ⟨hspc, hmiss, hfull⟩
        rw [hframed.rest]
        change (allocateBb env t).1.wasFlushed = t.wasFlushed
        rw [allocateBb, if_neg hroom]
        rfl

end Progress

section Invariant

/-- What holds of a thread at any time: the events so far are in order, and after
a flush the trace cache is empty until another trace is begun. -/
structure Ordered (env : Env T) (t : Thread T) : Prop where
  atomic : Atomic t.events
  empty : .flush ∈ sinceCreate t.events → t.traceId = codeCacheSize ∧ t.traceCacheNext = env.traces

/-- The trace under construction is the one begun last, and the cache was not
flushed since then. -/
def Live (t : Thread T) : Prop := .flush ∉ sinceCreate t.events ∧ lastCreate t.events = some t.activeTrace.entryAddr

variable {t t' : Thread T} {addr : Nat}

theorem Ordered.proceeds (h : Ordered env t) (hp : Proceeds env t t') : Ordered env t' := by
  obtain ⟨⟨new, hnew, hinner, hflush, hsame⟩, -, -⟩ := hp
  refine ⟨by rw [hnew]; exact h.atomic.append hinner, ?_⟩
  rw [hnew, sinceCreate_append hinner]
  intro hin
  by_cases hlate : .flush ∈ new
  · exact (hflush hlate).2
  · obtain ⟨-, hid, hnext⟩ := hsame hlate
    rw [hid, hnext]
    exact h.empty ((List.mem_append.mp hin).resolve_left hlate)

/-- No flush is remembered after a part, so there was none in it. -/
theorem Proceeds.unflushed (hp : Proceeds env t t') (hf : t'.wasFlushed = false) :
    t.wasFlushed = false ∧ ∃ new, t'.events = new ++ t.events ∧ (∀ e ∈ new, inner e) ∧ .flush ∉ new := by
  obtain ⟨⟨new, hnew, hinner, hflush, hsame⟩, -, -⟩ := hp
  have hlate : .flush ∉ new := by
    intro hin
    rw [(hflush hin).1] at hf
    exact nomatch hf
  exact ⟨(hsame hlate).1 ▸ hf, new, hnew, hinner, hlate⟩

theorem Live.proceeds (h : Live t) (hp : Proceeds env t t') (hf : t'.wasFlushed = false) : Live t' := by
  obtain ⟨-, new, hnew, hinner, hlate⟩ := hp.unflushed hf
  refine ⟨?_, ?_⟩
  · rw [hnew, sinceCreate_append hinner, List.mem_append, not_or]
    exact ⟨hlate, h.1⟩
  · rw [hnew, lastCreate_append hinner, hp.entry]
    exact h.2

theorem Resolved.proceeds (h : Resolved t.events addr) (hp : Proceeds env t t') (hf : t'.wasFlushed = false) :
    Resolved t'.events addr := by
  obtain ⟨-, new, hnew, -, hlate⟩ := hp.unflushed hf
  rw [hnew]
  exact h.append hlate

theorem ordered_flush (h : Atomic t.events) : Ordered env (flushCodeCache env t) := ⟨h, fun _ => ⟨rfl, rfl⟩⟩

theorem ordered_create {entry : Nat} (h : Atomic t.events) : Ordered env (t.log (.create entry)) :=
  ⟨h, fun hin => nomatch hin⟩

theorem live_create : Live (t.log (.create t.activeTrace.entryAddr)) := by
  refine ⟨?_, rfl⟩
  intro hin
  exact nomatch hin

theorem Ordered.returned (h : Ordered env t) (haddr : .flush ∈ sinceCreate t.events → Resolved t.events addr) :
    Ordered env (t.log (.returned addr)) := by
  refine ⟨⟨haddr, h.atomic⟩, ?_⟩
  intro hin
  exact h.empty ((List.mem_cons.mp hin).resolve_left (by simp))

theorem Live.log (h : Live t) {e : Event} (hcreate : isCreate e = false) (hflush : e ≠ .flush) : Live (t.log e) := by
  refine ⟨?_, ?_⟩
  · change .flush ∉ List.takeWhile _ (e :: t.events)
    rw [List.takeWhile_cons_of_pos (by rw [hcreate]; rfl), List.mem_cons, not_or]
    exact ⟨Ne.symm hflush, h.1⟩
  · cases e with
    | create => exact nomatch hcreate
    | flush | lookup | scan | commit | link | patch | stub | returned => exact h.2

theorem Ordered.commit (h : Ordered env t) (hlive : Live t) (table : T) (spc : Nat) :
    Ordered env ((t.setEntryAddress table).log (.commit spc t.activeTrace.entryAddr)) ∧
      Live ((t.setEntryAddress table).log (.commit spc t.activeTrace.entryAddr)) := by
  have hcommitted := Live.log (t := t.setEntryAddress table) hlive (e := .commit spc t.activeTrace.entryAddr) rfl Event.noConfusion
  exact ⟨⟨⟨hlive, h.atomic⟩, fun hin => absurd hin hcommitted.1⟩, hcommitted⟩

theorem Ordered.setTrace (h : Ordered env t) (hlive : Live t) (id next : Nat) : Ordered env (t.setTrace id next) :=
  ⟨h.atomic, fun hin => absurd hin hlive.1⟩

end Invariant

end Mambo.TraceLog
