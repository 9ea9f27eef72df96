import Mambo.RvTraceFlushes

namespace Mambo.RvTraceLinks

open TraceState TraceLog TraceRuns RvTraces RvTraceRuns RvTraceFlushes

section Events

variable {T : Type}

def LiveFragment (events : List Event) : Fragment → Prop
  | .block id => ∃ target tpc, .scan target tpc id ∈ sinceFlush events
  | .trace entry => .create entry ∈ sinceFlush events

/-- A link with room for a number of bytes that was written after the last flush in
a fragment that is still live. -/
def LiveLink (events : List Event) (addr room : Nat) : Prop :=
  ∃ size fragment, .link addr size fragment ∈ sinceFlush events ∧ room ≤ size ∧ LiveFragment events fragment

def linkAddress : Event → Option Nat
  | .link addr _ _ => some addr
  | _ => none

def branchExit : Nat := 44

/-- The bytes are those of a live link, or they are in the conditional exit of a
block that such a link is in. -/
def Rewrites (env : Env T) (events : List Event) (addr size : Nat) : Prop :=
  LiveLink events addr size ∨ size ≤ branchExit ∧ ∃ link, link < env.traces ∧ addr ≤ link ∧ link < addr + branchExit ∧
    LiveLink events link 4

/-- Only live links are rewritten. -/
def Patched (env : Env T) : List Event → Prop
  | [] => True
  | .patch addr size :: older => Rewrites env older addr size ∧ Patched env older
  | _ :: older => Patched env older

def scansBlock (id : Nat) : Event → Bool
  | .scan _ _ i => i = id
  | _ => false

instance (events : List Event) : (fragment : Fragment) → Decidable (LiveFragment events fragment)
  | .block id =>
    decidable_of_iff (∃ e ∈ sinceFlush events, scansBlock id e = true) <| by
      constructor
      · rintro ⟨e, he, hid⟩
        cases e with
        | scan target tpc i =>
            obtain rfl : i = id := of_decide_eq_true hid
            exact ⟨target, tpc, he⟩
        | create | commit | returned | flush | lookup | link | patch | stub => exact absurd hid Bool.false_ne_true
      · rintro ⟨target, tpc, hscan⟩
        exact ⟨_, hscan, decide_eq_true rfl⟩
  | .trace entry => inferInstanceAs (Decidable (.create entry ∈ sinceFlush events))

def holdsLink (events : List Event) (addr room : Nat) : Event → Bool
  | .link a size fragment => a = addr ∧ room ≤ size ∧ LiveFragment events fragment
  | _ => false

instance (events : List Event) (addr room : Nat) : Decidable (LiveLink events addr room) :=
  decidable_of_iff (∃ e ∈ sinceFlush events, holdsLink events addr room e = true) <| by
    constructor
    · rintro ⟨e, he, hlink⟩
      cases e with
      | link a size fragment =>
          obtain ⟨rfl, hroom, hlive⟩ := of_decide_eq_true hlink
          exact ⟨size, fragment, he, hroom, hlive⟩
      | create | commit | returned | flush | lookup | scan | patch | stub => exact absurd hlink Bool.false_ne_true
    · rintro ⟨size, fragment, hlink, hroom, hlive⟩
      exact ⟨_, hlink, decide_eq_true ⟨rfl, hroom, hlive⟩⟩

variable {events new older : List Event}

theorem LiveFragment.append {fragment : Fragment} (h : LiveFragment older fragment) (hnew : .flush ∉ new) :
    LiveFragment (new ++ older) fragment := by
  cases fragment with
  | block id =>
      obtain ⟨target, tpc, hscan⟩ := h
      exact ⟨target, tpc, by rw [sinceFlush_append hnew]; exact List.mem_append_right _ hscan⟩
  | trace entry =>
      rw [LiveFragment, sinceFlush_append hnew]
      exact List.mem_append_right _ h

theorem LiveFragment.cons {fragment : Fragment} (h : LiveFragment older fragment) {e : Event} (hne : e ≠ .flush) :
    LiveFragment (e :: older) fragment :=
  LiveFragment.append h fun hin => hne (List.mem_singleton.mp hin).symm

theorem LiveLink.append {addr room : Nat} (h : LiveLink older addr room) (hnew : .flush ∉ new) :
    LiveLink (new ++ older) addr room := by
  obtain ⟨size, fragment, hlink, hroom, hlive⟩ := h
  exact ⟨size, fragment, by rw [sinceFlush_append hnew]; exact List.mem_append_right _ hlink, hroom, hlive.append hnew⟩

theorem LiveLink.mono {addr room room' : Nat} (h : LiveLink older addr room) (hle : room' ≤ room) :
    LiveLink older addr room' := by
  obtain ⟨size, fragment, hlink, hroom, hlive⟩ := h
  exact ⟨size, fragment, hlink, Nat.le_trans hle hroom, hlive⟩

theorem Patched.append {env : Env T} (h : Patched env older) (hnew : ∀ a n, .patch a n ∉ new) :
    Patched env (new ++ older) := by
  induction new with
  | nil => exact h
  | cons e rest ih =>
      have hrest := ih fun a n ha => hnew a n (List.mem_cons_of_mem _ ha)
      cases e with
      | patch a n => exact absurd List.mem_cons_self (hnew a n)
      | create | commit | returned | flush | lookup | scan | link | stub => exact hrest

end Events

variable {T : Type} {env : Env T} {t t' : Thread T}

section Invariant

/-- Every link to a block is live and only live links were rewritten. The blocks
with an exit are those that are live, and the fragments of traces have ids of
their own. -/
structure LinksOk (env : Env T) (t : Thread T) : Prop where
  entries : ∀ id, id < codeCacheSize → ∀ a ∈ (t.codeCacheMeta id).linkedFrom, LiveLink t.events a 4
  patched : Patched env t.events
  blocks : ∀ id, id < codeCacheSize → (t.codeCacheMeta id).exitBranchType ≠ .unknown → LiveFragment t.events (.block id)
  trace_id : codeCacheSize ≤ t.traceId
  active_id : codeCacheSize ≤ t.activeTrace.id

theorem LinksOk.grow (h : LinksOk env t) (new : List Event) (hevents : t'.events = new ++ t.events) (hflush : .flush ∉ new)
    (hpatch : ∀ a n, .patch a n ∉ new)
    (hlinked : ∀ i, i < codeCacheSize → (t'.codeCacheMeta i).linkedFrom = (t.codeCacheMeta i).linkedFrom)
    (hexits : ∀ i, i < codeCacheSize → (t'.codeCacheMeta i).exitBranchType = (t.codeCacheMeta i).exitBranchType)
    (htrace : codeCacheSize ≤ t'.traceId) (hactive : codeCacheSize ≤ t'.activeTrace.id) : LinksOk env t' := by
  refine ⟨?_, hevents ▸ h.patched.append hpatch, ?_, htrace, hactive⟩
  · intro id hid a ha
    rw [hlinked id hid] at ha
    exact hevents ▸ (h.entries id hid a ha).append hflush
  · intro id hid hne
    rw [hexits id hid] at hne
    exact hevents ▸ (h.blocks id hid hne).append hflush

theorem LinksOk.log (h : LinksOk env t) {e : Event} (hflush : e ≠ .flush) (hpatch : ∀ a n, e ≠ .patch a n) : LinksOk env (t.log e) := by
  refine h.grow [e] rfl ?_ ?_ (fun _ _ => rfl) (fun _ _ => rfl) h.trace_id h.active_id
  · intro hin
    exact hflush (List.mem_singleton.mp hin).symm
  · intro a n hin
    exact hpatch a n (List.mem_singleton.mp hin).symm

theorem LinksOk.setActive (h : LinksOk env t) {f : TraceInProg → TraceInProg} (hid : codeCacheSize ≤ (f t.activeTrace).id) :
    LinksOk env (t.setActive f) :=
  ⟨h.entries, h.patched, h.blocks, h.trace_id, hid⟩

theorem LinksOk.setWriteP (h : LinksOk env t) (p : Nat) : LinksOk env (t.setWriteP p) := h.setActive h.active_id

theorem LinksOk.setMeta (h : LinksOk env t) (i : Nat) {f : CodeCacheMeta → CodeCacheMeta}
    (hlinked : (f (t.codeCacheMeta i)).linkedFrom = (t.codeCacheMeta i).linkedFrom)
    (hexit : (f (t.codeCacheMeta i)).exitBranchType = (t.codeCacheMeta i).exitBranchType) : LinksOk env (t.setMeta i f) := by
  have hcases : ∀ j, ((t.setMeta i f).codeCacheMeta j).linkedFrom = (t.codeCacheMeta j).linkedFrom ∧
      ((t.setMeta i f).codeCacheMeta j).exitBranchType = (t.codeCacheMeta j).exitBranchType := by
    intro j
    by_cases hj : j = i
    · subst hj
      have heq : (t.setMeta j f).codeCacheMeta j = f (t.codeCacheMeta j) := Function.update_self ..
      rw [heq]
      exact ⟨hlinked, hexit⟩
    · have heq : (t.setMeta i f).codeCacheMeta j = t.codeCacheMeta j := Function.update_of_ne hj ..
      rw [heq]
      exact ⟨rfl, rfl⟩
  exact h.grow [] rfl (fun hin => by cases hin) (fun _ _ hin => by cases hin) (fun j _ => (hcases j).1)
    (fun j _ => (hcases j).2) h.trace_id h.active_id

theorem LinksOk.flush (h : LinksOk env t) : LinksOk env (flushCodeCache env t) := by
  have hreset : ∀ id, id < codeCacheSize → (flushCodeCache env t).codeCacheMeta id = resetMeta (t.codeCacheMeta id) :=
    fun id hid => if_pos hid
  refine ⟨?_, h.patched, ?_, Nat.le_refl _, Nat.le_refl _⟩
  · intro id hid a ha
    rw [hreset id hid] at ha
    cases ha
  · intro id hid hne
    rw [hreset id hid] at hne
    exact absurd rfl hne

theorem LinksOk.framed (h : LinksOk env t) {id : Nat} (hlive : id < codeCacheSize → LiveFragment t.events (.block id))
    (hframed : Framed id t t') : LinksOk env t' := by
  have hevents : t'.events = t.events := by rw [hframed.rest]
  refine ⟨?_, hevents ▸ h.patched, ?_, ?_, ?_⟩
  · intro i hi a ha
    rw [hframed.linked] at ha
    exact hevents ▸ h.entries i hi a ha
  · intro i hi hne
    rw [hevents]
    by_cases hid : i = id
    · subst hid
      exact hlive hi
    · rw [hframed.exits i hid] at hne
      exact h.blocks i hi hne
  · rw [hframed.rest]
    exact h.trace_id
  · rw [hframed.rest]
    exact h.active_id

theorem LinksOk.setFreeBlock (h : LinksOk env t) (n : Nat) : LinksOk env (t.setFreeBlock n) :=
  ⟨h.entries, h.patched, h.blocks, h.trace_id, h.active_id⟩

theorem LinksOk.allocateBb (h : LinksOk env t) : LinksOk env (allocateBb env t).1 := by
  rw [TraceState.allocateBb]
  dsimp only
  split_ifs
  · exact h.flush.setFreeBlock _
  · exact h.setFreeBlock _

theorem LinksOk.entered (h : LinksOk env t) (target id : Nat) (table : T) : LinksOk env (entered env t target id table) := by
  have hset : LinksOk env (t.setMeta id fun m => { m with sourceAddr := target, tpc := env.block id }) := h.setMeta id rfl rfl
  have htable : LinksOk env ((t.setMeta id fun m => { m with sourceAddr := target, tpc := env.block id }).setEntryAddress table) :=
    ⟨hset.entries, hset.patched, hset.blocks, hset.trace_id, hset.active_id⟩
  exact htable.log Event.noConfusion fun _ _ => Event.noConfusion

theorem LinksOk.looked (h : LinksOk env t) {target addr : Nat} (hlooked : Looked env t target t' addr) : LinksOk env t' := by
  have hlive : ∀ (u : Thread T) id table, LiveFragment (TraceLog.entered env u target id table).events (.block id) :=
    fun u id table => ⟨target, env.block id, List.mem_cons_self⟩
  cases hlooked with
  | found => exact h.log Event.noConfusion fun _ _ => Event.noConfusion
  | stub id _ hframed => exact (h.entered target id _).framed (fun _ => hlive t id _) hframed
  | scanned table _ hframed => exact (h.allocateBb.entered target _ table).framed (fun _ => hlive _ _ table) hframed

theorem LinksOk.activeLooked (h : LinksOk env t) {target addr : Nat}
    (hscan : activeTraceLookupOrScan env t target = .ok (t', addr)) : LinksOk env t' := by
  rw [activeTraceLookupOrScan] at hscan
  split_ifs at hscan
  · obtain ⟨rfl, -⟩ := Prod.mk.inj (Except.ok.inj hscan)
    exact h
  · exact h.looked (lookupOrScan_looked hscan)

theorem LinksOk.record (h : LinksOk env t) {a b : Nat} (new : List Event) (hflush : .flush ∉ new) (hpatch : ∀ a n, .patch a n ∉ new)
    (hlink : LiveLink (new ++ t.events) a 4) {u : Thread T} (hrecord : recordCcLink env t a b = .ok t')
    (hu : u = { t' with events := new ++ t'.events }) : LinksOk env u := by
  rw [recordCcLink] at hrecord
  split at hrecord
  · obtain rfl := Except.ok.inj hrecord
    subst hu
    exact h.grow new rfl hflush hpatch (fun _ _ => rfl) (fun _ _ => rfl) h.trace_id h.active_id
  · rename_i id _
    split_ifs at hrecord
    obtain rfl := Except.ok.inj hrecord
    subst hu
    have hmeta : ∀ j, j ≠ id →
        (t.setMeta id fun m => { m with linkedFrom := a :: m.linkedFrom }).codeCacheMeta j = t.codeCacheMeta j :=
      fun j hj => Function.update_of_ne hj ..
    have hself : (t.setMeta id fun m => { m with linkedFrom := a :: m.linkedFrom }).codeCacheMeta id =
        { t.codeCacheMeta id with linkedFrom := a :: (t.codeCacheMeta id).linkedFrom } := Function.update_self ..
    refine ⟨?_, h.patched.append hpatch, ?_, h.trace_id, h.active_id⟩
    · intro j hj x hx
      by_cases hjid : j = id
      · subst hjid
        change x ∈ ((t.setMeta j fun m => { m with linkedFrom := a :: m.linkedFrom }).codeCacheMeta j).linkedFrom at hx
        rw [hself] at hx
        rcases List.mem_cons.mp hx with rfl | hx
        · exact hlink
        · exact (h.entries j hj x hx).append hflush
      · change x ∈ ((t.setMeta id fun m => { m with linkedFrom := a :: m.linkedFrom }).codeCacheMeta j).linkedFrom at hx
        rw [hmeta j hjid] at hx
        exact (h.entries j hj x hx).append hflush
    · intro j hj hne
      by_cases hjid : j = id
      · subst hjid
        change ((t.setMeta j fun m => { m with linkedFrom := a :: m.linkedFrom }).codeCacheMeta j).exitBranchType ≠ _ at hne
        rw [hself] at hne
        exact (h.blocks j hj hne).append hflush
      · change ((t.setMeta id fun m => { m with linkedFrom := a :: m.linkedFrom }).codeCacheMeta j).exitBranchType ≠ _ at hne
        rw [hmeta j hjid] at hne
        exact (h.blocks j hj hne).append hflush

end Invariant

section Install

def InTraces (env : Env T) (t : Thread T) (addr : Nat) : Prop :=
  activeTraceLookup env t addr ≠ uintMax ∧ env.traces ≤ activeTraceLookup env t addr

def branchOf (env : Env T) (t : Thread T) (link : Nat) : Option Nat :=
  if link ≥ env.traces then none
  else
    match addrToBbId env link with
    | none => none
    | some bb =>
      if (t.codeCacheMeta (fragmentOf t bb)).exitBranchType = .branchRiscv then some (fragmentOf t bb) else none

theorem branchOf_trace {link : Nat} (h : link ≥ env.traces) : branchOf env t link = none := if_pos h

theorem branchOf_block {link bb : Nat} (h : ¬link ≥ env.traces) (hbb : addrToBbId env link = some bb) :
    branchOf env t link =
      if (t.codeCacheMeta (fragmentOf t bb)).exitBranchType = .branchRiscv then some (fragmentOf t bb) else none := by
  rw [branchOf, if_neg h, hbb]

/-- Both sides of a conditional exit are traces, and the link is in it. -/
structure Traced (env : Env T) (t : Thread T) (link bb : Nat) : Prop where
  taken : InTraces env t (t.codeCacheMeta bb).branchTakenAddr
  skipped : InTraces env t (t.codeCacheMeta bb).branchSkippedAddr
  ge : (t.codeCacheMeta bb).exitBranchAddr ≤ link
  lt : link < (t.codeCacheMeta bb).exitBranchAddr + branchExit

/-- What is written for a link to a trace stays in the link: a JAL reaches the trace,
or the link has room for AUIPC and JALR. A conditional exit has a trace on both sides. -/
structure LinkMeets (env : Env T) (t : Thread T) (tpc link : Nat) : Prop where
  exit : ∀ bb ∈ branchOf env t link, Traced env t link bb
  jump : branchOf env t link = none → jalReaches link (tpc + 6) = true ∨ LiveLink t.events link 20

instance (addr : Nat) : Decidable (InTraces env t addr) :=
  inferInstanceAs (Decidable (activeTraceLookup env t addr ≠ uintMax ∧ env.traces ≤ activeTraceLookup env t addr))

instance (link bb : Nat) : Decidable (Traced env t link bb) :=
  decidable_of_iff (InTraces env t (t.codeCacheMeta bb).branchTakenAddr ∧
    InTraces env t (t.codeCacheMeta bb).branchSkippedAddr ∧ (t.codeCacheMeta bb).exitBranchAddr ≤ link ∧
    link < (t.codeCacheMeta bb).exitBranchAddr + branchExit)
    ⟨fun ⟨taken, skipped, ge, lt⟩ => ⟨taken, skipped, ge, lt⟩, fun h => ⟨h.taken, h.skipped, h.ge, h.lt⟩⟩

instance (tpc link : Nat) : Decidable (LinkMeets env t tpc link) :=
  decidable_of_iff ((∀ bb ∈ branchOf env t link, Traced env t link bb) ∧
    (branchOf env t link = none → jalReaches link (tpc + 6) = true ∨ LiveLink t.events link 20))
    ⟨fun h => ⟨h.1, h.2⟩, fun h => ⟨h.exit, h.jump⟩⟩

def Logged (t t' : Thread T) : Prop := ∃ new, t' = { t with events := new ++ t.events } ∧ .flush ∉ new

theorem Logged.refl : Logged t t := ⟨[], rfl, fun hin => by cases hin⟩

theorem logged_log {e : Event} (h : e ≠ .flush) : Logged t (t.log e) :=
  ⟨[e], rfl, fun hin => h (List.mem_singleton.mp hin).symm⟩

theorem Logged.trans {t'' : Thread T} (h : Logged t t') (h' : Logged t' t'') : Logged t t'' := by
  obtain ⟨new, rfl, hnew⟩ := h
  obtain ⟨new', rfl, hnew'⟩ := h'
  refine ⟨new' ++ new, ?_, ?_⟩
  · rw [List.append_assoc]
  · rw [List.mem_append, not_or]
    exact ⟨hnew', hnew⟩

theorem Logged.liveLink {a room : Nat} (h : Logged t t') (hlive : LiveLink t.events a room) :
    LiveLink t'.events a room := by
  obtain ⟨new, rfl, hnew⟩ := h
  exact hlive.append hnew

theorem Logged.meets {tpc link : Nat} (h : Logged t t') (hmeets : LinkMeets env t tpc link) :
    LinkMeets env t' tpc link := by
  obtain ⟨new, rfl, hnew⟩ := h
  refine ⟨fun bb hbb => ?_, fun hnone => (hmeets.jump hnone).imp_right fun hlive => hlive.append hnew⟩
  have htraced := hmeets.exit bb hbb
  exact ⟨htraced.taken, htraced.skipped, htraced.ge, htraced.lt⟩

/-- The active trace may change as long as it is one from the same block to the same place. -/
theorem LinkMeets.setActive {tpc link : Nat} {f : TraceInProg → TraceInProg} (h : LinkMeets env t tpc link)
    (hsource : (f t.activeTrace).sourceBb = t.activeTrace.sourceBb)
    (hentry : (f t.activeTrace).entryAddr = t.activeTrace.entryAddr) : LinkMeets env (t.setActive f) tpc link := by
  have hspc : getActiveTraceSpc (t.setActive f) = getActiveTraceSpc t := by
    change (t.codeCacheMeta (f t.activeTrace).sourceBb).sourceAddr = _
    rw [hsource, getActiveTraceSpc]
  have hlookup (a : Nat) : activeTraceLookup env (t.setActive f) a = activeTraceLookup env t a := by
    rw [activeTraceLookup, activeTraceLookup, hspc]
    change (if _ then (f t.activeTrace).entryAddr else _) = _
    rw [hentry]
    rfl
  have htraces {a : Nat} (ha : InTraces env t a) : InTraces env (t.setActive f) a := by
    rwa [InTraces, hlookup]
  refine ⟨fun bb hbb => ?_, h.jump⟩
  have htraced := h.exit bb hbb
  exact ⟨htraces htraced.taken, htraces htraced.skipped, htraced.ge, htraced.lt⟩

theorem activeTraceLookupOrScan_inTraces {target a : Nat} (h : InTraces env t target)
    (hscan : activeTraceLookupOrScan env t target = .ok (t', a)) :
    env.traces ≤ a ∧ (t' = t ∨ t' = t.log (.lookup target a)) := by
  obtain ⟨hne, htraces⟩ := h
  rw [activeTraceLookup] at hne htraces
  rw [activeTraceLookupOrScan] at hscan
  by_cases hspc : target = getActiveTraceSpc t
  · rw [if_pos hspc] at hscan htraces
    obtain ⟨rfl, rfl⟩ := Prod.mk.inj (Except.ok.inj hscan)
    exact ⟨htraces, Or.inl rfl⟩
  rw [if_neg hspc] at hscan hne htraces
  dsimp only at hne htraces
  by_cases hge : env.hashLookup t.entryAddress target ≥ env.traces
  · rw [if_pos hge] at hne
    have hstub : stubBlock env t (env.hashLookup t.entryAddress target) = none := by
      rw [stubBlock]
      by_cases htrace : isTrace env (env.hashLookup t.entryAddress target)
      · rw [if_pos htrace]
      · have hbb : addrToBbId env (env.hashLookup t.entryAddress target) = none := by
          refine if_pos (Or.inr ?_)
          rcases Nat.lt_or_eq_of_le hge with hlt | heq
          · exact hlt
          · refine absurd (decide_eq_true ⟨hge, ?_⟩) htrace
            rw [← heq, Env.traces, codeCacheSize, blockBytes, maxBranchRange]
            omega
        rw [if_neg htrace, hbb]
        rfl
    rw [lookupOrScan, if_pos hne, hstub] at hscan
    obtain ⟨rfl, rfl⟩ := Prod.mk.inj (Except.ok.inj hscan)
    exact ⟨hge, Or.inr rfl⟩
  · rw [if_neg hge] at hne
    exact absurd rfl hne

theorem LinksOk.patch (h : LinksOk env t) {addr size : Nat} (hrewrites : Rewrites env t.events addr size) :
    LinksOk env (t.log (.patch addr size)) := by
  have hflush : .flush ∉ [Event.patch addr size] := fun hin => by cases List.mem_singleton.mp hin
  refine ⟨?_, ⟨hrewrites, h.patched⟩, ?_, h.trace_id, h.active_id⟩
  · intro id hid a ha
    exact (h.entries id hid a ha).append hflush
  · intro id hid hne
    exact (h.blocks id hid hne).append hflush

theorem jumpTo_size (writeP target : Nat) : (jumpTo writeP target).1 ≤ 20 := by
  rw [jumpTo]
  split_ifs <;> decide

theorem jumpTo_ge (writeP target : Nat) : 4 ≤ (jumpTo writeP target).1 := by
  rw [jumpTo]
  split_ifs <;> decide

theorem jumpTo_jal {writeP target : Nat} (h : jalReaches writeP (target + 6) = true) : (jumpTo writeP target).1 = 4 := by
  rw [jumpTo, if_pos h]

theorem rewrites_jump {link tpc : Nat} (hlive : LiveLink t.events link 4)
    (hfits : jalReaches link (tpc + 6) = true ∨ LiveLink t.events link 20) :
    Rewrites env t.events link (jumpTo link tpc).1 := by
  refine .inl ?_
  rcases hfits with hjal | hlong
  · rwa [jumpTo_jal hjal]
  · exact hlong.mono (jumpTo_size link tpc)

theorem assertJumpTo_le {writeP target p : Nat} (h : assertJumpTo writeP target = .ok p) : p ≤ writeP + 20 := by
  rw [assertJumpTo] at h
  split_ifs at h
  rw [← Except.ok.inj h]
  exact Nat.add_le_add_left (jumpTo_size writeP target) writeP

theorem patchBranch_links {bb link : Nat} (h : LinksOk env t) (hlive : LiveLink t.events link 4)
    (hlink : link < env.traces) (htraced : Traced env t link bb) (hpatch : patchBranch env t bb = .ok t') :
    LinksOk env t' ∧ Logged t t' := by
  obtain ⟨⟨t₁, notTaken, taken⟩, htargets, hpatch⟩ := bind_ok hpatch
  obtain ⟨second, hfirst, hpatch⟩ := bind_ok hpatch
  obtain ⟨last, hsecond, hpatch⟩ := bind_ok hpatch
  rw [exitTargets, if_pos htraced.taken.1] at htargets
  obtain ⟨⟨t₂, a⟩, hscan, htargets⟩ := bind_ok htargets
  obtain ⟨rfl, hrest⟩ := Prod.mk.inj (Except.ok.inj htargets)
  obtain ⟨rfl, -⟩ := Prod.mk.inj hrest
  obtain ⟨hnot, hsame⟩ := activeTraceLookupOrScan_inTraces htraced.skipped hscan
  dsimp only at hpatch hfirst
  rw [if_neg (by omega)] at hpatch
  obtain rfl := Except.ok.inj hpatch
  have hlogged : Logged t t₂ := by
    rcases hsame with rfl | rfl
    · exact Logged.refl
    · exact logged_log Event.noConfusion
  have h₂ : LinksOk env t₂ := h.activeLooked hscan
  have hsize : last - (t.codeCacheMeta bb).exitBranchAddr ≤ branchExit := by
    have hle := assertJumpTo_le hfirst
    have hle' := assertJumpTo_le hsecond
    rw [branchExit]
    omega
  have hrewrites : Rewrites env t₂.events (t.codeCacheMeta bb).exitBranchAddr
      (last - (t.codeCacheMeta bb).exitBranchAddr) :=
    .inr ⟨hsize, link, hlink, htraced.ge, htraced.lt, hlogged.liveLink hlive⟩
  refine ⟨?_, ?_⟩
  · exact ((h₂.patch hrewrites).log Event.noConfusion fun _ _ => Event.noConfusion).log Event.noConfusion
      fun _ _ => Event.noConfusion
  · exact ((hlogged.trans (logged_log Event.noConfusion)).trans (logged_log Event.noConfusion)).trans
      (logged_log Event.noConfusion)

theorem patchLinks_links {tpc : Nat} {links : List Nat} (h : LinksOk env t)
    (hlive : ∀ link ∈ links, LiveLink t.events link 4) (hmeets : ∀ link ∈ links, LinkMeets env t tpc link)
    (hpatch : patchLinks env tpc links t = .ok t') : LinksOk env t' ∧ Logged t t' := by
  induction links generalizing t with
  | nil =>
      obtain rfl := Except.ok.inj hpatch
      exact ⟨h, Logged.refl⟩
  | cons link rest ih =>
      have hend : ∀ u : Thread T, LinksOk env u → Logged t u →
          (if u.wasFlushed then Except.ok u else patchLinks env tpc rest u) = .ok t' →
          LinksOk env t' ∧ Logged t t' := by
        intro u hu hlogged hnext
        split_ifs at hnext
        · obtain rfl := Except.ok.inj hnext
          exact ⟨hu, hlogged⟩
        · have hlive' : ∀ l ∈ rest, LiveLink u.events l 4 :=
            fun l hl => hlogged.liveLink (hlive l (List.mem_cons_of_mem _ hl))
          have hmeets' : ∀ l ∈ rest, LinkMeets env u tpc l :=
            fun l hl => hlogged.meets (hmeets l (List.mem_cons_of_mem _ hl))
          obtain ⟨hok, hlogged'⟩ := ih hu hlive' hmeets' hnext
          exact ⟨hok, hlogged.trans hlogged'⟩
      have hlink := hlive link List.mem_cons_self
      have hthis := hmeets link List.mem_cons_self
      rw [patchLinks] at hpatch
      by_cases htrace : link ≥ env.traces
      · rw [if_pos htrace] at hpatch
        obtain ⟨p, -, hpatch⟩ := bind_ok hpatch
        have hfits := hthis.jump (branchOf_trace htrace)
        exact hend _ (h.patch (rewrites_jump hlink hfits)) (logged_log Event.noConfusion) hpatch
      rw [if_neg htrace] at hpatch
      cases hbb : addrToBbId env link with
      | none =>
          rw [hbb] at hpatch
          obtain rfl := Except.ok.inj hpatch
          exact ⟨h, Logged.refl⟩
      | some bb =>
          rw [hbb] at hpatch
          dsimp only at hpatch
          have hbranchOf := branchOf_block (t := t) htrace hbb
          by_cases htype : (t.codeCacheMeta (fragmentOf t bb)).exitBranchType = .branchRiscv
          · rw [if_pos htype] at hpatch hbranchOf
            obtain ⟨u, hbranch, hpatch⟩ := bind_ok hpatch
            obtain ⟨hok, hlogged⟩ :=
              patchBranch_links h hlink (Nat.lt_of_not_ge htrace) (hthis.exit _ hbranchOf) hbranch
            exact hend u hok hlogged hpatch
          · rw [if_neg htype] at hpatch hbranchOf
            obtain ⟨p, -, hpatch⟩ := bind_ok hpatch
            exact hend _ (h.patch (rewrites_jump hlink (hthis.jump hbranchOf))) (logged_log Event.noConfusion) hpatch

theorem LinksOk.link (h : LinksOk env t) {a size b : Nat} {fragment : Fragment} (hsize : 4 ≤ size)
    (hlive : LiveFragment t.events fragment)
    (hrecord : recordCcLink env (t.log (.link a size fragment)) a b = .ok t') : LinksOk env t' := by
  have hlog : LinksOk env (t.log (.link a size fragment)) := h.log Event.noConfusion fun _ _ => Event.noConfusion
  refine hlog.record [] (fun hin => by cases hin) (fun _ _ hin => by cases hin) ?_ hrecord rfl
  exact ⟨size, fragment, List.mem_cons_self, hsize, hlive.cons Event.noConfusion⟩

theorem writeExits_links {exits : List TraceExit} {writeP p : Nat} (h : LinksOk env t)
    (hlive : LiveFragment t.events (.trace t.activeTrace.entryAddr))
    (hwrite : writeExits env exits t writeP = .ok (t', p)) : LinksOk env t' ∧ codeCacheSize ≤ t'.activeTrace.id := by
  induction exits generalizing t writeP with
  | nil =>
      obtain ⟨rfl, -⟩ := Prod.mk.inj (Except.ok.inj hwrite)
      exact ⟨h, h.active_id⟩
  | cons e rest ih =>
      rw [writeExits] at hwrite
      split_ifs at hwrite
      obtain ⟨⟨t₁, p₁⟩, hexit, hwrite⟩ := bind_ok hwrite
      have hstep : ∀ b, recordCcLink env (t.log (.link writeP (jumpTo writeP e.target).1 (.trace t.activeTrace.entryAddr))) writeP b =
            .ok t₁ →
          LinksOk env t₁ ∧ LiveFragment t₁.events (.trace t₁.activeTrace.entryAddr) := by
        intro b hrecord
        obtain ⟨hevents, hactive⟩ := recordCcLink_same hrecord
        refine ⟨h.link (jumpTo_ge writeP e.target) hlive hrecord, ?_⟩
        rw [hevents, hactive]
        exact hlive.cons Event.noConfusion
      rw [setUpTraceExit] at hexit
      split_ifs at hexit
      · obtain ⟨t₂, hrecord, hexit⟩ := bind_ok hexit
        obtain ⟨rfl, -⟩ := Prod.mk.inj (Except.ok.inj hexit)
        exact ih (hstep _ hrecord).1 (hstep _ hrecord).2 hwrite
      · obtain ⟨t₂, hrecord, hexit⟩ := bind_ok hexit
        obtain ⟨rfl, -⟩ := Prod.mk.inj (Except.ok.inj hexit)
        exact ih (hstep _ hrecord).1 (hstep _ hrecord).2 hwrite

/-- The links to the source block of the trace. -/
def sourceLinks (t : Thread T) : List Nat := (t.codeCacheMeta t.activeTrace.sourceBb).linkedFrom

theorem installTrace_links (h : LinksOk env t) (hheld : Held env t) (hsource : t.activeTrace.sourceBb < codeCacheSize)
    (hmeets : ∀ link ∈ sourceLinks t, LinkMeets env t t.activeTrace.entryAddr link)
    (hinstall : installTrace env t = .ok t') : LinksOk env t' := by
  rw [installTrace] at hinstall
  split_ifs at hinstall
  obtain ⟨t₁, hpatch, hinstall⟩ := bind_ok hinstall
  have hp : Proceeds env t t₁ := Proceeds.trans (proceeds_setActive rfl rfl) (patchLinks_proceeds hpatch)
  have h₀ : LinksOk env (t.setActive fun a => { a with active := false }) := h.setActive h.active_id
  have hmeets₀ : ∀ link ∈ sourceLinks t,
      LinkMeets env (t.setActive fun a => { a with active := false }) t.activeTrace.entryAddr link :=
    fun link hlink => (hmeets link hlink).setActive rfl rfl
  obtain ⟨h₁, -⟩ := patchLinks_links h₀ (fun link hlink => h.entries _ hsource link hlink) hmeets₀ hpatch
  split_ifs at hinstall with hflushed
  · obtain rfl := Except.ok.inj hinstall
    exact h₁
  · obtain ⟨⟨t₂, p⟩, hexits, hinstall⟩ := bind_ok hinstall
    obtain rfl := Except.ok.inj hinstall
    obtain ⟨hcreate, hlast⟩ := (hheld.proceeds hp).2 (Bool.eq_false_iff.mpr hflushed)
    have htable : LinksOk env (t₁.setEntryAddress (env.hashAdd t₁.entryAddress (getActiveTraceSpc t) t.activeTrace.entryAddr).1) :=
      ⟨h₁.entries, h₁.patched, h₁.blocks, h₁.trace_id, h₁.active_id⟩
    have hcommit := htable.log (e := .commit (getActiveTraceSpc t) t.activeTrace.entryAddr) Event.noConfusion
      fun _ _ => Event.noConfusion
    have hlive : LiveFragment t₁.events (.trace t₁.activeTrace.entryAddr) := live_create_mem hcreate hlast
    obtain ⟨h₂, hid⟩ := writeExits_links hcommit (hlive.cons Event.noConfusion) hexits
    have hwritten := h₂.setWriteP p
    exact ⟨hwritten.entries, hwritten.patched, hwritten.blocks, hid, hid⟩

end Install

section Conditions

def InstallMeets (env : Env T) (t : Thread T) : Prop :=
  ∀ link ∈ sourceLinks t, LinkMeets env t t.activeTrace.entryAddr link

def UnlinkedMeets (env : Env T) (t : Thread T) (target : Nat) : Prop :=
  After (activeTraceLookupOrScan env t target) fun r => InstallMeets env r.1

def LinkedMeets (env : Env T) (t : Thread T) (writeP target : Nat) : Prop :=
  if activeTraceLookup env t target = uintMax then
    ¬ WouldFlush env t target ∧ After (activeTraceLookupOrScan env t target) fun r =>
      After (recordCcLink env r.1 writeP r.2) fun t => InstallMeets env t
  else InstallMeets env t

def rolledBack (t t' : Thread T) (writeP : Nat) : Thread T :=
  t'.setActive fun a => { a with writeP := writeP, id := t.activeTrace.id, exits := t.activeTrace.exits }

def FragmentMeets (env : Env T) (t : Thread T) (writeP target : Nat) : Prop :=
  After (scanTrace env t target .trace) fun r =>
    let t' := r.1.setWriteP (r.1.activeTrace.writeP + 2 * r.2.2)
    if r.1.wasFlushed then True
    else if r.2.2 = 0 then LinkedMeets env (rolledBack t r.1 writeP) writeP target
    else if !traceExitStubsFit t'.activeTrace.exits t'.activeTrace.writeP then
      UnlinkedMeets env (rolledBack t t' writeP) target
    else if (t'.codeCacheMeta r.2.1).exitBranchType = .jalrRiscv then InstallMeets env t'
    else True

def ContinueMeets (env : Env T) (t : Thread T) (writeP target : Nat) : Prop :=
  let t := t.setWriteP writeP
  if t.wasFlushed then True
  else if !traceExitStubsFit t.activeTrace.exits (writeP + traceExitStubMaxSize) then UnlinkedMeets env t target
  else if t.traceFragmentCount > maxTraceFragments then LinkedMeets env t writeP target
  else if activeTraceLookup env t target ≠ uintMax then InstallMeets env t
  else FragmentMeets env t writeP target

/-- What has to hold when the last fragment of an unfinished trace calls the
dispatcher: where a link is recorded after the target was scanned, the scan does
not flush the cache, and where the trace is installed, each link to its source
block has room for what is written over it, and the conditional exits have a trace
on either side. -/
def DispatchMeets (env : Env T) (t : Thread T) (target source : Nat) : Prop :=
  let m := t.codeCacheMeta source
  let isTaken := m.branchTakenAddr = target
  let t := { t with wasFlushed := false }
  if m.exitBranchType = .branchRiscv then
    After (setUpTraceExitBranchPlaceholder env t m.exitBranchAddr source isTaken) fun r =>
      ContinueMeets env (r.1.setMeta source fun m =>
        { m with branchCacheStatus := if isTaken then branchLinked else fallthroughLinked }) r.2 target
  else if m.exitBranchType = .jalRiscv then
    ContinueMeets env (t.setMeta source fun m => { m with branchCacheStatus := branchLinked }) m.exitBranchAddr target
  else True

instance (env : Env T) (t : Thread T) : Decidable (InstallMeets env t) :=
  inferInstanceAs (Decidable (∀ link ∈ sourceLinks t, LinkMeets env t t.activeTrace.entryAddr link))

instance (target : Nat) : Decidable (UnlinkedMeets env t target) := by
  delta UnlinkedMeets
  infer_instance

instance (writeP target : Nat) : Decidable (LinkedMeets env t writeP target) := by
  delta LinkedMeets
  infer_instance

instance (writeP target : Nat) : Decidable (FragmentMeets env t writeP target) := by
  delta FragmentMeets
  infer_instance

instance (writeP target : Nat) : Decidable (ContinueMeets env t writeP target) := by
  delta ContinueMeets
  infer_instance

instance (target source : Nat) : Decidable (DispatchMeets env t target source) := by
  delta DispatchMeets
  infer_instance

end Conditions

section Calls

variable {source writeP target addr : Nat} {o : Outcome}

structure Building (env : Env T) (t : Thread T) : Prop where
  held : Held env t
  source_bb : t.activeTrace.sourceBb < codeCacheSize

theorem Building.proceeds (h : Building env t) (hp : Proceeds env t t') : Building env t' :=
  ⟨h.held.proceeds hp, hp.source ▸ h.source_bb⟩

structure Ended (env : Env T) (t : Thread T) (o : Outcome) : Prop where
  links : LinksOk env t
  source_bb : o.fragment ≠ none → t.activeTrace.sourceBb < codeCacheSize

theorem ended_leave (h : LinksOk env t) (addr : Nat) : Ended env (leave t addr).1 (leave t addr).2 :=
  ⟨h.log Event.noConfusion fun _ _ => Event.noConfusion, fun hne => absurd rfl hne⟩

theorem resolve_links (h : LinksOk env t) (hresolve : resolve env t target = .ok (t', o)) : Ended env t' o := by
  obtain ⟨⟨t₁, addr⟩, hlookup, hresolve⟩ := bind_ok hresolve
  obtain ⟨rfl, rfl⟩ := Prod.mk.inj (Except.ok.inj hresolve)
  exact ended_leave (h.looked (lookupOrScan_looked hlookup)) addr

theorem earlyTraceExit_links (h : LinksOk env (t.log (.link writeP (jumpTo writeP addr).1 (.trace t.activeTrace.entryAddr)))) (hb : Building env t)
    (hmeets : InstallMeets env t) (hexit : earlyTraceExit env t source writeP addr = .ok t') : LinksOk env t' := by
  obtain ⟨t₁, hinstall, hexit⟩ := bind_ok hexit
  have hb₀ := hb.proceeds (Proceeds.trans
    (proceeds_log (e := .link writeP (jumpTo writeP addr).1 (.trace t.activeTrace.entryAddr)) rfl Event.noConfusion)
    (proceeds_setWriteP (writeP + (jumpTo writeP addr).1)))
  have h₁ := installTrace_links (h.setWriteP _) hb₀.held hb.source_bb
    (fun link hlink => ((logged_log Event.noConfusion).meets (hmeets link hlink)).setActive rfl rfl) hinstall
  split_ifs at hexit
  · rwa [← Except.ok.inj hexit]
  · rw [← Except.ok.inj hexit]
    exact h₁.setMeta source rfl rfl

theorem exitTo_links (h : LinksOk env (t.log (.link writeP (jumpTo writeP addr).1 (.trace t.activeTrace.entryAddr)))) (hb : Building env t)
    (hmeets : InstallMeets env t) (hexit : exitTo env t source writeP target addr = .ok (t', o)) : Ended env t' o := by
  obtain ⟨t₁, hearly, hexit⟩ := bind_ok hexit
  have h₁ := earlyTraceExit_links h hb hmeets hearly
  split_ifs at hexit
  · exact resolve_links h₁ hexit
  · obtain ⟨rfl, rfl⟩ := Prod.mk.inj (Except.ok.inj hexit)
    exact ended_leave h₁ addr

theorem unlinkedExit_links (h : LinksOk env t) (hb : Building env t) (hmeets : UnlinkedMeets env t target)
    (hexit : unlinkedExit env t source writeP target = .ok (t', o)) : Ended env t' o := by
  obtain ⟨⟨t₁, addr⟩, hscan, hexit⟩ := bind_ok hexit
  have h₁ := (h.activeLooked hscan).log (e := .link writeP (jumpTo writeP addr).1 (.trace t₁.activeTrace.entryAddr)) Event.noConfusion
    fun _ _ => Event.noConfusion
  exact exitTo_links h₁ (hb.proceeds (activeTraceLookupOrScan_proceeds hscan)) (hmeets _ hscan) hexit

theorem linkedExit_links (h : LinksOk env t) (hb : Building env t) (hf : t.wasFlushed = false)
    (hmeets : LinkedMeets env t writeP target) (hexit : linkedExit env t source writeP target = .ok (t', o)) :
    Ended env t' o := by
  rw [linkedExit] at hexit
  rw [LinkedMeets] at hmeets
  by_cases hlookup : activeTraceLookup env t target = uintMax
  · rw [if_pos hlookup] at hexit hmeets
    obtain ⟨⟨t₁, addr⟩, hscan, hexit⟩ := bind_ok hexit
    obtain ⟨t₂, hrecord, hexit⟩ := bind_ok hexit
    have hf₁ := (activeTraceLookupOrScan_unflushed hmeets.1 hscan).trans hf
    have hb₁ := hb.proceeds (activeTraceLookupOrScan_proceeds hscan)
    obtain ⟨hcreate, hlast⟩ := hb₁.held.2 hf₁
    have hlive : LiveFragment t₁.events (.trace t₁.activeTrace.entryAddr) := live_create_mem hcreate hlast
    obtain ⟨hevents, hactive⟩ := recordCcLink_same hrecord
    have h₂ : LinksOk env (t₂.log (.link writeP (jumpTo writeP addr).1 (.trace t₂.activeTrace.entryAddr))) := by
      rw [hactive]
      refine (h.activeLooked hscan).record [.link writeP (jumpTo writeP addr).1 (.trace t₁.activeTrace.entryAddr)] ?_ ?_ ?_ hrecord rfl
      · exact fun hin => by cases List.mem_singleton.mp hin
      · exact fun _ _ hin => by cases List.mem_singleton.mp hin
      · exact ⟨_, _, List.mem_cons_self, jumpTo_ge writeP addr, hlive.cons Event.noConfusion⟩
    exact exitTo_links h₂ (hb₁.proceeds (recordCcLink_calm hrecord).1) (hmeets.2 _ hscan _ hrecord) hexit
  · rw [if_neg hlookup] at hexit hmeets
    exact exitTo_links (h.log Event.noConfusion fun _ _ => Event.noConfusion) hb hmeets hexit

theorem scanTrace_links {address id len : Nat} {type : CcType} (h : LinksOk env t)
    (hscan : scanTrace env t address type = .ok (t', id, len)) : LinksOk env t' := by
  obtain ⟨⟨t₁, traceId⟩, halloc, hscan⟩ := bind_ok hscan
  obtain ⟨⟨t₂, size⟩, hcode, hend⟩ := bind_ok hscan
  rw [allocateTraceFragment] at halloc
  split_ifs at halloc
  obtain ⟨rfl, rfl⟩ := Prod.mk.inj (Except.ok.inj halloc)
  have hid := h.active_id
  have h₁ : LinksOk env ((t.setActive fun a => { a with id := a.id + 1 }).setMeta t.activeTrace.id fun m =>
      { m with sourceAddr := address, tpc := t.activeTrace.writeP, branchCacheStatus := 0 }) :=
    (h.setActive (Nat.le_succ_of_le hid)).setMeta _ rfl rfl
  have h₂ : LinksOk env t₂ := h₁.framed (fun hlt => absurd hid (Nat.not_le_of_lt hlt)) (scanCode_framed hcode)
  dsimp only at hend
  split_ifs at hend
  · obtain ⟨rfl, -⟩ := Prod.mk.inj (Except.ok.inj hend)
    exact h₂
  · obtain ⟨rfl, -⟩ := Prod.mk.inj (Except.ok.inj hend)
    exact ⟨h₂.entries, h₂.patched, h₂.blocks, h₂.trace_id, h₂.active_id⟩

theorem nextFragment_links (h : LinksOk env t) (hb : Building env t) (hmeets : FragmentMeets env t writeP target)
    (hnext : nextFragment env t source writeP target = .ok (t', o)) : Ended env t' o := by
  obtain ⟨⟨t₁, fragmentId, fragmentLen⟩, hscan, hnext⟩ := bind_ok hnext
  have h₁ := scanTrace_links h hscan
  have hb₁ := hb.proceeds (scanTrace_proceeds hscan)
  have hm := hmeets _ hscan
  dsimp only at hnext hm
  by_cases hflushed : t₁.wasFlushed
  · rw [if_pos hflushed] at hnext
    exact resolve_links h₁ hnext
  rw [if_neg hflushed] at hnext hm
  by_cases hlen : fragmentLen = 0
  · rw [if_pos hlen] at hnext hm
    exact linkedExit_links (h₁.setActive h.active_id) (hb₁.proceeds (proceeds_setActive rfl rfl))
      (Bool.eq_false_iff.mpr hflushed) hm hnext
  rw [if_neg hlen] at hnext hm
  have h₂ := h₁.setWriteP (t₁.activeTrace.writeP + 2 * fragmentLen)
  have hb₂ := hb₁.proceeds (proceeds_setWriteP (t₁.activeTrace.writeP + 2 * fragmentLen))
  split_ifs at hnext hm with hfit hjalr
  · exact unlinkedExit_links (h₂.setActive h.active_id) (hb₂.proceeds (proceeds_setActive rfl rfl)) hm hnext
  · obtain ⟨t₂, hinstall, hnext⟩ := bind_ok hnext
    have h₃ := installTrace_links h₂ hb₂.held hb₂.source_bb hm hinstall
    split_ifs at hnext
    · exact resolve_links h₃ hnext
    · obtain ⟨rfl, rfl⟩ := Prod.mk.inj (Except.ok.inj hnext)
      exact ended_leave h₃ _
  · obtain ⟨rfl, rfl⟩ := Prod.mk.inj (Except.ok.inj hnext)
    exact ⟨h₂.log Event.noConfusion fun _ _ => Event.noConfusion, fun _ => hb₂.source_bb⟩

theorem continueTrace_links (h : LinksOk env t) (hb : Building env t) (hmeets : ContinueMeets env t writeP target)
    (hcontinue : continueTrace env t source writeP target = .ok (t', o)) : Ended env t' o := by
  have h₁ := h.setWriteP writeP
  have hb₁ := hb.proceeds (proceeds_setWriteP writeP)
  rw [continueTrace] at hcontinue
  rw [ContinueMeets] at hmeets
  split_ifs at hcontinue hmeets with hflushed
  · exact resolve_links h₁ hcontinue
  · exact unlinkedExit_links h₁ hb₁ hmeets hcontinue
  · exact linkedExit_links h₁ hb₁ (Bool.eq_false_iff.mpr hflushed) hmeets hcontinue
  · exact exitTo_links (h₁.log Event.noConfusion fun _ _ => Event.noConfusion) hb₁ hmeets hcontinue
  · exact nextFragment_links h₁ hb₁ hmeets hcontinue

theorem LinksOk.recordExit (h : LinksOk env t) {e : TraceExit} (hrecord : traceRecordExit t e = .ok t') : LinksOk env t' := by
  rw [traceRecordExit] at hrecord
  split_ifs at hrecord
  obtain rfl := Except.ok.inj hrecord
  exact h.setActive h.active_id

theorem setUpTraceExitBranchPlaceholder_links {fragmentId p : Nat} {isTaken : Bool} (h : LinksOk env t)
    (hexit : setUpTraceExitBranchPlaceholder env t writeP fragmentId isTaken = .ok (t', p)) : LinksOk env t' := by
  obtain ⟨⟨t₁, tpc⟩, hscan, hexit⟩ := bind_ok hexit
  obtain ⟨t₂, hrecord, hexit⟩ := bind_ok hexit
  obtain ⟨rfl, -⟩ := Prod.mk.inj (Except.ok.inj hexit)
  have h₁ : LinksOk env t₁ := by
    rw [otherSide] at hscan
    by_cases hlookup : activeTraceLookup env t (if isTaken = true then (t.codeCacheMeta fragmentId).branchSkippedAddr
        else (t.codeCacheMeta fragmentId).branchTakenAddr) = uintMax
    · rw [if_pos hlookup] at hscan
      exact h.looked (lookupOrScan_looked hscan)
    · rw [if_neg hlookup] at hscan
      obtain ⟨rfl, -⟩ := Prod.mk.inj (Except.ok.inj hscan)
      exact h
  exact h₁.recordExit hrecord

theorem traceDispatcher_links (h : LinksOk env t) (hordered : Ordered env t) (hlive : Live t)
    (hsource : t.activeTrace.sourceBb < codeCacheSize) (hmeets : DispatchMeets env t target source)
    (hcall : traceDispatcher env t target source = .ok (t', o)) : Ended env t' o := by
  have h₀ : LinksOk env { t with wasFlushed := false } := ⟨h.entries, h.patched, h.blocks, h.trace_id, h.active_id⟩
  have hb₀ : Building env { t with wasFlushed := false } := ⟨⟨⟨hordered.atomic, hordered.empty⟩, fun _ => hlive⟩, hsource⟩
  rw [traceDispatcher] at hcall
  rw [DispatchMeets] at hmeets
  split at hcall
  · rename_i htype
    rw [if_pos htype] at hmeets
    obtain ⟨⟨t₁, p⟩, hexit, hcall⟩ := bind_ok hcall
    have h₁ := setUpTraceExitBranchPlaceholder_links h₀ hexit
    have hb₁ := hb₀.proceeds (setUpTraceExitBranchPlaceholder_proceeds hexit)
    exact continueTrace_links (h₁.setMeta source rfl rfl) (hb₁.proceeds (proceeds_setMeta _ _)) (hmeets _ hexit) hcall
  · rename_i htype
    rw [if_neg (by rw [htype]; exact BranchType.noConfusion), if_pos htype] at hmeets
    exact continueTrace_links (h₀.setMeta source rfl rfl) (hb₀.proceeds (proceeds_setMeta _ _)) hmeets hcall
  · exact resolve_links h₀ hcall
  · cases hcall

theorem traceDispatcher_indirect (h : LinksOk env t) (htype : (t.codeCacheMeta source).exitBranchType = .jalrRiscv)
    (hcall : traceDispatcher env t target source = .ok (t', o)) : Ended env t' o := by
  have h₀ : LinksOk env { t with wasFlushed := false } := ⟨h.entries, h.patched, h.blocks, h.trace_id, h.active_id⟩
  rw [traceDispatcher, htype] at hcall
  exact resolve_links h₀ hcall

theorem beginTrace_links (h : LinksOk env t) (bbSource : Nat) : LinksOk env (beginTrace t bbSource) := by
  have h₀ : LinksOk env { t with
      wasFlushed := false,
      activeTrace := {
        id := t.traceId, sourceBb := bbSource, writeP := t.traceCacheNext, entryAddr := t.traceCacheNext,
        active := true, exits := [] } } :=
    ⟨h.entries, h.patched, h.blocks, h.trace_id, h.trace_id⟩
  exact h₀.log Event.noConfusion fun _ _ => Event.noConfusion

theorem createTrace_links {bbSource : Nat} (h : LinksOk env t) (hsource : bbSource < codeCacheSize)
    (hcall : createTrace env t bbSource = .ok (t', o)) : Ended env t' o := by
  have h₀ : LinksOk env { t with traceFragmentCount := 0, traceCacheNext := alignTrace t.traceCacheNext } :=
    ⟨h.entries, h.patched, h.blocks, h.trace_id, h.active_id⟩
  rw [createTrace] at hcall
  dsimp only at hcall
  split_ifs at hcall
  · exact resolve_links h₀.flush hcall
  · obtain ⟨⟨t₁, traceId, len⟩, hscan, hcall⟩ := bind_ok hcall
    have h₁ := scanTrace_links (beginTrace_links h₀ bbSource) hscan
    have hsame := (scanTrace_proceeds hscan).source
    dsimp only at hcall
    split_ifs at hcall
    · exact resolve_links h₁ hcall
    · obtain ⟨rfl, rfl⟩ := Prod.mk.inj (Except.ok.inj hcall)
      exact ⟨h₁.log Event.noConfusion fun _ _ => Event.noConfusion, fun _ => hsame ▸ hsource⟩

end Calls

section Blocks

variable {tryJumpTrampolines : Thread T → Nat → Nat → Bool} {bb writeP target p : Nat}

theorem linkTo_links (h : LinksOk env t) (hlive : LiveFragment t.events (.block bb))
    (hlink : linkTo env t tryJumpTrampolines bb writeP target = .ok (t', p)) :
    LinksOk env t' ∧ LiveFragment t'.events (.block bb) := by
  obtain ⟨t₁, hrecord, hlink⟩ := bind_ok hlink
  split_ifs at hlink
  obtain ⟨rfl, -⟩ := Prod.mk.inj (Except.ok.inj hlink)
  exact ⟨h.link (by decide) hlive hrecord, (recordCcLink_same hrecord).1 ▸ hlive.cons Event.noConfusion⟩

theorem linkBranchTo_links {other : Option Nat} (h : LinksOk env t) (hlive : LiveFragment t.events (.block bb))
    (hlink : linkBranchTo env t tryJumpTrampolines bb writeP target other = .ok t') : LinksOk env t' := by
  obtain ⟨t₁, hrecord, hlink⟩ := bind_ok hlink
  have h₁ := h.link (by decide) hlive hrecord
  cases other with
  | none =>
      obtain rfl := Except.ok.inj hlink
      exact h₁
  | some other =>
      obtain ⟨⟨t₂, p⟩, hother, hlink⟩ := bind_ok hlink
      obtain rfl := Except.ok.inj hlink
      exact (linkTo_links h₁ ((recordCcLink_same hrecord).1 ▸ hlive.cons Event.noConfusion) hother).1

theorem linkBranch_links (h : LinksOk env t) (hlive : LiveFragment t.events (.block bb))
    (hlink : linkBranch env t tryJumpTrampolines bb = .ok t') : LinksOk env t' := by
  rw [linkBranch] at hlink
  split_ifs at hlink
  · exact linkBranchTo_links h hlive hlink
  · exact linkBranchTo_links h hlive hlink
  · obtain ⟨⟨t₁, p⟩, hfirst, hlink⟩ := bind_ok hlink
    obtain ⟨h₁, hlive₁⟩ := linkTo_links h hlive hfirst
    dsimp only at hlink
    split at hlink
    · obtain ⟨⟨t₂, p⟩, hsecond, hlink⟩ := bind_ok hlink
      obtain rfl := Except.ok.inj hlink
      exact (linkTo_links h₁ hlive₁ hsecond).1
    · obtain rfl := Except.ok.inj hlink
      exact h₁

/-- A block that has an exit is live, and it is still live after a scan that did
not flush the cache. -/
theorem dispatcher_links {source : Nat} {o : Outcome} (h : LinksOk env t) (hsource : source < codeCacheSize)
    (hcall : dispatcher env t tryJumpTrampolines target source = .ok (t', o)) : Ended env t' o := by
  rw [dispatcher, if_neg (by omega)] at hcall
  obtain ⟨⟨t₁, addr⟩, hlookup, hcall⟩ := bind_ok hcall
  have h₀ : LinksOk env { t with wasFlushed := false } := ⟨h.entries, h.patched, h.blocks, h.trace_id, h.active_id⟩
  have hlooked := lookupOrScan_looked hlookup
  have h₁ := h₀.looked hlooked
  dsimp only at hcall
  split_ifs at hcall with hbypass
  · obtain ⟨rfl, rfl⟩ := Prod.mk.inj (Except.ok.inj hcall)
    exact ended_leave h₁ addr
  · obtain ⟨t₂, hlink, hcall⟩ := bind_ok hcall
    obtain ⟨rfl, rfl⟩ := Prod.mk.inj (Except.ok.inj hcall)
    rw [not_or, Bool.not_eq_true] at hbypass
    have hlive : (t.codeCacheMeta source).exitBranchType ≠ .unknown → LiveFragment t₁.events (.block source) := by
      intro hne
      obtain ⟨-, new, hnew, -, hflush⟩ := hlooked.proceeds.unflushed hbypass.2
      rw [hnew]
      exact (h.blocks source hsource hne).append hflush
    unfold dispatcherRiscv at hlink
    split at hlink
    · rename_i htype
      exact ended_leave (linkBranch_links h₁ (hlive (by rw [htype]; exact BranchType.noConfusion)) hlink) addr
    · rename_i htype
      obtain ⟨⟨t₃, p⟩, hto, hlink⟩ := bind_ok hlink
      obtain rfl := Except.ok.inj hlink
      exact ended_leave (linkTo_links h₁ (hlive (by rw [htype]; exact BranchType.noConfusion)) hto).1 addr
    · obtain rfl := Except.ok.inj hlink
      exact ended_leave h₁ addr

end Blocks

section Runs

variable {tryJumpTrampolines : Thread T → Nat → Nat → Bool} {s s' : System T} {call : Call}

structure LinkInv (env : Env T) (s : System T) : Prop where
  flushes : Inv env s
  links : LinksOk env s.thread
  source_bb : s.control ≠ .outside → s.thread.activeTrace.sourceBb < codeCacheSize

theorem Ended.linkInv {o : Outcome} (h : Ended env t o) (hinv : Inv env ⟨t, .ofOutcome o⟩) : LinkInv env ⟨t, .ofOutcome o⟩ :=
  ⟨hinv, h.links, fun hne => h.source_bb fun hnone => hne (ofOutcome_outside hnone)⟩

theorem step_linkInv (hmeets : BuildMeets (DispatchMeets env) s call)
    (hstep : Step env (rvCalls env tryJumpTrampolines) s call s') (h : LinkInv env s) : LinkInv env s' := by
  have hinv := step_inv hmeets.1 hstep h.flushes
  cases hstep with
  | create hsource hcall => exact (createTrace_links h.links hsource hcall).linkInv hinv
  | fragment hcall =>
      exact (traceDispatcher_links h.links h.flushes.1 (h.flushes.2 Control.noConfusion) (h.source_bb Control.noConfusion)
        (hmeets.2 _ _ rfl rfl) hcall).linkInv hinv
  | indirect htype hcall => exact (traceDispatcher_indirect h.links htype hcall).linkInv hinv
  | block hsource hcall => exact (dispatcher_links h.links hsource hcall).linkInv hinv
  | unmap => exact ⟨hinv, h.links.flush, fun hne => absurd (hmeets.1 rfl) hne⟩

theorem linkInv_initial (t : Thread T) : LinkInv env (initial env t) := by
  have hreset : ∀ id, id < codeCacheSize →
      (initial env t).thread.codeCacheMeta id = resetMeta (t.codeCacheMeta id) := fun id hid => if_pos hid
  refine ⟨inv_initial t, ⟨?_, trivial, ?_, Nat.le_refl _, Nat.le_refl _⟩, fun hne => absurd rfl hne⟩
  · intro id hid a ha
    rw [hreset id hid] at ha
    cases ha
  · intro id hid hne
    rw [hreset id hid] at hne
    exact absurd rfl hne

theorem reachable_linkInv (h : Reachable env (rvCalls env tryJumpTrampolines) (BuildMeets (DispatchMeets env)) s) :
    LinkInv env s :=
  h.invariant linkInv_initial fun _ _ _ hmeets hstep => step_linkInv hmeets hstep

/-- In every run that meets the conditions, the lists of links hold live links
only, and only live links are rewritten. -/
theorem linkedFrom_live (h : Reachable env (rvCalls env tryJumpTrampolines) (BuildMeets (DispatchMeets env)) s) :
    (∀ id, id < codeCacheSize → ∀ a ∈ (s.thread.codeCacheMeta id).linkedFrom, LiveLink s.thread.events a 4) ∧
      Patched env s.thread.events :=
  ⟨(reachable_linkInv h).links.entries, (reachable_linkInv h).links.patched⟩

/-- A block that is linked to itself becomes a trace. -/
theorem linkedFrom_live_loop :
    ∃ s, run loopEnv (rvCalls loopEnv noTrampolines) (initial loopEnv zeroed)
        [.dispatch 0x10000 0, .dispatch 0x10000 10, .create 10, .dispatch 0x10000 55000] = some s ∧
      (∀ id, id < codeCacheSize → ∀ a ∈ (s.thread.codeCacheMeta id).linkedFrom, LiveLink s.thread.events a 4) ∧
      Patched loopEnv s.thread.events :=
  ⟨_, rfl, linkedFrom_live (run_reachable loopEnv (rvCalls loopEnv noTrampolines) ⟨zeroed, .refl⟩
    [.dispatch 0x10000 0, .dispatch 0x10000 10, .create 10, .dispatch 0x10000 55000] (by decide) rfl)⟩

def branchEnv : Env (List (Nat × Nat)) :=
  { loopEnv with scanner := fun _ _ _ _ writeP => .ok ⟨.branchRiscv, writeP + 16, 0x10000, 0x10004, 0, 50, 0⟩ }

/-- The block at 0x10000 becomes a trace: its exit is rewritten, and the address
after the rewritten exit is recorded as a link to the block at 0x10004. -/
theorem linkedFrom_after_exit :
    ∃ s, Reachable branchEnv (rvCalls branchEnv noTrampolines) (fun _ _ => True) s ∧
      ¬ ∀ id, id < codeCacheSize → ∀ a ∈ (s.thread.codeCacheMeta id).linkedFrom, LiveLink s.thread.events a 4 := by
  refine ⟨_, run_reachable branchEnv (rvCalls branchEnv noTrampolines) ⟨zeroed, .refl⟩
    [.dispatch 0x10000 0, .dispatch 0x10000 10, .create 10, .dispatch 0x10000 55000] (by decide) rfl, ?_⟩
  intro h
  obtain ⟨size, fragment, hlink, -⟩ := h 11 (by decide) 0x50000a2c (by decide)
  have hlinked : some 0x50000a2c ∈ List.map linkAddress _ := List.mem_map_of_mem (f := linkAddress) hlink
  exact absurd hlinked (by decide)

end Runs

end Mambo.RvTraceLinks
