import Mambo.RvTraceRuns
import Mambo.TraceExits

namespace Mambo.RvTraceExits

open TraceState TraceLog TraceRuns TraceExits RvTraces RvTraceRuns

section Stubs

def Behind (exits : List TraceExit) (p : Nat) : Prop := ∀ e ∈ exits, e.source ≤ p ∧ e.source % 2 = 0

variable {exits : List TraceExit} {e : TraceExit} {p q : Nat}

theorem Behind.mono (h : Behind exits p) (hle : p ≤ q) : Behind exits q := 
  fun e he => ⟨Nat.le_trans (h e he).1 hle, (h e he).2⟩

theorem reach_mono (h : bBranchCanReach e.source q) (hle : p ≤ q) (hlow : e.source ≤ p) (hsource : e.source % 2 = 0)
    (heven : p % 2 = 0) : bBranchCanReach e.source p := by
  rw [bBranchCanReach, decide_eq_true_eq] at h ⊢
  omega

theorem stubsFit_cons :
    traceExitStubsFit (e :: exits) p ↔ bBranchCanReach e.source p ∧ traceExitStubsFit exits (p + traceExitStubMaxSize) := by
  rw [traceExitStubsFit, Bool.and_eq_true]

theorem stubsFit_mono (h : traceExitStubsFit exits q) (hle : p ≤ q) (hbehind : Behind exits p) (heven : p % 2 = 0) :
    traceExitStubsFit exits p := by
  induction exits generalizing p q with
  | nil => rfl
  | cons e rest ih =>
      obtain ⟨hreach, hrest⟩ := stubsFit_cons.mp h
      obtain ⟨hlow, hsource⟩ := hbehind e List.mem_cons_self
      have hbehind' : Behind rest p := fun e he => hbehind e (List.mem_cons_of_mem _ he)
      refine stubsFit_cons.mpr ⟨reach_mono hreach hle hlow hsource heven, ?_⟩
      refine ih hrest (Nat.add_le_add_right hle _) (hbehind'.mono (Nat.le_add_right _ _)) ?_
      rw [traceExitStubMaxSize]
      omega

theorem stubsFit_append (h : traceExitStubsFit exits p)
    (hreach : bBranchCanReach e.source (p + traceExitStubMaxSize * exits.length)) :
    traceExitStubsFit (exits ++ [e]) p := by
  induction exits generalizing p with
  | nil => exact stubsFit_cons.mpr ⟨hreach, rfl⟩
  | cons e' rest ih =>
      obtain ⟨hfirst, hrest⟩ := stubsFit_cons.mp h
      refine stubsFit_cons.mpr ⟨hfirst, ih hrest ?_⟩
      rw [List.length_cons, Nat.mul_succ] at hreach
      rwa [Nat.add_assoc, Nat.add_comm traceExitStubMaxSize]

end Stubs

variable {T : Type} {env : Env T} {t : Thread T}

section Install

theorem setUpTraceExit_safe (p target : Nat) :
    Safe (setUpTraceExit env t p target) fun r => r.2 = p + 4 ∨ r.2 = p + 20 := by
  rw [setUpTraceExit]
  split_ifs
  · exact (recordCcLink_safe _ _).bind fun _ _ => safe_ok (Or.inl rfl)
  · exact (recordCcLink_safe _ _).bind fun _ _ => safe_ok (Or.inr rfl)
  · exact safe_assertion

theorem writeExits_safe {exits : List TraceExit} {p : Nat} (hfit : traceExitStubsFit exits p) (hbehind : Behind exits p)
    (heven : p % 2 = 0) : Safe (writeExits env exits t p) fun _ => True := by
  induction exits generalizing t p with
  | nil => exact safe_ok trivial
  | cons e rest ih =>
      obtain ⟨hreach, hrest⟩ := stubsFit_cons.mp hfit
      have hbehind' : Behind rest p := fun e he => hbehind e (List.mem_cons_of_mem _ he)
      rw [writeExits, if_pos hreach]
      refine (setUpTraceExit_safe p e.target).bind fun r hr => ?_
      have hnext : p ≤ r.2 ∧ r.2 ≤ p + traceExitStubMaxSize ∧ r.2 % 2 = 0 := by
        rw [traceExitStubMaxSize]
        omega
      exact ih (stubsFit_mono hrest hnext.2.1 (hbehind'.mono hnext.1) hnext.2.2) (hbehind'.mono hnext.1) hnext.2.2

def exitLength : BranchType → Nat
  | .branchRiscv => 24
  | .jalRiscv => 20
  | _ => 0

theorem assertJumpTo_safe (writeP target : Nat) : Safe (assertJumpTo writeP target) fun _ => True :=
  safe_ite (fun _ => safe_ok trivial) fun _ => safe_assertion

variable (hscanner : Spaced env 2 exitLength)
include hscanner

theorem patchBranch_safe (bb : Nat) : Safe (patchBranch env t bb) (SameTrace t) := by
  have htargets : Safe (exitTargets env t bb) fun r => SameTrace t r.1 := by
    rw [exitTargets]
    refine safe_ite (fun _ => ?_) fun _ => safe_ite (fun _ => ?_) fun _ => safe_assertion
    · exact (activeTraceLookupOrScan_safe hscanner _).bind fun _ h => safe_ok h
    · exact (activeTraceLookupOrScan_safe hscanner _).bind fun _ h => safe_ok h
  refine htargets.bind fun r hr => (assertJumpTo_safe _ _).bind fun second _ => (assertJumpTo_safe _ _).bind fun last _ => ?_
  have hlog (e e' e'' : Event) : SameTrace t (((r.1.log e).log e').log e'') := hr
  exact safe_ite (fun _ => (recordCcLink_safe _ _).mono fun t' h => (hlog _ _ _).trans h) fun _ => safe_ok (hlog _ _ _)

theorem patchLinks_safe (tpc : Nat) (links : List Nat) : Safe (patchLinks env tpc links t) (SameTrace t) := by
  induction links generalizing t with
  | nil => exact safe_ok SameTrace.refl
  | cons link rest ih =>
      have hend : ∀ u : Thread T, SameTrace t u →
          Safe (if u.wasFlushed then Except.ok u else patchLinks env tpc rest u) (SameTrace t) :=
        fun u hu => safe_ite (fun _ => safe_ok hu) fun _ => ih.mono fun t' h => hu.trans h
      have hplain : Safe (do
          let _ ← assertJumpTo link tpc
          let t := t.log (.patch link (jumpTo link tpc).1)
          if t.wasFlushed then Except.ok t else patchLinks env tpc rest t) (SameTrace t) :=
        (assertJumpTo_safe _ _).bind fun _ _ => hend _ ⟨rfl, rfl⟩
      rw [patchLinks]
      refine safe_ite (fun _ => hplain) fun _ => ?_
      cases addrToBbId env link with
      | none => exact safe_ok SameTrace.refl
      | some bb => exact safe_ite (fun _ => (patchBranch_safe hscanner _).bind hend) fun _ => hplain

structure Fitting (t : Thread T) : Prop where
  fit : traceExitStubsFit t.activeTrace.exits t.activeTrace.writeP
  behind : Behind t.activeTrace.exits t.activeTrace.writeP
  even : t.activeTrace.writeP % 2 = 0

theorem installTrace_safe (h : Fitting t) : Safe (installTrace env t) fun _ => True := by
  refine safe_ite (fun _ => safe_assertion) fun _ => (patchLinks_safe hscanner _ _).bind fun t' hsame => ?_
  refine safe_ite (fun _ => safe_ok trivial) fun _ => ?_
  have hactive : t'.activeTrace.exits = t.activeTrace.exits ∧ t'.activeTrace.writeP = t.activeTrace.writeP := by
    rw [hsame.1]
    exact ⟨rfl, rfl⟩
  refine Safe.bind (writeExits_safe ?_ ?_ ?_) fun _ _ => safe_ok trivial
  · change traceExitStubsFit t'.activeTrace.exits t'.activeTrace.writeP
    rw [hactive.1, hactive.2]
    exact h.fit
  · change Behind t'.activeTrace.exits t'.activeTrace.writeP
    rw [hactive.1, hactive.2]
    exact h.behind
  · change t'.activeTrace.writeP % 2 = 0
    rw [hactive.2]
    exact h.even

end Install

section Calls

variable {source p target : Nat}

/-- An unfinished trace before a call from its last fragment: the stubs of its exits
fit behind the fragment, and they are no more than the fragments. -/
structure Ready (t : Thread T) (f : Nat) : Prop where
  fit : ∃ w, traceExitStubsFit t.activeTrace.exits w ∧
    (t.codeCacheMeta f).exitBranchAddr + exitLength (t.codeCacheMeta f).exitBranchType ≤ w
  behind : Behind t.activeTrace.exits (t.codeCacheMeta f).exitBranchAddr
  even : (t.codeCacheMeta f).exitBranchAddr % 2 = 0
  count : t.activeTrace.exits.length < t.traceFragmentCount
  limit : t.traceFragmentCount ≤ maxTraceRecExits

/-- During the call, once the exit of the fragment is set up: an early exit can be
written at an address. -/
structure Going (t : Thread T) (p : Nat) : Prop where
  fit : traceExitStubsFit t.activeTrace.exits (p + traceExitStubMaxSize)
  behind : Behind t.activeTrace.exits p
  even : p % 2 = 0
  count : t.activeTrace.exits.length ≤ t.traceFragmentCount

theorem Going.same {t' : Thread T} (h : Going t p) (hsame : SameTrace t t') : Going t' p := by
  have hexits : t'.activeTrace.exits = t.activeTrace.exits := by rw [hsame.1]
  refine ⟨?_, ?_, h.even, ?_⟩
  · rw [hexits]
    exact h.fit
  · rw [hexits]
    exact h.behind
  · rw [hexits, hsame.2]
    exact h.count

def Left (r : Thread T × Outcome) : Prop := ∀ f, r.2.fragment = some f → Ready r.1 f

theorem left_leave (t : Thread T) (addr : Nat) : Left (leave t addr) := fun _ h => nomatch h

theorem jumpTo_length (p target : Nat) : (jumpTo p target).1 ≤ traceExitStubMaxSize ∧ (jumpTo p target).1 % 2 = 0 := by
  rw [jumpTo]
  split_ifs
  · decide
  · decide
  · decide

variable (hscanner : Spaced env 2 exitLength)
include hscanner

theorem resolve_safe (target : Nat) : Safe (resolve env t target) Left :=
  (lookupOrScan_safe hscanner target).bind fun r _ => safe_ok (left_leave r.1 r.2)

theorem exitTo_safe {addr : Nat} (h : Going t p) : Safe (exitTo env t source p target addr) Left := by
  have hearly : Safe (earlyTraceExit env t source p addr) fun _ => True := by
    obtain ⟨hlength, heven⟩ := jumpTo_length p addr
    have hfit : Fitting ((t.log (.link p (jumpTo p addr).1 (.trace t.activeTrace.entryAddr))).setWriteP
        (p + (jumpTo p addr).1)) := by
      have hbehind := h.behind.mono (Nat.le_add_right p (jumpTo p addr).1)
      have hp : (p + (jumpTo p addr).1) % 2 = 0 := by
        have := h.even
        omega
      exact ⟨stubsFit_mono h.fit (Nat.add_le_add_left hlength p) hbehind hp, hbehind, hp⟩
    exact (installTrace_safe hscanner hfit).bind fun t' _ => safe_ite (fun _ => safe_ok trivial) fun _ => safe_ok trivial
  exact hearly.bind fun t' _ => safe_ite (fun _ => resolve_safe hscanner target) fun _ => safe_ok (left_leave t' addr)

theorem unlinkedExit_safe (h : Going t p) : Safe (unlinkedExit env t source p target) Left :=
  (activeTraceLookupOrScan_safe hscanner target).bind fun _ hsame => exitTo_safe hscanner (h.same hsame)

theorem linkedExit_safe (h : Going t p) : Safe (linkedExit env t source p target) Left := by
  refine safe_ite (fun _ => ?_) fun _ => exitTo_safe hscanner h
  refine (activeTraceLookupOrScan_safe hscanner target).bind fun r hr => (recordCcLink_safe _ _).bind fun t' ht => ?_
  exact exitTo_safe hscanner ((h.same hr).same ht)

def Crowded (t : Thread T) : Prop :=
  (t.activeTrace.writeP : Int) - t.activeTrace.entryAddr + ((t.traceFragmentCount + 1) * traceExit % 256 : Nat) ≥
    ((wholeTrace - tracePadding) % 256 : Nat)

/-- What the scan of a fragment leaves: the exit of the fragment is in it. -/
structure Fragmented (t : Thread T) (r : Thread T × Nat × Nat) : Prop where
  active : r.1.activeTrace = { t.activeTrace with id := r.1.activeTrace.id }
  count : r.1.traceFragmentCount = t.traceFragmentCount + 1
  start : t.activeTrace.writeP ≤ (r.1.codeCacheMeta r.2.1).exitBranchAddr
  even : t.activeTrace.writeP % 2 = 0 → (r.1.codeCacheMeta r.2.1).exitBranchAddr % 2 = 0
  room : (r.1.codeCacheMeta r.2.1).exitBranchAddr + exitLength (r.1.codeCacheMeta r.2.1).exitBranchType ≤
    t.activeTrace.writeP + 2 * r.2.2

theorem scanTrace_safe {address : Nat} {type : CcType} (htype : type ≠ .bb) :
    Safe (scanTrace env t address type) fun r =>
      (Crowded t → SameTrace t r.1 ∧ r.2.2 = 0) ∧ (¬ Crowded t → Fragmented t r) := by
  refine allocateTraceFragment_safe.bind fun r hr => ?_
  obtain ⟨t₁, id⟩ := r
  have hmeta : SameTrace t (t₁.setMeta id fun m =>
    { m with sourceAddr := address, tpc := t.activeTrace.writeP, branchCacheStatus := 0 }) := hr
  refine (scanCode_safe hscanner).bind fun r hscan => ?_
  obtain ⟨t₂, size⟩ := r
  have hplaced := hscan.2 htype
  have hsame : SameTrace t t₂ := hmeta.trans hplaced.framed.sameTrace
  have hcrowded : ((t.activeTrace.writeP : Int) - t₂.activeTrace.entryAddr +
      ((t₂.traceFragmentCount + 1) * traceExit % 256 : Nat) ≥ ((wholeTrace - tracePadding) % 256 : Nat)) ↔ Crowded t := by
    rw [hsame.1, hsame.2, Crowded]
  refine safe_ite (fun hfull => safe_ok ?_) fun hfull => safe_ok ?_
  · exact ⟨fun _ => ⟨hsame, rfl⟩, fun hnot => absurd (hcrowded.mp hfull) hnot⟩
  · refine ⟨fun hc => absurd (hcrowded.mpr hc) hfull, fun _ => ?_⟩
    exact ⟨hsame.1, congrArg (· + 1) hsame.2, hplaced.start, hplaced.aligned, hplaced.room⟩

theorem nextFragment_safe (h : Going t p) (hp : t.activeTrace.writeP = p)
    (hlimit : t.traceFragmentCount ≤ maxTraceFragments) : Safe (nextFragment env t source p target) Left := by
  refine (scanTrace_safe hscanner CcType.noConfusion).bind fun r hr => ?_
  obtain ⟨t₁, fragmentId, fragmentLen⟩ := r
  have hcount : t.traceFragmentCount ≤ t₁.traceFragmentCount := by
    by_cases hc : Crowded t
    · exact Nat.le_of_eq (hr.1 hc).1.2.symm
    · rw [(hr.2 hc).count]
      exact Nat.le_succ _
  have hback : ∀ u : Thread T, u.activeTrace.exits = t.activeTrace.exits → u.traceFragmentCount = t₁.traceFragmentCount →
      Going u p := by
    intro u hexits hsame
    refine ⟨hexits ▸ h.fit, hexits ▸ h.behind, h.even, ?_⟩
    rw [hexits, hsame]
    exact Nat.le_trans h.count hcount
  refine safe_ite (fun _ => resolve_safe hscanner target) fun _ => ?_
  refine safe_ite (fun _ => linkedExit_safe hscanner (hback _ rfl rfl)) fun hlen => ?_
  refine safe_ite (fun _ => unlinkedExit_safe hscanner (hback _ rfl rfl)) fun hfit => ?_
  have hnot : ¬ Crowded t := fun hc => hlen (hr.1 hc).2
  obtain ⟨hactive, hnext, hstart, heven, hroom⟩ := hr.2 hnot
  have hexits : t₁.activeTrace.exits = t.activeTrace.exits := by rw [hactive]
  have hwrite : t₁.activeTrace.writeP = p := by rw [hactive]; exact hp
  rw [Bool.not_eq_true, Bool.not_eq_false'] at hfit
  have hfit' : traceExitStubsFit t₁.activeTrace.exits (p + 2 * fragmentLen) := by
    rw [← hwrite]
    exact hfit
  have hbehind : Behind t₁.activeTrace.exits p := by
    rw [hexits]
    exact h.behind
  refine safe_ite (fun _ => ?_) fun _ => safe_ok ?_
  · have hfitting : Fitting (t₁.setWriteP (t₁.activeTrace.writeP + 2 * fragmentLen)) := by
      refine ⟨hfit, ?_, ?_⟩
      · rw [hwrite]
        exact hbehind.mono (Nat.le_add_right _ _)
      · have := h.even
        change (t₁.activeTrace.writeP + 2 * fragmentLen) % 2 = 0
        omega
    refine (installTrace_safe hscanner hfitting).bind fun t₂ _ => ?_
    exact safe_ite (fun _ => resolve_safe hscanner target) fun _ => safe_ok (left_leave _ _)
  · intro f hf
    obtain rfl := Option.some.inj hf
    have hnarrow : p ≤ (t₁.codeCacheMeta fragmentId).exitBranchAddr := hp ▸ hstart
    refine ⟨⟨p + 2 * fragmentLen, hfit', ?_⟩, hbehind.mono hnarrow, heven (hp ▸ h.even), ?_, ?_⟩
    · rw [← hp]
      exact hroom
    · change t₁.activeTrace.exits.length < t₁.traceFragmentCount
      rw [hexits, hnext]
      exact Nat.lt_succ_of_le h.count
    · change t₁.traceFragmentCount ≤ maxTraceRecExits
      rw [hnext]
      exact Nat.succ_le_succ hlimit

theorem continueTrace_safe (h : Going t p) : Safe (continueTrace env t source p target) Left := by
  have h₁ : Going (t.setWriteP p) p := ⟨h.fit, h.behind, h.even, h.count⟩
  refine safe_ite (fun _ => resolve_safe hscanner target) fun _ => ?_
  refine safe_ite (fun _ => unlinkedExit_safe hscanner h₁) fun _ => ?_
  refine safe_ite (fun _ => linkedExit_safe hscanner h₁) fun hcount => ?_
  refine safe_ite (fun _ => exitTo_safe hscanner h₁) fun _ => ?_
  exact nextFragment_safe hscanner h₁ rfl (Nat.le_of_not_lt hcount)

theorem setUpTraceExitBranchPlaceholder_safe {isTaken : Bool} (h : Ready t source)
    (htype : (t.codeCacheMeta source).exitBranchType = .branchRiscv) :
    Safe (setUpTraceExitBranchPlaceholder env { t with wasFlushed := false } (t.codeCacheMeta source).exitBranchAddr source
      isTaken) fun r => Going r.1 r.2 := by
  have hother : ∀ (u : Thread T) a, Safe (otherSide env u a) fun r => SameTrace u r.1 := by
    intro u a
    exact safe_ite (fun _ => lookupOrScan_safe hscanner a) fun _ => safe_ok SameTrace.refl
  refine (hother _ _).bind fun r hr => ?_
  obtain ⟨t₁, tpc⟩ := r
  have hexits : t₁.activeTrace.exits = t.activeTrace.exits := by rw [hr.1]
  have hcount : t₁.traceFragmentCount = t.traceFragmentCount := hr.2
  obtain ⟨w, hfit, hroom⟩ := h.fit
  rw [htype, exitLength] at hroom
  have hfew : t₁.activeTrace.exits.length < maxTraceRecExits := by
    rw [hexits]
    exact Nat.lt_of_lt_of_le h.count h.limit
  dsimp only
  rw [traceRecordExit, if_pos hfew]
  refine safe_ok ?_
  have heven := h.even
  have hbehind : Behind t₁.activeTrace.exits (t.codeCacheMeta source).exitBranchAddr := by
    rw [hexits]
    exact h.behind
  refine ⟨?_, ?_, ?_, ?_⟩
  · refine stubsFit_append (stubsFit_mono (hexits ▸ hfit) ?_ (hbehind.mono ?_) ?_) ?_
    · rw [traceExitStubMaxSize]
      omega
    · rw [traceExitStubMaxSize]
      omega
    · rw [traceExitStubMaxSize]
      omega
    · rw [maxTraceRecExits, maxTraceFragments] at hfew
      rw [bBranchCanReach, decide_eq_true_eq, traceExitStubMaxSize]
      dsimp only
      omega
  · intro e he
    rcases List.mem_append.mp he with hold | hnew
    · exact hbehind.mono (Nat.le_add_right _ _) e hold
    · rw [List.mem_singleton.mp hnew]
      exact ⟨Nat.le_add_right _ _, heven⟩
  · omega
  · change (t₁.activeTrace.exits ++ [_]).length ≤ t₁.traceFragmentCount
    rw [List.length_append, hexits, hcount]
    exact h.count

theorem traceDispatcher_safe (h : Ready t source) : Safe (traceDispatcher env t target source) Left := by
  rw [traceDispatcher]
  split
  · rename_i htype
    refine (setUpTraceExitBranchPlaceholder_safe hscanner h htype).bind fun r hr => continueTrace_safe hscanner ?_
    exact ⟨hr.fit, hr.behind, hr.even, hr.count⟩
  · rename_i htype
    obtain ⟨w, hfit, hroom⟩ := h.fit
    rw [htype, exitLength] at hroom
    have heven := h.even
    refine continueTrace_safe hscanner ⟨stubsFit_mono hfit ?_ (h.behind.mono ?_) ?_, h.behind, h.even,
      Nat.le_of_lt h.count⟩
    · rw [traceExitStubMaxSize]
      omega
    · exact Nat.le_add_right _ _
    · rw [traceExitStubMaxSize]
      omega
  · exact resolve_safe hscanner target
  · exact safe_endless

theorem traceDispatcher_indirect (htype : (t.codeCacheMeta source).exitBranchType = .jalrRiscv) :
    Safe (traceDispatcher env t target source) Left := by
  rw [traceDispatcher, htype]
  exact resolve_safe hscanner target

theorem createTrace_safe (bbSource : Nat) : Safe (createTrace env t bbSource) Left := by
  rw [createTrace]
  refine safe_ite (fun _ => safe_ite (fun _ => resolve_safe hscanner _) fun _ => ?_) fun _ => safe_endless
  refine (scanTrace_safe hscanner CcType.noConfusion).bind fun r hr => ?_
  obtain ⟨t₁, traceId, len⟩ := r
  have hnot : ¬ Crowded (beginTrace { t with traceFragmentCount := 0, traceCacheNext := alignTrace t.traceCacheNext }
      bbSource) := by
    intro hc
    have hzero : ((alignTrace t.traceCacheNext : Nat) : Int) - alignTrace t.traceCacheNext +
        ((0 + 1) * traceExit % 256 : Nat) ≥ ((wholeTrace - tracePadding) % 256 : Nat) := hc
    rw [traceExit, wholeTrace, tracePadding] at hzero
    omega
  obtain ⟨hactive, hcount, hstart, heven, hroom⟩ := hr.2 hnot
  have hexits : t₁.activeTrace.exits = [] := by
    rw [hactive]
    rfl
  refine safe_ite (fun _ => resolve_safe hscanner _) fun _ => safe_ite (fun _ => safe_ok ?_) fun _ => safe_endless
  intro f hf
  obtain rfl := Option.some.inj hf
  have halign : alignTrace t.traceCacheNext % 2 = 0 := by
    rw [alignTrace, traceAlign]
    omega
  refine ⟨⟨_, ?_, hroom⟩, ?_, heven halign, ?_, ?_⟩
  · change traceExitStubsFit t₁.activeTrace.exits _
    rw [hexits]
    rfl
  · change Behind t₁.activeTrace.exits _
    rw [hexits]
    exact fun e he => nomatch he
  · change t₁.activeTrace.exits.length < t₁.traceFragmentCount
    rw [hexits, hcount]
    exact Nat.zero_lt_succ _
  · change t₁.traceFragmentCount ≤ _
    rw [hcount]
    exact (by decide : 0 + 1 ≤ maxTraceRecExits)

variable {tryJumpTrampolines : Thread T → Nat → Nat → Bool}

omit hscanner in
theorem linkTo_safe (bb writeP target : Nat) : Safe (linkTo env t tryJumpTrampolines bb writeP target) fun _ => True := by
  exact (recordCcLink_safe _ _).bind fun t' _ => safe_ite (fun _ => safe_ok trivial) fun _ => safe_assertion

omit hscanner in
theorem linkBranchTo_safe (bb writeP target : Nat) (other : Option Nat) :
    Safe (linkBranchTo env t tryJumpTrampolines bb writeP target other) fun _ => True := by
  refine (recordCcLink_safe _ _).bind fun t' _ => ?_
  cases other with
  | none => exact safe_ok trivial
  | some other => exact (linkTo_safe _ _ _).bind fun _ _ => safe_ok trivial

omit hscanner in
theorem dispatcherRiscv_safe (source : Nat) (exitType : BranchType) (blockAddress : Nat) :
    Safe (dispatcherRiscv env t tryJumpTrampolines source exitType blockAddress) fun _ => True := by
  unfold dispatcherRiscv
  split
  · refine safe_ite (fun _ => safe_assertion) fun _ => ?_
    refine safe_ite (fun _ => linkBranchTo_safe _ _ _ _) fun _ => safe_ite (fun _ => linkBranchTo_safe _ _ _ _) fun _ => ?_
    refine (linkTo_safe _ _ _).bind fun r _ => ?_
    obtain ⟨t₁, p⟩ := r
    dsimp only
    split
    · exact (linkTo_safe _ _ _).bind fun _ _ => safe_ok trivial
    · exact safe_ok trivial
  · exact (linkTo_safe _ _ _).bind fun _ _ => safe_ok trivial
  · exact safe_ok trivial

theorem dispatcher_safe (hsource : source < codeCacheSize) :
    Safe (dispatcher env t tryJumpTrampolines target source) Left := by
  rw [dispatcher, if_neg (Nat.not_le_of_lt hsource)]
  refine (lookupOrScan_safe hscanner target).bind fun r _ => ?_
  refine safe_ite (fun _ => safe_ok (left_leave _ _)) fun _ => ?_
  exact (dispatcherRiscv_safe _ _ _).bind fun t' _ => safe_ok (left_leave t' _)

end Calls

section Runs

variable {tryJumpTrampolines : Thread T → Nat → Nat → Bool} {s s' : System T} {call : Call}

def ExitInv (s : System T) : Prop := ∀ f, s.control = .building f → Ready s.thread f

theorem Left.exitInv {t : Thread T} {o : Outcome} (h : Left (t, o)) : ExitInv ⟨t, .ofOutcome o⟩ :=
  fun f hf => h f (fragment_of_building hf)

theorem Ready.flush {f : Nat} (h : Ready t f) : Ready (flushCodeCache env t) f := by
  obtain ⟨haddr, htype⟩ := flush_exit env t f
  have hlength : exitLength ((flushCodeCache env t).codeCacheMeta f).exitBranchType ≤
      exitLength (t.codeCacheMeta f).exitBranchType := by
    rcases htype with heq | heq
    · exact Nat.le_of_eq (congrArg _ heq)
    · rw [heq]
      exact Nat.zero_le _
  obtain ⟨w, hfit, hroom⟩ := h.fit
  refine ⟨⟨w, hfit, ?_⟩, ?_, ?_, h.count, h.limit⟩
  · rw [haddr]
    exact Nat.le_trans (Nat.add_le_add_left hlength _) hroom
  · rw [haddr]
    exact h.behind
  · rw [haddr]
    exact h.even

theorem step_exitInv (hscanner : Spaced env 2 exitLength) (hstep : Step env (rvCalls env tryJumpTrampolines) s call s')
    (h : ExitInv s) : ExitInv s' := by
  cases hstep with
  | create _ hcall => exact Left.exitInv ((createTrace_safe hscanner _).ok _ hcall)
  | fragment hcall => exact Left.exitInv ((traceDispatcher_safe hscanner (h _ rfl)).ok _ hcall)
  | indirect htype hcall => exact Left.exitInv ((traceDispatcher_indirect hscanner htype).ok _ hcall)
  | block hsource hcall => exact Left.exitInv ((dispatcher_safe hscanner hsource).ok _ hcall)
  | unmap => exact fun f hf => (h f hf).flush

/-- No call of a run fails on the range or the number of the exits of a trace. -/
theorem fails_other (hscanner : Spaced env 2 exitLength)
    (h : Reachable env (rvCalls env tryJumpTrampolines) (fun _ _ => True) s) {e : Stop}
    (hfails : Fails (rvCalls env tryJumpTrampolines) s e call) : Other e := by
  have hinv : ExitInv s := by
    refine h.invariant (fun _ _ hf => nomatch hf) ?_
    exact fun _ _ _ _ hstep => step_exitInv hscanner hstep
  cases call with
  | create bbSource => exact (createTrace_safe hscanner bbSource).error _ hfails.2.2
  | dispatch target source =>
      rcases hfails with ⟨hcontrol, hcall⟩ | ⟨-, htype, hcall⟩ | ⟨-, hsource, hcall⟩
      · exact (traceDispatcher_safe hscanner (hinv source hcontrol)).error _ hcall
      · exact (traceDispatcher_indirect hscanner htype).error _ hcall
      · exact (dispatcher_safe hscanner hsource).error _ hcall
  | unmap => exact hfails.elim

end Runs

end Mambo.RvTraceExits
