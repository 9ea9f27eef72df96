import Mambo.A64TraceRuns
import Mambo.TraceExits

namespace Mambo.A64TraceExits

open TraceState TraceLog TraceRuns TraceExits A64Traces A64TraceRuns

section Stubs

def Behind (exits : List TraceExit) (p : Nat) : Prop := ∀ e ∈ exits, e.source ≤ p

variable {exits : List TraceExit} {e : TraceExit} {p q max : Nat}

theorem Behind.mono (h : Behind exits p) (hle : p ≤ q) : Behind exits q := fun e he => Nat.le_trans (h e he) hle

theorem alignStub_bounds (p : Nat) : p ≤ alignStub p ∧ alignStub p ≤ p + 15 := by
  rw [alignStub]
  omega

theorem alignStub_mono (h : p ≤ q) : alignStub p ≤ alignStub q := by
  rw [alignStub, alignStub]
  omega

theorem within_mono (h : isOffsetWithinRange ((q : Int) - e.source) max) (hle : p ≤ q) (hlow : e.source ≤ p) :
    isOffsetWithinRange ((p : Int) - e.source) max := by
  rw [isOffsetWithinRange, decide_eq_true_eq] at h ⊢
  omega

/-- The emitted exit sequence of a fragment: the exit branch and an early exit. -/
def exitLength : BranchType → Nat
  | .cbzA64 | .condImmA64 | .tbzA64 => 8
  | .uncondImmA64 => 4
  | _ => 0

theorem condBranchRange_ok {type : BranchType} (h : condBranchRange type = .ok max) :
    exitLength type = 8 ∧ thirtyTwoKb ≤ max := by
  cases type with
  | cbzA64 | condImmA64 | tbzA64 =>
      obtain rfl := Except.ok.inj h
      exact ⟨rfl, by decide⟩
  | unknown | stub | uncondImmA64 | uncondBranchReg | traceExit | jalRiscv | jalrRiscv | branchRiscv
      | atomicMemoryRiscv => cases h

theorem condBranchRange_safe (type : BranchType) : Safe (condBranchRange type) fun max => condBranchRange type = .ok max := by
  cases type with
  | cbzA64 | condImmA64 | tbzA64 => exact safe_ok rfl
  | unknown | stub | uncondImmA64 | uncondBranchReg | traceExit | jalRiscv | jalrRiscv | branchRiscv
      | atomicMemoryRiscv => exact safe_endless

theorem stubsFit_safe (exits : List TraceExit) (p : Nat) :
    Safe (traceExitStubsFit exits p) fun fit => traceExitStubsFit exits p = .ok fit := by
  refine ⟨?_, fun _ h => h⟩
  have hsafe : Safe (traceExitStubsFit exits p) fun _ => True := by
    induction exits generalizing p with
    | nil => exact safe_ok trivial
    | cons e rest ih =>
        exact (condBranchRange_safe e.kind).bind fun max _ => safe_ite (fun _ => ih _) fun _ => safe_ok trivial
  exact hsafe.error

theorem stubsFit_cons : traceExitStubsFit (e :: exits) p = .ok true ↔ ∃ max, condBranchRange e.kind = .ok max ∧
    isOffsetWithinRange ((alignStub p : Int) - e.source) max ∧ traceExitStubsFit exits (alignStub p + 16) = .ok true := by
  refine ⟨fun h => ?_, fun h => ?_⟩
  · obtain ⟨max, hmax, h⟩ := bind_ok h
    split_ifs at h with hin
    · exact ⟨max, hmax, hin, h⟩
    · cases Except.ok.inj h
  · obtain ⟨max, hmax, hin, h⟩ := h
    rw [traceExitStubsFit, hmax]
    exact (if_pos hin).trans h

theorem stubsFit_mono (h : traceExitStubsFit exits q = .ok true) (hle : p ≤ q) (hbehind : Behind exits p) :
    traceExitStubsFit exits p = .ok true := by
  induction exits generalizing p q with
  | nil => rfl
  | cons e rest ih =>
      obtain ⟨max, hmax, hin, hrest⟩ := stubsFit_cons.mp h
      have hp := (alignStub_bounds p).1
      have hlow : e.source ≤ alignStub p := Nat.le_trans (hbehind e List.mem_cons_self) hp
      have hbehind' : Behind rest p := fun e he => hbehind e (List.mem_cons_of_mem _ he)
      refine stubsFit_cons.mpr ⟨max, hmax, within_mono hin (alignStub_mono hle) hlow, ?_⟩
      exact ih hrest (Nat.add_le_add_right (alignStub_mono hle) 16) (hbehind'.mono (Nat.le_add_right_of_le hp))

theorem stubsFit_append (h : traceExitStubsFit exits p = .ok true) (hmax : condBranchRange e.kind = .ok max)
    (hlow : e.source ≤ p) (hnear : p + 31 * exits.length + 19 ≤ e.source + thirtyTwoKb) :
    traceExitStubsFit (exits ++ [e]) p = .ok true := by
  have hrange := (condBranchRange_ok hmax).2
  induction exits generalizing p with
  | nil =>
      obtain ⟨hp, hp'⟩ := alignStub_bounds p
      refine stubsFit_cons.mpr ⟨max, hmax, ?_, rfl⟩
      rw [isOffsetWithinRange, decide_eq_true_eq]
      rw [List.length_nil] at hnear
      omega
  | cons e' rest ih =>
      obtain ⟨max', hmax', hin, hrest⟩ := stubsFit_cons.mp h
      obtain ⟨hp, hp'⟩ := alignStub_bounds p
      rw [List.length_cons] at hnear
      exact stubsFit_cons.mpr ⟨max', hmax', hin, ih hrest (by omega) (by omega)⟩

end Stubs

variable {T : Type} {env : Env T} {t : Thread T} {isInstructionPositionIndependent : Thread T → Nat → Bool}

section Install

theorem linkExit_safe (e : TraceExit) : Safe (linkExit env t e) fun _ => True :=
  safe_ite (fun _ => (recordCcLink_safe _ _).mono fun _ _ => trivial) fun _ => safe_ok trivial

theorem writeStub_safe (e : TraceExit) (exitStart : Nat) :
    Safe (writeStub t isInstructionPositionIndependent e exitStart) fun r => exitStart ≤ r.2 ∧ r.2 ≤ exitStart + 16 := by
  refine allocateTraceFragment_safe.bind fun r _ => safe_ok ?_
  have hcopied : copied r.1 isInstructionPositionIndependent e.target ≤ 2 := by
    rw [copied]
    split_ifs
    · exact Nat.le_refl 2
    · exact Nat.le_succ 1
    · exact Nat.zero_le 2
  dsimp only
  omega

theorem writeExits_safe {exits : List TraceExit} {p : Nat} (hfit : traceExitStubsFit exits p = .ok true)
    (hbehind : Behind exits p) :
    Safe (writeExits env isInstructionPositionIndependent exits t p) fun _ => True := by
  induction exits generalizing t p with
  | nil => exact safe_ok trivial
  | cons e rest ih =>
      obtain ⟨max, hmax, hin, hrest⟩ := stubsFit_cons.mp hfit
      have hbehind' : Behind rest (alignStub p) :=
        Behind.mono (fun e he => hbehind e (List.mem_cons_of_mem _ he)) (alignStub_bounds p).1
      rw [writeExits]
      refine (condBranchRange_safe e.kind).bind fun max' hmax' => ?_
      obtain rfl := Except.ok.inj (hmax.symm.trans hmax')
      refine (linkExit_safe e).bind fun t₁ _ => safe_ite (fun _ => ?_) fun _ => ?_
      · refine (writeStub_safe e (alignStub p)).bind fun r hr => safe_ite (fun _ => ?_) fun hout => absurd hin hout
        exact ih (stubsFit_mono hrest hr.2 (hbehind'.mono hr.1)) (hbehind'.mono hr.1)
      · exact ih (stubsFit_mono hrest (Nat.le_add_right _ _) hbehind') hbehind'

theorem patchLinks_same (links : List Nat) (t : Thread T) : SameTrace t (patchLinks links t) := by
  induction links generalizing t with
  | nil => exact SameTrace.refl
  | cons link rest ih =>
      have hlog : SameTrace t (t.log (.patch link 4)) := ⟨rfl, rfl⟩
      exact hlog.trans (ih _)

theorem writeExits_patched {u : Thread T} (v : Thread T)
    (hfit : traceExitStubsFit t.activeTrace.exits t.activeTrace.writeP = .ok true)
    (hbehind : Behind t.activeTrace.exits t.activeTrace.writeP)
    (hsame : SameTrace (t.setActive fun a => { a with active := false }) u) :
    Safe (writeExits env isInstructionPositionIndependent u.activeTrace.exits v u.activeTrace.writeP) fun _ => True := by
  have hexits : u.activeTrace.exits = t.activeTrace.exits := by
    rw [hsame.1]
    rfl
  have hwrite : u.activeTrace.writeP = t.activeTrace.writeP := by
    rw [hsame.1]
    rfl
  rw [hexits, hwrite]
  exact writeExits_safe hfit hbehind

theorem installTrace_safe (hfit : traceExitStubsFit t.activeTrace.exits t.activeTrace.writeP = .ok true)
    (hbehind : Behind t.activeTrace.exits t.activeTrace.writeP) :
    Safe (installTrace env t isInstructionPositionIndependent) fun _ => True := by
  refine safe_ite (fun _ => safe_assertion) fun _ => ?_
  refine Safe.bind (p := fun _ => True) ?_ fun _ _ => safe_ok trivial
  exact writeExits_patched _ hfit hbehind (patchLinks_same _ _)

end Install

section Calls

variable {source p target : Nat}

/-- An unfinished trace before a call from its last fragment: the stubs of its exits
fit behind the fragment, and they are no more than the fragments. -/
structure Ready (t : Thread T) (f : Nat) : Prop where
  fit : ∃ w, traceExitStubsFit t.activeTrace.exits w = .ok true ∧
    (t.codeCacheMeta f).exitBranchAddr + exitLength (t.codeCacheMeta f).exitBranchType ≤ w
  behind : Behind t.activeTrace.exits (t.codeCacheMeta f).exitBranchAddr
  count : t.activeTrace.exits.length < t.traceFragmentCount
  limit : t.traceFragmentCount ≤ maxTraceRecExits

/-- During the call, once the exit of the fragment is set up: an early exit can be
written at an address. -/
structure Going (t : Thread T) (p : Nat) : Prop where
  fit : traceExitStubsFit t.activeTrace.exits (p + 4) = .ok true
  behind : Behind t.activeTrace.exits p
  count : t.activeTrace.exits.length ≤ t.traceFragmentCount

theorem Going.same {t' : Thread T} (h : Going t p) (hsame : SameTrace t t') : Going t' p := by
  have hexits : t'.activeTrace.exits = t.activeTrace.exits := by rw [hsame.1]
  refine ⟨?_, ?_, ?_⟩
  · rw [hexits]
    exact h.fit
  · rw [hexits]
    exact h.behind
  · rw [hexits, hsame.2]
    exact h.count

def Left (r : Thread T × Outcome) : Prop := ∀ f, r.2.fragment = some f → Ready r.1 f

theorem left_leave (t : Thread T) (addr : Nat) : Left (leave t addr) := fun _ h => by cases h

theorem exitTo_safe {addr : Nat} (h : Going t p) :
    Safe (exitTo env t isInstructionPositionIndependent source p addr) Left := by
  have hearly : Safe (earlyTraceExit env t isInstructionPositionIndependent source p addr) fun _ => True := by
    refine (recordCcLink_safe _ _).bind fun t₁ hsame => ?_
    have h₁ : Going t₁ p := h.same hsame
    have hinstall : Safe (installTrace env (t₁.setWriteP (p + 4)) isInstructionPositionIndependent) fun _ => True :=
      installTrace_safe h₁.fit (h₁.behind.mono (Nat.le_add_right _ _))
    exact hinstall.bind fun _ _ => safe_ok trivial
  exact hearly.bind fun t' _ => safe_ok (left_leave t' addr)

variable (hscanner : Spaced env 1 exitLength)
include hscanner

theorem resolve_safe (target : Nat) : Safe (resolve env t target) Left :=
  (lookupOrScan_safe hscanner target).bind fun r _ => safe_ok (left_leave r.1 r.2)

theorem scanAndExit_safe (h : Going t p) :
    Safe (scanAndExit env t isInstructionPositionIndependent source p target) Left :=
  (activeTraceLookupOrScan_safe hscanner target).bind fun _ hsame => exitTo_safe (h.same hsame)

/-- What the scan of a fragment leaves: the exit of the fragment is in it. -/
structure Fragmented (t : Thread T) (r : Thread T × Nat × Nat) : Prop where
  active : r.1.activeTrace = { t.activeTrace with id := r.1.activeTrace.id }
  count : r.1.traceFragmentCount = t.traceFragmentCount + 1
  start : t.activeTrace.writeP ≤ (r.1.codeCacheMeta r.2.1).exitBranchAddr
  room : (r.1.codeCacheMeta r.2.1).exitBranchAddr + exitLength (r.1.codeCacheMeta r.2.1).exitBranchType ≤
    t.activeTrace.writeP + r.2.2

theorem scanTrace_safe {address : Nat} {type : CcType} (htype : type ≠ .bb) :
    Safe (scanTrace env t address type) (Fragmented t) := by
  refine allocateTraceFragment_safe.bind fun r hr => ?_
  obtain ⟨t₁, id⟩ := r
  have hmeta : SameTrace t (t₁.setMeta id fun m =>
    { m with sourceAddr := address, tpc := t.activeTrace.writeP, branchCacheStatus := 0 }) := hr
  refine (scanCode_safe hscanner).bind fun r hscan => safe_ok ?_
  have hplaced := hscan.2 htype
  have hsame : SameTrace t r.1 := hmeta.trans hplaced.framed.sameTrace
  exact ⟨hsame.1, congrArg (· + 1) hsame.2, hplaced.start, Nat.one_mul r.2 ▸ hplaced.room⟩

theorem nextFragment_safe (h : Going t p) (hp : t.activeTrace.writeP = p)
    (hlimit : t.traceFragmentCount ≤ maxTraceFragments) :
    Safe (nextFragment env t isInstructionPositionIndependent source p target) Left := by
  refine (scanTrace_safe hscanner CcType.noConfusion).bind fun r hr => ?_
  obtain ⟨t₁, fragmentId, fragmentLen⟩ := r
  obtain ⟨hactive, hnext, hstart, hroom⟩ := hr
  have hexits : t₁.activeTrace.exits = t.activeTrace.exits := by rw [hactive]
  have hwrite : t₁.activeTrace.writeP = p := by rw [hactive]; exact hp
  have hbehind : Behind t₁.activeTrace.exits p := by
    rw [hexits]
    exact h.behind
  refine (stubsFit_safe _ _).bind fun fit hfit => ?_
  cases fit with
  | false =>
      refine scanAndExit_safe hscanner ⟨?_, hbehind, ?_⟩
      · change traceExitStubsFit t₁.activeTrace.exits (p + 4) = .ok true
        rw [hexits]
        exact h.fit
      · change t₁.activeTrace.exits.length ≤ t₁.traceFragmentCount
        rw [hexits, hnext]
        exact Nat.le_succ_of_le h.count
  | true =>
      rw [if_neg (by decide)]
      refine safe_ite (fun _ => ?_) fun _ => safe_ok ?_
      · have hend : Behind t₁.activeTrace.exits (t₁.activeTrace.writeP + fragmentLen) := by
          rw [hwrite]
          exact hbehind.mono (Nat.le_add_right _ _)
        have hinstall : Safe (installTrace env (t₁.setWriteP (t₁.activeTrace.writeP + fragmentLen))
            isInstructionPositionIndependent) fun _ => True := installTrace_safe hfit hend
        exact hinstall.bind fun t₂ _ => safe_ok (left_leave _ _)
      · intro f hf
        obtain rfl := Option.some.inj hf
        refine ⟨⟨_, hfit, ?_⟩, hbehind.mono (hp ▸ hstart), ?_, ?_⟩
        · change _ ≤ t₁.activeTrace.writeP + fragmentLen
          rw [hwrite, ← hp]
          exact hroom
        · change t₁.activeTrace.exits.length < t₁.traceFragmentCount
          rw [hexits, hnext]
          exact Nat.lt_succ_of_le h.count
        · change t₁.traceFragmentCount ≤ maxTraceRecExits
          rw [hnext]
          exact Nat.succ_le_succ hlimit

theorem continueTrace_safe (h : Going t p) :
    Safe (continueTrace env t isInstructionPositionIndependent source p target) Left := by
  have h₁ : Going (t.setWriteP p) p := ⟨h.fit, h.behind, h.count⟩
  refine safe_ite (fun _ => resolve_safe hscanner target) fun _ => ?_
  refine safe_ite (fun _ => scanAndExit_safe hscanner h₁) fun _ => (stubsFit_safe _ _).bind fun fit _ => ?_
  refine safe_ite (fun _ => scanAndExit_safe hscanner h₁) fun _ => ?_
  refine safe_ite (fun _ => scanAndExit_safe hscanner h₁) fun hcount => ?_
  refine safe_ite (fun _ => exitTo_safe h₁) fun _ => ?_
  exact nextFragment_safe hscanner h₁ rfl (Nat.le_of_not_lt hcount)

theorem setUpTraceExit_safe {isTaken : Bool} {max : Nat} (h : Ready t source)
    (hmax : condBranchRange (t.codeCacheMeta source).exitBranchType = .ok max) :
    Safe (setUpTraceExit env { t with wasFlushed := false } (t.codeCacheMeta source).exitBranchAddr source isTaken)
      fun r => Going r.1 r.2 := by
  refine (activeTraceLookupOrScan_safe hscanner _).bind fun r hr => ?_
  obtain ⟨t₁, tpc⟩ := r
  have hexits : t₁.activeTrace.exits = t.activeTrace.exits := by rw [hr.1]
  have hcount : t₁.traceFragmentCount = t.traceFragmentCount := hr.2
  obtain ⟨w, hfit, hroom⟩ := h.fit
  rw [(condBranchRange_ok hmax).1] at hroom
  have hfew : t₁.activeTrace.exits.length < maxTraceRecExits := by
    rw [hexits]
    exact Nat.lt_of_lt_of_le h.count h.limit
  have hbehind : Behind t₁.activeTrace.exits (t.codeCacheMeta source).exitBranchAddr := by
    rw [hexits]
    exact h.behind
  dsimp only
  rw [traceRecordExit, if_pos hfew]
  refine safe_ok ⟨?_, ?_, ?_⟩
  · refine stubsFit_append (stubsFit_mono (hexits ▸ hfit) hroom (hbehind.mono ?_)) hmax ?_ ?_
    · omega
    · dsimp only
      omega
    · rw [maxTraceRecExits, maxTraceFragments] at hfew
      rw [thirtyTwoKb]
      dsimp only
      omega
  · intro e he
    rcases List.mem_append.mp he with hold | hnew
    · exact hbehind.mono (Nat.le_add_right _ _) e hold
    · rw [List.mem_singleton.mp hnew]
      exact Nat.le_add_right _ _
  · change (t₁.activeTrace.exits ++ [_]).length ≤ t₁.traceFragmentCount
    rw [List.length_append, hexits, hcount]
    exact h.count

theorem traceDispatcher_safe (h : Ready t source) :
    Safe (traceDispatcher env t isInstructionPositionIndependent target source) Left := by
  have hconditional : ∀ {max isTaken status},
      condBranchRange (t.codeCacheMeta source).exitBranchType = .ok max →
      Safe (do
        let r ← setUpTraceExit env { t with wasFlushed := false } (t.codeCacheMeta source).exitBranchAddr source
          isTaken
        continueTrace env (r.1.setMeta source fun m => { m with branchCacheStatus := status })
          isInstructionPositionIndependent source r.2 target) Left := by
    intro max isTaken status hmax
    refine (setUpTraceExit_safe hscanner h hmax).bind fun r hr => continueTrace_safe hscanner ?_
    exact ⟨hr.fit, hr.behind, hr.count⟩
  rw [traceDispatcher]
  split
  · rename_i htype
    exact hconditional (by rw [htype]; rfl)
  · rename_i htype
    exact hconditional (by rw [htype]; rfl)
  · rename_i htype
    exact hconditional (by rw [htype]; rfl)
  · rename_i htype
    obtain ⟨w, hfit, hroom⟩ := h.fit
    rw [htype, exitLength] at hroom
    refine continueTrace_safe hscanner ⟨stubsFit_mono hfit hroom ?_, h.behind, Nat.le_of_lt h.count⟩
    exact h.behind.mono (Nat.le_add_right _ _)
  · exact resolve_safe hscanner target
  · exact safe_endless

theorem traceDispatcher_indirect (htype : (t.codeCacheMeta source).exitBranchType = .uncondBranchReg) :
    Safe (traceDispatcher env t isInstructionPositionIndependent target source) Left := by
  rw [traceDispatcher, htype]
  exact resolve_safe hscanner target

theorem createTrace_safe (bbSource : Nat) : Safe (createTrace env t bbSource) Left := by
  rw [createTrace]
  refine safe_ite (fun _ => safe_ite (fun _ => resolve_safe hscanner _) fun _ => ?_) fun _ => safe_endless
  refine (scanTrace_safe hscanner CcType.noConfusion).bind fun r hr => ?_
  obtain ⟨t₁, traceId, len⟩ := r
  obtain ⟨hactive, hcount, hstart, hroom⟩ := hr
  have hexits : t₁.activeTrace.exits = [] := by
    rw [hactive]
    rfl
  refine safe_ite (fun _ => safe_ok ?_) fun _ => safe_endless
  intro f hf
  obtain rfl := Option.some.inj hf
  refine ⟨⟨_, ?_, hroom⟩, ?_, ?_, ?_⟩
  · change traceExitStubsFit t₁.activeTrace.exits _ = .ok true
    rw [hexits]
    rfl
  · change Behind t₁.activeTrace.exits _
    rw [hexits]
    exact fun e he => by cases he
  · change t₁.activeTrace.exits.length < t₁.traceFragmentCount
    rw [hexits, hcount]
    exact Nat.zero_lt_succ _
  · change t₁.traceFragmentCount ≤ _
    rw [hcount]
    exact (by decide : 0 + 1 ≤ maxTraceRecExits)

omit hscanner in
theorem dispatcherAarch64_safe (source : Nat) (exitType : BranchType) (target blockAddress : Nat) :
    Safe (dispatcherAarch64 env t source exitType target blockAddress) fun _ => True := by
  have hbranch : ∀ (u : Thread T) fragment a b, Safe (ccBranch env u fragment a b) fun _ => True :=
    fun u fragment a b => (recordCcLink_safe _ _).mono fun _ _ => trivial
  have hconditional : Safe (linkConditional env t source target blockAddress) fun _ => True := by
    refine safe_ite (fun _ => (hbranch _ _ _ _).bind fun t₁ _ => ?_) fun _ => hbranch _ _ _ _
    exact safe_ite (fun _ => (hbranch _ _ _ _).bind fun _ _ => safe_ok trivial) fun _ => safe_ok trivial
  unfold dispatcherAarch64
  split
  · exact (hbranch _ _ _ _).bind fun _ _ => safe_ok trivial
  · exact hconditional
  · exact hconditional
  · exact hconditional
  · exact safe_ok trivial

theorem dispatcher_safe (hsource : source < codeCacheSize) :
    Safe (dispatcher env t isInstructionPositionIndependent target source) Left := by
  rw [dispatcher, if_neg (Nat.not_le_of_lt hsource)]
  refine (lookupOrScan_safe hscanner target).bind fun r _ => ?_
  refine safe_ite (fun _ => safe_ok (left_leave _ _)) fun _ => ?_
  exact (dispatcherAarch64_safe _ _ _ _).bind fun t' _ => safe_ok (left_leave t' _)

end Calls

section Runs

variable {s s' : System T} {call : Call}

def ExitInv (s : System T) : Prop := ∀ f, s.control = .building f → Ready s.thread f

theorem Left.exitInv {t : Thread T} {o : Outcome} (h : Left (t, o)) : ExitInv ⟨t, .ofOutcome o⟩ :=
  fun f hf => h f (fragment_of_building hf)

theorem Ready.flush {f : Nat} (h : Ready t f) : Ready (flushCodeCache env t) f := by
  obtain ⟨haddr, htype⟩ := flush_exit env t f
  have hlength : exitLength ((flushCodeCache env t).codeCacheMeta f).exitBranchType ≤
      exitLength (t.codeCacheMeta f).exitBranchType := by
    rcases htype with heq | heq
    · exact Nat.le_of_eq (congrArg _ heq)
    · rw [heq]
      exact Nat.zero_le _
  obtain ⟨w, hfit, hroom⟩ := h.fit
  refine ⟨⟨w, hfit, ?_⟩, ?_, h.count, h.limit⟩
  · rw [haddr]
    exact Nat.le_trans (Nat.add_le_add_left hlength _) hroom
  · rw [haddr]
    exact h.behind

theorem step_exitInv (hscanner : Spaced env 1 exitLength)
    (hstep : Step env (a64Calls env isInstructionPositionIndependent) s call s') (h : ExitInv s) : ExitInv s' := by
  cases hstep with
  | create _ hcall => exact Left.exitInv ((createTrace_safe hscanner _).ok _ hcall)
  | fragment hcall => exact Left.exitInv ((traceDispatcher_safe hscanner (h _ rfl)).ok _ hcall)
  | indirect htype hcall => exact Left.exitInv ((traceDispatcher_indirect hscanner htype).ok _ hcall)
  | block hsource hcall => exact Left.exitInv ((dispatcher_safe hscanner hsource).ok _ hcall)
  | unmap => exact fun f hf => (h f hf).flush

/-- No call of a run fails on the range or the number of the exits of a trace. -/
theorem fails_other (hscanner : Spaced env 1 exitLength)
    (h : Reachable env (a64Calls env isInstructionPositionIndependent) (fun _ _ => True) s) {e : Stop}
    (hfails : Fails (a64Calls env isInstructionPositionIndependent) s e call) : Other e := by
  have hinv : ExitInv s := by
    refine h.invariant (fun _ _ hf => by cases hf) ?_
    exact fun _ _ _ _ hstep => step_exitInv hscanner hstep
  cases call with
  | create bbSource => exact (createTrace_safe hscanner bbSource).error _ hfails.2.2
  | dispatch target source =>
      rcases hfails with ⟨hcontrol, hcall⟩ | ⟨-, htype, hcall⟩ | ⟨-, hsource, hcall⟩
      · exact (traceDispatcher_safe hscanner (hinv source hcontrol)).error _ hcall
      · exact (traceDispatcher_indirect hscanner htype).error _ hcall
      · exact (dispatcher_safe hscanner hsource).error _ hcall
  | unmap => exact hfails.elim

end Runs

end Mambo.A64TraceExits
