import Mambo.A64TraceFlushes
import Mambo.FragmentIds

namespace Mambo.A64FragmentIds

open TraceState TraceLog TraceRuns FragmentLookup FragmentIds A64Traces A64TraceRuns
open A64TraceFlushes (EndsEarly FragmentMeets ContinueMeets DispatchMeets)

variable {T : Type} {env : Env T} {t t' : Thread T} {isInstructionPositionIndependent : Thread T → Nat → Bool}
  {p q writeP target source : Nat} {o : Outcome}

section Install

theorem ccBranch_still {fragment : Fragment} (h : ccBranch env t fragment writeP target = .ok t') : Still t t' :=
  (still_log _).trans (recordCcLink_still h)

theorem linkExit_still {e : TraceExit} (h : linkExit env t e = .ok t') : Still t t' := by
  rw [linkExit] at h
  split_ifs at h
  · exact ccBranch_still h
  · obtain rfl := Except.ok.inj h
    exact Still.refl

theorem writeStub_building {e : TraceExit} {exitStart : Nat} (h : Building env t p) (hle : p ≤ exitStart)
    (hstub : writeStub t isInstructionPositionIndependent e exitStart = .ok (t', q)) :
    Building env t' exitStart ∧ exitStart ≤ q ∧ t'.wasFlushed = t.wasFlushed := by
  obtain ⟨⟨t₁, exitId⟩, halloc, hstub⟩ := bind_ok hstub
  obtain ⟨hlimit, rfl, rfl⟩ := allocateTraceFragment_ok halloc
  obtain ⟨rfl, rfl⟩ := Prod.mk.inj (Except.ok.inj hstub)
  have hrecord : ∀ (u : Thread T) i, Still u ((u.setMeta i fun m => { m with freeB := t.activeTrace.id }).log (.stub e.target)) :=
    fun u i => (still_setMeta _ _ (Or.inr rfl)).trans (still_log _)
  refine ⟨Building.still ⟨?_, ?_⟩ (hrecord _ _), Nat.le_trans (Nat.le_add_right _ _) (Nat.le_add_right _ _), rfl⟩
  · exact Nat.lt_succ_of_lt h.some
  · refine Laid.allocate h.laid hle (fun hempty => absurd hempty (Nat.ne_of_gt h.some)) hlimit rfl ?_ ?_
    · exact tpc_setMeta_self _ _
    · intro i hi
      exact tpc_setMeta_of_ne _ (Nat.ne_of_lt hi.2)

theorem alignStub_le (p : Nat) : p ≤ alignStub p := by
  rw [alignStub]
  omega

theorem writeExits_building {exits : List TraceExit} (h : Building env t p) (hle : p ≤ writeP)
    (hwrite : writeExits env isInstructionPositionIndependent exits t writeP = .ok (t', q)) : Building env t' q := by
  induction exits generalizing t p writeP with
  | nil =>
      obtain ⟨rfl, rfl⟩ := Prod.mk.inj (Except.ok.inj hwrite)
      exact h.advance hle
  | cons e rest ih =>
      obtain ⟨max, -, hwrite⟩ := bind_ok hwrite
      obtain ⟨t₁, hlink, hwrite⟩ := bind_ok hwrite
      have h₁ : Building env t₁ p := h.still (linkExit_still hlink)
      have hstart : p ≤ alignStub writeP := Nat.le_trans hle (alignStub_le _)
      dsimp only at hwrite
      by_cases hfar : e.target < env.traces ∨ !isOffsetWithinRange ((e.target : Int) - e.source) max
      · rw [if_pos hfar] at hwrite
        obtain ⟨⟨t₂, p₂⟩, hstub, hwrite⟩ := bind_ok hwrite
        obtain ⟨h₂, hnext, -⟩ := writeStub_building h₁ hstart hstub
        dsimp only at hwrite
        split_ifs at hwrite
        exact ih h₂ hnext hwrite
      · rw [if_neg hfar] at hwrite
        exact ih h₁ hstart hwrite

theorem patchLinks_still (links : List Nat) (t : Thread T) : Still t (patchLinks links t) := by
  induction links generalizing t with
  | nil => exact Still.refl
  | cons link rest ih => exact (still_log _).trans (ih _)

theorem installTrace_outside (h : Building env t p) (hle : p ≤ t.activeTrace.writeP)
    (hinstall : installTrace env t isInstructionPositionIndependent = .ok t') : Outside env t' := by
  rw [installTrace] at hinstall
  split_ifs at hinstall
  obtain ⟨⟨t₂, q⟩, hexits, hinstall⟩ := bind_ok hinstall
  obtain rfl := Except.ok.inj hinstall
  have hinactive : Still t (t.setActive fun a => { a with active := false }) := ⟨rfl, rfl, rfl, rfl, rfl, fun _ _ => rfl⟩
  have hpatched := hinactive.trans (patchLinks_still (t.codeCacheMeta t.activeTrace.sourceBb).linkedFrom _)
  have hentered : ∀ (u : Thread T) table e, Still u ((u.setEntryAddress table).log e) :=
    fun _ _ _ => ⟨rfl, rfl, rfl, rfl, rfl, fun _ _ => rfl⟩
  have hbuilding := writeExits_building ((h.still hpatched).still (hentered _ _ _))
    (Nat.le_trans hle (Nat.le_of_eq hpatched.writeP.symm)) hexits
  exact ⟨rfl, Laid.congr hbuilding.laid rfl fun _ _ => rfl⟩

end Install

section Calls

theorem exitTo_left {addr : Nat} (h : Building env t p) (hle : p ≤ writeP)
    (hexit : exitTo env t isInstructionPositionIndependent source writeP addr = .ok (t', o)) :
    Left env .uncondBranchReg t' o := by
  obtain ⟨t₁, hearly, hexit⟩ := bind_ok hexit
  obtain ⟨rfl, rfl⟩ := Prod.mk.inj (Except.ok.inj hexit)
  obtain ⟨t₂, hbranch, hearly⟩ := bind_ok hearly
  obtain ⟨t₃, hinstall, hearly⟩ := bind_ok hearly
  obtain rfl := Except.ok.inj hearly
  have hwritten : Building env (t₂.setWriteP (writeP + 4)) p := (h.still (ccBranch_still hbranch)).setWriteP _
  have h₃ := installTrace_outside hwritten (Nat.le_trans hle (Nat.le_add_right _ _)) hinstall
  exact (h₃.quiet (Or.inl (still_setMeta _ _ (Or.inr rfl)))).leave addr

variable (hblocks : env.trampolinesSizeBbs < codeCacheSize)
include hblocks

theorem scanAndExit_left (h : Building env t p) (hf : t.wasFlushed = false) (hle : p ≤ writeP)
    (hno : ¬ WouldFlush env t target)
    (hexit : scanAndExit env t isInstructionPositionIndependent source writeP target = .ok (t', o)) :
    Left env .uncondBranchReg t' o := by
  obtain ⟨⟨t₁, addr⟩, hscan, hexit⟩ := bind_ok hexit
  have hf₁ : t₁.wasFlushed = false := (activeTraceLookupOrScan_unflushed hno hscan).trans hf
  have hstill : Still t t₁ := (activeTraceLookupOrScan_quiet hblocks hscan).resolve_right fun hflushed =>
    absurd (hf₁.symm.trans hflushed.1) (by decide)
  exact exitTo_left (h.still hstill) hle hexit

omit hblocks in
theorem scanTrace_scanned {address id len : Nat} {type : CcType} (hscanner : ScansAhead env) (htype : type ≠ .bb)
    (h : scanTrace env t address type = .ok (t', id, len)) : Scanned env t t' id := by
  obtain ⟨⟨t₁, traceId⟩, halloc, h⟩ := bind_ok h
  obtain ⟨⟨t₂, size⟩, hscan, h⟩ := bind_ok h
  have hscanned := scanned_of_scanCode hscanner htype halloc hscan
  obtain ⟨rfl, hrest⟩ := Prod.mk.inj (Except.ok.inj h)
  obtain ⟨rfl, -⟩ := Prod.mk.inj hrest
  exact hscanned.count

variable (hscanner : ScansAhead env)
include hscanner

theorem nextFragment_left (h : Building env t writeP) (hf : t.wasFlushed = false) (hwrite : t.activeTrace.writeP = writeP)
    (hmeets : FragmentMeets env t target)
    (hnext : nextFragment env t isInstructionPositionIndependent source writeP target = .ok (t', o)) :
    Left env .uncondBranchReg t' o := by
  obtain ⟨⟨t₁, fragmentId, fragmentLen⟩, hscan, hnext⟩ := bind_ok hnext
  have hscanned := scanTrace_scanned hscanner CcType.noConfusion hscan
  have hf₁ : t₁.wasFlushed = false := hscanned.flushed.trans hf
  have hbuilding : Building env t₁ writeP :=
    hwrite ▸ hscanned.building writeP h.laid (Nat.le_of_eq hwrite.symm) fun he => absurd he (Nat.ne_of_gt h.some)
  obtain ⟨fit, hfit, hnext⟩ := bind_ok hnext
  cases fit with
  | false =>
      -- the fragment is given up but keeps its id
      rw [if_pos (by decide)] at hnext
      have hback := (hbuilding.setWriteP (t₁.activeTrace.writeP + fragmentLen)).setWriteP writeP
      exact scanAndExit_left hblocks hback hf₁ (Nat.le_refl _) (hmeets _ hscan hfit) hnext
  | true =>
      rw [if_neg (by decide)] at hnext
      split_ifs at hnext with hreg
      · obtain ⟨t₂, hinstall, hnext⟩ := bind_ok hnext
        obtain ⟨rfl, rfl⟩ := Prod.mk.inj (Except.ok.inj hnext)
        have hend : writeP ≤ t₁.activeTrace.writeP + fragmentLen := by
          rw [hscanned.writeP, hwrite]
          exact Nat.le_add_right _ _
        exact (installTrace_outside (hbuilding.setWriteP _) hend hinstall).leave _
      · obtain ⟨rfl, rfl⟩ := Prod.mk.inj (Except.ok.inj hnext)
        have hexit : writeP ≤ (t₁.codeCacheMeta fragmentId).exitBranchAddr := hwrite ▸ hscanned.exit
        exact Awaits.stay ⟨hreg, (hbuilding.advance hexit).setWriteP _⟩ _

theorem continueTrace_left (h : During env t p) (hle : p ≤ writeP) (hmeets : ContinueMeets env t writeP target)
    (hcontinue : continueTrace env t isInstructionPositionIndependent source writeP target = .ok (t', o)) :
    Left env .uncondBranchReg t' o := by
  have h₁ : During env (t.setWriteP writeP) p := h.setWriteP _
  have hwrite : (t.setWriteP writeP).activeTrace.writeP = writeP := rfl
  rw [continueTrace] at hcontinue
  rw [ContinueMeets] at hmeets
  generalize t.setWriteP writeP = u at *
  by_cases hflushed : u.wasFlushed
  · rw [if_pos hflushed] at hcontinue
    exact resolve_left hblocks (h₁.emptied hflushed).outside hcontinue
  rw [if_neg hflushed] at hcontinue hmeets
  have hf : u.wasFlushed = false := Bool.eq_false_iff.mpr hflushed
  have hbuilding := h₁.building hf
  have hearly : EndsEarly env u writeP →
      scanAndExit env u isInstructionPositionIndependent source writeP target = .ok (t', o) →
      Left env .uncondBranchReg t' o := by
    intro hends hexit
    rw [if_pos hends] at hmeets
    exact scanAndExit_left hblocks hbuilding hf hle hmeets hexit
  by_cases hlimit : writeP ≥ env.codeCache + maxBranchRange - traceLimitOffset
  · rw [if_pos hlimit] at hcontinue
    exact hearly (Or.inl hlimit) hcontinue
  rw [if_neg hlimit] at hcontinue
  obtain ⟨fit, hfit, hcontinue⟩ := bind_ok hcontinue
  cases fit with
  | false => exact hearly (Or.inr (Or.inl hfit)) hcontinue
  | true =>
      rw [if_neg (by decide)] at hcontinue
      by_cases hcount : u.traceFragmentCount > maxTraceFragments
      · rw [if_pos hcount] at hcontinue
        exact hearly (Or.inr (Or.inr hcount)) hcontinue
      have hgoes : ¬ EndsEarly env u writeP := by
        rintro (h | h | h)
        · exact hlimit h
        · cases hfit.symm.trans h
        · exact hcount h
      rw [if_neg hcount] at hcontinue
      rw [if_neg hgoes] at hmeets
      by_cases hlookup : activeTraceLookup env u target ≠ uintMax
      · rw [if_pos hlookup] at hcontinue
        exact exitTo_left hbuilding hle hcontinue
      · rw [if_neg hlookup] at hcontinue hmeets
        exact nextFragment_left hblocks hscanner (hbuilding.advance hle) hf hwrite hmeets hcontinue

omit hscanner in
theorem setUpTraceExit_quiet {fragmentId : Nat} {isTaken : Bool}
    (hexit : setUpTraceExit env t writeP fragmentId isTaken = .ok (t', p)) : Quiet env t t' ∧ p = writeP + 4 := by
  obtain ⟨⟨t₁, tpc⟩, hscan, hexit⟩ := bind_ok hexit
  obtain ⟨t₂, hrecord, hexit⟩ := bind_ok hexit
  obtain ⟨rfl, rfl⟩ := Prod.mk.inj (Except.ok.inj hexit)
  exact ⟨(activeTraceLookupOrScan_quiet hblocks hscan).trans (Or.inl (traceRecordExit_still hrecord)), rfl⟩

theorem traceDispatcher_left (h : Awaits env .uncondBranchReg t source) (hmeets : DispatchMeets env t target source)
    (hcall : traceDispatcher env t isInstructionPositionIndependent target source = .ok (t', o)) :
    Left env .uncondBranchReg t' o := by
  have h₀ : During env { t with wasFlushed := false } (t.codeCacheMeta source).exitBranchAddr := by
    refine ⟨fun _ => ⟨h.building.some, Laid.congr h.building.laid rfl fun _ _ => rfl⟩, ?_⟩
    intro hf
    cases hf
  have hmeta : ∀ (u : Thread T) s, Still u (u.setMeta source fun m => { m with branchCacheStatus := s }) :=
    fun u s => still_setMeta _ _ (Or.inr rfl)
  rw [DispatchMeets] at hmeets
  have hconditional : (t.codeCacheMeta source).exitBranchType ≠ .uncondImmA64 →
      (do
        let r ← setUpTraceExit env { t with wasFlushed := false } (t.codeCacheMeta source).exitBranchAddr source
          (decide ((t.codeCacheMeta source).branchTakenAddr = target))
        continueTrace env (r.1.setMeta source fun m => { m with
          branchCacheStatus := if (t.codeCacheMeta source).branchTakenAddr = target then branchLinked
            else fallthroughLinked }) isInstructionPositionIndependent source r.2 target) = .ok (t', o) →
      Left env .uncondBranchReg t' o := by
    intro hdirect hcall
    rw [if_neg hdirect, if_neg h.direct] at hmeets
    obtain ⟨⟨t₁, p⟩, hexit, hcall⟩ := bind_ok hcall
    obtain ⟨hquiet, rfl⟩ := setUpTraceExit_quiet hblocks hexit
    have h₁ := (h₀.quiet hquiet).still (hmeta t₁ (if (t.codeCacheMeta source).branchTakenAddr = target then branchLinked
      else fallthroughLinked))
    exact continueTrace_left hblocks hscanner h₁ (Nat.le_add_right _ _) (hmeets _ hexit) hcall
  rw [traceDispatcher] at hcall
  split at hcall
  · rename_i htype
    exact hconditional (by rw [htype]; exact BranchType.noConfusion) hcall
  · rename_i htype
    exact hconditional (by rw [htype]; exact BranchType.noConfusion) hcall
  · rename_i htype
    exact hconditional (by rw [htype]; exact BranchType.noConfusion) hcall
  · rename_i htype
    rw [if_pos htype] at hmeets
    exact continueTrace_left hblocks hscanner (h₀.still (hmeta _ _)) (Nat.le_refl _) hmeets hcall
  · rename_i htype
    exact absurd htype h.direct
  · cases hcall

omit hscanner in
theorem traceDispatcher_indirect (h : Outside env t) (htype : (t.codeCacheMeta source).exitBranchType = .uncondBranchReg)
    (hcall : traceDispatcher env t isInstructionPositionIndependent target source = .ok (t', o)) :
    Left env .uncondBranchReg t' o := by
  have h₀ : Outside env { t with wasFlushed := false } := ⟨h.id, Laid.congr h.laid rfl fun _ _ => rfl⟩
  rw [traceDispatcher, htype] at hcall
  exact resolve_left hblocks h₀ hcall

theorem createTrace_left {bbSource : Nat} (hcache : env.codeCache % traceAlign = 0) (h : Outside env t)
    (hcall : createTrace env t bbSource = .ok (t', o)) : Left env .uncondBranchReg t' o := by
  rw [createTrace] at hcall
  dsimp only at hcall
  split_ifs at hcall
  · exact resolve_left hblocks emptied_flush.outside hcall
  · obtain ⟨⟨t₁, traceId, len⟩, hscan, hcall⟩ := bind_ok hcall
    have hscanned := scanTrace_scanned hscanner CcType.noConfusion hscan
    have hlaid : Laid env (beginTrace { t with traceFragmentCount := 0, traceCacheNext := alignTrace t.traceCacheNext }
        bbSource) t.traceCacheNext := Laid.congr h.laid h.id.symm fun _ _ => rfl
    have hbuilding := hscanned.building _ hlaid (alignTrace_le _) fun hempty => by
      change alignTrace t.traceCacheNext = _
      rw [h.laid.empty (h.id.trans hempty), alignTrace_traces hcache]
    dsimp only at hcall
    split_ifs at hcall with htype
    obtain ⟨rfl, rfl⟩ := Prod.mk.inj (Except.ok.inj hcall)
    refine Awaits.stay ⟨?_, hbuilding.advance hscanned.exit⟩ _
    intro hreg
    rw [hreg] at htype
    cases htype

end Calls

section Blocks

variable {blockAddress : Nat}

theorem linkConditional_still (h : linkConditional env t source target blockAddress = .ok t') : Still t t' := by
  have hstatus : ∀ (u : Thread T) (f : Nat → Nat), Still u (u.setMeta source fun m =>
      { m with branchCacheStatus := f m.branchCacheStatus }) := fun u f => still_setMeta _ _ (Or.inr rfl)
  rw [linkConditional] at h
  by_cases hfirst : (t.codeCacheMeta source).branchCacheStatus = 0
  · rw [if_pos hfirst] at h
    obtain ⟨t₁, hlink, h⟩ := bind_ok h
    have h₁ := (hstatus t fun _ => _).trans (ccBranch_still hlink)
    by_cases hother : env.hashLookup t.entryAddress (if target = (t.codeCacheMeta source).branchTakenAddr then
        (t.codeCacheMeta source).branchSkippedAddr else (t.codeCacheMeta source).branchTakenAddr) ≠ uintMax
    · rw [if_pos hother] at h
      obtain ⟨t₂, hsecond, h⟩ := bind_ok h
      obtain rfl := Except.ok.inj h
      exact (h₁.trans (ccBranch_still hsecond)).trans (hstatus _ fun s => s ||| bothLinked)
    · rw [if_neg hother] at h
      obtain rfl := Except.ok.inj h
      exact h₁
  · rw [if_neg hfirst] at h
    exact (hstatus t fun s => s ||| bothLinked).trans (ccBranch_still h)

theorem dispatcherAarch64_still {exitType : BranchType}
    (h : dispatcherAarch64 env t source exitType target blockAddress = .ok t') : Still t t' := by
  unfold dispatcherAarch64 at h
  split at h
  · obtain ⟨t₁, hbranch, h⟩ := bind_ok h
    obtain rfl := Except.ok.inj h
    exact (ccBranch_still hbranch).trans (still_setMeta _ _ (Or.inr rfl))
  · exact linkConditional_still h
  · exact linkConditional_still h
  · exact linkConditional_still h
  · obtain rfl := Except.ok.inj h
    exact Still.refl

theorem dispatcher_left (hblocks : env.trampolinesSizeBbs < codeCacheSize) (h : Outside env t)
    (hsource : source < codeCacheSize)
    (hcall : dispatcher env t isInstructionPositionIndependent target source = .ok (t', o)) :
    Left env .uncondBranchReg t' o := by
  rw [dispatcher, if_neg (by omega)] at hcall
  obtain ⟨⟨t₁, addr⟩, hlookup, hcall⟩ := bind_ok hcall
  have h₀ : Outside env { t with wasFlushed := false } := ⟨h.id, Laid.congr h.laid rfl fun _ _ => rfl⟩
  have h₁ := h₀.quiet (lookupOrScan_quiet hblocks hlookup)
  dsimp only at hcall
  split_ifs at hcall
  · obtain ⟨rfl, rfl⟩ := Prod.mk.inj (Except.ok.inj hcall)
    exact h₁.leave addr
  · obtain ⟨t₂, hlink, hcall⟩ := bind_ok hcall
    obtain ⟨rfl, rfl⟩ := Prod.mk.inj (Except.ok.inj hcall)
    exact (h₁.quiet (Or.inl (dispatcherAarch64_still hlink))).leave addr

end Blocks

section Runs

variable {s s' : System T} {call : Call}

theorem step_inv (hblocks : env.trampolinesSizeBbs < codeCacheSize) (hcache : env.codeCache % traceAlign = 0)
    (hscanner : ScansAhead env) (hmeets : BuildMeets (DispatchMeets env) s call)
    (hstep : Step env (a64Calls env isInstructionPositionIndependent) s call s') (h : IdsInv env .uncondBranchReg s) :
    IdsInv env .uncondBranchReg s' := by
  cases hstep with
  | create _ hcall => exact (createTrace_left hblocks hscanner hcache (h.outside rfl) hcall).inv
  | fragment hcall =>
      exact (traceDispatcher_left hblocks hscanner (h.building _ rfl) (hmeets.2 _ _ rfl rfl) hcall).inv
  | indirect htype hcall => exact (traceDispatcher_indirect hblocks (h.outside rfl) htype hcall).inv
  | block hsource hcall => exact (dispatcher_left hblocks (h.outside rfl) hsource hcall).inv
  | unmap =>
      obtain rfl := hmeets.1 rfl
      exact ⟨fun _ => emptied_flush.outside, fun _ hf => by cases hf⟩

theorem reachable_inv (hblocks : env.trampolinesSizeBbs < codeCacheSize) (hcache : env.codeCache % traceAlign = 0)
    (hscanner : ScansAhead env)
    (h : Reachable env (a64Calls env isInstructionPositionIndependent) (BuildMeets (DispatchMeets env)) s) :
    IdsInv env .uncondBranchReg s := by
  refine h.invariant (fun t => ⟨fun _ => emptied_flush.outside, fun _ hf => by cases hf⟩) ?_
  exact fun _ _ _ hmeets hstep => step_inv hblocks hcache hscanner hmeets hstep

end Runs

end Mambo.A64FragmentIds
