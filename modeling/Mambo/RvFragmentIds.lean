import Mambo.FragmentIds
import Mambo.RvTraceRuns

namespace Mambo.RvFragmentIds

open TraceState TraceLog TraceRuns FragmentLookup FragmentIds RvTraces RvTraceRuns

variable {T : Type} {env : Env T} {t t' : Thread T} {p writeP target source : Nat} {o : Outcome}

section Parts

theorem setUpTraceExit_still (h : setUpTraceExit env t writeP target = .ok (t', p)) : Still t t' ∧ writeP ≤ p := by
  have hlog : Still t (t.log (.link writeP (jumpTo writeP target).1 (.trace t.activeTrace.entryAddr))) := still_log _
  rw [setUpTraceExit] at h
  split_ifs at h
  · obtain ⟨t₁, hrecord, h⟩ := bind_ok h
    obtain ⟨rfl, rfl⟩ := Prod.mk.inj (Except.ok.inj h)
    exact ⟨hlog.trans (recordCcLink_still hrecord), Nat.le_add_right _ _⟩
  · obtain ⟨t₁, hrecord, h⟩ := bind_ok h
    obtain ⟨rfl, rfl⟩ := Prod.mk.inj (Except.ok.inj h)
    exact ⟨hlog.trans (recordCcLink_still hrecord), Nat.le_add_right _ _⟩

theorem writeExits_still {exits : List TraceExit} (h : writeExits env exits t writeP = .ok (t', p)) :
    Still t t' ∧ writeP ≤ p := by
  induction exits generalizing t writeP with
  | nil =>
      obtain ⟨rfl, rfl⟩ := Prod.mk.inj (Except.ok.inj h)
      exact ⟨Still.refl, Nat.le_refl _⟩
  | cons e rest ih =>
      rw [writeExits] at h
      split_ifs at h
      obtain ⟨⟨t₁, p₁⟩, hexit, h⟩ := bind_ok h
      obtain ⟨hstill, hle⟩ := setUpTraceExit_still hexit
      obtain ⟨hrest, hle'⟩ := ih h
      exact ⟨hstill.trans hrest, Nat.le_trans hle hle'⟩

variable (hblocks : env.trampolinesSizeBbs < codeCacheSize)
include hblocks

theorem exitTargets_quiet {bb notTaken taken : Nat} (h : exitTargets env t bb = .ok (t', notTaken, taken)) :
    Quiet env t t' := by
  rw [exitTargets] at h
  split_ifs at h
  · obtain ⟨⟨t₁, a⟩, hscan, h⟩ := bind_ok h
    obtain ⟨rfl, -⟩ := Prod.mk.inj (Except.ok.inj h)
    exact activeTraceLookupOrScan_quiet hblocks hscan
  · obtain ⟨⟨t₁, a⟩, hscan, h⟩ := bind_ok h
    obtain ⟨rfl, -⟩ := Prod.mk.inj (Except.ok.inj h)
    exact activeTraceLookupOrScan_quiet hblocks hscan

theorem patchBranch_quiet {bb : Nat} (h : patchBranch env t bb = .ok t') : Quiet env t t' := by
  obtain ⟨⟨t₁, notTaken, taken⟩, htargets, h⟩ := bind_ok h
  obtain ⟨second, -, h⟩ := bind_ok h
  obtain ⟨last, -, h⟩ := bind_ok h
  have hlog (e e' e'' : Event) : Still t₁ (((t₁.log e).log e').log e'') :=
    ((still_log _).trans (still_log _)).trans (still_log _)
  dsimp only at h
  split_ifs at h
  · exact (exitTargets_quiet hblocks htargets).trans (Or.inl ((hlog _ _ _).trans (recordCcLink_still h)))
  · obtain rfl := Except.ok.inj h
    exact (exitTargets_quiet hblocks htargets).trans (Or.inl (hlog _ _ _))

theorem patchLinks_quiet {tpc : Nat} {links : List Nat} (h : patchLinks env tpc links t = .ok t') : Quiet env t t' := by
  induction links generalizing t with
  | nil =>
      obtain rfl := Except.ok.inj h
      exact Or.inl Still.refl
  | cons link rest ih =>
      have hpatch : Quiet env t (t.log (.patch link (jumpTo link tpc).1)) := Or.inl (still_log _)
      have hend : ∀ u : Thread T, Quiet env t u →
          (if u.wasFlushed then Except.ok u else patchLinks env tpc rest u) = .ok t' → Quiet env t t' := by
        intro u hu hnext
        split_ifs at hnext
        · obtain rfl := Except.ok.inj hnext
          exact hu
        · exact hu.trans (ih hnext)
      rw [patchLinks] at h
      by_cases htrace : link ≥ env.traces
      · rw [if_pos htrace] at h
        obtain ⟨p, -, h⟩ := bind_ok h
        exact hend _ hpatch h
      rw [if_neg htrace] at h
      cases hbb : addrToBbId env link with
      | none =>
          rw [hbb] at h
          obtain rfl := Except.ok.inj h
          exact Or.inl Still.refl
      | some bb =>
          rw [hbb] at h
          dsimp only at h
          by_cases htype : (t.codeCacheMeta (fragmentOf t bb)).exitBranchType = .branchRiscv
          · rw [if_pos htype] at h
            obtain ⟨u, hbranch, h⟩ := bind_ok h
            exact hend u (patchBranch_quiet hblocks hbranch) h
          · rw [if_neg htype] at h
            obtain ⟨p, -, h⟩ := bind_ok h
            exact hend _ hpatch h

theorem otherSide_quiet {addr tpc : Nat} (h : otherSide env t addr = .ok (t', tpc)) : Quiet env t t' := by
  rw [otherSide] at h
  split_ifs at h
  · exact lookupOrScan_quiet hblocks h
  · obtain ⟨rfl, -⟩ := Prod.mk.inj (Except.ok.inj h)
    exact Or.inl Still.refl

theorem setUpTraceExitBranchPlaceholder_quiet {fragmentId : Nat} {isTaken : Bool}
    (h : setUpTraceExitBranchPlaceholder env t writeP fragmentId isTaken = .ok (t', p)) :
    Quiet env t t' ∧ p = writeP + 4 := by
  obtain ⟨⟨t₁, tpc⟩, hscan, h⟩ := bind_ok h
  obtain ⟨t₂, hrecord, h⟩ := bind_ok h
  obtain ⟨rfl, rfl⟩ := Prod.mk.inj (Except.ok.inj h)
  exact ⟨(otherSide_quiet hblocks hscan).trans (Or.inl (traceRecordExit_still hrecord)), rfl⟩

omit hblocks in
theorem scanTrace_scanned {address id len : Nat} {type : CcType} (hscanner : ScansAhead env) (htype : type ≠ .bb)
    (h : scanTrace env t address type = .ok (t', id, len)) : Scanned env t t' id := by
  obtain ⟨⟨t₁, traceId⟩, halloc, h⟩ := bind_ok h
  obtain ⟨⟨t₂, size⟩, hscan, h⟩ := bind_ok h
  have hscanned := scanned_of_scanCode hscanner htype halloc hscan
  dsimp only at h
  split_ifs at h
  · obtain ⟨rfl, hrest⟩ := Prod.mk.inj (Except.ok.inj h)
    obtain ⟨rfl, -⟩ := Prod.mk.inj hrest
    exact hscanned
  · obtain ⟨rfl, hrest⟩ := Prod.mk.inj (Except.ok.inj h)
    obtain ⟨rfl, -⟩ := Prod.mk.inj hrest
    exact hscanned.count

end Parts

section Calls

variable (hblocks : env.trampolinesSizeBbs < codeCacheSize)
include hblocks

theorem installTrace_outside (h : During env t p) (hle : p ≤ t.activeTrace.writeP)
    (hinstall : installTrace env t = .ok t') : Outside env t' := by
  rw [installTrace] at hinstall
  split_ifs at hinstall
  obtain ⟨t₁, hpatch, hinstall⟩ := bind_ok hinstall
  have hinactive : Still t (t.setActive fun a => { a with active := false }) := ⟨rfl, rfl, rfl, rfl, rfl, fun _ _ => rfl⟩
  have hquiet : Quiet env t t₁ := Quiet.trans (Or.inl hinactive) (patchLinks_quiet hblocks hpatch)
  have h₁ := h.quiet hquiet
  split_ifs at hinstall with hflushed
  · obtain rfl := Except.ok.inj hinstall
    exact (h₁.emptied hflushed).outside
  · obtain ⟨⟨t₂, q⟩, hexits, hinstall⟩ := bind_ok hinstall
    obtain rfl := Except.ok.inj hinstall
    have hstill : Still t t₁ := hquiet.resolve_right fun hf => hflushed hf.1
    obtain ⟨hwritten, hq⟩ := writeExits_still hexits
    have hentered : Still t₁ ((t₁.setEntryAddress (env.hashAdd t₁.entryAddress
        (t.codeCacheMeta t.activeTrace.sourceBb).sourceAddr t.activeTrace.entryAddr).1).log
        (.commit (t.codeCacheMeta t.activeTrace.sourceBb).sourceAddr t.activeTrace.entryAddr)) :=
      ⟨rfl, rfl, rfl, rfl, rfl, fun _ _ => rfl⟩
    have hbuilding : Building env t₂ p :=
      ((h₁.building (Bool.eq_false_iff.mpr hflushed)).still hentered).still hwritten
    have hpq : p ≤ q := Nat.le_trans hle (hstill.writeP ▸ hq)
    exact ⟨rfl, Laid.congr (hbuilding.advance hpq).laid rfl fun _ _ => rfl⟩

theorem earlyTraceExit_outside {tpc : Nat} (h : During env t p) (hle : p ≤ writeP)
    (hexit : earlyTraceExit env t source writeP tpc = .ok t') : Outside env t' := by
  obtain ⟨t₁, hinstall, hexit⟩ := bind_ok hexit
  have hbefore : During env ((t.log (.link writeP (jumpTo writeP tpc).1 (.trace t.activeTrace.entryAddr))).setWriteP
      (writeP + (jumpTo writeP tpc).1)) p := (h.still (still_log _)).setWriteP _
  have h₁ := installTrace_outside hblocks hbefore (Nat.le_trans hle (Nat.le_add_right _ _)) hinstall
  split_ifs at hexit
  · rwa [← Except.ok.inj hexit]
  · rw [← Except.ok.inj hexit]
    exact h₁.quiet (Or.inl (still_setMeta _ _ (Or.inr rfl)))

theorem exitTo_left {addr : Nat} (h : During env t p) (hle : p ≤ writeP)
    (hexit : exitTo env t source writeP target addr = .ok (t', o)) : Left env .jalrRiscv t' o := by
  obtain ⟨t₁, hearly, hexit⟩ := bind_ok hexit
  have h₁ := earlyTraceExit_outside hblocks h hle hearly
  split_ifs at hexit
  · exact resolve_left hblocks h₁ hexit
  · obtain ⟨rfl, rfl⟩ := Prod.mk.inj (Except.ok.inj hexit)
    exact h₁.leave addr

theorem unlinkedExit_left (h : During env t p) (hle : p ≤ writeP)
    (hexit : unlinkedExit env t source writeP target = .ok (t', o)) : Left env .jalrRiscv t' o := by
  obtain ⟨⟨t₁, addr⟩, hscan, hexit⟩ := bind_ok hexit
  exact exitTo_left hblocks (h.quiet (activeTraceLookupOrScan_quiet hblocks hscan)) hle hexit

theorem linkedExit_left (h : During env t p) (hle : p ≤ writeP)
    (hexit : linkedExit env t source writeP target = .ok (t', o)) : Left env .jalrRiscv t' o := by
  rw [linkedExit] at hexit
  split_ifs at hexit
  · obtain ⟨⟨t₁, addr⟩, hscan, hexit⟩ := bind_ok hexit
    obtain ⟨t₂, hrecord, hexit⟩ := bind_ok hexit
    have h₁ := h.quiet (activeTraceLookupOrScan_quiet hblocks hscan)
    exact exitTo_left hblocks (h₁.still (recordCcLink_still hrecord)) hle hexit
  · exact exitTo_left hblocks h hle hexit

variable (hscanner : ScansAhead env)
include hscanner

theorem nextFragment_left (h : Building env t writeP) (hf : t.wasFlushed = false) (hwrite : t.activeTrace.writeP = writeP)
    (hnext : nextFragment env t source writeP target = .ok (t', o)) : Left env .jalrRiscv t' o := by
  obtain ⟨⟨t₁, fragmentId, fragmentLen⟩, hscan, hnext⟩ := bind_ok hnext
  have hscanned := scanTrace_scanned hscanner CcType.noConfusion hscan
  have hf₁ : t₁.wasFlushed = false := hscanned.flushed.trans hf
  have hbuilding : Building env t₁ writeP :=
    hwrite ▸ hscanned.building writeP h.laid (Nat.le_of_eq hwrite.symm) fun he => absurd he (Nat.ne_of_gt h.some)
  have hback : ∀ u : Thread T, u.wasFlushed = false → u.activeTrace.id = t.activeTrace.id →
      (∀ i, tpcOf u i = tpcOf t₁ i) → During env u writeP := by
    intro u hu hid htpc
    refine ⟨fun _ => ⟨hid ▸ h.some, Laid.congr h.laid hid fun i hi => ?_⟩, fun hu' => absurd (hu.symm.trans hu') (by decide)⟩
    rw [htpc, hscanned.old i hi]
  have hduring : During env t₁ writeP := ⟨fun _ => hbuilding, fun hf' => absurd (hf₁.symm.trans hf') (by decide)⟩
  have hend : writeP ≤ t₁.activeTrace.writeP + 2 * fragmentLen := by
    rw [hscanned.writeP, hwrite]
    exact Nat.le_add_right _ _
  dsimp only at hnext
  split_ifs at hnext with hflushed hlen hfit hjalr
  · exact absurd (hf₁.symm.trans hflushed) (by decide)
  · refine linkedExit_left hblocks (hback _ ?_ ?_ ?_) (Nat.le_refl _) hnext
    · exact hf₁
    · rfl
    · exact fun _ => rfl
  · refine unlinkedExit_left hblocks (hback _ ?_ ?_ ?_) (Nat.le_refl _) hnext
    · exact hf₁
    · rfl
    · exact fun _ => rfl
  · obtain ⟨t₂, hinstall, hnext⟩ := bind_ok hnext
    have h₂ := installTrace_outside hblocks (hduring.setWriteP _) hend hinstall
    split_ifs at hnext
    · exact resolve_left hblocks h₂ hnext
    · obtain ⟨rfl, rfl⟩ := Prod.mk.inj (Except.ok.inj hnext)
      exact h₂.leave _
  · obtain ⟨rfl, rfl⟩ := Prod.mk.inj (Except.ok.inj hnext)
    have hexit : writeP ≤ (t₁.codeCacheMeta fragmentId).exitBranchAddr := hwrite ▸ hscanned.exit
    exact Awaits.stay ⟨hjalr, (hbuilding.advance hexit).setWriteP _⟩ _

theorem continueTrace_left (h : During env t p) (hle : p ≤ writeP)
    (hcontinue : continueTrace env t source writeP target = .ok (t', o)) : Left env .jalrRiscv t' o := by
  have h₁ : During env (t.setWriteP writeP) p := h.setWriteP _
  rw [continueTrace] at hcontinue
  split_ifs at hcontinue with hflushed
  · exact resolve_left hblocks (h₁.emptied hflushed).outside hcontinue
  · exact unlinkedExit_left hblocks h₁ hle hcontinue
  · exact linkedExit_left hblocks h₁ hle hcontinue
  · exact exitTo_left hblocks h₁ hle hcontinue
  · have hf := Bool.eq_false_iff.mpr hflushed
    exact nextFragment_left hblocks hscanner ((h₁.building hf).advance hle) hf rfl hcontinue

theorem traceDispatcher_left (h : Awaits env .jalrRiscv t source)
    (hcall : traceDispatcher env t target source = .ok (t', o)) : Left env .jalrRiscv t' o := by
  have h₀ : During env { t with wasFlushed := false } (t.codeCacheMeta source).exitBranchAddr := by
    refine ⟨fun _ => ⟨h.building.some, Laid.congr h.building.laid rfl fun _ _ => rfl⟩, ?_⟩
    intro hf
    exact nomatch hf
  have hmeta : ∀ (u : Thread T) s, Still u (u.setMeta source fun m => { m with branchCacheStatus := s }) :=
    fun u s => still_setMeta _ _ (Or.inr rfl)
  rw [traceDispatcher] at hcall
  split at hcall
  · obtain ⟨⟨t₁, p⟩, hexit, hcall⟩ := bind_ok hcall
    obtain ⟨hquiet, rfl⟩ := setUpTraceExitBranchPlaceholder_quiet hblocks hexit
    exact continueTrace_left hblocks hscanner ((h₀.quiet hquiet).still (hmeta _ _)) (Nat.le_add_right _ _) hcall
  · exact continueTrace_left hblocks hscanner (h₀.still (hmeta _ _)) (Nat.le_refl _) hcall
  · rename_i htype
    exact absurd htype h.direct
  · exact nomatch hcall

omit hscanner in
theorem traceDispatcher_indirect (h : Outside env t) (htype : (t.codeCacheMeta source).exitBranchType = .jalrRiscv)
    (hcall : traceDispatcher env t target source = .ok (t', o)) : Left env .jalrRiscv t' o := by
  have h₀ : Outside env { t with wasFlushed := false } := ⟨h.id, Laid.congr h.laid rfl fun _ _ => rfl⟩
  rw [traceDispatcher, htype] at hcall
  exact resolve_left hblocks h₀ hcall

theorem createTrace_left {bbSource : Nat} (hcache : env.codeCache % traceAlign = 0) (h : Outside env t)
    (hcall : createTrace env t bbSource = .ok (t', o)) : Left env .jalrRiscv t' o := by
  rw [createTrace] at hcall
  dsimp only at hcall
  split_ifs at hcall
  · exact resolve_left hblocks emptied_flush.outside hcall
  · obtain ⟨⟨t₁, traceId, len⟩, hscan, hcall⟩ := bind_ok hcall
    have hscanned := scanTrace_scanned hscanner CcType.noConfusion hscan
    have hlaid : Laid env (beginTrace { t with traceFragmentCount := 0, traceCacheNext := alignTrace t.traceCacheNext }
        bbSource) t.traceCacheNext := Laid.congr h.laid h.id.symm fun _ _ => rfl
    have hbuilding := hscanned.building _ hlaid (alignTrace_le _) fun hempty => by
      change alignTrace t.traceCacheNext = _
      rw [h.laid.empty (h.id.trans hempty), alignTrace_traces hcache]
    dsimp only at hcall
    split_ifs at hcall with hflushed htype
    · exact nomatch hscanned.flushed.symm.trans hflushed
    · obtain ⟨rfl, rfl⟩ := Prod.mk.inj (Except.ok.inj hcall)
      refine Awaits.stay ⟨?_, hbuilding.advance hscanned.exit⟩ _
      intro hjalr
      rcases htype with hjal | hbranch
      · exact nomatch hjalr.symm.trans hjal
      · exact nomatch hjalr.symm.trans hbranch

end Calls

section Links

variable {tryJumpTrampolines : Thread T → Nat → Nat → Bool} {bb : Nat}

theorem linkTo_still (h : linkTo env t tryJumpTrampolines bb writeP target = .ok (t', p)) : Still t t' := by
  obtain ⟨t₁, hrecord, h⟩ := bind_ok h
  have hbefore : Still t t₁ := (still_log _).trans (recordCcLink_still hrecord)
  split_ifs at h
  obtain ⟨rfl, -⟩ := Prod.mk.inj (Except.ok.inj h)
  exact hbefore

theorem linkBranchTo_still {other : Option Nat}
    (h : linkBranchTo env t tryJumpTrampolines bb writeP target other = .ok t') : Still t t' := by
  obtain ⟨t₁, hrecord, h⟩ := bind_ok h
  have hbefore : Still t t₁ := (still_log _).trans (recordCcLink_still hrecord)
  cases other with
  | none =>
      obtain rfl := Except.ok.inj h
      exact hbefore
  | some other =>
      obtain ⟨⟨t₂, p⟩, hlink, h⟩ := bind_ok h
      obtain rfl := Except.ok.inj h
      exact hbefore.trans (linkTo_still hlink)

theorem linkBranch_still (h : linkBranch env t tryJumpTrampolines bb = .ok t') : Still t t' := by
  rw [linkBranch] at h
  split_ifs at h
  · exact linkBranchTo_still h
  · exact linkBranchTo_still h
  · obtain ⟨⟨t₁, p⟩, hlink, h⟩ := bind_ok h
    dsimp only at h
    split at h
    · obtain ⟨⟨t₂, p⟩, hlink', h⟩ := bind_ok h
      obtain rfl := Except.ok.inj h
      exact (linkTo_still hlink).trans (linkTo_still hlink')
    · obtain rfl := Except.ok.inj h
      exact linkTo_still hlink

theorem dispatcherRiscv_still {addr : Nat} {exitType : BranchType}
    (h : dispatcherRiscv env t tryJumpTrampolines source exitType addr = .ok t') : Still t t' := by
  unfold dispatcherRiscv at h
  split at h
  · exact linkBranch_still h
  · obtain ⟨⟨t₁, p⟩, hlink, h⟩ := bind_ok h
    obtain rfl := Except.ok.inj h
    exact linkTo_still hlink
  · obtain rfl := Except.ok.inj h
    exact Still.refl

theorem dispatcher_left (hblocks : env.trampolinesSizeBbs < codeCacheSize) (h : Outside env t)
    (hsource : source < codeCacheSize) (hcall : dispatcher env t tryJumpTrampolines target source = .ok (t', o)) :
    Left env .jalrRiscv t' o := by
  rw [dispatcher, if_neg (by omega)] at hcall
  obtain ⟨⟨t₁, addr⟩, hlookup, hcall⟩ := bind_ok hcall
  have h₀ : Outside env { t with wasFlushed := false } := ⟨h.id, Laid.congr h.laid rfl fun _ _ => rfl⟩
  have h₁ := h₀.quiet (lookupOrScan_quiet hblocks hlookup)
  dsimp only at hcall
  split_ifs at hcall
  · obtain ⟨rfl, rfl⟩ := Prod.mk.inj (Except.ok.inj hcall)
    exact h₁.leave addr
  · obtain ⟨t₂, hlink, hcall⟩ := bind_ok hcall
    obtain ⟨rfl, rfl⟩ := Prod.mk.inj (Except.ok.inj hcall)
    exact (h₁.quiet (Or.inl (dispatcherRiscv_still hlink))).leave addr

end Links

section Runs

variable {tryJumpTrampolines : Thread T → Nat → Nat → Bool} {s s' : System T} {call : Call}

theorem step_inv (hblocks : env.trampolinesSizeBbs < codeCacheSize) (hcache : env.codeCache % traceAlign = 0)
    (hscanner : ScansAhead env) (hmeets : NotUnmapped s call)
    (hstep : Step env (rvCalls env tryJumpTrampolines) s call s') (h : IdsInv env .jalrRiscv s) :
    IdsInv env .jalrRiscv s' := by
  cases hstep with
  | create _ hcall => exact (createTrace_left hblocks hscanner hcache (h.outside rfl) hcall).inv
  | fragment hcall => exact (traceDispatcher_left hblocks hscanner (h.building _ rfl) hcall).inv
  | indirect htype hcall => exact (traceDispatcher_indirect hblocks (h.outside rfl) htype hcall).inv
  | block hsource hcall => exact (dispatcher_left hblocks (h.outside rfl) hsource hcall).inv
  | unmap =>
      obtain rfl := hmeets rfl
      exact ⟨fun _ => emptied_flush.outside, fun _ hf => nomatch hf⟩

theorem reachable_inv (hblocks : env.trampolinesSizeBbs < codeCacheSize) (hcache : env.codeCache % traceAlign = 0)
    (hscanner : ScansAhead env) (h : Reachable env (rvCalls env tryJumpTrampolines) NotUnmapped s) :
    IdsInv env .jalrRiscv s := by
  refine h.invariant (fun t => ⟨fun _ => emptied_flush.outside, fun _ hf => nomatch hf⟩) ?_
  exact fun _ _ _ hmeets hstep => step_inv hblocks hcache hscanner hmeets hstep

end Runs

end Mambo.RvFragmentIds
