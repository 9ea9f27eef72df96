import Mambo.RvTraceRuns

namespace Mambo.RvTraceFlushes

open TraceState TraceLog TraceRuns RvTraces RvTraceRuns

variable {T : Type} {env : Env T} {t t' : Thread T}

section Parts

theorem setUpTraceExit_calm {writeP target p : Nat} (h : setUpTraceExit env t writeP target = .ok (t', p)) :
    Calm env t t' := by
  have hlog : Calm env t (t.log (.link writeP (jumpTo writeP target).1 (.trace t.activeTrace.entryAddr))) := calm_log rfl Event.noConfusion
  rw [setUpTraceExit] at h
  split_ifs at h
  · obtain ⟨t₁, hrecord, h⟩ := bind_ok h
    obtain ⟨rfl, -⟩ := Prod.mk.inj (Except.ok.inj h)
    exact hlog.trans (recordCcLink_calm hrecord)
  · obtain ⟨t₁, hrecord, h⟩ := bind_ok h
    obtain ⟨rfl, -⟩ := Prod.mk.inj (Except.ok.inj h)
    exact hlog.trans (recordCcLink_calm hrecord)

theorem writeExits_calm {exits : List TraceExit} {writeP p : Nat}
    (h : writeExits env exits t writeP = .ok (t', p)) : Calm env t t' := by
  induction exits generalizing t writeP with
  | nil =>
      obtain ⟨rfl, -⟩ := Prod.mk.inj (Except.ok.inj h)
      exact Calm.refl
  | cons e rest ih =>
      rw [writeExits] at h
      split_ifs at h
      obtain ⟨⟨t₁, p₁⟩, hexit, h⟩ := bind_ok h
      exact (setUpTraceExit_calm hexit).trans (ih h)

theorem exitTargets_proceeds {bb notTaken taken : Nat} (h : exitTargets env t bb = .ok (t', notTaken, taken)) :
    Proceeds env t t' := by
  rw [exitTargets] at h
  split_ifs at h
  · obtain ⟨⟨t₁, a⟩, hscan, h⟩ := bind_ok h
    obtain ⟨rfl, -⟩ := Prod.mk.inj (Except.ok.inj h)
    exact activeTraceLookupOrScan_proceeds hscan
  · obtain ⟨⟨t₁, a⟩, hscan, h⟩ := bind_ok h
    obtain ⟨rfl, -⟩ := Prod.mk.inj (Except.ok.inj h)
    exact activeTraceLookupOrScan_proceeds hscan

theorem patchBranch_proceeds {bb : Nat} (h : patchBranch env t bb = .ok t') : Proceeds env t t' := by
  obtain ⟨⟨t₁, notTaken, taken⟩, htargets, h⟩ := bind_ok h
  obtain ⟨second, -, h⟩ := bind_ok h
  obtain ⟨last, -, h⟩ := bind_ok h
  have hlog (a n b k c l : Nat) : Proceeds env t₁
      (((t₁.log (.patch a n)).log (.link b k (.block bb))).log (.link c l (.block bb))) :=
    ((proceeds_log rfl Event.noConfusion).trans (proceeds_log rfl Event.noConfusion)).trans
      (proceeds_log rfl Event.noConfusion)
  dsimp only at h
  split_ifs at h
  · exact (exitTargets_proceeds htargets).trans ((hlog _ _ _ _ _ _).trans (recordCcLink_calm h).1)
  · obtain rfl := Except.ok.inj h
    exact (exitTargets_proceeds htargets).trans (hlog _ _ _ _ _ _)

theorem patchLinks_proceeds {tpc : Nat} {links : List Nat} (h : patchLinks env tpc links t = .ok t') :
    Proceeds env t t' := by
  induction links generalizing t with
  | nil =>
      obtain rfl := Except.ok.inj h
      exact Proceeds.refl
  | cons link rest ih =>
      have hpatch : Proceeds env t (t.log (.patch link (jumpTo link tpc).1)) := proceeds_log rfl Event.noConfusion
      -- the end of each iteration: the loop goes on unless the cache was flushed
      have hend : ∀ u : Thread T, Proceeds env t u →
          (if u.wasFlushed then Except.ok u else patchLinks env tpc rest u) = .ok t' → Proceeds env t t' := by
        intro u hu hnext
        split_ifs at hnext
        · obtain rfl := Except.ok.inj hnext
          exact hu
        · exact hu.trans (ih hnext)
      rw [patchLinks] at h
      by_cases htrace : link ≥ env.traces
      · rw [if_pos htrace] at h
        obtain ⟨p, -, h⟩ := bind_ok h
        exact hend _ hpatch h
      rw [if_neg htrace] at h
      cases hbb : addrToBbId env link with
      | none =>
          rw [hbb] at h
          obtain rfl := Except.ok.inj h
          exact Proceeds.refl
      | some bb =>
          rw [hbb] at h
          dsimp only at h
          by_cases htype : (t.codeCacheMeta (fragmentOf t bb)).exitBranchType = .branchRiscv
          · rw [if_pos htype] at h
            obtain ⟨u, hbranch, h⟩ := bind_ok h
            exact hend u (patchBranch_proceeds hbranch) h
          · rw [if_neg htype] at h
            obtain ⟨p, -, h⟩ := bind_ok h
            exact hend _ hpatch h

theorem otherSide_proceeds {addr tpc : Nat} (h : otherSide env t addr = .ok (t', tpc)) : Proceeds env t t' := by
  rw [otherSide] at h
  split_ifs at h
  · exact (lookupOrScan_looked h).proceeds
  · obtain ⟨rfl, -⟩ := Prod.mk.inj (Except.ok.inj h)
    exact Proceeds.refl

theorem setUpTraceExitBranchPlaceholder_proceeds {writeP fragmentId p : Nat} {isTaken : Bool}
    (h : setUpTraceExitBranchPlaceholder env t writeP fragmentId isTaken = .ok (t', p)) : Proceeds env t t' := by
  obtain ⟨⟨t₁, tpc⟩, hscan, h⟩ := bind_ok h
  obtain ⟨t₂, hrecord, h⟩ := bind_ok h
  obtain ⟨rfl, -⟩ := Prod.mk.inj (Except.ok.inj h)
  exact (otherSide_proceeds hscan).trans (traceRecordExit_proceeds hrecord)

theorem scanTrace_proceeds {address id len : Nat} {type : CcType}
    (h : scanTrace env t address type = .ok (t', id, len)) : Proceeds env t t' := by
  obtain ⟨⟨t₁, traceId⟩, halloc, h⟩ := bind_ok h
  obtain ⟨⟨t₂, size⟩, hscan, h⟩ := bind_ok h
  have hbefore : Proceeds env t t₂ :=
    ((allocateTraceFragment_proceeds halloc).trans (proceeds_setMeta _ _)).trans (scanCode_framed hscan).proceeds
  dsimp only at h
  split_ifs at h
  · obtain ⟨rfl, -⟩ := Prod.mk.inj (Except.ok.inj h)
    exact hbefore
  · obtain ⟨rfl, -⟩ := Prod.mk.inj (Except.ok.inj h)
    exact hbefore.trans (proceeds_silent rfl)

end Parts

section Calls

theorem installTrace_held (h : Held env t) (hinstall : installTrace env t = .ok t') : Held env t' := by
  rw [installTrace] at hinstall
  split_ifs at hinstall
  obtain ⟨t₁, hpatch, hinstall⟩ := bind_ok hinstall
  have hp : Proceeds env t t₁ := Proceeds.trans (proceeds_setActive rfl rfl) (patchLinks_proceeds hpatch)
  have h₁ := h.proceeds hp
  split_ifs at hinstall with hflushed
  · obtain rfl := Except.ok.inj hinstall
    exact h₁
  · obtain ⟨⟨t₂, p⟩, hexits, hinstall⟩ := bind_ok hinstall
    obtain rfl := Except.ok.inj hinstall
    rw [← hp.entry] at hexits
    obtain ⟨hordered, hlive⟩ := h₁.1.commit (h₁.2 (Bool.eq_false_iff.mpr hflushed)) _ _
    obtain ⟨hwritten, hsame⟩ := writeExits_calm hexits
    have hlive₂ : Live t₂ := hlive.proceeds hwritten (hsame.trans (Bool.eq_false_iff.mpr hflushed))
    have hwritten' : Ordered env (t₂.setWriteP p) := (hordered.proceeds hwritten).proceeds (proceeds_setWriteP p)
    exact ⟨hwritten'.setTrace hlive₂ _ _, fun _ => hlive₂⟩

theorem earlyTraceExit_held {source writeP tpc : Nat} (h : Held env t)
    (hexit : earlyTraceExit env t source writeP tpc = .ok t') : Held env t' := by
  obtain ⟨t₁, hinstall, hexit⟩ := bind_ok hexit
  have hbefore : Proceeds env t
      ((t.log (.link writeP (jumpTo writeP tpc).1 (.trace t.activeTrace.entryAddr))).setWriteP
        (writeP + (jumpTo writeP tpc).1)) :=
    (proceeds_log rfl Event.noConfusion).trans (proceeds_setWriteP _)
  have h₁ := installTrace_held (h.proceeds hbefore) hinstall
  split_ifs at hexit
  · rwa [← Except.ok.inj hexit]
  · rw [← Except.ok.inj hexit]
    exact h₁.proceeds (proceeds_setMeta _ _)

variable {o : Outcome} {target source writeP : Nat}

theorem exitTo_ends {addr : Nat} (h : Held env t) (hexit : exitTo env t source writeP target addr = .ok (t', o)) :
    Ends env t' o := by
  obtain ⟨t₁, hearly, hexit⟩ := bind_ok hexit
  have h₁ := earlyTraceExit_held h hearly
  split_ifs at hexit with hflushed
  · exact resolve_ends h₁.1 hexit
  · obtain ⟨rfl, rfl⟩ := Prod.mk.inj (Except.ok.inj hexit)
    exact ⟨h₁.leave (Bool.eq_false_iff.mpr hflushed) addr, fun hne => absurd rfl hne⟩

theorem unlinkedExit_ends (h : Held env t) (hexit : unlinkedExit env t source writeP target = .ok (t', o)) :
    Ends env t' o := by
  obtain ⟨⟨t₁, addr⟩, hscan, hexit⟩ := bind_ok hexit
  exact exitTo_ends (h.proceeds (activeTraceLookupOrScan_proceeds hscan)) hexit

theorem linkedExit_ends (h : Held env t) (hexit : linkedExit env t source writeP target = .ok (t', o)) :
    Ends env t' o := by
  rw [linkedExit] at hexit
  split_ifs at hexit
  · obtain ⟨⟨t₁, addr⟩, hscan, hexit⟩ := bind_ok hexit
    obtain ⟨t₂, hrecord, hexit⟩ := bind_ok hexit
    exact exitTo_ends ((h.proceeds (activeTraceLookupOrScan_proceeds hscan)).proceeds (recordCcLink_calm hrecord).1) hexit
  · exact exitTo_ends h hexit

theorem nextFragment_ends (h : Held env t) (hnext : nextFragment env t source writeP target = .ok (t', o)) :
    Ends env t' o := by
  obtain ⟨⟨t₁, fragmentId, fragmentLen⟩, hscan, hnext⟩ := bind_ok hnext
  have h₁ := h.proceeds (scanTrace_proceeds hscan)
  dsimp only at hnext
  split_ifs at hnext with hflushed hlen hfit hjalr
  · exact resolve_ends h₁.1 hnext
  · exact linkedExit_ends (h₁.proceeds (proceeds_setActive rfl rfl)) hnext
  · exact unlinkedExit_ends (h₁.proceeds ((proceeds_setWriteP _).trans (proceeds_setActive rfl rfl))) hnext
  · obtain ⟨t₂, hinstall, hnext⟩ := bind_ok hnext
    have h₂ := installTrace_held (h₁.proceeds (proceeds_setWriteP _)) hinstall
    split_ifs at hnext with hflushed'
    · exact resolve_ends h₂.1 hnext
    · obtain ⟨rfl, rfl⟩ := Prod.mk.inj (Except.ok.inj hnext)
      exact ⟨h₂.leave (Bool.eq_false_iff.mpr hflushed') _, fun hne => absurd rfl hne⟩
  · obtain ⟨rfl, rfl⟩ := Prod.mk.inj (Except.ok.inj hnext)
    have hf := Bool.eq_false_iff.mpr hflushed
    have h₂ : Held env (t₁.setWriteP (t₁.activeTrace.writeP + 2 * fragmentLen)) := h₁.proceeds (proceeds_setWriteP _)
    exact ⟨h₂.leave hf _, fun _ => (h₂.2 hf).log rfl Event.noConfusion⟩

theorem continueTrace_ends (h : Held env t) (hcontinue : continueTrace env t source writeP target = .ok (t', o)) :
    Ends env t' o := by
  have h₁ : Held env (t.setWriteP writeP) := h.proceeds (proceeds_setWriteP _)
  rw [continueTrace] at hcontinue
  split_ifs at hcontinue
  · exact resolve_ends h₁.1 hcontinue
  · exact unlinkedExit_ends h₁ hcontinue
  · exact linkedExit_ends h₁ hcontinue
  · exact exitTo_ends h₁ hcontinue
  · exact nextFragment_ends h₁ hcontinue

theorem traceDispatcher_ends (h : Ordered env t)
    (hlive : (t.codeCacheMeta source).exitBranchType = .jalrRiscv ∨ Live t)
    (hcall : traceDispatcher env t target source = .ok (t', o)) : Ends env t' o := by
  have h₀ : Ordered env { t with wasFlushed := false } := ⟨h.atomic, h.empty⟩
  rw [traceDispatcher] at hcall
  split at hcall
  · rename_i htype
    have hheld : Held env { t with wasFlushed := false } :=
      ⟨h₀, fun _ => hlive.resolve_left (by rw [htype]; exact BranchType.noConfusion)⟩
    obtain ⟨⟨t₁, p⟩, hexit, hcall⟩ := bind_ok hcall
    have h₁ := hheld.proceeds (setUpTraceExitBranchPlaceholder_proceeds hexit)
    exact continueTrace_ends (h₁.proceeds (proceeds_setMeta _ _)) hcall
  · rename_i htype
    have hheld : Held env { t with wasFlushed := false } :=
      ⟨h₀, fun _ => hlive.resolve_left (by rw [htype]; exact BranchType.noConfusion)⟩
    exact continueTrace_ends (hheld.proceeds (proceeds_setMeta _ _)) hcall
  · exact resolve_ends h₀ hcall
  · exact nomatch hcall

theorem beginTrace_held (h : Atomic t.events) (bbSource : Nat) : Held env (beginTrace t bbSource) :=
  ⟨ordered_create h, fun _ => live_create⟩

theorem createTrace_ends {bbSource : Nat} (h : Ordered env t) (hcall : createTrace env t bbSource = .ok (t', o)) :
    Ends env t' o := by
  rw [createTrace] at hcall
  dsimp only at hcall
  split_ifs at hcall
  · refine resolve_ends (ordered_flush ?_) hcall
    exact h.atomic
  · obtain ⟨⟨t₁, traceId, len⟩, hscan, hcall⟩ := bind_ok hcall
    have hheld : Held env t₁ := by
      refine Held.proceeds (beginTrace_held ?_ bbSource) (scanTrace_proceeds hscan)
      exact h.atomic
    dsimp only at hcall
    split_ifs at hcall with hflushed htype
    · exact resolve_ends hheld.1 hcall
    · obtain ⟨rfl, rfl⟩ := Prod.mk.inj (Except.ok.inj hcall)
      have hf := Bool.eq_false_iff.mpr hflushed
      exact ⟨hheld.leave hf _, fun _ => (hheld.2 hf).log rfl Event.noConfusion⟩

end Calls

section Links

variable {tryJumpTrampolines : Thread T → Nat → Nat → Bool} {bb writeP target p : Nat}

theorem linkTo_calm (h : linkTo env t tryJumpTrampolines bb writeP target = .ok (t', p)) : Calm env t t' := by
  obtain ⟨t₁, hrecord, h⟩ := bind_ok h
  have hbefore : Calm env t t₁ := (calm_log rfl Event.noConfusion).trans (recordCcLink_calm hrecord)
  split_ifs at h
  obtain ⟨rfl, -⟩ := Prod.mk.inj (Except.ok.inj h)
  exact hbefore

theorem linkBranchTo_calm {other : Option Nat}
    (h : linkBranchTo env t tryJumpTrampolines bb writeP target other = .ok t') : Calm env t t' := by
  obtain ⟨t₁, hrecord, h⟩ := bind_ok h
  have hbefore : Calm env t t₁ := (calm_log rfl Event.noConfusion).trans (recordCcLink_calm hrecord)
  cases other with
  | none =>
      obtain rfl := Except.ok.inj h
      exact hbefore
  | some other =>
      obtain ⟨⟨t₂, p⟩, hlink, h⟩ := bind_ok h
      obtain rfl := Except.ok.inj h
      exact hbefore.trans (linkTo_calm hlink)

theorem linkBranch_calm (h : linkBranch env t tryJumpTrampolines bb = .ok t') : Calm env t t' := by
  rw [linkBranch] at h
  split_ifs at h
  · exact linkBranchTo_calm h
  · exact linkBranchTo_calm h
  · obtain ⟨⟨t₁, p⟩, hlink, h⟩ := bind_ok h
    dsimp only at h
    split at h
    · obtain ⟨⟨t₂, p⟩, hlink', h⟩ := bind_ok h
      obtain rfl := Except.ok.inj h
      exact (linkTo_calm hlink).trans (linkTo_calm hlink')
    · obtain rfl := Except.ok.inj h
      exact linkTo_calm hlink

theorem dispatcherRiscv_calm {source addr : Nat} {exitType : BranchType}
    (h : dispatcherRiscv env t tryJumpTrampolines source exitType addr = .ok t') : Calm env t t' := by
  unfold dispatcherRiscv at h
  split at h
  · exact linkBranch_calm h
  · obtain ⟨⟨t₁, p⟩, hlink, h⟩ := bind_ok h
    obtain rfl := Except.ok.inj h
    exact linkTo_calm hlink
  · obtain rfl := Except.ok.inj h
    exact Calm.refl

theorem dispatcher_ends {source : Nat} {o : Outcome} (h : Ordered env t) (hsource : source < codeCacheSize)
    (hcall : dispatcher env t tryJumpTrampolines target source = .ok (t', o)) : Ends env t' o := by
  rw [dispatcher, if_neg (by omega)] at hcall
  obtain ⟨⟨t₁, addr⟩, hlookup, hcall⟩ := bind_ok hcall
  have hlooked := lookupOrScan_looked hlookup
  have h₀ : Ordered env { t with wasFlushed := false } := ⟨h.atomic, h.empty⟩
  have h₁ := h₀.proceeds hlooked.proceeds
  dsimp only at hcall
  split_ifs at hcall with hbypass
  · obtain ⟨rfl, rfl⟩ := Prod.mk.inj (Except.ok.inj hcall)
    exact ⟨h₁.returned fun _ => hlooked.resolved, fun hne => absurd rfl hne⟩
  · obtain ⟨t₂, hlink, hcall⟩ := bind_ok hcall
    obtain ⟨rfl, rfl⟩ := Prod.mk.inj (Except.ok.inj hcall)
    obtain ⟨hp, hsame⟩ := dispatcherRiscv_calm hlink
    rw [not_or, Bool.not_eq_true] at hbypass
    have hresolved := hlooked.resolved.proceeds hp (hsame.trans hbypass.2)
    exact ⟨(h₁.proceeds hp).returned fun _ => hresolved, fun hne => absurd rfl hne⟩

end Links

section Runs

variable {tryJumpTrampolines : Thread T → Nat → Nat → Bool} {s s' : System T} {call : Call}

theorem step_inv (hmeets : NotUnmapped s call) (hstep : Step env (rvCalls env tryJumpTrampolines) s call s') (h : Inv env s) :
    Inv env s' := by
  cases hstep with
  | create _ hcall => exact (createTrace_ends h.1 hcall).inv
  | fragment hcall => exact (traceDispatcher_ends h.1 (Or.inr (h.2 Control.noConfusion)) hcall).inv
  | indirect htype hcall => exact (traceDispatcher_ends h.1 (Or.inl htype) hcall).inv
  | block hsource hcall => exact (dispatcher_ends h.1 hsource hcall).inv
  | unmap => exact ⟨h.1.proceeds proceeds_flush, fun hne => absurd (hmeets rfl) hne⟩

theorem reachable_inv (h : Reachable env (rvCalls env tryJumpTrampolines) NotUnmapped s) : Inv env s :=
  h.invariant inv_initial fun _ _ _ hmeets hstep => step_inv hmeets hstep

/-- In every run in which memory is unmapped only outside unfinished traces, a
trace that was begun before a flush is never entered in the hash table after it,
the trace cache stays empty, and calls go on at addresses that were looked up or
scanned after the flush. -/
theorem trace_flush_atomic (h : Reachable env (rvCalls env tryJumpTrampolines) NotUnmapped s) : Ordered env s.thread :=
  (reachable_inv h).1

/-- A trace that is installed before memory is unmapped. -/
theorem trace_flush_atomic_loop :
    ∃ s, run loopEnv (rvCalls loopEnv noTrampolines) (initial loopEnv zeroed)
        [.dispatch 0x10000 0, .create 10, .dispatch 0x10000 55000, .unmap, .dispatch 0x10000 0] = some s ∧
      Ordered loopEnv s.thread :=
  ⟨_, rfl, trace_flush_atomic (run_reachable loopEnv (rvCalls loopEnv noTrampolines) ⟨zeroed, .refl⟩
    [.dispatch 0x10000 0, .create 10, .dispatch 0x10000 55000, .unmap, .dispatch 0x10000 0] (by decide) rfl)⟩

/-- Memory is unmapped while the trace is under construction: the next call of the
dispatcher forgets the flush and installs the trace. -/
theorem trace_flush_unmapped :
    ∃ s, Reachable loopEnv (rvCalls loopEnv noTrampolines) (fun _ _ => True) s ∧ ¬ Ordered loopEnv s.thread := by
  refine ⟨_, run_reachable loopEnv (rvCalls loopEnv noTrampolines) ⟨zeroed, .refl⟩
    [.dispatch 0x10000 0, .create 10, .unmap, .dispatch 0x10000 55000] (by decide) rfl, ?_⟩
  intro h
  exact h.atomic.2.1.1 (by decide)

end Runs

end Mambo.RvTraceFlushes
