import Mambo.A64TraceRuns

namespace Mambo.A64TraceFlushes

open TraceState TraceLog TraceRuns A64Traces A64TraceRuns

section Stubs

/-- The translation that an exit leads to, past its first word, was looked up,
scanned or begun as a trace after the last flush. -/
def Current (events : List Event) (target : Nat) : Prop :=
  ∃ tpc, target = tpc + 4 ∧ (Resolved events tpc ∨ .create tpc ∈ sinceFlush events)

/-- Every stub leads to a translation that was current when the stub was written. -/
def StubsCurrent : List Event → Prop
  | [] => True
  | .stub target :: older => Current older target ∧ StubsCurrent older
  | _ :: older => StubsCurrent older

variable {new older : List Event} {target : Nat}

theorem Current.append (h : Current older target) (hnew : .flush ∉ new) : Current (new ++ older) target := by
  obtain ⟨tpc, rfl, hresolved | hcreate⟩ := h
  · exact ⟨tpc, rfl, Or.inl (hresolved.append hnew)⟩
  · refine ⟨tpc, rfl, Or.inr ?_⟩
    rw [sinceFlush_append hnew]
    exact List.mem_append_right _ hcreate

theorem Current.cons (h : Current older target) {e : Event} (hne : e ≠ .flush) : Current (e :: older) target :=
  Current.append h fun hin => hne (List.mem_singleton.mp hin).symm

theorem StubsCurrent.append (h : StubsCurrent older) (hnew : ∀ e ∈ new, inner e) : StubsCurrent (new ++ older) := by
  induction new with
  | nil => exact h
  | cons e rest ih =>
      have hrest := ih fun e he => hnew e (List.mem_cons_of_mem _ he)
      have he := hnew e List.mem_cons_self
      cases e with
      | create | commit | stub | returned => cases he
      | flush | lookup | scan | link | patch => exact hrest

end Stubs

variable {T : Type} {env : Env T} {t t' : Thread T}

section Invariant

structure Sound (env : Env T) (t : Thread T) : Prop where
  ordered : Ordered env t
  stubs : StubsCurrent t.events

/-- The trace under construction was begun after the last flush and its exits lead
to translations from after it. -/
structure Fresh (t : Thread T) : Prop where
  live : Live t
  exits : ∀ e ∈ t.activeTrace.exits, Current t.events e.target

structure During (env : Env T) (t : Thread T) : Prop where
  sound : Sound env t
  fresh : t.wasFlushed = false → Fresh t

theorem Sound.proceeds (h : Sound env t) (hp : Proceeds env t t') : Sound env t' := by
  refine ⟨h.ordered.proceeds hp, ?_⟩
  obtain ⟨⟨new, hnew, hinner, -⟩, -, -⟩ := hp
  rw [hnew]
  exact h.stubs.append hinner

theorem Fresh.proceeds (h : Fresh t) (hp : Proceeds env t t') (hexits : t'.activeTrace.exits = t.activeTrace.exits)
    (hf : t'.wasFlushed = false) : Fresh t' := by
  refine ⟨h.live.proceeds hp hf, ?_⟩
  obtain ⟨-, new, hnew, -, hlate⟩ := hp.unflushed hf
  intro e he
  rw [hexits] at he
  rw [hnew]
  exact (h.exits e he).append hlate

theorem During.proceeds (h : During env t) (hp : Proceeds env t t')
    (hexits : t'.activeTrace.exits = t.activeTrace.exits) : During env t' :=
  ⟨h.sound.proceeds hp, fun hf => (h.fresh (hp.unflushed hf).1).proceeds hp hexits hf⟩

theorem During.scan (h : During env t) {target addr : Nat} (hscan : activeTraceLookupOrScan env t target = .ok (t', addr)) :
    During env t' := by
  refine h.proceeds (activeTraceLookupOrScan_proceeds hscan) ?_
  rw [(activeTraceLookupOrScan_sameTrace hscan).1]

theorem During.current (h : During env t) {target addr : Nat}
    (hscan : activeTraceLookupOrScan env t target = .ok (t', addr)) (hf : t'.wasFlushed = false) :
    Current t'.events (addr + 4) := by
  refine ⟨addr, rfl, ?_⟩
  have hlive := (h.scan hscan).fresh hf
  rw [activeTraceLookupOrScan] at hscan
  split_ifs at hscan
  · obtain ⟨rfl, rfl⟩ := Prod.mk.inj (Except.ok.inj hscan)
    exact Or.inr (live_create_mem hlive.live.1 hlive.live.2)
  · exact Or.inl (lookupOrScan_looked hscan).resolved

end Invariant

section Install

variable {isInstructionPositionIndependent : Thread T → Nat → Bool} {fragment : Fragment} {writeP target : Nat}

theorem ccBranch_calm (h : ccBranch env t fragment writeP target = .ok t') :
    Calm env t t' ∧ t'.activeTrace = t.activeTrace :=
  ⟨(calm_log rfl Event.noConfusion).trans (recordCcLink_calm h), (recordCcLink_same h).2⟩

theorem linkExit_calm {e : TraceExit} (h : linkExit env t e = .ok t') : Calm env t t' := by
  rw [linkExit] at h
  split_ifs at h
  · exact (ccBranch_calm h).1
  · obtain rfl := Except.ok.inj h
    exact Calm.refl

theorem writeStub_sound {e : TraceExit} {exitStart p : Nat} (h : Sound env t) (hlive : Live t)
    (hcurrent : Current t.events e.target) (hstub : writeStub t isInstructionPositionIndependent e exitStart = .ok (t', p)) :
    Sound env t' ∧ Live t' ∧ t'.events = .stub e.target :: t.events ∧ t'.wasFlushed = t.wasFlushed := by
  obtain ⟨⟨t₁, exitId⟩, halloc, hstub⟩ := bind_ok hstub
  rw [allocateTraceFragment] at halloc
  split_ifs at halloc
  obtain ⟨rfl, -⟩ := Prod.mk.inj (Except.ok.inj halloc)
  obtain ⟨rfl, -⟩ := Prod.mk.inj (Except.ok.inj hstub)
  have hlive' := hlive.log (e := .stub e.target) rfl Event.noConfusion
  exact ⟨⟨⟨h.ordered.atomic, fun hin => absurd hin hlive'.1⟩, hcurrent, h.stubs⟩, hlive', rfl, rfl⟩

theorem writeExits_sound {exits : List TraceExit} {exitStubAddr p : Nat} (h : Sound env t) (hlive : Live t)
    (hf : t.wasFlushed = false) (hcurrent : ∀ e ∈ exits, Current t.events e.target)
    (hwrite : writeExits env isInstructionPositionIndependent exits t exitStubAddr = .ok (t', p)) :
    Sound env t' ∧ Live t' := by
  induction exits generalizing t exitStubAddr with
  | nil =>
      obtain ⟨rfl, -⟩ := Prod.mk.inj (Except.ok.inj hwrite)
      exact ⟨h, hlive⟩
  | cons e rest ih =>
      obtain ⟨max, -, hwrite⟩ := bind_ok hwrite
      obtain ⟨t₁, hlink, hwrite⟩ := bind_ok hwrite
      have hcalm := linkExit_calm hlink
      have hf₁ := hcalm.2.trans hf
      obtain ⟨-, new, hnew, -, hlate⟩ := hcalm.1.unflushed hf₁
      have h₁ := h.proceeds hcalm.1
      have hlive₁ := hlive.proceeds hcalm.1 hf₁
      have hcurrent₁ : ∀ e' ∈ e :: rest, Current t₁.events e'.target := by
        intro e' he'
        rw [hnew]
        exact (hcurrent e' he').append hlate
      dsimp only at hwrite
      by_cases hfar : e.target < env.traces ∨ !isOffsetWithinRange ((e.target : Int) - e.source) max
      · rw [if_pos hfar] at hwrite
        obtain ⟨⟨t₂, p₂⟩, hstub, hwrite⟩ := bind_ok hwrite
        obtain ⟨h₂, hlive₂, hevents, hsame⟩ := writeStub_sound h₁ hlive₁ (hcurrent₁ e List.mem_cons_self) hstub
        dsimp only at hwrite
        split_ifs at hwrite
        refine ih h₂ hlive₂ (hsame.trans hf₁) ?_ hwrite
        intro e' he'
        rw [hevents]
        exact (hcurrent₁ e' (List.mem_cons_of_mem _ he')).cons Event.noConfusion
      · rw [if_neg hfar] at hwrite
        exact ih h₁ hlive₁ hf₁ (fun e' he' => hcurrent₁ e' (List.mem_cons_of_mem _ he')) hwrite

theorem patchLinks_calm (links : List Nat) (t : Thread T) :
    Calm env t (patchLinks links t) ∧ (patchLinks links t).activeTrace = t.activeTrace := by
  induction links generalizing t with
  | nil => exact ⟨Calm.refl, rfl⟩
  | cons link rest ih =>
      obtain ⟨hcalm, hactive⟩ := ih (t.log (.patch link 4))
      exact ⟨(calm_log rfl Event.noConfusion).trans hcalm, hactive⟩

/-- The links of the source block are rewritten before the trace is entered in the
hash table. -/
def patched (t : Thread T) : Thread T :=
  patchLinks (t.codeCacheMeta t.activeTrace.sourceBb).linkedFrom (t.setActive fun a => { a with active := false })

theorem patched_during (h : During env t) : During env (patched t) ∧ (patched t).wasFlushed = t.wasFlushed ∧
    (patched t).activeTrace.entryAddr = t.activeTrace.entryAddr := by
  obtain ⟨⟨hp, hf⟩, hactive⟩ := patchLinks_calm (t.codeCacheMeta t.activeTrace.sourceBb).linkedFrom
    (t.setActive fun a => { a with active := false })
  have h₀ : During env (t.setActive fun a => { a with active := false }) := h.proceeds (proceeds_setActive rfl rfl) rfl
  have hentry := congrArg TraceInProg.entryAddr hactive
  exact ⟨h₀.proceeds hp (congrArg _ hactive), hf, hentry⟩

theorem installTrace_sound (h : During env t) (hf : t.wasFlushed = false)
    (hinstall : installTrace env t isInstructionPositionIndependent = .ok t') : Sound env t' ∧ Live t' := by
  rw [installTrace] at hinstall
  split_ifs at hinstall
  obtain ⟨⟨t₂, p⟩, hexits, hinstall⟩ := bind_ok hinstall
  obtain rfl := Except.ok.inj hinstall
  obtain ⟨h₁, hsame, hentry⟩ := patched_during h
  have hfresh := h₁.fresh (hsame.trans hf)
  obtain ⟨hordered, hlive⟩ := h₁.sound.ordered.commit hfresh.live
    (env.hashAdd (patched t).entryAddress (t.codeCacheMeta t.activeTrace.sourceBb).sourceAddr t.activeTrace.entryAddr).1
    (t.codeCacheMeta t.activeTrace.sourceBb).sourceAddr
  rw [hentry] at hordered hlive
  have hcurrent : ∀ e ∈ (patched t).activeTrace.exits,
      Current (.commit (t.codeCacheMeta t.activeTrace.sourceBb).sourceAddr t.activeTrace.entryAddr :: (patched t).events)
        e.target := fun e he => (hfresh.exits e he).cons Event.noConfusion
  obtain ⟨h₂, hlive₂⟩ := writeExits_sound ⟨hordered, h₁.sound.stubs⟩ hlive (hsame.trans hf) hcurrent hexits
  have h₃ : Sound env (t₂.setTrace t₂.activeTrace.id p) := ⟨h₂.ordered.setTrace hlive₂ _ _, h₂.stubs⟩
  exact ⟨h₃.proceeds (proceeds_setWriteP p), hlive₂⟩

end Install

section Conditions

variable (env t)

/-- What has to hold where the next fragment is scanned: the cache is not flushed
for an early exit if the stubs do not fit behind the fragment. -/
def FragmentMeets (target : Nat) : Prop :=
  After (scanTrace env t target .trace) fun r =>
    traceExitStubsFit r.1.activeTrace.exits (r.1.activeTrace.writeP + r.2.2) = .ok false → ¬ WouldFlush env r.1 target

def EndsEarly (writeP : Nat) : Prop :=
  writeP ≥ env.codeCache + maxBranchRange - traceLimitOffset ∨
    traceExitStubsFit t.activeTrace.exits (writeP + traceExitStubGuard) = .ok false ∨
      t.traceFragmentCount > maxTraceFragments

instance (writeP : Nat) : Decidable (EndsEarly env t writeP) := by
  delta EndsEarly
  infer_instance

@[irreducible]
def ContinueMeets (writeP target : Nat) : Prop :=
  let t := t.setWriteP writeP
  if t.wasFlushed then True
  else if EndsEarly env t writeP then ¬ WouldFlush env t target
  else if activeTraceLookup env t target ≠ uintMax then True
  else FragmentMeets env t target

/-- What has to hold when the last fragment of an unfinished trace calls the
dispatcher: the scan for an early exit does not flush the cache. -/
def DispatchMeets (target source : Nat) : Prop :=
  let m := t.codeCacheMeta source
  let isTaken := m.branchTakenAddr = target
  let t := { t with wasFlushed := false }
  if m.exitBranchType = .uncondImmA64 then
    ContinueMeets env (t.setMeta source fun m => { m with branchCacheStatus := branchLinked }) m.exitBranchAddr target
  else if m.exitBranchType = .uncondBranchReg then True
  else
    After (setUpTraceExit env t m.exitBranchAddr source isTaken) fun r =>
      ContinueMeets env (r.1.setMeta source fun m =>
        { m with branchCacheStatus := if isTaken then branchLinked else fallthroughLinked }) r.2 target

variable {env t}

instance (target : Nat) : Decidable (FragmentMeets env t target) := by
  delta FragmentMeets
  infer_instance

instance (writeP target : Nat) : Decidable (ContinueMeets env t writeP target) := by
  delta ContinueMeets
  infer_instance

instance (target source : Nat) : Decidable (DispatchMeets env t target source) := by
  delta DispatchMeets
  infer_instance

end Conditions

section Calls

variable {isInstructionPositionIndependent : Thread T → Nat → Bool} {source writeP target : Nat} {o : Outcome}

structure Ended (env : Env T) (t : Thread T) (o : Outcome) : Prop where
  sound : Sound env t
  fresh : o.fragment ≠ none → Fresh t

theorem resolve_ended (h : Sound env t) (hresolve : resolve env t target = .ok (t', o)) : Ended env t' o := by
  have hends := resolve_ends h.ordered hresolve
  obtain ⟨⟨t₁, addr⟩, hlookup, hresolve⟩ := bind_ok hresolve
  obtain ⟨rfl, rfl⟩ := Prod.mk.inj (Except.ok.inj hresolve)
  exact ⟨⟨hends.1, (h.proceeds (lookupOrScan_looked hlookup).proceeds).stubs⟩, fun hne => absurd rfl hne⟩

theorem ended_leave (h : Sound env t) (hlive : Live t) (addr : Nat) : Ended env (leave t addr).1 (leave t addr).2 :=
  ⟨⟨h.ordered.returned fun hin => absurd hin hlive.1, h.stubs⟩, fun hne => absurd rfl hne⟩

theorem ended_stay (h : Sound env t) (hfresh : Fresh t) (addr fragment : Nat) :
    Ended env (stay t addr fragment).1 (stay t addr fragment).2 := by
  refine ⟨⟨h.ordered.returned fun hin => absurd hin hfresh.live.1, h.stubs⟩, fun _ => ⟨?_, ?_⟩⟩
  · exact hfresh.live.log rfl Event.noConfusion
  · exact fun e he => (hfresh.exits e he).cons Event.noConfusion

theorem exitTo_ended {addr : Nat} (h : During env t) (hf : t.wasFlushed = false)
    (hexit : exitTo env t isInstructionPositionIndependent source writeP addr = .ok (t', o)) : Ended env t' o := by
  obtain ⟨t₁, hearly, hexit⟩ := bind_ok hexit
  obtain ⟨rfl, rfl⟩ := Prod.mk.inj (Except.ok.inj hexit)
  obtain ⟨t₂, hbranch, hearly⟩ := bind_ok hearly
  obtain ⟨t₃, hinstall, hearly⟩ := bind_ok hearly
  obtain rfl := Except.ok.inj hearly
  obtain ⟨⟨hp, hsame⟩, hactive⟩ := ccBranch_calm hbranch
  have h₂ : During env t₂ := h.proceeds hp (congrArg _ hactive)
  have hwritten : During env (t₂.setWriteP (writeP + 4)) := h₂.proceeds (proceeds_setWriteP _) rfl
  obtain ⟨h₃, hlive⟩ := installTrace_sound hwritten (hsame.trans hf) hinstall
  exact ended_leave (h₃.proceeds (proceeds_setMeta _ _)) hlive addr

theorem scanAndExit_ended (h : During env t) (hf : t.wasFlushed = false) (hno : ¬ WouldFlush env t target)
    (hexit : scanAndExit env t isInstructionPositionIndependent source writeP target = .ok (t', o)) : Ended env t' o := by
  obtain ⟨⟨t₁, addr⟩, hscan, hexit⟩ := bind_ok hexit
  exact exitTo_ended (h.scan hscan) ((activeTraceLookupOrScan_unflushed hno hscan).trans hf) hexit

theorem scanTrace_silent {address id len : Nat} {type : CcType} (hscan : scanTrace env t address type = .ok (t', id, len)) :
    Calm env t t' ∧ t'.events = t.events ∧ t'.activeTrace = { t.activeTrace with id := t'.activeTrace.id } := by
  obtain ⟨⟨t₁, traceId⟩, halloc, hscan⟩ := bind_ok hscan
  obtain ⟨⟨t₂, size⟩, hcode, hscan⟩ := bind_ok hscan
  obtain ⟨rfl, -⟩ := Prod.mk.inj (Except.ok.inj hscan)
  rw [allocateTraceFragment] at halloc
  split_ifs at halloc
  obtain ⟨rfl, -⟩ := Prod.mk.inj (Except.ok.inj halloc)
  rw [(scanCode_framed hcode).rest]
  exact ⟨⟨proceeds_silent rfl, rfl⟩, rfl, rfl⟩

theorem nextFragment_ended (h : During env t) (hf : t.wasFlushed = false) (hmeets : FragmentMeets env t target)
    (hnext : nextFragment env t isInstructionPositionIndependent source writeP target = .ok (t', o)) : Ended env t' o := by
  obtain ⟨⟨t₁, fragmentId, fragmentLen⟩, hscan, hnext⟩ := bind_ok hnext
  obtain ⟨⟨hp, hsame⟩, -, hactive⟩ := scanTrace_silent hscan
  have h₁ : During env t₁ := h.proceeds hp (by rw [hactive])
  have h₂ : During env (t₁.setWriteP (t₁.activeTrace.writeP + fragmentLen)) := h₁.proceeds (proceeds_setWriteP _) rfl
  have hf₁ := hsame.trans hf
  obtain ⟨fit, hfit, hnext⟩ := bind_ok hnext
  cases fit with
  | false =>
      have h₃ : During env ((t₁.setWriteP (t₁.activeTrace.writeP + fragmentLen)).setWriteP writeP) :=
        h₂.proceeds (proceeds_setWriteP _) rfl
      exact scanAndExit_ended h₃ hf₁ (hmeets _ hscan hfit) hnext
  | true =>
      rw [if_neg (by decide)] at hnext
      split_ifs at hnext
      · obtain ⟨t₃, hinstall, hnext⟩ := bind_ok hnext
        obtain ⟨rfl, rfl⟩ := Prod.mk.inj (Except.ok.inj hnext)
        obtain ⟨h₃, hlive⟩ := installTrace_sound h₂ hf₁ hinstall
        exact ended_leave h₃ hlive _
      · obtain ⟨rfl, rfl⟩ := Prod.mk.inj (Except.ok.inj hnext)
        exact ended_stay h₂.sound (h₂.fresh hf₁) _ _

theorem continueTrace_ended (h : During env t) (hmeets : ContinueMeets env t writeP target)
    (hcontinue : continueTrace env t isInstructionPositionIndependent source writeP target = .ok (t', o)) :
    Ended env t' o := by
  have h₁ : During env (t.setWriteP writeP) := h.proceeds (proceeds_setWriteP _) rfl
  rw [continueTrace] at hcontinue
  rw [ContinueMeets] at hmeets
  generalize t.setWriteP writeP = u at *
  by_cases hflushed : u.wasFlushed
  · rw [if_pos hflushed] at hcontinue
    exact resolve_ended h₁.sound hcontinue
  rw [if_neg hflushed] at hcontinue hmeets
  have hf : u.wasFlushed = false := Bool.eq_false_iff.mpr hflushed
  have hearly : EndsEarly env u writeP →
      scanAndExit env u isInstructionPositionIndependent source writeP target = .ok (t', o) → Ended env t' o := by
    intro hends hexit
    rw [if_pos hends] at hmeets
    exact scanAndExit_ended h₁ hf hmeets hexit
  by_cases hlimit : writeP ≥ env.codeCache + maxBranchRange - traceLimitOffset
  · rw [if_pos hlimit] at hcontinue
    exact hearly (Or.inl hlimit) hcontinue
  rw [if_neg hlimit] at hcontinue
  obtain ⟨fit, hfit, hcontinue⟩ := bind_ok hcontinue
  cases fit with
  | false => exact hearly (Or.inr (Or.inl hfit)) hcontinue
  | true =>
      rw [if_neg (by decide)] at hcontinue
      by_cases hcount : u.traceFragmentCount > maxTraceFragments
      · rw [if_pos hcount] at hcontinue
        exact hearly (Or.inr (Or.inr hcount)) hcontinue
      have hgoes : ¬ EndsEarly env u writeP := by
        rintro (h | h | h)
        · exact hlimit h
        · cases hfit.symm.trans h
        · exact hcount h
      rw [if_neg hcount] at hcontinue
      rw [if_neg hgoes] at hmeets
      by_cases hlookup : activeTraceLookup env u target ≠ uintMax
      · rw [if_pos hlookup] at hcontinue
        exact exitTo_ended h₁ hf hcontinue
      · rw [if_neg hlookup] at hcontinue hmeets
        exact nextFragment_ended h₁ hf hmeets hcontinue

theorem setUpTraceExit_during {fragmentId p : Nat} {isTaken : Bool} (h : During env t)
    (hexit : setUpTraceExit env t writeP fragmentId isTaken = .ok (t', p)) : During env t' := by
  obtain ⟨⟨t₁, tpc⟩, hscan, hexit⟩ := bind_ok hexit
  obtain ⟨t₂, hrecord, hexit⟩ := bind_ok hexit
  obtain ⟨rfl, -⟩ := Prod.mk.inj (Except.ok.inj hexit)
  have h₁ := h.scan hscan
  have hcurrent : t₁.wasFlushed = false → Current t₁.events (tpc + 4) := fun hf => h.current hscan hf
  refine ⟨h₁.sound.proceeds (traceRecordExit_proceeds hrecord), ?_⟩
  obtain ⟨-, rfl⟩ := traceRecordExit_ok hrecord
  intro hf
  refine ⟨(h₁.fresh hf).live, ?_⟩
  intro e he
  rcases List.mem_append.mp he with hold | hnew
  · exact (h₁.fresh hf).exits e hold
  · rw [List.mem_singleton.mp hnew]
    exact hcurrent hf

theorem traceDispatcher_ended (h : Sound env t) (hfresh : Fresh t) (hmeets : DispatchMeets env t target source)
    (hcall : traceDispatcher env t isInstructionPositionIndependent target source = .ok (t', o)) : Ended env t' o := by
  have h₀ : During env { t with wasFlushed := false } :=
    ⟨⟨⟨h.ordered.atomic, h.ordered.empty⟩, h.stubs⟩, fun _ => ⟨hfresh.live, hfresh.exits⟩⟩
  rw [DispatchMeets] at hmeets
  have hconditional : (t.codeCacheMeta source).exitBranchType ≠ .uncondImmA64 →
      (t.codeCacheMeta source).exitBranchType ≠ .uncondBranchReg →
      (do
        let r ← setUpTraceExit env { t with wasFlushed := false } (t.codeCacheMeta source).exitBranchAddr source
          (decide ((t.codeCacheMeta source).branchTakenAddr = target))
        continueTrace env (r.1.setMeta source fun m => { m with
          branchCacheStatus := if (t.codeCacheMeta source).branchTakenAddr = target then branchLinked
            else fallthroughLinked }) isInstructionPositionIndependent source r.2 target) = .ok (t', o) →
      Ended env t' o := by
    intro hdirect hreg hcall
    rw [if_neg hdirect, if_neg hreg] at hmeets
    obtain ⟨⟨t₁, p⟩, hexit, hcall⟩ := bind_ok hcall
    have h₁ := setUpTraceExit_during h₀ hexit
    exact continueTrace_ended (h₁.proceeds (proceeds_setMeta _ _) rfl) (hmeets _ hexit) hcall
  rw [traceDispatcher] at hcall
  split at hcall
  · rename_i htype
    exact hconditional (by rw [htype]; exact BranchType.noConfusion) (by rw [htype]; exact BranchType.noConfusion) hcall
  · rename_i htype
    exact hconditional (by rw [htype]; exact BranchType.noConfusion) (by rw [htype]; exact BranchType.noConfusion) hcall
  · rename_i htype
    exact hconditional (by rw [htype]; exact BranchType.noConfusion) (by rw [htype]; exact BranchType.noConfusion) hcall
  · rename_i htype
    rw [if_pos htype] at hmeets
    have h₁ : During env (({ t with wasFlushed := false } : Thread T).setMeta source fun m =>
      { m with branchCacheStatus := branchLinked }) := h₀.proceeds (proceeds_setMeta _ _) rfl
    exact continueTrace_ended h₁ hmeets hcall
  · exact resolve_ended h₀.sound hcall
  · cases hcall

theorem traceDispatcher_indirect (h : Sound env t) (htype : (t.codeCacheMeta source).exitBranchType = .uncondBranchReg)
    (hcall : traceDispatcher env t isInstructionPositionIndependent target source = .ok (t', o)) : Ended env t' o := by
  have h₀ : Sound env { t with wasFlushed := false } := ⟨⟨h.ordered.atomic, h.ordered.empty⟩, h.stubs⟩
  rw [traceDispatcher, htype] at hcall
  exact resolve_ended h₀ hcall

theorem createTrace_ended {bbSource : Nat} (h : Sound env t) (hcall : createTrace env t bbSource = .ok (t', o)) :
    Ended env t' o := by
  rw [createTrace] at hcall
  dsimp only at hcall
  split_ifs at hcall
  · refine resolve_ended ⟨ordered_flush ?_, ?_⟩ hcall
    · exact h.ordered.atomic
    · exact h.stubs
  · obtain ⟨⟨t₁, traceId, len⟩, hscan, hcall⟩ := bind_ok hcall
    dsimp only at hcall
    split_ifs at hcall
    obtain ⟨rfl, rfl⟩ := Prod.mk.inj (Except.ok.inj hcall)
    obtain ⟨⟨hp, -⟩, hevents, hactive⟩ := scanTrace_silent hscan
    have hbegin : Sound env (beginTrace { t with traceFragmentCount := 0, traceCacheNext := alignTrace t.traceCacheNext }
        bbSource) := ⟨ordered_create h.ordered.atomic, h.stubs⟩
    refine ended_stay (hbegin.proceeds hp) ⟨?_, ?_⟩ _ _
    · rw [Live, hevents, hp.entry]
      exact live_create
    · intro e he
      rw [hactive] at he
      cases he

end Calls

section Blocks

variable {isInstructionPositionIndependent : Thread T → Nat → Bool} {source target blockAddress : Nat} {o : Outcome}

theorem linkConditional_calm (h : linkConditional env t source target blockAddress = .ok t') : Calm env t t' := by
  have hmeta : ∀ (u : Thread T) f, Calm env u (u.setMeta source f) := fun u f => ⟨proceeds_setMeta _ _, rfl⟩
  rw [linkConditional] at h
  by_cases hstatus : (t.codeCacheMeta source).branchCacheStatus = 0
  · rw [if_pos hstatus] at h
    obtain ⟨t₁, hfirst, h⟩ := bind_ok h
    have h₁ := (hmeta _ _).trans (ccBranch_calm hfirst).1
    by_cases hother : env.hashLookup t.entryAddress (if target = (t.codeCacheMeta source).branchTakenAddr then
        (t.codeCacheMeta source).branchSkippedAddr else (t.codeCacheMeta source).branchTakenAddr) ≠ uintMax
    · rw [if_pos hother] at h
      obtain ⟨t₂, hsecond, h⟩ := bind_ok h
      obtain rfl := Except.ok.inj h
      exact (h₁.trans (ccBranch_calm hsecond).1).trans (hmeta _ _)
    · rw [if_neg hother] at h
      obtain rfl := Except.ok.inj h
      exact h₁
  · rw [if_neg hstatus] at h
    exact (hmeta _ _).trans (ccBranch_calm h).1

theorem dispatcherAarch64_calm {exitType : BranchType}
    (h : dispatcherAarch64 env t source exitType target blockAddress = .ok t') : Calm env t t' := by
  unfold dispatcherAarch64 at h
  split at h
  · obtain ⟨t₁, hbranch, h⟩ := bind_ok h
    obtain rfl := Except.ok.inj h
    exact (ccBranch_calm hbranch).1.trans ⟨proceeds_setMeta _ _, rfl⟩
  · exact linkConditional_calm h
  · exact linkConditional_calm h
  · exact linkConditional_calm h
  · obtain rfl := Except.ok.inj h
    exact Calm.refl

theorem dispatcher_ended (h : Sound env t) (hsource : source < codeCacheSize)
    (hcall : dispatcher env t isInstructionPositionIndependent target source = .ok (t', o)) : Ended env t' o := by
  rw [dispatcher, if_neg (by omega)] at hcall
  obtain ⟨⟨t₁, addr⟩, hlookup, hcall⟩ := bind_ok hcall
  have hlooked := lookupOrScan_looked hlookup
  have h₀ : Sound env { t with wasFlushed := false } := ⟨⟨h.ordered.atomic, h.ordered.empty⟩, h.stubs⟩
  have h₁ := h₀.proceeds hlooked.proceeds
  dsimp only at hcall
  split_ifs at hcall with hbypass
  · obtain ⟨rfl, rfl⟩ := Prod.mk.inj (Except.ok.inj hcall)
    exact ⟨⟨h₁.ordered.returned fun _ => hlooked.resolved, h₁.stubs⟩, fun hne => absurd rfl hne⟩
  · obtain ⟨t₂, hlink, hcall⟩ := bind_ok hcall
    obtain ⟨rfl, rfl⟩ := Prod.mk.inj (Except.ok.inj hcall)
    obtain ⟨hp, hsame⟩ := dispatcherAarch64_calm hlink
    rw [not_or, Bool.not_eq_true] at hbypass
    have hresolved := hlooked.resolved.proceeds hp (hsame.trans hbypass.2)
    have h₂ := h₁.proceeds hp
    exact ⟨⟨h₂.ordered.returned fun _ => hresolved, h₂.stubs⟩, fun hne => absurd rfl hne⟩

end Blocks

section Runs

variable {isInstructionPositionIndependent : Thread T → Nat → Bool} {s s' : System T} {call : Call}

structure SoundInv (env : Env T) (s : System T) : Prop where
  sound : Sound env s.thread
  fresh : s.control ≠ .outside → Fresh s.thread

theorem Ended.soundInv {o : Outcome} (h : Ended env t o) : SoundInv env ⟨t, .ofOutcome o⟩ :=
  ⟨h.sound, fun hne => h.fresh fun hnone => hne (ofOutcome_outside hnone)⟩

theorem step_soundInv (hmeets : BuildMeets (DispatchMeets env) s call)
    (hstep : Step env (a64Calls env isInstructionPositionIndependent) s call s') (h : SoundInv env s) : SoundInv env s' := by
  cases hstep with
  | create _ hcall => exact (createTrace_ended h.sound hcall).soundInv
  | fragment hcall =>
      exact (traceDispatcher_ended h.sound (h.fresh Control.noConfusion) (hmeets.2 _ _ rfl rfl) hcall).soundInv
  | indirect htype hcall => exact (traceDispatcher_indirect h.sound htype hcall).soundInv
  | block hsource hcall => exact (dispatcher_ended h.sound hsource hcall).soundInv
  | unmap => exact ⟨h.sound.proceeds proceeds_flush, fun hne => absurd (hmeets.1 rfl) hne⟩

/-- In every run in which the scans for early exits do not flush the cache, a
trace that was begun before a flush is never entered in the hash table after it,
no stub leads to a translation from before a flush, and calls go on at addresses
that were looked up or scanned after the flush. -/
theorem trace_install_atomic
    (h : Reachable env (a64Calls env isInstructionPositionIndependent) (BuildMeets (DispatchMeets env)) s) :
    Ordered env s.thread ∧ StubsCurrent s.thread.events := by
  have hinv : SoundInv env s := by
    refine h.invariant ?_ fun _ _ _ hmeets hstep => step_soundInv hmeets hstep
    exact fun t => ⟨⟨ordered_flush trivial, trivial⟩, fun hne => absurd rfl hne⟩
  exact ⟨hinv.sound.ordered, hinv.sound.stubs⟩

/-- A block that branches to itself becomes a trace with one exit, after a flush. -/
theorem trace_install_atomic_loop :
    ∃ s, run branchEnv (a64Calls branchEnv allIndependent) (initial branchEnv zeroedThread)
        [.dispatch 0x10000 0, .unmap, .dispatch 0x10000 0, .dispatch 0x10000 10, .create 10, .dispatch 0x10000 55000] = some s ∧
      Ordered branchEnv s.thread ∧ StubsCurrent s.thread.events :=
  ⟨_, rfl, trace_install_atomic (run_reachable branchEnv (a64Calls branchEnv allIndependent) ⟨zeroedThread, .refl⟩
    [.dispatch 0x10000 0, .unmap, .dispatch 0x10000 0, .dispatch 0x10000 10, .create 10, .dispatch 0x10000 55000] (by decide) rfl)⟩

end Runs

section Full

/-- A guest with blocks of one instruction: an indirect branch at every address from
0x20000 on, and a direct one to the next address at those below. -/
def chainEnv : Env (Nat → Nat) :=
  { branchEnv with
    scanner := fun _ _ address _ writeP =>
      .ok ⟨if address < 0x20000 then .uncondImmA64 else .uncondBranchReg, writeP + 16, address + 4, 0, 0, 24, 0⟩ }

def filledEvents : Nat → List Event
  | 0 => [.flush]
  | n + 1 =>
    .returned (chainEnv.block (10 + n)) :: .scan (0x20000 + 4 * n) (chainEnv.block (10 + n)) (10 + n) :: filledEvents n

def filled (n : Nat) : Thread (Nat → Nat) where
  wasFlushed := n = 0
  freeBlock := 10 + n
  codeCacheMeta := fun i =>
    if 10 ≤ i ∧ i < 10 + n then
      ⟨0x20000 + 4 * (i - 10), chainEnv.block i, .uncondBranchReg, 0, chainEnv.block i + 16,
        0x20000 + 4 * (i - 10) + 4, 0, 0, 0, 0, []⟩
    else ⟨0, 0, .unknown, 0, 0, 0, 0, 0, 0, 0, []⟩
  entryAddress := fun a =>
    if 0x20000 ≤ a ∧ a < 0x20000 + 4 * n ∧ a % 4 = 0 then chainEnv.block (10 + (a - 0x20000) / 4) else uintMax
  traceCacheNext := chainEnv.traces
  traceId := codeCacheSize
  traceFragmentCount := 0
  activeTrace := ⟨codeCacheSize, 0, 0, 0, false, []⟩
  ccLinks := 0
  events := filledEvents n

theorem filled_zero : initial chainEnv zeroedThread = ⟨filled 0, .outside⟩ := by
  have hmeta : (initial chainEnv zeroedThread).thread.codeCacheMeta = (filled 0).codeCacheMeta := by
    funext i
    have hnot : ¬ (10 ≤ i ∧ i < 10 + 0) := by omega
    change (if i < codeCacheSize then _ else _) = if _ then _ else _
    rw [if_neg hnot]
    exact ite_self _
  have hentry : (initial chainEnv zeroedThread).thread.entryAddress = (filled 0).entryAddress := by
    funext a
    have hnot : ¬ (0x20000 ≤ a ∧ a < 0x20000 + 4 * 0 ∧ a % 4 = 0) := by omega
    exact (if_neg hnot).symm
  rw [initial, flushCodeCache]
  rw [initial, flushCodeCache] at hmeta hentry
  dsimp only at hmeta hentry ⊢
  rw [hmeta, hentry]
  rfl

theorem filled_meta (n : Nat) :
    Function.update (filled n).codeCacheMeta (10 + n) ⟨0x20000 + 4 * n, chainEnv.block (10 + n), .uncondBranchReg, 0,
      chainEnv.block (10 + n) + 16, 0x20000 + 4 * n + 4, 0, 0, 0, 0, []⟩ = (filled (n + 1)).codeCacheMeta := by
  funext i
  by_cases hi : i = 10 + n
  · subst hi
    rw [Function.update_self]
    refine ((if_pos (by omega)).trans ?_).symm
    rw [Nat.add_sub_cancel_left]
  · rw [Function.update_of_ne hi]
    refine if_congr ?_ rfl rfl
    omega

theorem filled_entry (n : Nat) :
    Function.update (filled n).entryAddress (0x20000 + 4 * n) (chainEnv.block (10 + n)) = (filled (n + 1)).entryAddress := by
  funext a
  by_cases ha : a = 0x20000 + 4 * n
  · subst ha
    rw [Function.update_self]
    refine ((if_pos (by omega)).trans ?_).symm
    rw [Nat.add_sub_cancel_left, Nat.mul_div_cancel_left n (by decide)]
  · rw [Function.update_of_ne ha]
    refine if_congr ?_ rfl rfl
    omega

theorem filled_lookup (n : Nat) (hn : n < 54478) :
    lookupOrScan chainEnv { filled n with wasFlushed := false } (0x20000 + 4 * n) =
      .ok ({ filled (n + 1) with
        wasFlushed := false
        events := .scan (0x20000 + 4 * n) (chainEnv.block (10 + n)) (10 + n) :: filledEvents n },
        chainEnv.block (10 + n)) := by
  have hmiss : chainEnv.hashLookup (filled n).entryAddress (0x20000 + 4 * n) = uintMax := by
    refine if_neg ?_
    omega
  have hroom : ¬ (filled n).freeBlock ≥ codeCacheSize - codeCacheOverp := by
    change ¬ 10 + n ≥ 55000 - 512
    omega
  have hold : (filled n).codeCacheMeta (10 + n) = ⟨0, 0, .unknown, 0, 0, 0, 0, 0, 0, 0, []⟩ := if_neg (by omega)
  have htype : (if 0x20000 + 4 * n < 0x20000 then BranchType.uncondImmA64 else .uncondBranchReg) = .uncondBranchReg :=
    if_neg (by omega)
  rw [lookupOrScan, if_neg (not_not.mpr hmiss), scan, allocateBb]
  dsimp only
  rw [if_neg hroom]
  change Except.ok (({ filled n with
    wasFlushed := false
    freeBlock := 10 + n + 1
    codeCacheMeta := Function.update (Function.update (filled n).codeCacheMeta (10 + n) _) (10 + n) _
    entryAddress := Function.update (filled n).entryAddress (0x20000 + 4 * n) (chainEnv.block (10 + n))
    events := .scan (0x20000 + 4 * n) (chainEnv.block (10 + n)) (10 + n) :: filledEvents n } : Thread (Nat → Nat)), _) = _
  have hfree : (filled n).freeBlock = 10 + n := rfl
  rw [Function.update_idem]
  simp only [Thread.setMeta, Thread.log, Thread.setEntryAddress, Thread.setFreeBlock, hfree, Function.update_self, hold,
    htype]
  rw [filled_meta n, filled_entry n]
  rfl

theorem filled_step (n : Nat) (hn : n < 54478) :
    Step chainEnv (a64Calls chainEnv allIndependent) ⟨filled n, .outside⟩
      (.dispatch (0x20000 + 4 * n) (if n = 0 then 0 else 9 + n)) ⟨filled (n + 1), .outside⟩ := by
  have hsource : (if n = 0 then 0 else 9 + n) < codeCacheSize := by
    rw [codeCacheSize]
    split_ifs <;> omega
  have hcall : dispatcher chainEnv (filled n) allIndependent (0x20000 + 4 * n) (if n = 0 then 0 else 9 + n) =
      .ok (filled (n + 1), ⟨chainEnv.block (10 + n), none⟩) := by
    rw [dispatcher, if_neg (Nat.not_le_of_lt hsource), filled_lookup n hn]
    by_cases hzero : n = 0
    · subst hzero
      rfl
    · rw [if_neg hzero]
      have htype : ((filled n).codeCacheMeta (9 + n)).exitBranchType = .uncondBranchReg := by
        rw [filled]
        dsimp only
        rw [if_pos (by omega)]
      rw [htype]
      have hne : ¬ (9 + n = 0 ∨ false = true) := by
        rintro (h | h)
        · omega
        · cases h
      exact (if_neg hne).trans rfl
  have hstep : (a64Calls chainEnv allIndependent).dispatcher (filled n) (0x20000 + 4 * n) (if n = 0 then 0 else 9 + n) =
      .ok (filled (n + 1), ⟨chainEnv.block (10 + n), none⟩) := hcall
  exact Step.block hsource hstep

theorem filled_reachable (n : Nat) (hn : n ≤ 54478) :
    Reachable chainEnv (a64Calls chainEnv allIndependent) (fun _ _ => True) ⟨filled n, .outside⟩ := by
  induction n with
  | zero => exact ⟨zeroedThread, filled_zero ▸ .refl⟩
  | succ n ih =>
      obtain ⟨t, hruns⟩ := ih (Nat.le_of_succ_le hn)
      exact ⟨t, hruns.tail ⟨_, trivial, filled_step n hn⟩⟩

/-- The last call entered a trace in the hash table after a flush. -/
def stale (s : System (Nat → Nat)) : Bool :=
  match s.thread.events with
  | .returned _ :: .commit _ _ :: older => decide (.flush ∈ sinceCreate older)
  | _ => false

theorem not_ordered_of_stale {s : System (Nat → Nat)} (h : stale s) : ¬ Ordered chainEnv s.thread := by
  intro hordered
  have hatomic := hordered.atomic
  rw [stale] at h
  split at h
  · rename_i older hevents
    rw [hevents] at hatomic
    exact hatomic.2.1.1 (of_decide_eq_true h)
  · cases h

/-- The cache is full when a trace reaches its last fragment: the block that follows
is scanned after a flush, and then the trace is installed. -/
theorem trace_install_stale :
    ∃ s, Reachable chainEnv (a64Calls chainEnv allIndependent) (fun _ _ => True) s ∧ ¬ Ordered chainEnv s.thread := by
  have hrun : (run chainEnv (a64Calls chainEnv allIndependent) ⟨filled 54477, .outside⟩
      (.dispatch 0x10000 54486 :: .create 54487 ::
        (List.range 21).map fun i => .dispatch (0x10004 + 4 * i) (55000 + i))).any stale = true := by
    set_option maxRecDepth 4000 in decide
  obtain ⟨s, hs, hstale⟩ := (Option.any_eq_true _ _).mp hrun
  refine ⟨s, ?_, not_ordered_of_stale hstale⟩
  exact run_reachable chainEnv (a64Calls chainEnv allIndependent) (filled_reachable 54477 (by decide)) _
    (by set_option maxRecDepth 4000 in decide) hs

end Full

end Mambo.A64TraceFlushes
