import Mambo.FragmentLookup
import Mambo.TraceLog

namespace Mambo.FragmentIds

open TraceState TraceLog TraceRuns FragmentLookup

variable {T : Type} {env : Env T} {t t' t'' : Thread T} {p q target addr id : Nat}

section Laid

def tpcOf (t : Thread T) (i : Nat) : Nat := (t.codeCacheMeta i).tpc

theorem Laid.congr (h : Laid env t p) (hid : t'.activeTrace.id = t.activeTrace.id)
    (htpc : ∀ i, IsFragment t i → tpcOf t' i = tpcOf t i) : Laid env t' p := by
  refine ⟨hid ▸ h.first, hid ▸ h.limit, ?_, fun hempty => h.empty (hid ▸ hempty), ?_, ?_⟩
  · intro hsome
    rw [hid] at hsome
    exact (htpc _ ⟨Nat.le_refl _, hsome⟩).trans (h.start hsome)
  · intro i hi hlt
    rw [hid] at hlt
    have heq : tpcOf t' i = tpcOf t i := htpc i ⟨hi, Nat.lt_of_succ_lt hlt⟩
    have heq' : tpcOf t' (i + 1) = tpcOf t (i + 1) := htpc _ ⟨Nat.le_succ_of_le hi, hlt⟩
    exact heq.trans_le ((h.ordered i hi hlt).trans_eq heq'.symm)
  · intro i hi
    have hi' : IsFragment t i := ⟨hi.1, hid ▸ hi.2⟩
    exact (htpc i hi').trans_le (h.behind i hi')

theorem Laid.advance (h : Laid env t p) (hsome : codeCacheSize < t.activeTrace.id) (hle : p ≤ q) : Laid env t q :=
  ⟨h.first, h.limit, h.start, fun hempty => absurd hempty (Nat.ne_of_gt hsome), h.ordered,
    fun i hi => Nat.le_trans (h.behind i hi) hle⟩

theorem Laid.allocate (h : Laid env t p) (hle : p ≤ q) (hempty : t.activeTrace.id = codeCacheSize → q = env.traces)
    (hlimit : t.activeTrace.id < metaSize) (hid : t'.activeTrace.id = t.activeTrace.id + 1)
    (hnew : tpcOf t' t.activeTrace.id = q) (hold : ∀ i, IsFragment t i → tpcOf t' i = tpcOf t i) : Laid env t' q := by
  refine ⟨?_, ?_, ?_, ?_, ?_, ?_⟩
  · rw [hid]
    exact Nat.le_succ_of_le h.first
  · rw [hid]
    exact hlimit
  · intro _
    rcases Nat.eq_or_lt_of_le h.first with heq | hlt
    · rw [heq]
      exact hnew.trans (hempty heq.symm)
    · exact (hold _ ⟨Nat.le_refl _, hlt⟩).trans (h.start hlt)
  · intro heq
    have := h.first
    omega
  · intro i hi hlt
    have hnext : i < t.activeTrace.id := by omega
    have heq : tpcOf t' i = tpcOf t i := hold i ⟨hi, hnext⟩
    rcases Nat.eq_or_lt_of_le (Nat.succ_le_of_lt hnext) with hlast | hmore
    · have heq' : tpcOf t' (i + 1) = q := by
        rw [← hnew, ← hlast]
      exact heq.trans_le ((Nat.le_trans (h.behind i ⟨hi, hnext⟩) hle).trans_eq heq'.symm)
    · have heq' : tpcOf t' (i + 1) = tpcOf t (i + 1) := hold _ ⟨Nat.le_succ_of_le hi, hmore⟩
      exact heq.trans_le ((h.ordered i hi hmore).trans_eq heq'.symm)
  · rintro i ⟨hi, hlt⟩
    rw [hid] at hlt
    rcases Nat.eq_or_lt_of_le (Nat.le_of_lt_succ hlt) with rfl | hold'
    · exact Nat.le_of_eq hnew
    · have heq : tpcOf t' i = tpcOf t i := hold i ⟨hi, hold'⟩
      exact heq.trans_le (Nat.le_trans (h.behind i ⟨hi, hold'⟩) hle)

theorem laid_empty (h : t.activeTrace.id = codeCacheSize) : Laid env t env.traces := by
  refine ⟨Nat.le_of_eq h.symm, ?_, ?_, fun _ => rfl, ?_, ?_⟩
  · rw [h]
    exact Nat.le_add_right _ _
  · intro hsome
    exact absurd h (Nat.ne_of_gt hsome)
  · intro i hi hlt
    omega
  · rintro i ⟨hi, hlt⟩
    omega

end Laid

section Parts

/-- A part of a call that leaves the fragments of traces and where the next one
is written. -/
structure Still (t t' : Thread T) : Prop where
  flushed : t'.wasFlushed = t.wasFlushed
  id : t'.activeTrace.id = t.activeTrace.id
  writeP : t'.activeTrace.writeP = t.activeTrace.writeP
  traceId : t'.traceId = t.traceId
  next : t'.traceCacheNext = t.traceCacheNext
  tpc : ∀ i, codeCacheSize ≤ i → tpcOf t' i = tpcOf t i

theorem Still.refl : Still t t := ⟨rfl, rfl, rfl, rfl, rfl, fun _ _ => rfl⟩

theorem Still.trans (h : Still t t') (h' : Still t' t'') : Still t t'' :=
  ⟨h'.flushed.trans h.flushed, h'.id.trans h.id, h'.writeP.trans h.writeP, h'.traceId.trans h.traceId,
    h'.next.trans h.next, fun i hi => (h'.tpc i hi).trans (h.tpc i hi)⟩

theorem tpc_setMeta_self (i : Nat) (f : CodeCacheMeta → CodeCacheMeta) :
    tpcOf (t.setMeta i f) i = (f (t.codeCacheMeta i)).tpc := by
  have heq : (t.setMeta i f).codeCacheMeta i = f (t.codeCacheMeta i) := Function.update_self ..
  rw [tpcOf, heq]

theorem tpc_setMeta_of_ne {i j : Nat} (f : CodeCacheMeta → CodeCacheMeta) (h : j ≠ i) :
    tpcOf (t.setMeta i f) j = tpcOf t j := by
  have heq : (t.setMeta i f).codeCacheMeta j = t.codeCacheMeta j := Function.update_of_ne h ..
  rw [tpcOf, heq, tpcOf]

theorem still_setMeta (i : Nat) (f : CodeCacheMeta → CodeCacheMeta)
    (h : i < codeCacheSize ∨ (f (t.codeCacheMeta i)).tpc = (t.codeCacheMeta i).tpc) : Still t (t.setMeta i f) := by
  refine ⟨rfl, rfl, rfl, rfl, rfl, ?_⟩
  intro j hj
  by_cases hji : j = i
  · subst hji
    exact (tpc_setMeta_self j f).trans (h.resolve_left (Nat.not_lt_of_le hj))
  · exact tpc_setMeta_of_ne f hji

theorem still_setFreeBlock (n : Nat) : Still t (t.setFreeBlock n) := ⟨rfl, rfl, rfl, rfl, rfl, fun _ _ => rfl⟩

theorem still_setCcLinks (n : Nat) : Still t (t.setCcLinks n) := ⟨rfl, rfl, rfl, rfl, rfl, fun _ _ => rfl⟩

theorem still_log (e : Event) : Still t (t.log e) := ⟨rfl, rfl, rfl, rfl, rfl, fun _ _ => rfl⟩

theorem Laid.still (h : Laid env t p) (hstill : Still t t') : Laid env t' p :=
  Laid.congr h hstill.id fun i hi => hstill.tpc i hi.1

theorem allocateOverflows_still {n : Nat} (h : allocateOverflows id n t = .ok t') : Still t t' := by
  induction n generalizing t with
  | zero =>
      obtain rfl := Except.ok.inj h
      exact Still.refl
  | succ n ih =>
      rw [allocateOverflows] at h
      split_ifs at h
      have hmeta := still_setMeta (t := t) t.freeBlock (fun m => { m with actualId := id }) (Or.inr rfl)
      exact (hmeta.trans (still_setFreeBlock _)).trans (ih h)

theorem scanCode_still {type : CcType} {address writeP size : Nat}
    (h : scanCode env t type address id writeP = .ok (t', size)) : Still t t' := by
  obtain ⟨s, -, h⟩ := bind_ok h
  obtain ⟨t₁, hover, h⟩ := bind_ok h
  obtain ⟨rfl, -⟩ := Prod.mk.inj (Except.ok.inj h)
  exact (allocateOverflows_still hover).trans (still_setMeta _ _ (Or.inr rfl))

theorem recordCcLink_still {a b : Nat} (h : recordCcLink env t a b = .ok t') : Still t t' := by
  rw [recordCcLink] at h
  split at h
  · obtain rfl := Except.ok.inj h
    exact Still.refl
  · split_ifs at h
    obtain rfl := Except.ok.inj h
    exact (still_setMeta _ _ (Or.inr rfl)).trans (still_setCcLinks _)

theorem traceRecordExit_still {e : TraceExit} (h : traceRecordExit t e = .ok t') : Still t t' := by
  obtain ⟨-, rfl⟩ := traceRecordExit_ok h
  exact ⟨rfl, rfl, rfl, rfl, rfl, fun _ _ => rfl⟩

structure Emptied (env : Env T) (t : Thread T) : Prop where
  id : t.activeTrace.id = codeCacheSize
  traceId : t.traceId = codeCacheSize
  next : t.traceCacheNext = env.traces

theorem Emptied.still (h : Emptied env t) (hstill : Still t t') : Emptied env t' :=
  ⟨hstill.id.trans h.id, hstill.traceId.trans h.traceId, hstill.next.trans h.next⟩

/-- A part that leaves the fragments of traces or flushes the cache. -/
def Quiet (env : Env T) (t t' : Thread T) : Prop := Still t t' ∨ t'.wasFlushed = true ∧ Emptied env t'

theorem Quiet.trans (h : Quiet env t t') (h' : Quiet env t' t'') : Quiet env t t'' := by
  rcases h' with hstill | hflushed
  · rcases h with hfirst | ⟨hf, hempty⟩
    · exact Or.inl (hfirst.trans hstill)
    · exact Or.inr ⟨hstill.flushed.trans hf, hempty.still hstill⟩
  · exact Or.inr hflushed

theorem allocateBb_quiet (hblocks : env.trampolinesSizeBbs < codeCacheSize) :
    Quiet env t (allocateBb env t).1 ∧ (allocateBb env t).2 < codeCacheSize := by
  rw [allocateBb]
  by_cases hfull : t.freeBlock ≥ codeCacheSize - codeCacheOverp
  · rw [if_pos hfull]
    exact ⟨Or.inr ⟨rfl, rfl, rfl, rfl⟩, hblocks⟩
  · rw [if_neg hfull]
    exact ⟨Or.inl ⟨rfl, rfl, rfl, rfl, rfl, fun _ _ => rfl⟩, by dsimp only; omega⟩

theorem entered_still (h : id < codeCacheSize) (table : T) : Still t (entered env t target id table) := by
  have hmeta := still_setMeta (t := t) id (fun m => { m with sourceAddr := target, tpc := env.block id }) (Or.inl h)
  exact hmeta.trans ⟨rfl, rfl, rfl, rfl, rfl, fun _ _ => rfl⟩

theorem stubBlock_lt (h : stubBlock env t addr = some id) : id < codeCacheSize := by
  rw [stubBlock] at h
  split_ifs at h with htrace
  obtain ⟨hid, -⟩ := Option.filter_eq_some_iff.mp h
  rw [addrToBbId] at hid
  split_ifs at hid with hrange
  obtain rfl := Option.some.inj hid
  have hlt : addr < env.traces := by
    by_contra hge
    refine htrace (decide_eq_true ⟨Nat.le_of_not_lt hge, ?_⟩)
    have hle : addr ≤ env.traces := by omega
    rw [Env.traces, codeCacheSize, blockBytes] at hle
    rw [maxBranchRange]
    omega
  rw [Nat.div_lt_iff_lt_mul (by decide)]
  rw [Env.traces] at hlt
  omega

theorem lookupOrScan_quiet (hblocks : env.trampolinesSizeBbs < codeCacheSize)
    (h : lookupOrScan env t target = .ok (t', addr)) : Quiet env t t' := by
  rw [lookupOrScan] at h
  by_cases hmiss : env.hashLookup t.entryAddress target ≠ uintMax
  · rw [if_pos hmiss] at h
    cases hstub : stubBlock env t (env.hashLookup t.entryAddress target) with
    | none =>
        rw [hstub] at h
        obtain ⟨rfl, -⟩ := Prod.mk.inj (Except.ok.inj h)
        exact Or.inl (still_log _)
    | some id =>
        rw [hstub] at h
        obtain ⟨⟨t₁, size⟩, hscan, h⟩ := bind_ok h
        obtain ⟨rfl, -⟩ := Prod.mk.inj (Except.ok.inj h)
        exact Or.inl ((entered_still (stubBlock_lt hstub) _).trans (scanCode_still hscan))
  · rw [if_neg hmiss, scan] at h
    dsimp only at h
    split_ifs at h
    obtain ⟨⟨t₁, size⟩, hscan, h⟩ := bind_ok h
    obtain ⟨rfl, -⟩ := Prod.mk.inj (Except.ok.inj h)
    obtain ⟨hquiet, hid⟩ := allocateBb_quiet (t := t) hblocks
    exact hquiet.trans (Or.inl ((entered_still hid _).trans (scanCode_still hscan)))

theorem activeTraceLookupOrScan_quiet (hblocks : env.trampolinesSizeBbs < codeCacheSize)
    (h : activeTraceLookupOrScan env t target = .ok (t', addr)) : Quiet env t t' := by
  rw [activeTraceLookupOrScan] at h
  split_ifs at h
  · obtain ⟨rfl, -⟩ := Prod.mk.inj (Except.ok.inj h)
    exact Or.inl Still.refl
  · exact lookupOrScan_quiet hblocks h

theorem allocateTraceFragment_ok (h : allocateTraceFragment t = .ok (t', id)) :
    t.activeTrace.id < metaSize ∧ id = t.activeTrace.id ∧ t' = t.setActive fun a => { a with id := a.id + 1 } := by
  rw [allocateTraceFragment] at h
  split_ifs at h with hlt
  obtain ⟨rfl, rfl⟩ := Prod.mk.inj (Except.ok.inj h)
  exact ⟨hlt, rfl, rfl⟩

end Parts

section Invariant

structure Outside (env : Env T) (t : Thread T) : Prop where
  id : t.activeTrace.id = t.traceId
  laid : Laid env t t.traceCacheNext

/-- A trace under construction whose code ends before an address. -/
structure Building (env : Env T) (t : Thread T) (p : Nat) : Prop where
  some : codeCacheSize < t.activeTrace.id
  laid : Laid env t p

structure During (env : Env T) (t : Thread T) (p : Nat) : Prop where
  building : t.wasFlushed = false → Building env t p
  emptied : t.wasFlushed = true → Emptied env t

theorem Emptied.outside (h : Emptied env t) : Outside env t := by
  refine ⟨h.id.trans h.traceId.symm, ?_⟩
  rw [h.next]
  exact laid_empty h.id

theorem Outside.quiet (h : Outside env t) (hquiet : Quiet env t t') : Outside env t' := by
  rcases hquiet with hstill | ⟨-, hempty⟩
  · refine ⟨hstill.id.trans (h.id.trans hstill.traceId.symm), ?_⟩
    rw [hstill.next]
    exact Laid.still h.laid hstill
  · exact hempty.outside

theorem Building.still (h : Building env t p) (hstill : Still t t') : Building env t' p :=
  ⟨hstill.id ▸ h.some, Laid.still h.laid hstill⟩

theorem Building.advance (h : Building env t p) (hle : p ≤ q) : Building env t q := ⟨h.some, Laid.advance h.laid h.some hle⟩

theorem Building.setWriteP (h : Building env t p) (n : Nat) : Building env (t.setWriteP n) p :=
  ⟨h.some, Laid.congr h.laid rfl fun _ _ => rfl⟩

theorem During.quiet (h : During env t p) (hquiet : Quiet env t t') : During env t' p := by
  rcases hquiet with hstill | ⟨hf, hempty⟩
  · exact ⟨fun hf => (h.building (hstill.flushed ▸ hf)).still hstill, fun hf => (h.emptied (hstill.flushed ▸ hf)).still hstill⟩
  · exact ⟨fun hf' => absurd (hf.symm.trans hf') (by decide), fun _ => hempty⟩

theorem During.still (h : During env t p) (hstill : Still t t') : During env t' p := h.quiet (Or.inl hstill)

theorem During.setWriteP (h : During env t p) (n : Nat) : During env (t.setWriteP n) p :=
  ⟨fun hf => (h.building hf).setWriteP n, fun hf => ⟨(h.emptied hf).id, (h.emptied hf).traceId, (h.emptied hf).next⟩⟩

/-- A call for the last fragment of a trace under construction goes on with the
trace. -/
structure Awaits (env : Env T) (indirect : BranchType) (t : Thread T) (f : Nat) : Prop where
  direct : (t.codeCacheMeta f).exitBranchType ≠ indirect
  building : Building env t (t.codeCacheMeta f).exitBranchAddr

structure Left (env : Env T) (indirect : BranchType) (t : Thread T) (o : Outcome) : Prop where
  outside : o.fragment = none → Outside env t
  building : ∀ f, o.fragment = some f → Awaits env indirect t f

variable {indirect : BranchType}

theorem Outside.leave (h : Outside env t) (addr : Nat) : Left env indirect (leave t addr).1 (leave t addr).2 :=
  ⟨fun _ => h.quiet (Or.inl (still_log _)), fun _ hf => nomatch hf⟩

theorem Awaits.stay {f : Nat} (h : Awaits env indirect t f) (addr : Nat) :
    Left env indirect (stay t addr f).1 (stay t addr f).2 := by
  refine ⟨fun hf => absurd hf (Option.some_ne_none f), ?_⟩
  intro f' hf
  obtain rfl := Option.some.inj hf
  exact ⟨h.direct, h.building.still (still_log _)⟩

theorem resolve_left {o : Outcome} (hblocks : env.trampolinesSizeBbs < codeCacheSize) (h : Outside env t)
    (hresolve : resolve env t target = .ok (t', o)) : Left env indirect t' o := by
  obtain ⟨⟨t₁, addr⟩, hlookup, hresolve⟩ := bind_ok hresolve
  obtain ⟨rfl, rfl⟩ := Prod.mk.inj (Except.ok.inj hresolve)
  exact (h.quiet (lookupOrScan_quiet hblocks hlookup)).leave addr

structure IdsInv (env : Env T) (indirect : BranchType) (s : System T) : Prop where
  outside : s.control = .outside → Outside env s.thread
  building : ∀ f, s.control = .building f → Awaits env indirect s.thread f

theorem Left.inv {o : Outcome} (h : Left env indirect t o) : IdsInv env indirect ⟨t, .ofOutcome o⟩ := by
  obtain ⟨nextAddr, fragment⟩ := o
  cases fragment with
  | none => exact ⟨fun _ => h.outside rfl, fun _ hf => nomatch hf⟩
  | some f =>
      refine ⟨fun hf => absurd hf Control.noConfusion, ?_⟩
      intro f' hf
      obtain rfl := Control.building.inj hf
      exact h.building f rfl

theorem emptied_flush : Emptied env (flushCodeCache env t) := ⟨rfl, rfl, rfl⟩

/-- The exit of every fragment of a trace is set by its scan, to an address behind
its start. -/
def ScansAhead (env : Env T) : Prop :=
  ∀ t type address id writeP s, type ≠ .bb → env.scanner t type address id writeP = .ok s → writeP ≤ s.exitBranchAddr

theorem scanCode_ahead {type : CcType} {address writeP size : Nat} (hscanner : ScansAhead env) (htype : type ≠ .bb)
    (h : scanCode env t type address id writeP = .ok (t', size)) : writeP ≤ (t'.codeCacheMeta id).exitBranchAddr := by
  obtain ⟨s, hscan, h⟩ := bind_ok h
  obtain ⟨t₁, -, h⟩ := bind_ok h
  obtain ⟨rfl, -⟩ := Prod.mk.inj (Except.ok.inj h)
  simpa only [Thread.setMeta, Function.update_self] using hscanner _ _ _ _ _ _ htype hscan

/-- The scan of a fragment gives the next id to the code at the write pointer. -/
structure Scanned (env : Env T) (t t' : Thread T) (id : Nat) : Prop where
  fresh : id = t.activeTrace.id
  building : ∀ p, Laid env t p → p ≤ t.activeTrace.writeP →
    (t.activeTrace.id = codeCacheSize → t.activeTrace.writeP = env.traces) → Building env t' t.activeTrace.writeP
  old : ∀ i, IsFragment t i → tpcOf t' i = tpcOf t i
  exit : t.activeTrace.writeP ≤ (t'.codeCacheMeta id).exitBranchAddr
  flushed : t'.wasFlushed = t.wasFlushed
  writeP : t'.activeTrace.writeP = t.activeTrace.writeP

theorem Scanned.count (h : Scanned env t t' id) :
    Scanned env t { t' with traceFragmentCount := t'.traceFragmentCount + 1 } id :=
  ⟨h.fresh, fun p hlaid hle hempty => (h.building p hlaid hle hempty).still ⟨rfl, rfl, rfl, rfl, rfl, fun _ _ => rfl⟩,
    h.old, h.exit, h.flushed, h.writeP⟩

theorem scanned_of_scanCode {t₁ t₂ : Thread T} {type : CcType} {address size : Nat} (hscanner : ScansAhead env)
    (htype : type ≠ .bb) (halloc : allocateTraceFragment t = .ok (t₁, id))
    (hscan : scanCode env (t₁.setMeta id fun m =>
      { m with sourceAddr := address, tpc := t.activeTrace.writeP, branchCacheStatus := 0 }) type address id
      t.activeTrace.writeP = .ok (t₂, size)) : Scanned env t t₂ id := by
  obtain ⟨hlimit, rfl, rfl⟩ := allocateTraceFragment_ok halloc
  have hstill := scanCode_still hscan
  have hnew : codeCacheSize ≤ t.activeTrace.id → tpcOf t₂ t.activeTrace.id = t.activeTrace.writeP := by
    intro hfirst
    rw [hstill.tpc _ hfirst]
    exact tpc_setMeta_self _ _
  have hold : ∀ i, IsFragment t i → tpcOf t₂ i = tpcOf t i := by
    intro i hi
    rw [hstill.tpc i hi.1]
    exact tpc_setMeta_of_ne _ (Nat.ne_of_lt hi.2)
  refine ⟨rfl, ?_, hold, scanCode_ahead hscanner htype hscan, hstill.flushed, hstill.writeP⟩
  intro p hlaid hle hempty
  have hid : t₂.activeTrace.id = t.activeTrace.id + 1 := hstill.id
  refine ⟨?_, Laid.allocate hlaid hle hempty hlimit hid (hnew hlaid.first) hold⟩
  rw [hid]
  exact Nat.lt_succ_of_le hlaid.first

theorem alignTrace_le (p : Nat) : p ≤ alignTrace p := Nat.le_add_right _ _

theorem alignTrace_traces (hcache : env.codeCache % traceAlign = 0) : alignTrace env.traces = env.traces := by
  have haligned : env.traces % traceAlign = 0 := by
    rw [traceAlign] at hcache ⊢
    rw [Env.traces, codeCacheSize, blockBytes]
    omega
  rw [alignTrace, haligned]
  rfl

end Invariant

end Mambo.FragmentIds
