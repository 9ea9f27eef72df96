import Mambo.TraceLog
import Mambo.RvTraceRuns

namespace Mambo.RvTraceLimits

open TraceState TraceLog RvTraces RvTraceRuns

variable {T : Type} {env : Env T} {t t' t₁ r u : Thread T} {address target addr id len : Nat} {type : CcType}

section Limit

def emitted (t : Thread T) : Int := (t.activeTrace.writeP : Int) - t.activeTrace.entryAddr

/-- With the room for the exits, the bytes of the trace reach the limit. -/
def Full (t : Thread T) : Prop :=
  emitted t + ((t.traceFragmentCount + 1) * traceExit : Nat) ≥ (wholeTrace - tracePadding : Nat)

/-- The two sums are cut to a byte, which makes another limit of the one meant. -/
def Misjudged (t : Thread T) : Prop :=
  emitted t + ((t.traceFragmentCount + 1) * traceExit % 256 : Nat) ≥ 184 ∧
      emitted t + ((t.traceFragmentCount + 1) * traceExit : Nat) < 3000 ∨
    emitted t + ((t.traceFragmentCount + 1) * traceExit % 256 : Nat) < 184 ∧
      emitted t + ((t.traceFragmentCount + 1) * traceExit : Nat) ≥ 3000

/-- A scan that returns 0 without counting its fragment. -/
def Rejected (t t' : Thread T) (len : Nat) : Prop := len = 0 ∧ t'.traceFragmentCount = t.traceFragmentCount

theorem scanTrace_test (h : scanTrace env t address type = .ok (t', id, len)) :
    ∃ t₁ size, t₁.activeTrace.entryAddr = t.activeTrace.entryAddr ∧ t₁.traceFragmentCount = t.traceFragmentCount ∧
      if emitted t + ((t.traceFragmentCount + 1) * traceExit % 256 : Nat) ≥ ((wholeTrace - tracePadding) % 256 : Nat)
      then t' = t₁ ∧ len = 0
      else t' = { t₁ with traceFragmentCount := t₁.traceFragmentCount + 1 } ∧ len = size := by
  obtain ⟨⟨t₀, traceId⟩, halloc, hrest⟩ := bind_ok h
  obtain ⟨⟨t₁, size⟩, hscan, htest⟩ := bind_ok hrest
  clear h hrest
  obtain ⟨hactive, hcount⟩ := (scanCode_framed hscan).sameTrace
  rw [allocateTraceFragment] at halloc
  split_ifs at halloc
  obtain ⟨rfl, rfl⟩ := Prod.mk.inj (Except.ok.inj halloc)
  have hentry : t₁.activeTrace.entryAddr = t.activeTrace.entryAddr := by
    rw [hactive]
    rfl
  have hcount : t₁.traceFragmentCount = t.traceFragmentCount := hcount
  refine ⟨t₁, size, hentry, hcount, ?_⟩
  dsimp only at htest
  rw [hentry, hcount] at htest
  rw [emitted]
  split_ifs at htest ⊢
  · obtain ⟨rfl, hparts⟩ := Prod.mk.inj (Except.ok.inj htest)
    exact ⟨rfl, (Prod.mk.inj hparts).2.symm⟩
  · obtain ⟨rfl, hparts⟩ := Prod.mk.inj (Except.ok.inj htest)
    exact ⟨by rw [hcount], (Prod.mk.inj hparts).2.symm⟩

theorem scanTrace_rejected_iff (h : scanTrace env t address type = .ok (t', id, len)) :
    (Rejected t t' len ↔ Full t) ↔ ¬ Misjudged t := by
  obtain ⟨t₁, size, -, hcount, htest⟩ := scanTrace_test h
  have hlimit : (wholeTrace - tracePadding) % 256 = 184 := rfl
  have hwhole : wholeTrace - tracePadding = 3000 := rfl
  rw [Full, Misjudged, Rejected, hwhole]
  rw [hlimit] at htest
  split_ifs at htest with hreached
  · obtain ⟨rfl, rfl⟩ := htest
    constructor
    · intro hiff
      have hfull := hiff.mp ⟨rfl, hcount⟩
      omega
    · intro hno
      exact iff_of_true ⟨rfl, hcount⟩ (by omega)
  · obtain ⟨rfl, rfl⟩ := htest
    have hcounted : ¬ (len = 0 ∧ t₁.traceFragmentCount + 1 = t.traceFragmentCount) := by omega
    constructor
    · intro hiff
      have hnot := hiff.not.mp hcounted
      omega
    · intro hno
      exact iff_of_false hcounted (by omega)

end Limit

section Rollback

/-- What the dispatcher restores of the trace when it gives up a fragment. -/
def rolledBack (t t₁ : Thread T) : Thread T :=
  t₁.setActive fun a =>
    { a with writeP := t.activeTrace.writeP, id := t.activeTrace.id, exits := t.activeTrace.exits }

/-- The dispatcher gives up the fragment that it has scanned, for the limit or for its
stubs: the thread that it restores, and the thread in which it emits the early exit. -/
inductive Abandons (env : Env T) (t : Thread T) (target : Nat) : Thread T → Thread T → Nat → Prop
  | known {t₁ : Thread T} {id : Nat} (hscan : scanTrace env t target .trace = .ok (t₁, id, 0))
      (hf : t₁.wasFlushed = false)
      (htrace : activeTraceLookup env (rolledBack t t₁) target ≠ uintMax) :
      Abandons env t target (rolledBack t t₁) (rolledBack t t₁) (activeTraceLookup env (rolledBack t t₁) target)
  | limit {t₁ u₁ u : Thread T} {id addr : Nat} (hscan : scanTrace env t target .trace = .ok (t₁, id, 0))
      (hf : t₁.wasFlushed = false)
      (htrace : activeTraceLookup env (rolledBack t t₁) target = uintMax)
      (hlookup : activeTraceLookupOrScan env (rolledBack t t₁) target = .ok (u₁, addr))
      (hrecord : recordCcLink env u₁ t.activeTrace.writeP addr = .ok u) : Abandons env t target (rolledBack t t₁) u addr
  | stubs {t₁ u : Thread T} {id len addr : Nat} (hscan : scanTrace env t target .trace = .ok (t₁, id, len))
      (hf : t₁.wasFlushed = false)
      (hlen : len ≠ 0)
      (hfit : traceExitStubsFit t₁.activeTrace.exits (t₁.activeTrace.writeP + 2 * len) = false)
      (hlookup : activeTraceLookupOrScan env (rolledBack t t₁) target = .ok (u, addr)) :
      Abandons env t target (rolledBack t t₁) u addr

def Restored (t u : Thread T) : Prop :=
  u.activeTrace.id = t.activeTrace.id ∧ u.activeTrace.writeP = t.activeTrace.writeP ∧
    u.activeTrace.exits = t.activeTrace.exits

theorem lookup_activeTrace (h : activeTraceLookupOrScan env t target = .ok (t', addr)) :
    t'.activeTrace = if WouldFlush env t target then { t.activeTrace with id := codeCacheSize } else t.activeTrace := by
  rw [activeTraceLookupOrScan] at h
  by_cases hspc : target = getActiveTraceSpc t
  · rw [if_pos hspc] at h
    obtain ⟨rfl, -⟩ := Prod.mk.inj (Except.ok.inj h)
    rw [if_neg fun hflush => hflush.1 hspc]
  rw [if_neg hspc] at h
  by_cases hmiss : env.hashLookup t.entryAddress target = uintMax
  · rw [lookupOrScan, if_neg (not_not.mpr hmiss), scan] at h
    dsimp only at h
    split_ifs at h
    obtain ⟨⟨t₁, size⟩, hscan, h⟩ := bind_ok h
    obtain ⟨rfl, -⟩ := Prod.mk.inj (Except.ok.inj h)
    rw [(scanCode_framed hscan).rest]
    show (allocateBb env t).1.activeTrace = _
    rw [allocateBb]
    by_cases hfull : t.freeBlock ≥ codeCacheSize - codeCacheOverp
    · rw [if_pos hfull, if_pos ⟨hspc, hmiss, hfull⟩]
      rfl
    · rw [if_neg hfull, if_neg fun hflush => hfull hflush.2.2]
      rfl
  · rw [if_neg fun hflush => hmiss hflush.2.1]
    cases lookupOrScan_looked h with
    | found => rfl
    | stub id _ hframed =>
        rw [hframed.rest]
        rfl
    | scanned table hno => exact absurd hno hmiss

theorem restored_iff (h : activeTraceLookupOrScan env r target = .ok (u, addr)) (hr : Restored t r) :
    Restored t u ↔ ¬ WouldFlush env r target ∨ t.activeTrace.id = codeCacheSize := by
  obtain ⟨hid, hwrite, hexits⟩ := hr
  have htrace := lookup_activeTrace h
  by_cases hflush : WouldFlush env r target
  · rw [if_pos hflush] at htrace
    rw [Restored, htrace]
    simp [hflush, hwrite, hexits, eq_comm]
  · rw [if_neg hflush] at htrace
    rw [Restored, htrace]
    simp [hflush, hid, hwrite, hexits]

theorem abandons_restored_iff (h : Abandons env t target r u addr) :
    Restored t u ↔ ¬ WouldFlush env r target ∨ t.activeTrace.id = codeCacheSize := by
  cases h with
  | known _ _ htrace =>
      refine iff_of_true ⟨rfl, rfl, rfl⟩ (Or.inl fun ⟨hspc, hmiss, _⟩ => htrace ?_)
      rw [activeTraceLookup, if_neg hspc]
      dsimp only
      rw [hmiss]
      split_ifs <;> rfl
  | limit _ _ _ hlookup hrecord =>
      have hiff := restored_iff hlookup (⟨rfl, rfl, rfl⟩ : Restored t (rolledBack t _))
      rwa [Restored, ← (recordCcLink_same hrecord).2] at hiff
  | stubs _ _ _ _ hlookup => exact restored_iff hlookup ⟨rfl, rfl, rfl⟩

/-- The size limit of a trace, and what is restored of it where a fragment is given
up: the test is the one meant unless the cut to bytes misjudges, and a flush in the
lookup before the early exit resets the id. -/
theorem trace_limit_iff :
    (∀ (env : Env T) (t t' : Thread T) (address : Nat) (type : CcType) (id len : Nat),
      scanTrace env t address type = .ok (t', id, len) → ((Rejected t t' len ↔ Full t) ↔ ¬ Misjudged t)) ∧
    ∀ (env : Env T) (t r u : Thread T) (target addr : Nat), Abandons env t target r u addr →
      (Restored t u ↔ ¬ WouldFlush env r target ∨ t.activeTrace.id = codeCacheSize) :=
  ⟨fun _ _ _ _ _ _ _ h => scanTrace_rejected_iff h, fun _ _ _ _ _ _ h => abandons_restored_iff h⟩

def oneFragment (n : Nat) : Thread (List (Nat × Nat)) :=
  { TraceRuns.zeroed with
    traceFragmentCount := 1
    activeTrace := ⟨codeCacheSize + 1, 10, loopEnv.traces + n, loopEnv.traces, true, []⟩ }

theorem loopEnv_unknown {t : Thread (List (Nat × Nat))} (htable : t.entryAddress = [])
    (hspc : target ≠ getActiveTraceSpc t) : activeTraceLookup loopEnv t target = uintMax := by
  have hmiss : loopEnv.hashLookup t.entryAddress target = uintMax := by
    rw [htable]
    rfl
  rw [activeTraceLookup, if_neg hspc]
  dsimp only
  rw [hmiss]
  split_ifs <;> rfl

theorem recordCcLink_room (env : Env T) (linkedFrom addr : Nat) (h : t.ccLinks < maxCcLinks) :
    ∃ t', recordCcLink env t linkedFrom addr = .ok t' := by
  rw [recordCcLink]
  split
  · exact ⟨_, rfl⟩
  · exact ⟨_, if_pos h⟩

/-- After 100 bytes another fragment is accepted; after 200 it is given up, and the trace
is as before. -/
theorem trace_limit_iff_fragment :
    (∃ t' id len, scanTrace loopEnv (oneFragment 100) 0x10000 .trace = .ok (t', id, len) ∧
      (Rejected (oneFragment 100) t' len ↔ Full (oneFragment 100))) ∧
    ∃ r u addr, Abandons loopEnv (oneFragment 200) 0x10000 r u addr ∧ Restored (oneFragment 200) u := by
  obtain ⟨hlimit, hrestored⟩ := @trace_limit_iff (List (Nat × Nat))
  constructor
  · obtain ⟨⟨t', id, len⟩, hscan⟩ : ∃ r, scanTrace loopEnv (oneFragment 100) 0x10000 .trace = .ok r := ⟨_, rfl⟩
    refine ⟨t', id, len, hscan, (hlimit _ _ _ _ _ _ _ hscan).mpr ?_⟩
    rw [Misjudged]
    decide
  · obtain ⟨t₁, id, ⟨u₁, addr⟩, hscan, hf, htable, hspc, hlookup, hlinks, hfree⟩ : ∃ t₁ id a,
        scanTrace loopEnv (oneFragment 200) 0x10000 .trace = .ok (t₁, id, 0) ∧ t₁.wasFlushed = false ∧
        t₁.entryAddress = [] ∧ 0x10000 ≠ getActiveTraceSpc (rolledBack (oneFragment 200) t₁) ∧
        activeTraceLookupOrScan loopEnv (rolledBack (oneFragment 200) t₁) 0x10000 = .ok a ∧ a.1.ccLinks = 0 ∧
        t₁.freeBlock = 0 := ⟨_, _, _, rfl, rfl, rfl, by decide, rfl, rfl, rfl⟩
    obtain ⟨u, hrecord⟩ := recordCcLink_room loopEnv (oneFragment 200).activeTrace.writeP addr
      (show u₁.ccLinks < maxCcLinks by rw [show u₁.ccLinks = 0 from hlinks]; decide)
    have habandons : Abandons loopEnv (oneFragment 200) 0x10000 _ u addr :=
      .limit hscan hf (loopEnv_unknown htable hspc) hlookup hrecord
    refine ⟨_, u, addr, habandons, (hrestored _ _ _ _ _ _ habandons).mpr (Or.inl fun hflush => ?_)⟩
    have hfull : codeCacheSize - codeCacheOverp ≤ t₁.freeBlock := hflush.2.2
    rw [hfree] at hfull
    exact absurd hfull (by decide)

/-- After 200 bytes, and with 30 for the exits, a fragment is rejected. -/
theorem trace_limit_200 : ∃ t' id, scanTrace loopEnv (oneFragment 200) 0x10000 .trace = .ok (t', id, 0) ∧
    ¬ (Rejected (oneFragment 200) t' 0 ↔ Full (oneFragment 200)) := by
  obtain ⟨⟨t', id, len⟩, hscan⟩ : ∃ r, scanTrace loopEnv (oneFragment 200) 0x10000 .trace = .ok r := ⟨_, rfl⟩
  obtain ⟨_, _, -, -, htest⟩ := scanTrace_test hscan
  rw [if_pos (by decide)] at htest
  obtain ⟨-, rfl⟩ := htest
  refine ⟨t', id, hscan, fun hiff => (scanTrace_rejected_iff hscan).mp hiff ?_⟩
  rw [Misjudged]
  decide

end Rollback

end Mambo.RvTraceLimits
