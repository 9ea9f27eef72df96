import Mambo.TraceRuns

namespace Mambo.TraceExits

open TraceState TraceLog TraceRuns

section Results

variable {α β : Type}

/-- The failures of a call other than those on the range and the number of the
exits of a trace. -/
def Other (e : Stop) : Prop := e ≠ .range ∧ e ≠ .exits

/-- A call fails in other ways only, or returns a result with a property. -/
structure Safe (x : Except Stop α) (p : α → Prop) : Prop where
  error : ∀ e, x = .error e → Other e
  ok : ∀ a, x = .ok a → p a

variable {x y : Except Stop α} {f : α → Except Stop β} {p q : α → Prop} {r : β → Prop}

theorem safe_ok {a : α} (h : p a) : Safe (.ok a) p := by
  refine ⟨?_, ?_⟩
  · intro e he
    cases he
  · intro b hb
    rwa [← Except.ok.inj hb]

theorem safe_error {e : Stop} (h : Other e) : Safe (.error e) p := by
  refine ⟨?_, ?_⟩
  · intro e' he
    rwa [← Except.error.inj he]
  · intro a ha
    cases ha

theorem safe_assertion : Safe (.error .assertion) p := safe_error ⟨Stop.noConfusion, Stop.noConfusion⟩

theorem safe_endless : Safe (.error .endless) p := safe_error ⟨Stop.noConfusion, Stop.noConfusion⟩

theorem Safe.bind (hx : Safe x p) (hf : ∀ a, p a → Safe (f a) r) : Safe (x >>= f) r := by
  cases x with
  | error e => exact safe_error (hx.error e rfl)
  | ok a => exact hf a (hx.ok a rfl)

theorem Safe.mono (hx : Safe x p) (h : ∀ a, p a → q a) : Safe x q := ⟨hx.error, fun a ha => h a (hx.ok a ha)⟩

theorem safe_ite {c : Prop} [Decidable c] (hx : c → Safe x p) (hy : ¬ c → Safe y p) : Safe (if c then x else y) p := by
  by_cases h : c
  · rw [if_pos h]
    exact hx h
  · rw [if_neg h]
    exact hy h

end Results

section Scanner

variable {T : Type}

/-- What is assumed of the scanner: the exit of a trace fragment is in the fragment,
aligned as its start is, and it is followed by room for an exit sequence. -/
structure Spaced (env : Env T) (unit : Nat) (exitLength : BranchType → Nat) : Prop where
  other : ∀ t type address id writeP e, env.scanner t type address id writeP = .error e → Other e
  inside : ∀ t type address id writeP s, type ≠ .bb → env.scanner t type address id writeP = .ok s →
    writeP ≤ s.exitBranchAddr ∧ (writeP % unit = 0 → s.exitBranchAddr % unit = 0) ∧
      s.exitBranchAddr + exitLength s.exitBranchType ≤ writeP + unit * s.size

variable {env : Env T} {unit : Nat} {exitLength : BranchType → Nat} {t : Thread T}

theorem allocateOverflows_safe {id n : Nat} : Safe (allocateOverflows id n t) fun t' => Framed id t t' := by
  induction n generalizing t with
  | zero => exact safe_ok Framed.refl
  | succ n ih =>
      rw [allocateOverflows]
      split_ifs
      · refine ih.mono fun t' h => ?_
        have hstep : Framed id t (t.setMeta t.freeBlock fun m => { m with actualId := id }) :=
          framed_setMeta _ _ rfl (fun _ => rfl) rfl
        exact (hstep.trans (framed_setFreeBlock _)).trans h
      · exact safe_assertion

/-- Where the exit of a fragment is, and what of the thread is as before. -/
structure Placed (unit : Nat) (exitLength : BranchType → Nat) (id writeP size : Nat) (t t' : Thread T) : Prop where
  framed : Framed id t t'
  start : writeP ≤ (t'.codeCacheMeta id).exitBranchAddr
  aligned : writeP % unit = 0 → (t'.codeCacheMeta id).exitBranchAddr % unit = 0
  room : (t'.codeCacheMeta id).exitBranchAddr + exitLength (t'.codeCacheMeta id).exitBranchType ≤ writeP + unit * size

theorem scanCode_safe (hscanner : Spaced env unit exitLength) {type : CcType} {address id writeP : Nat} :
    Safe (scanCode env t type address id writeP) fun r =>
      Framed id t r.1 ∧ (type ≠ .bb → Placed unit exitLength id writeP r.2 t r.1) := by
  rw [scanCode]
  cases hscan : env.scanner t type address id writeP with
  | error e => exact safe_error (hscanner.other _ _ _ _ _ _ hscan)
  | ok s =>
      refine allocateOverflows_safe.bind fun t' hframed => ?_
      have hset : Framed id t' (t'.setMeta id fun m => { m with
          exitBranchType := s.exitBranchType
          exitBranchAddr := s.exitBranchAddr
          branchTakenAddr := s.branchTakenAddr
          branchSkippedAddr := s.branchSkippedAddr
          branchCondition := s.branchCondition }) := framed_setMeta _ _ rfl (fun hne => absurd rfl hne) rfl
      refine safe_ok ⟨hframed.trans hset, fun htype => ?_⟩
      obtain ⟨hstart, haligned, hroom⟩ := hscanner.inside _ _ _ _ _ _ htype hscan
      refine ⟨hframed.trans hset, ?_, ?_, ?_⟩
      · simpa only [Thread.setMeta, Function.update_self] using hstart
      · simpa only [Thread.setMeta, Function.update_self] using haligned
      · simpa only [Thread.setMeta, Function.update_self] using hroom

theorem lookupOrScan_safe (hscanner : Spaced env unit exitLength) (target : Nat) :
    Safe (lookupOrScan env t target) fun r => SameTrace t r.1 := by
  refine ⟨?_, fun r h => (lookupOrScan_looked h).sameTrace⟩
  have hscan : ∀ (t' : Thread T) id addr, Safe (do
      let r ← scanCode env t' .bb target id addr
      Except.ok (r.1, addr)) fun _ => True :=
    fun t' id addr => (scanCode_safe hscanner).bind fun _ _ => safe_ok trivial
  have hsafe : Safe (lookupOrScan env t target) fun _ => True := by
    rw [lookupOrScan]
    refine safe_ite (fun _ => ?_) fun _ => safe_ite (fun _ => safe_endless) fun _ => hscan _ _ _
    cases stubBlock env t (env.hashLookup t.entryAddress target) with
    | none => exact safe_ok trivial
    | some id => exact hscan _ _ _
  exact hsafe.error

theorem activeTraceLookupOrScan_safe (hscanner : Spaced env unit exitLength) (target : Nat) :
    Safe (activeTraceLookupOrScan env t target) fun r => SameTrace t r.1 :=
  safe_ite (fun _ => safe_ok SameTrace.refl) fun _ => lookupOrScan_safe hscanner target

theorem recordCcLink_safe (linkedFrom target : Nat) : Safe (recordCcLink env t linkedFrom target) (SameTrace t) := by
  rw [recordCcLink]
  cases addrToBbId env target with
  | none => exact safe_ok SameTrace.refl
  | some id => exact safe_ite (fun _ => safe_ok ⟨rfl, rfl⟩) fun _ => safe_assertion

theorem allocateTraceFragment_safe : Safe (allocateTraceFragment t) fun r => SameTrace t r.1 :=
  safe_ite (fun _ => safe_ok ⟨rfl, rfl⟩) fun _ => safe_assertion

end Scanner

section Runs

variable {T : Type}

/-- A call made on a state fails. -/
def Fails (calls : Calls T) (s : System T) (e : Stop) : Call → Prop
  | .create bbSource => s.control = .outside ∧ bbSource < codeCacheSize ∧ calls.createTrace s.thread bbSource = .error e
  | .dispatch target source =>
    s.control = .building source ∧ calls.traceDispatcher s.thread target source = .error e ∨
    s.control = .outside ∧ (s.thread.codeCacheMeta source).exitBranchType = calls.indirect ∧
      calls.traceDispatcher s.thread target source = .error e ∨
    s.control = .outside ∧ source < codeCacheSize ∧ calls.dispatcher s.thread target source = .error e
  | .unmap => False

theorem fragment_of_building {o : Outcome} {f : Nat} (h : Control.ofOutcome o = .building f) : o.fragment = some f := by
  rw [Control.ofOutcome] at h
  split at h
  · cases h
  · rename_i fragment hsome
    rw [hsome, Control.building.inj h]

theorem flush_exit (env : Env T) (t : Thread T) (f : Nat) :
    ((flushCodeCache env t).codeCacheMeta f).exitBranchAddr = (t.codeCacheMeta f).exitBranchAddr ∧
      (((flushCodeCache env t).codeCacheMeta f).exitBranchType = (t.codeCacheMeta f).exitBranchType ∨
        ((flushCodeCache env t).codeCacheMeta f).exitBranchType = .unknown) := by
  rw [flushCodeCache]
  dsimp only
  split_ifs
  · exact ⟨rfl, Or.inr rfl⟩
  · exact ⟨rfl, Or.inl rfl⟩

end Runs

end Mambo.TraceExits
