import Mambo.TraceLog
import Mathlib.Logic.Relation

namespace Mambo.TraceRuns

open TraceState TraceLog

/-- Where the guest executes: in the last fragment of an unfinished trace, or in
other code. -/
inductive Control
  | outside
  | building (fragment : Nat)
  deriving DecidableEq, Repr

structure System (T : Type) where
  thread : Thread T
  control : Control

inductive Call
  | create (bbSource : Nat)
  | dispatch (target source : Nat)
  | unmap
  deriving DecidableEq, Repr

def Control.ofOutcome (o : Outcome) : Control :=
  match o.fragment with
  | none => .outside
  | some fragment => .building fragment

/-- The functions that the code in the cache calls on an architecture, and the
exit type of a trace fragment that ends in an indirect branch. -/
structure Calls (T : Type) where
  createTrace : Thread T → Nat → Except Stop (Thread T × Outcome)
  traceDispatcher : Thread T → Nat → Nat → Except Stop (Thread T × Outcome)
  dispatcher : Thread T → Nat → Nat → Except Stop (Thread T × Outcome)
  indirect : BranchType

variable {T : Type} (env : Env T) (calls : Calls T)

/-- The calls that the code in the cache makes: a trace head creates a trace, the
last fragment of an unfinished trace, an indirect branch of a finished one and a
block call the dispatcher. Memory can be unmapped at any time. -/
inductive Step : System T → Call → System T → Prop
  | create {t t' : Thread T} {bbSource : Nat} {o : Outcome} (hsource : bbSource < codeCacheSize)
      (h : calls.createTrace t bbSource = .ok (t', o)) :
      Step ⟨t, .outside⟩ (.create bbSource) ⟨t', .ofOutcome o⟩
  | fragment {t t' : Thread T} {target source : Nat} {o : Outcome} (h : calls.traceDispatcher t target source = .ok (t', o)) :
      Step ⟨t, .building source⟩ (.dispatch target source) ⟨t', .ofOutcome o⟩
  | indirect {t t' : Thread T} {target source : Nat} {o : Outcome}
      (htype : (t.codeCacheMeta source).exitBranchType = calls.indirect)
      (h : calls.traceDispatcher t target source = .ok (t', o)) :
      Step ⟨t, .outside⟩ (.dispatch target source) ⟨t', .ofOutcome o⟩
  | block {t t' : Thread T} {target source : Nat} {o : Outcome} (hsource : source < codeCacheSize)
      (h : calls.dispatcher t target source = .ok (t', o)) :
      Step ⟨t, .outside⟩ (.dispatch target source) ⟨t', .ofOutcome o⟩
  | unmap {t : Thread T} {control : Control} : Step ⟨t, control⟩ .unmap ⟨flushCodeCache env t, control⟩

def initial (t : Thread T) : System T := ⟨flushCodeCache env { t with events := [] }, .outside⟩

/-- The states of the runs whose calls all meet a condition on the state they are
made on. -/
def Reachable (meets : System T → Call → Prop) (s : System T) : Prop :=
  ∃ t, Relation.ReflTransGen (fun s s' => ∃ call, meets s call ∧ Step env calls s call s') (initial env t) s

section Execution

def after (r : Except Stop (Thread T × Outcome)) : Option (System T) :=
  match r with
  | .ok (t, o) => some ⟨t, .ofOutcome o⟩
  | .error _ => none

/-- The state after a call, if the call is possible and returns. -/
def next (s : System T) : Call → Option (System T)
  | .create bbSource =>
    if s.control = .outside ∧ bbSource < codeCacheSize then after (calls.createTrace s.thread bbSource) else none
  | .dispatch target source =>
    if s.control = .building source then after (calls.traceDispatcher s.thread target source)
    else if s.control = .outside ∧ source < codeCacheSize then after (calls.dispatcher s.thread target source)
    else none
  | .unmap => some ⟨flushCodeCache env s.thread, s.control⟩

def run (s : System T) : List Call → Option (System T)
  | [] => some s
  | call :: rest => (next env calls s call).bind (run · rest)

variable {s s' : System T} {call : Call}

theorem after_ok {r : Except Stop (Thread T × Outcome)} (h : after r = some s) :
    ∃ t o, r = .ok (t, o) ∧ s = ⟨t, .ofOutcome o⟩ := by
  cases r with
  | error e => exact nomatch h
  | ok p => exact ⟨p.1, p.2, rfl, (Option.some.inj h).symm⟩

variable {env calls}

theorem next_step (h : next env calls s call = some s') : Step env calls s call s' := by
  obtain ⟨t, control⟩ := s
  cases call with
  | create bbSource =>
      rw [next] at h
      split_ifs at h with hcontrol
      obtain ⟨t', o, hcall, rfl⟩ := after_ok h
      obtain rfl : control = .outside := hcontrol.1
      exact .create hcontrol.2 hcall
  | dispatch target source =>
      rw [next] at h
      split_ifs at h with hbuilding houtside
      · obtain ⟨t', o, hcall, rfl⟩ := after_ok h
        obtain rfl : control = .building source := hbuilding
        exact .fragment hcall
      · obtain ⟨t', o, hcall, rfl⟩ := after_ok h
        obtain rfl : control = .outside := houtside.1
        exact .block houtside.2 hcall
  | unmap =>
      obtain rfl := Option.some.inj h
      exact .unmap

variable (env calls) in
/-- A run of calls, each of which meets the condition in the state it is made on. -/
def Meeting (meets : System T → Call → Prop) (s : System T) : List Call → Prop
  | [] => True
  | call :: rest => meets s call ∧ ∀ s', next env calls s call = some s' → Meeting meets s' rest

instance decidableMeeting {meets : System T → Call → Prop} [∀ s call, Decidable (meets s call)] :
    ∀ (s : System T) (run : List Call), Decidable (Meeting env calls meets s run)
  | _, [] => isTrue trivial
  | s, call :: rest =>
    match h : next env calls s call with
    | none => decidable_of_iff (meets s call) ⟨fun hm => ⟨hm, fun _ hs => nomatch h.symm.trans hs⟩, And.left⟩
    | some s' =>
      have : Decidable (Meeting env calls meets s' rest) := decidableMeeting s' rest
      decidable_of_iff (meets s call ∧ Meeting env calls meets s' rest)
        ⟨fun hm => ⟨hm.1, fun _ hs => Option.some.inj (h.symm.trans hs) ▸ hm.2⟩, fun hm => ⟨hm.1, hm.2 s' h⟩⟩

variable (env calls) in
theorem run_reachable {meets : System T → Call → Prop} (hs : Reachable env calls meets s) (list : List Call)
    (hmeeting : Meeting env calls meets s list) (h : run env calls s list = some s') : Reachable env calls meets s' := by
  induction list generalizing s with
  | nil =>
      obtain rfl := Option.some.inj h
      exact hs
  | cons call rest ih =>
      obtain ⟨s₁, hnext, h⟩ := Option.bind_eq_some_iff.mp h
      obtain ⟨t, hruns⟩ := hs
      exact ih ⟨t, hruns.tail ⟨call, hmeeting.1, next_step hnext⟩⟩ (hmeeting.2 s₁ hnext) h

/-- What holds of a new thread and is kept by every call that meets the condition
holds in every run. -/
theorem Reachable.invariant {meets : System T → Call → Prop} {p : System T → Prop}
    (hinitial : ∀ t, p (initial env t)) (hstep : ∀ s call s', meets s call → Step env calls s call s' → p s → p s')
    (h : Reachable env calls meets s) : p s := by
  obtain ⟨t, hruns⟩ := h
  induction hruns with
  | refl => exact hinitial t
  | tail _ hnext ih =>
      obtain ⟨call, hmeets, hnext⟩ := hnext
      exact hstep _ call _ hmeets hnext ih

end Execution

section Flushes

variable {env : Env T} {t t' : Thread T} {o : Outcome} {target : Nat}

/-- During a call for an unfinished trace: the trace is live until a flush is
remembered. -/
def Held (env : Env T) (t : Thread T) : Prop := Ordered env t ∧ (t.wasFlushed = false → Live t)

theorem Held.proceeds (h : Held env t) (hp : Proceeds env t t') : Held env t' := by
  refine ⟨h.1.proceeds hp, ?_⟩
  intro hf
  exact (h.2 (hp.unflushed hf).1).proceeds hp hf

theorem Held.leave (h : Held env t) (hf : t.wasFlushed = false) (addr : Nat) : Ordered env (t.log (.returned addr)) :=
  h.1.returned fun hin => absurd hin (h.2 hf).1

/-- The end of a call: a trace that is still under construction is live. -/
def Ends (env : Env T) (t : Thread T) (o : Outcome) : Prop := Ordered env t ∧ (o.fragment ≠ none → Live t)

theorem resolve_ends (h : Ordered env t) (hresolve : resolve env t target = .ok (t', o)) : Ends env t' o := by
  obtain ⟨⟨t₁, addr⟩, hlookup, hresolve⟩ := bind_ok hresolve
  obtain ⟨rfl, rfl⟩ := Prod.mk.inj (Except.ok.inj hresolve)
  have hlooked := lookupOrScan_looked hlookup
  exact ⟨(h.proceeds hlooked.proceeds).returned fun _ => hlooked.resolved, fun hne => absurd rfl hne⟩

def Inv (env : Env T) (s : System T) : Prop := Ordered env s.thread ∧ (s.control ≠ .outside → Live s.thread)

theorem ofOutcome_outside (h : o.fragment = none) : Control.ofOutcome o = .outside := by
  rw [Control.ofOutcome, h]

theorem Ends.inv (h : Ends env t o) : Inv env ⟨t, .ofOutcome o⟩ :=
  ⟨h.1, fun hne => h.2 fun hnone => hne (ofOutcome_outside hnone)⟩

theorem inv_initial (t : Thread T) : Inv env (initial env t) := ⟨ordered_flush trivial, fun hne => absurd rfl hne⟩

/-- Memory is not unmapped while a trace is under construction. -/
def NotUnmapped (s : System T) (call : Call) : Prop := call = .unmap → s.control = .outside

instance (s : System T) (call : Call) : Decidable (NotUnmapped s call) :=
  inferInstanceAs (Decidable (call = .unmap → s.control = .outside))

/-- Moreover the calls of the fragments of an unfinished trace meet a condition. -/
def BuildMeets (p : Thread T → Nat → Nat → Prop) (s : System T) (call : Call) : Prop :=
  NotUnmapped s call ∧ ∀ target source, call = .dispatch target source → s.control = .building source →
    p s.thread target source

instance (p : Thread T → Nat → Nat → Prop) [∀ t target source, Decidable (p t target source)] (s : System T)
    (call : Call) : Decidable (BuildMeets p s call) :=
  match call with
  | .create _ => decidable_of_iff (NotUnmapped s _) ⟨fun h => ⟨h, fun _ _ => Call.noConfusion⟩, And.left⟩
  | .unmap => decidable_of_iff (NotUnmapped s _) ⟨fun h => ⟨h, fun _ _ => Call.noConfusion⟩, And.left⟩
  | .dispatch target source =>
    decidable_of_iff (s.control = .building source → p s.thread target source)
      ⟨fun h => ⟨Call.noConfusion, fun _ _ heq hcontrol => by
        obtain ⟨rfl, rfl⟩ := Call.dispatch.inj heq
        exact h hcontrol⟩, fun h => h.2 target source rfl⟩

end Flushes

section Sample

def zeroed : Thread (List (Nat × Nat)) where
  wasFlushed := false
  freeBlock := 0
  codeCacheMeta := fun _ => ⟨0, 0, .unknown, 0, 0, 0, 0, 0, 0, 0, []⟩
  entryAddress := []
  traceCacheNext := 0
  traceId := 0
  traceFragmentCount := 0
  activeTrace := ⟨0, 0, 0, 0, false, []⟩
  ccLinks := 0
  events := []

end Sample

end Mambo.TraceRuns
