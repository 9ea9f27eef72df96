import Mambo.A64FragmentExits
import Mambo.TraceExits

namespace Mambo.A64DeadEnds

open A64Scan A64ScanExits A64FragmentExits TraceState TraceRuns A64Traces A64TraceRuns
open TraceExits (Fails)

variable {T : Type} {mambo : Addresses} {program : Nat → Guest} {fuel n : Nat} {env : Env T} {t : Thread T}
  {isInstructionPositionIndependent : Thread T → Nat → Bool} {source target blockAddress : Nat}

section Blocks

theorem linkConditional_sound (h : Sound mambo program fuel n env none t) :
    Returns env (linkConditional env t source target blockAddress) fun t' => Sound mambo program fuel n env none t' := by
  have hstatus : ∀ (u : Thread T) (f : Nat → Nat), Untouched u (u.setMeta source fun m =>
      { m with branchCacheStatus := f m.branchCacheStatus }) := fun u f => untouched_setMeta _ fun _ => rfl
  refine returns_ite (fun _ => ?_) fun _ => ?_
  · have h₁ := h.untouched (hstatus t fun _ => if target = (t.codeCacheMeta source).branchTakenAddr then branchLinked
      else fallthroughLinked)
    refine (ccBranch_sound h₁ _ _ _).bind fun t₂ h₂ => returns_ite (fun _ => ?_) fun _ => returns_ok h₂.1
    refine (ccBranch_sound h₂.1 _ _ _).bind fun t₃ h₃ => returns_ok ?_
    exact h₃.1.untouched (hstatus t₃ fun s => s ||| bothLinked)
  · have h₁ := h.untouched (hstatus t fun s => s ||| bothLinked)
    exact (ccBranch_sound h₁ _ _ _).mono fun _ h₂ => h₂.1

theorem dispatcherAarch64_sound (exitType : BranchType) (h : Sound mambo program fuel n env none t) :
    Returns env (dispatcherAarch64 env t source exitType target blockAddress) fun t' =>
      Sound mambo program fuel n env none t' := by
  cases exitType with
  | uncondImmA64 =>
      refine (ccBranch_sound h _ _ _).bind fun t₁ h₁ => returns_ok ?_
      have hstatus : Untouched t₁ (t₁.setMeta source fun m => { m with branchCacheStatus := branchLinked }) :=
        untouched_setMeta _ fun _ => rfl
      exact h₁.1.untouched hstatus
  | condImmA64 | cbzA64 | tbzA64 => exact linkConditional_sound h
  | unknown | stub | uncondBranchReg | traceExit | jalRiscv | jalrRiscv | branchRiscv | atomicMemoryRiscv =>
      exact returns_ok h

theorem dispatcher_left (hscanner : env.scanner = scannerA64 mambo program fuel n) (hblocks : 0 < env.trampolinesSizeBbs)
    (hsize : env.trampolinesSizeBbs < codeCacheSize) (hsource : source < codeCacheSize)
    (h : Sound mambo program fuel n env none t) :
    Returns env (dispatcher env t isInstructionPositionIndependent target source) (Left mambo program fuel n env) := by
  have h₀ : Sound mambo program fuel n env none { t with wasFlushed := false } :=
    ⟨h.ids, h.free, h.fragments, h.stubless, h.heads⟩
  rw [dispatcher, if_neg (Nat.not_le_of_lt hsource)]
  refine (lookupOrScan_sound hscanner hblocks hsize h₀ target).bind fun r hr => ?_
  refine returns_ite (fun _ => returns_ok (hr.1.leave r.2)) fun _ => ?_
  exact (dispatcherAarch64_sound _ hr.1).bind fun t₂ h₂ => returns_ok (h₂.leave r.2)

end Blocks

section Runs

structure ExitsInv (mambo : Addresses) (program : Nat → Guest) (fuel n : Nat) (env : Env T) (s : System T) : Prop where
  sound : Sound mambo program fuel n env none s.thread
  building : ∀ f, s.control = .building f → Awaits mambo program fuel n s.thread f

theorem left_inv {r : Thread T × Outcome} (h : Left mambo program fuel n env r) :
    ExitsInv mambo program fuel n env ⟨r.1, .ofOutcome r.2⟩ := by
  obtain ⟨t', nextAddr, fragment⟩ := r
  refine ⟨h.1, ?_⟩
  intro f hf
  cases fragment with
  | none => exact nomatch hf
  | some f' =>
      obtain rfl := Control.building.inj hf
      exact h.2 f' rfl

theorem awaits_flush {f : Nat} (h : Awaits mambo program fuel n t f) :
    Awaits mambo program fuel n (flushCodeCache env t) f := by
  have hkept : (flushCodeCache env t).codeCacheMeta f = t.codeCacheMeta f := if_neg (Nat.not_lt_of_le h.first)
  refine ⟨h.first, ?_, ?_, h.exits⟩
  · rw [hkept]
    exact h.direct
  · rw [hkept]
    exact h.written

/-- The trace heads that call are blocks of the cache since its last flush, and no
trace goes on with code in which a word after the first one is unknown. -/
def CallMeets (program : Nat → Guest) (fuel : Nat) (env : Env T) (s : System T) : Call → Prop
  | .create bbSource => Head program fuel env s.thread bbSource
  | .dispatch target source => s.control = .building source → Known program target
  | .unmap => True

variable {s s' : System T} {call : Call} (hscanner : env.scanner = scannerA64 mambo program fuel n)
  (hblocks : 0 < env.trampolinesSizeBbs) (hsize : env.trampolinesSizeBbs < codeCacheSize)
include hscanner hblocks hsize

theorem step_inv (hmeets : CallMeets program fuel env s call)
    (hstep : Step env (a64Calls env isInstructionPositionIndependent) s call s')
    (h : ExitsInv mambo program fuel n env s) : ExitsInv mambo program fuel n env s' := by
  cases hstep with
  | create _ hcall => exact left_inv ((createTrace_left hscanner hblocks hsize hmeets h.sound).ok _ hcall)
  | fragment hcall =>
      exact left_inv ((traceDispatcher_left hscanner hblocks hsize (hmeets rfl) h.sound (h.building _ rfl)).ok _ hcall)
  | indirect htype hcall =>
      exact left_inv ((traceDispatcher_indirect hscanner hblocks hsize h.sound htype).ok _ hcall)
  | block hsource hcall => exact left_inv ((dispatcher_left hscanner hblocks hsize hsource h.sound).ok _ hcall)
  | unmap =>
      refine ⟨flush_sound hblocks _, ?_⟩
      intro f hf
      exact awaits_flush (h.building f hf)

theorem reachable_inv
    (h : Reachable env (a64Calls env isInstructionPositionIndependent) (CallMeets program fuel env) s) :
    ExitsInv mambo program fuel n env s := by
  refine h.invariant (fun t => ⟨flush_sound hblocks _, fun f hf => nomatch hf⟩) ?_
  exact fun _ _ _ hmeets hstep => step_inv hscanner hblocks hsize hmeets hstep

/-- The model of the traces with the scanner of this architecture. -/
def scanning (mambo : Addresses) (program : Nat → Guest) (fuel n : Nat) (env : Env T) : Env T :=
  { env with codeCache := mambo.codeCache, scanner := scannerA64 mambo program fuel n }

theorem fails_endless (hmeets : CallMeets program fuel env s call)
    (h : ExitsInv mambo program fuel n env s)
    (hfails : Fails (a64Calls env isInstructionPositionIndependent) s .endless call) : HashFull env := by
  cases call with
  | create bbSource => exact (createTrace_left hscanner hblocks hsize hmeets h.sound).endless hfails.2.2
  | unmap => exact hfails.elim
  | dispatch target source =>
      rcases hfails with ⟨hbuilding, hcall⟩ | ⟨-, htype, hcall⟩ | ⟨-, hsource, hcall⟩
      · exact (traceDispatcher_left hscanner hblocks hsize (hmeets hbuilding) h.sound (h.building _ hbuilding)).endless hcall
      · exact (traceDispatcher_indirect hscanner hblocks hsize h.sound htype).endless hcall
      · exact (dispatcher_left hscanner hblocks hsize hsource h.sound).endless hcall

end Runs

section Claims

/-- In every run whose calls meet the condition, the fragments whose code can call
the dispatcher have the exits of their own scans, and no call reaches an endless
loop, unless the hash table is full. -/
theorem no_dead_end (hblocks : 0 < env.trampolinesSizeBbs) (hsize : env.trampolinesSizeBbs < codeCacheSize) {s : System T}
    (h : Reachable (scanning mambo program fuel n env)
      (a64Calls (scanning mambo program fuel n env) isInstructionPositionIndependent)
      (CallMeets program fuel (scanning mambo program fuel n env)) s) :
    (∀ f, s.control = .building f → WrittenByScan mambo program fuel n f (s.thread.codeCacheMeta f)) ∧
      (∀ i, codeCacheSize ≤ i → i < s.thread.traceId → (s.thread.codeCacheMeta i).exitBranchType ≠ .traceExit →
        WrittenByScan mambo program fuel n i (s.thread.codeCacheMeta i)) ∧
      ∀ call, CallMeets program fuel (scanning mambo program fuel n env) s call →
        Fails (a64Calls (scanning mambo program fuel n env) isInstructionPositionIndependent) s .endless call →
        HashFull (scanning mambo program fuel n env) := by
  have hinv : ExitsInv mambo program fuel n (scanning mambo program fuel n env) s := reachable_inv rfl hblocks hsize h
  refine ⟨fun f hf => (hinv.building f hf).written, ?_, fun call hmeets => fails_endless rfl hblocks hsize hmeets hinv⟩
  intro i hge hlt hstub
  exact (hinv.sound.fragments i (Option.some_ne_none i) hge (Nat.lt_of_lt_of_le hlt hinv.sound.ids.2)).resolve_right hstub

/-- A guest with a conditional branch at 0x10000 to code in which the second word is
known or not. -/
def branchProgram (second : Guest) (r : Nat) : Guest :=
  if r = 0x10000 then .bCond 0x40 0 else if r = 0x10100 then .other else if r = 0x10104 then second else .indirect .br 0

def someAddresses : Addresses := ⟨0x50000000, 0x50000000, 0x50000100, 0x50000200, 0x60000000, 0x70000000⟩

def endEnv (second : Guest) : Env (Nat → Nat) := scanning someAddresses (branchProgram second) 8 8 branchEnv

def endCalls (second : Guest) : Calls (Nat → Nat) := a64Calls (endEnv second) allIndependent

/-- The block at 0x10000 becomes the head of a trace that goes on at 0x10100. -/
def endRun : List Call := [.dispatch 0x10000 0, .create 10, .dispatch 0x10100 55000]

def endless {α : Type} : Except Stop α → Bool
  | .error .endless => true
  | _ => false

theorem endless_eq {α : Type} {x : Except Stop α} (h : endless x = true) : x = .error .endless := by
  cases x with
  | ok a => exact nomatch h
  | error e =>
      cases e with
      | endless => rfl
      | assertion | range | exits => exact nomatch h

theorem endEnv_not_full (second : Guest) : ¬ HashFull (endEnv second) := by
  rintro ⟨table, key, value, h⟩
  exact nomatch h

/-- An unknown word in the second fragment of a trace: its exit type is not set, and
the call from it loops for ever. -/
theorem unknown_word_endless : ∃ s, Reachable (endEnv .invalid) (endCalls .invalid) (fun _ _ => True) s ∧
    s.control = .building 55001 ∧ Fails (endCalls .invalid) s .endless (.dispatch 0x10104 55001) ∧
    ¬ HashFull (endEnv .invalid) := by
  have hrun : (run (endEnv .invalid) (endCalls .invalid) (initial (endEnv .invalid) zeroedThread) endRun).any (fun s =>
      s.control = .building 55001 ∧ endless ((endCalls .invalid).traceDispatcher s.thread 0x10104 55001)) = true := by
    decide
  obtain ⟨s, hs, hp⟩ := (Option.any_eq_true _ _).mp hrun
  obtain ⟨hbuilding, hloop⟩ := of_decide_eq_true hp
  have hmeeting : ∀ (list : List Call) (s : System (Nat → Nat)),
      Meeting (endEnv .invalid) (endCalls .invalid) (fun _ _ => True) s list := by
    intro list
    induction list with
    | nil => exact fun _ => trivial
    | cons call rest ih => exact fun _ => ⟨trivial, fun s' _ => ih s'⟩
  have hreachable := run_reachable _ _ ⟨zeroedThread, .refl⟩ endRun (hmeeting endRun _) hs
  exact ⟨s, hreachable, hbuilding, Or.inl ⟨hbuilding, endless_eq hloop⟩, endEnv_not_full .invalid⟩

def branchWord : Guest := .bCond 0x40 0

instance (s : System (Nat → Nat)) (bbSource : Nat) :
    Decidable (Head (branchProgram branchWord) 8 (endEnv branchWord) s.thread bbSource) :=
  decidable_of_iff (bbSource < codeCacheSize ∧ (endEnv branchWord).trampolinesSizeBbs ≤ bbSource ∧
      bbSource < s.thread.freeBlock ∧ (s.thread.codeCacheMeta bbSource).actualId = 0 ∧
      isTraceHead (branchProgram branchWord) 8 (s.thread.codeCacheMeta bbSource).sourceAddr)
    ⟨fun h => ⟨h.1, h.2.1, h.2.2.1, h.2.2.2.1, h.2.2.2.2⟩, fun h => ⟨h.block, h.first, h.allocated, h.own, h.head⟩⟩

/-- The part of the condition that is left where every word is known. -/
def HeadMeets (s : System (Nat → Nat)) : Call → Prop
  | .create bbSource => Head (branchProgram branchWord) 8 (endEnv branchWord) s.thread bbSource
  | .dispatch _ _ | .unmap => True

instance (s : System (Nat → Nat)) (call : Call) : Decidable (HeadMeets s call) :=
  match call with
  | .create _ => inferInstanceAs (Decidable (Head _ _ _ _ _))
  | .dispatch _ _ | .unmap => isTrue trivial

theorem branchProgram_known (a : Nat) : Known (branchProgram branchWord) a := by
  intro _ k _
  rw [branchProgram]
  split_ifs <;> exact Guest.noConfusion

theorem HeadMeets.calls {s : System (Nat → Nat)} {call : Call} (h : HeadMeets s call) :
    CallMeets (branchProgram branchWord) 8 (endEnv branchWord) s call := by
  cases call with
  | create bbSource => exact h
  | dispatch target source => exact fun _ => branchProgram_known target
  | unmap => trivial

theorem no_dead_end_known : ∃ s : System (Nat → Nat), s.control = .building 55001 ∧
    WrittenByScan someAddresses (branchProgram branchWord) 8 8 55001 (s.thread.codeCacheMeta 55001) ∧
    ¬ Fails (endCalls branchWord) s .endless (.dispatch 0x20000 55001) := by
  have hrun : (run (endEnv branchWord) (endCalls branchWord) (initial (endEnv branchWord) zeroedThread) endRun).any (fun s =>
      s.control = .building 55001) = true := by
    decide
  obtain ⟨s, hs, hp⟩ := (Option.any_eq_true _ _).mp hrun
  have hbuilding := of_decide_eq_true hp
  have hmeeting : Meeting (endEnv branchWord) (endCalls branchWord) HeadMeets (initial (endEnv branchWord) zeroedThread)
      endRun := by
    decide
  have hreachable := run_reachable _ _ ⟨zeroedThread, .refl⟩ endRun hmeeting hs
  obtain ⟨t, hruns⟩ := hreachable
  have hreachable : Reachable (endEnv branchWord) (endCalls branchWord) (CallMeets (branchProgram branchWord) 8
      (endEnv branchWord)) s :=
    ⟨t, Relation.ReflTransGen.mono (fun _ _ ⟨call, hmeets, hstep⟩ => ⟨call, hmeets.calls, hstep⟩) _ _ hruns⟩
  have hends := no_dead_end (by decide) (by decide) hreachable
  refine ⟨s, hbuilding, hends.1 _ hbuilding, ?_⟩
  intro hfails
  exact endEnv_not_full branchWord (hends.2.2 (.dispatch 0x20000 55001) (fun _ => branchProgram_known _) hfails)

end Claims

end Mambo.A64DeadEnds
