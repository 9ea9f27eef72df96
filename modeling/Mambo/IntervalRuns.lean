import Mambo.IntervalSpec

namespace Mambo.IntervalRuns

open Intervals IntervalAdd IntervalSpec

/-- The calls that notify_vm_op makes for anonymous memory. -/
def AnonymousOp : Op → Prop
  | .add _ _ fd => fd < 0
  | .delete _ _ => True

variable (dup : Int → Int)

/-- Every call of the run, one after the other, does what it should. -/
def RunCorrect : IntervalMap → List Op → Prop
  | _, [] => True
  | m, op :: ops => ∃ r, Correct dup m op r ∧ RunCorrect r.2 ops

/-- No call of the run finds the array full when it needs a slot. -/
def Roomy : IntervalMap → List Op → Prop
  | _, [] => True
  | m, op :: ops => (NeedsSlot m op → m.entries.length < m.memSize) ∧
      ∀ r, step dup m op = some r → Roomy r.2 ops

def RunHandled : IntervalMap → List Op → Prop
  | _, [] => True
  | m, op :: ops => Handled m op ∧ ∀ r, step dup m op = some r → RunHandled r.2 ops

variable {m : IntervalMap} {op : Op}

theorem step_handled (hv : Valid m) (ha : Anonymous m) (hop : AnonymousOp op)
    (hcap : NeedsSlot m op → m.entries.length < m.memSize) (hh : Handled m op) :
    ∃ r, Correct dup m op r ∧ Anonymous r.2 := by
  cases op with
  | add start stop fd => exact addStep_handled hv ha hop hcap hh
  | delete start stop => exact deleteStep_handled hv ha hcap hh

variable {dup}

theorem step_correct (hv : Valid m) (ha : Anonymous m) (hop : AnonymousOp op) {r : Int × IntervalMap}
    (hr : Correct dup m op r) : Handled m op := by
  cases op with
  | add start stop fd => exact addStep_correct hv ha hop hr
  | delete start stop => exact deleteStep_correct hv ha hr

theorem runCorrect_iff (ops : List Op) (hv : Valid m) (ha : Anonymous m)
    (hops : ∀ op ∈ ops, AnonymousOp op) (hcap : Roomy dup m ops) :
    RunCorrect dup m ops ↔ RunHandled dup m ops := by
  induction ops generalizing m with
  | nil => simp [RunCorrect, RunHandled]
  | cons op ops ih =>
      have hop := hops op List.mem_cons_self
      have hops := fun x hx => hops x (List.mem_cons_of_mem op hx)
      have hnext : ∀ r, Handled m op → Correct dup m op r → Valid r.2 ∧ Anonymous r.2 := by
        intro r hh hr
        obtain ⟨r', hr', ha'⟩ := step_handled dup hv ha hop hcap.1 hh
        obtain rfl : r = r' := Option.some.inj (hr.1.symm.trans hr'.1)
        exact ⟨hr.2.1, ha'⟩
      constructor
      · rintro ⟨r, hr, hrun⟩
        have hh := step_correct hv ha hop hr
        refine ⟨hh, fun r' hr' => ?_⟩
        obtain rfl : r = r' := Option.some.inj (hr.1.symm.trans hr')
        exact (ih (hnext r hh hr).1 (hnext r hh hr).2 hops (hcap.2 r hr.1)).mp hrun
      · rintro ⟨hh, hrun⟩
        obtain ⟨r, hr, ha'⟩ := step_handled dup hv ha hop hcap.1 hh
        exact ⟨r, hr, (ih hr.2.1 ha' hops (hcap.2 r hr.1)).mpr (hrun r hr.1)⟩

/-- From the empty map, a run of anonymous calls that never lacks a slot keeps
to the address sets exactly when no add loses part of an entry and no delete
cuts an entry on one side only. -/
theorem intervalMap_run (size : Nat) (ops : List Op) (hops : ∀ op ∈ ops, AnonymousOp op)
    (hcap : Roomy dup (intervalMapInit size) ops) :
    RunCorrect dup (intervalMapInit size) ops ↔ RunHandled dup (intervalMapInit size) ops :=
  runCorrect_iff ops ⟨by simp [intervalMapInit], by simp [intervalMapInit]⟩
    (by simp [Anonymous, intervalMapInit]) hops hcap

theorem roomy_cons {r : Int × IntervalMap} {ops : List Op} (h : step dup m op = some r) :
    Roomy dup m (op :: ops) ↔ (NeedsSlot m op → m.entries.length < m.memSize) ∧ Roomy dup r.2 ops := by
  simp [Roomy, h]

/-- Adding [5, 25) to [0, 10) and [20, 30) leaves [0, 5) uncovered. -/
theorem intervalMap_run_loses :
    let ops := [Op.add 0 10 (-1), .add 20 30 (-1), .add 5 25 (-1)]
    (∀ op ∈ ops, AnonymousOp op) ∧ Roomy id (intervalMapInit 8) ops ∧
      ¬ RunCorrect id (intervalMapInit 8) ops := by
  have h1 : step id (intervalMapInit 8) (.add 0 10 (-1)) = some (0, ⟨8, [⟨0, 10, -1⟩]⟩) := by decide
  have h2 : step id ⟨8, [⟨0, 10, -1⟩]⟩ (.add 20 30 (-1)) =
      some (0, ⟨8, [⟨0, 10, -1⟩, ⟨20, 30, -1⟩]⟩) := by decide
  have h3 : step id ⟨8, [⟨0, 10, -1⟩, ⟨20, 30, -1⟩]⟩ (.add 5 25 (-1)) =
      some (0, ⟨8, [⟨5, 30, -1⟩]⟩) := by decide
  refine ⟨by simp [AnonymousOp], ?_, ?_⟩
  · rw [roomy_cons h1, roomy_cons h2, roomy_cons h3]
    simp [intervalMapInit, Roomy]
  · rintro ⟨r1, ⟨hr1, -⟩, r2, ⟨hr2, -⟩, r3, ⟨hr3, -, hcov, -⟩, -⟩
    obtain rfl := Option.some.inj (h1.symm.trans hr1)
    obtain rfl := Option.some.inj (h2.symm.trans hr2)
    obtain rfl := Option.some.inj (h3.symm.trans hr3)
    have h0 : (0 : Nat) ∈ covered ⟨8, [⟨5, 30, -1⟩]⟩ := by
      rw [hcov]
      exact Or.inl ⟨⟨0, 10, -1⟩, by simp, by simp [Covers]⟩
    simp [covered, Covers] at h0

theorem intervalMap_run_splits :
    let ops := [Op.add 0 30 (-1), .delete 10 20]
    RunCorrect id (intervalMapInit 8) ops ↔ RunHandled id (intervalMapInit 8) ops := by
  refine intervalMap_run 8 _ (by simp [AnonymousOp]) ?_
  have h1 : step id (intervalMapInit 8) (.add 0 30 (-1)) = some (0, ⟨8, [⟨0, 30, -1⟩]⟩) := by decide
  have h2 : step id ⟨8, [⟨0, 30, -1⟩]⟩ (.delete 10 20) =
      some (1, ⟨8, [⟨0, 10, -1⟩, ⟨20, 30, -1⟩]⟩) := by decide
  rw [roomy_cons h1, roomy_cons h2]
  simp [intervalMapInit, Roomy]

end Mambo.IntervalRuns
