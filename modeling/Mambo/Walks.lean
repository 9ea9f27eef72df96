import Mathlib.Logic.Function.Iterate
import Mathlib.Order.Basic

namespace Mambo.Walks

variable {α σ ρ τ : Type*}

/-- One round of a loop: it goes on, leaves with a result, or never comes back. -/
inductive Turn (σ ρ : Type*)
  | goes (s : σ)
  | stops (r : ρ)
  | hangs

/-- The result of the loop within a number of rounds. -/
def run (step : σ → Turn σ ρ) : Nat → σ → Option ρ
  | 0, _ => none
  | n + 1, s => match step s with
    | .goes t => run step n t
    | .stops r => some r
    | .hangs => none

def Returns (step : σ → Turn σ ρ) (s : σ) (r : ρ) : Prop := ∃ n, run step n s = some r

/-- The n-th place of a walk is the first one with a verdict. -/
structure First (next : α → α) (verdict : α → Option ρ) (p : α) (n : Nat) (r : ρ) : Prop where
  here : verdict (next^[n] p) = some r
  before : ∀ m < n, verdict (next^[m] p) = none

variable {next : α → α} {verdict : α → Option ρ} {p : α} {n m : Nat} {r r' : ρ}

theorem First.le (h : First next verdict p n r) (hm : verdict (next^[m] p) = some r') : n ≤ m := by
  by_contra hlt
  rw [h.before m (Nat.lt_of_not_le hlt)] at hm
  exact Option.some_ne_none _ hm.symm

theorem First.unique (h : First next verdict p n r) (h' : First next verdict p m r') : n = m ∧ r = r' := by
  obtain rfl : n = m := Nat.le_antisymm (h.le h'.here) (h'.le h.here)
  exact ⟨rfl, Option.some.inj (h.here.symm.trans h'.here)⟩

theorem First.zero (h : verdict p = some r) : First next verdict p 0 r :=
  ⟨h, fun _ hm => absurd hm (Nat.not_lt_zero _)⟩

theorem First.succ (hp : verdict p = none) (h : First next verdict (next p) n r) :
    First next verdict p (n + 1) r := by
  refine ⟨h.here, fun m hm => ?_⟩
  cases m with
  | zero => exact hp
  | succ m => exact h.before m (Nat.lt_of_succ_lt_succ hm)

theorem First.tail (h : First next verdict p (n + 1) r) : First next verdict (next p) n r :=
  ⟨h.here, fun m hm => h.before (m + 1) (Nat.succ_lt_succ hm)⟩

variable {step : σ → Turn σ ρ} {s : σ} (At : α → σ → Prop)

theorem Returns.first (hgo : ∀ {p s t}, At p s → step s = .goes t → verdict p = none ∧ At (next p) t)
    (hstop : ∀ {p s r}, At p s → step s = .stops r → verdict p = some r) (hat : At p s)
    (h : Returns step s r) : ∃ n, First next verdict p n r := by
  obtain ⟨fuel, hrun⟩ := h
  induction fuel generalizing p s with
  | zero => exact absurd hrun (Option.some_ne_none _).symm
  | succ fuel ih =>
      rw [run] at hrun
      cases hs : step s with
      | goes t =>
          rw [hs] at hrun
          obtain ⟨hnone, hnext⟩ := hgo hat hs
          obtain ⟨n, hfirst⟩ := ih hnext hrun
          exact ⟨n + 1, hfirst.succ hnone⟩
      | stops r' =>
          rw [hs] at hrun
          obtain rfl := Option.some.inj hrun
          exact ⟨0, .zero (hstop hat hs)⟩
      | hangs => exact absurd (hs ▸ hrun) (Option.some_ne_none _).symm

theorem First.returns (hgo : ∀ {p s}, At p s → verdict p = none → ∃ t, step s = .goes t ∧ At (next p) t)
    (hstop : ∀ {p s r}, At p s → verdict p = some r → step s = .stops r) (hat : At p s)
    (h : First next verdict p n r) : Returns step s r := by
  induction n generalizing p s with
  | zero => exact ⟨1, by rw [run, hstop hat h.here]⟩
  | succ n ih =>
      obtain ⟨t, hs, hnext⟩ := hgo hat (h.before 0 (Nat.succ_pos _))
      obtain ⟨fuel, hrun⟩ := ih hnext h.tail
      exact ⟨fuel + 1, by rw [run, hs]; exact hrun⟩

end Mambo.Walks
