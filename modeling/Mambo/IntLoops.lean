import Mathlib.Algebra.Group.Nat.Defs
import Mathlib.Data.Nat.Basic
import Mathlib.Tactic.Common

namespace Mambo.IntLoops

variable {σ ε : Type*}

/-- The rounds of a loop over the slots of an array from index i on. The index is a signed int of 32
bits, beyond whose largest value nothing is defined. -/
def forInt (overflow : ε) (body : Nat → σ → Except ε σ) : Nat → Nat → σ → Except ε σ
  | 0, _, s => .ok s
  | n + 1, i, s =>
    match body i s with
    | .error e => .error e
    | .ok s => if i + 1 < 2 ^ 31 then forInt overflow body n (i + 1) s else .error overflow

variable {overflow : ε} {body : Nat → σ → Except ε σ} {Inv : Nat → σ → Prop} {Fails : ε → Prop} {s : σ} {size : Nat}

theorem forInt_from (n i : Nat) (hsize : i + n = size) (hi : i < 2 ^ 31)
    (hstep : ∀ i < size, ∀ s, Inv i s → (∃ s', body i s = .ok s' ∧ Inv (i + 1) s') ∨ ∃ e, body i s = .error e ∧ Fails e)
    (h : Inv i s) : (∃ e, forInt overflow body n i s = .error e ∧ Fails e) ∨
      if size < 2 ^ 31 then ∃ s', forInt overflow body n i s = .ok s' ∧ Inv size s'
      else forInt overflow body n i s = .error overflow := by
  induction n generalizing i s with
  | zero =>
      obtain rfl : i = size := hsize
      rw [if_pos hi]
      exact .inr ⟨s, rfl, h⟩
  | succ n ih =>
      rw [forInt]
      rcases hstep i (by omega) s h with ⟨s', hok, hnext⟩ | ⟨e, herror, hfails⟩
      · rw [hok]
        dsimp only
        by_cases hlast : i + 1 < 2 ^ 31
        · rw [if_pos hlast]
          exact ih (i + 1) (by omega) hlast hnext
        · rw [if_neg hlast, if_neg (by omega)]
          exact .inr rfl
      · rw [herror]
        exact .inl ⟨e, rfl, hfails⟩

/-- An invariant of the rounds holds after an array whose slots all have an int for their index. The
index of a larger one overflows, unless a round fails before. -/
theorem forInt_rule (overflow : ε) (Inv : Nat → σ → Prop) (Fails : ε → Prop)
    (hstep : ∀ i < size, ∀ s, Inv i s → (∃ s', body i s = .ok s' ∧ Inv (i + 1) s') ∨ ∃ e, body i s = .error e ∧ Fails e)
    (h : Inv 0 s) : (∃ e, forInt overflow body size 0 s = .error e ∧ Fails e) ∨
      if size < 2 ^ 31 then ∃ s', forInt overflow body size 0 s = .ok s' ∧ Inv size s'
      else forInt overflow body size 0 s = .error overflow :=
  forInt_from size 0 (Nat.zero_add size) (by decide) hstep h

end Mambo.IntLoops
