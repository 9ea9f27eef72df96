import Mathlib.Data.Nat.Basic
import Mathlib.Data.Option.Basic
import Mathlib.Tactic.Common

namespace Mambo.Pieces

/-- Something that takes a number of bytes. -/
structure Piece (α : Type) where
  content : α
  length : Nat

variable {α : Type} {s : Nat → Option (Piece α)} {p q : Piece α} {a b : Nat} {ps : List (Piece α)}

/-- A piece is written; what it overlaps is no longer there. -/
def overwrite (s : Nat → Option (Piece α)) (a : Nat) (p : Piece α) : Nat → Option (Piece α) := fun b =>
  if p.length = 0 then s b
  else if b = a then some p
  else (s b).filter fun q => decide (¬ (b < a + p.length ∧ a < b + q.length))

theorem overwrite_self (hpos : 0 < p.length) : overwrite s a p a = some p := by
  rw [overwrite, if_neg (Nat.ne_of_gt hpos), if_pos rfl]

theorem overwrite_apart (h : s b = some q) (hpos : 0 < q.length)
    (hapart : b + q.length ≤ a ∨ a + p.length ≤ b) : overwrite s a p b = some q := by
  rw [overwrite]
  by_cases hzero : p.length = 0
  · rw [if_pos hzero, h]
  · have hne : b ≠ a := by omega
    rw [if_neg hzero, if_neg hne, h, Option.filter_some, if_pos]
    exact decide_eq_true fun hover => by omega

def Holds (s : Nat → Option (Piece α)) : Nat → List (Piece α) → Prop
  | _, [] => True
  | a, p :: ps => (s a = some p ∧ 0 < p.length) ∧ Holds s (a + p.length) ps

def total : List (Piece α) → Nat
  | [] => 0
  | p :: ps => p.length + total ps

theorem Holds.overwrite (h : Holds s a ps) (hapart : a + total ps ≤ b ∨ b + p.length ≤ a) :
    Holds (overwrite s b p) a ps := by
  induction ps generalizing a with
  | nil => trivial
  | cons q ps ih =>
    obtain ⟨⟨hq, hpos⟩, hps⟩ := h
    rw [total] at hapart
    exact ⟨⟨overwrite_apart hq hpos (by omega), hpos⟩, ih hps (by omega)⟩

end Mambo.Pieces
