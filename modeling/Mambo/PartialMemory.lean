import Mathlib.Data.BitVec
import Mathlib.Tactic.Common

namespace Mambo.PartialMemory

section Loops

variable {σ ρ : Type*}

/-- A loop whose body goes on with a state or leaves with a result; none where the body stops, or
the rounds are used up. -/
def loop (body : σ → Option (σ ⊕ ρ)) : Nat → σ → Option ρ
  | 0, _ => none
  | fuel + 1, s => (body s).bind fun
    | .inl s' => loop body fuel s'
    | .inr r => some r

variable {body : σ → Option (σ ⊕ ρ)} {s s' : σ} {r r' : ρ} {fuel : Nat}

theorem loop_on (h : body s = some (.inl s')) : loop body (fuel + 1) s = loop body fuel s' := by rw [loop, h]; rfl

theorem loop_leave (h : body s = some (.inr r)) : loop body (fuel + 1) s = some r := by rw [loop, h]; rfl

theorem loop_stop (h : body s = none) : loop body (fuel + 1) s = none := by rw [loop, h]; rfl

/-- With enough rounds the outcome is this one: a result, or none. -/
def Settles (run : Nat → Option ρ) (outcome : Option ρ) : Prop :=
  ∃ rounds, ∀ fuel, rounds ≤ fuel → run fuel = outcome

def Returns (run : Nat → Option ρ) (r : ρ) : Prop := Settles run (some r)

variable {run : Nat → Option ρ} {outcome outcome' : Option ρ}

theorem Settles.unique (h : Settles run outcome) (h' : Settles run outcome') : outcome = outcome' := by
  obtain ⟨n, hn⟩ := h
  obtain ⟨n', hn'⟩ := h'
  exact (hn (max n n') (le_max_left n n')).symm.trans (hn' (max n n') (le_max_right n n'))

theorem Settles.returns_iff (h : Settles run outcome) : Returns run r ↔ outcome = some r :=
  ⟨h.unique, fun heq => by rwa [Returns, ← heq]⟩

theorem Settles.after (bound : Nat) (h : ∀ fuel, bound < fuel → run fuel = outcome) : Settles run outcome :=
  ⟨bound + 1, h⟩

end Loops

abbrev Byte := BitVec 8

/-- The bytes that may be accessed, at addresses of w bits other than null. -/
structure Memory (w : Nat) where
  byte : Nat → Option Byte
  null : byte 0 = none
  bounded : ∀ a, 2 ^ w ≤ a → byte a = none

namespace Memory

variable {w : Nat} {m m' : Memory w} {a b : Nat} {x : Byte} {xs ys : List Byte}

/-- Nothing but some bytes from an address on. -/
def place (a : Nat) (xs : List Byte) (hpos : 0 < a) (hlen : a + xs.length ≤ 2 ^ w) : Memory w where
  byte b := if a ≤ b then xs[b - a]? else none
  null := if_neg (by omega)
  bounded b hb := by
    rw [if_pos (by omega)]
    exact List.getElem?_eq_none (by omega)

def put (m : Memory w) (a : Nat) (x : Byte) (h : m.byte a ≠ none) : Memory w where
  byte := Function.update m.byte a (some x)
  null := by
    have hne : 0 ≠ a := fun heq => h (heq ▸ m.null)
    rw [Function.update_of_ne hne, m.null]
  bounded b hb := by
    have hne : b ≠ a := fun heq => h (heq ▸ m.bounded b hb)
    rw [Function.update_of_ne hne, m.bounded b hb]

def write (m : Memory w) (a : Nat) (x : Byte) : Option (Memory w) :=
  if h : m.byte a ≠ none then some (m.put a x h) else none

theorem write_eq (h : m.byte a ≠ none) : m.write a x = some (m.put a x h) := dif_pos h

theorem put_byte (h : m.byte a ≠ none) : (m.put a x h).byte a = some x := Function.update_self ..

theorem put_other (h : m.byte a ≠ none) (hne : b ≠ a) : (m.put a x h).byte b = m.byte b :=
  Function.update_of_ne hne ..

/-- The bytes from an address on. -/
def Holds (m : Memory w) : Nat → List Byte → Prop
  | _, [] => True
  | a, x :: xs => m.byte a = some x ∧ Holds m (a + 1) xs

def Accessible (m : Memory w) (a n : Nat) : Prop := ∀ i < n, m.byte (a + i) ≠ none

theorem bind_byte {β : Type} {f : Byte → Option β} (h : m.byte a = some x) : (m.byte a >>= f) = f x := by
  rw [h, Option.bind_eq_bind, Option.bind_some]

theorem ne_zero_of_byte (h : m.byte a = some x) : a ≠ 0 := by
  rintro rfl
  rw [m.null] at h
  cases h

/-- What is accessible does not start at null and does not reach over the last address. -/
theorem Holds.range (h : m.Holds a xs) (hne : xs ≠ []) : 0 < a ∧ a + xs.length ≤ 2 ^ w := by
  induction xs generalizing a with
  | nil => exact absurd rfl hne
  | cons x xs ih =>
      refine ⟨Nat.pos_of_ne_zero (ne_zero_of_byte h.1), ?_⟩
      have hlt : a < 2 ^ w := by
        by_contra hge
        rw [Holds, m.bounded a (by omega)] at h
        cases h.1
      rw [List.length_cons]
      cases xs with
      | nil => exact hlt
      | cons y ys =>
          have hrest := (ih h.2 (List.cons_ne_nil y ys)).2
          omega

structure Overwritten (m : Memory w) (a : Nat) (xs : List Byte) (m' : Memory w) : Prop where
  holds : m'.Holds a xs
  other : ∀ b, b < a ∨ a + xs.length ≤ b → m'.byte b = m.byte b

theorem Holds.of_eq (h : m.Holds a xs) (heq : ∀ b, a ≤ b → b < a + xs.length → m'.byte b = m.byte b) :
    m'.Holds a xs := by
  induction xs generalizing a with
  | nil => trivial
  | cons x xs ih =>
      rw [List.length_cons] at heq
      exact ⟨(heq a le_rfl (by omega)).trans h.1, ih h.2 fun b hle hlt => heq b (by omega) (by omega)⟩

theorem Overwritten.nil : Overwritten m a [] m := ⟨trivial, fun _ _ => rfl⟩

theorem Overwritten.cons (h : m.byte a ≠ none) (hrest : Overwritten (m.put a x h) (a + 1) xs m') :
    Overwritten m a (x :: xs) m' where
  holds := ⟨(hrest.other a (.inl a.lt_succ_self)).trans (put_byte h), hrest.holds⟩
  other b hb := by
    rw [List.length_cons] at hb
    rw [hrest.other b (by omega), put_other h (by omega)]

end Memory

end Mambo.PartialMemory
