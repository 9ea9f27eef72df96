import Mathlib.Logic.Function.Basic
import Mathlib.Tactic.Common

namespace Mambo.CodeChunks

/-- The number of a chunk, and how many cells into the chunk. -/
structure Place where
  chunk : Nat
  offset : Nat
  deriving DecidableEq

def Place.past (p : Place) (n : Nat) : Place := ⟨p.chunk, p.offset + n⟩

/-- The n cells from a place on end where another place is, or earlier. -/
def Before (p : Place) (n : Nat) (q : Place) : Prop := p.chunk < q.chunk ∨ p.chunk = q.chunk ∧ p.offset + n ≤ q.offset

def splice {α : Type*} (l : List α) (o : Nat) (xs : List α) : List α := l.take o ++ xs ++ l.drop (o + xs.length)

/-- Code that grows at the end of its last chunk, and is patched behind it. -/
structure Chunks (α : Type*) where
  cells : Nat → List α
  last : Nat
  unused : ∀ k, last < k → cells k = []

namespace Chunks

variable {α : Type*}

def writeP (c : Chunks α) : Place := ⟨c.last, (c.cells c.last).length⟩

def append (xs : List α) (c : Chunks α) : Chunks α where
  cells := Function.update c.cells c.last (c.cells c.last ++ xs)
  last := c.last
  unused k hk := by rw [Function.update_of_ne (by omega), c.unused k hk]

/-- What follows goes into another chunk. -/
def next (c : Chunks α) : Chunks α where
  cells := c.cells
  last := c.last + 1
  unused k hk := c.unused k (by omega)

def patch (p : Place) (xs : List α) (c : Chunks α) : Chunks α where
  cells k := if k = p.chunk ∧ k ≤ c.last then splice (c.cells k) p.offset xs else c.cells k
  last := c.last
  unused k hk := by rw [if_neg (by omega), c.unused k hk]

/-- The cells from a place on begin with a list. -/
def Holds (c : Chunks α) (p : Place) (xs : List α) : Prop :=
  ∀ i, i < xs.length → (c.cells p.chunk)[p.offset + i]? = xs[i]?

/-- What the code holds stays where it is. -/
def Keeps (c c' : Chunks α) : Prop := ∀ p xs, c.Holds p xs → c'.Holds p xs

end Chunks

section Places

variable {p q r : Place} {m n : Nat}

@[simp] theorem past_chunk : (p.past n).chunk = p.chunk := rfl

@[simp] theorem past_offset : (p.past n).offset = p.offset + n := rfl

theorem past_past : (p.past m).past n = p.past (m + n) := congrArg (Place.mk p.chunk) (Nat.add_assoc _ _ _)

theorem Before.past (h : Before p n q) (k : Nat) : Before p n (q.past k) := by
  rw [Before, past_chunk, past_offset] at *
  omega

theorem before_past (hle : m ≤ n) : Before p m (p.past n) := Or.inr ⟨rfl, Nat.add_le_add_left hle _⟩

end Places

section Splices

variable {α : Type*} {l xs : List α} {i o : Nat}

theorem splice_of_lt (hi : i < o) (hlen : i < l.length) : (splice l o xs)[i]? = l[i]? := by
  rw [splice, List.append_assoc, List.getElem?_append_left (by rw [List.length_take]; omega), List.getElem?_take,
    if_pos hi]

theorem splice_of_ge (hi : o + xs.length ≤ i) (hlen : i < l.length) : (splice l o xs)[i]? = l[i]? := by
  have htake : (l.take o).length = o := by rw [List.length_take]; omega
  rw [splice, List.getElem?_append_right (by rw [List.length_append, htake]; omega), List.getElem?_drop,
    List.length_append, htake]
  congr 1
  omega

theorem splice_self (hi : i < xs.length) (hlen : o ≤ l.length) : (splice l o xs)[o + i]? = xs[i]? := by
  have htake : (l.take o).length = o := by rw [List.length_take]; omega
  rw [splice, List.append_assoc, List.getElem?_append_right (by omega), htake, Nat.add_sub_cancel_left,
    List.getElem?_append_left hi]

end Splices

namespace Chunks

variable {α : Type*} {c c' c'' : Chunks α} {p q : Place} {xs ys zs : List α} {i : Nat}

theorem holds_nil : c.Holds p [] := fun _ hi => absurd hi (Nat.not_lt_zero _)

theorem holds_append_iff : c.Holds p (xs ++ ys) ↔ c.Holds p xs ∧ c.Holds (p.past xs.length) ys := by
  constructor
  · intro h
    refine ⟨fun i hi => ?_, fun i hi => ?_⟩
    · rw [h i (by rw [List.length_append]; omega), List.getElem?_append_left hi]
    · rw [past_chunk, past_offset, Nat.add_assoc, h _ (by rw [List.length_append]; omega),
        List.getElem?_append_right (Nat.le_add_right _ _), Nat.add_sub_cancel_left]
  · rintro ⟨hx, hy⟩ i hi
    rcases Nat.lt_or_ge i xs.length with hlt | hge
    · rw [hx i hlt, List.getElem?_append_left hlt]
    · have hcell := hy (i - xs.length) (by rw [List.length_append] at hi; omega)
      rw [past_chunk, past_offset] at hcell
      rw [List.getElem?_append_right hge, ← hcell]
      congr 1
      omega

theorem Holds.in_chunk (h : c.Holds p xs) (hi : i < xs.length) : p.offset + i < (c.cells p.chunk).length := by
  have hcell := h i hi
  rw [List.getElem?_eq_getElem hi] at hcell
  exact (List.getElem?_eq_some_iff.mp hcell).1

theorem Holds.unique (h : c.Holds p xs) (h' : c.Holds p ys) (hlen : xs.length = ys.length) : xs = ys := by
  refine List.ext_getElem? fun i => ?_
  rcases Nat.lt_or_ge i xs.length with hlt | hge
  · rw [← h i hlt, h' i (by omega)]
  · rw [List.getElem?_eq_none hge, List.getElem?_eq_none (by omega)]

theorem Holds.before (h : c.Holds p xs) (hne : xs ≠ []) : Before p xs.length c.writeP := by
  have hpos := List.length_pos_iff.mpr hne
  have hin := h.in_chunk (i := xs.length - 1) (by omega)
  rcases Nat.lt_trichotomy p.chunk c.last with hlt | heq | hgt
  · exact Or.inl hlt
  · refine Or.inr ⟨heq, ?_⟩
    rw [heq] at hin
    show p.offset + xs.length ≤ (c.cells c.last).length
    omega
  · rw [c.unused _ hgt, List.length_nil] at hin
    omega

theorem keeps_append (c : Chunks α) (xs : List α) : Keeps c (c.append xs) := by
  intro p ys h i hi
  show (Function.update c.cells c.last (c.cells c.last ++ xs) p.chunk)[p.offset + i]? = ys[i]?
  by_cases hp : p.chunk = c.last
  · have hin := h.in_chunk hi
    have hcell := h i hi
    rw [hp] at hin hcell
    rw [hp, Function.update_self, List.getElem?_append_left hin, hcell]
  · rw [Function.update_of_ne hp, h i hi]

theorem holds_append_self (c : Chunks α) (xs : List α) : (c.append xs).Holds c.writeP xs := by
  intro i hi
  show (Function.update c.cells c.last (c.cells c.last ++ xs) c.last)[(c.cells c.last).length + i]? = xs[i]?
  rw [Function.update_self, List.getElem?_append_right (Nat.le_add_right _ _), Nat.add_sub_cancel_left]

theorem keeps_next : Keeps c c.next := fun _ _ h => h

theorem Keeps.refl : Keeps c c := fun _ _ h => h

theorem Keeps.trans (h : Keeps c c') (h' : Keeps c' c'') : Keeps c c'' := fun p xs hc => h' p xs (h p xs hc)

theorem Holds.patch (h : c.Holds p xs) (hapart : Before p xs.length q ∨ Before q ys.length p) :
    (c.patch q ys).Holds p xs := by
  intro i hi
  have hin := h.in_chunk hi
  show (if p.chunk = q.chunk ∧ p.chunk ≤ c.last then splice (c.cells p.chunk) q.offset ys
    else c.cells p.chunk)[p.offset + i]? = xs[i]?
  rw [← h i hi]
  split
  next hsame =>
    rw [Before, Before] at hapart
    rcases Nat.lt_or_ge (p.offset + i) q.offset with hlt | hge
    · exact splice_of_lt hlt hin
    · exact splice_of_ge (by omega) hin
  next => rfl

theorem holds_patch_self (h : c.Holds q xs) (hlen : xs.length = ys.length) : (c.patch q ys).Holds q ys := by
  intro i hi
  have hin := h.in_chunk (i := i) (by omega)
  have hused : q.chunk ≤ c.last := by
    by_contra hgt
    rw [c.unused _ (by omega), List.length_nil] at hin
    omega
  show (if q.chunk = q.chunk ∧ q.chunk ≤ c.last then splice (c.cells q.chunk) q.offset ys
    else c.cells q.chunk)[q.offset + i]? = ys[i]?
  rw [if_pos ⟨rfl, hused⟩]
  exact splice_self hi (by omega)

theorem Holds.patch_behind (h : c.Holds p xs) (hbefore : xs ≠ [] → Before p xs.length q) :
    (c.patch q ys).Holds p xs := by
  rcases eq_or_ne xs [] with rfl | hne
  · exact holds_nil
  · exact h.patch (Or.inl (hbefore hne))

end Chunks

end Mambo.CodeChunks
