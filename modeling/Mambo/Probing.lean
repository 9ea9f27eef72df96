import Mathlib.Logic.Function.Basic
import Mathlib.Order.Nat
import Mathlib.Tactic.Common

namespace Mambo.Probing

variable {α : Type*}

/-- The walk from slot i looking for key ends at slot s, on the key or on an
empty slot. -/
structure StopsAt (empty : α) (keys : Nat → α) (key : α) (i s : Nat) : Prop where
  le : i ≤ s
  hit : keys s = key ∨ keys s = empty
  pass : ∀ j, i ≤ j → j < s → keys j ≠ key ∧ keys j ≠ empty

/-- Open addressing without wrapping: every key lies at or after its home slot
with no hole in between, and no key is stored twice. -/
structure Packed (empty : α) (home : α → Nat) (keys : Nat → α) : Prop where
  reach : ∀ i, keys i ≠ empty → home (keys i) ≤ i ∧ ∀ j, home (keys i) ≤ j → j < i → keys j ≠ empty
  unique : ∀ i j, keys i = keys j → keys i ≠ empty → i = j

variable {empty : α} {home : α → Nat} {keys : Nat → α} {key : α} {i s : Nat}

theorem StopsAt.step (h : StopsAt empty keys key (i + 1) s) (h1 : keys i ≠ key) (h2 : keys i ≠ empty) :
    StopsAt empty keys key i s := by
  refine ⟨by have := h.le; omega, h.hit, fun j hij hjs => ?_⟩
  rcases Nat.eq_or_lt_of_le hij with rfl | hlt
  · exact ⟨h1, h2⟩
  · exact h.pass j hlt hjs

theorem StopsAt.here (h : keys i = key ∨ keys i = empty) : StopsAt empty keys key i i :=
  ⟨le_rfl, h, fun _ hij hji => absurd (lt_of_le_of_lt hij hji) (lt_irrefl _)⟩

theorem StopsAt.next (h : StopsAt empty keys key i s) (h1 : keys i ≠ key) (h2 : keys i ≠ empty) :
    StopsAt empty keys key (i + 1) s := by
  have hne : i ≠ s := by
    rintro rfl
    exact h.hit.elim h1 h2
  exact ⟨lt_of_le_of_ne h.le hne, h.hit, fun j hij hjs => h.pass j (Nat.le_of_succ_le hij) hjs⟩

theorem exists_stopsAt {e : Nat} (he : keys e = empty) (hie : i ≤ e) :
    ∃ s, StopsAt empty keys key i s ∧ s ≤ e := by
  obtain ⟨d, rfl⟩ := Nat.exists_eq_add_of_le hie
  induction d generalizing i with
  | zero => exact ⟨i, StopsAt.here (Or.inr he), le_rfl⟩
  | succ d ih =>
      by_cases h1 : keys i = key
      · exact ⟨i, StopsAt.here (Or.inl h1), hie⟩
      by_cases h2 : keys i = empty
      · exact ⟨i, StopsAt.here (Or.inr h2), hie⟩
      have hd : i + (d + 1) = (i + 1) + d := by omega
      rw [hd] at he ⊢
      obtain ⟨s, hs, hle⟩ := ih he (Nat.le_add_right _ _)
      exact ⟨s, hs.step h1 h2, hle⟩

theorem Packed.stopsAt_eq (hp : Packed empty home keys) (hkey : key ≠ empty) {j : Nat}
    (hs : StopsAt empty keys key (home key) s) (hj : keys j = key) : s = j := by
  obtain ⟨hle, hrun⟩ := hp.reach j (hj ▸ hkey)
  rw [hj] at hle hrun
  rcases lt_trichotomy s j with hlt | heq | hgt
  · rcases hs.hit with h | h
    · exact hp.unique s j (h.trans hj.symm) (h ▸ hkey)
    · exact absurd h (hrun s hs.le hlt)
  · exact heq
  · exact absurd hj (hs.pass j hle hgt).1

theorem packed_empty : Packed empty home fun _ => empty :=
  ⟨fun _ h => absurd rfl h, fun _ _ _ h => absurd rfl h⟩

theorem Packed.insert (hp : Packed empty home keys) (hkey : key ≠ empty)
    (hs : StopsAt empty keys key (home key) s) : Packed empty home (Function.update keys s key) := by
  have hfill : ∀ j, keys j ≠ empty → Function.update keys s key j ≠ empty := by
    intro j hj
    by_cases h : j = s
    · simpa only [h, Function.update_self] using hkey
    · simpa only [Function.update_of_ne h] using hj
  constructor
  · intro i hi
    by_cases h : i = s
    · subst h
      rw [Function.update_self]
      exact ⟨hs.le, fun j hj hji => hfill j (hs.pass j hj hji).2⟩
    · rw [Function.update_of_ne h] at hi ⊢
      obtain ⟨hle, hrun⟩ := hp.reach i hi
      exact ⟨hle, fun j hj hji => hfill j (hrun j hj hji)⟩
  · intro i j heq hi
    by_cases h : i = s <;> by_cases h' : j = s
    · rw [h, h']
    · subst h
      rw [Function.update_self, Function.update_of_ne h'] at heq
      exact hp.stopsAt_eq hkey hs heq.symm
    · subst h'
      rw [Function.update_self, Function.update_of_ne h] at heq
      exact (hp.stopsAt_eq hkey hs heq).symm
    · rw [Function.update_of_ne h] at heq hi
      rw [Function.update_of_ne h'] at heq
      exact hp.unique i j heq hi

end Mambo.Probing
