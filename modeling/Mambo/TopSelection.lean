import Mathlib.Data.List.Basic
import Mathlib.Order.Defs.LinearOrder
import Mathlib.Order.Lattice
import Mathlib.Tactic.Common

namespace Mambo.TopSelection

variable {α β : Type*} [LinearOrder β] (f : α → β) {n : Nat}

section Rounds

def largest (v : Vector α n) (i : Nat) (m : Fin n) : Fin n :=
  if h : i < n then largest v (i + 1) (if f (v.get m) < f (v.get ⟨i, h⟩) then ⟨i, h⟩ else m) else m
termination_by n - i

/-- Rounds of a selection sort that puts the largest elements first; the elements that it has placed. -/
def selectFrom : Nat → Nat → Vector α n → List α
  | 0, _, _ => []
  | k + 1, rank, v =>
    if h : rank < n then
      let m := largest f v (rank + 1) ⟨rank, h⟩
      v.get m :: selectFrom k (rank + 1) (v.swap rank m h m.isLt)
    else []

end Rounds

section Selection

variable {f} {v : Vector α n} {i rank : Nat} {m : Fin n}

theorem largest_spec (hm : rank ≤ m) (hi : rank ≤ i)
    (hmax : ∀ j : Fin n, rank ≤ j → j < i → f (v.get j) ≤ f (v.get m)) :
    rank ≤ largest f v i m ∧ ∀ j : Fin n, rank ≤ j → f (v.get j) ≤ f (v.get (largest f v i m)) := by
  induction hn : n - i generalizing i m with
  | zero =>
      rw [largest, dif_neg (by omega)]
      exact ⟨hm, fun j hj => hmax j hj (by omega)⟩
  | succ k ih =>
      have hlt : i < n := by omega
      rw [largest, dif_pos hlt]
      by_cases hmore : f (v.get m) < f (v.get ⟨i, hlt⟩)
      · rw [if_pos hmore]
        refine ih hi (by omega) (fun j hj hji => ?_) (by omega)
        rcases Nat.lt_succ_iff_lt_or_eq.mp hji with hlt' | heq
        · exact le_trans (hmax j hj hlt') (le_of_lt hmore)
        · rw [show j = ⟨i, hlt⟩ from Fin.ext heq]
      · rw [if_neg hmore]
        refine ih hm (by omega) (fun j hj hji => ?_) (by omega)
        rcases Nat.lt_succ_iff_lt_or_eq.mp hji with hlt' | heq
        · exact hmax j hj hlt'
        · rw [show j = ⟨i, hlt⟩ from Fin.ext heq]
          exact not_lt.mp hmore

theorem le_of_mem_drop {k : Nat} {b : β} (hmax : ∀ j : Fin n, k ≤ j → f (v.get j) ≤ b) :
    ∀ a ∈ v.toList.drop k, f a ≤ b := by
  intro a ha
  obtain ⟨j, hj, rfl⟩ := List.mem_iff_getElem.mp ha
  rw [List.length_drop, Vector.length_toList] at hj
  rw [List.getElem_drop, Vector.getElem_toList]
  exact hmax ⟨k + j, by omega⟩ (Nat.le_add_right k j)

/-- A swap behind a rank keeps what is before it, and the elements behind it up to their order. -/
theorem drop_swap_perm (hrank : rank < n) (hm : rank ≤ m) :
    ((v.swap rank m).toList.drop rank).Perm (v.toList.drop rank) := by
  have htake : (v.swap rank m).toList.take rank = v.toList.take rank := by
    apply List.ext_getElem?
    intro j
    by_cases hj : j < rank
    · rw [List.getElem?_take_of_lt hj, List.getElem?_take_of_lt hj, Vector.getElem?_toList, Vector.getElem?_toList,
        Vector.getElem?_swap, if_neg (by omega), if_neg (by omega)]
    · rw [List.getElem?_eq_none (by simp; omega), List.getElem?_eq_none (by simp; omega)]
  have hperm : (v.swap rank m).toList.Perm v.toList := (Vector.swap_perm hrank m.isLt).toList
  rw [← List.take_append_drop rank v.toList, ← List.take_append_drop rank (v.swap rank m).toList, htake] at hperm
  exact (List.perm_append_left_iff _).mp hperm

theorem drop_swap_cons (hrank : rank < n) :
    (v.swap rank m).toList.drop rank = v.get m :: (v.swap rank m).toList.drop (rank + 1) := by
  rw [List.drop_eq_getElem_cons (by simpa using hrank), Vector.getElem_toList, Vector.getElem_swap_left]
  rfl

/-- So many of the largest elements are placed, in descending order; the rest are not larger. -/
theorem selectFrom_spec (k rank : Nat) (v : Vector α n) : ∃ rest,
    (selectFrom f k rank v ++ rest).Perm (v.toList.drop rank) ∧ (selectFrom f k rank v).length = min k (n - rank) ∧
      (selectFrom f k rank v).Pairwise (fun a b => f b ≤ f a) ∧
      ∀ a ∈ selectFrom f k rank v, ∀ b ∈ rest, f b ≤ f a := by
  induction k generalizing rank v with
  | zero => exact ⟨v.toList.drop rank, .refl _, by simp [selectFrom], .nil, by simp [selectFrom]⟩
  | succ k ih =>
      by_cases hrank : rank < n
      · rw [selectFrom, dif_pos hrank]
        have hself (j : Fin n) (hj : rank ≤ j) (hji : j < rank + 1) :
            f (v.get j) ≤ f (v.get ⟨rank, hrank⟩) := by
          rw [show j = ⟨rank, hrank⟩ from Fin.ext (show (j : Nat) = rank by omega)]
        obtain ⟨hm, hmax⟩ := largest_spec (Nat.le_refl rank) (Nat.le_add_right rank 1) hself
        generalize largest f v (rank + 1) ⟨rank, hrank⟩ = m at hm hmax
        have hperm := drop_swap_perm (v := v) hrank hm
        rw [drop_swap_cons hrank] at hperm
        have hall : ∀ a ∈ (v.swap rank m).toList.drop (rank + 1), f a ≤ f (v.get m) := fun a ha =>
          le_of_mem_drop hmax a (hperm.subset (List.mem_cons_of_mem _ ha))
        obtain ⟨rest, hrest, hlen, hsorted, hless⟩ := ih (rank + 1) (v.swap rank m hrank m.isLt)
        refine ⟨rest, (hrest.cons _).trans hperm, ?_, ?_, ?_⟩
        · rw [List.length_cons, hlen]
          omega
        · exact List.pairwise_cons.mpr ⟨fun a ha => hall a (hrest.subset (List.mem_append_left _ ha)), hsorted⟩
        · intro a ha b hb
          rcases List.mem_cons.mp ha with rfl | ha
          · exact hall b (hrest.subset (List.mem_append_right _ hb))
          · exact hless a ha b hb
      · rw [selectFrom, dif_neg hrank]
        refine ⟨[], ?_, ?_, .nil, by simp⟩
        · rw [List.drop_eq_nil_of_le (by simp; omega)]
          exact .nil
        · simp
          omega

end Selection

end Mambo.TopSelection
