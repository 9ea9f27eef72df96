import Mathlib.Data.List.Perm.Basic
import Mathlib.Data.List.TakeDrop

namespace Mambo.SwapRemove

open List

variable {α : Type} {hit : α → Bool} {xs : List α} {i j : Nat}

section Remove

/-- The last entry takes the place of entry `i`. -/
def swapRemove (xs : List α) (i : Nat) : List α :=
  match xs.getLast? with
  | some last => if i < xs.length - 1 then (xs.set i last).dropLast else xs.dropLast
  | none => xs

theorem swapRemove_append (ys : List α) (last : α) (i : Nat) :
    swapRemove (ys ++ [last]) i = ys.set i last := by
  rw [swapRemove, getLast?_append, getLast?_singleton]
  dsimp only [Option.some_or]
  split_ifs with hi
  · rw [length_append, length_singleton, Nat.add_sub_cancel] at hi
    rw [set_append_left _ _ hi, dropLast_concat]
  · rw [length_append, length_singleton, Nat.add_sub_cancel] at hi
    rw [dropLast_concat, set_eq_of_length_le (by omega)]

theorem length_swapRemove (hi : i < xs.length) : (swapRemove xs i).length = xs.length - 1 := by
  obtain ⟨ys, last, rfl⟩ := eq_nil_or_concat' xs |>.resolve_left (ne_nil_of_length_pos (by omega))
  rw [swapRemove_append, length_set, length_append, length_singleton, Nat.add_sub_cancel]

/-- Up to the order, exactly entry `i` goes. -/
theorem swapRemove_perm (hi : i < xs.length) : xs ~ xs[i] :: swapRemove xs i := by
  obtain ⟨ys, last, rfl⟩ := eq_nil_or_concat' xs |>.resolve_left (ne_nil_of_length_pos (by omega))
  rw [swapRemove_append]
  rw [length_append, length_singleton] at hi
  rcases Nat.lt_or_ge i ys.length with hlt | hge
  · rw [getElem_append_left hlt]
    calc ys ++ [last] ~ last :: ys := perm_append_singleton last ys
      _ ~ last :: ys[i] :: ys.eraseIdx i := (getElem_cons_eraseIdx_perm hlt).symm.cons last
      _ ~ ys[i] :: last :: ys.eraseIdx i := Perm.swap _ _ _
      _ ~ ys[i] :: ys.set i last := (set_perm_cons_eraseIdx hlt last).symm.cons _
  · have hlast : i = ys.length := by omega
    subst hlast
    rw [getElem_concat_length rfl, set_eq_of_length_le (Nat.le_refl _)]
    exact perm_append_singleton last ys

theorem swapRemove_getElem? (hi : i < xs.length) (j : Nat) :
    (swapRemove xs i)[j]? =
      if j < xs.length - 1 then if j = i then xs[xs.length - 1]? else xs[j]? else none := by
  obtain ⟨ys, last, rfl⟩ := eq_nil_or_concat' xs |>.resolve_left (ne_nil_of_length_pos (by omega))
  rw [swapRemove_append, length_append, length_singleton, Nat.add_sub_cancel, getElem?_set]
  split_ifs with hij hj hji <;> grind

theorem swapRemove_take (hi : i < xs.length) :
    (swapRemove xs i).take (i + 1) =
      xs.take i ++ if i + 1 < xs.length then xs[xs.length - 1]?.toList else [] := by
  obtain ⟨ys, last, rfl⟩ := eq_nil_or_concat' xs |>.resolve_left (ne_nil_of_length_pos (by omega))
  rw [swapRemove_append, length_append, length_singleton, Nat.add_sub_cancel]
  rw [length_append, length_singleton] at hi
  rcases Nat.lt_or_ge i ys.length with hlt | hge
  · rw [if_pos (by omega), take_succ_eq_append_getElem (by rwa [length_set]), getElem_set_self, take_set_of_le (Nat.le_refl i),
      take_append_of_le_length (by omega), getElem?_concat_length]
    rfl
  · rw [if_neg (by omega), take_of_length_le (by rw [length_set]; omega), set_eq_of_length_le hge,
      show i = ys.length by omega, take_left', append_nil]
    rfl

end Remove

section Sweep

/-- Every entry that is hit goes while the index moves on by one each time. -/
def sweep (hit : α → Bool) (i : Nat) (xs : List α) : List α :=
  if hi : i < xs.length then
    if hit xs[i] then sweep hit (i + 1) (swapRemove xs i) else sweep hit (i + 1) xs
  else xs
termination_by xs.length - i
decreasing_by
  · rw [length_swapRemove hi]
    omega
  · omega

theorem sweep_hit (hi : i < xs.length) (hhit : hit xs[i] = true) :
    sweep hit i xs = sweep hit (i + 1) (swapRemove xs i) := by
  rw [sweep, dif_pos hi, if_pos hhit]

theorem sweep_miss (hi : i < xs.length) (hhit : ¬ hit xs[i] = true) : sweep hit i xs = sweep hit (i + 1) xs := by
  rw [sweep, dif_pos hi, if_neg hhit]

theorem sweep_filter (hit : α → Bool) (i : Nat) (xs : List α) :
    (sweep hit i xs).filter (fun x => !hit x) ~ xs.filter (fun x => !hit x) := by
  fun_induction sweep hit i xs with
  | case1 i xs hi hhit ih =>
    have hgone := (swapRemove_perm hi).filter (fun x => !hit x)
    rw [filter_cons_of_neg (by simpa using hhit)] at hgone
    exact ih.trans hgone.symm
  | case2 i xs hi hhit ih => exact ih
  | case3 i xs hi => exact Perm.refl _

theorem sweep_subperm (hit : α → Bool) (i : Nat) (xs : List α) : sweep hit i xs <+~ xs := by
  fun_induction sweep hit i xs with
  | case1 i xs hi hhit ih =>
    exact ih.trans ((sublist_cons_self _ _).subperm.trans (swapRemove_perm hi).symm.subperm)
  | case2 i xs hi hhit ih => exact ih
  | case3 i xs hi => exact Subperm.refl _

theorem sweep_none (hnone : ∀ x ∈ xs.drop i, hit x = false) : sweep hit i xs = xs := by
  fun_induction sweep hit i xs with
  | case1 i xs hi hhit ih =>
    rw [drop_eq_getElem_cons hi] at hnone
    exact absurd hhit (by rw [hnone _ mem_cons_self]; simp)
  | case2 i xs hi hhit ih =>
    rw [drop_eq_getElem_cons hi] at hnone
    exact ih fun x hx => hnone x (mem_cons_of_mem _ hx)
  | case3 i xs hi => rfl

/-- The entries between `i` and `j` that are hit. -/
def hits (hit : α → Bool) (xs : List α) (i j : Nat) : Nat := ((xs.take j).drop i).countP hit

/-- No entry that is hit takes the place of another: the one moved to `j` is the last
after those that went before. -/
def Apart (hit : α → Bool) (i : Nat) (xs : List α) : Prop :=
  ∀ j, i ≤ j → (xs[j]?).any hit → j + hits hit xs i j + 1 < xs.length →
    (xs[xs.length - 1 - hits hit xs i j]?).any hit = false

theorem hits_self (hit : α → Bool) (xs : List α) (i : Nat) : hits hit xs i i = 0 := by
  rw [hits, drop_take_self]
  rfl

theorem hits_succ (hi : i < xs.length) (hij : i < j) :
    hits hit xs i j = hits hit xs (i + 1) j + if hit xs[i] then 1 else 0 := by
  have hlen : i < (xs.take j).length := by
    rw [length_take]
    omega
  rw [hits, hits, drop_eq_getElem_cons hlen, countP_cons, getElem_take]

theorem hits_swapRemove (hi : i < xs.length) (hj : j < xs.length) :
    hits hit (swapRemove xs i) (i + 1) j = hits hit xs (i + 1) j := by
  have hsame : ((swapRemove xs i).take j).drop (i + 1) = (xs.take j).drop (i + 1) := by
    apply ext_getElem?
    intro k
    rw [getElem?_drop, getElem?_drop, getElem?_take, getElem?_take, swapRemove_getElem? hi]
    split_ifs <;> first | rfl | omega
  rw [hits, hits, hsame]

theorem apart_done (hi : ¬ i < xs.length) : Apart hit i xs := by
  intro j hj hhit hlt
  omega

theorem apart_miss (hi : i < xs.length) (hhit : hit xs[i] = false) :
    Apart hit i xs ↔ Apart hit (i + 1) xs := by
  constructor
  · intro h j hj hjhit
    have hcount : hits hit xs i j = _ := hits_succ hi (show i < j by omega)
    rw [hhit] at hcount
    simpa [hcount] using h j (by omega) hjhit
  · intro h j hj hjhit
    rcases Nat.eq_or_lt_of_le hj with rfl | hlt
    · simp [hi, hhit] at hjhit
    · have hcount : hits hit xs i j = _ := hits_succ hi hlt
      rw [hhit] at hcount
      simpa [hcount] using h j hlt hjhit

theorem apart_hit (hi : i < xs.length) (hhit : hit xs[i] = true) :
    Apart hit i xs ↔ (i + 1 < xs.length → (xs[xs.length - 1]?).any hit = false) ∧
      Apart hit (i + 1) (swapRemove xs i) := by
  have hlen := length_swapRemove hi
  -- a later entry sees the same list, one shorter, with one hit fewer before it
  have hlater : ∀ j, i < j → j + 1 < xs.length → hits hit xs i j = hits hit xs (i + 1) j + 1 ∧
      hits hit (swapRemove xs i) (i + 1) j = hits hit xs (i + 1) j ∧ (swapRemove xs i)[j]? = xs[j]? := by
    intro j hij hj
    refine ⟨by rw [hits_succ hi hij, if_pos hhit], hits_swapRemove hi (by omega), ?_⟩
    rw [swapRemove_getElem? hi, if_pos (by omega), if_neg (by omega)]
  have hmoved : ∀ j, i < j → j + hits hit xs (i + 1) j + 2 < xs.length →
      (swapRemove xs i)[xs.length - 1 - 1 - hits hit xs (i + 1) j]? =
        xs[xs.length - 1 - (hits hit xs (i + 1) j + 1)]? := by
    intro j hij hj
    rw [swapRemove_getElem? hi, if_pos (by omega), if_neg (by omega), Nat.sub_sub _ 1, Nat.add_comm]
  constructor
  · intro h
    refine ⟨fun hlt => ?_, fun j hij hjhit hlt => ?_⟩
    · have hself := h i (Nat.le_refl i) (by simpa [hi] using hhit)
      rw [hits_self] at hself
      exact hself hlt
    · rw [hlen] at hlt ⊢
      obtain ⟨hcount, hsame, hget⟩ := hlater j hij (by omega)
      rw [hsame] at hlt ⊢
      rw [hget] at hjhit
      have hj := h j (by omega) hjhit
      rw [hcount] at hj
      rw [hmoved j hij (by omega)]
      exact hj (by omega)
  · rintro ⟨hself, hrest⟩ j hij hjhit hlt
    rcases Nat.eq_or_lt_of_le hij with rfl | hij
    · rw [hits_self] at hlt ⊢
      exact hself hlt
    · obtain ⟨hcount, hsame, hget⟩ := hlater j hij (by omega)
      rw [hcount] at hlt ⊢
      rw [← hmoved j hij (by omega), ← hsame, ← hlen]
      exact hrest j hij (hget ▸ hjhit) (by rw [hlen, hsame]; omega)

/-- The sweep leaves none of the entries that it is for exactly when none of them was
moved into a place that it had passed. -/
theorem sweep_clears_iff (hit : α → Bool) (i : Nat) (xs : List α) :
    (∀ x ∈ sweep hit i xs, hit x = false) ↔ (∀ x ∈ xs.take i, hit x = false) ∧ Apart hit i xs := by
  fun_induction sweep hit i xs with
  | case1 i xs hi hhit ih =>
    rw [ih, apart_hit hi hhit]
    rw [swapRemove_take hi]
    split_ifs with hlt
    · have hlast : (∀ x ∈ xs[xs.length - 1]?.toList, hit x = false) ↔ (xs[xs.length - 1]?).any hit = false := by
        cases xs[xs.length - 1]? <;> simp
      simp only [mem_append, or_imp, forall_and, hlast, hlt, true_imp_iff, and_assoc]
    · simp only [append_nil, hlt, false_imp_iff, true_and]
  | case2 i xs hi hhit ih =>
    rw [Bool.not_eq_true] at hhit
    rw [ih, apart_miss hi hhit, take_succ_eq_append_getElem hi]
    simp only [mem_append, mem_singleton, or_imp, forall_and, forall_eq, hhit, and_true]
  | case3 i xs hi =>
    rw [take_of_length_le (by omega)]
    exact (and_iff_left (apart_done hi)).symm

end Sweep

end Mambo.SwapRemove
