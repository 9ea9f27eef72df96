import Mathlib.Data.List.Nodup
import Mathlib.Data.List.Pairwise
import Mathlib.Logic.Equiv.Basic
import Mathlib.Data.Fintype.Card

namespace Mambo.Recency

/-- The slots with a stamp other than 0 among the first n, latest stamp first. -/
structure Recent (n : Nat) (stamp : Nat → Nat) (order : List Nat) : Prop where
  mem : ∀ i, i ∈ order ↔ i < n ∧ stamp i ≠ 0
  sorted : order.Pairwise fun i j => stamp j < stamp i

variable {n now i v : Nat} {stamp stamp' : Nat → Nat} {order : List Nat}

theorem Recent.nodup (h : Recent n stamp order) : order.Nodup := by
  refine h.sorted.imp ?_
  intro i j hlt heq
  subst heq
  exact lt_irrefl _ hlt

theorem Recent.length_le (h : Recent n stamp order) : order.length ≤ n := by
  have hsub : order ⊆ List.range n := fun i hi => List.mem_range.mpr ((h.mem i).mp hi).1
  simpa using (h.nodup.subperm hsub).length_le

theorem Recent.full (h : Recent n stamp order) (hlen : order.length = n) (hi : i < n) : stamp i ≠ 0 := by
  have hsub : order ⊆ List.range n := fun i hi => List.mem_range.mpr ((h.mem i).mp hi).1
  have hperm := (h.nodup.subperm hsub).perm_of_length_le (by simp [hlen])
  exact ((h.mem i).mp (hperm.mem_iff.mpr (List.mem_range.mpr hi))).2

theorem Recent.length_lt (h : Recent n stamp order) (hi : i < n) (h0 : stamp i = 0) : order.length < n :=
  lt_of_le_of_ne h.length_le fun hlen => h.full hlen hi h0

theorem recent_none (hstamp : ∀ i, stamp i = 0) : Recent n stamp [] :=
  ⟨fun i => by simp [hstamp i], List.Pairwise.nil⟩

theorem Recent.congr (h : Recent n stamp order) (heq : ∀ i, i < n → stamp' i = stamp i) : Recent n stamp' order := by
  have hmem : ∀ i, i ∈ order → stamp' i = stamp i := fun i hi => heq i ((h.mem i).mp hi).1
  constructor
  · intro i
    rw [h.mem]
    constructor
    · intro hi
      exact ⟨hi.1, by rw [heq i hi.1]; exact hi.2⟩
    · intro hi
      exact ⟨hi.1, by rw [← heq i hi.1]; exact hi.2⟩
  · refine h.sorted.imp_of_mem ?_
    intro i j hi hj hlt
    rwa [hmem i hi, hmem j hj]

/-- The slot with the latest stamp comes first. -/
theorem Recent.eq_cons (h : Recent n stamp order) (hi : i < n) (h0 : stamp i ≠ 0)
    (hlatest : ∀ j, j < n → j ≠ i → stamp j < stamp i) : order = i :: order.erase i := by
  have hmem : i ∈ order := (h.mem i).mpr ⟨hi, h0⟩
  cases order with
  | nil => exact nomatch hmem
  | cons k rest =>
      by_cases hk : k = i
      · subst hk
        rw [List.erase_cons_head]
      · have hin : i ∈ rest := (List.mem_cons.mp hmem).resolve_left (Ne.symm hk)
        have hlt := List.rel_of_pairwise_cons h.sorted hin
        have hlt' := hlatest k ((h.mem k).mp List.mem_cons_self).1 hk
        omega

/-- A slot that gets the latest stamp comes first. -/
theorem Recent.use (h : Recent n stamp order) (hi : i < n) (hnow : 0 < now)
    (hothers : ∀ j, j < n → j ≠ i → stamp j < now) :
    Recent n (Function.update stamp i now) (i :: order.erase i) := by
  have hmem : ∀ j, j ∈ order.erase i ↔ j ≠ i ∧ j ∈ order := fun j => h.nodup.mem_erase_iff
  constructor
  · intro j
    by_cases hj : j = i
    · subst hj
      simp [hi, Nat.ne_of_gt hnow]
    · rw [List.mem_cons, hmem, h.mem, Function.update_of_ne hj]
      simp [hj]
  · refine List.Pairwise.cons ?_ ?_
    · intro j hj
      obtain ⟨hne, hin⟩ := (hmem j).mp hj
      rw [Function.update_self, Function.update_of_ne hne]
      exact hothers j ((h.mem j).mp hin).1 hne
    · refine (h.sorted.sublist List.erase_sublist).imp_of_mem ?_
      intro j k hj hk hlt
      rwa [Function.update_of_ne ((hmem j).mp hj).1, Function.update_of_ne ((hmem k).mp hk).1]

theorem Recent.swap (h : Recent n stamp order) {a b : Nat} (ha : a < n) (hb : b < n) :
    Recent n (fun i => stamp (Equiv.swap a b i)) (order.map (Equiv.swap a b)) := by
  have hlt : ∀ i, Equiv.swap a b i < n ↔ i < n := by
    intro i
    rw [Equiv.swap_apply_def]
    split_ifs with h1 h2
    · subst h1
      exact ⟨fun _ => ha, fun _ => hb⟩
    · subst h2
      exact ⟨fun _ => hb, fun _ => ha⟩
    · exact Iff.rfl
  constructor
  · intro i
    rw [List.mem_map]
    constructor
    · rintro ⟨j, hj, rfl⟩
      rw [Equiv.swap_apply_self, hlt]
      exact (h.mem j).mp hj
    · intro hi
      exact ⟨Equiv.swap a b i, (h.mem _).mpr ⟨(hlt i).mpr hi.1, hi.2⟩, Equiv.swap_apply_self a b i⟩
  · rw [List.pairwise_map]
    refine h.sorted.imp ?_
    intro i j hij
    rwa [Equiv.swap_apply_self, Equiv.swap_apply_self]

theorem Recent.erase_min (h : Recent n stamp order) (hv : v < n) (h0 : stamp v ≠ 0)
    (hmin : ∀ i, i < n → stamp v ≤ stamp i) : order.getLast? = some v ∧ order.erase v = order.dropLast := by
  have hmem : v ∈ order := (h.mem v).mpr ⟨hv, h0⟩
  have hne : order ≠ [] := List.ne_nil_of_mem hmem
  have hconcat := List.dropLast_append_getLast hne
  have hsorted := h.sorted
  have hnodup := h.nodup
  rw [← hconcat, List.pairwise_append] at hsorted
  have hlast : order.getLast hne = v := by
    by_contra hother
    rw [← hconcat, List.mem_append, List.mem_singleton] at hmem
    have hlt := hsorted.2.2 v (hmem.resolve_right (Ne.symm hother)) _ (List.mem_singleton_self _)
    exact absurd hlt (not_lt.mpr (hmin _ ((h.mem _).mp (List.getLast_mem hne)).1))
  refine ⟨by rw [List.getLast?_eq_some_getLast hne, hlast], ?_⟩
  rw [hlast] at hconcat
  rw [← hconcat] at hnodup
  have hnot : v ∉ order.dropLast := fun hin =>
    (List.nodup_append.mp hnodup).2.2 v hin v (List.mem_singleton_self v) rfl
  nth_rewrite 1 [← hconcat]
  rw [List.erase_append_right _ hnot, List.erase_cons_head, List.append_nil]

end Mambo.Recency
