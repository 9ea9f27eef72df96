import Mambo.CacheSim
import Mambo.LruCache
import Mambo.Recency

namespace Mambo.CacheSets

open CacheSim LruCache Recency

def block (l : Line) : Block := ⟨l.tag >>> 1, l.tag &&& 1 ≠ 0⟩

def blocksOf (ways : Nat → Line) (order : List Nat) : List Block := order.map fun i => block (ways i)

/-- The ways of a set hold different lines in the order of their timestamps. A
way that was never used has the tag 0 that calloc gave it. -/
structure Represents (assoc : Nat) (ways : Nat → Line) (order : List Nat) : Prop where
  recent : Recent assoc (fun i => (ways i).timestamp) order
  unused : ∀ i, i < assoc → (ways i).timestamp = 0 → (ways i).tag = 0
  distinct : ∀ i ∈ order, ∀ j ∈ order, (ways i).tag >>> 1 = (ways j).tag >>> 1 → i = j

variable {assoc now i v t : Nat} {ways ways' : Nat → Line} {order : List Nat} {l : Line}

theorem or_one_eq (n : Nat) : n ||| 1 = 2 * (n / 2) + 1 := by
  apply Nat.eq_of_testBit_eq
  intro k
  cases k with
  | zero => simp [Nat.testBit_zero]
  | succ k => simp [Nat.testBit_succ, Nat.mul_add_div, Nat.or_div_two]

theorem or_one_shift (n : Nat) : (n ||| 1) >>> 1 = n >>> 1 := by
  rw [or_one_eq, Nat.shiftRight_one, Nat.shiftRight_one]
  omega

theorem block_dirty (tag timestamp : Nat) (isWrite : Bool) :
    block ⟨if isWrite then tag ||| 1 else tag, timestamp⟩ = ⟨tag >>> 1, (decide (tag &&& 1 ≠ 0)) || isWrite⟩ := by
  cases isWrite with
  | false => simp [block]
  | true => simp [block, or_one_shift]

theorem Represents.congr (h : Represents assoc ways order) (heq : ∀ i, i < assoc → ways' i = ways i) :
    Represents assoc ways' order ∧ blocksOf ways' order = blocksOf ways order := by
  have hmem : ∀ i, i ∈ order → ways' i = ways i := fun i hi => heq i ((h.recent.mem i).mp hi).1
  refine ⟨⟨h.recent.congr fun i hi => by rw [heq i hi], ?_, ?_⟩, ?_⟩
  · intro i hi
    rw [heq i hi]
    exact h.unused i hi
  · intro i hi j hj
    rw [hmem i hi, hmem j hj]
    exact h.distinct i hi j hj
  · exact List.map_congr_left fun i hi => by rw [hmem i hi]

theorem Represents.put (h : Represents assoc ways order) (hv : v < assoc) (hnow : 0 < l.timestamp)
    (hothers : ∀ j, j < assoc → j ≠ v → (ways j).timestamp < l.timestamp)
    (htag : ∀ j ∈ order, j ≠ v → (ways j).tag >>> 1 ≠ l.tag >>> 1) :
    Represents assoc (Function.update ways v l) (v :: order.erase v) ∧
      blocksOf (Function.update ways v l) (v :: order.erase v) = block l :: blocksOf ways (order.erase v) := by
  have hmem : ∀ j, j ∈ order.erase v ↔ j ≠ v ∧ j ∈ order := fun j => h.recent.nodup.mem_erase_iff
  have hstamps : (fun i => (Function.update ways v l i).timestamp) =
      Function.update (fun i => (ways i).timestamp) v l.timestamp := by
    funext i
    by_cases hi : i = v
    · subst hi
      rw [Function.update_self, Function.update_self]
    · rw [Function.update_of_ne hi, Function.update_of_ne hi]
  refine ⟨⟨?_, ?_, ?_⟩, ?_⟩
  · rw [hstamps]
    exact h.recent.use hv hnow hothers
  · intro i hi h0
    by_cases hiv : i = v
    · subst hiv
      rw [Function.update_self] at h0
      omega
    · rw [Function.update_of_ne hiv] at h0 ⊢
      exact h.unused i hi h0
  · intro i hi j hj heq
    rcases List.mem_cons.mp hi with rfl | hi
    · rcases List.mem_cons.mp hj with rfl | hj
      · rfl
      · obtain ⟨hne, hin⟩ := (hmem j).mp hj
        rw [Function.update_self, Function.update_of_ne hne] at heq
        exact absurd heq.symm (htag j hin hne)
    · obtain ⟨hne, hin⟩ := (hmem i).mp hi
      rcases List.mem_cons.mp hj with rfl | hj
      · rw [Function.update_self, Function.update_of_ne hne] at heq
        exact absurd heq (htag i hin hne)
      · obtain ⟨hne', hin'⟩ := (hmem j).mp hj
        rw [Function.update_of_ne hne, Function.update_of_ne hne'] at heq
        exact h.distinct i hin j hin' heq
  · rw [blocksOf, List.map_cons, Function.update_self]
    refine congrArg (block l :: ·) (List.map_congr_left ?_)
    intro j hj
    rw [Function.update_of_ne ((hmem j).mp hj).1]

theorem Represents.swap (h : Represents assoc ways order) {a b : Nat} (ha : a < assoc) (hb : b < assoc) :
    Represents assoc (fun i => ways (Equiv.swap a b i)) (order.map (Equiv.swap a b)) := by
  have hlt : ∀ i, i < assoc → Equiv.swap a b i < assoc := by
    intro i hi
    rw [Equiv.swap_apply_def]
    split_ifs
    · exact hb
    · exact ha
    · exact hi
  refine ⟨h.recent.swap ha hb, fun i hi => h.unused _ (hlt i hi), ?_⟩
  intro i hi j hj heq
  obtain ⟨i', hi', rfl⟩ := List.mem_map.mp hi
  obtain ⟨j', hj', rfl⟩ := List.mem_map.mp hj
  rw [Equiv.swap_apply_self, Equiv.swap_apply_self] at heq
  rw [h.distinct i' hi' j' hj' heq]

theorem Represents.mark (h : Represents assoc ways order) (hi : i ∈ order) (htag : l.tag >>> 1 = (ways i).tag >>> 1)
    (hstamp : l.timestamp = (ways i).timestamp) : Represents assoc (Function.update ways i l) order := by
  have hstamps : ∀ j, (Function.update ways i l j).timestamp = (ways j).timestamp := by
    intro j
    by_cases hj : j = i
    · subst hj
      rw [Function.update_self, hstamp]
    · rw [Function.update_of_ne hj]
  have htags : ∀ j, (Function.update ways i l j).tag >>> 1 = (ways j).tag >>> 1 := by
    intro j
    by_cases hj : j = i
    · subst hj
      rw [Function.update_self, htag]
    · rw [Function.update_of_ne hj]
  refine ⟨h.recent.congr fun j _ => hstamps j, ?_, ?_⟩
  · intro j hj h0
    have hne : j ≠ i := by
      rintro rfl
      exact ((h.recent.mem j).mp hi).2 ((hstamps j).symm.trans h0)
    rw [hstamps] at h0
    rw [Function.update_of_ne hne]
    exact h.unused j hj h0
  · intro j hj k hk heq
    rw [htags, htags] at heq
    exact h.distinct j hj k hk heq

theorem Represents.find (h : Represents assoc ways order) (hi : i ∈ order) (htag : (ways i).tag >>> 1 = t) :
    (blocksOf ways order).find? (·.tag = t) = some (block (ways i)) ∧
      (blocksOf ways order).eraseP (·.tag = t) = blocksOf ways (order.erase i) := by
  have hiff : ∀ j ∈ order, (block (ways j)).tag = t ↔ j = i := by
    intro j hj
    constructor
    · intro hj'
      exact h.distinct j hj i hi (hj'.trans htag.symm)
    · rintro rfl
      exact htag
  clear h htag
  induction order with
  | nil => exact nomatch hi
  | cons j rest ih =>
      rw [blocksOf, List.map_cons]
      by_cases hj : j = i
      · subst hj
        have ht := (hiff j List.mem_cons_self).mpr rfl
        rw [List.find?_cons_of_pos (by simpa using ht), List.eraseP_cons_of_pos (by simpa using ht),
          List.erase_cons_head]
        exact ⟨rfl, rfl⟩
      · have ht : ¬ (block (ways j)).tag = t := fun ht => hj ((hiff j List.mem_cons_self).mp ht)
        have hrest : i ∈ rest := (List.mem_cons.mp hi).resolve_left (Ne.symm hj)
        obtain ⟨hfind, herase⟩ := ih hrest fun k hk => hiff k (List.mem_cons_of_mem _ hk)
        rw [List.find?_cons_of_neg (by simpa using ht), List.eraseP_cons_of_neg (by simpa using ht),
          List.erase_cons_tail (by simpa using hj)]
        exact ⟨hfind, congrArg (block (ways j) :: ·) herase⟩

theorem find_none (hnone : ∀ i ∈ order, (ways i).tag >>> 1 ≠ t) :
    (blocksOf ways order).find? (·.tag = t) = none := by
  rw [List.find?_eq_none]
  intro b hb
  obtain ⟨i, hi, rfl⟩ := List.mem_map.mp hb
  simpa [block] using hnone i hi

theorem Represents.replaced (h : Represents assoc ways order) (hv : v < assoc)
    (hmin : ∀ i, i < assoc → (ways v).timestamp ≤ (ways i).timestamp) :
    blocksOf ways (order.erase v) = remaining assoc (blocksOf ways order) ∧
      (victim assoc (blocksOf ways order)).any (·.dirty) = decide ((ways v).tag &&& 1 ≠ 0) := by
  have hlen : (blocksOf ways order).length = order.length := List.length_map _
  by_cases h0 : (ways v).timestamp = 0
  · have hlt := h.recent.length_lt hv h0
    have hnot : v ∉ order := fun hin => ((h.recent.mem v).mp hin).2 h0
    rw [remaining, victim, if_neg (by omega), if_neg (by omega), List.erase_of_not_mem hnot, h.unused v hv h0]
    exact ⟨rfl, rfl⟩
  · have hall : ∀ i, i < assoc → i ∈ order := by
      intro i hi
      have := hmin i hi
      exact (h.recent.mem i).mpr ⟨hi, by omega⟩
    have hfull : order.length = assoc := by
      have hsub : List.range assoc ⊆ order := fun i hi => hall i (List.mem_range.mp hi)
      have hle := (List.nodup_range.subperm hsub).length_le
      rw [List.length_range] at hle
      exact le_antisymm h.recent.length_le hle
    obtain ⟨hlast, herase⟩ := h.recent.erase_min hv h0 hmin
    rw [remaining, victim, if_pos (hlen.trans hfull), if_pos (hlen.trans hfull), herase, blocksOf, blocksOf,
      List.getLast?_map, hlast, List.map_dropLast]
    exact ⟨rfl, rfl⟩

end Mambo.CacheSets
