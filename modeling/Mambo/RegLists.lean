import Mathlib.Data.BitVec
import Mathlib.Data.List.Range
import Mathlib.Tactic.Common

namespace Mambo.RegLists

section Loops

def regInvalid : Nat := 32

def lastReg : Nat := 31

def nextRegInList (reglist : BitVec 32) (start : Nat) : Nat :=
  if start ≤ lastReg then if reglist.getLsbD start then start else nextRegInList reglist (start + 1)
  else regInvalid
termination_by 32 - start
decreasing_by
  rename_i h _
  have hle : start ≤ 31 := h
  omega

def clear (regs : BitVec 32) (reg : Nat) : BitVec 32 := regs &&& ~~~((1 : BitVec 32) <<< reg)

variable {regs : BitVec 32} {k : Nat}

theorem getLsbD_clear (i : Nat) : (clear regs k).getLsbD i = (regs.getLsbD i && decide (i ≠ k)) := by
  by_cases hi : i < 32
  · rw [clear, BitVec.getLsbD_and, BitVec.getLsbD_not, BitVec.getLsbD_shiftLeft]
    by_cases hk : i = k
    · simp [hk]
    · by_cases hlt : i < k
      · simp [hi, hk, hlt]
      · have hpos : i - k ≠ 0 := by omega
        simp [hi, hk, hlt, hpos]
  · rw [BitVec.getLsbD_of_ge _ _ (by omega), BitVec.getLsbD_of_ge _ _ (by omega), Bool.false_and]

theorem clear_lt (h : regs.getLsbD k = true) : (clear regs k).toNat < regs.toNat := by
  refine lt_of_le_of_ne ?_ fun heq => ?_
  · rw [clear, BitVec.toNat_and]
    exact Nat.and_le_left
  · have hsame : clear regs k = regs := BitVec.eq_of_toNat_eq heq
    have hbit : (clear regs k).getLsbD k = false := by simp [getLsbD_clear]
    rw [hsame, h] at hbit
    exact absurd hbit (by decide)

structure Lowest (regs : BitVec 32) (k : Nat) : Prop where
  bit : regs.getLsbD k = true
  below : ∀ j, j < k → regs.getLsbD j = false

structure Highest (regs : BitVec 32) (k : Nat) : Prop where
  bit : regs.getLsbD k = true
  above : ∀ j, k < j → regs.getLsbD j = false

theorem lt_of_bit (h : regs.getLsbD k = true) : k < 32 := by
  by_contra hge
  rw [BitVec.getLsbD_of_ge _ _ (by omega)] at h
  exact absurd h (by decide)

theorem exists_bit (h : regs ≠ 0) : ∃ k, regs.getLsbD k = true := by
  by_contra hnone
  refine h (BitVec.eq_of_getLsbD_eq fun i _ => ?_)
  rw [show (0 : BitVec 32) = 0#32 from rfl, BitVec.getLsbD_zero]
  by_contra hbit
  exact hnone ⟨i, by simpa using hbit⟩

theorem exists_lowest (h : regs ≠ 0) : ∃ k, Lowest regs k := by
  have hex := exists_bit h
  refine ⟨Nat.find hex, Nat.find_spec hex, fun j hj => ?_⟩
  simpa using Nat.find_min hex hj

theorem nextRegInList_eq {start : Nat} (hbit : regs.getLsbD k = true) (hle : start ≤ k)
    (hnone : ∀ j, start ≤ j → j < k → regs.getLsbD j = false) : nextRegInList regs start = k := by
  have hk := lt_of_bit hbit
  induction hn : k - start generalizing start with
  | zero =>
      obtain rfl : start = k := by omega
      rw [nextRegInList, if_pos (show start ≤ lastReg by rw [lastReg]; omega), if_pos hbit]
  | succ n ih =>
      rw [nextRegInList, if_pos (show start ≤ lastReg by rw [lastReg]; omega),
        if_neg (by rw [hnone start le_rfl (by omega)]; decide)]
      exact ih (by omega) (fun j hj hjk => hnone j (by omega) hjk) (by omega)

theorem nextRegInList_none {start : Nat} (hnone : ∀ j, start ≤ j → regs.getLsbD j = false) :
    nextRegInList regs start = regInvalid := by
  induction hn : 32 - start generalizing start with
  | zero => rw [nextRegInList, if_neg (show ¬ start ≤ lastReg by rw [lastReg]; omega)]
  | succ n ih =>
      rw [nextRegInList, if_pos (show start ≤ lastReg by rw [lastReg]; omega),
        if_neg (by rw [hnone start le_rfl]; decide)]
      exact ih (fun j hj => hnone j (by omega)) (by omega)

theorem Lowest.next (h : Lowest regs k) : nextRegInList regs 0 = k :=
  nextRegInList_eq h.bit (Nat.zero_le k) fun j _ hj => h.below j hj

theorem next_bit (h : regs ≠ 0) : regs.getLsbD (nextRegInList regs 0) = true := by
  obtain ⟨k, hk⟩ := exists_lowest h
  rw [hk.next]
  exact hk.bit

theorem lowest_induction {P : BitVec 32 → Prop} (zero : P 0)
    (step : ∀ regs k, Lowest regs k → P (clear regs k) → P regs) (regs : BitVec 32) : P regs := by
  induction hn : regs.toNat using Nat.strong_induction_on generalizing regs with
  | _ n ih =>
      by_cases h : regs = 0
      · rw [h]
        exact zero
      · obtain ⟨k, hk⟩ := exists_lowest h
        exact step regs k hk (ih _ (hn ▸ clear_lt hk.bit) _ rfl)

end Loops

section Members

variable {regs : BitVec 32} {k : Nat}

def members (regs : BitVec 32) : List Nat := (List.range 32).filter fun k => regs.getLsbD k

theorem mem_members : k ∈ members regs ↔ regs.getLsbD k = true := by
  rw [members, List.mem_filter, List.mem_range]
  exact ⟨And.right, fun h => ⟨lt_of_bit h, h⟩⟩

theorem members_sorted : (members regs).Pairwise (· < ·) := List.pairwise_lt_range.filter _

theorem members_length_le : (members regs).length ≤ 32 := by
  have hle := List.length_filter_le (fun k => regs.getLsbD k) (List.range 32)
  rwa [List.length_range] at hle

theorem members_zero : members 0 = [] := by
  decide

theorem members_eq {xs : List Nat} (hsorted : xs.Pairwise (· < ·)) (hmem : ∀ k, k ∈ xs ↔ regs.getLsbD k = true) :
    members regs = xs :=
  members_sorted.eq_of_mem_iff hsorted fun k => mem_members.trans (hmem k).symm

theorem members_or {new : BitVec 32} (hbelow : ∀ j k, new.getLsbD j = true → regs.getLsbD k = true → j < k) :
    members (regs ||| new) = members new ++ members regs := by
  refine members_eq (List.pairwise_append.mpr ⟨members_sorted, members_sorted, fun j hj k hk => ?_⟩) fun k => ?_
  · exact hbelow j k (mem_members.mp hj) (mem_members.mp hk)
  · rw [List.mem_append, mem_members, mem_members, BitVec.getLsbD_or, Bool.or_eq_true, or_comm]

theorem Lowest.members (h : Lowest regs k) : members regs = k :: members (clear regs k) := by
  refine members_eq (List.pairwise_cons.mpr ⟨fun i hi => ?_, members_sorted⟩) fun i => ?_
  · rw [mem_members, getLsbD_clear] at hi
    obtain ⟨hbit, hne⟩ := Bool.and_eq_true_iff.mp hi
    by_contra hle
    rw [h.below i (by have := of_decide_eq_true hne; omega)] at hbit
    exact absurd hbit (by decide)
  · rw [List.mem_cons, mem_members, getLsbD_clear]
    by_cases hi : i = k
    · simp [hi, h.bit]
    · simp [hi]

theorem Highest.members (h : Highest regs k) : members regs = members (clear regs k) ++ [k] := by
  refine members_eq (List.pairwise_append.mpr ⟨members_sorted, List.pairwise_singleton _ _, fun i hi j hj => ?_⟩)
    fun i => ?_
  · rw [mem_members, getLsbD_clear] at hi
    obtain ⟨hbit, hne⟩ := Bool.and_eq_true_iff.mp hi
    rw [List.mem_singleton.mp hj]
    by_contra hle
    rw [h.above i (by have := of_decide_eq_true hne; omega)] at hbit
    exact absurd hbit (by decide)
  · rw [List.mem_append, List.mem_singleton, mem_members, getLsbD_clear]
    by_cases hi : i = k
    · simp [hi, h.bit]
    · simp [hi]

theorem Lowest.and_sub_one (h : Lowest regs k) : regs &&& (regs - 1) = clear regs k := by
  have hk := lt_of_bit h.bit
  have hmod : regs.toNat % 2 ^ (k + 1) = 2 ^ k := by
    apply Nat.eq_of_testBit_eq
    intro i
    rw [Nat.testBit_mod_two_pow, Nat.testBit_two_pow]
    by_cases hi : i < k
    · have hbit : regs.toNat.testBit i = false := h.below i hi
      simp [hbit, show ¬ k = i by omega]
    · by_cases heq : i = k
      · have hbit : regs.toNat.testBit k = true := h.bit
        simp [heq, hbit]
      · simp [show ¬ i < k + 1 by omega, show ¬ k = i by omega]
  have hsplit := Nat.div_add_mod regs.toNat (2 ^ (k + 1))
  rw [hmod] at hsplit
  generalize regs.toNat / 2 ^ (k + 1) = q at hsplit
  have hpos := Nat.two_pow_pos k
  have hsub : (regs - 1).toNat = 2 ^ (k + 1) * q + (2 ^ k - 1) := by
    have hlt := regs.isLt
    have hone : (regs - 1).toNat = regs.toNat - 1 := by
      rw [BitVec.toNat_sub_of_le (BitVec.le_def.mpr (by show 1 ≤ regs.toNat; omega))]
      rfl
    omega
  apply BitVec.eq_of_getLsbD_eq
  intro i hi
  rw [BitVec.getLsbD_and, getLsbD_clear]
  by_cases hlow : i < k
  · rw [h.below i hlow, Bool.false_and, Bool.false_and]
  · have hminus : (regs - 1).getLsbD i = if i < k + 1 then (2 ^ k - 1).testBit i
        else q.testBit (i - (k + 1)) := by
      rw [BitVec.getLsbD, hsub]
      exact Nat.testBit_two_pow_mul_add _ (by omega) i
    have hsame : regs.getLsbD i = if i < k + 1 then (2 ^ k).testBit i
        else q.testBit (i - (k + 1)) := by
      rw [BitVec.getLsbD, ← hsplit]
      exact Nat.testBit_two_pow_mul_add _ (by omega) i
    by_cases heq : i = k
    · rw [hminus, if_pos (by omega), Nat.testBit_two_pow_sub_one, decide_eq_false hlow, Bool.and_false,
        decide_eq_false (not_not.mpr heq), Bool.and_false]
    · rw [hminus, if_neg (by omega), hsame, if_neg (by omega), Bool.and_self, decide_eq_true heq, Bool.and_true]

def countBits (n : BitVec 32) : Nat := if n = 0 then 0 else countBits (n &&& (n - 1)) + 1
termination_by n.toNat
decreasing_by
  rename_i h
  obtain ⟨k, hk⟩ := exists_lowest h
  rw [hk.and_sub_one]
  exact clear_lt hk.bit

theorem Lowest.ne_zero (h : Lowest regs k) : regs ≠ 0 := by
  rintro rfl
  exact absurd h.bit (by simp)

theorem countBits_eq (regs : BitVec 32) : countBits regs = (RegLists.members regs).length := by
  induction regs using lowest_induction with
  | zero => rw [countBits, if_pos rfl, members_zero, List.length_nil]
  | step regs k hk ih => rw [countBits, if_neg hk.ne_zero, hk.and_sub_one, ih, hk.members, List.length_cons]

end Members

end Mambo.RegLists
