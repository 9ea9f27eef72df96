import Mambo.A64Stack

namespace Mambo.RegListHelpers

section Helpers

inductive Processor
  | aarch32
  | aarch64
  | riscv
  deriving DecidableEq

def lastReg : Processor → Nat
  | .aarch32 => 15
  | .aarch64 | .riscv => 31

def regInvalid (p : Processor) : Nat := lastReg p + 1

variable (p : Processor) (reglist : BitVec 32)

def nextRegInList (start : Nat) : Nat :=
  if start ≤ lastReg p then if reglist.getLsbD start then start else nextRegInList (start + 1)
  else regInvalid p
termination_by lastReg p + 1 - start

/-- A shift by more than 31 is left open, so below the first register, where start goes on with its
largest value, there is no result. -/
def lastRegInList (start : BitVec 32) : Option Nat :=
  if start.toNat > 31 then none
  else if reglist.getLsbD start.toNat then some start.toNat
  else if start = 0 then none
  else lastRegInList (start - 1)
termination_by start.toNat
decreasing_by
  rename_i hne
  have hpos : start.toNat ≠ 0 := fun h => hne (BitVec.eq_of_toNat_eq h)
  rw [BitVec.toNat_sub_of_le (BitVec.le_def.mpr (by show 1 ≤ start.toNat; omega))]
  show start.toNat - 1 < start.toNat
  omega

/-- The rounds of a search from a register on: what is counted, and the slots. -/
def lowestFrom : Nat → Nat → Nat × List Nat
  | 0, _ => (0, [])
  | n + 1, start =>
    let reg := nextRegInList p reglist start
    let rest := lowestFrom n (reg + 1)
    ((if reg < regInvalid p then 1 else 0) + rest.1, reg :: rest.2)

def getLowestNRegs (n : Int) : Nat × List Nat := if n < 1 then (0, []) else lowestFrom p reglist n.toNat 0

def highestFrom : Nat → BitVec 32 → Option (Nat × List Nat)
  | 0, _ => some (0, [])
  | n + 1, prev => do
    let reg ← lastRegInList reglist (prev - 1)
    let rest ← highestFrom n (BitVec.ofNat 32 reg)
    return ((if reg < regInvalid p then 1 else 0) + rest.1, reg :: rest.2)

def getHighestNRegs (n : Int) : Option (Nat × List Nat) :=
  if n < 1 then some (0, []) else highestFrom p reglist n.toNat (BitVec.ofNat 32 (regInvalid p))

end Helpers

section Sets

/-- The registers of a set, in ascending order. -/
def regs (p : Processor) (reglist : BitVec 32) : List Nat :=
  (List.range (lastReg p + 1)).filter fun k => reglist.getLsbD k

/-- As many slots as wanted: the first registers in an order, then the invalid one. -/
def slots (p : Processor) (ordered : List Nat) (n : Int) : Nat × List Nat :=
  (min n.toNat ordered.length, ordered.take n.toNat ++ List.replicate (n.toNat - ordered.length) (regInvalid p))

variable {p : Processor} {reglist : BitVec 32} {start k : Nat}

theorem regs_sorted (p : Processor) (reglist : BitVec 32) : (regs p reglist).Pairwise (· < ·) :=
  List.pairwise_lt_range.filter _

theorem mem_regs : k ∈ regs p reglist ↔ k ≤ lastReg p ∧ reglist.getLsbD k = true := by
  rw [regs, List.mem_filter, List.mem_range, Nat.lt_succ_iff]

/-- The registers from one on, and the ones below one, highest first. -/
def above (p : Processor) (reglist : BitVec 32) (start : Nat) : List Nat :=
  (List.range' start (lastReg p + 1 - start)).filter fun k => reglist.getLsbD k

def below (reglist : BitVec 32) (start : Nat) : List Nat :=
  ((List.range start).filter fun k => reglist.getLsbD k).reverse

theorem above_zero : above p reglist 0 = regs p reglist := by
  rw [above, regs, List.range_eq_range', Nat.sub_zero]

theorem above_succ (h : start ≤ lastReg p) : above p reglist start =
    if reglist.getLsbD start then start :: above p reglist (start + 1) else above p reglist (start + 1) := by
  have hlen : lastReg p + 1 - start = lastReg p + 1 - (start + 1) + 1 := by omega
  rw [above, hlen, List.range'_succ, List.filter_cons, ← above]

theorem above_past (h : lastReg p < start) : above p reglist start = [] := by
  rw [above, show lastReg p + 1 - start = 0 by omega]
  rfl

theorem below_succ : below reglist (start + 1) =
    if reglist.getLsbD start then start :: below reglist start else below reglist start := by
  rw [below, List.range_succ, List.filter_append, List.reverse_append, ← below]
  by_cases hbit : reglist.getLsbD start
  · rw [if_pos hbit, List.filter_cons_of_pos hbit]
    rfl
  · rw [if_neg hbit, List.filter_cons_of_neg hbit]
    rfl

theorem below_regs : below reglist (regInvalid p) = (regs p reglist).reverse := rfl

end Sets

section Lowest

variable {p : Processor} {reglist : BitVec 32} {start n : Nat}

/-- A search finds the first register from its start on, or there is none. -/
theorem nextRegInList_spec (p : Processor) (reglist : BitVec 32) (start : Nat) :
    above p reglist start = [] ∧ nextRegInList p reglist start = regInvalid p ∨
      nextRegInList p reglist start < regInvalid p ∧
        above p reglist start =
          nextRegInList p reglist start :: above p reglist (nextRegInList p reglist start + 1) := by
  induction hn : lastReg p + 1 - start generalizing start with
  | zero =>
      rw [nextRegInList, if_neg (show ¬start ≤ lastReg p by omega)]
      exact .inl ⟨above_past (by omega), rfl⟩
  | succ m ih =>
      have hle : start ≤ lastReg p := by omega
      rw [nextRegInList, if_pos hle, above_succ hle]
      by_cases hbit : reglist.getLsbD start
      · rw [if_pos hbit, if_pos hbit]
        exact .inr ⟨Nat.lt_succ_of_le hle, rfl⟩
      · rw [if_neg hbit, if_neg hbit]
        exact ih (start + 1) (by omega)

theorem lowestFrom_eq (p : Processor) (reglist : BitVec 32) (n start : Nat) :
    lowestFrom p reglist n start = slots p (above p reglist start) n := by
  induction n generalizing start with
  | zero => rw [lowestFrom, slots]; simp
  | succ n ih =>
      rw [lowestFrom]
      rcases nextRegInList_spec p reglist start with ⟨hnone, hreg⟩ | ⟨hlt, hcons⟩
      · have hpast : above p reglist (regInvalid p + 1) = [] := above_past (by rw [regInvalid]; omega)
        rw [hreg, if_neg (lt_irrefl _), ih, hpast, hnone, slots, slots]
        simp [List.replicate_succ]
      · rw [if_pos hlt, ih, hcons, slots, slots]
        simp
        omega

theorem getLowestNRegs_eq (p : Processor) (reglist : BitVec 32) (n : Int) :
    getLowestNRegs p reglist n = slots p (regs p reglist) n := by
  rw [getLowestNRegs]
  split
  next h => rw [slots, show n.toNat = 0 by omega]; simp
  next h =>
    rw [lowestFrom_eq, above_zero, slots, slots, Int.toNat_natCast]

end Lowest

section Highest

variable {p : Processor} {reglist : BitVec 32} {k n : Nat}

theorem ofNat_sub_one (hpos : 0 < k) (hk : k ≤ 32) : (BitVec.ofNat 32 k - 1).toNat = k - 1 := by
  have hnat : (BitVec.ofNat 32 k).toNat = k := by rw [BitVec.toNat_ofNat, Nat.mod_eq_of_lt (by omega)]
  rw [BitVec.toNat_sub_of_le (BitVec.le_def.mpr (by rw [hnat]; exact hpos)), hnat]
  rfl

/-- A search goes down to the first register below its start, and does not end where there is none. -/
theorem lastRegInList_spec (reglist : BitVec 32) (hk : k ≤ 32) :
    lastRegInList reglist (BitVec.ofNat 32 k - 1) = none ∧ below reglist k = [] ∨
      ∃ r < k, lastRegInList reglist (BitVec.ofNat 32 k - 1) = some r ∧ below reglist k = r :: below reglist r := by
  induction k with
  | zero =>
      refine .inl ⟨?_, rfl⟩
      rw [lastRegInList, if_pos (by decide)]
  | succ k ih =>
      have hnat : (BitVec.ofNat 32 (k + 1) - 1).toNat = k := ofNat_sub_one k.succ_pos hk
      rw [lastRegInList, if_neg (by omega), hnat, below_succ]
      by_cases hbit : reglist.getLsbD k
      · rw [if_pos hbit, if_pos hbit]
        exact .inr ⟨k, by omega, rfl, rfl⟩
      · have hstart : BitVec.ofNat 32 (k + 1) - 1 = BitVec.ofNat 32 k := by
          apply BitVec.eq_of_toNat_eq
          rw [hnat, BitVec.toNat_ofNat, Nat.mod_eq_of_lt (by omega)]
        rw [if_neg hbit, if_neg hbit, hstart]
        by_cases hzero : k = 0
        · subst hzero
          exact .inl ⟨if_pos rfl, rfl⟩
        · have hne : BitVec.ofNat 32 k ≠ 0 := by
            intro h
            have hval := congrArg BitVec.toNat h
            rw [BitVec.toNat_ofNat, Nat.mod_eq_of_lt (by omega)] at hval
            exact hzero hval
          rw [if_neg hne]
          rcases ih (by omega) with hnone | ⟨r, hr, hsome⟩
          · exact .inl hnone
          · exact .inr ⟨r, by omega, hsome⟩

theorem highestFrom_eq (p : Processor) (reglist : BitVec 32) (n : Nat) (hk : k ≤ regInvalid p) :
    highestFrom p reglist n (BitVec.ofNat 32 k) =
      if n ≤ (below reglist k).length then some (slots p (below reglist k) n) else none := by
  have hle : regInvalid p ≤ 32 := by cases p <;> decide
  induction n generalizing k with
  | zero => rw [highestFrom, if_pos (Nat.zero_le _), slots]; simp
  | succ n ih =>
      rw [highestFrom]
      rcases lastRegInList_spec reglist (hk.trans hle) with ⟨hnone, hempty⟩ | ⟨r, hr, hsome, hcons⟩
      · rw [hnone, hempty, if_neg (by simp)]
        rfl
      · rw [hsome, Option.bind_eq_bind, Option.bind_some, ih (by omega), hcons, List.length_cons]
        rw [if_pos (show r < regInvalid p by omega)]
        by_cases hn : n ≤ (below reglist r).length
        · rw [if_pos hn, if_pos (show n + 1 ≤ (below reglist r).length + 1 by omega)]
          simp [slots]
          omega
        · rw [if_neg hn, if_neg (show ¬n + 1 ≤ (below reglist r).length + 1 by omega)]
          rfl

theorem getHighestNRegs_eq (p : Processor) (reglist : BitVec 32) (n : Int) :
    getHighestNRegs p reglist n =
      if n ≤ (regs p reglist).length then some (slots p (regs p reglist).reverse n) else none := by
  rw [getHighestNRegs]
  split
  next h => rw [if_pos (by omega), slots, show n.toNat = 0 by omega]; simp
  next h =>
    rw [highestFrom_eq p reglist _ (le_refl _), below_regs, List.length_reverse, slots, slots, Int.toNat_natCast]
    by_cases hn : n ≤ (regs p reglist).length
    · rw [if_pos hn, if_pos (by omega)]
    · rw [if_neg hn, if_neg (by omega)]

end Highest

section Models

variable {reglist : BitVec 32} {start : Nat}

theorem nextRegInList_a64 (reglist : BitVec 32) (start : Nat) :
    nextRegInList .aarch64 reglist start = RegLists.nextRegInList reglist start := by
  induction hn : 32 - start generalizing start with
  | zero =>
      rw [nextRegInList, if_neg (show ¬start ≤ lastReg .aarch64 by rw [lastReg]; omega), RegLists.nextRegInList,
        if_neg (show ¬start ≤ RegLists.lastReg by rw [RegLists.lastReg]; omega)]
      rfl
  | succ m ih =>
      rw [nextRegInList, if_pos (show start ≤ lastReg .aarch64 by rw [lastReg]; omega), RegLists.nextRegInList,
        if_pos (show start ≤ RegLists.lastReg by rw [RegLists.lastReg]; omega), ih (start + 1) (by omega)]

theorem lastRegInList_a64 (hstart : start ≤ 31) :
    lastRegInList reglist (BitVec.ofNat 32 start) = A64Stack.lastRegInList reglist start := by
  have hnat (k : Nat) (hk : k ≤ 31) : (BitVec.ofNat 32 k).toNat = k := by
    rw [BitVec.toNat_ofNat, Nat.mod_eq_of_lt (by omega)]
  induction start with
  | zero =>
      rw [lastRegInList, hnat 0 hstart, if_neg (by decide), if_pos (show (0#32) = 0 from rfl)]
      rfl
  | succ start ih =>
      have hpred : BitVec.ofNat 32 (start + 1) - 1 = BitVec.ofNat 32 start := by
        apply BitVec.eq_of_toNat_eq
        rw [ofNat_sub_one start.succ_pos (by omega), hnat start (by omega)]
        rfl
      have hne : BitVec.ofNat 32 (start + 1) ≠ 0 := by
        intro hzero
        have hval := congrArg BitVec.toNat hzero
        rw [hnat (start + 1) hstart] at hval
        exact start.succ_ne_zero hval
      rw [lastRegInList, hnat (start + 1) hstart, if_neg (by omega), if_neg hne, hpred, ih (by omega)]
      rfl

end Models

/-- The lowest registers are always found. The highest are just when there are as many as wanted. -/
theorem n_regs_iff (p : Processor) (reglist : BitVec 32) (n : Int) :
    getLowestNRegs p reglist n = slots p (regs p reglist) n ∧
      (getHighestNRegs p reglist n = some (slots p (regs p reglist).reverse n) ↔ n ≤ (regs p reglist).length) := by
  refine ⟨getLowestNRegs_eq p reglist n, ?_⟩
  rw [getHighestNRegs_eq]
  by_cases hn : n ≤ (regs p reglist).length
  · exact iff_of_true (if_pos hn) hn
  · rw [if_neg hn]
    exact iff_of_false (fun h => by cases h) hn

theorem highest_of_empty : getHighestNRegs .aarch64 0 1 ≠ some (slots .aarch64 (regs .aarch64 0).reverse 1) := by
  rw [getHighestNRegs_eq, if_neg (by decide)]
  exact fun h => by cases h

end Mambo.RegListHelpers
