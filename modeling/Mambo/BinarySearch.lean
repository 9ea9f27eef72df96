import Mathlib.Order.Defs.LinearOrder
import Mathlib.Order.Lattice

namespace Mambo.BinarySearch

variable {α : Type} [LinearOrder α] (size : Nat) (key : Nat → α) (x : α)

def read (i : Nat) : Option α := if i < size then some (key i) else none

/-- A search for the index whose key is the last one that is not above a value. It
is none if the search leaves the array or does not end. -/
def loop : Nat → Nat → Nat → Option (Option Nat)
  | 0, _, _ => none
  | fuel + 1, first, last =>
    if first ≤ last then
      let pivot := (first + last) / 2
      (read size key pivot).bind fun here =>
        if x < here then loop fuel first (pivot - 1)
        else (read size key (pivot + 1)).bind fun next =>
          if x ≥ next then loop fuel (pivot + 1) last else some (some pivot)
    else some none

variable {size key x} {fuel first last : Nat}

omit [LinearOrder α] in
theorem read_of_lt {i : Nat} (h : i < size) : read size key i = some (key i) := if_pos h

/-- The value is below the key at the end of the range or at the next index. -/
def Below (size : Nat) (key : Nat → α) (x : α) (last : Nat) : Prop :=
  x < key last ∨ last + 1 < size ∧ x < key (last + 1)

/-- A search in a range whose first key is not above the value ends at an index
between whose key and the next one the value is. -/
theorem loop_spec (hfuel : last - first < fuel) (hle : first ≤ last) (hlast : last < size) (hfirst : key first ≤ x)
    (hbelow : Below size key x last) :
    ∃ i, loop size key x fuel first last = some (some i) ∧ i + 1 < size ∧ first ≤ i ∧ i ≤ last ∧ key i ≤ x ∧
      x < key (i + 1) := by
  induction fuel generalizing first last with
  | zero => exact absurd hfuel (Nat.not_lt_zero _)
  | succ fuel ih =>
      have hpivot : (first + last) / 2 < size := by omega
      rw [loop, if_pos hle]
      dsimp only
      rw [read_of_lt hpivot, Option.bind_some]
      by_cases hhere : x < key ((first + last) / 2)
      · -- the value is not in the lower half at the first index, so the pivot is above that
        have hne : (first + last) / 2 ≠ first := by
          intro heq
          rw [heq] at hhere
          exact not_le_of_gt hhere hfirst
        have hhalf : (first + last) / 2 - 1 - first < fuel := by omega
        rw [if_pos hhere]
        obtain ⟨i, hi, hsize, hge, hlt, hkeys⟩ :=
          ih hhalf (by omega) (by omega) hfirst
            (Or.inr ⟨by omega, by rwa [Nat.sub_add_cancel (by omega)]⟩)
        exact ⟨i, hi, hsize, hge, by omega, hkeys⟩
      · have hnext : (first + last) / 2 + 1 < size := by
          rcases hbelow with hlow | ⟨hbound, -⟩
          · have hne : (first + last) / 2 ≠ last := by
              intro heq
              rw [heq] at hhere
              exact hhere hlow
            omega
          · omega
        rw [if_neg hhere, read_of_lt hnext, Option.bind_some]
        by_cases habove : x ≥ key ((first + last) / 2 + 1)
        · have hne : (first + last) / 2 ≠ last := by
            intro heq
            rw [heq] at habove hhere
            rcases hbelow with hlow | hlow
            · exact hhere hlow
            · exact not_lt_of_ge habove hlow.2
          rw [if_pos habove]
          obtain ⟨i, hi, hsize, hge, hlt, hkeys⟩ := ih (by omega) (by omega) hlast habove hbelow
          exact ⟨i, hi, hsize, by omega, hlt, hkeys⟩
        · rw [if_neg habove]
          exact ⟨_, rfl, hnext, by omega, by omega, le_of_not_gt hhere, lt_of_not_ge habove⟩

end Mambo.BinarySearch
