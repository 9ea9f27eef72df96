import Mambo.Bytes
import Mathlib.Tactic.Common

namespace Mambo.PageMaps

open Bytes

section Rounding

def alignLower (address alignment : Nat) : Nat := address / alignment * alignment

def alignHigher (address alignment : Nat) : Nat :=
  let alignedAddress := alignLower address alignment
  if alignedAddress ≠ address then alignedAddress + alignment else alignedAddress

variable {a b m n : Nat}

theorem alignLower_add_mod (a n : Nat) : alignLower a n + a % n = a := Nat.div_add_mod' a n

theorem dvd_alignLower (a n : Nat) : n ∣ alignLower a n := Dvd.intro_left (a / n) rfl

theorem sub_alignLower (a n : Nat) : a - alignLower a n = a % n := by
  have hsum := alignLower_add_mod a n
  omega

theorem le_alignHigher (hn : 0 < n) (a : Nat) : a ≤ alignHigher a n := by
  have hsum := alignLower_add_mod a n
  have hlt := Nat.mod_lt a hn
  rw [alignHigher]
  split <;> omega

theorem alignHigher_lt (hn : 0 < n) (a : Nat) : alignHigher a n < a + n := by
  have hsum := alignLower_add_mod a n
  rw [alignHigher]
  split <;> omega

theorem dvd_alignHigher (a n : Nat) : n ∣ alignHigher a n := by
  rw [alignHigher]
  split
  · exact Nat.dvd_add (dvd_alignLower a n) (Nat.dvd_refl n)
  · exact dvd_alignLower a n

theorem alignHigher_le (hm : n ∣ m) (hle : a ≤ m) : alignHigher a n ≤ m := by
  obtain ⟨k, rfl⟩ := hm
  have hsum := alignLower_add_mod a n
  rw [alignHigher]
  split
  next hne =>
    have hlt : a / n * n < k * n := by
      rw [Nat.mul_comm k n]
      exact Nat.lt_of_lt_of_le (show alignLower a n < a by omega) hle
    have hnext := Nat.mul_le_mul_right n (Nat.lt_of_mul_lt_mul_right hlt)
    rw [Nat.succ_mul, Nat.mul_comm k n] at hnext
    exact hnext
  next => omega

theorem alignHigher_mono (hn : 0 < n) (hle : a ≤ b) : alignHigher a n ≤ alignHigher b n :=
  alignHigher_le (dvd_alignHigher b n) (Nat.le_trans hle (le_alignHigher hn b))

theorem alignHigher_add (hn : 0 < n) (hm : n ∣ m) (a : Nat) : alignHigher (m + a) n = m + alignHigher a n := by
  apply Nat.le_antisymm
  · exact alignHigher_le (Nat.dvd_add hm (dvd_alignHigher a n)) (Nat.add_le_add_left (le_alignHigher hn a) m)
  · have hge := le_alignHigher hn (m + a)
    have hle : alignHigher a n ≤ alignHigher (m + a) n - m :=
      alignHigher_le (Nat.dvd_sub (dvd_alignHigher (m + a) n) hm) (by omega)
    omega

theorem alignHigher_eq_zero (hn : 0 < n) : alignHigher a n = 0 ↔ a = 0 := by
  have hge := le_alignHigher hn a
  constructor
  · intro h
    omega
  · rintro rfl
    exact Nat.le_zero.mp (alignHigher_le (Nat.dvd_zero n) (Nat.le_refl 0))

end Rounding

section Files

/-- A file by its bytes, of which those below its size count. -/
structure File where
  size : Nat
  byte : Nat → Byte

/-- What is read through a mapping of a file: zeros up to the end of its last page, and a fault behind it. -/
def File.mapped (f : File) (pageSize o : Nat) : Option Byte :=
  if o < f.size then some (f.byte o) else if o < alignHigher f.size pageSize then some 0 else none

theorem File.mapped_of_lt {f : File} {pageSize o : Nat} (h : o < f.size) : f.mapped pageSize o = some (f.byte o) :=
  if_pos h

theorem File.mapped_isSome {f : File} {pageSize o d : Nat} (ho : pageSize ∣ o) (hpage : d < pageSize) (h : o < f.size) :
    (f.mapped pageSize (o + d)).isSome = true := by
  have hend : o + pageSize ≤ alignHigher f.size pageSize := by
    obtain ⟨k, hk⟩ := ho
    obtain ⟨j, hj⟩ := dvd_alignHigher f.size pageSize
    have hge := le_alignHigher (Nat.zero_lt_of_lt hpage) f.size
    have hlt : pageSize * k < pageSize * j := by omega
    have hnext := Nat.mul_le_mul_left pageSize (Nat.lt_of_mul_lt_mul_left hlt)
    rw [Nat.mul_succ] at hnext
    omega
  rw [File.mapped]
  split
  next => rfl
  next => rw [if_pos (by omega), Option.isSome_some]

theorem File.mapped_none {f : File} {pageSize o : Nat} (h : alignHigher f.size pageSize ≤ o) (hpos : 0 < pageSize) :
    f.mapped pageSize o = none := by
  have hge := le_alignHigher hpos f.size
  rw [File.mapped, if_neg (by omega), if_neg (by omega)]

end Files

section Spaces

/-- What reads of an address space give; none is a fault. -/
abbrev Space := Nat → Option Byte

/-- A mapping at a fixed address takes the place of what was there. -/
def mapAt (m : Space) (a n : Nat) (content : Nat → Option Byte) : Space := fun x =>
  if a ≤ x ∧ x < a + n then content (x - a) else m x

/-- Bytes that are filled; none if one of them faults. -/
def fill (m : Space) (a n : Nat) (v : Byte) : Option Space :=
  if (List.range n).all fun i => (m (a + i)).isSome then some (mapAt m a n fun _ => some v) else none

variable {m : Space} {a n x : Nat} {content : Nat → Option Byte} {v : Byte}

theorem mapAt_within (hle : a ≤ x) (hlt : x < a + n) : mapAt m a n content x = content (x - a) := if_pos ⟨hle, hlt⟩

theorem mapAt_outside (h : x < a ∨ a + n ≤ x) : mapAt m a n content x = m x := if_neg (by omega)

theorem fill_some (h : ∀ i, i < n → (m (a + i)).isSome = true) : fill m a n v = some (mapAt m a n fun _ => some v) :=
  if_pos (List.all_eq_true.mpr fun i hi => h i (List.mem_range.mp hi))

theorem fill_eq_some {m' : Space} (h : fill m a n v = some m') :
    m' = mapAt m a n (fun _ => some v) ∧ ∀ i, i < n → (m (a + i)).isSome = true := by
  rw [fill] at h
  split at h
  next hall => exact ⟨(Option.some.inj h).symm, fun i hi => List.all_eq_true.mp hall i (List.mem_range.mpr hi)⟩
  next => cases h

end Spaces

end Mambo.PageMaps
