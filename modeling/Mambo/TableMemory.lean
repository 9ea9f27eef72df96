import Mambo.ByteMemory
import Mambo.HashRefines

namespace Mambo.TableMemory

open Bytes ByteMemory CodeCacheHash HashRefines

def slot (entries : BitVec 64) (i : Nat) : BitVec 64 := entries + BitVec.ofNat 64 (16 * i)

/-- The entries of a table, key before value, as they lie in the memory. -/
structure InMemory (t : HashTable 64) (entries : BitVec 64) (mem : BitVec 64 → Byte) : Prop where
  key : ∀ i, i < slots → load64 mem (slot entries i) = (t.entries i).key
  value : ∀ i, i < slots → load64 mem (slot entries i + 8) = (t.entries i).value

/-- A doubleword none of whose bytes belongs to the table. -/
def Clear (entries a : BitVec 64) : Prop :=
  ∀ i j, i < 8 → j < 16 * slots → a + BitVec.ofNat 64 i ≠ entries + BitVec.ofNat 64 j

variable {t : HashTable 64} {entries a : BitVec 64} {mem : BitVec 64 → Byte}

theorem Clear.apart (h : Clear entries a) {n : Nat} (hn : n + 8 ≤ 16 * slots) :
    Apart a (entries + BitVec.ofNat 64 n) := by
  have hslots : 16 * slots < 2 ^ 64 := by decide
  constructor
  · by_contra hlt
    refine h 0 (n + (a - (entries + BitVec.ofNat 64 n)).toNat) (by decide) (by omega) ?_
    rw [BitVec.ofNat_add, BitVec.ofNat_toNat, BitVec.setWidth_eq, ← BitVec.add_assoc, add_sub_cancel]
    exact BitVec.add_zero a
  · by_contra hlt
    refine h (entries + BitVec.ofNat 64 n - a).toNat n (by omega) (by omega) ?_
    rw [BitVec.ofNat_toNat, BitVec.setWidth_eq, add_sub_cancel]

theorem InMemory.store (h : InMemory t entries mem) (hclear : Clear entries a) (v : BitVec 64) :
    InMemory t entries (store64 mem a v) := by
  refine ⟨fun i hi => ?_, fun i hi => ?_⟩
  · rw [slot, load64_store64_apart (hclear.apart (by omega))]
    exact h.key i hi
  · have heq : slot entries i + 8 = entries + BitVec.ofNat 64 (16 * i + 8) := by
      rw [slot, BitVec.ofNat_add, BitVec.add_assoc]
      rfl
    have hvalue := h.value i hi
    rw [heq] at hvalue ⊢
    rw [load64_store64_apart (hclear.apart (by omega))]
    exact hvalue

theorem InMemory.storeAll (h : InMemory t entries mem) {vs : List (BitVec 64)}
    (hclear : ∀ i, i < vs.length → Clear entries (a + BitVec.ofNat 64 (8 * i))) :
    InMemory t entries (storeAll mem a vs) := by
  induction vs generalizing mem a with
  | nil => exact h
  | cons v vs ih =>
      have hfirst := hclear 0 (Nat.succ_pos _)
      rw [Nat.mul_zero, BitVec.add_zero] at hfirst
      refine ih (h.store hfirst v) fun i hi => ?_
      have hnext := hclear (i + 1) (Nat.succ_lt_succ hi)
      rwa [Nat.mul_succ, Nat.add_comm, BitVec.ofNat_add, ← BitVec.add_assoc] at hnext

theorem slot_next (entries : BitVec 64) (i : Nat) : slot entries i + 16 = slot entries (i + 1) := by
  rw [slot, slot, show 16 * (i + 1) = 16 * i + 16 by omega, BitVec.ofNat_add, BitVec.add_assoc]
  rfl

theorem slot_index (entries key : BitVec 64) (k : Nat) :
    entries + ((key >>> k) &&& BitVec.ofNat 64 codeCacheHashSize) <<< 4 = slot entries (home k key) := by
  rw [slot, home]
  congr 1
  apply BitVec.eq_of_toNat_eq
  rw [BitVec.toNat_shiftLeft, BitVec.toNat_ofNat, Nat.shiftLeft_eq, Nat.mul_comm]

theorem slot_home (entries key : BitVec 64) {k : Nat} (hk : k ≤ 4) :
    entries + (key &&& (BitVec.ofNat 64 codeCacheHashSize <<< k)) <<< (4 - k) = slot entries (home k key) := by
  have hmask : key &&& (BitVec.ofNat 64 codeCacheHashSize <<< k) =
      ((key >>> k) &&& BitVec.ofNat 64 codeCacheHashSize) <<< k := by
    apply BitVec.eq_of_getLsbD_eq
    intro i hi
    simp only [BitVec.getLsbD_and, BitVec.getLsbD_shiftLeft, BitVec.getLsbD_ushiftRight, hi, decide_true, Bool.true_and]
    by_cases hlow : i < k
    · simp [hlow]
    · rw [show k + (i - k) = i by omega]
      simp [hlow]
  rw [hmask, ← BitVec.shiftLeft_add, show k + (4 - k) = 4 by omega, slot_index]

def layout (t : HashTable 64) (entries : BitVec 64) : BitVec 64 → Byte := fun a =>
  let e := t.entries ((a - entries).toNat / 16)
  (toBytes 8 e.key.toNat ++ toBytes 8 e.value.toNat).getD ((a - entries).toNat % 16) 0

theorem load64_toBytes {m : BitVec 64 → Byte} {v : BitVec 64}
    (h : ∀ i, i < 8 → m (a + BitVec.ofNat 64 i) = (toBytes 8 v.toNat).getD i 0) : load64 m a = v := by
  rw [← load64_store64 (by decide) m a v]
  refine load64_congr fun i hi => ?_
  have hsub : (a + BitVec.ofNat 64 i - a).toNat = i := by
    rw [add_sub_cancel_left, BitVec.toNat_ofNat, Nat.mod_eq_of_lt (by omega)]
  have hlen : i < (toBytes 8 v.toNat).length := by rwa [length_toBytes]
  rw [h i hi, store64, hsub, List.getD_eq_getElem _ _ hlen, List.getD_eq_getElem _ _ hlen]

theorem layout_inMemory (t : HashTable 64) (entries : BitVec 64) : InMemory t entries (layout t entries) := by
  have hslots : 16 * slots < 2 ^ 64 := by decide
  have hbyte : ∀ i j, i < slots → j < 16 → layout t entries (entries + BitVec.ofNat 64 (16 * i + j)) =
      (toBytes 8 (t.entries i).key.toNat ++ toBytes 8 (t.entries i).value.toNat).getD j 0 := by
    intro i j hi hj
    have hd : (entries + BitVec.ofNat 64 (16 * i + j) - entries).toNat = 16 * i + j := by
      rw [add_sub_cancel_left, BitVec.toNat_ofNat, Nat.mod_eq_of_lt (by omega)]
    rw [layout, hd, show (16 * i + j) / 16 = i by omega, show (16 * i + j) % 16 = j by omega]
  refine ⟨fun i hi => load64_toBytes fun j hj => ?_, fun i hi => load64_toBytes fun j hj => ?_⟩
  · rw [slot, BitVec.add_assoc, ← BitVec.ofNat_add, hbyte i j hi (by omega),
      List.getD_append _ _ _ _ (by rw [length_toBytes]; exact hj)]
  · have hadd : slot entries i + 8 + BitVec.ofNat 64 j = entries + BitVec.ofNat 64 (16 * i + (8 + j)) := by
      rw [slot, BitVec.ofNat_add, BitVec.ofNat_add, BitVec.add_assoc, BitVec.add_assoc]
      rfl
    rw [hadd, hbyte i (8 + j) hi (by omega), List.getD_append_right _ _ _ _ (by rw [length_toBytes]; omega),
      length_toBytes, Nat.add_sub_cancel_left]

end Mambo.TableMemory
