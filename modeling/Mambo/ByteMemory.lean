import Mambo.Bytes
import Mathlib.Data.List.GetD

namespace Mambo.ByteMemory

open Bytes

variable {w : Nat}

def load64 (m : BitVec w → Byte) (a : BitVec w) : BitVec 64 :=
  BitVec.ofNat 64 (ofBytes ((List.range 8).map fun i => m (a + BitVec.ofNat w i)))

def store64 (m : BitVec w → Byte) (a : BitVec w) (v : BitVec 64) : BitVec w → Byte :=
  fun x => (toBytes 8 v.toNat).getD (x - a).toNat (m x)

/-- Two doublewords that share no byte. -/
def Apart (a b : BitVec w) : Prop := 8 ≤ (a - b).toNat ∧ 8 ≤ (b - a).toNat

theorem Apart.symm {a b : BitVec w} (h : Apart a b) : Apart b a := ⟨h.2, h.1⟩

theorem apart_add (a : BitVec w) {d : Nat} (hd : 8 ≤ d) (hlt : d + 8 ≤ 2 ^ w) : Apart a (a + BitVec.ofNat w d) := by
  have hd' : (BitVec.ofNat w d).toNat = d := by
    rw [BitVec.toNat_ofNat, Nat.mod_eq_of_lt (by omega)]
  have hup : a + BitVec.ofNat w d - a = BitVec.ofNat w d := add_sub_cancel_left a _
  refine ⟨?_, by rw [hup, hd']; exact hd⟩
  rw [← neg_sub, hup, BitVec.toNat_neg, hd', Nat.mod_eq_of_lt (by omega)]
  omega

theorem store64_of_ge {m : BitVec w → Byte} {a x : BitVec w} {v : BitVec 64} (h : 8 ≤ (x - a).toNat) :
    store64 m a v x = m x := by
  rw [store64, List.getD_eq_default _ _ (by rw [length_toBytes]; exact h)]

theorem sub_add_toNat {a b : BitVec w} {i : Nat} (hi : i < 2 ^ w) :
    (a + BitVec.ofNat w i - b).toNat = ((a - b).toNat + i) % 2 ^ w := by
  rw [add_sub_right_comm, BitVec.toNat_add, BitVec.toNat_ofNat, Nat.mod_eq_of_lt hi]

theorem load64_store64 (hw : 8 ≤ 2 ^ w) (m : BitVec w → Byte) (a : BitVec w) (v : BitVec 64) :
    load64 (store64 m a v) a = v := by
  have hbytes : (List.range 8).map (fun i => store64 m a v (a + BitVec.ofNat w i)) = toBytes 8 v.toNat := by
    apply List.ext_getElem
    · rw [List.length_map, List.length_range, length_toBytes]
    · intro i h1 h2
      have hi : i < 8 := by simpa using h1
      rw [List.getElem_map, List.getElem_range, store64, sub_add_toNat (by omega), BitVec.sub_self,
        BitVec.toNat_zero, Nat.zero_add, Nat.mod_eq_of_lt (by omega), List.getD_eq_getElem _ _ h2]
  rw [load64, hbytes, ofBytes_toBytes]
  apply BitVec.eq_of_toNat_eq
  have hlt := v.isLt
  rw [BitVec.toNat_ofNat, Nat.mod_eq_of_lt (by omega), Nat.mod_eq_of_lt (by omega)]

theorem load64_congr {m m' : BitVec w → Byte} {a : BitVec w}
    (h : ∀ i, i < 8 → m (a + BitVec.ofNat w i) = m' (a + BitVec.ofNat w i)) : load64 m a = load64 m' a := by
  have hbytes : (List.range 8).map (fun i => m (a + BitVec.ofNat w i)) =
      (List.range 8).map (fun i => m' (a + BitVec.ofNat w i)) :=
    List.map_congr_left fun i hi => h i (List.mem_range.mp hi)
  rw [load64, load64, hbytes]

theorem load64_store64_apart {m : BitVec w → Byte} {a b : BitVec w} (h : Apart a b) (v : BitVec 64) :
    load64 (store64 m a v) b = load64 m b := by
  have hneg : (a - b).toNat + (b - a).toNat = 2 ^ w := by
    have hpos : 0 < (b - a).toNat := lt_of_lt_of_le (by omega) h.2
    rw [← neg_sub b a, BitVec.toNat_neg, Nat.mod_eq_of_lt (by omega)]
    omega
  refine load64_congr fun i hi => store64_of_ge ?_
  have hlt := (b - a).isLt
  obtain ⟨h1, h2⟩ := h
  rw [sub_add_toNat (by omega), Nat.mod_eq_of_lt (by omega)]
  omega

section Several

def storeAll (m : BitVec w → Byte) (a : BitVec w) : List (BitVec 64) → BitVec w → Byte
  | [] => m
  | v :: vs => storeAll (store64 m a v) (a + BitVec.ofNat w 8) vs

variable {m : BitVec w → Byte} {a b : BitVec w} {vs : List (BitVec 64)}

theorem load64_storeAll_apart (h : ∀ i, i < vs.length → Apart (a + BitVec.ofNat w (8 * i)) b) :
    load64 (storeAll m a vs) b = load64 m b := by
  induction vs generalizing m a with
  | nil => rfl
  | cons v vs ih =>
      have h0 : Apart a b := by
        have := h 0 (Nat.succ_pos _)
        rwa [Nat.mul_zero, BitVec.add_zero] at this
      rw [storeAll, ih, load64_store64_apart h0]
      intro i hi
      have hnext := h (i + 1) (Nat.succ_lt_succ hi)
      rwa [Nat.mul_succ, Nat.add_comm, BitVec.ofNat_add, ← BitVec.add_assoc] at hnext

theorem load64_storeAll (hw : 8 * vs.length ≤ 2 ^ w) {i : Nat} {v : BitVec 64} (h : vs[i]? = some v) :
    load64 (storeAll m a vs) (a + BitVec.ofNat w (8 * i)) = v := by
  induction vs generalizing m a i with
  | nil => exact absurd h (by simp)
  | cons v' vs ih =>
      rw [List.length_cons] at hw
      cases i with
      | zero =>
          have hv : v' = v := Option.some.inj h
          rw [storeAll, Nat.mul_zero, BitVec.add_zero, load64_storeAll_apart, load64_store64 (by omega), hv]
          intro i hi
          rw [BitVec.add_assoc, ← BitVec.ofNat_add]
          exact (apart_add a (by omega) (by omega)).symm
      | succ i =>
          rw [storeAll, Nat.mul_succ, Nat.add_comm, BitVec.ofNat_add, ← BitVec.add_assoc]
          exact ih (by omega) h

theorem storeAll_of_ge {x : BitVec w} (h : 8 * vs.length ≤ (x - a).toNat) : storeAll m a vs x = m x := by
  induction vs generalizing m a with
  | nil => rfl
  | cons v vs ih =>
      rw [List.length_cons] at h
      have hlt := (x - a).isLt
      have h8 : (BitVec.ofNat w 8).toNat = 8 := by
        rw [BitVec.toNat_ofNat, Nat.mod_eq_of_lt (by omega)]
      have hsub : (x - (a + BitVec.ofNat w 8)).toNat = (x - a).toNat - 8 := by
        rw [← sub_sub, BitVec.toNat_sub_of_le (by rw [BitVec.le_def, h8]; omega), h8]
      rw [storeAll, ih (by omega), store64_of_ge (by omega)]

end Several

section Widths

def loadBytes (m : BitVec w → Byte) (a : BitVec w) (n : Nat) : Nat :=
  ofBytes ((List.range n).map fun i => m (a + BitVec.ofNat w i))

def storeBytes (m : BitVec w → Byte) (a : BitVec w) (n v : Nat) : BitVec w → Byte :=
  fun x => (toBytes n v).getD (x - a).toNat (m x)

/-- The n bytes from an address on. -/
def Within (a : BitVec w) (n : Nat) (x : BitVec w) : Prop := (x - a).toNat < n

variable {m m' : BitVec w → Byte} {a b : BitVec w} {n : Nat}

theorem loadBytes_congr (h : ∀ i, i < n → m (a + BitVec.ofNat w i) = m' (a + BitVec.ofNat w i)) :
    loadBytes m a n = loadBytes m' a n := by
  rw [loadBytes, loadBytes]
  congr 1
  exact List.map_congr_left fun i hi => h i (List.mem_range.mp hi)

theorem store64_outside {x : BitVec w} {v : BitVec 64} (h : ¬Within a 8 x) : store64 m a v x = m x :=
  store64_of_ge (Nat.le_of_not_lt h)

end Widths

end Mambo.ByteMemory
