import Mambo.ByteMemory

namespace Mambo.WordMemory

open Bytes ByteMemory

variable {w : Nat} {m m' : BitVec w → Byte} {a b x : BitVec w} {n k v : Nat}

section Bytes

theorem storeBytes_outside (h : ¬Within a n x) : storeBytes m a n v x = m x := by
  rw [storeBytes, List.getD_eq_default _ _ (by rw [length_toBytes]; exact Nat.le_of_not_lt h)]

theorem within_add (hi : k < n) (hn : n ≤ 2 ^ w) : Within a n (a + BitVec.ofNat w k) := by
  rw [Within, add_sub_cancel_left, BitVec.toNat_ofNat, Nat.mod_eq_of_lt (by omega)]
  exact hi

theorem loadBytes_storeBytes (hn : n ≤ 2 ^ w) : loadBytes (storeBytes m a n v) a n = v % 256 ^ n := by
  have hbytes : (List.range n).map (fun i => storeBytes m a n v (a + BitVec.ofNat w i)) = toBytes n v := by
    apply List.ext_getElem
    · rw [List.length_map, List.length_range, length_toBytes]
    · intro i h1 h2
      have hi : i < n := by simpa using h1
      rw [List.getElem_map, List.getElem_range, storeBytes, add_sub_cancel_left, BitVec.toNat_ofNat,
        Nat.mod_eq_of_lt (by omega), List.getD_eq_getElem _ _ h2]
  rw [loadBytes, hbytes, ofBytes_toBytes]

/-- The n bytes from an address on have none of the k from another. -/
def Clear (a : BitVec w) (k : Nat) (b : BitVec w) (n : Nat) : Prop := ∀ i, i < n → ¬Within a k (b + BitVec.ofNat w i)

theorem loadBytes_clear (h : Clear a k b n) : loadBytes (storeBytes m a k v) b n = loadBytes m b n :=
  loadBytes_congr fun i hi => storeBytes_outside (h i hi)

end Bytes

section Words

def loadWord (m : BitVec w → Byte) (a : BitVec w) : BitVec 32 := BitVec.ofNat 32 (loadBytes m a 4)

def storeWord (m : BitVec w → Byte) (a : BitVec w) (v : BitVec 32) : BitVec w → Byte := storeBytes m a 4 v.toNat

def storeWords (m : BitVec w → Byte) (a : BitVec w) : List (BitVec 32) → BitVec w → Byte
  | [] => m
  | v :: vs => storeWords (storeWord m a v) (a + BitVec.ofNat w 4) vs

variable {v : BitVec 32} {vs : List (BitVec 32)}

theorem loadWord_storeWord (hw : 4 ≤ 2 ^ w) : loadWord (storeWord m a v) a = v := by
  have hlt := v.isLt
  rw [loadWord, storeWord, loadBytes_storeBytes hw, Nat.mod_eq_of_lt (by omega), BitVec.ofNat_toNat, BitVec.setWidth_eq]

theorem storeWords_outside (hlen : 4 * vs.length ≤ 2 ^ w) (h : ¬Within a (4 * vs.length) x) :
    storeWords m a vs x = m x := by
  induction vs generalizing m a with
  | nil => rfl
  | cons v vs ih =>
      rw [List.length_cons] at h hlen
      have hge : 4 * (vs.length + 1) ≤ (x - a).toNat := Nat.le_of_not_lt h
      have hlt := (x - a).isLt
      have h4 : (BitVec.ofNat w 4).toNat = 4 := by
        rw [BitVec.toNat_ofNat, Nat.mod_eq_of_lt (by omega)]
      have hsub : (x - (a + BitVec.ofNat w 4)).toNat = (x - a).toNat - 4 := by
        rw [← sub_sub, BitVec.toNat_sub_of_le (by rw [BitVec.le_def, h4]; omega), h4]
      have hrest : ¬Within (a + BitVec.ofNat w 4) (4 * vs.length) x := by
        rw [Within, hsub]
        omega
      rw [storeWords, ih (by omega) hrest, storeWord, storeBytes_outside]
      rw [Within]
      omega

theorem loadBytes_storeWords (hlen : 4 * vs.length ≤ 2 ^ w) (h : Clear a (4 * vs.length) b n) :
    loadBytes (storeWords m a vs) b n = loadBytes m b n :=
  loadBytes_congr fun i hi => storeWords_outside hlen (h i hi)

theorem clear_sub {d k n : Nat} (hd : d + k ≤ 2 ^ w) (h : n ≤ d) : Clear (a + BitVec.ofNat w d) k a n := by
  intro i hi
  have hsub : a + BitVec.ofNat w i - (a + BitVec.ofNat w d) = BitVec.ofNat w i - BitVec.ofNat w d := add_sub_add_left_eq_sub _ _ _
  rw [Within, hsub, BitVec.toNat_sub, BitVec.toNat_ofNat, BitVec.toNat_ofNat]
  rcases Nat.lt_or_ge d (2 ^ w) with hlt | hge
  · rw [Nat.mod_eq_of_lt hlt, Nat.mod_eq_of_lt (a := i) (by omega), Nat.mod_eq_of_lt (by omega)]
    omega
  · omega

theorem loadWord_storeWords {i : Nat} (hw : 4 * vs.length ≤ 2 ^ w) (h : vs[i]? = some v) :
    loadWord (storeWords m a vs) (a + BitVec.ofNat w (4 * i)) = v := by
  induction vs generalizing m a i with
  | nil => exact absurd h (by simp)
  | cons v' vs ih =>
      rw [List.length_cons] at hw
      cases i with
      | zero =>
          obtain rfl : v' = v := Option.some.inj h
          have hclear : Clear (a + BitVec.ofNat w 4) (4 * vs.length) a 4 := clear_sub (by omega) le_rfl
          rw [storeWords, Nat.mul_zero, BitVec.add_zero, loadWord, loadBytes_storeWords (by omega) hclear, ← loadWord,
            loadWord_storeWord (by omega)]
      | succ i =>
          rw [storeWords, Nat.mul_succ, Nat.add_comm, BitVec.ofNat_add, ← BitVec.add_assoc]
          exact ih (by omega) h

end Words

end Mambo.WordMemory
