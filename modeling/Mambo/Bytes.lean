import Mathlib.Data.BitVec
import Mathlib.Tactic.Common

namespace Mambo.Bytes

abbrev Byte := BitVec 8

def toBytes : Nat → Nat → List Byte
  | 0, _ => []
  | k + 1, n => BitVec.ofNat 8 n :: toBytes k (n / 256)

def ofBytes : List Byte → Nat
  | [] => 0
  | b :: bs => b.toNat + 256 * ofBytes bs

@[simp] theorem length_toBytes (k n : Nat) : (toBytes k n).length = k := by
  induction k generalizing n with
  | zero => rfl
  | succ k ih => rw [toBytes, List.length_cons, ih]

theorem ofBytes_toBytes (k n : Nat) : ofBytes (toBytes k n) = n % 256 ^ k := by
  induction k generalizing n with
  | zero => simp [toBytes, ofBytes, Nat.mod_one]
  | succ k ih =>
      have hmul : n % 256 ^ (k + 1) = n % 256 + 256 * (n / 256 % 256 ^ k) := by
        rw [Nat.pow_succ', Nat.mod_mul]
      rw [toBytes, ofBytes, ih, BitVec.toNat_ofNat, hmul]

theorem toBytes_ofBytes (bs : List Byte) : toBytes bs.length (ofBytes bs) = bs := by
  induction bs with
  | nil => rfl
  | cons b bs ih =>
      have hb := b.isLt
      rw [List.length_cons, toBytes, ofBytes]
      congr 1
      · apply BitVec.eq_of_toNat_eq
        rw [BitVec.toNat_ofNat]
        omega
      · rw [show (b.toNat + 256 * ofBytes bs) / 256 = ofBytes bs by omega, ih]

theorem ofBytes_lt (bs : List Byte) : ofBytes bs < 256 ^ bs.length := by
  induction bs with
  | nil => simp [ofBytes]
  | cons b bs ih =>
      have hb := b.isLt
      rw [ofBytes, List.length_cons, Nat.pow_succ']
      omega

theorem ofBytes_zeros (bs : List Byte) (n : Nat) : ofBytes (bs ++ List.replicate n 0) = ofBytes bs := by
  induction bs with
  | nil =>
      induction n with
      | zero => rfl
      | succ n ih => simpa [List.replicate_succ, ofBytes] using ih
  | cons b bs ih => rw [List.cons_append, ofBytes, ofBytes, ih]

/-- A layout of fixed size that reads back what it has written. -/
structure Format (α : Type*) where
  size : Nat
  write : α → List Byte
  read : List Byte → Option (α × List Byte)
  length_write : ∀ a, (write a).length = size
  read_write : ∀ a rest, read (write a ++ rest) = some (a, rest)
  length_read : ∀ bs a rest, read bs = some (a, rest) → bs.length = size + rest.length

variable {α β : Type*}

def Format.field (w : Nat) (hw : w % 8 = 0) : Format (BitVec w) where
  size := w / 8
  write v := toBytes (w / 8) v.toNat
  read bs := if w / 8 ≤ bs.length then some (BitVec.ofNat w (ofBytes (bs.take (w / 8))), bs.drop (w / 8)) else none
  length_write v := length_toBytes _ _
  read_write v rest := by
    have hlen := length_toBytes (w / 8) v.toNat
    have hpow : 256 ^ (w / 8) = 2 ^ w := by
      rw [show (256 : Nat) = 2 ^ 8 by rfl, ← Nat.pow_mul]
      congr 1
      omega
    rw [if_pos (by rw [List.length_append, hlen]; omega), List.take_left' hlen, List.drop_left' hlen,
      ofBytes_toBytes, hpow, Nat.mod_eq_of_lt v.isLt, BitVec.ofNat_toNat, BitVec.setWidth_eq]
  length_read bs v rest h := by
    split_ifs at h with hle
    obtain ⟨-, rfl⟩ := Prod.mk.inj (Option.some.inj h)
    rw [List.length_drop]
    omega

def Format.pair (f : Format α) (g : Format β) : Format (α × β) where
  size := f.size + g.size
  write p := f.write p.1 ++ g.write p.2
  read bs := (f.read bs).bind fun r => (g.read r.2).map fun s => ((r.1, s.1), s.2)
  length_write p := by rw [List.length_append, f.length_write, g.length_write]
  read_write p rest := by
    rw [List.append_assoc, f.read_write, Option.bind_some, g.read_write, Option.map_some]
  length_read bs p rest h := by
    obtain ⟨r, hr, hmap⟩ := Option.bind_eq_some_iff.mp h
    obtain ⟨s, hs, heq⟩ := Option.map_eq_some_iff.mp hmap
    obtain ⟨-, rfl⟩ := Prod.mk.inj heq
    rw [f.length_read bs r.1 r.2 hr, g.length_read r.2 s.1 s.2 hs, Nat.add_assoc]

def Format.map (f : Format α) (make : α → β) (back : β → α) (h : ∀ b, make (back b) = b) : Format β where
  size := f.size
  write b := f.write (back b)
  read bs := (f.read bs).map fun r => (make r.1, r.2)
  length_write b := f.length_write _
  read_write b rest := by rw [f.read_write, Option.map_some, h]
  length_read bs b rest hb := by
    obtain ⟨r, hr, heq⟩ := Option.map_eq_some_iff.mp hb
    obtain ⟨-, rfl⟩ := Prod.mk.inj heq
    exact f.length_read bs r.1 r.2 hr

def Format.readMany (f : Format α) : Nat → List Byte → Option (List α)
  | 0, _ => some []
  | n + 1, bs => (f.read bs).bind fun r => (f.readMany n r.2).map (r.1 :: ·)

theorem Format.readMany_write (f : Format α) (xs : List α) :
    f.readMany xs.length (xs.flatMap f.write) = some xs := by
  induction xs with
  | nil => rfl
  | cons x xs ih =>
      rw [List.length_cons, Format.readMany, List.flatMap_cons, f.read_write, Option.bind_some, ih, Option.map_some]

theorem Format.length_flatMap (f : Format α) (xs : List α) : (xs.flatMap f.write).length = xs.length * f.size := by
  induction xs with
  | nil => simp
  | cons x xs ih => rw [List.flatMap_cons, List.length_append, f.length_write, ih, List.length_cons, Nat.succ_mul,
      Nat.add_comm]

/-- Enough bytes are always read. -/
def Format.Total (f : Format α) : Prop := ∀ bs : List Byte, f.size ≤ bs.length → (f.read bs).isSome

theorem Format.field_total (w : Nat) (hw : w % 8 = 0) : (Format.field w hw).Total := by
  intro bs h
  have hread : (Format.field w hw).read bs =
      some (BitVec.ofNat w (ofBytes (bs.take (w / 8))), bs.drop (w / 8)) := if_pos h
  rw [hread]
  rfl

theorem Format.Total.pair {f : Format α} {g : Format β} (hf : f.Total) (hg : g.Total) : (f.pair g).Total := by
  intro bs h
  have hsize : f.size + g.size ≤ bs.length := h
  obtain ⟨r, hr⟩ := Option.isSome_iff_exists.mp (hf bs (by omega))
  have hlen := f.length_read bs r.1 r.2 hr
  obtain ⟨s, hs⟩ := Option.isSome_iff_exists.mp (hg r.2 (by omega))
  have hread : (f.pair g).read bs = some ((r.1, s.1), s.2) := by
    change ((f.read bs).bind fun r => (g.read r.2).map fun s => ((r.1, s.1), s.2)) = _
    rw [hr, Option.bind_some, hs, Option.map_some]
  rw [hread]
  rfl

theorem Format.Total.map {f : Format α} (hf : f.Total) (make : α → β) (back : β → α)
    (h : ∀ b, make (back b) = b) : (f.map make back h).Total := by
  intro bs hlen
  change ((f.read bs).map fun r => (make r.1, r.2)).isSome
  rw [Option.isSome_map]
  exact hf bs hlen

theorem Format.Total.readMany {f : Format α} (hf : f.Total) {n : Nat} {bs : List Byte}
    (h : n * f.size ≤ bs.length) : (f.readMany n bs).isSome := by
  induction n generalizing bs with
  | zero => rfl
  | succ n ih =>
      rw [Nat.succ_mul] at h
      obtain ⟨r, hr⟩ := Option.isSome_iff_exists.mp (hf bs (by omega))
      have hlen := f.length_read bs r.1 r.2 hr
      have hrest : (f.readMany n r.2).isSome := ih (by omega)
      rw [Format.readMany, hr, Option.bind_some, Option.isSome_map]
      exact hrest

end Mambo.Bytes
