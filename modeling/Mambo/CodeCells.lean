import Mambo.CodeRuns
import Mathlib.Logic.Function.Basic

namespace Mambo.CodeCells

open CodeRuns

/-- What lies at a halfword of a code whose instructions take one or two of them. -/
inductive Cell (ι : Type*)
  | low (i : ι)
  | high (i : ι)
  deriving DecidableEq

abbrev Code (w : Nat) (ι : Type*) := BitVec w → Option (Cell ι)

variable {w : Nat} {ι σ : Type*}

section Addresses

def past (a : BitVec w) (n : Nat) : BitVec w := a + BitVec.ofNat w n

variable {a : BitVec w} {m n : Nat}

theorem past_zero (a : BitVec w) : past a 0 = a := BitVec.add_zero a

theorem past_past (a : BitVec w) (m n : Nat) : past (past a m) n = past a (m + n) := by
  rw [past, past, past, BitVec.ofNat_add, BitVec.add_assoc]

theorem past_inj (hm : m < 2 ^ w) (hn : n < 2 ^ w) (h : past a m = past a n) : m = n := by
  have hnat := congrArg BitVec.toNat (add_left_cancel h)
  rwa [BitVec.toNat_ofNat, BitVec.toNat_ofNat, Nat.mod_eq_of_lt hm, Nat.mod_eq_of_lt hn] at hnat

theorem past_sub (a : BitVec w) (n : Nat) : past a n - a = BitVec.ofNat w n := add_sub_cancel_left a _

variable (size : ι → Nat)

def bytes : List ι → Nat
  | [] => 0
  | i :: is => size i + bytes is

theorem bytes_append (is js : List ι) : bytes size (is ++ js) = bytes size is + bytes size js := by
  induction is with
  | nil => rw [List.nil_append, bytes, Nat.zero_add]
  | cons i is ih => rw [List.cons_append, bytes, ih, bytes, Nat.add_assoc]

end Addresses

section Layout

variable (size : ι → Nat)

def put (a : BitVec w) (i : ι) (code : Code w ι) : Code w ι :=
  if size i = 2 then Function.update code a (some (.low i))
  else Function.update (Function.update code a (some (.low i))) (past a 2) (some (.high i))

def emit : BitVec w → List ι → Code w ι → Code w ι
  | _, [], code => code
  | a, i :: is, code => emit (past a (size i)) is (put size a i code)

/-- The instruction at an address, with both its halfwords. -/
def fetch [DecidableEq ι] (code : Code w ι) (a : BitVec w) : Option ι :=
  match code a with
  | some (.low i) => if size i = 2 ∨ code (past a 2) = some (.high i) then some i else none
  | _ => none

variable {size} {code code' : Code w ι} {a x : BitVec w} {i : ι} {is js : List ι}

theorem put_outside (hsize : size i = 2 ∨ size i = 4) (h : ∀ k, k < size i → x ≠ past a k) : put size a i code x = code x := by
  have h0 : x ≠ a := by
    rw [← past_zero a]
    exact h 0 (by omega)
  rw [put]
  split
  · exact Function.update_of_ne h0 _ _
  · rw [Function.update_of_ne (h 2 (by omega)), Function.update_of_ne h0]

variable [DecidableEq ι]

theorem fetch_put (hw : 2 ≤ w) : fetch size (put size a i code) a = some i := by
  have hpow : 2 ^ 2 ≤ 2 ^ w := Nat.pow_le_pow_right (by decide) hw
  have hne : a ≠ past a 2 := fun h => by
    have h0 : past a 0 = past a 2 := (past_zero a).trans h
    exact absurd (past_inj (by omega) (by omega) h0) (by decide)
  rw [put]
  split
  · rename_i h
    rw [fetch, Function.update_self]
    exact if_pos (Or.inl h)
  · have hlow : Function.update (Function.update code a (some (.low i))) (past a 2) (some (.high i)) a =
        some (.low i) := by
      rw [Function.update_of_ne hne, Function.update_self]
    rw [fetch, hlow]
    exact if_pos (Or.inr (Function.update_self ..))

theorem fetch_congr (hsize : size i = 2 ∨ size i = 4) (hfetch : fetch size code a = some i)
    (h : ∀ k, k < size i → code (past a k) = code' (past a k)) : fetch size code' a = some i := by
  have h0 : code a = code' a := by
    rw [← past_zero a]
    exact h 0 (by omega)
  rw [fetch] at hfetch
  split at hfetch
  · rename_i j hlow
    split_ifs at hfetch with hhigh
    obtain rfl := Option.some.inj hfetch
    rw [fetch, ← h0, hlow]
    refine if_pos ?_
    rcases hsize with hs | hs
    · exact Or.inl hs
    · exact hhigh.imp_right fun hh => by rw [← h 2 (by omega), hh]
  · exact absurd hfetch (by simp)

variable {P : Processor w ι σ} {f : BitVec w → Option ι} (hP : ∀ i, P.size i = BitVec.ofNat w (size i))

include hP

omit [DecidableEq ι] in
theorem codeAt_cons : CodeAt P f a (i :: is) ↔ f a = some i ∧ CodeAt P f (past a (size i)) is := by
  rw [CodeAt, hP, past]

omit [DecidableEq ι] in
theorem codeAt_append_past : CodeAt P f a (is ++ js) ↔ CodeAt P f a is ∧ CodeAt P f (past a (bytes size is)) js := by
  induction is generalizing a with
  | nil => rw [List.nil_append, bytes, past_zero, CodeAt, true_and]
  | cons i is ih => rw [List.cons_append, codeAt_cons hP, codeAt_cons hP, ih, and_assoc, bytes, past_past]

omit [DecidableEq ι] in
theorem codeAt_of_agree {f' : BitVec w → Option ι} (hsize : ∀ i, size i ≠ 0)
    (h : ∀ k, k < bytes size is → f' (past a k) = f (past a k)) (hcode : CodeAt P f a is) : CodeAt P f' a is := by
  induction is generalizing a with
  | nil => trivial
  | cons i is ih =>
      rw [codeAt_cons hP] at hcode ⊢
      have hpos : 0 < size i := Nat.pos_of_ne_zero (hsize i)
      have h0 := h 0 (by rw [bytes]; omega)
      rw [past_zero] at h0
      refine ⟨h0.trans hcode.1, ih (fun k hk => ?_) hcode.2⟩
      rw [past_past]
      exact h _ (by rw [bytes]; omega)

variable (hsize : ∀ i, size i = 2 ∨ size i = 4)

include hsize

theorem codeAt_congr (h : ∀ k, k < bytes size is → code (past a k) = code' (past a k))
    (hcode : CodeAt P (fetch size code) a is) : CodeAt P (fetch size code') a is := by
  induction is generalizing a with
  | nil => trivial
  | cons i is ih =>
      rw [codeAt_cons hP] at hcode ⊢
      refine ⟨fetch_congr (hsize i) hcode.1 fun k hk => h k ?_, ih (fun k hk => ?_) hcode.2⟩
      · rw [bytes]
        omega
      · rw [past_past]
        exact h _ (by rw [bytes]; omega)

omit hP [DecidableEq ι] in
theorem emit_outside (h : ∀ k, k < bytes size is → x ≠ past a k) : emit size a is code x = code x := by
  induction is generalizing a code with
  | nil => rfl
  | cons i is ih =>
      rw [emit, ih fun k hk => ?_, put_outside (hsize i) fun k hk => h k ?_]
      · rw [bytes]
        omega
      · rw [past_past]
        exact h _ (by rw [bytes]; omega)

theorem emit_codeAt (hw : 2 ≤ w) (hlen : bytes size is < 2 ^ w) :
    CodeAt P (fetch size (emit size a is code)) a is := by
  induction is generalizing a code with
  | nil => trivial
  | cons i is ih =>
      rw [bytes] at hlen
      rw [codeAt_cons hP, emit]
      have hput : fetch size (put size a i code) a = some i := fetch_put hw
      refine ⟨fetch_congr (hsize i) hput fun k hk => ?_, ih (by omega)⟩
      rw [emit_outside hsize]
      intro j hj heq
      rw [past_past] at heq
      exact absurd (past_inj (by omega) (by omega) heq) (by omega)

end Layout

end Mambo.CodeCells
