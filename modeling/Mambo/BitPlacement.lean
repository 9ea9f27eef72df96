import Mathlib.Data.BitVec
import Mathlib.Tactic.Common
import Mathlib.Tactic.FunProp

namespace Mambo.BitPlacement

variable {m n p : Nat}

/-- A map of bit vectors that sends each bit where it goes without regard to the others. -/
@[fun_prop]
structure Bitwise (f : BitVec m → BitVec n) : Prop where
  zero : f 0#m = 0#n
  or : ∀ a b, f (a ||| b) = f a ||| f b

namespace Bitwise

variable {f g : BitVec m → BitVec n}

@[fun_prop]
theorem id : Bitwise fun v : BitVec m => v :=
  ⟨rfl, fun _ _ => rfl⟩

@[fun_prop]
theorem const_zero : Bitwise fun _ : BitVec m => 0#n :=
  ⟨rfl, fun _ _ => BitVec.or_self.symm⟩

@[fun_prop]
theorem comp {h : BitVec n → BitVec p} (hh : Bitwise h) (hf : Bitwise f) : Bitwise fun v => h (f v) :=
  ⟨by rw [hf.zero, hh.zero], fun a b => by rw [hf.or, hh.or]⟩

@[fun_prop]
theorem join (hf : Bitwise f) (hg : Bitwise g) : Bitwise fun v => f v ||| g v := by
  refine ⟨by rw [hf.zero, hg.zero, BitVec.or_self], fun a b => ?_⟩
  rw [hf.or, hg.or]
  ac_rfl

@[fun_prop]
theorem mask (hf : Bitwise f) (c : BitVec n) : Bitwise fun v => f v &&& c := by
  refine ⟨by rw [hf.zero, BitVec.zero_and], fun a b => ?_⟩
  rw [hf.or, BitVec.and_comm, BitVec.and_or_distrib_left, BitVec.and_comm c, BitVec.and_comm c]

@[fun_prop]
theorem shiftLeft (hf : Bitwise f) (k : Nat) : Bitwise fun v => f v <<< k :=
  ⟨by rw [hf.zero, BitVec.zero_shiftLeft], fun a b => by rw [hf.or, BitVec.shiftLeft_or_distrib]⟩

@[fun_prop]
theorem ushiftRight (hf : Bitwise f) (k : Nat) : Bitwise fun v => f v >>> k :=
  ⟨by rw [hf.zero, BitVec.zero_ushiftRight], fun a b => by rw [hf.or, BitVec.ushiftRight_or_distrib]⟩

@[fun_prop]
theorem setWidth (hf : Bitwise f) (k : Nat) : Bitwise fun v => (f v).setWidth k :=
  ⟨by rw [hf.zero, BitVec.setWidth_zero], fun a b => by rw [hf.or, BitVec.setWidth_or]⟩

@[fun_prop]
theorem signExtend (hf : Bitwise f) (k : Nat) : Bitwise fun v => (f v).signExtend k :=
  ⟨by simp [hf.zero, BitVec.signExtend], fun a b => by rw [hf.or, BitVec.signExtend_or]⟩

@[fun_prop]
theorem extractLsb' (hf : Bitwise f) (k len : Nat) : Bitwise fun v => (f v).extractLsb' k len :=
  ⟨by rw [hf.zero, BitVec.extractLsb'_zero], fun a b => by rw [hf.or, BitVec.extractLsb'_or]⟩

@[fun_prop]
theorem append {h : BitVec m → BitVec p} (hf : Bitwise f) (hh : Bitwise h) : Bitwise fun v => f v ++ h v :=
  ⟨by rw [hf.zero, hh.zero, BitVec.zero_append_zero], fun a b => by rw [hf.or, hh.or, BitVec.or_append]⟩

theorem eq_of_bits (hf : Bitwise f) (hg : Bitwise g) (v : BitVec m)
    (h : ∀ i, i < m → v.getLsbD i = true → f (.twoPow m i) = g (.twoPow m i)) : f v = g v := by
  have low : ∀ k, k ≤ m → f ((v.setWidth k).setWidth m) = g ((v.setWidth k).setWidth m) := by
    intro k
    induction k with
    | zero =>
      intro _
      rw [BitVec.of_length_zero (x := v.setWidth 0), BitVec.setWidth_zero, hf.zero, hg.zero]
    | succ k ih =>
      intro hk
      cases hbit : v.getLsbD k with
      | false =>
        rw [BitVec.setWidth_setWidth_succ_eq_setWidth_setWidth_of_getLsbD_false hbit]
        exact ih (by omega)
      | true =>
        rw [BitVec.setWidth_setWidth_succ_eq_setWidth_setWidth_or_twoPow_of_getLsbD_true hbit, hf.or, hg.or,
          ih (by omega), h k hk hbit]
  have hall := low m le_rfl
  rwa [BitVec.setWidth_eq, BitVec.setWidth_eq] at hall

/-- Two such maps are equal when they send every single bit to the same place. -/
theorem ext (hf : Bitwise f) (hg : Bitwise g) (h : ∀ i : Fin m, f (.twoPow m i) = g (.twoPow m i)) (v : BitVec m) :
    f v = g v :=
  hf.eq_of_bits hg v fun i hi _ => h ⟨i, hi⟩

theorem ext_of_clear (hf : Bitwise f) (hg : Bitwise g) {ks : List Nat}
    (h : ∀ i : Fin m, i.val ∉ ks → f (.twoPow m i) = g (.twoPow m i)) (v : BitVec m)
    (hv : ∀ k ∈ ks, v.getLsbD k = false) : f v = g v := by
  refine hf.eq_of_bits hg v fun i hi hbit => h ⟨i, hi⟩ fun hmem => ?_
  rw [hv i hmem] at hbit
  exact Bool.false_ne_true hbit

end Bitwise

/-- Two fields as the parts of one value, for maps that read both. -/
theorem exists_fields (hi : BitVec m) (lo : BitVec n) :
    ∃ v : BitVec (m + n), v.extractLsb' n m = hi ∧ v.extractLsb' 0 n = lo :=
  ⟨hi ++ lo, BitVec.extractLsb'_append_eq_left, BitVec.extractLsb'_append_eq_right⟩

end Mambo.BitPlacement
