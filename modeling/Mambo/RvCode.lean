import Mambo.Rv

namespace Mambo.RvCode

open CodeRuns Rv

variable {code code' : Code} {a x : Word} {i : Inst} {is js : List Inst}

section Addresses

def past (a : Word) (n : Nat) : Word := a + BitVec.ofNat 64 n

theorem past_zero (a : Word) : past a 0 = a := BitVec.add_zero a

theorem past_past (a : Word) (m n : Nat) : past (past a m) n = past a (m + n) := by
  rw [past, past, past, BitVec.ofNat_add, BitVec.add_assoc]

theorem past_inj {m n : Nat} (hm : m < 2 ^ 64) (hn : n < 2 ^ 64) (h : past a m = past a n) : m = n := by
  have hnat := congrArg BitVec.toNat (add_left_cancel h)
  rwa [BitVec.toNat_ofNat, BitVec.toNat_ofNat, Nat.mod_eq_of_lt hm, Nat.mod_eq_of_lt hn] at hnat

theorem past_sub (a : Word) {m n : Nat} (h : m ≤ n) : past a n - past a m = BitVec.ofNat 64 (n - m) := by
  rw [past, past, add_sub_add_left_eq_sub]
  obtain ⟨d, rfl⟩ := Nat.exists_eq_add_of_le h
  rw [BitVec.ofNat_add, add_sub_cancel_left, Nat.add_sub_cancel_left]

def bytes : List Inst → Nat
  | [] => 0
  | i :: is => i.size + bytes is

theorem bytes_append (is js : List Inst) : bytes (is ++ js) = bytes is + bytes js := by
  induction is with
  | nil => rw [List.nil_append, bytes, Nat.zero_add]
  | cons i is ih => rw [List.cons_append, bytes, ih, bytes, Nat.add_assoc]

theorem size_eq (i : Inst) : i.size = 2 ∨ i.size = 4 := by
  cases i <;> first | exact Or.inl rfl | exact Or.inr rfl

end Addresses

section Layout

def put (a : Word) (i : Inst) (code : Code) : Code :=
  if i.size = 2 then Function.update code a (some (.low i))
  else Function.update (Function.update code a (some (.low i))) (past a 2) (some (.high i))

def emit : Word → List Inst → Code → Code
  | _, [], code => code
  | a, i :: is, code => emit (past a i.size) is (put a i code)

theorem put_outside (h : ∀ k, k < i.size → x ≠ past a k) : put a i code x = code x := by
  have h0 : x ≠ a := by
    rw [← past_zero a]
    exact h 0 (by rcases size_eq i with hs | hs <;> rw [hs] <;> decide)
  rw [put]
  split
  · exact Function.update_of_ne h0 _ _
  · rename_i hsize
    have h2 : x ≠ past a 2 := h 2 (by rcases size_eq i with hs | hs <;> omega)
    rw [Function.update_of_ne h2, Function.update_of_ne h0]

theorem fetch_put : fetch (put a i code) a = some i := by
  have hne : a ≠ past a 2 := fun h => by
    have h0 : past a 0 = past a 2 := (past_zero a).trans h
    exact absurd (past_inj (by decide) (by decide) h0) (by decide)
  rw [put]
  split
  · rename_i hsize
    rw [fetch, Function.update_self]
    exact if_pos (Or.inl hsize)
  · have hlow : Function.update (Function.update code a (some (.low i))) (past a 2) (some (.high i)) a =
        some (.low i) := by
      rw [Function.update_of_ne hne, Function.update_self]
    rw [fetch, hlow]
    exact if_pos (Or.inr (Function.update_self ..))

theorem fetch_congr (hfetch : fetch code a = some i) (h : ∀ k, k < i.size → code (past a k) = code' (past a k)) :
    fetch code' a = some i := by
  have h0 : code a = code' a := by
    rw [← past_zero a]
    exact h 0 (by rcases size_eq i with hs | hs <;> rw [hs] <;> decide)
  rw [fetch] at hfetch
  split at hfetch
  · rename_i j hlow
    split_ifs at hfetch with hhigh
    obtain rfl := Option.some.inj hfetch
    rw [fetch, ← h0, hlow]
    refine if_pos ?_
    rcases size_eq j with hs | hs
    · exact Or.inl hs
    · have h2 : code (past a 2) = code' (past a 2) := h 2 (by omega)
      refine hhigh.imp_right fun hh => ?_
      rw [← hh]
      exact h2.symm
  · exact absurd hfetch (by simp)

theorem codeAt_cons : CodeAt rv (fetch code) a (i :: is) ↔
    fetch code a = some i ∧ CodeAt rv (fetch code) (past a i.size) is := Iff.rfl

theorem past_bytes (a : Word) (is : List Inst) : a + extent rv is = past a (bytes is) := by
  induction is generalizing a with
  | nil => rfl
  | cons i is ih =>
      have hsize : a + rv.size i = past a i.size := rfl
      rw [extent, ← BitVec.add_assoc, hsize, ih, past_past, bytes]

theorem codeAt_append_past : CodeAt rv (fetch code) a (is ++ js) ↔
    CodeAt rv (fetch code) a is ∧ CodeAt rv (fetch code) (past a (bytes is)) js := by
  rw [codeAt_append, past_bytes]

theorem codeAt_congr (h : ∀ k, k < bytes is → code (past a k) = code' (past a k))
    (hcode : CodeAt rv (fetch code) a is) : CodeAt rv (fetch code') a is := by
  induction is generalizing a with
  | nil => trivial
  | cons i is ih =>
      rw [codeAt_cons] at hcode ⊢
      refine ⟨fetch_congr hcode.1 fun k hk => h k ?_, ih (fun k hk => ?_) hcode.2⟩
      · rw [bytes]
        omega
      · rw [past_past]
        exact h _ (by rw [bytes]; omega)

theorem emit_outside (h : ∀ k, k < bytes is → x ≠ past a k) : emit a is code x = code x := by
  induction is generalizing a code with
  | nil => rfl
  | cons i is ih =>
      rw [emit, ih fun k hk => ?_, put_outside fun k hk => h k ?_]
      · rw [bytes]
        omega
      · rw [past_past]
        exact h _ (by rw [bytes]; omega)

theorem emit_codeAt (hlen : bytes is < 2 ^ 64) : CodeAt rv (fetch (emit a is code)) a is := by
  induction is generalizing a code with
  | nil => trivial
  | cons i is ih =>
      rw [bytes] at hlen
      rw [codeAt_cons, emit]
      have hput : fetch (put a i code) a = some i := fetch_put
      refine ⟨fetch_congr hput fun k hk => ?_, ih (by omega)⟩
      rw [emit_outside]
      intro j hj heq
      rw [past_past] at heq
      exact absurd (past_inj (by omega) (by omega) heq) (by omega)

/-- Instructions that go on to the next one run as they stand. -/
def execAll (is : List Inst) (s : State) : State := is.foldl (fun s i => exec i s) s

theorem execAll_cons {s : State} : execAll (i :: is) s = execAll is (exec i s) := rfl

theorem execAll_append {s : State} : execAll (is ++ js) s = execAll js (execAll is s) := List.foldl_append

theorem plain_run {s : State} (hplain : ∀ i ∈ is, Plain rv i) (hcode : CodeAt rv (fetch code) a is) :
    Reaches rv (fetch code) (s.goto a) (execAll is (s.goto a)) :=
  (CodeAt.reaches (s := s.goto a) hplain hcode).1

end Layout

end Mambo.RvCode
