import Mambo.NaiveStdlib

namespace Mambo.NaiveStdlibExact

open PartialMemory PartialMemory.Memory NaiveStdlib

section Specification

variable {w : Nat}

/-- A string is its characters, none of which is zero, and a zero. -/
structure IsString (m : Memory w) (a : Nat) (chars : List Byte) : Prop where
  holds : m.Holds a (chars ++ [0])
  nonzero : 0 ∉ chars

/-- A string of which the first n bytes may be accessed. -/
structure IsPrefix (m : Memory w) (a : Nat) (chars : List Byte) (n : Nat) : Prop where
  holds : m.Holds a ((chars ++ [0]).take n)
  nonzero : 0 ∉ chars

def positions (a : Nat) (xs : List Byte) (b : Byte) : List Nat := ((xs.zipIdx a).filter (·.1 = b)).map (·.2)

/-- The order of two strings: the lexicographic one, of unsigned bytes. -/
def order (xs ys : List Byte) : Int := if xs < ys then -1 else if ys < xs then 1 else 0

/-- How many characters there are up to the first that is not within, or not without, a set. -/
def span (set : List Byte) (within : Bool) (chars : List Byte) : Nat :=
  (chars.takeWhile fun b => decide (b ∈ set) = within).length

/-- Each of these and the one after is at, or its absence shows at, an index of the set that is an int. -/
def Indexed (set : List Byte) (within : Bool) : List Byte → Prop
  | [] => True
  | b :: chars => set.idxOf b < 2 ^ 31 ∧ (decide (b ∈ set) = within → Indexed set within chars)

end Specification

section Positions

variable {a : Nat} {x b : Byte} {xs : List Byte} {k : Nat}

@[simp] theorem positions_nil : positions a [] b = [] := rfl

theorem positions_cons : positions a (x :: xs) b =
    if x = b then a :: positions (a + 1) xs b else positions (a + 1) xs b := by
  rw [positions, List.zipIdx_cons, List.filter_cons, positions]
  by_cases hx : x = b <;> simp [hx]

theorem mem_positions : k ∈ positions a xs b → a ≤ k := by
  intro hk
  obtain ⟨p, hp, rfl⟩ := List.mem_map.mp hk
  exact List.le_snd_of_mem_zipIdx (List.mem_filter.mp hp).1

theorem positions_eq_nil : positions a xs b = [] ↔ b ∉ xs := by
  induction xs generalizing a with
  | nil => simp
  | cons x xs ih =>
      rw [positions_cons, List.mem_cons]
      by_cases hx : x = b
      · simp [hx]
      · rw [if_neg hx, ih]
        simp [Ne.symm hx]

end Positions

section Characters

variable {b : Byte} {c : BitVec 32}

/-- A character is found for an int that has its value, not for one that is converted to it. -/
theorem promote_eq : promote b = c ↔ c.toNat ≤ 255 ∧ b = toChar c := by
  have hb := b.isLt
  constructor
  · rintro rfl
    refine ⟨?_, ?_⟩
    · rw [promote, BitVec.toNat_setWidth]; omega
    · rw [promote, toChar]
      apply BitVec.eq_of_toNat_eq
      rw [BitVec.toNat_setWidth, BitVec.toNat_setWidth]
      omega
  · rintro ⟨hc, rfl⟩
    apply BitVec.eq_of_toNat_eq
    rw [promote, toChar, BitVec.toNat_setWidth, BitVec.toNat_setWidth]
    omega

theorem zero_eq_toChar (hc : c.toNat ≤ 255) : 0 = toChar c ↔ c = 0 := by
  have hzero : promote 0 = c ↔ (0 : Byte) = toChar c := promote_eq.trans (and_iff_right hc)
  rw [← hzero, eq_comm]
  rfl

end Characters

section Strings

variable {w : Nat} {m : Memory w} {a n : Nat} {x : Byte} {chars : List Byte}

theorem IsString.first (h : IsString m a (x :: chars)) : m.byte a = some x ∧ x ≠ 0 :=
  ⟨h.holds.1, fun heq => h.nonzero (heq ▸ List.mem_cons_self)⟩

theorem IsString.rest (h : IsString m a (x :: chars)) : IsString m (a + 1) chars :=
  ⟨h.holds.2, fun hmem => h.nonzero (List.mem_cons_of_mem x hmem)⟩

theorem IsString.last (h : IsString m a []) : m.byte a = some 0 := h.holds.1

theorem IsString.head (h : IsString m a chars) : m.byte a = some (chars.headD 0) := by
  cases chars with
  | nil => exact h.last
  | cons x chars => exact h.first.1

theorem IsString.pos (h : IsString m a chars) : 0 < a := Nat.pos_of_ne_zero (ne_zero_of_byte h.head)

theorem IsPrefix.first (h : IsPrefix m a (x :: chars) (n + 1)) : m.byte a = some x ∧ x ≠ 0 :=
  ⟨h.holds.1, fun heq => h.nonzero (heq ▸ List.mem_cons_self)⟩

theorem IsPrefix.rest (h : IsPrefix m a (x :: chars) (n + 1)) : IsPrefix m (a + 1) chars n :=
  ⟨h.holds.2, fun hmem => h.nonzero (List.mem_cons_of_mem x hmem)⟩

theorem IsPrefix.last (h : IsPrefix m a [] (n + 1)) : m.byte a = some 0 := h.holds.1

theorem IsPrefix.head (h : IsPrefix m a chars (n + 1)) : m.byte a = some (chars.headD 0) := by
  cases chars with
  | nil => exact h.last
  | cons x chars => exact h.first.1

theorem headD_take (chars : List Byte) (n : Nat) : (chars.take (n + 1)).headD 0 = chars.headD 0 := by
  cases chars <;> rfl

end Strings

section Searches

variable {w : Nat} {m : Memory w} {s n : Nat} {c : BitVec 32} {xs chars : List Byte}

theorem loop_index (h : IsString m s chars) {fuel : Nat} (hfuel : chars.length < fuel) :
    loop (indexRound m c) fuel s =
      some (if c.toNat ≤ 255 then (positions s (chars ++ [0]) (toChar c)).headD 0 else 0) := by
  induction chars generalizing s fuel with
  | nil =>
      obtain ⟨fuel, rfl⟩ : ∃ k, fuel = k + 1 := ⟨fuel - 1, by omega⟩
      rw [loop_leave (by rw [indexRound, bind_byte h.last, if_neg (by simp)]; rfl), List.nil_append, positions_cons]
      by_cases hc : c.toNat ≤ 255
      · simp only [if_pos hc, zero_eq_toChar hc]
        by_cases hzero : c = 0
        · simp only [hzero, and_true, if_true]
          rfl
        · simp only [hzero, false_and, if_false]
          rfl
      · rw [if_neg hc, if_neg (by rintro ⟨rfl, -⟩; exact hc (by decide))]
  | cons x chars ih =>
      obtain ⟨fuel, rfl⟩ : ∃ k, fuel = k + 1 := ⟨fuel - 1, by omega⟩
      obtain ⟨hx, hne⟩ := h.first
      rw [List.length_cons] at hfuel
      rw [List.cons_append, positions_cons]
      by_cases hmatch : promote x = c
      · obtain ⟨hc, heq⟩ := promote_eq.mp hmatch
        rw [loop_leave (by rw [indexRound, bind_byte hx, if_pos hne, if_pos hmatch]; rfl), if_pos hc, if_pos heq]
        rfl
      · rw [loop_on (by rw [indexRound, bind_byte hx, if_pos hne, if_neg hmatch]; rfl), ih h.rest (by omega)]
        by_cases hc : c.toNat ≤ 255
        · rw [if_pos hc, if_pos hc, if_neg fun heq => hmatch (promote_eq.mpr ⟨hc, heq⟩)]
        · rw [if_neg hc, if_neg hc]

/-- The first position, for an int that is a char; any other is missed. -/
theorem index_iff (h : IsString m s chars) :
    Returns (fun fuel => memcheckIndex m fuel s c) ((positions s (chars ++ [0]) (toChar c)).headD 0) ↔
      c.toNat ≤ 255 ∨ toChar c ∉ chars ++ [0] := by
  have hsettles : Settles (fun fuel => memcheckIndex m fuel s c) _ := .after _ fun _ => loop_index h
  rw [hsettles.returns_iff, Option.some.injEq]
  by_cases hc : c.toNat ≤ 255
  · simp [hc]
  · rw [if_neg hc, or_iff_right hc, ← positions_eq_nil (a := s)]
    cases hpos : positions s (chars ++ [0]) (toChar c) with
    | nil => simp
    | cons k rest =>
        have hle : s ≤ k := mem_positions (hpos ▸ List.mem_cons_self)
        have := h.pos
        simp
        omega

theorem loop_rindex (h : IsString m s chars) {fuel ret : Nat} (hfuel : chars.length < fuel) :
    loop (rindexRound m c) fuel (ret, s) =
      some (if c.toNat ≤ 255 then (positions s (chars ++ [0]) (toChar c)).getLastD ret else ret) := by
  induction chars generalizing s fuel ret with
  | nil =>
      obtain ⟨fuel, rfl⟩ : ∃ k, fuel = k + 1 := ⟨fuel - 1, by omega⟩
      rw [loop_leave (by rw [rindexRound, bind_byte h.last, if_neg (by simp)]; rfl), List.nil_append, positions_cons]
      by_cases hc : c.toNat ≤ 255
      · simp only [if_pos hc, zero_eq_toChar hc]
        by_cases hzero : c = 0
        · simp only [hzero, and_true, if_true]
          rfl
        · simp only [hzero, false_and, if_false]
          rfl
      · rw [if_neg hc, if_neg (by rintro ⟨rfl, -⟩; exact hc (by decide))]
  | cons x chars ih =>
      obtain ⟨fuel, rfl⟩ : ∃ k, fuel = k + 1 := ⟨fuel - 1, by omega⟩
      obtain ⟨hx, hne⟩ := h.first
      rw [List.length_cons] at hfuel
      rw [loop_on (by rw [rindexRound, bind_byte hx, if_pos hne]; rfl), ih h.rest (by omega), List.cons_append,
        positions_cons]
      by_cases hmatch : promote x = c
      · obtain ⟨hc, heq⟩ := promote_eq.mp hmatch
        rw [if_pos hc, if_pos hc, if_pos hmatch, if_pos heq, List.getLastD_cons]
      · by_cases hc : c.toNat ≤ 255
        · rw [if_pos hc, if_pos hc, if_neg hmatch, if_neg fun heq => hmatch (promote_eq.mpr ⟨hc, heq⟩)]
        · rw [if_neg hc, if_neg hc, if_neg hmatch]

theorem rindex_iff (h : IsString m s chars) :
    Returns (fun fuel => memcheckRindex m fuel s c) ((positions s (chars ++ [0]) (toChar c)).getLastD 0) ↔
      c.toNat ≤ 255 ∨ toChar c ∉ chars ++ [0] := by
  have hsettles : Settles (fun fuel => memcheckRindex m fuel s c) _ := .after _ fun _ => loop_rindex h
  rw [hsettles.returns_iff, Option.some.injEq]
  by_cases hc : c.toNat ≤ 255
  · simp [hc]
  · rw [if_neg hc, or_iff_right hc, ← positions_eq_nil (a := s)]
    rcases List.eq_nil_or_concat (positions s (chars ++ [0]) (toChar c)) with hpos | ⟨rest, k, hpos⟩
    · rw [hpos]
      simp
    · have hle : s ≤ k := mem_positions (by rw [hpos]; simp)
      have := h.pos
      rw [hpos]
      simp
      omega

theorem loop_memchr {i fuel : Nat} (h : m.Holds (s + i) xs) (hlen : i + xs.length ≤ n)
    (hend : toChar c ∈ xs ∨ i + xs.length = n) (hfuel : xs.length < fuel) :
    loop (memchrRound m s c n) fuel i = some ((positions (s + i) xs (toChar c)).headD 0) := by
  induction xs generalizing i fuel with
  | nil =>
      obtain ⟨fuel, rfl⟩ : ∃ k, fuel = k + 1 := ⟨fuel - 1, by omega⟩
      have hi : ¬i < n := by simp at hend; omega
      exact loop_leave (if_neg hi)
  | cons x xs ih =>
      obtain ⟨fuel, rfl⟩ : ∃ k, fuel = k + 1 := ⟨fuel - 1, by omega⟩
      rw [List.length_cons] at hlen hend hfuel
      rw [positions_cons]
      have hi : i < n := by omega
      by_cases hmatch : x = toChar c
      · rw [loop_leave (by rw [memchrRound, if_pos hi, bind_byte h.1, if_pos hmatch]; rfl), if_pos hmatch]
        rfl
      · rw [loop_on (by rw [memchrRound, if_pos hi, bind_byte h.1, if_neg hmatch]; rfl), if_neg hmatch]
        refine ih h.2 (by omega) (hend.imp (fun hmem => ?_) (by omega)) (by omega)
        exact (List.mem_cons.mp hmem).resolve_left (Ne.symm hmatch)

theorem memchr_returns (h : m.Holds s xs) (hlen : xs.length ≤ n) (hend : toChar c ∈ xs ∨ xs.length = n) :
    Returns (fun fuel => memcheckMemchr m fuel s c n) ((positions s xs (toChar c)).headD 0) :=
  .after _ fun _ => loop_memchr h (by omega) (hend.imp_right (by omega))

theorem rawmemchr_returns (h : m.Holds s xs) (hmem : toChar c ∈ xs) :
    Returns (fun fuel => memcheckRawmemchr m fuel s c) ((positions s xs (toChar c)).headD 0) := by
  have hrange := h.range (List.ne_nil_of_mem hmem)
  exact memchr_returns h (by omega) (.inl hmem)

theorem loop_strchrnul (h : IsString m s chars) {fuel : Nat} (hfuel : chars.length < fuel) :
    loop (strchrnulRound m c) fuel s = some ((positions s chars (toChar c)).headD (s + chars.length)) := by
  induction chars generalizing s fuel with
  | nil =>
      obtain ⟨fuel, rfl⟩ : ∃ k, fuel = k + 1 := ⟨fuel - 1, by omega⟩
      exact loop_leave (by rw [strchrnulRound, bind_byte h.last, if_neg (by simp)]; rfl)
  | cons x chars ih =>
      obtain ⟨fuel, rfl⟩ : ∃ k, fuel = k + 1 := ⟨fuel - 1, by omega⟩
      obtain ⟨hx, hne⟩ := h.first
      rw [List.length_cons] at hfuel
      rw [positions_cons]
      by_cases hmatch : x = toChar c
      · rw [loop_leave (by rw [strchrnulRound, bind_byte hx, if_neg (by simp [hmatch])]; rfl), if_pos hmatch]
        rfl
      · rw [loop_on (by rw [strchrnulRound, bind_byte hx, if_pos ⟨hmatch, hne⟩]; rfl), ih h.rest (by omega),
          if_neg hmatch, List.length_cons, show s + 1 + chars.length = s + (chars.length + 1) by omega]

end Searches

section Comparisons

variable {w : Nat} {m : Memory w} {s1 s2 i n fuel : Nat} {a b : Byte} {xs ys : List Byte}

theorem sign_self (a : Byte) : sign a a = 0 := by rw [sign, if_neg (BitVec.lt_irrefl a), if_neg (BitVec.lt_irrefl a)]

theorem order_self (xs : List Byte) : order xs xs = 0 := by
  rw [order, if_neg (List.lt_irrefl xs), if_neg (List.lt_irrefl xs)]

theorem order_same : order (a :: xs) (a :: ys) = order xs ys := by
  simp only [order, List.cons_lt_cons_iff, BitVec.lt_irrefl, false_or, true_and]

theorem order_ne (hne : a ≠ b) : order (a :: xs) (b :: ys) = sign a b := by
  simp only [order, sign, List.cons_lt_cons_iff, hne, hne.symm, false_and, or_false]

theorem order_heads (hx : 0 ∉ xs) (hy : 0 ∉ ys) (hend : xs.headD 0 = ys.headD 0 → xs.headD 0 = 0) :
    order xs ys = sign (xs.headD 0) (ys.headD 0) := by
  cases xs with
  | nil =>
      cases ys with
      | nil => rw [order_self, sign_self]
      | cons b ys =>
          have hpos : 0 < b := (BitVec.pos_iff_ne_zero _).mpr fun heq => hy (heq ▸ List.mem_cons_self)
          rw [order, if_pos (List.nil_lt_cons b ys)]
          exact (if_pos hpos).symm
  | cons a xs =>
      have hne : a ≠ 0 := fun heq => hx (heq ▸ List.mem_cons_self)
      cases ys with
      | nil =>
          rw [order, if_neg (List.not_lt_nil (a :: xs)), if_pos (List.nil_lt_cons a xs)]
          exact ((if_neg BitVec.not_lt_zero).trans (if_pos ((BitVec.pos_iff_ne_zero _).mpr hne))).symm
      | cons b ys => exact order_ne fun heq => hne (hend heq)

theorem cons_of_head (heq : xs.headD 0 = ys.headD 0) (hne : xs.headD 0 ≠ 0) :
    ∃ a xs' ys', xs = a :: xs' ∧ ys = a :: ys' := by
  cases xs with
  | nil => exact absurd rfl hne
  | cons a xs =>
      cases ys with
      | nil => exact absurd heq hne
      | cons b ys => exact ⟨a, xs, ys, rfl, congrArg (· :: ys) (show b = a from heq.symm)⟩

theorem loop_bcmp (hx : m.Holds (s1 + i) xs) (hy : m.Holds (s2 + i) ys) (hlen : xs.length = ys.length)
    (hn : i + xs.length = n) (hfuel : xs.length < fuel) :
    loop (bcmpRound m s1 s2 n) fuel i = some (if xs = ys then 0 else -1) := by
  induction xs generalizing ys i fuel with
  | nil =>
      obtain rfl := List.length_eq_zero_iff.mp hlen.symm
      obtain ⟨fuel, rfl⟩ : ∃ k, fuel = k + 1 := ⟨fuel - 1, by omega⟩
      rw [List.length_nil] at hn
      exact loop_leave (if_neg (by omega))
  | cons a xs ih =>
      obtain ⟨fuel, rfl⟩ : ∃ k, fuel = k + 1 := ⟨fuel - 1, by omega⟩
      obtain ⟨b, ys, rfl⟩ := List.exists_cons_of_length_eq_add_one hlen.symm
      rw [List.length_cons] at hn hfuel
      have hi : i < n := by omega
      by_cases hab : a = b
      · rw [loop_on (by rw [bcmpRound, if_pos hi, bind_byte hx.1, bind_byte hy.1, if_neg (not_not.mpr hab)]; rfl),
          ih hx.2 hy.2 (Nat.succ.inj hlen) (by omega) (by omega)]
        simp [hab]
      · rw [loop_leave (by rw [bcmpRound, if_pos hi, bind_byte hx.1, bind_byte hy.1, if_pos hab]; rfl),
          if_neg fun heq => hab (List.cons.inj heq).1]

theorem bcmp_returns (hx : m.Holds s1 xs) (hy : m.Holds s2 ys) (hlen : xs.length = ys.length) :
    Returns (fun fuel => memcheckBcmp m fuel s1 s2 xs.length) (if xs = ys then 0 else -1) :=
  .after _ fun _ => loop_bcmp hx hy hlen (Nat.zero_add _)

theorem loop_strcmp (hx : IsString m (s1 + i) xs) (hy : IsString m (s2 + i) ys) (hfuel : xs.length < fuel) :
    loop (strcmpRound m s1 s2) fuel i = some (order xs ys) := by
  induction fuel generalizing xs ys i with
  | zero => omega
  | succ fuel ih =>
      by_cases hgo : xs.headD 0 = ys.headD 0 ∧ xs.headD 0 ≠ 0
      · rw [loop_on (by rw [strcmpRound, bind_byte hx.head, bind_byte hy.head, if_pos hgo]; rfl)]
        obtain ⟨a, xs, ys, rfl, rfl⟩ := cons_of_head hgo.1 hgo.2
        rw [List.length_cons] at hfuel
        rw [ih hx.rest hy.rest (by omega), order_same]
      · rw [order_heads hx.nonzero hy.nonzero (by tauto)]
        exact loop_leave (by rw [strcmpRound, bind_byte hx.head, bind_byte hy.head, if_neg hgo]; rfl)

theorem strcmp_returns (hx : IsString m s1 xs) (hy : IsString m s2 ys) :
    Returns (fun fuel => memcheckStrcmp m fuel s1 s2) (order xs ys) := .after _ fun _ => loop_strcmp hx hy

theorem loop_strncmp {k : Nat} (hx : IsPrefix m (s1 + i) xs (k + 1)) (hy : IsPrefix m (s2 + i) ys (k + 1))
    (hn : i + (k + 1) = n) (hfuel : k < fuel) :
    loop (strncmpRound m s1 s2 n) fuel i = some (order (xs.take (k + 1)) (ys.take (k + 1))) := by
  induction fuel generalizing xs ys i k with
  | zero => omega
  | succ fuel ih =>
      by_cases hgo : xs.headD 0 = ys.headD 0 ∧ xs.headD 0 ≠ 0 ∧ i + 1 < n
      · rw [loop_on (by rw [strncmpRound, bind_byte hx.head, bind_byte hy.head, if_pos hgo]; rfl)]
        obtain ⟨a, xs, ys, rfl, rfl⟩ := cons_of_head hgo.1 hgo.2.1
        obtain ⟨k, rfl⟩ : ∃ j, k = j + 1 := ⟨k - 1, by omega⟩
        rw [ih hx.rest hy.rest (by omega) (by omega), List.take_succ_cons, List.take_succ_cons, order_same]
      · rw [loop_leave (by rw [strncmpRound, bind_byte hx.head, bind_byte hy.head, if_neg hgo]; rfl),
          ← headD_take xs k, ← headD_take ys k]
        by_cases hsame : xs.headD 0 = ys.headD 0 ∧ xs.headD 0 ≠ 0
        · obtain ⟨a, xs, ys, rfl, rfl⟩ := cons_of_head hsame.1 hsame.2
          obtain rfl : k = 0 := by
            by_contra hk
            exact hgo ⟨hsame.1, hsame.2, by omega⟩
          simp only [List.take_succ_cons, List.take_zero, order_self]
          exact congrArg some (sign_self a)
        · refine congrArg some (order_heads ?_ ?_ ?_).symm
          · exact fun hmem => hx.nonzero (List.mem_of_mem_take hmem)
          · exact fun hmem => hy.nonzero (List.mem_of_mem_take hmem)
          · rw [headD_take, headD_take]
            tauto

theorem strncmp_returns (hx : IsPrefix m s1 xs n) (hy : IsPrefix m s2 ys n) :
    Returns (fun fuel => memcheckStrncmp m fuel s1 s2 n) (order (xs.take n) (ys.take n)) := by
  refine .after n fun fuel hfuel => ?_
  rw [memcheckStrncmp]
  cases n with
  | zero => rw [if_pos rfl, List.take_zero, List.take_zero, order_self]
  | succ k =>
      rw [if_neg k.succ_ne_zero]
      exact loop_strncmp hx hy (Nat.zero_add _) (by omega)

end Comparisons

section Lengths

variable {w : Nat} {m : Memory w} {s n fuel len : Nat} {chars : List Byte}

theorem loop_strlen (h : IsString m (s + len) chars) (hfuel : chars.length < fuel) :
    loop (strlenRound m s) fuel len = some (len + chars.length) := by
  induction chars generalizing len fuel with
  | nil =>
      obtain ⟨fuel, rfl⟩ : ∃ k, fuel = k + 1 := ⟨fuel - 1, by omega⟩
      exact loop_leave (by rw [strlenRound, bind_byte h.last, if_neg (by simp)]; rfl)
  | cons x chars ih =>
      obtain ⟨fuel, rfl⟩ : ∃ k, fuel = k + 1 := ⟨fuel - 1, by omega⟩
      obtain ⟨hx, hne⟩ := h.first
      rw [List.length_cons] at hfuel
      rw [loop_on (by rw [strlenRound, bind_byte hx, if_pos hne]; rfl), ih h.rest (by omega), List.length_cons,
        show len + 1 + chars.length = len + (chars.length + 1) by omega]

theorem strlen_returns (h : IsString m s chars) : Returns (fun fuel => memcheckStrlen m fuel s) chars.length :=
  .after _ fun fuel hfuel => by
    rw [memcheckStrlen, loop_strlen h hfuel, Nat.zero_add]

theorem loop_strnlen {k : Nat} (h : IsPrefix m (s + len) chars k) (hn : len + k = n) (hfuel : k < fuel) :
    loop (strnlenRound m s n) fuel len = some (len + min k chars.length) := by
  induction k generalizing len fuel chars with
  | zero =>
      obtain ⟨fuel, rfl⟩ : ∃ j, fuel = j + 1 := ⟨fuel - 1, by omega⟩
      rw [Nat.zero_min]
      exact loop_leave (if_neg (by omega))
  | succ k ih =>
      obtain ⟨fuel, rfl⟩ : ∃ j, fuel = j + 1 := ⟨fuel - 1, by omega⟩
      have hlt : len < n := by omega
      cases chars with
      | nil =>
          rw [List.length_nil, Nat.min_zero]
          exact loop_leave (by rw [strnlenRound, if_pos hlt, strlenRound, bind_byte h.last, if_neg (by simp)]; rfl)
      | cons x chars =>
          obtain ⟨hx, hne⟩ := h.first
          rw [loop_on (by rw [strnlenRound, if_pos hlt, strlenRound, bind_byte hx, if_pos hne]; rfl),
            ih h.rest (by omega) (by omega), List.length_cons, Nat.add_min_add_right]
          congr 1
          omega

theorem strnlen_returns (h : IsPrefix m s chars n) :
    Returns (fun fuel => memcheckStrnlen m fuel s n) (min n chars.length) :=
  .after _ fun fuel hfuel => by
    rw [memcheckStrnlen, loop_strnlen h (Nat.zero_add n) hfuel, Nat.zero_add]

end Lengths

section Copies

variable {w : Nat} {m : Memory w} {dest src i n : Nat} {x : Byte} {chars : List Byte}

/-- Objects of so many bytes that have none in common. -/
def Disjoint (dest src n : Nat) : Prop := dest + n ≤ src ∨ src + n ≤ dest

structure Copyable (m : Memory w) (dest src : Nat) (chars : List Byte) : Prop where
  string : IsString m src chars
  room : m.Accessible dest (chars.length + 1)
  disjoint : Disjoint dest src (chars.length + 1)

theorem Copyable.writable (h : Copyable m dest src chars) : m.byte dest ≠ none := h.room 0 (Nat.succ_pos _)

theorem Copyable.rest (h : Copyable m dest src (x :: chars)) (y : Byte) :
    Copyable (m.put dest y h.writable) (dest + 1) (src + 1) chars := by
  have hdisj := h.disjoint
  have hroom := h.room
  rw [Disjoint, List.length_cons] at hdisj
  rw [List.length_cons] at hroom
  have hstring := h.string.rest
  refine ⟨⟨hstring.holds.of_eq fun b hle hlt => put_other _ ?_, hstring.nonzero⟩, fun i hi => ?_, ?_⟩
  · rw [List.length_append, List.length_singleton] at hlt
    omega
  · rw [put_other _ (by omega), Nat.add_assoc, Nat.add_comm 1 i]
    exact hroom (i + 1) (by omega)
  · rw [Disjoint]
    omega

theorem loop_strcpy (h : Copyable m (dest + i) (src + i) chars) :
    ∃ m', m.Overwritten (dest + i) (chars ++ [0]) m' ∧
      ∀ fuel, chars.length < fuel → loop (strcpyRound dest src) fuel (m, i) = some (m', dest) := by
  induction chars generalizing m i with
  | nil =>
      refine ⟨m.put (dest + i) 0 h.writable, .cons h.writable .nil, fun fuel hfuel => ?_⟩
      obtain ⟨fuel, rfl⟩ : ∃ k, fuel = k + 1 := ⟨fuel - 1, by omega⟩
      exact loop_leave (by rw [strcpyRound, bind_byte h.string.last, if_neg (by simp), write_eq h.writable]; rfl)
  | cons x chars ih =>
      obtain ⟨hx, hne⟩ := h.string.first
      obtain ⟨m', hover, hloop⟩ := ih (i := i + 1) (h.rest x)
      refine ⟨m', .cons h.writable hover, fun fuel hfuel => ?_⟩
      obtain ⟨fuel, rfl⟩ : ∃ k, fuel = k + 1 := ⟨fuel - 1, by omega⟩
      rw [List.length_cons] at hfuel
      rw [loop_on (by rw [strcpyRound, bind_byte hx, if_pos hne, write_eq h.writable]; rfl)]
      exact hloop fuel (by omega)

theorem strcpy_returns (h : Copyable m dest src chars) :
    ∃ m', m.Overwritten dest (chars ++ [0]) m' ∧
      Returns (fun fuel => memcheckStrcpy m fuel dest src) (m', dest) := by
  obtain ⟨m', hover, hloop⟩ := loop_strcpy (i := 0) h
  exact ⟨m', hover, .after _ hloop⟩

theorem loop_stpcpy (h : Copyable m dest src chars) :
    ∃ m', m.Overwritten dest (chars ++ [0]) m' ∧
      ∀ fuel, chars.length < fuel → loop stpcpyRound fuel (m, dest, src) = some (m', dest + chars.length) := by
  have hsrc : src ≠ 0 := h.string.pos.ne'
  have hdest : dest ≠ 0 := fun heq => h.writable (heq ▸ m.null)
  have hdisj := h.disjoint
  rw [Disjoint] at hdisj
  have hother : src ≠ dest := by omega
  induction chars generalizing m dest src with
  | nil =>
      refine ⟨m.put dest 0 h.writable, .cons h.writable .nil, fun fuel hfuel => ?_⟩
      obtain ⟨fuel, rfl⟩ : ∃ k, fuel = k + 1 := ⟨fuel - 1, by omega⟩
      have hlast : (m.put dest 0 h.writable).byte src = some 0 := (put_other _ hother).trans h.string.last
      refine loop_leave ?_
      rw [stpcpyRound, bind_byte h.string.last, write_eq h.writable, Option.bind_eq_bind, Option.bind_some,
        bind_byte hlast, if_pos (.inl rfl)]
      rfl
  | cons x chars ih =>
      obtain ⟨hx, hne⟩ := h.string.first
      obtain ⟨m', hover, hloop⟩ := ih (h.rest x) (by omega) (by omega) (h.rest x).disjoint (by omega)
      refine ⟨m', .cons h.writable hover, fun fuel hfuel => ?_⟩
      obtain ⟨fuel, rfl⟩ : ∃ k, fuel = k + 1 := ⟨fuel - 1, by omega⟩
      rw [List.length_cons] at hfuel
      have hagain : (m.put dest x h.writable).byte src = some x := (put_other _ hother).trans hx
      rw [loop_on (by
        rw [stpcpyRound, bind_byte hx, write_eq h.writable, Option.bind_eq_bind, Option.bind_some, bind_byte hagain,
          if_neg (not_or.mpr ⟨hne, hsrc⟩), if_neg hdest]
        rfl), hloop fuel (by omega), List.length_cons, Nat.add_assoc, Nat.add_comm 1]

theorem stpcpy_returns (h : Copyable m dest src chars) :
    ∃ m', m.Overwritten dest (chars ++ [0]) m' ∧
      Returns (fun fuel => memcheckStpcpy m fuel dest src) (m', dest + chars.length) := by
  obtain ⟨m', hover, hloop⟩ := loop_stpcpy h
  exact ⟨m', hover, .after _ hloop⟩

end Copies

section Spans

variable {w : Nat} {m : Memory w} {s set i fuel : Nat} {b : Byte} {xs chars : List Byte}

theorem loop_isIn (h : IsString m (set + i) xs) (hfuel : xs.length < fuel) (hi : i < 2 ^ 31) :
    loop (isInRound m set b) fuel i = if i + xs.idxOf b < 2 ^ 31 then some (decide (b ∈ xs)) else none := by
  induction xs generalizing i fuel with
  | nil =>
      obtain ⟨fuel, rfl⟩ : ∃ k, fuel = k + 1 := ⟨fuel - 1, by omega⟩
      rw [loop_leave (by rw [isInRound, bind_byte h.last, if_pos rfl]; rfl), List.idxOf_nil, Nat.add_zero, if_pos hi]
      simp
  | cons x xs ih =>
      obtain ⟨fuel, rfl⟩ : ∃ k, fuel = k + 1 := ⟨fuel - 1, by omega⟩
      obtain ⟨hx, hne⟩ := h.first
      rw [List.length_cons] at hfuel
      by_cases hmatch : b = x
      · rw [loop_leave (by rw [isInRound, bind_byte hx, if_neg hne, if_pos hmatch]; rfl), hmatch, List.idxOf_cons_self,
          Nat.add_zero, if_pos hi]
        simp
      · rw [List.idxOf_cons_ne _ (Ne.symm hmatch)]
        by_cases hnext : i + 1 < 2 ^ 31
        · rw [loop_on (by rw [isInRound, bind_byte hx, if_neg hne, if_neg hmatch, if_pos hnext]; rfl),
            ih h.rest (by omega) hnext]
          simp [hmatch, Nat.add_assoc, Nat.add_comm 1]
        · rw [loop_stop (by rw [isInRound, bind_byte hx, if_neg hne, if_neg hmatch, if_neg hnext]), if_neg (by omega)]

theorem isIn_eq (h : IsString m set xs) (hfuel : xs.length < fuel) :
    isIn m fuel set b = if xs.idxOf b < 2 ^ 31 then some (decide (b ∈ xs)) else none := by
  rw [isIn, loop_isIn h hfuel (by decide), Nat.zero_add]

theorem span_cons (within : Bool) : span xs within (b :: chars) =
    if decide (b ∈ xs) = within then span xs within chars + 1 else 0 := by
  rw [span, List.takeWhile_cons]
  by_cases hgo : decide (b ∈ xs) = within
  · rw [if_pos (decide_eq_true hgo), if_pos hgo]
    rfl
  · rw [if_neg (by rwa [decide_eq_true_eq]), if_neg hgo]
    rfl

theorem loop_span (within : Bool) (len : Nat) {p rounds : Nat} (hset : IsString m set xs) (h : IsString m p chars)
    (hrounds : xs.length < rounds) (hfuel : chars.length < fuel) :
    (Indexed xs within chars →
        loop (spanRound m rounds set within) fuel (len, p) = some (len + span xs within chars)) ∧
      (¬Indexed xs within chars → loop (spanRound m rounds set within) fuel (len, p) = none) := by
  induction chars generalizing p len fuel with
  | nil =>
      obtain ⟨fuel, rfl⟩ : ∃ k, fuel = k + 1 := ⟨fuel - 1, by omega⟩
      refine ⟨fun _ => ?_, fun hnot => absurd trivial hnot⟩
      exact loop_leave (by rw [spanRound, bind_byte h.last, if_neg (by simp)]; rfl)
  | cons x chars ih =>
      obtain ⟨fuel, rfl⟩ : ∃ k, fuel = k + 1 := ⟨fuel - 1, by omega⟩
      obtain ⟨hx, hne⟩ := h.first
      rw [List.length_cons] at hfuel
      have hround : spanRound m rounds set within (len, p) = (if xs.idxOf x < 2 ^ 31 then
          some (if decide (x ∈ xs) = within then .inl (len + 1, p + 1) else .inr len) else none) := by
        rw [spanRound, bind_byte hx, if_pos hne, isIn_eq hset hrounds]
        split <;> rfl
      rw [Indexed, span_cons]
      by_cases hindex : xs.idxOf x < 2 ^ 31
      · rw [if_pos hindex] at hround
        by_cases hgo : decide (x ∈ xs) = within
        · rw [if_pos hgo] at hround
          have hrest := ih (len + 1) h.rest (show chars.length < fuel by omega)
          have hlen : len + (span xs within chars + 1) = len + 1 + span xs within chars := by omega
          rwa [loop_on hround, if_pos hgo, hlen, and_iff_right hindex, imp_iff_right hgo]
        · rw [if_neg hgo] at hround
          rw [loop_leave hround, if_neg hgo]
          exact ⟨fun _ => rfl, fun hnot => absurd ⟨hindex, fun h => absurd h hgo⟩ hnot⟩
      · rw [if_neg hindex] at hround
        rw [loop_stop hround]
        exact ⟨fun hand => absurd hand.1 hindex, fun _ => rfl⟩

theorem span_iff {within : Bool} (hset : IsString m set xs) (h : IsString m s chars) :
    Returns (fun fuel => loop (spanRound m fuel set within) fuel (0, s)) (span xs within chars) ↔
      Indexed xs within chars := by
  have hloop (fuel : Nat) (hfuel : max xs.length chars.length < fuel) :=
    loop_span within 0 hset h (lt_of_le_of_lt (le_max_left _ _) hfuel) (lt_of_le_of_lt (le_max_right _ _) hfuel)
  simp only [Nat.zero_add] at hloop
  by_cases hindexed : Indexed xs within chars
  · exact iff_of_true (.after _ fun fuel hfuel => (hloop fuel hfuel).1 hindexed) hindexed
  · have hnone : Settles (fun fuel => loop (spanRound m fuel set within) fuel (0, s)) none :=
      .after _ fun fuel hfuel => (hloop fuel hfuel).2 hindexed
    rw [hnone.returns_iff]
    exact iff_of_false (fun heq => by cases heq) hindexed

end Spans

section Calls

variable {w : Nat}

/-- A call: the arguments, and what the objects they point at hold. -/
inductive Call
  | bcmp (s1 s2 : Nat) (xs ys : List Byte)
  | index (s : Nat) (chars : List Byte) (c : BitVec 32)
  | memchr (s : Nat) (xs : List Byte) (c : BitVec 32) (n : Nat)
  | rawmemchr (s : Nat) (xs : List Byte) (c : BitVec 32)
  | rindex (s : Nat) (chars : List Byte) (c : BitVec 32)
  | stpcpy (dest src : Nat) (chars : List Byte)
  | strcmp (s1 s2 : Nat) (xs ys : List Byte)
  | strcpy (dest src : Nat) (chars : List Byte)
  | strncmp (s1 s2 : Nat) (xs ys : List Byte) (n : Nat)
  | strnlen (s : Nat) (chars : List Byte) (maxlen : Nat)
  | strlen (s : Nat) (chars : List Byte)
  | strchrnul (s : Nat) (chars : List Byte) (c : BitVec 32)
  | strspn (s accept : Nat) (chars set : List Byte)
  | strcspn (s reject : Nat) (chars set : List Byte)

namespace Call

/-- The bytes that a function may access are there; no others need to be. -/
def Valid (m : Memory w) : Call → Prop
  | bcmp s1 s2 xs ys => m.Holds s1 xs ∧ m.Holds s2 ys ∧ xs.length = ys.length
  | memchr s xs c n => m.Holds s xs ∧ xs.length ≤ n ∧ (toChar c ∈ xs ∨ xs.length = n)
  | rawmemchr s xs c => m.Holds s xs ∧ toChar c ∈ xs
  | stpcpy dest src chars | strcpy dest src chars => Copyable m dest src chars
  | strcmp s1 s2 xs ys => IsString m s1 xs ∧ IsString m s2 ys
  | strncmp s1 s2 xs ys n => IsPrefix m s1 xs n ∧ IsPrefix m s2 ys n
  | strnlen s chars maxlen => IsPrefix m s chars maxlen
  | index s chars _ | rindex s chars _ | strlen s chars | strchrnul s chars _ => IsString m s chars
  | strspn s set' chars set | strcspn s set' chars set => IsString m s chars ∧ IsString m set' set

/-- The specified result is returned, and where there is one the specified write is made. -/
def Right (m : Memory w) : Call → Prop
  | bcmp s1 s2 xs ys => ∃ r, Returns (fun fuel => memcheckBcmp m fuel s1 s2 xs.length) r ∧ (r = 0 ↔ xs = ys)
  | index s chars c =>
    Returns (fun fuel => memcheckIndex m fuel s c) ((positions s (chars ++ [0]) (toChar c)).headD 0)
  | memchr s xs c n => Returns (fun fuel => memcheckMemchr m fuel s c n) ((positions s xs (toChar c)).headD 0)
  | rawmemchr s xs c => Returns (fun fuel => memcheckRawmemchr m fuel s c) ((positions s xs (toChar c)).headD 0)
  | rindex s chars c =>
    Returns (fun fuel => memcheckRindex m fuel s c) ((positions s (chars ++ [0]) (toChar c)).getLastD 0)
  | stpcpy dest src chars => ∃ m', m.Overwritten dest (chars ++ [0]) m' ∧
      Returns (fun fuel => memcheckStpcpy m fuel dest src) (m', dest + chars.length)
  | strcmp s1 s2 xs ys => Returns (fun fuel => memcheckStrcmp m fuel s1 s2) (order xs ys)
  | strcpy dest src chars => ∃ m', m.Overwritten dest (chars ++ [0]) m' ∧
      Returns (fun fuel => memcheckStrcpy m fuel dest src) (m', dest)
  | strncmp s1 s2 xs ys n => Returns (fun fuel => memcheckStrncmp m fuel s1 s2 n) (order (xs.take n) (ys.take n))
  | strnlen s chars maxlen => Returns (fun fuel => memcheckStrnlen m fuel s maxlen) (min maxlen chars.length)
  | strlen s chars => Returns (fun fuel => memcheckStrlen m fuel s) chars.length
  | strchrnul s chars c =>
    Returns (fun fuel => memcheckStrchrnul m fuel s c) ((positions s chars (toChar c)).headD (s + chars.length))
  | strspn s accept chars set => Returns (fun fuel => memcheckStrspn m fuel s accept) (span set true chars)
  | strcspn s reject chars set => Returns (fun fuel => memcheckStrcspn m fuel s reject) (span set false chars)

/-- The int is a char, or what it would be converted to is not in the string; the searches in a set
stay within the ints. -/
def Handled : Call → Prop
  | index _ chars c | rindex _ chars c => c.toNat ≤ 255 ∨ toChar c ∉ chars ++ [0]
  | strspn _ _ chars set => Indexed set true chars
  | strcspn _ _ chars set => Indexed set false chars
  | _ => True

end Call

/-- A call does what the C library specifies just when it is none of those that are not handled. -/
theorem call_right_iff (m : Memory w) (call : Call) (h : call.Valid m) : call.Right m ↔ call.Handled := by
  cases call with
  | bcmp s1 s2 xs ys =>
      refine iff_of_true ⟨_, bcmp_returns h.1 h.2.1 h.2.2, ?_⟩ trivial
      by_cases heq : xs = ys
      · simp [heq]
      · simp [heq]
  | index s chars c => exact index_iff h
  | memchr s xs c n => exact iff_of_true (memchr_returns h.1 h.2.1 h.2.2) trivial
  | rawmemchr s xs c => exact iff_of_true (rawmemchr_returns h.1 h.2) trivial
  | rindex s chars c => exact rindex_iff h
  | stpcpy dest src chars => exact iff_of_true (stpcpy_returns h) trivial
  | strcmp s1 s2 xs ys => exact iff_of_true (strcmp_returns h.1 h.2) trivial
  | strcpy dest src chars => exact iff_of_true (strcpy_returns h) trivial
  | strncmp s1 s2 xs ys n => exact iff_of_true (strncmp_returns h.1 h.2) trivial
  | strnlen s chars maxlen => exact iff_of_true (strnlen_returns h) trivial
  | strlen s chars => exact iff_of_true (strlen_returns h) trivial
  | strchrnul s chars c => exact iff_of_true (.after _ fun _ => loop_strchrnul h) trivial
  | strspn s accept chars set => exact span_iff h.2 h.1
  | strcspn s reject chars set => exact span_iff h.2 h.1

/-- Memory that holds a string of one letter, é in Latin-1. -/
def letter : Memory 64 := .place 16 [0xE9, 0] (by decide) (by decide)

theorem isString_letter : IsString letter 16 [0xE9] := ⟨⟨rfl, rfl, trivial⟩, by decide⟩

theorem letter_found : (Call.index 16 [0xE9] 0xE9).Right letter :=
  (call_right_iff letter (.index 16 [0xE9] 0xE9) isString_letter).mpr (.inl (by decide))

/-- It is not found by the int that a signed char is converted to. -/
theorem letter_missed : (Call.index 16 [0xE9] 0xFFFFFFE9).Valid letter ∧
    ¬(Call.index 16 [0xE9] 0xFFFFFFE9).Right letter :=
  ⟨isString_letter, fun h => absurd ((index_iff isString_letter).mp h) (by decide)⟩

end Calls

end Mambo.NaiveStdlibExact
