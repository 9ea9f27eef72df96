import Mathlib.Tactic.Ring
import Mambo.CacheRefines

namespace Mambo.CacheRuns

open CacheSim LruCache CacheSets CacheRefines

variable {c c' : Cache} {a b m : Nat} {lru : Lru} {now : Nat} {w : Bool}

/-- The conditions on the lines that are left hold as long as the lines of their
sets do. -/
def Ready (c : Cache) (now : Nat) (lines : List Nat) : Prop :=
  ∀ l ∈ lines, Proper c l ∧ Earlier c (l % c.sets) now

theorem touch_ne_nil (lru : Lru) (assoc sets l : Nat) (w : Bool) :
    (lru.touch assoc sets l w).contents (l % sets) ≠ [] := by
  cases hfind : (lru.contents (l % sets)).find? (·.tag = l / sets) with
  | some b =>
      rw [touch_hit hfind]
      exact (Function.update_self _ _ _).trans_ne (List.cons_ne_nil _ _)
  | none =>
      rw [touch_miss hfind]
      exact (Function.update_self _ _ _).trans_ne (List.cons_ne_nil _ _)

theorem Ready.touches {l : Nat} {rest : List Nat} (h : Ready c now rest) (hs : Shape c a b m)
    (hother : c.assoc = 1 ∨ ∀ l' ∈ rest, l' % c.sets ≠ l % c.sets) (ht : Touches c lru now l w c') :
    Ready c' now rest := by
  obtain ⟨⟨lines, misses, writebacks, rfl⟩, hagrees, hframe⟩ := ht
  intro l' hl'
  obtain ⟨⟨hlast, htag, hunused, hfirst⟩, hearlier⟩ := h l' hl'
  have hset : l' % c.sets < c.sets := Nat.mod_lt _ hs.sets_pos
  by_cases hsame : l' % c.sets = l % c.sets
  · have hone : c.assoc = 1 := hother.resolve_right fun hne => hne l' hl' hsame
    obtain ⟨order, hrep, hcontents⟩ := hagrees.set (l' % c.sets) hset
    have hnonempty : order ≠ [] := by
      rintro rfl
      rw [hsame] at hcontents
      exact touch_ne_nil _ _ _ _ _ hcontents
    obtain ⟨i, hi⟩ := List.exists_mem_of_ne_nil order hnonempty
    obtain ⟨hlt, hstamp⟩ := (hrep.recent.mem i).mp hi
    change i < c.assoc at hlt
    refine ⟨⟨hlast, htag, Or.inr ?_, ?_⟩, Or.inl hone⟩
    · intro j hj
      change j < c.assoc at hj
      rwa [show j = i by omega]
    · intro _ j hj hj0
      change j < c.assoc at hj
      omega
  · have hways := hframe (l' % c.sets) hset hsame
    have hzero := hways 0 hs.assoc_pos
    refine ⟨⟨hlast, htag, hunused.imp_right ?_, ?_⟩, hearlier.imp_right ?_⟩
    · intro hall i hi
      exact (hways i hi).symm ▸ hall i hi
    · intro htag0 i hi hi0
      change (ways (changed c lines misses writebacks) (l' % c.sets) 0).tag >>> 1 = _ at htag0
      change (ways (changed c lines misses writebacks) (l' % c.sets) i).timestamp <
        (ways (changed c lines misses writebacks) (l' % c.sets) 0).timestamp
      rw [hzero] at htag0
      rw [hways i hi, hzero]
      exact hfirst htag0 i hi hi0
    · intro hall i hi
      exact (hways i hi).symm ▸ hall i hi

/-- The fields that neither the loop nor its end changes. -/
def Same (c c' : Cache) : Prop :=
  ∃ lines misses writebacks lastAddr lastLine,
    c' =
      { c with
        lines := lines
        misses := misses
        writebacks := writebacks
        lastAddr := lastAddr
        lastLine := lastLine }

theorem Shape.same (h : Shape c a b m) (hsame : Same c c') : Shape c' a b m := by
  obtain ⟨lines, misses, writebacks, lastAddr, lastLine, rfl⟩ := hsame
  exact ⟨h.lru, h.assoc_pos, h.line_pow, h.set_shift, h.sets_pow, h.set_mask, h.tag_shift, h.fetch_pow,
    h.fetch_shift, h.fetch_lt, h.lines_le⟩

theorem consecutive_sets {sets l n : Nat} (hn : n + 1 ≤ sets) : ∀ l' ∈ List.range' (l + 1) n, l' % sets ≠ l % sets := by
  intro l' hl' heq
  rw [List.mem_range'_1] at hl'
  have hdvd : sets ∣ l' - l := (Nat.modEq_iff_dvd' (by omega)).mp heq.symm
  have hle := Nat.le_of_dvd (by omega) hdvd
  omega

theorem refLoop_agrees (random : Nat → Nat) (hnow : 0 < now) (hmax : now < 2 ^ 64 - 1) {e : Nat} :
    ∀ (n l fuel line : Nat) (c : Cache) (lru : Lru), n + 1 ≤ fuel → Shape c a b m → Agrees c lru now →
      Ready c now (List.range' l n) → (c.references false + c.references true) % 2 ^ 64 = now →
      (c.assoc = 1 ∨ n ≤ c.sets) → (∀ i, i < n → (l + i) * c.lineSize < e) → e ≤ (l + n) * c.lineSize →
      (l + n) * c.lineSize < 2 ^ 64 →
      ∃ c', refLoop random fuel c (l * c.lineSize) e line w = .ok c' ∧ Same c c' ∧
        Agrees c' ((List.range' l n).foldl (fun lru l => lru.touch c.assoc c.sets l w) lru) now := by
  intro n
  induction n with
  | zero =>
      intro l fuel line c lru hfuel _ hagrees _ _ _ _ hend _
      obtain ⟨fuel, rfl⟩ : ∃ k, fuel = k + 1 := ⟨fuel - 1, by omega⟩
      rw [Nat.add_zero] at hend
      refine ⟨_, (by rw [refLoop]; exact if_neg (by omega)), ⟨c.lines, c.misses, c.writebacks, _, _, rfl⟩, ?_⟩
      exact ⟨hagrees.set, hagrees.stamp_le, hagrees.misses_eq, hagrees.writebacks_eq⟩
  | succ n ih =>
      intro l fuel line c lru hfuel hs hagrees hready hrefs hsets hbefore hend hroom
      obtain ⟨fuel, rfl⟩ : ∃ k, fuel = k + 1 := ⟨fuel - 1, by omega⟩
      rw [List.range'_succ] at hready ⊢
      obtain ⟨hp, hearlier⟩ := hready l List.mem_cons_self
      obtain ⟨c₁, k, hline, ht⟩ := hagrees.refLine (w := w) hs hp hearlier hnow hmax hrefs random
      have hother : c.assoc = 1 ∨ ∀ l' ∈ List.range' (l + 1) n, l' % c.sets ≠ l % c.sets :=
        hsets.imp_right consecutive_sets
      have hready' : Ready c₁ now (List.range' (l + 1) n) :=
        Ready.touches (fun l' hl' => hready l' (List.mem_cons_of_mem _ hl')) hs hother ht
      obtain ⟨⟨lines, misses, writebacks, rfl⟩, hagrees', -⟩ := ht
      have hsucc : l + (n + 1) = l + 1 + n := by omega
      have hstep : (l * c.lineSize + c.lineSize) % 2 ^ 64 = (l + 1) * c.lineSize := by
        rw [← Nat.succ_mul, Nat.mod_eq_of_lt]
        exact lt_of_le_of_lt (Nat.mul_le_mul_right _ (by omega)) hroom
      rw [hsucc] at hend hroom
      obtain ⟨c', hloop, hsame, hfinal⟩ := ih (l + 1) fuel k (changed c lines misses writebacks) _ (by omega)
        (Shape.same hs ⟨_, _, _, c.lastAddr, c.lastLine, rfl⟩) hagrees' hready' hrefs
          (hsets.imp_right fun hle => by change n ≤ c.sets; omega)
        (fun i hi => by rw [show l + 1 + i = l + (i + 1) by omega]; exact hbefore (i + 1) (by omega)) hend hroom
      refine ⟨c', ?_, ?_, hfinal⟩
      · rw [refLoop, if_pos (show l * c.lineSize < e from hbefore 0 (by omega)), hline]
        dsimp only
        rw [show (changed c lines misses writebacks).lineSize = c.lineSize from rfl, hstep]
        exact hloop
      · obtain ⟨lines', misses', writebacks', lastAddr, lastLine, rfl⟩ := hsame
        exact ⟨lines', misses', writebacks', lastAddr, lastLine, rfl⟩

section Calls

/-- What a call has to meet in the state it is made on: the conditions on the
lines it touches, no more lines than sets unless the cache is direct mapped, no
overflow of the counter of references, and the end of the last line inside the
address space. -/
structure Meets (c : Cache) (access : Access) : Prop where
  size_pos : 0 < access.size.toNat
  no_wrap : access.addr.toNat + access.size.toNat < 2 ^ 64
  proper : ∀ l ∈ touched c.lineSize access.addr.toNat access.size.toNat, Proper c l
  sets_le : c.assoc = 1 ∨ (touched c.lineSize access.addr.toNat access.size.toNat).length ≤ c.sets
  offset_lt : access.size.toNat + access.addr.toNat % c.maxFetch < 2 ^ 32
  references_lt : c.references false + c.references true + fetches c access.addr.toNat access.size.toNat < 2 ^ 64 - 1
  last_line : ∀ l ∈ touched c.lineSize access.addr.toNat access.size.toNat, (l + 1) * c.lineSize < 2 ^ 64

/-- A list of calls of which each meets the conditions in the state it is made on. -/
def Meeting (random : Nat → Nat) (c : Cache) : List Access → Prop
  | [] => True
  | access :: rest =>
    Meets c access ∧
      ∀ c', cachesimRef random c access.addr access.size access.isWrite = .ok c' → Meeting random c' rest

instance (c : Cache) (l : Nat) : Decidable (Proper c l) :=
  decidable_of_iff (l * c.lineSize ≠ c.lastAddr ∧ l / c.sets < 2 ^ 63 ∧
    (l / c.sets ≠ 0 ∨ ∀ i, i < c.assoc → (ways c (l % c.sets) i).timestamp ≠ 0) ∧
    ((ways c (l % c.sets) 0).tag >>> 1 = l / c.sets →
      ∀ i, i < c.assoc → i ≠ 0 → (ways c (l % c.sets) i).timestamp < (ways c (l % c.sets) 0).timestamp))
    ⟨fun h => ⟨h.1, h.2.1, h.2.2.1, h.2.2.2⟩, fun h => ⟨h.1, h.2, h.3, h.4⟩⟩

instance (c : Cache) (access : Access) : Decidable (Meets c access) :=
  decidable_of_iff (0 < access.size.toNat ∧ access.addr.toNat + access.size.toNat < 2 ^ 64 ∧
    (∀ l ∈ touched c.lineSize access.addr.toNat access.size.toNat, Proper c l) ∧
    (c.assoc = 1 ∨ (touched c.lineSize access.addr.toNat access.size.toNat).length ≤ c.sets) ∧
    access.size.toNat + access.addr.toNat % c.maxFetch < 2 ^ 32 ∧
    c.references false + c.references true + fetches c access.addr.toNat access.size.toNat < 2 ^ 64 - 1 ∧
    ∀ l ∈ touched c.lineSize access.addr.toNat access.size.toNat, (l + 1) * c.lineSize < 2 ^ 64)
    ⟨fun h => ⟨h.1, h.2.1, h.2.2.1, h.2.2.2.1, h.2.2.2.2.1, h.2.2.2.2.2.1, h.2.2.2.2.2.2⟩,
      fun h => ⟨h.1, h.2, h.3, h.4, h.5, h.6, h.7⟩⟩

instance decidableMeeting (random : Nat → Nat) : ∀ (c : Cache) (accesses : List Access),
    Decidable (Meeting random c accesses)
  | _, [] => isTrue trivial
  | c, access :: rest =>
    match h : cachesimRef random c access.addr access.size access.isWrite with
    | .error _ => decidable_of_iff (Meets c access) ⟨fun hm => ⟨hm, fun _ hc => nomatch h.symm.trans hc⟩, And.left⟩
    | .ok c' =>
      have := decidableMeeting random c' rest
      decidable_of_iff (Meets c access ∧ Meeting random c' rest)
        ⟨fun hm => ⟨hm.1, fun _ hc => Except.ok.inj (h.symm.trans hc) ▸ hm.2⟩, fun hm => ⟨hm.1, hm.2 c' h⟩⟩

def accessAll (assoc sets lineSize : Nat) (lru : Lru) (accesses : List Access) : Lru :=
  accesses.foldl (fun lru a => lru.access assoc sets lineSize a.addr.toNat a.size.toNat a.isWrite) lru

theorem fetches_pos (hs : Shape c a b m) {addr size : Nat} (hpos : 0 < size) (hoffset : size + addr % c.maxFetch < 2 ^ 32) :
    0 < fetches c addr size := by
  have hand : addr % 2 ^ 32 &&& (c.maxFetch - 1) = addr % c.maxFetch := by
    rw [hs.fetch_pow, Nat.and_two_pow_sub_one_eq_mod, Nat.mod_mod_of_dvd _ (pow_dvd_pow 2 hs.fetch_lt.le)]
  rw [fetches, hand, Nat.mod_eq_of_lt hoffset, hs.fetch_shift, hs.fetch_pow, Nat.and_two_pow_sub_one_eq_mod,
    Nat.shiftRight_eq_div_pow]
  set t := size + addr % 2 ^ m
  have ht : 0 < t := Nat.lt_of_lt_of_le hpos (Nat.le_add_right _ _)
  by_cases hlt : t < 2 ^ m
  · rw [if_pos (by rw [Nat.mod_eq_of_lt hlt]; omega)]
    exact Nat.succ_pos _
  · exact Nat.add_pos_left (Nat.div_pos (not_lt.mp hlt) (Nat.two_pow_pos m)) _

def referenced (c : Cache) (access : Access) : Cache :=
  { c with
    references := Function.update c.references access.isWrite
      ((c.references access.isWrite + fetches c access.addr.toNat access.size.toNat) % 2 ^ 64) }

def total (c : Cache) : Nat := c.references false + c.references true

theorem referenced_total {access : Access}
    (h : total c + fetches c access.addr.toNat access.size.toNat < 2 ^ 64 - 1) :
    total (referenced c access) = total c + fetches c access.addr.toNat access.size.toNat := by
  unfold total at h ⊢
  rw [referenced]
  dsimp only
  cases access.isWrite with
  | false =>
      rw [Function.update_self, Function.update_of_ne (by decide), Nat.mod_eq_of_lt (by omega)]
      omega
  | true =>
      rw [Function.update_self, Function.update_of_ne (by decide), Nat.mod_eq_of_lt (by omega)]
      omega

/-- The first line of an access starts before its end, its lines are those up to
the end, and there are few of them. -/
theorem touched_bounds {lineSize size : Nat} (addr : Nat) (hline : 0 < lineSize) (hsize : 0 < size) :
    ∃ n, touched lineSize addr size = List.range' (addr / lineSize) n ∧ 0 < n ∧ n ≤ size / lineSize + 2 ∧
      (∀ i, i < n → (addr / lineSize + i) * lineSize < addr + size) ∧
      addr + size ≤ (addr / lineSize + n) * lineSize := by
  have hmono : addr / lineSize ≤ (addr + size - 1) / lineSize := Nat.div_le_div_right (by omega)
  have hlast : (addr + size - 1) / lineSize * lineSize ≤ addr + size - 1 := Nat.div_mul_le_self _ _
  have hnext : addr + size - 1 < ((addr + size - 1) / lineSize + 1) * lineSize := by
    rw [Nat.mul_comm]
    exact Nat.lt_mul_div_succ _ hline
  refine ⟨_, rfl, by omega, ?_, ?_, ?_⟩
  · have hle : (addr + size - 1) / lineSize < addr / lineSize + size / lineSize + 2 := by
      rw [Nat.div_lt_iff_lt_mul hline]
      have h1 := Nat.div_add_mod addr lineSize
      have h2 := Nat.div_add_mod size lineSize
      have h3 := Nat.mod_lt addr hline
      have h4 := Nat.mod_lt size hline
      calc addr + size - 1 < addr + size := by omega
        _ = lineSize * (addr / lineSize) + addr % lineSize + (lineSize * (size / lineSize) + size % lineSize) := by
          rw [h1, h2]
        _ < lineSize * (addr / lineSize) + lineSize + (lineSize * (size / lineSize) + lineSize) := by omega
        _ = (addr / lineSize + size / lineSize + 2) * lineSize := by ring
    omega
  · intro i hi
    have hle : (addr / lineSize + i) * lineSize ≤ (addr + size - 1) / lineSize * lineSize :=
      Nat.mul_le_mul_right _ (by omega)
    omega
  · rw [show addr / lineSize + ((addr + size - 1) / lineSize + 1 - addr / lineSize) =
      (addr + size - 1) / lineSize + 1 by omega]
    omega

theorem cachesimRef_agrees (random : Nat → Nat) {access : Access} (hs : Shape c a b m)
    (h : Agrees c lru (total c)) (hmeets : Meets c access) :
    ∃ c', cachesimRef random c access.addr access.size access.isWrite = .ok c' ∧ Shape c' a b m ∧
      Same (referenced c access) c' ∧
      Agrees c' (lru.access c.assoc c.sets c.lineSize access.addr.toNat access.size.toNat access.isWrite) (total c') := by
  obtain ⟨n, htouched, hn, hfuel, hbefore, hafter⟩ :=
    touched_bounds access.addr.toNat (hs.line_pow ▸ Nat.two_pow_pos a : 0 < c.lineSize) hmeets.size_pos
  have hfetches := fetches_pos hs hmeets.size_pos hmeets.offset_lt
  have htotal := referenced_total hmeets.references_lt
  have hshape : Shape (referenced c access) a b m := ⟨hs.lru, hs.assoc_pos, hs.line_pow, hs.set_shift, hs.sets_pow,
    hs.set_mask, hs.tag_shift, hs.fetch_pow, hs.fetch_shift, hs.fetch_lt, hs.lines_le⟩
  have hstamps : ∀ s i, s < c.sets → i < c.assoc → (ways c s i).timestamp < total (referenced c access) := by
    intro s i hsets hi
    have := h.stamp_le s i hsets hi
    omega
  have hagrees : Agrees (referenced c access) lru (total (referenced c access)) :=
    ⟨h.set, fun s i hsets hi => (hstamps s i hsets hi).le, h.misses_eq, h.writebacks_eq⟩
  have hready : Ready (referenced c access) (total (referenced c access))
      (List.range' (access.addr.toNat / c.lineSize) n) := by
    intro l hl
    rw [← htouched] at hl
    obtain ⟨hlast, htag, hunused, hfirst⟩ := hmeets.proper l hl
    exact ⟨⟨hlast, htag, hunused, hfirst⟩, Or.inr fun i hi => hstamps _ i (Nat.mod_lt _ hs.sets_pos) hi⟩
  have hmax : total (referenced c access) < 2 ^ 64 - 1 := htotal ▸ hmeets.references_lt
  have hsets : c.assoc = 1 ∨ n ≤ c.sets := by
    have hle := hmeets.sets_le
    rwa [htouched, List.length_range'] at hle
  have hroom : (access.addr.toNat / c.lineSize + n) * c.lineSize < 2 ^ 64 := by
    have hlast := hmeets.last_line (access.addr.toNat / c.lineSize + (n - 1)) (by
      rw [htouched, List.mem_range'_1]
      omega)
    rwa [show access.addr.toNat / c.lineSize + (n - 1) + 1 = access.addr.toNat / c.lineSize + n by omega] at hlast
  obtain ⟨c', hloop, hsame, hfinal⟩ := refLoop_agrees (w := access.isWrite) random (by omega) hmax n
    (access.addr.toNat / c.lineSize) (access.size.toNat / c.lineSize + 3) 0 (referenced c access) lru (by omega) hshape
    hagrees hready (Nat.mod_eq_of_lt (by unfold total at hmax; omega)) hsets hbefore hafter hroom
  have hrefs : total c' = total (referenced c access) := by
    obtain ⟨lines, misses, writebacks, lastAddr, lastLine, rfl⟩ := hsame
    rfl
  refine ⟨c', ?_, Shape.same hshape hsame, hsame, ?_⟩
  · have hstart : access.addr.toNat >>> c.setShift <<< c.setShift = access.addr.toNat / c.lineSize * c.lineSize := by
      rw [hs.set_shift, hs.line_pow, Nat.shiftRight_eq_div_pow, Nat.shiftLeft_eq]
    rw [cachesimRef, hstart, Nat.mod_eq_of_lt hmeets.no_wrap]
    exact hloop
  · rw [hrefs, Lru.access, htouched]
    exact hfinal

theorem refAll_agrees (random : Nat → Nat) :
    ∀ (accesses : List Access) (c : Cache) (lru : Lru), Shape c a b m → Agrees c lru (total c) →
      Meeting random c accesses →
      ∃ c', refAll random c accesses = .ok c' ∧
        Agrees c' (accessAll c.assoc c.sets c.lineSize lru accesses) (total c') := by
  intro accesses
  induction accesses with
  | nil => exact fun c lru _ h _ => ⟨c, rfl, h⟩
  | cons access rest ih =>
      intro c lru hs h hmeeting
      obtain ⟨hmeets, hrest⟩ := hmeeting
      obtain ⟨c₁, href, hs₁, hsame, h₁⟩ := cachesimRef_agrees random hs h hmeets
      obtain ⟨c', hall, hfinal⟩ := ih c₁ _ hs₁ h₁ (hrest c₁ href)
      refine ⟨c', ?_, ?_⟩
      · rw [refAll, href]
        exact hall
      · obtain ⟨lines, misses, writebacks, lastAddr, lastLine, rfl⟩ := hsame
        exact hfinal

end Calls

section Init

theorem ctz_two_pow : ∀ e, e < 32 → ctz (2 ^ e) = e := by decide

/-- A power of two that fits in an unsigned int, with its number of trailing zeros. -/
theorem isPow2_ctz {n : Nat} (h : isPow2 n) (hpos : n ≠ 0) (hlt : n < 2 ^ 32) : ctz n < 32 ∧ n = 2 ^ ctz n := by
  rw [isPow2, decide_eq_true_iff] at h
  obtain ⟨e, rfl⟩ := Nat.ne_zero_and_sub_one_eq_zero_iff_isPowerOfTwo.mp ⟨hpos, h⟩
  have he : e < 32 := (Nat.pow_lt_pow_iff_right (by omega)).mp hlt
  rw [ctz_two_pow e he]
  exact ⟨he, rfl⟩

variable {calloc : Nat → Bool} {cache : Cache} {size lineSize maxFetch assoc : BitVec 32}

theorem cachesimModelInit_shape (h : cachesimModelInit calloc cache size lineSize maxFetch assoc .lru = .ok (some c))
    (hway : assoc.toNat * lineSize.toNat < 2 ^ 32) (hindex : size.toNat / lineSize.toNat ≤ 2 ^ 31) :
    (∃ a b m, Shape c a b m) ∧ Agrees c Lru.empty (total c) := by
  have hwrap : (assoc * lineSize).toNat = assoc.toNat * lineSize.toNat := by
    rw [BitVec.toNat_mul, Nat.mod_eq_of_lt hway]
  rw [cachesimModelInit, hwrap] at h
  dsimp only at h
  generalize hfetch : (if maxFetch ≠ 0 then maxFetch.toNat else lineSize.toNat) = fetch at h
  split_ifs at h with hbad hzero hmod hpow hcalloc
  all_goals simp only [Except.ok.injEq, Option.some.injEq, reduceCtorEq] at h
  simp only [not_or, not_not] at hbad
  obtain ⟨-, hline, hassoc, hlinepow, hfetchpow, hle⟩ := hbad
  have hlinene : lineSize.toNat ≠ 0 := fun h0 => hline (BitVec.eq_of_toNat_eq h0)
  have hassocne : assoc.toNat ≠ 0 := fun h0 => hassoc (BitVec.eq_of_toNat_eq h0)
  obtain ⟨hlinelt, hlineeq⟩ := isPow2_ctz hlinepow hlinene lineSize.isLt
  have hsetspos : 0 < size.toNat / (assoc.toNat * lineSize.toNat) :=
    Nat.div_pos (not_lt.mp hle) (Nat.mul_pos (by omega) (by omega))
  obtain ⟨-, hsetseq⟩ := isPow2_ctz hpow hsetspos.ne'
    (lt_of_le_of_lt (Nat.div_le_self _ _) size.isLt)
  obtain ⟨hfetchlt, hfetcheq⟩ : ctz fetch < 32 ∧ fetch = 2 ^ ctz fetch := by
    subst hfetch
    by_cases hne : maxFetch ≠ 0
    · rw [if_pos hne]
      exact isPow2_ctz hfetchpow (fun h0 => hne (BitVec.eq_of_toNat_eq h0)) maxFetch.isLt
    · rw [if_neg hne]
      exact ⟨hlinelt, hlineeq⟩
  have hlines : size.toNat / (assoc.toNat * lineSize.toNat) * assoc.toNat ≤ 2 ^ 31 := by
    rw [Nat.mul_comm assoc.toNat, ← Nat.div_div_eq_div_mul]
    exact (Nat.div_mul_le_self _ _).trans hindex
  subst h
  refine ⟨⟨_, _, _, rfl, Nat.pos_of_ne_zero hassocne, hlineeq, rfl, hsetseq, congrArg (· - 1) hsetseq, rfl, hfetcheq,
    rfl, hfetchlt, hlines⟩, ?_, ?_, fun _ => rfl, fun _ => rfl⟩
  · intro s _
    exact ⟨[], ⟨Recency.recent_none fun _ => rfl, fun _ _ _ => rfl, fun i hi => nomatch hi⟩, rfl⟩
  · exact fun _ _ _ _ => Nat.zero_le _

/-- In every run from an accepted configuration whose calls meet the conditions,
the counters are those of the reference cache. -/
theorem cachesimRef_lru
    (hinit : cachesimModelInit calloc cache size lineSize maxFetch assoc .lru = .ok (some c))
    (hway : assoc.toNat * lineSize.toNat < 2 ^ 32) (hindex : size.toNat / lineSize.toNat ≤ 2 ^ 31)
    (random : Nat → Nat) (accesses : List Access) (hmeeting : Meeting random c accesses) :
    ∃ c', refAll random c accesses = .ok c' ∧
      ∀ w, c'.misses w = (accessAll c.assoc c.sets c.lineSize Lru.empty accesses).misses w % 2 ^ 64 ∧
        c'.writebacks w = (accessAll c.assoc c.sets c.lineSize Lru.empty accesses).writebacks w % 2 ^ 64 := by
  obtain ⟨⟨a, b, m, hs⟩, hagrees⟩ := cachesimModelInit_shape hinit hway hindex
  obtain ⟨c', hall, hfinal⟩ := refAll_agrees random accesses c Lru.empty hs hagrees hmeeting
  exact ⟨c', hall, fun w => ⟨hfinal.misses_eq w, hfinal.writebacks_eq w⟩⟩

def zeroed : Cache :=
  ⟨0, 0, 0, 0, .lru, 0, 0, 0, 0, 0, 0, 0, fun _ => 0, fun _ => 0, fun _ => 0, fun _ => ⟨0, 0⟩, 0⟩

def small : Cache :=
  { zeroed with
    size := 128
    lineSize := 64
    maxFetch := 64
    assoc := 1
    sets := 2
    setShift := 6
    setMask := 1
    tagShift := 7
    maxFetchShift := 6 }

theorem cachesimModelInit_small : cachesimModelInit (fun _ => true) zeroed 128 64 0 1 .lru = .ok (some small) := rfl

/-- A line that is written and then replaced by the read of another one. -/
theorem cachesimRef_lru_small :
    ∃ c', refAll (fun _ => 0) small [⟨0x1000, 4, true⟩, ⟨0x2000, 8, false⟩] = .ok c' ∧
      ∀ w, c'.misses w = (accessAll 1 2 64 Lru.empty [⟨0x1000, 4, true⟩, ⟨0x2000, 8, false⟩]).misses w % 2 ^ 64 ∧
        c'.writebacks w =
          (accessAll 1 2 64 Lru.empty [⟨0x1000, 4, true⟩, ⟨0x2000, 8, false⟩]).writebacks w % 2 ^ 64 :=
  cachesimRef_lru cachesimModelInit_small (by decide) (by decide) _ _ (by decide)

/-- The second of two adjacent lines is taken for the line used last, and its miss
is not counted. -/
theorem cachesimRef_adjacent :
    cachesimModelInit (fun _ => true) zeroed 128 64 0 1 .lru = .ok (some small) ∧
      ∃ c', refAll (fun _ => 0) small [⟨0x1000, 4, false⟩, ⟨0x1040, 4, false⟩] = .ok c' ∧ c'.misses false = 1 ∧
        (accessAll 1 2 64 Lru.empty [⟨0x1000, 4, false⟩, ⟨0x1040, 4, false⟩]).misses false = 2 :=
  ⟨cachesimModelInit_small, _, rfl, by decide, by decide⟩

end Init

end Mambo.CacheRuns
