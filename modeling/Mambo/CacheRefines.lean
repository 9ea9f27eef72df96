import Mambo.CacheSets

namespace Mambo.CacheRefines

open CacheSim LruCache Recency CacheSets

section Lines

def marked (l : Line) (w : Bool) (timestamp : Nat) : Line := ⟨if w then l.tag ||| 1 else l.tag, timestamp⟩

theorem marked_shift (l : Line) (w : Bool) (timestamp : Nat) : (marked l w timestamp).tag >>> 1 = l.tag >>> 1 := by
  cases w with
  | false => rfl
  | true => exact or_one_shift l.tag

theorem updateDirtyBit_eq (c : Cache) (k : Nat) (w : Bool) :
    updateDirtyBit c k w = setLine c k (marked (c.lines k) w (c.lines k).timestamp) := by
  cases w with
  | false =>
      have hself : Function.update c.lines k (marked (c.lines k) false (c.lines k).timestamp) = c.lines :=
        Function.update_eq_self k c.lines
      simp only [updateDirtyBit, setLine, Bool.false_eq_true, if_false, hself]
  | true => rfl

theorem updateLine_eq (c : Cache) (k : Nat) (w : Bool) :
    updateLine c k w =
      setLine c k (marked (c.lines k) w ((c.references false + c.references true) % 2 ^ 64)) := by
  rw [updateLine, updateDirtyBit_eq]
  simp only [setLine, Function.update_self, Function.update_idem]
  rfl

theorem update_ways (lines : Nat → Line) (base v : Nat) (l : Line) :
    (fun i => Function.update lines (base + v) l (base + i)) = Function.update (fun i => lines (base + i)) v l := by
  funext i
  by_cases hi : i = v
  · subst hi
    rw [Function.update_self, Function.update_self]
  · rw [Function.update_of_ne hi, Function.update_of_ne (by omega)]

theorem oldest_spec (c : Cache) (line : Nat) (hsmall : ∀ i, i < c.assoc → (c.lines (line + i)).timestamp < 2 ^ 64 - 1)
    (hassoc : 0 < c.assoc) :
    ∃ v, oldest c line = some v ∧ v < c.assoc ∧
      ∀ i, i < c.assoc → (c.lines (line + v)).timestamp ≤ (c.lines (line + i)).timestamp := by
  have hfold : ∀ n, n ≤ c.assoc → ∃ r, (List.range n).foldl (fun r i =>
      if (c.lines (line + i)).timestamp < r.1 then ((c.lines (line + i)).timestamp, some i) else r)
      (2 ^ 64 - 1, (none : Option Nat)) = r ∧
      ((n = 0 ∧ r = (2 ^ 64 - 1, none)) ∨ ∃ v, r = ((c.lines (line + v)).timestamp, some v) ∧ v < n ∧
        ∀ i, i < n → (c.lines (line + v)).timestamp ≤ (c.lines (line + i)).timestamp) := by
    intro n
    induction n with
    | zero => exact fun _ => ⟨_, rfl, Or.inl ⟨rfl, rfl⟩⟩
    | succ n ih =>
        intro hn
        obtain ⟨r, hr, hcases⟩ := ih (by omega)
        refine ⟨_, rfl, Or.inr ?_⟩
        rw [List.range_succ, List.foldl_append, hr, List.foldl_cons, List.foldl_nil]
        rcases hcases with ⟨rfl, rfl⟩ | ⟨v, rfl, hv, hmin⟩
        · refine ⟨0, if_pos (hsmall 0 hassoc), Nat.lt_succ_self 0, ?_⟩
          intro i hi
          rw [Nat.lt_one_iff.mp hi]
        · by_cases hlt : (c.lines (line + n)).timestamp < (c.lines (line + v)).timestamp
          · refine ⟨n, if_pos hlt, Nat.lt_succ_self n, ?_⟩
            intro i hi
            rcases Nat.lt_succ_iff_lt_or_eq.mp hi with hi | rfl
            · exact hlt.le.trans (hmin i hi)
            · exact le_rfl
          · refine ⟨v, if_neg hlt, Nat.lt_succ_of_lt hv, ?_⟩
            intro i hi
            rcases Nat.lt_succ_iff_lt_or_eq.mp hi with hi | rfl
            · exact hmin i hi
            · exact not_lt.mp hlt
  obtain ⟨r, hr, ⟨h0, -⟩ | ⟨v, hv, hlt, hmin⟩⟩ := hfold c.assoc le_rfl
  · omega
  · refine ⟨v, ?_, hlt, hmin⟩
    rw [oldest, hr, hv]

end Lines

/-- A cache as the initialisation leaves it, with the powers of two of its
parameters. -/
structure Shape (c : Cache) (a b m : Nat) : Prop where
  lru : c.replacementPolicy = .lru
  assoc_pos : 0 < c.assoc
  line_pow : c.lineSize = 2 ^ a
  set_shift : c.setShift = a
  sets_pow : c.sets = 2 ^ b
  set_mask : c.setMask = 2 ^ b - 1
  tag_shift : c.tagShift = b + a
  fetch_pow : c.maxFetch = 2 ^ m
  fetch_shift : c.maxFetchShift = m
  fetch_lt : m < 32
  lines_le : c.sets * c.assoc ≤ 2 ^ 31

variable {c c' : Cache} {a b m : Nat}

theorem Shape.getSet_eq (h : Shape c a b m) (l : Nat) : getSet c (l * c.lineSize) = l % c.sets := by
  rw [getSet, h.set_shift, h.line_pow, h.set_mask, h.sets_pow, Nat.shiftRight_eq_div_pow,
    Nat.mul_div_cancel _ (Nat.two_pow_pos a), Nat.and_two_pow_sub_one_eq_mod]

theorem Shape.getTag_eq (h : Shape c a b m) (l : Nat) : getTag c (l * c.lineSize) = l / c.sets := by
  rw [getTag, h.tag_shift, h.line_pow, h.sets_pow, Nat.shiftRight_eq_div_pow, Nat.pow_add, Nat.mul_comm (2 ^ b),
    ← Nat.div_div_eq_div_mul, Nat.mul_div_cancel _ (Nat.two_pow_pos a)]

theorem Shape.sets_pos (h : Shape c a b m) : 0 < c.sets := h.sets_pow ▸ Nat.two_pow_pos b

theorem Shape.set_end_le (h : Shape c a b m) {s : Nat} (hs : s < c.sets) : s * c.assoc + c.assoc ≤ 2 ^ 31 := by
  have hmul : (s + 1) * c.assoc ≤ c.sets * c.assoc := Nat.mul_le_mul_right _ hs
  rw [Nat.succ_mul] at hmul
  exact hmul.trans h.lines_le

def ways (c : Cache) (s i : Nat) : Line := c.lines (s * c.assoc + i)

/-- The sets hold what the reference cache holds, and the counters agree. -/
structure Agrees (c : Cache) (lru : Lru) (now : Nat) : Prop where
  set : ∀ s, s < c.sets → ∃ order, Represents c.assoc (ways c s) order ∧ lru.contents s = blocksOf (ways c s) order
  stamp_le : ∀ s i, s < c.sets → i < c.assoc → (ways c s i).timestamp ≤ now
  misses_eq : ∀ w, c.misses w = lru.misses w % 2 ^ 64
  writebacks_eq : ∀ w, c.writebacks w = lru.writebacks w % 2 ^ 64

def changed (c : Cache) (lines : Nat → Line) (misses writebacks : Bool → Nat) : Cache :=
  { c with lines := lines, misses := misses, writebacks := writebacks }

variable {lru lru' : Lru} {now : Nat}

theorem Agrees.change (h : Agrees c lru now) {s : Nat} (hs : s < c.sets) (lines : Nat → Line)
    (misses writebacks : Bool → Nat)
    (hothers : ∀ k, k < s * c.assoc ∨ s * c.assoc + c.assoc ≤ k → lines k = c.lines k) {order : List Nat}
    (hrep : Represents c.assoc (fun i => lines (s * c.assoc + i)) order)
    (hstamp : ∀ i, i < c.assoc → (lines (s * c.assoc + i)).timestamp ≤ now)
    (hcontents : lru'.contents =
      Function.update lru.contents s (blocksOf (fun i => lines (s * c.assoc + i)) order))
    (hmisses : ∀ w, misses w = lru'.misses w % 2 ^ 64) (hwritebacks : ∀ w, writebacks w = lru'.writebacks w % 2 ^ 64) :
    Agrees (changed c lines misses writebacks) lru' now ∧
      ∀ s', s' < c.sets → s' ≠ s → ∀ i, i < c.assoc → ways (changed c lines misses writebacks) s' i = ways c s' i := by
  have hways : ∀ s', s' < c.sets → s' ≠ s → ∀ i, i < c.assoc →
      ways (changed c lines misses writebacks) s' i = ways c s' i := by
    intro s' _ hne i hi
    apply hothers
    change s' * c.assoc + i < s * c.assoc ∨ s * c.assoc + c.assoc ≤ s' * c.assoc + i
    rcases Nat.lt_or_gt_of_ne hne with hlt | hgt
    · have hmul : (s' + 1) * c.assoc ≤ s * c.assoc := Nat.mul_le_mul_right _ hlt
      rw [Nat.succ_mul] at hmul
      omega
    · have hmul : (s + 1) * c.assoc ≤ s' * c.assoc := Nat.mul_le_mul_right _ hgt
      rw [Nat.succ_mul] at hmul
      omega
  refine ⟨⟨?_, ?_, hmisses, hwritebacks⟩, hways⟩
  · intro s' hs'
    by_cases heq : s' = s
    · subst heq
      exact ⟨order, hrep, by rw [hcontents, Function.update_self]; rfl⟩
    · obtain ⟨order', hrep', hcontents'⟩ := h.set s' hs'
      obtain ⟨hnew, hblocks⟩ := hrep'.congr (hways s' hs' heq)
      exact ⟨order', hnew, by rw [hcontents, Function.update_of_ne heq, hcontents', hblocks]⟩
  · intro s' i hs' hi
    by_cases heq : s' = s
    · subst heq
      exact hstamp i hi
    · rw [hways s' hs' heq i hi]
      exact h.stamp_le s' i hs' hi

section Touch

/-- The conditions under which the body of the loop treats a line as it should:
it is not the line after the last one, a tag 0 does not meet a way that was never
used, and a line found in the first way was the last one used of its set. -/
structure Proper (c : Cache) (l : Nat) : Prop where
  not_last : l * c.lineSize ≠ c.lastAddr
  tag_lt : l / c.sets < 2 ^ 63
  no_unused : l / c.sets ≠ 0 ∨ ∀ i, i < c.assoc → (ways c (l % c.sets) i).timestamp ≠ 0
  first_latest : (ways c (l % c.sets) 0).tag >>> 1 = l / c.sets →
    ∀ i, i < c.assoc → i ≠ 0 → (ways c (l % c.sets) i).timestamp < (ways c (l % c.sets) 0).timestamp

def Touches (c : Cache) (lru : Lru) (now l : Nat) (w : Bool) (c' : Cache) : Prop :=
  (∃ lines misses writebacks, c' = changed c lines misses writebacks) ∧
    Agrees c' (lru.touch c.assoc c.sets l w) now ∧
    ∀ s, s < c.sets → s ≠ l % c.sets → ∀ i, i < c.assoc → ways c' s i = ways c s i

variable {l : Nat} {w : Bool}

theorem Proper.used (hp : Proper c l) {order : List Nat} (hrep : Represents c.assoc (ways c (l % c.sets)) order)
    {i : Nat} (hi : i < c.assoc) (htag : (ways c (l % c.sets) i).tag >>> 1 = l / c.sets) : i ∈ order := by
  refine (hrep.recent.mem i).mpr ⟨hi, fun h0 => ?_⟩
  have hzero := hrep.unused i hi h0
  rw [hzero] at htag
  rcases hp.no_unused with hne | hfull
  · exact hne htag.symm
  · exact hfull i hi h0

theorem outside_update {lines : Nat → Line} {base v n k : Nat} (hv : v < n) (hk : k < base ∨ base + n ≤ k)
    (l : Line) : Function.update lines (base + v) l k = lines k := Function.update_of_ne (by omega) _ _

theorem touch_hit {assoc sets : Nat} {b : Block}
    (h : (lru.contents (l % sets)).find? (·.tag = l / sets) = some b) :
    lru.touch assoc sets l w = ⟨Function.update lru.contents (l % sets)
      (⟨l / sets, b.dirty || w⟩ :: (lru.contents (l % sets)).eraseP (·.tag = l / sets)), lru.misses,
      lru.writebacks⟩ := by
  simp only [Lru.touch, h]

theorem touch_miss {assoc sets : Nat} (h : (lru.contents (l % sets)).find? (·.tag = l / sets) = none) :
    lru.touch assoc sets l w = ⟨Function.update lru.contents (l % sets)
      (⟨l / sets, w⟩ :: remaining assoc (lru.contents (l % sets))), count lru.misses w,
      if (victim assoc (lru.contents (l % sets))).any (·.dirty) then count lru.writebacks w else lru.writebacks⟩ := by
  simp only [Lru.touch, h]

theorem setLine_ways (c : Cache) (s v : Nat) (l : Line) :
    (fun i => Function.update c.lines (s * c.assoc + v) l (s * c.assoc + i)) = Function.update (ways c s) v l :=
  update_ways c.lines (s * c.assoc) v l

theorem Agrees.first (h : Agrees c lru now) (hs : Shape c a b m) (hp : Proper c l)
    (htag : (ways c (l % c.sets) 0).tag >>> 1 = l / c.sets) :
    Touches c lru now l w (updateDirtyBit c (l % c.sets * c.assoc) w) := by
  have hset : l % c.sets < c.sets := Nat.mod_lt _ hs.sets_pos
  obtain ⟨order, hrep, hcontents⟩ := h.set _ hset
  have hin := hp.used hrep hs.assoc_pos htag
  have horder := hrep.recent.eq_cons hs.assoc_pos ((hrep.recent.mem 0).mp hin).2 (hp.first_latest htag)
  obtain ⟨hfind, herase⟩ := hrep.find hin htag
  rw [← hcontents] at hfind herase
  have hways := setLine_ways c (l % c.sets) 0
    (marked (ways c (l % c.sets) 0) w (ways c (l % c.sets) 0).timestamp)
  have hmark : Represents c.assoc (Function.update (ways c (l % c.sets)) 0
      (marked (ways c (l % c.sets) 0) w (ways c (l % c.sets) 0).timestamp)) order :=
    hrep.mark hin (marked_shift _ _ _) rfl
  have hblocks : blocksOf (Function.update (ways c (l % c.sets)) 0
      (marked (ways c (l % c.sets) 0) w (ways c (l % c.sets) 0).timestamp)) order =
      ⟨l / c.sets, (block (ways c (l % c.sets) 0)).dirty || w⟩ :: blocksOf (ways c (l % c.sets)) (order.erase 0) := by
    conv_lhs => rw [horder]
    rw [blocksOf, List.map_cons, Function.update_self, marked, block_dirty, htag]
    refine congrArg (_ :: ·) (List.map_congr_left ?_)
    intro j hj
    rw [Function.update_of_ne (hrep.recent.nodup.mem_erase_iff.mp hj).1]
  have hchange := h.change hset (Function.update c.lines (l % c.sets * c.assoc + 0)
    (marked (ways c (l % c.sets) 0) w (ways c (l % c.sets) 0).timestamp)) c.misses c.writebacks
    (fun k hk => outside_update hs.assoc_pos hk _) (hways ▸ hmark) ?_
    (show (lru.touch c.assoc c.sets l w).contents = _ by rw [touch_hit hfind, hways, hblocks, herase])
    (by rw [touch_hit hfind]; exact h.misses_eq) (by rw [touch_hit hfind]; exact h.writebacks_eq)
  · rw [updateDirtyBit_eq]
    exact ⟨⟨_, _, _, rfl⟩, hchange⟩
  · intro i hi
    have hline := congrFun hways i
    rw [hline]
    by_cases hi0 : i = 0
    · subst hi0
      rw [Function.update_self]
      exact h.stamp_le _ _ hset hi
    · rw [Function.update_of_ne hi0]
      exact h.stamp_le _ _ hset hi

/-- A line that comes into a way with the latest timestamp. -/
theorem Agrees.put (h : Agrees c lru now) (hset : l % c.sets < c.sets) {order : List Nat} {ways' : Nat → Line}
    (hrep : Represents c.assoc ways' order) {v : Nat} (hv : v < c.assoc) (hnow : 0 < now) {line : Line}
    (hline : line.timestamp = now) (htag : ∀ j ∈ order, j ≠ v → (ways' j).tag >>> 1 ≠ line.tag >>> 1)
    (hothers : ∀ j, j < c.assoc → j ≠ v → (ways' j).timestamp < now) {lines : Nat → Line}
    {misses writebacks : Bool → Nat}
    (hlines : (fun i => lines (l % c.sets * c.assoc + i)) = Function.update ways' v line)
    (houtside : ∀ k, k < l % c.sets * c.assoc ∨ l % c.sets * c.assoc + c.assoc ≤ k → lines k = c.lines k)
    (hcontents : (lru.touch c.assoc c.sets l w).contents =
      Function.update lru.contents (l % c.sets) (block line :: blocksOf ways' (order.erase v)))
    (hmisses : ∀ x, misses x = (lru.touch c.assoc c.sets l w).misses x % 2 ^ 64)
    (hwritebacks : ∀ x, writebacks x = (lru.touch c.assoc c.sets l w).writebacks x % 2 ^ 64) :
    Touches c lru now l w (changed c lines misses writebacks) := by
  obtain ⟨hput, hblocks⟩ := hrep.put hv (hline ▸ hnow) (hline ▸ hothers) htag
  refine ⟨⟨_, _, _, rfl⟩, h.change hset lines misses writebacks houtside (hlines ▸ hput) ?_ ?_ hmisses hwritebacks⟩
  · intro i hi
    have heq := congrFun hlines i
    rw [heq]
    by_cases hiv : i = v
    · subst hiv
      rw [Function.update_self]
      exact hline.le
    · rw [Function.update_of_ne hiv]
      exact (hothers i hi hiv).le
  · rw [hcontents, hlines, hblocks]

theorem swapLines_ways (c : Cache) (s : Nat) {i : Nat} (hi : i ≠ 0) :
    (fun j => (swapLines c (s * c.assoc) i).lines (s * c.assoc + j)) = fun j => ways c s (Equiv.swap 0 i j) := by
  funext j
  rw [swapLines, setLine, setLine, Equiv.swap_apply_def]
  dsimp only
  by_cases hji : j = i
  · subst hji
    rw [Function.update_self, if_neg hi, if_pos rfl, ways, Nat.add_zero]
  · rw [Function.update_of_ne (by omega)]
    by_cases hj0 : j = 0
    · subst hj0
      rw [if_pos rfl, Nat.add_zero, Function.update_self, ways]
    · rw [Function.update_of_ne (by omega), if_neg hj0, if_neg hji, ways]

theorem map_swap_erase (order : List Nat) (i : Nat) :
    (order.map (Equiv.swap 0 i)).erase 0 = (order.erase i).map (Equiv.swap 0 i) := by
  rw [List.map_erase (Equiv.swap 0 i).injective, Equiv.swap_apply_right]

def Earlier (c : Cache) (s now : Nat) : Prop := c.assoc = 1 ∨ ∀ i, i < c.assoc → (ways c s i).timestamp < now

theorem Agrees.other (h : Agrees c lru now) (hs : Shape c a b m) (hp : Proper c l)
    (hearlier : Earlier c (l % c.sets) now) (hnow : 0 < now)
    (hrefs : (c.references false + c.references true) % 2 ^ 64 = now) {i : Nat} (hi : i < c.assoc) (hi0 : i ≠ 0)
    (htag : (ways c (l % c.sets) i).tag >>> 1 = l / c.sets) :
    Touches c lru now l w
      (updateLine (swapLines c (l % c.sets * c.assoc) i) (l % c.sets * c.assoc) w) := by
  have hset : l % c.sets < c.sets := Nat.mod_lt _ hs.sets_pos
  obtain ⟨order, hrep, hcontents⟩ := h.set _ hset
  have hin := hp.used hrep hi htag
  obtain ⟨hfind, herase⟩ := hrep.find hin htag
  rw [← hcontents] at hfind herase
  have hswap := hrep.swap hs.assoc_pos hi
  have hlines := swapLines_ways c (l % c.sets) hi0
  have hfirst : (swapLines c (l % c.sets * c.assoc) i).lines (l % c.sets * c.assoc) = ways c (l % c.sets) i := by
    have heq := congrFun hlines 0
    rw [Nat.add_zero, Equiv.swap_apply_left] at heq
    exact heq
  have hlt : ∀ j, j < c.assoc → (ways c (l % c.sets) j).timestamp < now :=
    hearlier.resolve_left (by omega)
  have hjlt : ∀ j, j < c.assoc → Equiv.swap 0 i j < c.assoc := by
    intro j hj
    rw [Equiv.swap_apply_def]
    split_ifs
    · exact hi
    · exact hs.assoc_pos
    · exact hj
  rw [updateLine_eq, hfirst, show (swapLines c (l % c.sets * c.assoc) i).references = c.references from rfl, hrefs]
  refine h.put hset hswap hs.assoc_pos hnow
    (show (marked (ways c (l % c.sets) i) w now).timestamp = now from rfl) ?_ (fun j hj _ => hlt _ (hjlt j hj)) ?_ ?_ ?_
    ?_ ?_
  · intro j hj hj0
    obtain ⟨k, hk, rfl⟩ := List.mem_map.mp hj
    rw [Equiv.swap_apply_self, marked_shift]
    intro heq
    have hki := hrep.distinct k hk i hin heq
    subst hki
    exact hj0 (Equiv.swap_apply_right 0 k)
  · have hput := update_ways (swapLines c (l % c.sets * c.assoc) i).lines (l % c.sets * c.assoc) 0
      (marked (ways c (l % c.sets) i) w now)
    rw [hlines, Nat.add_zero] at hput
    exact hput
  · intro k hk
    change Function.update (Function.update (Function.update c.lines _ _) _ _) _ _ k = _
    rw [Function.update_of_ne (by omega), Function.update_of_ne (by omega), Function.update_of_ne (by omega)]
  · rw [touch_hit hfind, marked, block_dirty, htag, map_swap_erase, herase]
    have hrest : blocksOf (fun j => ways c (l % c.sets) (Equiv.swap 0 i j)) ((order.erase i).map (Equiv.swap 0 i)) =
        blocksOf (ways c (l % c.sets)) (order.erase i) := by
      rw [blocksOf, blocksOf, List.map_map]
      refine List.map_congr_left ?_
      intro k _
      rw [Function.comp_apply, Equiv.swap_apply_self]
    rw [hrest]
    rfl
  · rw [touch_hit hfind]
    exact h.misses_eq
  · rw [touch_hit hfind]
    exact h.writebacks_eq

theorem increment_eq {counter counter' : Bool → Nat} (h : ∀ x, counter x = counter' x % 2 ^ 64) (w x : Bool) :
    increment counter w x = count counter' w x % 2 ^ 64 := by
  rw [increment, count]
  by_cases hx : x = w
  · subst hx
    rw [Function.update_self, Function.update_self, h, Nat.mod_add_mod]
  · rw [Function.update_of_ne hx, Function.update_of_ne hx, h]

theorem Agrees.miss (h : Agrees c lru now) (hs : Shape c a b m) (hp : Proper c l)
    (hearlier : Earlier c (l % c.sets) now) (hnow : 0 < now)
    (hrefs : (c.references false + c.references true) % 2 ^ 64 = now)
    (hmiss : ∀ i, i < c.assoc → (ways c (l % c.sets) i).tag >>> 1 ≠ l / c.sets) {v : Nat} (hv : v < c.assoc)
    (hmin : ∀ i, i < c.assoc → (ways c (l % c.sets) v).timestamp ≤ (ways c (l % c.sets) i).timestamp) :
    Touches c lru now l w (updateLine (loadLine { c with misses := increment c.misses w }
      (l % c.sets * c.assoc + v) (l * c.lineSize) w) (l % c.sets * c.assoc + v) w) := by
  have hset : l % c.sets < c.sets := Nat.mod_lt _ hs.sets_pos
  obtain ⟨order, hrep, hcontents⟩ := h.set _ hset
  have hnone : (lru.contents (l % c.sets)).find? (·.tag = l / c.sets) = none := by
    rw [hcontents]
    exact find_none fun i hi => hmiss i ((hrep.recent.mem i).mp hi).1
  obtain ⟨hremaining, hvictim⟩ := hrep.replaced hv hmin
  rw [← hcontents] at hremaining hvictim
  have htag : (l / c.sets) <<< 1 % 2 ^ 64 = l / c.sets * 2 := by
    rw [Nat.shiftLeft_eq, Nat.pow_one, Nat.mod_eq_of_lt (by have := hp.tag_lt; omega)]
  have hload : loadLine { c with misses := increment c.misses w } (l % c.sets * c.assoc + v) (l * c.lineSize) w =
      changed c (Function.update c.lines (l % c.sets * c.assoc + v)
        ⟨l / c.sets * 2, (ways c (l % c.sets) v).timestamp⟩) (increment c.misses w)
        (if (ways c (l % c.sets) v).tag &&& 1 ≠ 0 then increment c.writebacks w else c.writebacks) := by
    have hget : getTag { c with misses := increment c.misses w } (l * c.lineSize) = l / c.sets := hs.getTag_eq l
    rw [loadLine, hget, htag]
    by_cases hd : (c.lines (l % c.sets * c.assoc + v)).tag &&& 1 ≠ 0
    · rw [if_pos hd, ways, if_pos hd]
      rfl
    · rw [if_neg hd, ways, if_neg hd]
      rfl
  rw [hload, updateLine_eq]
  have hlt : ∀ j, j < c.assoc → j ≠ v → (ways c (l % c.sets) j).timestamp < now := by
    intro j hj hne
    exact hearlier.elim (fun h1 => by omega) fun hall => hall j hj
  have hloaded : (changed c (Function.update c.lines (l % c.sets * c.assoc + v)
      ⟨l / c.sets * 2, (ways c (l % c.sets) v).timestamp⟩) (increment c.misses w)
      (if (ways c (l % c.sets) v).tag &&& 1 ≠ 0 then increment c.writebacks w else c.writebacks)).lines
        (l % c.sets * c.assoc + v) = ⟨l / c.sets * 2, (ways c (l % c.sets) v).timestamp⟩ := Function.update_self _ _ _
  have hshift : (l / c.sets * 2) >>> 1 = l / c.sets := by
    rw [Nat.shiftRight_one, Nat.mul_div_cancel _ (by omega)]
  have hclean : decide ((l / c.sets * 2) &&& 1 ≠ 0) = false := by
    rw [Nat.and_one_is_mod, Nat.mul_mod_left]
    rfl
  rw [hloaded]
  refine h.put hset hrep hv hnow
    (show (marked ⟨l / c.sets * 2, (ways c (l % c.sets) v).timestamp⟩ w _).timestamp = now from hrefs) ?_ hlt ?_ ?_ ?_ ?_
    ?_
  · intro j hj _
    rw [marked_shift]
    exact hshift.symm ▸ hmiss j ((hrep.recent.mem j).mp hj).1
  · change (fun i => Function.update (Function.update c.lines _ _) _ _ _) = _
    rw [Function.update_idem]
    exact setLine_ways c (l % c.sets) v _
  · intro k hk
    change Function.update (Function.update c.lines _ _) _ _ k = _
    rw [Function.update_idem]
    exact outside_update hv hk _
  · have hblock : block (marked ⟨l / c.sets * 2, (ways c (l % c.sets) v).timestamp⟩ w
        ((c.references false + c.references true) % 2 ^ 64)) = ⟨l / c.sets, w⟩ := by
      rw [marked, block_dirty, hshift, hclean, Bool.false_or]
    rw [touch_miss hnone, hremaining]
    exact congrArg (fun x => Function.update lru.contents (l % c.sets) (x :: _)) hblock.symm
  · rw [touch_miss hnone]
    exact increment_eq h.misses_eq w
  · intro x
    rw [touch_miss hnone, hvictim]
    change (if _ then increment c.writebacks w else c.writebacks) x = _
    by_cases hd : (ways c (l % c.sets) v).tag &&& 1 ≠ 0
    · rw [if_pos hd, if_pos (decide_eq_true hd)]
      exact increment_eq h.writebacks_eq w x
    · rw [if_neg hd, if_neg (by simpa using hd)]
      exact h.writebacks_eq x

theorem Agrees.refLine (h : Agrees c lru now) (hs : Shape c a b m) (hp : Proper c l)
    (hearlier : Earlier c (l % c.sets) now) (hnow : 0 < now) (hmax : now < 2 ^ 64 - 1)
    (hrefs : (c.references false + c.references true) % 2 ^ 64 = now) (random : Nat → Nat) :
    ∃ c' k, refLine random c (l * c.lineSize) w = .ok (c', k) ∧ Touches c lru now l w c' := by
  have hset : l % c.sets < c.sets := Nat.mod_lt _ hs.sets_pos
  have hend := hs.set_end_le hset
  have hindex : l % c.sets * c.assoc % 2 ^ 32 = l % c.sets * c.assoc := Nat.mod_eq_of_lt (by omega)
  rw [CacheSim.refLine, if_neg hp.not_last]
  simp only [hs.getSet_eq, hs.getTag_eq, hindex]
  rw [if_neg (by omega)]
  have hzero : c.lines (l % c.sets * c.assoc) = ways c (l % c.sets) 0 := by rw [ways, Nat.add_zero]
  by_cases hfirst : (c.lines (l % c.sets * c.assoc)).tag >>> 1 = l / c.sets
  · rw [if_pos hfirst]
    exact ⟨_, _, rfl, h.first hs hp (hzero ▸ hfirst)⟩
  rw [if_neg hfirst]
  cases hfind : findWay c (l % c.sets * c.assoc) (l / c.sets) with
  | some i =>
      have hmem := List.mem_of_find?_eq_some hfind
      have htag := List.find?_some hfind
      rw [List.mem_range'_1] at hmem
      exact ⟨_, _, rfl, h.other hs hp hearlier hnow hrefs (by omega) (by omega) (of_decide_eq_true htag)⟩
  | none =>
      have hmiss : ∀ i, i < c.assoc → (ways c (l % c.sets) i).tag >>> 1 ≠ l / c.sets := by
        intro i hi
        by_cases hi0 : i = 0
        · subst hi0
          exact hzero ▸ hfirst
        · have hnone := List.find?_eq_none.mp hfind i (List.mem_range'_1.mpr (by omega))
          simpa [ways] using hnone
      have hsmall : ∀ i, i < c.assoc → (c.lines (l % c.sets * c.assoc + i)).timestamp < 2 ^ 64 - 1 := by
        intro i hi
        exact lt_of_le_of_lt (h.stamp_le _ i hset hi) hmax
      obtain ⟨v, hold, hv, hmin⟩ := oldest_spec c (l % c.sets * c.assoc) hsmall hs.assoc_pos
      have hevict : evictLine random { c with misses := increment c.misses w } (l % c.sets * c.assoc) =
          (some v, { c with misses := increment c.misses w }) := by
        rw [evictLine]
        simp only [hs.lru]
        exact congrArg (·, _) hold
      rw [hevict]
      exact ⟨_, _, rfl, h.miss hs hp hearlier hnow hrefs hmiss hv hmin⟩

end Touch

end Mambo.CacheRefines
