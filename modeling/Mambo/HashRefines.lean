import Mambo.CodeCacheHash

namespace Mambo.HashRefines

open Probing CodeCacheHash

variable {w : Nat} (htShift : Nat)

/-- The keys inside the array; beyond it there is nothing. -/
def keys (t : HashTable w) (i : Nat) : BitVec w := if i < slots then (t.entries i).key else 0

def home (key : BitVec w) : Nat := ((key >>> htShift) &&& BitVec.ofNat w codeCacheHashSize).toNat

/-- A table of the full size with an empty last slot, every key of which can be
reached from its home slot. -/
structure Shaped (t : HashTable w) : Prop where
  size_eq : t.size = slots
  sentinel : (t.entries (slots - 1)).key = 0
  packed : Packed 0 (home htShift) (keys t)

/-- The table holds the map that the insertions describe. -/
structure Holds (t : HashTable w) (adds : List (BitVec w × BitVec w)) : Prop where
  shaped : Shaped htShift t
  stored : ∀ k, k ≠ 0 → ∀ v, lastValue adds k = some v ↔ ∃ i, keys t i = k ∧ (t.entries i).value = v
  count_eq : t.count = (adds.map Prod.fst).toFinset.card

theorem home_lt (key : BitVec w) : home htShift key < slots - 1 := by
  have h1 : home htShift key ≤ (BitVec.ofNat w codeCacheHashSize).toNat := by
    simpa only [home, BitVec.toNat_and] using Nat.and_le_right
  have h2 : (BitVec.ofNat w codeCacheHashSize).toNat ≤ codeCacheHashSize := by
    simpa only [BitVec.toNat_ofNat] using Nat.mod_le _ _
  have h3 : codeCacheHashSize < slots - 1 := by decide
  omega

theorem keys_of_lt (t : HashTable w) {i : Nat} (hi : i < slots) : keys t i = (t.entries i).key := if_pos hi

section Loops

variable {htShift} {t : HashTable w} {key value : BitVec w}

theorem Shaped.getIndex_eq (ht : Shaped htShift t) : getIndex htShift t key = home htShift key := by
  rw [getIndex, ht.size_eq, home, slots, Nat.add_sub_cancel]

theorem Shaped.keys_sentinel (ht : Shaped htShift t) : keys t (slots - 1) = 0 :=
  (keys_of_lt t (by decide)).trans ht.sentinel

/-- Every walk from a home slot ends, at the sentinel at the latest. -/
theorem Shaped.exists_stop (ht : Shaped htShift t) (key : BitVec w) :
    ∃ s, StopsAt 0 (keys t) key (home htShift key) s ∧ s ≤ slots - 1 :=
  exists_stopsAt ht.keys_sentinel (home_lt htShift key).le

theorem lookupLoop_stop (hsize : t.size = slots) (hkey : key ≠ 0) (n index : Nat)
    (hs : StopsAt 0 (keys t) key index (index + n)) (hlt : index < slots - 1) (hle : index + n ≤ slots - 1)
    (hsent : keys t (slots - 1) = 0) :
    lookupLoop t key index =
      .ok (if keys t (index + n) = key then (t.entries (index + n)).value else uintMax) := by
  induction n generalizing index with
  | zero =>
      have hi : index < slots := by omega
      have hk := keys_of_lt t hi
      rw [lookupLoop, if_pos hi]
      simp only [Nat.add_zero, hk]
      by_cases h : (t.entries index).key = key
      · simp only [h, if_true]
      · have h0 : (t.entries index).key = 0 := (hk ▸ hs.hit).resolve_left h
        rw [if_neg h, if_neg (fun hc => hc.2 h0), if_neg h]
  | succ n ih =>
      have hi : index < slots := by omega
      obtain ⟨h1, h0⟩ := hs.pass index le_rfl (by omega)
      rw [keys_of_lt t hi] at h1 h0
      have hsum : index + (n + 1) = index + 1 + n := by omega
      rw [lookupLoop, if_pos hi]
      simp only [if_neg h1]
      by_cases hlast : index + 1 < slots - 1
      · rw [if_pos ⟨hsize ▸ hlast, h0⟩, hsum]
        rw [← keys_of_lt t hi] at h1 h0
        exact ih (index + 1) (hsum ▸ hs.next h1 h0) hlast (by omega)
      · -- the C loop stops one slot short, where the sentinel would have ended it
        have hend : index + (n + 1) = slots - 1 := by omega
        rw [hend, hsent, if_neg (Ne.symm hkey), if_neg (fun h => hlast (hsize ▸ h.1))]

theorem Shaped.hashLookup_eq (ht : Shaped htShift t) (hkey : key ≠ 0) {s : Nat}
    (hs : StopsAt 0 (keys t) key (home htShift key) s) :
    hashLookup htShift t key = .ok (if keys t s = key then (t.entries s).value else uintMax) := by
  obtain ⟨s', hs', hle⟩ := ht.exists_stop key
  have hss : s ≤ slots - 1 := by
    by_contra hgt
    exact (hs.pass (slots - 1) (home_lt htShift key).le (not_le.mp hgt)).2 ht.keys_sentinel
  obtain ⟨n, rfl⟩ := Nat.exists_eq_add_of_le hs.le
  rw [hashLookup, ht.getIndex_eq]
  exact lookupLoop_stop ht.size_eq hkey n _ hs (home_lt htShift key) hss ht.keys_sentinel

theorem addLoop_stop (n : Nat) (t : HashTable w) (index : Nat) (hsize : t.size = slots)
    (hs : StopsAt 0 (keys t) key index (index + n)) (hlt : index < slots - 1) :
    (addLoop t key value index = .error .hang ∧ slots - 1 ≤ index + n) ∨
      index + n < slots - 1 ∧ ∃ c, addLoop t key value index =
        .ok (true, store { t with collisions := c } key value (index + n)) := by
  induction n generalizing index t with
  | zero =>
      have hi : index < slots := by omega
      refine Or.inr ⟨hlt, t.collisions, ?_⟩
      have hhit := hs.hit
      rw [Nat.add_zero, keys_of_lt t hi] at hhit
      rw [addLoop, if_pos hi]
      exact if_pos hhit.symm
  | succ n ih =>
      have hi : index < slots := by omega
      obtain ⟨h1, h0⟩ := hs.pass index le_rfl (by omega)
      have hsum : index + (n + 1) = index + 1 + n := by omega
      have hnext := hs.next h1 h0
      rw [keys_of_lt t hi] at h1 h0
      rw [addLoop, if_pos hi]
      simp only [h0, h1, or_self, if_false]
      by_cases hlast : index + 1 ≥ t.size - 1
      · exact Or.inl ⟨if_pos hlast, by omega⟩
      · rw [if_neg hlast, if_pos (not_le.mp hlast), hsum]
        exact ih { t with collisions := t.collisions + 1 } (index + 1) hsize (hsum ▸ hnext) (by omega)

theorem Shaped.hashAdd_eq (ht : Shaped htShift t) {s : Nat}
    (hs : StopsAt 0 (keys t) key (home htShift key) s) :
    hashAdd htShift t key value = .error .hang ∨
      s < slots - 1 ∧ ∃ c, hashAdd htShift t key value =
        .ok (true, store { t with collisions := c } key value s) := by
  obtain ⟨n, rfl⟩ := Nat.exists_eq_add_of_le hs.le
  rw [hashAdd, ht.getIndex_eq]
  exact (addLoop_stop n t _ ht.size_eq hs (home_lt htShift key)).imp And.left id

end Loops

section Store

variable {htShift} {t : HashTable w} {key value : BitVec w} {s c : Nat}

theorem keys_store (hs : s < slots) :
    keys (store { t with collisions := c } key value s) = Function.update (keys t) s key := by
  funext i
  by_cases hi : i = s
  · subst hi
    simp [keys, store, hs]
  · simp [keys, store, Function.update_of_ne hi]

theorem Shaped.store (ht : Shaped htShift t) (hkey : key ≠ 0) (hlt : s < slots - 1)
    (hs : StopsAt 0 (keys t) key (home htShift key) s) :
    Shaped htShift (store { t with collisions := c } key value s) := by
  refine ⟨ht.size_eq, ?_, ?_⟩
  · have hne : slots - 1 ≠ s := by omega
    simpa [CodeCacheHash.store, Function.update_of_ne hne] using ht.sentinel
  · rw [keys_store (by omega)]
    exact ht.packed.insert hkey hs

theorem lastValue_concat (adds : List (BitVec w × BitVec w)) (k : BitVec w) :
    lastValue (adds ++ [(key, value)]) k = if key = k then some value else lastValue adds k := by
  by_cases h : key = k <;> simp [lastValue, h]

theorem lastValue_isSome (adds : List (BitVec w × BitVec w)) (k : BitVec w) :
    (∃ v, lastValue adds k = some v) ↔ k ∈ (adds.map Prod.fst).toFinset := by
  rw [← Option.isSome_iff_exists, lastValue, Option.isSome_map, List.find?_isSome]
  simp

/-- The slot where the walk for a key ends holds the key exactly if it was inserted. -/
theorem Holds.stop_key {adds : List (BitVec w × BitVec w)} (hh : Holds htShift t adds) (hkey : key ≠ 0)
    (hs : StopsAt 0 (keys t) key (home htShift key) s) :
    keys t s = key ↔ key ∈ (adds.map Prod.fst).toFinset := by
  rw [← lastValue_isSome]
  constructor
  · intro h
    exact ⟨_, (hh.stored key hkey _).mpr ⟨s, h, rfl⟩⟩
  · rintro ⟨v, hv⟩
    obtain ⟨i, hi, -⟩ := (hh.stored key hkey v).mp hv
    rw [hh.shaped.packed.stopsAt_eq hkey hs hi]
    exact hi

variable (htShift) in
/-- What the table holds for the keys that are not zero. -/
structure Maps (t : HashTable w) (m : BitVec w → Option (BitVec w)) : Prop where
  shaped : Shaped htShift t
  stored : ∀ k, k ≠ 0 → ∀ v, m k = some v ↔ ∃ i, keys t i = k ∧ (t.entries i).value = v

theorem Holds.maps {adds : List (BitVec w × BitVec w)} (hh : Holds htShift t adds) :
    Maps htShift t (lastValue adds) :=
  ⟨hh.shaped, hh.stored⟩

theorem Maps.store {m : BitVec w → Option (BitVec w)} (hm : Maps htShift t m) (hkey : key ≠ 0)
    (hlt : s < slots - 1) (hs : StopsAt 0 (keys t) key (home htShift key) s) :
    Maps htShift (store { t with collisions := c } key value s) (Function.update m key (some value)) := by
  have hin : s < slots := by omega
  refine ⟨hm.shaped.store hkey hlt hs, ?_⟩
  intro k hk v
  rw [keys_store hin]
  by_cases hkk : k = key
  · subst hkk
    rw [Function.update_self]
    constructor
    · intro h
      refine ⟨s, Function.update_self .., ?_⟩
      simpa [CodeCacheHash.store] using Option.some.inj h
    · rintro ⟨i, hi, hv⟩
      have his : i = s := by
        by_contra hne
        rw [Function.update_of_ne hne] at hi
        exact hne (hm.shaped.packed.stopsAt_eq hkey hs hi).symm
      subst his
      simpa [CodeCacheHash.store] using hv
  · rw [Function.update_of_ne hkk, hm.stored k hk v]
    -- the overwritten slot was empty or held key, so nothing stored for k is lost
    have hslot : keys t s ≠ k := by
      rcases hs.hit with h | h
      · exact fun h' => hkk (h'.symm.trans h)
      · exact fun h' => hk (h'.symm.trans h)
    constructor
    · rintro ⟨i, hi, hv⟩
      have hne : i ≠ s := fun h => hslot (h ▸ hi)
      exact ⟨i, by rwa [Function.update_of_ne hne],
        by simpa [CodeCacheHash.store, Function.update_of_ne hne] using hv⟩
    · rintro ⟨i, hi, hv⟩
      have hne : i ≠ s := by
        rintro rfl
        exact hkk (hi.symm.trans (Function.update_self i key (keys t)))
      rw [Function.update_of_ne hne] at hi
      exact ⟨i, hi, by simpa [CodeCacheHash.store, Function.update_of_ne hne] using hv⟩

theorem Holds.store {adds : List (BitVec w × BitVec w)} (hh : Holds htShift t adds) (hkey : key ≠ 0)
    (hlt : s < slots - 1) (hs : StopsAt 0 (keys t) key (home htShift key) s) :
    Holds htShift (store { t with collisions := c } key value s) (adds ++ [(key, value)]) := by
  have hin : s < slots := by omega
  refine ⟨hh.shaped.store hkey hlt hs, ?_, ?_⟩
  · intro k hk v
    rw [lastValue_concat, ← (hh.maps.store hkey hlt hs).stored k hk v, Function.update_apply]
    simp only [eq_comm]
  · have hset : ((adds ++ [(key, value)]).map Prod.fst).toFinset =
        insert key (adds.map Prod.fst).toFinset := by
      ext k
      simp
    rw [hset, CodeCacheHash.store]
    simp only [hh.count_eq, ← keys_of_lt t hin]
    by_cases h0 : keys t s = 0
    · have hnew : key ∉ (adds.map Prod.fst).toFinset := fun h =>
        hkey (((hh.stop_key hkey hs).mpr h).symm.trans h0)
      rw [if_pos h0, Finset.card_insert_of_notMem hnew]
    · have hold : key ∈ (adds.map Prod.fst).toFinset :=
        (hh.stop_key hkey hs).mp (hs.hit.resolve_right h0)
      rw [if_neg h0, Finset.insert_eq_of_mem hold]

end Store

section Runs

variable {htShift} {t : HashTable w}

theorem hashAdd_holds {adds : List (BitVec w × BitVec w)} {key : BitVec w} (value : BitVec w)
    (hh : Holds htShift t adds) (hkey : key ≠ 0) :
    hashAdd htShift t key value = .error .hang ∨ ∃ t', hashAdd htShift t key value = .ok (true, t') ∧
      Holds htShift t' (adds ++ [(key, value)]) := by
  obtain ⟨s, hs, -⟩ := hh.shaped.exists_stop key
  rcases hh.shaped.hashAdd_eq hs with h | ⟨hlt, c, h⟩
  · exact Or.inl h
  · exact Or.inr ⟨_, h, hh.store hkey hlt hs⟩

theorem addAll_holds (rest adds : List (BitVec w × BitVec w)) (hh : Holds htShift t adds)
    (hkeys : ∀ kv ∈ rest, kv.1 ≠ 0) :
    addAll htShift t rest = .error .hang ∨
      ∃ t', addAll htShift t rest = .ok t' ∧ Holds htShift t' (adds ++ rest) := by
  induction rest generalizing t adds with
  | nil => exact Or.inr ⟨t, rfl, by simpa using hh⟩
  | cons kv rest ih =>
      rcases hashAdd_holds kv.2 hh (hkeys kv List.mem_cons_self) with h | ⟨t', h, hh'⟩
      · exact Or.inl (by rw [addAll, h])
      · rw [addAll, h]
        rw [List.append_cons]
        exact ih (adds ++ [kv]) hh' fun x hx => hkeys x (List.mem_cons_of_mem kv hx)

theorem initLoop_eq (n : Nat) (hn : n ≤ slots) (t : HashTable w) :
    ∃ t', initLoop n t = .ok t' ∧ t'.size = t.size ∧ t'.count = t.count ∧
      ∀ i, (t'.entries i).key = if i < n then 0 else (t.entries i).key := by
  induction n generalizing t with
  | zero => exact ⟨t, rfl, rfl, rfl, by simp⟩
  | succ n ih =>
      obtain ⟨t', h, hsize, hcount, hkeys⟩ := ih (by omega)
        { t with entries := Function.update t.entries n ⟨0, (t.entries n).value⟩ }
      refine ⟨t', by rw [initLoop, if_pos (by omega), h], hsize, hcount, fun i => ?_⟩
      rw [hkeys i]
      by_cases hi : i = n
      · subst hi
        simp
      · simp only [Function.update_of_ne hi]
        congr 1
        apply propext
        omega

theorem hashInit_holds (htShift : Nat) (raw : HashTable w) :
    ∃ t, hashInit raw slots = .ok t ∧ Holds htShift t [] := by
  obtain ⟨t, h, hsize, hcount, hkeys⟩ := initLoop_eq slots le_rfl
    { raw with size := slots, collisions := 0, count := 0 }
  have hzero : keys t = fun _ => 0 := by
    funext i
    by_cases hi : i < slots
    · rw [keys_of_lt t hi, hkeys i, if_pos hi]
    · exact if_neg hi
  refine ⟨t, h, ⟨hsize, ?_, hzero ▸ packed_empty⟩, ?_, hcount⟩
  · rw [hkeys, if_pos (by decide)]
  · intro k hk v
    have hne : (0 : BitVec w) ≠ k := Ne.symm hk
    simp only [lastValue, hzero, hne, List.reverse_nil, List.find?_nil, Option.map_none, reduceCtorEq,
      false_and, exists_false]

theorem Maps.hashLookup {m : BitVec w → Option (BitVec w)} (hm : Maps htShift t m) {key : BitVec w}
    (hkey : key ≠ 0) :
    hashLookup htShift t key = .ok ((m key).getD uintMax) := by
  obtain ⟨s, hs, -⟩ := hm.shaped.exists_stop key
  rw [hm.shaped.hashLookup_eq hkey hs]
  by_cases h : keys t s = key
  · rw [if_pos h, (hm.stored key hkey _).mpr ⟨s, h, rfl⟩]
    rfl
  · have hnone : m key = none := by
      refine Option.eq_none_iff_forall_ne_some.mpr fun v hv => h ?_
      obtain ⟨i, hi, -⟩ := (hm.stored key hkey v).mp hv
      rw [hm.shaped.packed.stopsAt_eq hkey hs hi]
      exact hi
    rw [if_neg h, hnone]
    rfl

theorem Holds.hashLookup_eq {adds : List (BitVec w × BitVec w)} (hh : Holds htShift t adds)
    {key : BitVec w} (hkey : key ≠ 0) :
    hashLookup htShift t key = .ok ((lastValue adds key).getD uintMax) :=
  hh.maps.hashLookup hkey

variable (htShift) in
/-- A finite map, as hash_lookup and the fields of the table show it. -/
structure Refines (t : HashTable w) (adds : List (BitVec w × BitVec w)) : Prop where
  lookup : ∀ k, k ≠ 0 → hashLookup htShift t k = .ok ((lastValue adds k).getD uintMax)
  sentinel : (t.entries (t.size - 1)).key = 0
  runs : ∀ i, i < slots → (t.entries i).key ≠ 0 →
    ∀ j, getIndex htShift t (t.entries i).key ≤ j → j ≤ i → (t.entries j).key ≠ 0
  reached : ∀ i, i < slots → (t.entries i).key ≠ 0 → getIndex htShift t (t.entries i).key ≤ i
  unique : ∀ i j, i < slots → j < slots → (t.entries i).key = (t.entries j).key →
    (t.entries i).key ≠ 0 → i = j
  count_eq : t.count = (adds.map Prod.fst).toFinset.card

theorem Holds.refines {adds : List (BitVec w × BitVec w)} (hh : Holds htShift t adds) :
    Refines htShift t adds := by
  have hp := hh.shaped.packed
  refine ⟨fun k hk => hh.hashLookup_eq hk, ?_, ?_, ?_, ?_, hh.count_eq⟩
  · rw [hh.shaped.size_eq]
    exact hh.shaped.sentinel
  · intro i hi hne j hij hji
    rw [hh.shaped.getIndex_eq] at hij
    rcases Nat.eq_or_lt_of_le hji with rfl | hlt
    · exact hne
    · rw [← keys_of_lt t hi] at hne hij
      rw [← keys_of_lt t (by omega)]
      exact (hp.reach i hne).2 j hij hlt
  · intro i hi hne
    rw [hh.shaped.getIndex_eq, ← keys_of_lt t hi]
    rw [← keys_of_lt t hi] at hne
    exact (hp.reach i hne).1
  · intro i j hi hj heq hne
    rw [← keys_of_lt t hi, ← keys_of_lt t hj] at heq
    rw [← keys_of_lt t hi] at hne
    exact hp.unique i j heq hne

/-- A just initialised table never leaves its array and, unless an insertion
overflows and hangs, holds after any insertions of non-zero keys what they say. -/
theorem hashTable_refines (htShift : Nat) (raw : HashTable w) (adds : List (BitVec w × BitVec w))
    (hkeys : ∀ kv ∈ adds, kv.1 ≠ 0) :
    ∃ t₀, hashInit raw (codeCacheHashSize + codeCacheHashOverp) = .ok t₀ ∧
      (addAll htShift t₀ adds = .error .hang ∨
        ∃ t, addAll htShift t₀ adds = .ok t ∧ Refines htShift t adds) := by
  obtain ⟨t₀, hinit, hh⟩ := hashInit_holds htShift raw
  refine ⟨t₀, hinit, (addAll_holds adds [] hh hkeys).imp_right ?_⟩
  rintro ⟨t, hrun, hh'⟩
  exact ⟨t, hrun, hh'.refines⟩

/-- The second key has the slot of the first one, and goes behind it. -/
theorem hashTable_refines_overwrite :
    let adds : List (BitVec 64 × BitVec 64) := [(8, 5), (0x200008, 6), (8, 7)]
    ∃ t₀ t, hashInit ⟨0, 0, 0, fun _ => ⟨3, 3⟩⟩ (codeCacheHashSize + codeCacheHashOverp) = .ok t₀ ∧
      addAll 2 t₀ adds = .ok t ∧ Refines 2 t adds ∧ (t.entries 3).key = 0x200008 := by
  intro adds
  obtain ⟨t₀, hinit, hrun⟩ := hashTable_refines 2 ⟨0, 0, 0, fun _ => ⟨3, 3⟩⟩ adds (by simp [adds])
  obtain ⟨t₁, hinit₁, hh⟩ := hashInit_holds 2 (⟨0, 0, 0, fun _ => ⟨3, 3⟩⟩ : HashTable 64)
  obtain rfl : t₁ = t₀ := Except.ok.inj (hinit₁.symm.trans hinit)
  have hsize : t₁.size = slots := hh.shaped.size_eq
  have hzero : ∀ i < slots, (t₁.entries i).key = 0 := by
    intro i hi
    by_contra hne
    have hnone := (hh.stored _ hne _).mpr ⟨i, keys_of_lt t₁ hi, rfl⟩
    cases hnone
  have hindex : ∀ (t : HashTable 64) (key : BitVec 64), t.size = slots → key = 8 ∨ key = 0x200008 → getIndex 2 t key = 2 := by
    rintro t key ht (rfl | rfl) <;> rw [getIndex, ht] <;> decide
  have hfirst : hashAdd 2 t₁ 8 5 = .ok (true, store t₁ 8 5 2) := by
    rw [hashAdd, hindex t₁ 8 hsize (Or.inl rfl), addLoop, if_pos (by decide)]
    exact if_pos (Or.inl (hzero 2 (by decide)))
  obtain ⟨t₂, ht₂⟩ : ∃ t₂, t₂ = store { store t₁ 8 5 2 with collisions := t₁.collisions + 1 } 0x200008 6 3 := ⟨_, rfl⟩
  have hentries : t₂.entries = Function.update (Function.update t₁.entries 2 ⟨8, 5⟩) 3 ⟨0x200008, 6⟩ := by
    rw [ht₂]
    rfl
  have hsecond : hashAdd 2 (store t₁ 8 5 2) 0x200008 6 = .ok (true, t₂) := by
    have hthree : (Function.update t₁.entries 2 ⟨8, 5⟩ 3).key = 0 := by
      rw [Function.update_of_ne (by decide)]
      exact hzero 3 (by decide)
    have hroom : 2 + 1 < (store t₁ 8 5 2).size - 1 := by
      rw [show (store t₁ 8 5 2).size = slots from hsize]
      decide
    have hstored : (store t₁ 8 5 2).entries 2 = ⟨8, 5⟩ := Function.update_self 2 _ t₁.entries
    rw [hashAdd, hindex (store t₁ 8 5 2) 0x200008 hsize (Or.inr rfl), addLoop, if_pos (by decide)]
    dsimp only
    rw [hstored, if_neg (by decide), if_neg (Nat.not_le.mpr hroom), if_pos hroom, addLoop, if_pos (by decide), ht₂]
    exact if_pos (Or.inl hthree)
  have hthird : hashAdd 2 t₂ 8 7 = .ok (true, store t₂ 8 7 2) := by
    have hsize₂ : t₂.size = slots := by
      rw [ht₂]
      exact hsize
    rw [hashAdd, hindex t₂ 8 hsize₂ (Or.inl rfl), addLoop, if_pos (by decide)]
    refine if_pos (Or.inr ?_)
    rw [hentries, Function.update_of_ne (by decide), Function.update_self]
  have hall : addAll 2 t₁ adds = .ok (store t₂ 8 7 2) := by
    simp only [adds, addAll, hfirst, hsecond, hthird]
  rw [hall] at hrun
  obtain ⟨t, ht, hrefines⟩ := hrun.resolve_left nofun
  obtain rfl := Except.ok.inj ht
  refine ⟨t₁, _, hinit, hall, hrefines, ?_⟩
  have hkept : (store t₂ 8 7 2).entries 3 = t₂.entries 3 := Function.update_of_ne (show 3 ≠ 2 by decide) ⟨8, 7⟩ t₂.entries
  rw [hkept, hentries, Function.update_self]

end Runs

section Reachable

variable {htShift} {t : HashTable w} {key : BitVec w}

variable (htShift) in
/-- A table after its initialisation and some insertions, of any keys. -/
def Reachable (t : HashTable w) : Prop :=
  ∃ raw t₀ adds, hashInit raw slots = .ok t₀ ∧ addAll htShift t₀ adds = .ok t

theorem Shaped.store_zero (ht : Shaped htShift t) {s c : Nat} (hs : s < slots - 1) (hzero : keys t s = 0)
    (value : BitVec w) : Shaped htShift (CodeCacheHash.store { t with collisions := c } 0 value s) := by
  have hkeys : keys (CodeCacheHash.store { t with collisions := c } 0 value s) = keys t := by
    rw [keys_store (by omega), ← hzero]
    exact Function.update_eq_self s (keys t)
  refine ⟨ht.size_eq, ?_, ?_⟩
  · have hsent := ht.keys_sentinel
    rw [← hkeys, keys_of_lt _ (by decide)] at hsent
    exact hsent
  · rw [hkeys]
    exact ht.packed

theorem hashAdd_shaped (ht : Shaped htShift t) {value : BitVec w} {r : Bool × HashTable w}
    (h : hashAdd htShift t key value = .ok r) : Shaped htShift r.2 := by
  obtain ⟨s, hs, -⟩ := ht.exists_stop key
  rcases ht.hashAdd_eq hs with herr | ⟨hlt, c, hok⟩
  · rw [herr] at h
    exact absurd h (by simp)
  · rw [hok] at h
    obtain rfl := Except.ok.inj h
    by_cases hkey : key = 0
    · subst hkey
      exact ht.store_zero hlt (hs.hit.elim id id) value
    · exact ht.store hkey hlt hs

theorem Maps.hashAdd {m : BitVec w → Option (BitVec w)} (hm : Maps htShift t m) {value : BitVec w}
    {r : Bool × HashTable w} (h : hashAdd htShift t key value = .ok r) :
    r.1 = true ∧ Maps htShift r.2 (Function.update m key (some value)) := by
  obtain ⟨s, hs, -⟩ := hm.shaped.exists_stop key
  rcases hm.shaped.hashAdd_eq hs with herr | ⟨hlt, c, hok⟩
  · rw [herr] at h
    exact absurd h (by simp)
  · rw [hok] at h
    obtain rfl := Except.ok.inj h
    refine ⟨rfl, ?_⟩
    by_cases hkey : key = 0
    · subst hkey
      have hzero : keys t s = 0 := hs.hit.elim id id
      refine ⟨hm.shaped.store_zero hlt hzero value, fun k hk v => ?_⟩
      rw [Function.update_of_ne hk, hm.stored k hk v, keys_store (by omega), ← hzero,
        Function.update_eq_self s (keys t)]
      refine exists_congr fun i => and_congr_right fun hi => ?_
      have hne : i ≠ s := fun heq => hk (hi.symm.trans (heq ▸ hzero))
      simp [CodeCacheHash.store, Function.update_of_ne hne]
    · exact hm.store hkey hlt hs

theorem hashInit_maps (raw : HashTable w) : ∃ t, hashInit raw slots = .ok t ∧ Maps htShift t fun _ => none := by
  obtain ⟨t, hinit, hh⟩ := hashInit_holds htShift raw
  exact ⟨t, hinit, hh.maps⟩

theorem addAll_shaped {adds : List (BitVec w × BitVec w)} {t' : HashTable w} (ht : Shaped htShift t)
    (h : addAll htShift t adds = .ok t') : Shaped htShift t' := by
  induction adds generalizing t with
  | nil =>
      obtain rfl := Except.ok.inj h
      exact ht
  | cons kv rest ih =>
      rw [addAll] at h
      split at h
      · rename_i r hadd
        exact ih (hashAdd_shaped ht hadd) h
      · exact absurd h (by simp)

theorem Reachable.shaped (h : Reachable htShift t) : Shaped htShift t := by
  obtain ⟨raw, t₀, adds, hinit, hadds⟩ := h
  obtain ⟨t₁, hinit', hh⟩ := hashInit_holds htShift raw
  obtain rfl := Except.ok.inj (hinit.symm.trans hinit')
  exact addAll_shaped hh.shaped hadds

theorem Shaped.present_iff (ht : Shaped htShift t) (hkey : key ≠ 0) {s : Nat}
    (hs : StopsAt 0 (keys t) key (home htShift key) s) :
    (∃ i, i < slots ∧ (t.entries i).key = key) ↔ keys t s = key := by
  constructor
  · rintro ⟨i, hi, hk⟩
    rw [← keys_of_lt t hi] at hk
    rw [ht.packed.stopsAt_eq hkey hs hk, hk]
  · intro hk
    have hlt : s < slots := by
      by_contra hge
      rw [keys, if_neg hge] at hk
      exact hkey hk.symm
    exact ⟨s, hlt, by rw [← keys_of_lt t hlt, hk]⟩

variable (htShift) in
theorem exists_holds (key value : BitVec w) (hkey : key ≠ 0) :
    ∃ t : HashTable w, Reachable htShift t ∧ Holds htShift t [(key, value)] := by
  obtain ⟨t₀, hinit, hh⟩ := hashInit_holds htShift (⟨0, 0, 0, fun _ => ⟨0, 0⟩⟩ : HashTable w)
  have hzero : keys t₀ (home htShift key) = 0 := by
    by_contra hne
    exact absurd ((hh.stored _ hne _).mpr ⟨_, rfl, rfl⟩) (by simp [lastValue])
  have hs : StopsAt 0 (keys t₀) key (home htShift key) (home htShift key + 0) := StopsAt.here (Or.inr hzero)
  have hcases := @addLoop_stop w key value 0 t₀ _ hh.shaped.size_eq hs (home_lt htShift key)
  obtain ⟨hlt, c, hadd⟩ := hcases.resolve_left fun h => absurd h.2 (not_le.mpr (home_lt htShift key))
  have hh' : Holds htShift (CodeCacheHash.store { t₀ with collisions := c } key value _) _ := hh.store hkey hlt hs
  refine ⟨_, ⟨_, t₀, [(key, value)], hinit, ?_⟩, hh'⟩
  rw [addAll, hashAdd, hh.shaped.getIndex_eq, hadd]
  rfl

variable (htShift) in
theorem exists_reachable (key value : BitVec w) (hkey : key ≠ 0) :
    ∃ t : HashTable w, Reachable htShift t ∧ hashLookup htShift t key = .ok value ∧
      ∃ i, i < slots ∧ (t.entries i).key = key := by
  obtain ⟨t, ht, hh⟩ := exists_holds htShift key value hkey
  refine ⟨t, ht, (hh.hashLookup_eq hkey).trans (by simp [lastValue]), ?_⟩
  obtain ⟨i, hi, -⟩ := (hh.stored key hkey value).mp (by simp [lastValue])
  have hlt : i < slots := by
    by_contra hge
    rw [keys, if_neg hge] at hi
    exact hkey hi.symm
  exact ⟨i, hlt, by rw [← keys_of_lt t hlt, hi]⟩

end Reachable

end Mambo.HashRefines
