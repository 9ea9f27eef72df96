import Mambo.MamboHt
import Mambo.RingProbing
import Mathlib.Data.Set.Card

namespace Mambo.MamboHtRefines

open RingProbing MamboHt

def keys (ht : Table) (i : Nat) : Word := (ht.entries i).key

/-- The table holds a finite map, with a power of two slots of which at least one
is empty. -/
structure Holds (calloc : Nat → Bool) (ht : Table) (m : Word → Option Word) : Prop where
  size_pow : ∃ e, e < 60 ∧ ht.size = 2 ^ e
  granted : calloc ht.size = true
  fill_ge : 10 ≤ ht.fillFactor
  fill_le : ht.fillFactor ≤ 90
  threshold_eq : ht.resizeThreshold = threshold ht.size ht.fillFactor
  packed : Packed ht.size 0 (getIndex ht) (keys ht)
  count_eq : ht.entryCount = used ht.size 0 (keys ht)
  count_lt : ht.entryCount < ht.size
  no_zero : m 0 = none
  stored : ∀ k v, k ≠ 0 → (m k = some v ↔ ∃ i, i < ht.size ∧ ht.entries i = ⟨k, v⟩)

variable {calloc : Nat → Bool} {ht ht' : Table} {m : Word → Option Word} {key value : Word} {d : Nat}

section Probes

theorem Holds.size_pos (h : Holds calloc ht m) : 0 < ht.size := Nat.zero_lt_of_lt h.count_lt

theorem Holds.getIndex_lt (h : Holds calloc ht m) (key : Word) : getIndex ht key < ht.size := by
  have hle : getIndex ht key ≤ (BitVec.ofNat 64 (ht.size - 1)).toNat := by
    simpa only [getIndex, BitVec.toNat_and] using Nat.and_le_right
  have hmod : (BitVec.ofNat 64 (ht.size - 1)).toNat ≤ ht.size - 1 := by
    simpa only [BitVec.toNat_ofNat] using Nat.mod_le _ _
  have hpos := h.size_pos
  omega

theorem Holds.exists_stop (h : Holds calloc ht m) (key : Word) :
    ∃ d, StopsAt ht.size 0 (keys ht) key (getIndex ht key) d := by
  obtain ⟨e, he, hempty⟩ := exists_empty (by rw [← h.count_eq]; exact h.count_lt)
  exact exists_stopsAt he hempty (h.getIndex_lt key) key

theorem Holds.next_slot (h : Holds calloc ht m) (i : Nat) : (i + 1) &&& (ht.size - 1) = (i + 1) % ht.size := by
  obtain ⟨e, -, hsize⟩ := h.size_pow
  rw [hsize, Nat.and_two_pow_sub_one_eq_mod]

theorem Holds.probe_from (h : Holds calloc ht m) {i : Nat} (hs : StopsAt ht.size 0 (keys ht) key i d) (k e n : Nat)
    (hk : e + k = d) (hn : k < n) : probe ht key n (slot ht.size i e) = some (slot ht.size i d) := by
  induction k generalizing e n with
  | zero =>
      obtain ⟨n, rfl⟩ := Nat.exists_eq_succ_of_ne_zero (Nat.ne_of_gt hn)
      obtain rfl : e = d := by omega
      rw [probe, if_neg]
      rintro ⟨h0, hkey⟩
      exact hs.hit.elim hkey h0
  | succ k ih =>
      obtain ⟨n, rfl⟩ := Nat.exists_eq_succ_of_ne_zero (Nat.ne_of_gt (Nat.zero_lt_of_lt hn))
      obtain ⟨hkey, h0⟩ := hs.pass e (by omega)
      rw [probe, if_pos ⟨h0, hkey⟩, h.next_slot, ← slot_succ]
      exact ih (e + 1) n (by omega) (by omega)

theorem Holds.probe_eq (h : Holds calloc ht m) (hs : StopsAt ht.size 0 (keys ht) key (getIndex ht key) d) :
    probe ht key ht.size (getIndex ht key) = some (slot ht.size (getIndex ht key) d) := by
  have hprobe := h.probe_from hs d 0 ht.size (Nat.zero_add d) hs.lt
  rwa [slot_zero (h.getIndex_lt key)] at hprobe

theorem Holds.get_eq (h : Holds calloc ht m) (key : Word) : mamboHtGet ht key = .ok (m key) := by
  by_cases hkey : key = 0
  · rw [mamboHtGet, if_pos hkey, hkey, h.no_zero]
  obtain ⟨d, hs⟩ := h.exists_stop key
  have hslot := slot_lt h.size_pos (getIndex ht key) d
  rw [mamboHtGet, if_neg hkey, h.probe_eq hs]
  dsimp only
  by_cases hhit : (ht.entries (slot ht.size (getIndex ht key) d)).key = key
  · rw [if_pos hhit]
    have hm : m key = some (ht.entries (slot ht.size (getIndex ht key) d)).value := by
      rw [h.stored key _ hkey]
      exact ⟨_, hslot, congrArg (Entry.mk · (ht.entries (slot ht.size (getIndex ht key) d)).value) hhit⟩
    rw [hm]
  · rw [if_neg hhit]
    cases hm : m key with
    | none => rfl
    | some v =>
        obtain ⟨i, hi, hentry⟩ := (h.stored key v hkey).mp hm
        have hi' : keys ht i = key := by rw [keys, hentry]
        have heq := h.packed.stopsAt_eq hkey hi hs hi'
        rw [heq] at hhit
        exact absurd hi' hhit

end Probes

section Store

theorem keys_store (ht : Table) (key value : Word) (s : Nat) :
    keys (store ht key value s) = Function.update (keys ht) s key := by
  funext i
  by_cases hi : i = s
  · subst hi
    simp [keys, store]
  · simp [keys, store, Function.update_of_ne hi]

theorem Holds.store (h : Holds calloc ht m) (hkey : key ≠ 0)
    (hs : StopsAt ht.size 0 (keys ht) key (getIndex ht key) d) (hroom : ht.entryCount + 1 < ht.size) (value : Word) :
    Holds calloc (store ht key value (slot ht.size (getIndex ht key) d)) (Function.update m key (some value)) := by
  have hslot := slot_lt h.size_pos (getIndex ht key) d
  generalize hsdef : slot ht.size (getIndex ht key) d = s at hslot
  have hindex : getIndex (MamboHt.store ht key value s) = getIndex ht := rfl
  have hsize : (MamboHt.store ht key value s).size = ht.size := rfl
  have hentries : (MamboHt.store ht key value s).entries = Function.update ht.entries s ⟨key, value⟩ := rfl
  have hcount : (MamboHt.store ht key value s).entryCount =
      if keys ht s = 0 then ht.entryCount + 1 else ht.entryCount := rfl
  refine ⟨h.size_pow, h.granted, h.fill_ge, h.fill_le, h.threshold_eq, ?_, ?_, ?_, ?_, ?_⟩
  · rw [keys_store, hindex, ← hsdef]
    exact h.packed.insert hkey hs
  · rw [hcount, keys_store, hsize, used_update hslot hkey, h.count_eq]
  · rw [hcount, hsize]
    split
    · exact hroom
    · exact h.count_lt
  · rw [Function.update_of_ne (Ne.symm hkey)]
    exact h.no_zero
  · intro k v hk
    rw [hsize, hentries]
    by_cases hkk : k = key
    · subst hkk
      rw [Function.update_self]
      constructor
      · intro hv
        exact ⟨s, hslot, by rw [Function.update_self, Option.some.inj hv]⟩
      · rintro ⟨i, hi, hentry⟩
        by_cases his : i = s
        · rw [his, Function.update_self] at hentry
          rw [(Entry.mk.inj hentry).2]
        · rw [Function.update_of_ne his] at hentry
          have hi' : keys ht i = k := by rw [keys, hentry]
          exact absurd ((h.packed.stopsAt_eq hk hi hs hi').symm.trans hsdef) his
    · rw [Function.update_of_ne hkk, h.stored k v hk]
      -- the slot was empty or held the new key, so no binding of another key is lost
      have hother : ht.entries s ≠ ⟨k, v⟩ := by
        intro hentry
        have hkeys : keys ht s = k := by rw [keys, hentry]
        rcases hs.hit with hhit | hhit
        · rw [hsdef] at hhit
          exact hkk (hkeys.symm.trans hhit)
        · rw [hsdef] at hhit
          exact hk (hkeys.symm.trans hhit)
      constructor
      · rintro ⟨i, hi, hentry⟩
        have his : i ≠ s := fun heq => hother (heq ▸ hentry)
        exact ⟨i, hi, by rw [Function.update_of_ne his, hentry]⟩
      · rintro ⟨i, hi, hentry⟩
        by_cases his : i = s
        · rw [his, Function.update_self] at hentry
          exact absurd (Entry.mk.inj hentry).1.symm hkk
        · rw [Function.update_of_ne his] at hentry
          exact ⟨i, hi, hentry⟩

structure Added (calloc : Nat → Bool) (ht : Table) (m : Word → Option Word) (key value : Word) (ht' : Table) :
    Prop where
  holds : Holds calloc ht' (Function.update m key (some value))
  size_le : ht.size ≤ ht'.size
  size_eq : ht.entryCount < ht.resizeThreshold → ht'.size = ht.size
  count_le : ht'.entryCount ≤ ht.entryCount + 1
  allow_eq : ht'.allowResize = ht.allowResize
  fill_eq : ht'.fillFactor = ht.fillFactor

theorem Holds.insert (h : Holds calloc ht m) (hkey : key ≠ 0) (hroom : ht.entryCount + 1 < ht.size) (value : Word) :
    ∃ ht', insert ht key value = .ok (0, ht') ∧ Added calloc ht m key value ht' := by
  obtain ⟨d, hs⟩ := h.exists_stop key
  refine ⟨_, by rw [MamboHt.insert, h.probe_eq hs], h.store hkey hs hroom value, le_rfl, fun _ => rfl, ?_, rfl, rfl⟩
  change (if _ then ht.entryCount + 1 else ht.entryCount) ≤ _
  split
  · exact le_rfl
  · exact Nat.le_succ _

theorem insert_size {ret : Int} (h : insert ht key value = .ok (ret, ht')) : ht'.size = ht.size := by
  rw [MamboHt.insert] at h
  split at h
  · obtain ⟨-, rfl⟩ := Prod.mk.inj (Except.ok.inj h)
    rfl
  · exact nomatch h

end Store

section Resize

def bindings (prev : Nat → Entry) : Nat → Word → Option Word
  | 0 => fun _ => none
  | n + 1 =>
    if (prev n).key ≠ 0 then Function.update (bindings prev n) (prev n).key (some (prev n).value) else bindings prev n

theorem bindings_iff {prev : Nat → Entry} {n : Nat}
    (hunique : ∀ i j, i < n → j < n → (prev i).key = (prev j).key → (prev i).key ≠ 0 → i = j) (k v : Word) :
    bindings prev n k = some v ↔ k ≠ 0 ∧ ∃ i, i < n ∧ prev i = ⟨k, v⟩ := by
  induction n with
  | zero => simp [bindings]
  | succ n ih =>
      have hih := ih fun i j hi hj => hunique i j (Nat.lt_succ_of_lt hi) (Nat.lt_succ_of_lt hj)
      rw [bindings]
      by_cases h0 : (prev n).key ≠ 0
      · rw [if_pos h0]
        by_cases hk : k = (prev n).key
        · subst hk
          rw [Function.update_self]
          constructor
          · intro hv
            exact ⟨h0, n, Nat.lt_succ_self n, by rw [← Option.some.inj hv]⟩
          · rintro ⟨-, i, hi, hentry⟩
            have hin : i = n := hunique i n hi (Nat.lt_succ_self n) (by rw [hentry]) (by rw [hentry]; exact h0)
            rw [hin] at hentry
            rw [hentry]
        · rw [Function.update_of_ne hk, hih]
          constructor
          · rintro ⟨hk0, i, hi, hentry⟩
            exact ⟨hk0, i, Nat.lt_succ_of_lt hi, hentry⟩
          · rintro ⟨hk0, i, hi, hentry⟩
            have hin : i ≠ n := fun heq => hk (by rw [← heq, hentry])
            exact ⟨hk0, i, by omega, hentry⟩
      · rw [if_neg h0, hih]
        constructor
        · rintro ⟨hk0, i, hi, hentry⟩
          exact ⟨hk0, i, Nat.lt_succ_of_lt hi, hentry⟩
        · rintro ⟨hk0, i, hi, hentry⟩
          have hin : i ≠ n := fun heq => h0 (by rw [← heq, hentry]; exact hk0)
          exact ⟨hk0, i, by omega, hentry⟩

theorem Holds.bindings_eq (h : Holds calloc ht m) : bindings ht.entries ht.size = m := by
  funext k
  apply Option.ext
  intro v
  rw [bindings_iff h.packed.unique]
  by_cases hk : k = 0
  · subst hk
    rw [h.no_zero]
    simp
  · rw [h.stored k v hk]
    exact and_iff_right hk

theorem Holds.grown (h : Holds calloc ht m) (hcalloc : ∀ n, calloc n = true → n * 16 < 2 ^ 64)
    (hmemory : calloc (grown ht).size = true) :
    Holds calloc (grown ht) (fun _ => none) ∧ (grown ht).size = ht.size * 2 := by
  obtain ⟨e, he, hsize⟩ := h.size_pow
  have hlt : 2 ^ e * 2 < 2 ^ 64 := by
    rw [← Nat.pow_succ]
    exact Nat.pow_lt_pow_right (by omega) (by omega)
  have hdouble : (MamboHt.grown ht).size = ht.size * 2 := by
    change ht.size * 2 % 2 ^ 64 = _
    rw [hsize, Nat.mod_eq_of_lt hlt]
  refine ⟨⟨⟨e + 1, ?_, ?_⟩, hmemory, h.fill_ge, h.fill_le, rfl, packed_empty, used_empty.symm, ?_, rfl, ?_⟩, hdouble⟩
  · have hbound := hcalloc _ hmemory
    rw [hdouble, hsize, ← Nat.pow_succ, show (16 : Nat) = 2 ^ 4 from rfl, ← Nat.pow_add] at hbound
    have := (Nat.pow_lt_pow_iff_right (by omega)).mp hbound
    omega
  · rw [hdouble, hsize, Nat.pow_succ]
  · rw [hdouble]
    exact Nat.mul_pos h.size_pos (by omega)
  · intro k v hk
    constructor
    · intro hv
      exact nomatch hv
    · rintro ⟨i, -, hentry⟩
      exact absurd (Entry.mk.inj hentry).1.symm hk

/-- There is no memory for a table that a number of entries may need; or there is for one so
large that the computation of its threshold wraps. -/
def Refused (calloc : Nat → Bool) (count : Nat) : Prop :=
  (∃ n, n ≤ 20 * count + 18 ∧ calloc n = false) ∨ ∃ n, 2 ^ 58 ≤ n ∧ calloc n = true

theorem Refused.mono {count count' : Nat} (h : Refused calloc count) (hle : count ≤ count') : Refused calloc count' :=
  h.imp_left fun ⟨n, hn, hcalloc⟩ => ⟨n, by omega, hcalloc⟩

theorem Holds.refused (h : Holds calloc ht m) (hfull : ht.resizeThreshold ≤ ht.entryCount)
    (hmemory : calloc (MamboHt.grown ht).size = false) : Refused calloc ht.entryCount := by
  by_cases hsize : ht.size < 2 ^ 58
  · refine .inl ⟨_, ?_, hmemory⟩
    obtain ⟨e, he, hpow⟩ := h.size_pow
    have hle : ht.size ≤ 2 ^ 57 := by
      rw [hpow] at hsize ⊢
      exact Nat.pow_le_pow_right (by omega) (Nat.le_of_lt_succ ((Nat.pow_lt_pow_iff_right (by omega)).mp hsize))
    have hmul : ht.size * ht.fillFactor ≤ 2 ^ 57 * 90 := Nat.mul_le_mul hle h.fill_le
    have hten : ht.size * 10 ≤ ht.size * ht.fillFactor := Nat.mul_le_mul_left _ h.fill_ge
    rw [h.threshold_eq, threshold, Nat.mod_eq_of_lt (by omega)] at hfull
    have hgrown : (MamboHt.grown ht).size ≤ ht.size * 2 := Nat.mod_le _ _
    omega
  · exact .inr ⟨_, Nat.le_of_not_lt hsize, h.granted⟩

/-- An addition that may resize: it takes effect, or there is no memory. -/
def Adds (calloc : Nat → Bool) (add : Table → Word → Word → Except Fault (Int × Table)) (count : Nat) : Prop :=
  ∀ (ht : Table) (m : Word → Option Word) (key value : Word), Holds calloc ht m → key ≠ 0 → ht.entryCount < count →
    ht.allowResize = true →
    (∃ ht', add ht key value = .ok (0, ht') ∧ Added calloc ht m key value ht') ∨
      add ht key value = .error .memory ∧ Refused calloc ht.entryCount

/-- What the loop over the previous entries leaves, for a number of entries. -/
structure Refilled (calloc : Nat → Bool) (ht : Table) (m : Word → Option Word) (count : Nat) (ht' : Table) :
    Prop where
  holds : Holds calloc ht' m
  size_le : ht.size ≤ ht'.size
  size_eq : count ≤ ht.resizeThreshold → ht'.size = ht.size
  count_le : ht'.entryCount ≤ count
  allow : ht'.allowResize = true
  fill_eq : ht'.fillFactor = ht.fillFactor

theorem reinsert_holds {add : Table → Word → Word → Except Fault (Int × Table)} {prev : Nat → Entry} {size : Nat}
    (hadd : Adds calloc add (used size 0 fun i => (prev i).key)) (n i : Nat) (hi : i + n = size)
    (h : Holds calloc ht (bindings prev i)) (hle : ht.entryCount ≤ used i 0 fun i => (prev i).key)
    (hallow : ht.allowResize = true) :
    (∃ ht', reinsert add prev n i ht = .ok ht' ∧
      Refilled calloc ht (bindings prev size) (used size 0 fun i => (prev i).key) ht') ∨
      reinsert add prev n i ht = .error .memory ∧ Refused calloc (used size 0 fun i => (prev i).key) := by
  induction n generalizing i ht with
  | zero =>
      obtain rfl : i = size := hi
      exact Or.inl ⟨ht, rfl, h, le_rfl, fun _ => rfl, hle, hallow, rfl⟩
  | succ n ih =>
      rw [reinsert]
      by_cases h0 : (prev i).key ≠ 0
      · have hused : used (i + 1) 0 (fun i => (prev i).key) = used i 0 (fun i => (prev i).key) + 1 := by
          rw [used_succ, if_neg h0]
        have hmono := used_mono (show i + 1 ≤ size by omega) 0 fun i => (prev i).key
        rw [if_pos h0]
        rcases hadd ht (bindings prev i) (prev i).key (prev i).value h h0 (by omega) hallow with
          ⟨ht', hok, hadded⟩ | ⟨herror, hrefused⟩
        · rw [hok]
          have hnext : Holds calloc ht' (bindings prev (i + 1)) := by
            rw [bindings, if_pos h0]
            exact hadded.holds
          have hle' := hadded.count_le
          rcases ih (i + 1) (by omega) hnext (by omega) (hadded.allow_eq.trans hallow) with
            ⟨ht'', hok', hrefilled⟩ | herror'
          · refine Or.inl ⟨ht'', hok', hrefilled.holds, hadded.size_le.trans hrefilled.size_le, fun hroom => ?_,
              hrefilled.count_le, hrefilled.allow, hrefilled.fill_eq.trans hadded.fill_eq⟩
            have hsize := hadded.size_eq (by omega)
            refine (hrefilled.size_eq ?_).trans hsize
            rwa [hnext.threshold_eq, hsize, hadded.fill_eq, ← h.threshold_eq]
          · exact Or.inr herror'
        · rw [herror]
          exact Or.inr ⟨rfl, hrefused.mono (by omega)⟩
      · have hused : used (i + 1) 0 (fun i => (prev i).key) = used i 0 (fun i => (prev i).key) := by
          rw [used_succ, if_pos (not_not.mp h0)]
        have hnext : Holds calloc ht (bindings prev (i + 1)) := by
          rw [bindings, if_neg h0]
          exact h
        rw [if_neg h0]
        exact ih (i + 1) (by omega) hnext (by omega) hallow

theorem Holds.resize (h : Holds calloc ht m) (hcalloc : ∀ n, calloc n = true → n * 16 < 2 ^ 64)
    {add : Table → Word → Word → Except Fault (Int × Table)} (hadd : Adds calloc add ht.entryCount)
    (hfull : ht.resizeThreshold ≤ ht.entryCount) (hallow : ht.allowResize = true) :
    (∃ ht', mamboHtResize calloc add ht = .ok ht' ∧ (MamboHt.grown ht).size = ht.size * 2 ∧
      Refilled calloc (MamboHt.grown ht) m ht.entryCount ht') ∨
      mamboHtResize calloc add ht = .error .memory ∧ Refused calloc ht.entryCount := by
  rw [mamboHtResize]
  by_cases hmemory : calloc (MamboHt.grown ht).size = true
  · obtain ⟨hgrown, hsize⟩ := h.grown hcalloc hmemory
    rw [if_pos hmemory]
    have hused : used ht.size 0 (fun i => (ht.entries i).key) = ht.entryCount := h.count_eq.symm
    rw [← hused] at hadd ⊢
    rw [← h.bindings_eq]
    rcases reinsert_holds hadd ht.size 0 (Nat.zero_add _) hgrown (Nat.zero_le _) hallow with
      ⟨ht', hok, hrefilled⟩ | herror
    · exact Or.inl ⟨ht', hok, hsize, hrefilled⟩
    · exact Or.inr herror
  · rw [if_neg hmemory]
    exact Or.inr ⟨rfl, h.refused hfull (Bool.eq_false_of_not_eq_true hmemory)⟩

theorem threshold_lt {size fillFactor : Nat} (hsize : 0 < size) (hfill : fillFactor ≤ 90) :
    threshold size fillFactor < size := by
  have hmod := Nat.mod_le (size * fillFactor) (2 ^ 64)
  have hmul : size * fillFactor ≤ size * 90 := Nat.mul_le_mul_left _ hfill
  rw [threshold, Nat.div_lt_iff_lt_mul (by omega)]
  omega

/-- Every addition ends, with a depth of calls of at most the number of entries
and one more. -/
theorem Holds.add (hcalloc : ∀ n, calloc n = true → n * 16 < 2 ^ 64) (n : Nat) (h : Holds calloc ht m)
    (hkey : key ≠ 0) (hcount : ht.entryCount < n) (value : Word) :
    (∃ ht', mamboHtAddNolock calloc n ht key value = .ok (0, ht') ∧ Added calloc ht m key value ht') ∨
      (mamboHtAddNolock calloc n ht key value = .ok (-1, ht) ∧ ht.allowResize = false) ∨
      mamboHtAddNolock calloc n ht key value = .error .memory ∧ Refused calloc ht.entryCount := by
  induction n generalizing ht m key value with
  | zero => omega
  | succ n ih =>
      have hlt : ht.entryCount < ht.resizeThreshold → ht.entryCount + 1 < ht.size := by
        intro hbelow
        have hthreshold := threshold_lt h.size_pos h.fill_le
        rw [← h.threshold_eq] at hthreshold
        omega
      rw [mamboHtAddNolock, if_neg hkey]
      by_cases hfull : ht.entryCount ≥ ht.resizeThreshold
      · rw [if_pos hfull]
        cases hallow : ht.allowResize with
        | false =>
            rw [if_neg Bool.false_ne_true]
            exact Or.inr (Or.inl ⟨rfl, rfl⟩)
        | true =>
            rw [if_pos rfl]
            have hadds : Adds calloc (mamboHtAddNolock calloc n) ht.entryCount := by
              intro ht₁ m₁ key₁ value₁ h₁ hkey₁ hcount₁ hallow₁
              rcases ih h₁ hkey₁ (by omega) value₁ with hok | ⟨-, hrefused⟩ | hmemory
              · exact Or.inl hok
              · exact absurd (hrefused.symm.trans hallow₁) Bool.false_ne_true
              · exact Or.inr hmemory
            rcases h.resize hcalloc hadds hfull hallow with ⟨ht', hok, hgrown, hrefilled⟩ | ⟨hmemory, hrefused⟩
            · rw [hok]
              have hlt' := h.count_lt
              have hsize := hrefilled.size_le
              have hle := hrefilled.count_le
              obtain ⟨ht'', hok', hadded⟩ := hrefilled.holds.insert hkey (by omega) value
              refine Or.inl ⟨ht'', hok', hadded.holds, ?_, fun hbelow => absurd hbelow (Nat.not_lt.mpr hfull), ?_, ?_, ?_⟩
              · exact (by omega : ht.size ≤ ht'.size).trans hadded.size_le
              · exact hadded.count_le.trans (by omega)
              · exact hadded.allow_eq.trans (hrefilled.allow.trans hallow.symm)
              · exact hadded.fill_eq.trans hrefilled.fill_eq
            · rw [hmemory]
              exact Or.inr (Or.inr ⟨rfl, hrefused⟩)
      · rw [if_neg hfull]
        exact Or.inl (h.insert hkey (hlt (not_le.mp hfull)) value)

theorem adds_nolock (hcalloc : ∀ n, calloc n = true → n * 16 < 2 ^ 64) (n : Nat) :
    Adds calloc (mamboHtAddNolock calloc n) n := by
  intro ht m key value h hkey hcount hallow
  rcases h.add hcalloc n hkey hcount value with hok | ⟨-, hrefused⟩ | hmemory
  · exact Or.inl hok
  · exact absurd (hrefused.symm.trans hallow) Bool.false_ne_true
  · exact Or.inr hmemory

theorem Holds.add_size (hcalloc : ∀ n, calloc n = true → n * 16 < 2 ^ 64) (h : Holds calloc ht m) (hkey : key ≠ 0)
    (hallow : ht.allowResize = true) (hfull : ht.resizeThreshold ≤ ht.entryCount)
    (hfits : ht.entryCount ≤ threshold (ht.size * 2) ht.fillFactor)
    (hok : mamboHtAdd calloc ht key value = .ok (0, ht')) : ht'.size = ht.size * 2 := by
  rw [mamboHtAdd, mamboHtAddNolock, if_neg hkey, if_pos hfull, if_pos hallow] at hok
  rcases h.resize hcalloc (adds_nolock hcalloc _) hfull hallow with ⟨ht₁, hresize, hgrown, hrefilled⟩ | ⟨hmemory, -⟩
  · have hsame : ht₁.size = ht.size * 2 := by
      refine (hrefilled.size_eq ?_).trans hgrown
      change ht.entryCount ≤ threshold (MamboHt.grown ht).size ht.fillFactor
      rwa [hgrown]
    have hlt := h.count_lt
    have hle := hrefilled.count_le
    obtain ⟨ht₂, hinsert, hadded⟩ := hrefilled.holds.insert hkey (by omega) value
    rw [hresize] at hok
    dsimp only at hok
    rw [hinsert] at hok
    obtain ⟨-, rfl⟩ := Prod.mk.inj (Except.ok.inj hok)
    rw [insert_size hinsert, hsame]
  · rw [hmemory] at hok
    exact nomatch hok

theorem Holds.dom_eq (h : Holds calloc ht m) : { k | (m k).isSome } =
    (((Finset.range ht.size).filter fun i => keys ht i ≠ 0).image (keys ht) : Finset Word) := by
  ext k
  rw [Set.mem_ofPred_eq, Finset.mem_coe, Finset.mem_image]
  constructor
  · intro hk
    obtain ⟨v, hv⟩ := Option.isSome_iff_exists.mp hk
    have hne : k ≠ 0 := by
      rintro rfl
      rw [h.no_zero] at hv
      cases hv
    obtain ⟨i, hi, hentry⟩ := (h.stored k v hne).mp hv
    have hkeys : keys ht i = k := by rw [keys, hentry]
    exact ⟨i, Finset.mem_filter.mpr ⟨Finset.mem_range.mpr hi, by rwa [hkeys]⟩, hkeys⟩
  · rintro ⟨i, hi, rfl⟩
    obtain ⟨hi, hne⟩ := Finset.mem_filter.mp hi
    rw [(h.stored _ (ht.entries i).value hne).mpr ⟨i, Finset.mem_range.mp hi, rfl⟩]
    rfl

theorem Holds.ncard_eq (h : Holds calloc ht m) : { k | (m k).isSome }.ncard = ht.entryCount := by
  rw [h.dom_eq, Set.ncard_coe_finset, Finset.card_image_of_injOn, h.count_eq]
  · rfl
  · intro i hi j hj heq
    obtain ⟨hi, hne⟩ := Finset.mem_filter.mp (Finset.mem_coe.mp hi)
    obtain ⟨hj, -⟩ := Finset.mem_filter.mp (Finset.mem_coe.mp hj)
    exact h.packed.unique i j (Finset.mem_range.mp hi) (Finset.mem_range.mp hj) heq hne

theorem Added.count_new (hadded : Added calloc ht m key value ht') (h : Holds calloc ht m) (hnew : m key = none) :
    ht'.entryCount = ht.entryCount + 1 := by
  have hinsert : { k | (Function.update m key (some value) k).isSome } = insert key { k | (m k).isSome } := by
    ext k
    rw [Set.mem_ofPred_eq, Set.mem_insert_iff, Set.mem_ofPred_eq]
    by_cases hk : k = key
    · simp [hk]
    · rw [Function.update_of_ne hk, or_iff_right hk]
  have hfinite : { k | (m k).isSome }.Finite := by
    rw [h.dom_eq]
    exact Finset.finite_toSet _
  rw [← hadded.holds.ncard_eq, ← h.ncard_eq, hinsert, Set.ncard_insert_of_notMem (by simp [hnew]) hfinite]

end Resize

section Runs

theorem roundUp_pow {n size initialSize size' : Nat}
    (hsize : (∃ e, e < 64 ∧ size = 2 ^ e) ∨ size = 0 ∧ 0 < initialSize)
    (h : roundUp n size initialSize = some size') : ∃ e, e < 64 ∧ size' = 2 ^ e := by
  induction n generalizing size with
  | zero => exact nomatch h
  | succ n ih =>
      rw [roundUp] at h
      by_cases hlt : size < initialSize
      · rw [if_pos hlt] at h
        refine ih ?_ h
        rcases hsize with ⟨e, he, rfl⟩ | ⟨rfl, hpos⟩
        · by_cases hlast : e = 63
          · subst hlast
            exact Or.inr ⟨by decide, by omega⟩
          · refine Or.inl ⟨e + 1, by omega, ?_⟩
            rw [← Nat.pow_succ, Nat.mod_eq_of_lt (Nat.pow_lt_pow_right (by omega) (by omega))]
        · exact Or.inr ⟨rfl, hpos⟩
      · rw [if_neg hlt] at h
        obtain rfl := Option.some.inj h
        rcases hsize with hpow | ⟨rfl, hpos⟩
        · exact hpow
        · exact absurd hpos hlt

theorem init_holds (hcalloc : ∀ n, calloc n = true → n * 16 < 2 ^ 64) {initialSize : Nat} {indexShift fillFactor : Int}
    {allowResize : Bool} (h : mamboHtInit calloc initialSize indexShift fillFactor allowResize = .ok (some ht)) :
    Holds calloc ht fun _ => none := by
  rw [mamboHtInit] at h
  split at h
  · exact nomatch h
  rename_i hfill
  split at h
  · exact nomatch h
  split at h
  · exact nomatch h
  rename_i size hround
  split at h
  · rename_i hmemory
    obtain rfl := Option.some.inj (Except.ok.inj h)
    obtain ⟨e, -, hsize⟩ := roundUp_pow (Or.inl ⟨0, by omega, rfl⟩) hround
    have hbound := hcalloc size hmemory
    rw [hsize, show (16 : Nat) = 2 ^ 4 from rfl, ← Nat.pow_add] at hbound
    have he := (Nat.pow_lt_pow_iff_right (by omega)).mp hbound
    refine ⟨⟨e, by omega, hsize⟩, hmemory, ?_, ?_, rfl, packed_empty, used_empty.symm, ?_, rfl, ?_⟩
    · change 10 ≤ fillFactor.toNat
      omega
    · change fillFactor.toNat ≤ 90
      omega
    · rw [hsize]
      exact Nat.two_pow_pos e
    · intro k v hk
      constructor
      · intro hv
        exact nomatch hv
      · rintro ⟨i, -, hentry⟩
        exact absurd (Entry.mk.inj hentry).1.symm hk
  · exact nomatch h

theorem callAll_holds (hcalloc : ∀ n, calloc n = true → n * 16 < 2 ^ 64) (h : Holds calloc ht m)
    (calls : List Call) :
    callAll calloc ht calls = .error .memory ∧ Refused calloc (ht.entryCount + calls.length) ∨
      ∃ answers ht' m', callAll calloc ht calls = .ok (answers, ht') ∧ Answers m calls answers m' ∧
        Holds calloc ht' m' := by
  induction calls generalizing ht m with
  | nil => exact Or.inr ⟨[], ht, m, rfl, .nil m, h⟩
  | cons c cs ih =>
      have hrest {ht₁ : Table} {m₁ : Word → Option Word} {answer : Answer} (h₁ : Holds calloc ht₁ m₁)
          (hcount : ht₁.entryCount ≤ ht.entryCount + 1) (hcall : call calloc ht c = .ok (answer, ht₁))
          (hanswer : ∀ as m', Answers m₁ cs as m' → Answers m (c :: cs) (answer :: as) m') :
          callAll calloc ht (c :: cs) = .error .memory ∧ Refused calloc (ht.entryCount + (c :: cs).length) ∨
            ∃ answers ht' m', callAll calloc ht (c :: cs) = .ok (answers, ht') ∧
              Answers m (c :: cs) answers m' ∧ Holds calloc ht' m' := by
        rw [callAll, hcall, List.length_cons]
        rcases ih h₁ with ⟨hmemory, hrefused⟩ | ⟨answers, ht', m', hok, hanswers, hholds⟩
        · exact Or.inl ⟨by simp only [hmemory]; rfl, hrefused.mono (by omega)⟩
        · exact Or.inr ⟨_, ht', m', by simp only [hok]; rfl, hanswer answers m' hanswers, hholds⟩
      cases c with
      | get key =>
          have hcall : call calloc ht (.get key) = .ok (.got (m key), ht) := by
            rw [call, h.get_eq key]
            rfl
          exact hrest h (Nat.le_succ _) hcall fun _ _ => .got key
      | add key value =>
          by_cases hkey : key = 0
          · have hcall : call calloc ht (.add key value) = .ok (.added (-1), ht) := by
              rw [call, mamboHtAdd, mamboHtAddNolock, if_pos hkey]
              rfl
            exact hrest h (Nat.le_succ _) hcall fun _ _ => .refused key value
          rcases h.add hcalloc (ht.entryCount + 1) hkey (Nat.lt_succ_self _) value with
            ⟨ht₁, hok₁, hadded⟩ | ⟨hrefused, -⟩ | ⟨hmemory₁, hrefused⟩
          · have hcall : call calloc ht (.add key value) = .ok (.added 0, ht₁) := by
              rw [call, mamboHtAdd, hok₁]
              rfl
            exact hrest hadded.holds hadded.count_le hcall fun _ _ => .added key value
          · have hcall : call calloc ht (.add key value) = .ok (.added (-1), ht) := by
              rw [call, mamboHtAdd, hrefused]
              rfl
            exact hrest h (Nat.le_succ _) hcall fun _ _ => .refused key value
          · refine Or.inl ⟨?_, hrefused.mono (Nat.le_add_right _ _)⟩
            have hcall : call calloc ht (.add key value) = .error .memory := by
              rw [call, mamboHtAdd, hmemory₁]
              rfl
            rw [callAll, hcall]

theorem init_count {initialSize : Nat} {indexShift fillFactor : Int} {allowResize : Bool}
    (h : mamboHtInit calloc initialSize indexShift fillFactor allowResize = .ok (some ht)) :
    ht.entryCount = 0 ∧ ht.allowResize = allowResize := by
  rw [mamboHtInit] at h
  split at h
  · exact nomatch h
  split at h
  · exact nomatch h
  split at h
  · exact nomatch h
  split at h
  · obtain rfl := Option.some.inj (Except.ok.inj h)
    exact ⟨rfl, rfl⟩
  · exact nomatch h

/-- Unless the memory for a resize is refused, every sequence of calls on a new
table is answered as by a finite map. The table then holds each binding of the
map in one slot, and nothing else, and one slot is empty. -/
theorem mamboHt_refines (hcalloc : ∀ n, calloc n = true → n * 16 < 2 ^ 64) {initialSize : Nat}
    {indexShift fillFactor : Int} {allowResize : Bool}
    (hinit : mamboHtInit calloc initialSize indexShift fillFactor allowResize = .ok (some ht)) (calls : List Call) :
    callAll calloc ht calls = .error .memory ∧ Refused calloc calls.length ∨
      ∃ answers ht' m, callAll calloc ht calls = .ok (answers, ht') ∧ Answers (fun _ => none) calls answers m ∧
        (∀ k, mamboHtGet ht' k = .ok (m k)) ∧
        (∀ k v, k ≠ 0 → (m k = some v ↔ ∃ i, i < ht'.size ∧ ht'.entries i = ⟨k, v⟩)) ∧
        (∀ i j, i < ht'.size → j < ht'.size → (ht'.entries i).key ≠ 0 →
          (ht'.entries i).key = (ht'.entries j).key → i = j) ∧
        ∃ i, i < ht'.size ∧ (ht'.entries i).key = 0 := by
  rcases callAll_holds hcalloc (init_holds hcalloc hinit) calls with hmemory | ⟨answers, ht', m, hok, hanswers, h⟩
  · rw [(init_count hinit).1, Nat.zero_add] at hmemory
    exact Or.inl hmemory
  · refine Or.inr ⟨answers, ht', m, hok, hanswers, h.get_eq, h.stored, ?_, ?_⟩
    · intro i j hi hj hne heq
      exact h.packed.unique i j hi hj heq hne
    · have hlt := h.count_lt
      rw [h.count_eq] at hlt
      exact exists_empty hlt

/-- A table of one slot, which is always too full. -/
def smallTable : Table := ⟨1, 0, 2, true, 10, 0, cleared⟩

def smallCalls : List Call := [.add 0x400000 1, .add 0x400004 2, .add 0x400000 3, .get 0x400000, .get 0x400008]

theorem mamboHt_refines_small :
    (∀ n, decide (n < 1024) = true → n * 16 < 2 ^ 64) ∧
      mamboHtInit (fun n => decide (n < 1024)) 1 2 10 true = .ok (some smallTable) ∧
      ∃ ht' m, callAll (fun n => decide (n < 1024)) smallTable smallCalls =
          .ok ([.added 0, .added 0, .added 0, .got (some 3), .got none], ht') ∧
        Answers (fun _ => none) smallCalls [.added 0, .added 0, .added 0, .got (some 3), .got none] m ∧
        ∃ i, i < ht'.size ∧ (ht'.entries i).key = 0 := by
  have hcalloc : ∀ n, decide (n < 1024) = true → n * 16 < 2 ^ 64 := by
    intro n hn
    have hlt : n < 1024 := of_decide_eq_true hn
    omega
  have hinit : mamboHtInit (fun n => decide (n < 1024)) 1 2 10 true = .ok (some smallTable) := rfl
  have heval : (callAll (fun n => decide (n < 1024)) smallTable smallCalls).map Prod.fst =
      .ok [.added 0, .added 0, .added 0, .got (some 3), .got none] := rfl
  refine ⟨hcalloc, hinit, ?_⟩
  rcases mamboHt_refines hcalloc hinit smallCalls with ⟨hmemory, -⟩ | ⟨answers, ht', m, hok, hanswers, -, -, -, hempty⟩
  · rw [hmemory] at heval
    exact nomatch heval
  · rw [hok] at heval
    obtain rfl : answers = _ := Except.ok.inj heval
    exact ⟨ht', m, hok, hanswers, hempty⟩

end Runs

end Mambo.MamboHtRefines
