import Mathlib.Data.Finset.Card
import Mathlib.Data.Finset.Range
import Mathlib.Data.Nat.Find
import Mathlib.Tactic.Common

namespace Mambo.RingProbing

variable {α : Type*}

/-- The slot at a distance from another one, in a ring of n slots. -/
def slot (n h d : Nat) : Nat := (h + d) % n

/-- The walk from slot h looking for key ends after d steps, on the key or on an
empty slot. -/
structure StopsAt (n : Nat) (empty : α) (keys : Nat → α) (key : α) (h d : Nat) : Prop where
  lt : d < n
  hit : keys (slot n h d) = key ∨ keys (slot n h d) = empty
  pass : ∀ e, e < d → keys (slot n h e) ≠ key ∧ keys (slot n h e) ≠ empty

/-- Open addressing in a ring: the walk from the home slot of a stored key to
where it lies meets no hole, and no key is stored twice. -/
structure Packed (n : Nat) (empty : α) (home : α → Nat) (keys : Nat → α) : Prop where
  reach : ∀ i, i < n → keys i ≠ empty →
    ∃ d, d < n ∧ slot n (home (keys i)) d = i ∧ ∀ e, e < d → keys (slot n (home (keys i)) e) ≠ empty
  unique : ∀ i j, i < n → j < n → keys i = keys j → keys i ≠ empty → i = j

variable {n : Nat} {empty : α} {home : α → Nat} {keys : Nat → α} {key : α} {h d : Nat}

theorem slot_lt (hn : 0 < n) (h d : Nat) : slot n h d < n := Nat.mod_lt _ hn

theorem slot_zero (hh : h < n) : slot n h 0 = h := Nat.mod_eq_of_lt hh

theorem slot_succ (n h d : Nat) : slot n h (d + 1) = (slot n h d + 1) % n := by
  rw [slot, slot, ← Nat.add_assoc, Nat.mod_add_mod]

theorem exists_slot {e : Nat} (he : e < n) (hh : h < n) : ∃ d, d < n ∧ slot n h d = e := by
  rcases Nat.lt_or_ge e h with hlt | hge
  · refine ⟨e + n - h, by omega, ?_⟩
    rw [slot, show h + (e + n - h) = e + n by omega, Nat.add_mod_right, Nat.mod_eq_of_lt he]
  · refine ⟨e - h, by omega, ?_⟩
    rw [slot, show h + (e - h) = e by omega, Nat.mod_eq_of_lt he]

theorem exists_stopsAt {e : Nat} (he : e < n) (hempty : keys e = empty) (hh : h < n) (key : α) :
    ∃ d, StopsAt n empty keys key h d := by
  obtain ⟨d, hd, rfl⟩ := exists_slot he hh
  have hstop : ∃ d, keys (slot n h d) = key ∨ keys (slot n h d) = empty := ⟨d, Or.inr hempty⟩
  classical
  refine ⟨Nat.find hstop, ?_, Nat.find_spec hstop, ?_⟩
  · exact lt_of_le_of_lt (Nat.find_min' hstop (Or.inr hempty)) hd
  · intro e he
    exact not_or.mp (Nat.find_min hstop he)

theorem Packed.stopsAt_eq (hp : Packed n empty home keys) (hkey : key ≠ empty) {j : Nat} (hj : j < n)
    (hs : StopsAt n empty keys key (home key) d) (hjkey : keys j = key) : slot n (home key) d = j := by
  obtain ⟨e, he, hslot, hrun⟩ := hp.reach j hj (hjkey ▸ hkey)
  rw [hjkey] at hslot hrun
  have hn : 0 < n := Nat.zero_lt_of_lt hj
  rcases lt_trichotomy d e with hlt | heq | hgt
  · rcases hs.hit with hhit | hhit
    · exact hp.unique _ _ (slot_lt hn _ _) hj (hhit.trans hjkey.symm) (fun h0 => hkey (hhit.symm.trans h0))
    · exact absurd hhit (hrun d hlt)
  · rw [heq, hslot]
  · exact absurd (hslot ▸ hjkey) (hs.pass e hgt).1

theorem packed_empty : Packed n empty home fun _ => empty :=
  ⟨fun _ _ h => absurd rfl h, fun _ _ _ _ _ h => absurd rfl h⟩

theorem Packed.insert (hp : Packed n empty home keys) (hkey : key ≠ empty)
    (hs : StopsAt n empty keys key (home key) d) :
    Packed n empty home (Function.update keys (slot n (home key) d) key) := by
  have hfill : ∀ j, keys j ≠ empty → Function.update keys (slot n (home key) d) key j ≠ empty := by
    intro j hj
    by_cases hjs : j = slot n (home key) d
    · simpa only [hjs, Function.update_self] using hkey
    · simpa only [Function.update_of_ne hjs] using hj
  constructor
  · intro i hi hne
    by_cases his : i = slot n (home key) d
    · subst his
      rw [Function.update_self]
      exact ⟨d, hs.lt, rfl, fun e he => hfill _ (hs.pass e he).2⟩
    · rw [Function.update_of_ne his] at hne ⊢
      obtain ⟨e, he, hslot, hrun⟩ := hp.reach i hi hne
      exact ⟨e, he, hslot, fun e' he' => hfill _ (hrun e' he')⟩
  · intro i j hi hj heq hne
    by_cases his : i = slot n (home key) d
    · by_cases hjs : j = slot n (home key) d
      · rw [his, hjs]
      · rw [his, Function.update_self, Function.update_of_ne hjs] at heq
        exact his.trans (hp.stopsAt_eq hkey hj hs heq.symm)
    · by_cases hjs : j = slot n (home key) d
      · rw [hjs, Function.update_self, Function.update_of_ne his] at heq
        exact ((hp.stopsAt_eq hkey hi hs heq).symm).trans hjs.symm
      · rw [Function.update_of_ne his] at heq hne
        rw [Function.update_of_ne hjs] at heq
        exact hp.unique i j hi hj heq hne

section Count

variable [DecidableEq α]

def used (n : Nat) (empty : α) (keys : Nat → α) : Nat := ((Finset.range n).filter fun i => keys i ≠ empty).card

theorem used_empty : used n empty (fun _ : Nat => empty) = 0 := by
  rw [used, Finset.card_eq_zero]
  exact Finset.filter_false_of_mem fun _ _ h => h rfl

theorem exists_empty (hlt : used n empty keys < n) : ∃ i, i < n ∧ keys i = empty := by
  by_contra hfull
  push Not at hfull
  have hall : (Finset.range n).filter (fun i => keys i ≠ empty) = Finset.range n :=
    Finset.filter_true_of_mem fun i hi => hfull i (Finset.mem_range.mp hi)
  rw [used, hall, Finset.card_range] at hlt
  exact lt_irrefl n hlt

theorem used_update {s : Nat} (hs : s < n) (hkey : key ≠ empty) :
    used n empty (Function.update keys s key) =
      if keys s = empty then used n empty keys + 1 else used n empty keys := by
  have hset : (Finset.range n).filter (fun i => Function.update keys s key i ≠ empty) =
      insert s ((Finset.range n).filter fun i => keys i ≠ empty) := by
    ext i
    by_cases hi : i = s
    · subst hi
      simp [hs, hkey]
    · simp [hi]
  rw [used, hset]
  by_cases h0 : keys s = empty
  · rw [if_pos h0, Finset.card_insert_of_notMem (by simp [h0])]
    rfl
  · rw [if_neg h0, Finset.insert_eq_of_mem (by simp [hs, h0])]
    rfl

theorem used_succ (n : Nat) (empty : α) (keys : Nat → α) :
    used (n + 1) empty keys = if keys n = empty then used n empty keys else used n empty keys + 1 := by
  rw [used, Finset.range_add_one, Finset.filter_insert]
  by_cases h0 : keys n = empty
  · rw [if_neg (not_not.mpr h0), if_pos h0]
    rfl
  · rw [if_pos h0, if_neg h0, Finset.card_insert_of_notMem (by simp)]
    rfl

theorem used_mono {m : Nat} (h : m ≤ n) (empty : α) (keys : Nat → α) : used m empty keys ≤ used n empty keys := by
  apply Finset.card_le_card
  exact Finset.filter_subset_filter _ (Finset.range_mono h)

end Count

end Mambo.RingProbing
