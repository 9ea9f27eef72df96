import Mambo.BinarySearch
import Mambo.TraceRuns
import Mathlib.Order.Bounds.Basic
import Mathlib.Order.Monotone.Basic

namespace Mambo.FragmentLookup

open TraceState TraceRuns

variable {T : Type} (env : Env T) (t : Thread T)

section Lookup

def isBb (addr : Nat) : Bool := addr ≥ env.codeCache ∧ addr < env.traces

def metaSize : Nat := codeCacheSize + traceFragmentNo

/-- The inner value is none for -1. The outer one is none for a failed assertion,
for an access outside code_cache_meta and for a search that does not end. -/
def addrToFragmentId (addr : Nat) : Option (Option Nat) :=
  if addr ≥ env.codeCache ∧ addr < env.codeCache + maxBranchRange then
    match addrToBbId env addr with
    | some id => (BinarySearch.read metaSize t.codeCacheMeta id).map fun m =>
      some (if m.actualId ≠ 0 then m.actualId else id)
    | none =>
      let first := codeCacheSize
      let last := t.activeTrace.id - 1
      (BinarySearch.read metaSize t.codeCacheMeta last).bind fun m =>
        if addr ≥ m.tpc then
          if addr < env.codeCache + maxBranchRange then some (some last) else none
        else BinarySearch.loop metaSize (fun id => (t.codeCacheMeta id).tpc) addr (metaSize + 1) first last
  else none

end Lookup

section Specification

def IsFragment (id : Nat) : Prop := codeCacheSize ≤ id ∧ id < t.activeTrace.id

/-- The code of a fragment of a trace ends where that of the next one starts. -/
def codeArea (id : Nat) : Set Nat :=
  {addr | (t.codeCacheMeta id).tpc ≤ addr ∧ (id + 1 < t.activeTrace.id → addr < (t.codeCacheMeta (id + 1)).tpc)}

/-- The fragment whose first block or a further one is at an index. -/
def blockFragment (id : Nat) : Nat :=
  if (t.codeCacheMeta id).actualId ≠ 0 then (t.codeCacheMeta id).actualId else id

def Located (addr : Nat) : Prop :=
  ∃ id, addrToFragmentId env t addr = some (some id) ∧
    (isBb env addr → id = blockFragment t ((addr - env.codeCache) / blockBytes)) ∧
    (¬ isBb env addr → IsGreatest {i | IsFragment t i ∧ addr ∈ codeArea t i} id)

/-- The code of the fragments of traces is in the order of their ids and ends
before an address. -/
structure Laid (p : Nat) : Prop where
  first : codeCacheSize ≤ t.activeTrace.id
  limit : t.activeTrace.id ≤ metaSize
  start : codeCacheSize < t.activeTrace.id → (t.codeCacheMeta codeCacheSize).tpc = env.traces
  empty : t.activeTrace.id = codeCacheSize → p = env.traces
  ordered : ∀ i, codeCacheSize ≤ i → i + 1 < t.activeTrace.id → (t.codeCacheMeta i).tpc ≤ (t.codeCacheMeta (i + 1)).tpc
  behind : ∀ i, IsFragment t i → (t.codeCacheMeta i).tpc ≤ p

variable {env t} {p addr : Nat}

theorem Laid.mono (h : Laid env t p) : ∀ i j, codeCacheSize ≤ i → i ≤ j → j < t.activeTrace.id →
    (t.codeCacheMeta i).tpc ≤ (t.codeCacheMeta j).tpc := by
  intro i j hi hij hj
  induction j, hij using Nat.le_induction with
  | base => exact Nat.le_refl _
  | succ j hij ih => exact Nat.le_trans (ih (Nat.lt_of_succ_lt hj)) (h.ordered j (Nat.le_trans hi hij) hj)

theorem addrToBbId_isSome : (addrToBbId env addr).isSome ↔ env.codeCache ≤ addr ∧ addr ≤ env.traces := by
  rw [addrToBbId]
  split_ifs with h
  · refine iff_of_false Bool.noConfusion ?_
    omega
  · refine iff_of_true rfl ?_
    omega

theorem addrToBbId_iff (addr : Nat) : ((addrToBbId env addr).isSome ↔ isBb env addr) ↔ addr ≠ env.traces := by
  have hcache : env.codeCache ≤ env.traces := Nat.le_add_right _ _
  rw [addrToBbId_isSome, isBb, decide_eq_true_iff]
  constructor
  · rintro h rfl
    exact Nat.lt_irrefl _ (h.mp ⟨hcache, Nat.le_refl _⟩).2
  · intro hne
    omega

theorem traces_le : env.traces ≤ env.codeCache + maxBranchRange := by
  rw [Env.traces, codeCacheSize, blockBytes, maxBranchRange]
  omega

theorem located_block (h : isBb env addr) : Located env t addr := by
  obtain ⟨hlow, hhigh⟩ := of_decide_eq_true h
  have hindex : (addr - env.codeCache) / blockBytes < codeCacheSize := by
    rw [Nat.div_lt_iff_lt_mul (by decide)]
    rw [Env.traces] at hhigh
    omega
  have hsome : addrToBbId env addr = some ((addr - env.codeCache) / blockBytes) := if_neg (by omega)
  have hsize : (addr - env.codeCache) / blockBytes < metaSize := Nat.lt_of_lt_of_le hindex (Nat.le_add_right _ _)
  refine ⟨blockFragment t ((addr - env.codeCache) / blockBytes), ?_, fun _ => rfl, fun hno => absurd h hno⟩
  rw [addrToFragmentId, if_pos ⟨hlow, Nat.lt_of_lt_of_le hhigh traces_le⟩, hsome]
  dsimp only
  rw [BinarySearch.read_of_lt hsize]
  rfl

theorem Laid.greatest (h : Laid env t p) {id : Nat} (hid : IsFragment t id) (harea : addr ∈ codeArea t id) :
    IsGreatest {i | IsFragment t i ∧ addr ∈ codeArea t i} id := by
  refine ⟨⟨hid, harea⟩, ?_⟩
  rintro i ⟨hi, hlow, -⟩
  by_contra hlt
  have hnext : id + 1 ≤ i := Nat.lt_of_not_le hlt
  have hmono := h.mono (id + 1) i (Nat.le_succ_of_le hid.1) hnext hi.2
  exact Nat.not_lt_of_le (Nat.le_trans hmono hlow) (harea.2 (Nat.lt_of_le_of_lt hnext hi.2))

theorem Laid.located (h : Laid env t p) (hsome : codeCacheSize < t.activeTrace.id) (hlow : env.traces < addr)
    (hhigh : addr < env.codeCache + maxBranchRange) : Located env t addr := by
  have hcache : env.codeCache ≤ env.traces := Nat.le_add_right _ _
  have hnone : addrToBbId env addr = none := if_pos (Or.inr hlow)
  have hblock : ¬ isBb env addr := fun hb => Nat.lt_asymm hlow (of_decide_eq_true hb).2
  have hlast : t.activeTrace.id - 1 < metaSize := by
    have := h.limit
    omega
  have hread : addrToFragmentId env t addr =
      if addr ≥ (t.codeCacheMeta (t.activeTrace.id - 1)).tpc then some (some (t.activeTrace.id - 1))
      else BinarySearch.loop metaSize (fun id => (t.codeCacheMeta id).tpc) addr (metaSize + 1) codeCacheSize
        (t.activeTrace.id - 1) := by
    rw [addrToFragmentId, if_pos ⟨by omega, hhigh⟩, hnone]
    dsimp only
    rw [BinarySearch.read_of_lt hlast, Option.bind_some, if_pos hhigh]
  rw [Located, hread]
  by_cases hge : addr ≥ (t.codeCacheMeta (t.activeTrace.id - 1)).tpc
  · rw [if_pos hge]
    have harea : addr ∈ codeArea t (t.activeTrace.id - 1) := ⟨hge, fun hlt => by omega⟩
    exact ⟨_, rfl, fun hb => absurd hb hblock, fun _ => h.greatest ⟨by omega, by omega⟩ harea⟩
  · rw [if_neg hge]
    have hfirst : (t.codeCacheMeta codeCacheSize).tpc ≤ addr := by
      rw [h.start hsome]
      exact Nat.le_of_lt hlow
    have hfuel : t.activeTrace.id - 1 - codeCacheSize < metaSize + 1 := by omega
    obtain ⟨i, hi, -, hge', hle, hkey, hnext⟩ :=
      @BinarySearch.loop_spec Nat _ metaSize (fun id => (t.codeCacheMeta id).tpc) addr _ _ _ hfuel (by omega) hlast
        hfirst (Or.inl (Nat.lt_of_not_le hge))
    exact ⟨i, hi, fun hb => absurd hb hblock, fun _ => h.greatest ⟨hge', by omega⟩ ⟨hkey, fun _ => hnext⟩⟩

end Specification

end Mambo.FragmentLookup
