import Mambo.Hotspot
import Mambo.MamboHtRefines
import Mathlib.Algebra.BigOperators.Group.List.Basic

namespace Mambo.HotspotExact

open IntLoops Intervals MamboHt MamboHtRefines TopSelection Hotspot

section Specification

def lookup (ht : Table) (k : Word) : Option Word :=
  match mamboHtGet ht k with
  | .ok value => value
  | .error _ => none

/-- The counter of a table for a block, where it has one. -/
def count (memory : Word → Count) (ht : Table) (k : Word) : Option Count := (lookup ht k).map memory

/-- The sum of the counters of all threads for a block, where one of them has one. -/
def total (memory : Word → Count) (threads : List Table) (k : Word) : Option Count :=
  if ∃ t ∈ threads, (count memory t k).isSome then some (threads.map fun t => (count memory t k).getD 0).sum else none

/-- The blocks with a count other than zero, each once, by descending counts. -/
structure BlocksListed (totals : Word → Option Count) (blocks : List (Word × Count)) : Prop where
  mem_iff : ∀ a v, (a, v) ∈ blocks ↔ totals a = some v ∧ v ≠ 0
  once : (blocks.map Prod.fst).Nodup
  sorted : blocks.Pairwise fun b b' => b'.2.toNat ≤ b.2.toNat

def startedSymbol (files : Files) (execAllocs : IntervalMap) (a : Word) : Option String :=
  (getSymbolInfoByAddr files execAllocs a false).bind (startedBy a)

/-- The largest counts of the blocks that start a symbol, by descending counts. -/
structure FunctionsListed (symbol : Word → Option String) (topK : Nat) (totals : Word → Option Count)
    (fs : List FunctionFreq) (starts : List Word) (rest : List FunctionFreq) : Prop where
  mem_iff : ∀ a, a ∈ starts ↔ (totals a).isSome ∧ (symbol a).isSome
  once : starts.Nodup
  perm : (fs ++ rest).Perm
    (starts.map fun a => ⟨(symbol a).getD "", (totals a).getD 0⟩)
  length_eq : fs.length = min topK starts.length
  sorted : fs.Pairwise fun f f' => f'.calls.toNat ≤ f.calls.toNat
  largest : ∀ f ∈ fs, ∀ f' ∈ rest, f'.calls.toNat ≤ f.calls.toNat

end Specification

section Totals

variable {calloc : Nat → Bool} {memory : Word → Count} {threads : List Table} {t : Table} {k : Word}
  {m : Word → Option Word}

theorem count_eq (h : Holds calloc t m) (k : Word) : count memory t k = (m k).map memory := by
  rw [count, lookup, h.get_eq k]

theorem merge_assoc (a b c : Option Count) : Option.merge (· + ·) (Option.merge (· + ·) a b) c =
    Option.merge (· + ·) a (Option.merge (· + ·) b c) := Std.Associative.assoc a b c

@[simp] theorem total_nil : total memory [] k = none := by simp [total]

theorem total_cons : total memory (t :: threads) k =
    Option.merge (· + ·) (count memory t k) (total memory threads k) := by
  rw [total, total, List.map_cons, List.sum_cons]
  cases ht : count memory t k with
  | none =>
      simp [ht]
  | some v =>
      rw [if_pos ⟨t, List.mem_cons_self, by rw [ht]; rfl⟩, Option.getD_some]
      by_cases hex : ∃ t ∈ threads, (count memory t k).isSome
      · rw [if_pos hex]
        rfl
      · have hzero : ∀ x ∈ threads.map fun t => (count memory t k).getD 0, x = 0 := by
          intro x hx
          obtain ⟨t', ht', rfl⟩ := List.mem_map.mp hx
          have hnone : count memory t' k = none := by
            by_contra hsome
            exact hex ⟨t', ht', Option.isSome_iff_ne_none.mpr hsome⟩
          rw [hnone]
          rfl
        rw [if_neg hex, List.sum_eq_zero hzero]
        simp

end Totals

section Merge

variable {calloc : Nat → Bool} {mamboAlloc : List Word → Nat → Option Word} {memory : Word → Count}
  {locals : List Word} {n : Nat} {st : State} {T : Word → Option Count} {t : Table} {m : Word → Option Word} {e : Entry}

/-- No memory for a table or for an array that a number of slots may need. -/
def NoMemory (calloc : Nat → Bool) (mamboAlloc : List Word → Nat → Option Word) (slots : Nat) : Prop :=
  Refused calloc slots ∨
    ∃ used bytes, used.length ≤ 2 * slots ∧ bytes ≤ 16 * slots + 8 ∧ mamboAlloc used bytes = none

def maxEntries : Nat := threshold (2 ^ 30) 80

/-- A table has an int for the index of each slot just while it has no more than these entries. -/
structure Sized (ht : Table) : Prop where
  fill : ht.fillFactor = 80
  size_ge : 2 ^ 14 ≤ ht.size
  fits : ht.size < 2 ^ 31 → ht.entryCount ≤ ht.resizeThreshold
  large : 2 ^ 31 ≤ ht.size → maxEntries < ht.entryCount

theorem threshold_eq {size : Nat} (h : size ≤ 2 ^ 31) : threshold size 80 = size * 80 / 100 := by
  rw [threshold, Nat.mod_eq_of_lt (by omega)]

theorem size_le_half {ht : Table} {g : Word → Option Word} (h : Holds calloc ht g) (hsize : ht.size < 2 ^ 31) :
    ht.size ≤ 2 ^ 30 := by
  obtain ⟨e, -, hpow⟩ := h.size_pow
  rw [hpow] at hsize ⊢
  exact Nat.pow_le_pow_right (by omega) (Nat.le_of_lt_succ ((Nat.pow_lt_pow_iff_right (by omega)).mp hsize))

theorem Sized.size_iff {ht : Table} {g : Word → Option Word} (hs : Sized ht) (h : Holds calloc ht g) :
    ht.size < 2 ^ 31 ↔ ht.entryCount ≤ maxEntries := by
  constructor
  · intro hsize
    have hle := size_le_half h hsize
    have hfits := hs.fits hsize
    rw [h.threshold_eq, hs.fill, threshold_eq (by omega)] at hfits
    rw [maxEntries, threshold_eq (by omega)]
    omega
  · intro hcount
    by_contra hsize
    exact absurd (hs.large (Nat.le_of_not_lt hsize)) (Nat.not_lt.mpr hcount)

theorem Sized.add {ht ht' : Table} {g : Word → Option Word} {key p : Word} (hs : Sized ht)
    (hcalloc : ∀ n, calloc n = true → n * 16 < 2 ^ 64) (h : Holds calloc ht g) (hkey : key ≠ 0)
    (hallow : ht.allowResize = true) (hnew : g key = none) (hok : mamboHtAdd calloc ht key p = .ok (0, ht'))
    (hadded : Added calloc ht g key p ht') : Sized ht' := by
  have hcount := hadded.count_new h hnew
  have hthreshold : ht'.resizeThreshold = threshold ht'.size 80 := by
    rw [hadded.holds.threshold_eq, hadded.fill_eq, hs.fill]
  have hbefore : ht.resizeThreshold = threshold ht.size 80 := by rw [h.threshold_eq, hs.fill]
  have hge := hs.size_ge
  refine ⟨hadded.fill_eq.trans hs.fill, hge.trans hadded.size_le, ?_, ?_⟩
  · intro hsize
    by_cases hfull : ht.entryCount < ht.resizeThreshold
    · rw [hthreshold, hadded.size_eq hfull, ← hbefore]
      omega
    · have hle : ht.size < 2 ^ 31 := lt_of_le_of_lt hadded.size_le hsize
      have hfits := hs.fits hle
      have hhalf := size_le_half h hle
      rw [hbefore, threshold_eq (by omega)] at hfits hfull
      have hdouble := h.add_size hcalloc hkey hallow (by rw [hbefore, threshold_eq (by omega)]; omega)
        (by rw [hs.fill, threshold_eq (by omega)]; omega) hok
      rw [hthreshold, hdouble, threshold_eq (by omega)]
      omega
  · intro hsize
    by_cases hbig : 2 ^ 31 ≤ ht.size
    · have hlarge := hs.large hbig
      omega
    · have hle := Nat.lt_of_not_le hbig
      have hhalf := size_le_half h hle
      have hfits := hs.fits hle
      have hfull : ¬ht.entryCount < ht.resizeThreshold := fun hroom => by
        rw [hadded.size_eq hroom] at hsize
        omega
      have hbound := hadded.size_eq
      rw [hbefore, threshold_eq (by omega)] at hfits hfull
      have hdouble := h.add_size hcalloc hkey hallow (by rw [hbefore, threshold_eq (by omega)]; omega)
        (by rw [hs.fill, threshold_eq (by omega)]; omega) hok
      rw [maxEntries, threshold_eq (by omega)]
      omega

/-- The global table has these counts, in counters of its own that are apart from those of threads,
which are kept; there are no more of them than slots of which the threads have been relieved. -/
structure Merged (calloc : Nat → Bool) (memory : Word → Count) (locals : List Word) (n : Nat)
    (T : Word → Option Count) (st : State) (g : Word → Option Word) : Prop where
  holds : Holds calloc st.ht g
  allow : st.ht.allowResize = true
  sized : Sized st.ht
  count_le : st.ht.entryCount ≤ st.globals.length
  room : st.globals.length ≤ n
  owned : ∀ k p, g k = some p → p ∈ st.globals
  injective : ∀ k k' p, g k = some p → g k' = some p → k = k'
  apart : ∀ p ∈ st.globals, p ∉ locals
  kept : ∀ p, p ∉ st.globals → st.memory p = memory p
  counts : ∀ k, (g k).map st.memory = T k

def add (T : Word → Option Count) (key : Word) (v : Count) : Word → Option Count :=
  Function.update T key (Option.merge (· + ·) (T key) (some v))

theorem Merged.increase {g : Word → Option Word} {key p : Word} (h : Merged calloc memory locals n T st g)
    (hkey : g key = some p) (v : Count) : Merged calloc memory locals (n + 1) (add T key v)
      { st with memory := Function.update st.memory p (st.memory p + v) } g where
  holds := h.holds
  allow := h.allow
  sized := h.sized
  count_le := h.count_le
  room := Nat.le_succ_of_le h.room
  owned := h.owned
  injective := h.injective
  apart := h.apart
  kept q hq := by
    have hne : q ≠ p := fun heq => hq (heq ▸ h.owned key p hkey)
    exact (Function.update_of_ne hne _ _).trans (h.kept q hq)
  counts k := by
    have hT := h.counts k
    by_cases hk : k = key
    · subst hk
      rw [hkey] at hT
      rw [add, Function.update_self, ← hT, hkey]
      exact congrArg some (Function.update_self p _ _)
    · rw [add, Function.update_of_ne hk, ← hT]
      cases hgk : g k with
      | none => rfl
      | some q =>
          have hne : q ≠ p := fun heq => hk (h.injective k key p (heq ▸ hgk) hkey)
          exact congrArg some (Function.update_of_ne hne _ _)

theorem Merged.insert {g : Word → Option Word} {key p : Word} {ht : Table} (h : Merged calloc memory locals n T st g)
    (hkey : g key = none) (hp : p ∉ st.globals ++ locals) (hadded : Added calloc st.ht g key p ht) (hs : Sized ht)
    (v : Count) : Merged calloc memory locals (n + 1) (add T key v) ⟨ht, p :: st.globals, Function.update st.memory p v⟩
      (Function.update g key (some p)) := by
  rw [List.mem_append, not_or] at hp
  have hne {k q : Word} (hgk : g k = some q) : q ≠ p := fun heq => hp.1 (heq ▸ h.owned k q hgk)
  have hcount := hadded.count_le
  have hle := h.count_le
  have hroom := h.room
  refine ⟨hadded.holds, hadded.allow_eq.trans h.allow, hs, ?_, ?_, ?_, ?_, ?_, ?_, ?_⟩
  · exact hcount.trans (Nat.succ_le_succ hle)
  · exact Nat.succ_le_succ hroom
  · intro k q hgk
    by_cases hk : k = key
    · rw [hk, Function.update_self, Option.some.injEq] at hgk
      exact hgk ▸ List.mem_cons_self
    · rw [Function.update_of_ne hk] at hgk
      exact List.mem_cons_of_mem p (h.owned k q hgk)
  · intro k k' q hgk hgk'
    by_cases hk : k = key
    · by_cases hk' : k' = key
      · exact hk.trans hk'.symm
      · rw [hk, Function.update_self, Option.some.injEq] at hgk
        rw [Function.update_of_ne hk'] at hgk'
        exact absurd hgk.symm (hne hgk')
    · rw [Function.update_of_ne hk] at hgk
      by_cases hk' : k' = key
      · rw [hk', Function.update_self, Option.some.injEq] at hgk'
        exact absurd hgk'.symm (hne hgk)
      · rw [Function.update_of_ne hk'] at hgk'
        exact h.injective k k' q hgk hgk'
  · intro q hq
    rcases List.mem_cons.mp hq with rfl | hq
    · exact hp.2
    · exact h.apart q hq
  · intro q hq
    rw [List.mem_cons, not_or] at hq
    exact (Function.update_of_ne hq.1 _ _).trans (h.kept q hq.2)
  · intro k
    have hT := h.counts k
    by_cases hk : k = key
    · subst hk
      rw [hkey] at hT
      rw [add, Function.update_self, Function.update_self, ← hT]
      exact congrArg some (show Function.update st.memory p v p = v from Function.update_self ..)
    · rw [add, Function.update_of_ne hk, Function.update_of_ne hk, ← hT]
      cases hgk : g k with
      | none => rfl
      | some q => exact congrArg some (Function.update_of_ne (hne hgk) _ _)

/-- A slot of a thread's table adds its counter, unless there is no memory left. -/
theorem Merged.entry {g : Word → Option Word} (hcalloc : ∀ n, calloc n = true → n * 16 < 2 ^ 64)
    (hfresh : ∀ used n p, mamboAlloc used n = some p → p ∉ used) (h : Merged calloc memory locals n T st g)
    (hkey : e.key ≠ 0) (hlocal : e.value ∈ locals) (hn : n ≤ locals.length) :
    (∃ st' g', mergeEntry calloc mamboAlloc locals e st = .ok st' ∧
      Merged calloc memory locals (n + 1) (add T e.key (memory e.value)) st' g') ∨
      mergeEntry calloc mamboAlloc locals e st = .error .memory ∧ NoMemory calloc mamboAlloc locals.length := by
  have hvalue : st.memory e.value = memory e.value := h.kept e.value fun hmem => h.apart e.value hmem hlocal
  have hcount := h.count_le
  have hroom := h.room
  rw [mergeEntry, if_pos hkey, h.holds.get_eq, hvalue]
  cases hg : g e.key with
  | some p => exact .inl ⟨_, g, rfl, h.increase hg (memory e.value)⟩
  | none =>
      dsimp only [ofTable]
      cases hp : mamboAlloc (st.globals ++ locals) 8 with
      | none =>
          refine .inr ⟨rfl, .inr ⟨_, 8, ?_, Nat.le_add_left _ _, hp⟩⟩
          rw [List.length_append]
          omega
      | some p =>
          rcases h.holds.add hcalloc (st.ht.entryCount + 1) hkey (Nat.lt_succ_self _) p with
            ⟨ht, hok, hadded⟩ | ⟨-, hrefused⟩ | ⟨hmemory, hrefused⟩
          · have hsized := h.sized.add hcalloc h.holds hkey h.allow hg hok hadded
            refine .inl ⟨_, _, ?_, h.insert hg (hfresh _ _ p hp) hadded hsized (memory e.value)⟩
            simp only [mamboHtAdd, hok]
            rfl
          · exact absurd (hrefused.symm.trans h.allow) Bool.false_ne_true
          · refine .inr ⟨?_, .inl (hrefused.mono (by omega))⟩
            simp only [mamboHtAdd, hmemory]

def upTo (memory : Word → Count) (T : Word → Option Count) (t : Table) (i : Nat) (k : Word) : Option Count :=
  Option.merge (· + ·) (T k) ((bindings t.entries i k).map memory)

theorem upTo_zero : upTo memory T t 0 = T := by
  funext k
  rw [upTo, bindings, Option.map_none, Option.merge_none_right]

theorem upTo_size (h : Holds calloc t m) : upTo memory T t t.size =
    fun k => Option.merge (· + ·) (T k) (count memory t k) := by
  funext k
  rw [upTo, h.bindings_eq, count_eq h]

theorem upTo_empty {i : Nat} (hkey : (t.entries i).key = 0) : upTo memory T t (i + 1) = upTo memory T t i := by
  funext k
  rw [upTo, bindings, if_neg (not_not.mpr hkey), ← upTo]

theorem upTo_succ (h : Holds calloc t m) {i : Nat} (hi : i < t.size) (hkey : (t.entries i).key ≠ 0) :
    upTo memory T t (i + 1) = add (upTo memory T t i) (t.entries i).key (memory (t.entries i).value) := by
  have hnone : bindings t.entries i (t.entries i).key = none := by
    have hunique : ∀ j j', j < i → j' < i → (t.entries j).key = (t.entries j').key → (t.entries j).key ≠ 0 → j = j' :=
      fun j j' hj hj' => h.packed.unique j j' (by omega) (by omega)
    rw [Option.eq_none_iff_forall_not_mem]
    intro v hv
    obtain ⟨-, j, hj, hentry⟩ := (bindings_iff hunique _ v).mp hv
    have hsame : (t.entries j).key = (t.entries i).key := by rw [hentry]
    exact absurd (h.packed.unique j i (by omega) hi hsame (by rw [keys, hsame]; exact hkey)) (by omega)
  funext k
  rw [upTo, bindings, if_pos hkey]
  by_cases hk : k = (t.entries i).key
  · subst hk
    rw [add, Function.update_self, Function.update_self, upTo, hnone, Option.map_none, Option.merge_none_right,
      Option.map_some]
  · rw [add, Function.update_of_ne hk, Function.update_of_ne hk, upTo]

theorem Merged.thread {g : Word → Option Word} (hcalloc : ∀ n, calloc n = true → n * 16 < 2 ^ 64)
    (hfresh : ∀ used n p, mamboAlloc used n = some p → p ∉ used) (h : Merged calloc memory locals n T st g)
    (ht : Holds calloc t m) (hlocal : ∀ i < t.size, (t.entries i).value ∈ locals) (hn : n + t.size ≤ locals.length) :
    hotstatPostThreadCb calloc mamboAlloc locals t st = .error .memory ∧ NoMemory calloc mamboAlloc locals.length ∨
      if t.size < 2 ^ 31 then ∃ st', hotstatPostThreadCb calloc mamboAlloc locals t st = .ok st' ∧ ∃ g',
        Merged calloc memory locals (n + t.size) (fun k => Option.merge (· + ·) (T k) (count memory t k)) st' g'
      else hotstatPostThreadCb calloc mamboAlloc locals t st = .error .overflow := by
  rw [← upTo_size ht]
  have hstep : ∀ i < t.size, ∀ st, (∃ g, Merged calloc memory locals (n + i) (upTo memory T t i) st g) →
      (∃ st', mergeEntry calloc mamboAlloc locals (t.entries i) st = .ok st' ∧
        ∃ g', Merged calloc memory locals (n + (i + 1)) (upTo memory T t (i + 1)) st' g') ∨
        ∃ e, mergeEntry calloc mamboAlloc locals (t.entries i) st = .error e ∧
          e = .memory ∧ NoMemory calloc mamboAlloc locals.length := by
    rintro i hi st ⟨g, hmerged⟩
    by_cases hkey : (t.entries i).key = 0
    · refine .inl ⟨st, ?_, g, ?_⟩
      · rw [mergeEntry, if_neg (not_not.mpr hkey)]
      · rw [upTo_empty hkey]
        exact { hmerged with room := Nat.le_succ_of_le hmerged.room }
    · rcases hmerged.entry hcalloc hfresh hkey (hlocal i hi) (by omega) with ⟨st', g', hok, hnext⟩ | hmemory
      · exact .inl ⟨st', hok, g', by rwa [upTo_succ ht hi hkey]⟩
      · exact .inr ⟨_, hmemory.1, rfl, hmemory.2⟩
  rcases forInt_rule Stop.overflow (fun i st => ∃ g, Merged calloc memory locals (n + i) (upTo memory T t i) st g) _
    hstep ⟨g, by rwa [upTo_zero]⟩ with ⟨e, herror, rfl, hmemory⟩ | hdone
  · exact .inl ⟨herror, hmemory⟩
  · exact .inr hdone

theorem Merged.threads {g : Word → Option Word} {threads : List Table}
    (hcalloc : ∀ n, calloc n = true → n * 16 < 2 ^ 64)
    (hfresh : ∀ used n p, mamboAlloc used n = some p → p ∉ used) (h : Merged calloc memory locals n T st g)
    (hthreads : ∀ t ∈ threads, ∃ m, Holds calloc t m)
    (hlocal : ∀ t ∈ threads, ∀ i < t.size, (t.entries i).value ∈ locals)
    (hn : n + (threads.flatMap pointers).length ≤ locals.length) :
    endAll calloc mamboAlloc locals threads st = .error .memory ∧ NoMemory calloc mamboAlloc locals.length ∨
      if ∀ t ∈ threads, t.size < 2 ^ 31 then ∃ st', endAll calloc mamboAlloc locals threads st = .ok st' ∧ ∃ g',
        Merged calloc memory locals locals.length (fun k => Option.merge (· + ·) (T k) (total memory threads k)) st' g'
      else endAll calloc mamboAlloc locals threads st = .error .overflow := by
  induction threads generalizing n st g T with
  | nil =>
      refine .inr ?_
      rw [if_pos (by simp)]
      have hmerged : Merged calloc memory locals locals.length T st g := { h with room := h.room.trans hn }
      exact ⟨st, rfl, g, by simpa only [total_nil, Option.merge_none_right] using hmerged⟩
  | cons t threads ih =>
      rw [List.forall_mem_cons] at hthreads hlocal
      obtain ⟨m, ht⟩ := hthreads.1
      have hlength : (pointers t).length = t.size := by rw [pointers, List.length_map, List.length_range]
      rw [List.flatMap_cons, List.length_append, hlength] at hn
      rw [endAll]
      simp only [List.forall_mem_cons]
      rcases h.thread hcalloc hfresh ht hlocal.1 (by omega) with ⟨hmemory, hnone⟩ | hdone
      · rw [hmemory]
        exact .inl ⟨rfl, hnone⟩
      · by_cases hsize : t.size < 2 ^ 31
        · rw [if_pos hsize] at hdone
          obtain ⟨st', hok, g', hmerged⟩ := hdone
          rw [hok]
          simp only [hsize, true_and, total_cons]
          have hrest := ih hmerged hthreads.2 hlocal.2 (by omega)
          simpa only [merge_assoc] using hrest
        · rw [if_neg hsize] at hdone
          rw [hdone, if_neg fun h => hsize h.1]
          exact .inr rfl

end Merge

section Blocks

variable {calloc : Nat → Bool} {files : Files} {execAllocs : IntervalMap} {memory : Word → Count}
  {entries : Nat → Entry} {size : Nat}

def Live (memory : Word → Count) (entries : Nat → Entry) (j : Nat) : Prop :=
  (entries j).key ≠ 0 ∧ memory (entries j).value ≠ 0

instance : DecidablePred (Live memory entries) := fun _ => inferInstanceAs (Decidable (_ ∧ _))

/-- What is found in the first slots of a table: no live one has a larger counter, and there is none or
it is that of one of them. -/
structure Found (memory : Word → Count) (entries : Nat → Entry) (n : Nat) (max : Largest) : Prop where
  largest : ∀ j < n, Live memory entries j → (memory (entries j).value).toNat ≤ max.counter.toNat
  slot : max.addr = 0 ∧ max.counter = 0 ∨ max.idx < n ∧ Live memory entries max.idx ∧
    max.addr = (entries max.idx).key ∧ max.counter = memory (entries max.idx).value

theorem Found.skip {n : Nat} {max : Largest} (h : Found memory entries n max)
    (hn : Live memory entries n → (memory (entries n).value).toNat ≤ max.counter.toNat) :
    Found memory entries (n + 1) max where
  largest := Nat.forall_lt_succ_right.mpr ⟨h.largest, hn⟩
  slot := h.slot.imp_right fun hslot => ⟨Nat.lt_succ_of_lt hslot.1, hslot.2⟩

theorem Found.round {n : Nat} {max : Largest} (h : Found memory entries n max) :
    ∃ max', largestRound memory entries n max = .ok max' ∧ Found memory entries (n + 1) max' := by
  refine ⟨_, rfl, ?_⟩
  by_cases hkey : (entries n).key = 0
  · rw [if_pos hkey]
    exact h.skip fun hlive => absurd hkey hlive.1
  · rw [if_neg hkey]
    by_cases hmore : max.counter < memory (entries n).value
    · have hlt : max.counter.toNat < (memory (entries n).value).toNat := hmore
      have hne : memory (entries n).value ≠ 0 := by
        intro hzero
        rw [hzero] at hlt
        exact absurd hlt (Nat.not_lt_zero _)
      rw [if_pos hmore]
      exact ⟨Nat.forall_lt_succ_right.mpr ⟨fun j hj hlive => (h.largest j hj hlive).trans hlt.le, fun _ => le_rfl⟩,
        .inr ⟨Nat.lt_succ_self n, ⟨hkey, hne⟩, rfl, rfl⟩⟩
    · rw [if_neg hmore]
      exact h.skip fun _ => Nat.le_of_not_lt hmore

/-- A search goes through all slots, or its index overflows. -/
theorem search_eq (memory : Word → Count) (entries : Nat → Entry) (size : Nat) :
    if size < 2 ^ 31 then ∃ max, forInt .overflow (largestRound memory entries) size 0 ⟨0, 0, 0⟩ = .ok max ∧
      Found memory entries size max
    else forInt .overflow (largestRound memory entries) size 0 ⟨0, 0, 0⟩ = .error .overflow := by
  have hstep : ∀ i < size, ∀ max, Found memory entries i max →
      (∃ max', largestRound memory entries i max = .ok max' ∧ Found memory entries (i + 1) max') ∨
        ∃ e, largestRound memory entries i max = .error e ∧ False := fun i _ max h => .inl h.round
  have hinit : Found memory entries 0 ⟨0, 0, 0⟩ := ⟨fun j hj => absurd hj (Nat.not_lt_zero j), .inl ⟨rfl, rfl⟩⟩
  rcases forInt_rule Stop.overflow (Found memory entries) (fun _ => False) hstep hinit with ⟨e, -, hfalse⟩ | hdone
  · exact hfalse.elim
  · exact hdone

def live (memory : Word → Count) (size : Nat) (entries : Nat → Entry) : Finset Nat :=
  (Finset.range size).filter (Live memory entries)

theorem live_mark (memory : Word → Count) (size : Nat) (entries : Nat → Entry) (idx : Nat) :
    live memory size (mark entries idx) = (live memory size entries).erase idx := by
  ext j
  rw [live, Finset.mem_filter, Finset.mem_erase, live, Finset.mem_filter]
  by_cases hj : j = idx
  · subst hj
    simp [Live, mark]
  · simp [Live, mark, hj]

/-- The lines of blocks in their order; nothing is promised after a look-up that crashes. -/
def printAll (files : Files) (execAllocs : IntervalMap) : List (Word × Count) → Except Stop (List Line)
  | [] => .ok []
  | block :: blocks =>
    match blockLine files execAllocs block with
    | none => .error .crash
    | some line => (printAll files execAllocs blocks).map (line :: ·)

theorem printAll_cases (files : Files) (execAllocs : IntervalMap) (blocks : List (Word × Count)) :
    ((∀ b ∈ blocks, (blockLine files execAllocs b).isSome) ∧ ∃ lines, printAll files execAllocs blocks = .ok lines ∧
      blocks.map (blockLine files execAllocs) = lines.map some) ∨
    (¬∀ b ∈ blocks, (blockLine files execAllocs b).isSome) ∧ printAll files execAllocs blocks = .error .crash := by
  induction blocks with
  | nil => exact .inl ⟨fun b hb => absurd hb List.not_mem_nil, [], rfl, rfl⟩
  | cons block blocks ih =>
      rw [printAll, List.forall_mem_cons]
      cases hline : blockLine files execAllocs block with
      | none => exact .inr ⟨fun h => Bool.false_ne_true h.1, rfl⟩
      | some line =>
          rcases ih with ⟨hall, lines, hok, hlines⟩ | ⟨hnot, herr⟩
          · exact .inl ⟨⟨rfl, hall⟩, line :: lines, by rw [hok]; rfl, by rw [List.map_cons, hline, hlines]; rfl⟩
          · exact .inr ⟨fun h => hnot h.2, by rw [herr]; rfl⟩

theorem reportBlocks_spec (hsize : size < 2 ^ 31) (n i : Nat) (entries : Nat → Entry) (hi : i + n = size)
    (hlive : (live memory size entries).card ≤ n) : ∃ slots : List Nat,
      reportBlocks files execAllocs memory size n i entries =
        printAll files execAllocs (slots.map fun j => ((entries j).key, memory (entries j).value)) ∧
      slots.Nodup ∧ (∀ j, j ∈ slots ↔ j ∈ live memory size entries) ∧
      slots.Pairwise fun j j' => (memory (entries j').value).toNat ≤ (memory (entries j).value).toNat := by
  induction n generalizing i entries with
  | zero =>
      rw [Nat.le_zero, Finset.card_eq_zero] at hlive
      exact ⟨[], rfl, .nil, fun j => by simp [hlive], .nil⟩
  | succ n ih =>
      have hsearch := search_eq memory entries size
      rw [if_pos hsize] at hsearch
      obtain ⟨max, hok, hfound⟩ := hsearch
      rw [reportBlocks, hok]
      dsimp only
      rcases hfound.slot with ⟨haddr, hcounter⟩ | ⟨hidx, hmax, haddr, hcounter⟩
      · refine ⟨[], by rw [if_pos haddr]; rfl, .nil, fun j => ?_, .nil⟩
        have hdead : j ∉ live memory size entries := by
          intro hj
          rw [live, Finset.mem_filter, Finset.mem_range] at hj
          have hle := hfound.largest j hj.1 hj.2
          rw [hcounter] at hle
          exact hj.2.2 (BitVec.eq_of_toNat_eq (Nat.le_zero.mp hle))
        simp [hdead]
      · have hmem : max.idx ∈ live memory size entries := by
          rw [live, Finset.mem_filter, Finset.mem_range]
          exact ⟨hidx, hmax⟩
        have hmark := live_mark memory size entries max.idx
        have hcard : (live memory size (mark entries max.idx)).card ≤ n := by
          rw [hmark, Finset.card_erase_of_mem hmem]
          omega
        obtain ⟨slots, hrest, hnodup, hslots, hsorted⟩ := ih (i + 1) _ (by omega) hcard
        rw [hmark] at hslots
        have hother : ∀ j ∈ slots, mark entries max.idx j = entries j :=
          fun j hj => Function.update_of_ne (Finset.ne_of_mem_erase ((hslots j).mp hj)) _ _
        refine ⟨max.idx :: slots, ?_, ?_, ?_, ?_⟩
        · have hsame : (slots.map fun j => ((mark entries max.idx j).key, memory (mark entries max.idx j).value)) =
              slots.map fun j => ((entries j).key, memory (entries j).value) :=
            List.map_congr_left fun j hj => by rw [hother j hj]
          have hlast : i + 1 < 2 ^ 31 := by omega
          rw [if_neg (by rw [haddr]; exact hmax.1), hrest, hsame, List.map_cons, printAll, haddr, hcounter]
          cases blockLine files execAllocs ((entries max.idx).key, memory (entries max.idx).value) with
          | none => rfl
          | some line => exact if_pos hlast
        · exact List.nodup_cons.mpr ⟨fun hin => Finset.notMem_erase _ _ ((hslots _).mp hin), hnodup⟩
        · intro j
          rw [List.mem_cons, hslots, Finset.mem_erase]
          by_cases hj : j = max.idx
          · simp [hj, hmem]
          · simp [hj]
        · refine List.pairwise_cons.mpr ⟨fun j hj => ?_, hsorted.imp_of_mem fun hj hj' hle => ?_⟩
          · have hin := (Finset.mem_erase.mp ((hslots j).mp hj)).2
            rw [live, Finset.mem_filter, Finset.mem_range] at hin
            exact hcounter ▸ hfound.largest j hin.1 hin.2
          · rwa [hother _ hj, hother _ hj'] at hle

theorem blocks_listed (files : Files) (execAllocs : IntervalMap) (memory : Word → Count) {ht : Table}
    {g : Word → Option Word} (h : Holds calloc ht g) (hsize : ht.size < 2 ^ 31) :
    ∃ blocks, reportBlocks files execAllocs memory ht.size ht.size 0 ht.entries = printAll files execAllocs blocks ∧
      BlocksListed (fun k => (g k).map memory) blocks := by
  have hcard : (live memory ht.size ht.entries).card ≤ ht.size :=
    (Finset.card_filter_le _ _).trans (Finset.card_range _).le
  obtain ⟨slots, hok, hnodup, hslots, hsorted⟩ := reportBlocks_spec hsize ht.size 0 ht.entries (Nat.zero_add _) hcard
  simp only [live, Finset.mem_filter, Finset.mem_range] at hslots
  refine ⟨_, hok, fun a v => ?_, ?_, List.pairwise_map.mpr hsorted⟩
  · rw [List.mem_map]
    constructor
    · rintro ⟨j, hj, hpair⟩
      obtain ⟨rfl, rfl⟩ := Prod.mk.inj hpair
      obtain ⟨hlt, hkey, hcount⟩ := (hslots j).mp hj
      have hstored := (h.stored (ht.entries j).key (ht.entries j).value hkey).mpr ⟨j, hlt, rfl⟩
      exact ⟨by rw [hstored]; rfl, hcount⟩
    · rintro ⟨htotal, hv⟩
      obtain ⟨p, hp, rfl⟩ := Option.map_eq_some_iff.mp htotal
      have ha : a ≠ 0 := by
        rintro rfl
        rw [h.no_zero] at hp
        cases hp
      obtain ⟨j, hj, hentry⟩ := (h.stored a p ha).mp hp
      refine ⟨j, (hslots j).mpr ⟨hj, ?_⟩, by rw [hentry]⟩
      rw [Live, hentry]
      exact ⟨ha, hv⟩
  · rw [List.map_map]
    refine List.Nodup.map_on (fun j hj j' hj' heq => ?_) hnodup
    obtain ⟨hlt, hkey, -⟩ := (hslots j).mp hj
    exact h.packed.unique j j' hlt ((hslots j').mp hj').1 heq hkey

end Blocks

section Functions

variable {calloc : Nat → Bool} {mamboAlloc : List Word → Nat → Option Word} {files : Files} {execAllocs : IntervalMap}
  {memory : Word → Count}

def starts (symbol : Word → Option String) (ht : Table) : List Word :=
  (List.range ht.size).filterMap fun i =>
    if (ht.entries i).key ≠ 0 ∧ (symbol (ht.entries i).key).isSome then some (ht.entries i).key else none

theorem mem_starts (symbol : Word → Option String) {ht : Table} {g : Word → Option Word} (h : Holds calloc ht g)
    (a : Word) : a ∈ starts symbol ht ↔ ((g a).map memory).isSome ∧ (symbol a).isSome := by
  rw [starts, List.mem_filterMap, Option.isSome_map]
  constructor
  · rintro ⟨i, hi, hif⟩
    split at hif
    next hkey =>
      obtain rfl := Option.some.inj hif
      have hstored := (h.stored (ht.entries i).key (ht.entries i).value hkey.1).mpr ⟨i, List.mem_range.mp hi, rfl⟩
      exact ⟨by rw [hstored]; rfl, hkey.2⟩
    next => cases hif
  · rintro ⟨hbound, hsymbol⟩
    obtain ⟨p, hp⟩ := Option.isSome_iff_exists.mp hbound
    have ha : a ≠ 0 := by
      rintro rfl
      rw [h.no_zero] at hp
      cases hp
    obtain ⟨i, hi, hentry⟩ := (h.stored a p ha).mp hp
    exact ⟨i, List.mem_range.mpr hi, by rw [hentry, if_pos ⟨ha, hsymbol⟩]⟩

theorem starts_nodup (symbol : Word → Option String) {ht : Table} {g : Word → Option Word} (h : Holds calloc ht g) :
    (starts symbol ht).Nodup := by
  refine List.pairwise_filterMap.mpr (List.nodup_range.imp_of_mem fun {i j} hi hj hne a ha b hb heq => hne ?_)
  rw [List.mem_range] at hi hj
  split at ha
  next hkey =>
    split at hb
    next =>
      have hsame : (ht.entries i).key = (ht.entries j).key :=
        (Option.some.inj ha).trans (heq.trans (Option.some.inj hb).symm)
      exact h.packed.unique i j hi hj hsame hkey.1
    next => cases hb
  next => cases ha

/-- A slot for which nothing is added to the array, or a function. -/
def entryFunction (symbol : Word → Option String) (memory : Word → Count) (e : Entry) : Option FunctionFreq :=
  if e.key = 0 then none else (symbol e.key).map fun name => ⟨name, memory e.value⟩

/-- The loop fails for want of memory, or it crashes just if a look-up does. -/
theorem functions_eq (files : Files) (execAllocs : IntervalMap) (mapped : Bool) (st : State) (is : List Nat) :
    functions files execAllocs mapped st is = .error .memory ∧ mapped = false ∨
      if ∀ i ∈ is, (st.ht.entries i).key ≠ 0 →
        (getSymbolInfoByAddr files execAllocs (st.ht.entries i).key false).isSome then
        functions files execAllocs mapped st is =
          .ok (is.filterMap fun i => entryFunction (startedSymbol files execAllocs) st.memory (st.ht.entries i))
      else functions files execAllocs mapped st is = .error .crash := by
  induction is with
  | nil =>
      refine .inr ?_
      rw [if_pos (by simp)]
      rfl
  | cons i is ih =>
      have hnext {f : Option FunctionFreq} (hsome : (st.ht.entries i).key ≠ 0 →
            (getSymbolInfoByAddr files execAllocs (st.ht.entries i).key false).isSome)
          (hf : functionOf files execAllocs mapped st.memory (st.ht.entries i) = .ok f)
          (hentry : entryFunction (startedSymbol files execAllocs) st.memory (st.ht.entries i) = f) :
          functions files execAllocs mapped st (i :: is) = .error .memory ∧ mapped = false ∨
            if ∀ j ∈ i :: is, (st.ht.entries j).key ≠ 0 →
              (getSymbolInfoByAddr files execAllocs (st.ht.entries j).key false).isSome then
              functions files execAllocs mapped st (i :: is) = .ok ((i :: is).filterMap fun i =>
                entryFunction (startedSymbol files execAllocs) st.memory (st.ht.entries i))
            else functions files execAllocs mapped st (i :: is) = .error .crash := by
        rw [functions, hf]
        simp only [List.forall_mem_cons, and_iff_right hsome, List.filterMap_cons, hentry]
        rcases ih with ⟨hmemory, hmapped⟩ | hdone
        · rw [hmemory]
          exact .inl ⟨rfl, hmapped⟩
        · refine .inr ?_
          split at hdone
          next hall =>
            rw [if_pos hall, hdone]
            cases f <;> rfl
          next hall =>
            rw [if_neg hall, hdone]
            rfl
      by_cases hkey : (st.ht.entries i).key = 0
      · exact hnext (absurd hkey) (if_pos hkey) (if_pos hkey)
      cases hinfo : getSymbolInfoByAddr files execAllocs (st.ht.entries i).key false with
      | none =>
          refine .inr ?_
          rw [if_neg fun hall => ?_, functions, functionOf, if_neg hkey, hinfo]
          have hsome := hall i List.mem_cons_self hkey
          rw [hinfo] at hsome
          exact Bool.false_ne_true hsome
      | some info =>
          have hsymbol : startedSymbol files execAllocs (st.ht.entries i).key =
              startedBy (st.ht.entries i).key info := by rw [startedSymbol, hinfo, Option.bind_some]
          cases hname : startedBy (st.ht.entries i).key info with
          | none =>
              refine hnext (fun _ => by rw [hinfo]; rfl) (f := none) ?_ ?_
              · rw [functionOf, if_neg hkey, hinfo]
                simp only [hname]
              · rw [entryFunction, if_neg hkey, hsymbol, hname, Option.map_none]
          | some name =>
              have hf : functionOf files execAllocs mapped st.memory (st.ht.entries i) =
                  if mapped then .ok (some ⟨name, st.memory (st.ht.entries i).value⟩) else .error .memory := by
                rw [functionOf, if_neg hkey, hinfo]
                simp only [hname]
              cases mapped with
              | false => exact .inl ⟨by rw [functions, hf]; rfl, rfl⟩
              | true =>
                  refine hnext (fun _ => by rw [hinfo]; rfl) hf ?_
                  rw [entryFunction, if_neg hkey, hsymbol, hname, Option.map_some]

/-- The functions are those of the blocks that start a symbol, with the counts of these. -/
theorem filterMap_entries (symbol : Word → Option String) {ht : Table} {g : Word → Option Word}
    (h : Holds calloc ht g) : ((List.range ht.size).filterMap fun i => entryFunction symbol memory (ht.entries i)) =
      (starts symbol ht).map fun a => ⟨(symbol a).getD "", ((g a).map memory).getD 0⟩ := by
  rw [starts, List.map_filterMap]
  refine List.filterMap_congr fun i hi => ?_
  rw [entryFunction]
  by_cases hkey : (ht.entries i).key = 0
  · rw [if_pos hkey, if_neg fun hand => hand.1 hkey]
    rfl
  · rw [if_neg hkey]
    cases hsymbol : symbol (ht.entries i).key with
    | none =>
        rw [if_neg fun hand => by simp at hand]
        rfl
    | some name =>
        have hstored := (h.stored (ht.entries i).key (ht.entries i).value hkey).mpr ⟨i, List.mem_range.mp hi, rfl⟩
        rw [if_pos ⟨hkey, rfl⟩, Option.map_some, Option.map_some, hsymbol, hstored]
        rfl

theorem forall_keys {ht : Table} {g : Word → Option Word} (h : Holds calloc ht g) (P : Word → Prop) :
    (∀ i ∈ List.range ht.size, (ht.entries i).key ≠ 0 → P (ht.entries i).key) ↔ ∀ a, (g a).isSome → P a := by
  constructor
  · intro hall a hsome
    obtain ⟨p, hp⟩ := Option.isSome_iff_exists.mp hsome
    have ha : a ≠ 0 := by
      rintro rfl
      rw [h.no_zero] at hp
      cases hp
    obtain ⟨i, hi, hentry⟩ := (h.stored a p ha).mp hp
    have hP := hall i (List.mem_range.mpr hi)
    rw [hentry] at hP
    exact hP ha
  · intro hall i hi hkey
    refine hall _ ?_
    rw [(h.stored (ht.entries i).key (ht.entries i).value hkey).mpr ⟨i, List.mem_range.mp hi, rfl⟩]
    rfl

/-- The first functions are listed, unless their array cannot be allocated or a look-up crashes. -/
theorem functions_listed (mamboAlloc : List Word → Nat → Option Word) (files : Files) (execAllocs : IntervalMap)
    {st : State} {g : Word → Option Word} (h : Holds calloc st.ht g) (topK : Nat) :
    hotstatPrintTopFunctions mamboAlloc files execAllocs topK st = .error .memory ∧
        mamboAlloc st.globals (16 * st.ht.entryCount) = none ∨
      (∃ fs starts rest, (∀ a, (g a).isSome → (getSymbolInfoByAddr files execAllocs a false).isSome) ∧
        hotstatPrintTopFunctions mamboAlloc files execAllocs topK st = .ok fs ∧
        FunctionsListed (startedSymbol files execAllocs) topK (fun k => (g k).map st.memory) fs starts rest) ∨
      (¬∀ a, (g a).isSome → (getSymbolInfoByAddr files execAllocs a false).isSome) ∧
        hotstatPrintTopFunctions mamboAlloc files execAllocs topK st = .error .crash := by
  rw [hotstatPrintTopFunctions, ← forall_keys h fun a => (getSymbolInfoByAddr files execAllocs a false).isSome]
  rcases functions_eq files execAllocs (mamboAlloc st.globals (16 * st.ht.entryCount)).isSome st
    (List.range st.ht.size) with ⟨hmemory, hmapped⟩ | hdone
  · refine .inl ⟨?_, by simpa using hmapped⟩
    rw [hmemory]
    rfl
  · refine .inr ?_
    split at hdone
    next hall =>
      rw [hdone, filterMap_entries (startedSymbol files execAllocs) h]
      obtain ⟨rest, hperm, hlen, hsorted, hless⟩ := selectFrom_spec (f := fun f : FunctionFreq => f.calls.toNat) topK 0
        ((starts (startedSymbol files execAllocs) st.ht).map fun a =>
          (⟨(startedSymbol files execAllocs a).getD "", ((g a).map st.memory).getD 0⟩ : FunctionFreq)).toArray.toVector
      refine .inl ⟨_, _, rest, hall, rfl, mem_starts (startedSymbol files execAllocs) h, starts_nodup _ h, ?_, ?_, hsorted, hless⟩
      · simpa using hperm
      · rw [hlen]
        simp
    next hall =>
      rw [hdone]
      exact .inr ⟨hall, rfl⟩

end Functions

section Runs

variable {calloc : Nat → Bool} {mamboAlloc : List Word → Nat → Option Word} {files : Files} {execAllocs : IntervalMap}
  {memory : Word → Count} {threads : List Table} {topK : Nat} {st : State}

/-- The global table gets the sum of the counters of all threads for each of their blocks, and nothing
else; the reports list these. -/
def Aggregates (calloc : Nat → Bool) (mamboAlloc : List Word → Nat → Option Word) (files : Files)
    (execAllocs : IntervalMap) (topK : Nat) (threads : List Table) (st : State) : Prop :=
  ∃ st' fs lines, hotstat calloc mamboAlloc files execAllocs topK threads st = .ok (st', fs, lines) ∧
    (∀ k, count st'.memory st'.ht k = total st.memory threads k) ∧
    (∃ starts rest,
      FunctionsListed (startedSymbol files execAllocs) topK (total st.memory threads) fs starts rest) ∧
    ∃ blocks, blocks.map (blockLine files execAllocs) = lines.map some ∧ BlocksListed (total st.memory threads) blocks

/-- An address is in no mapping of a file, or in one of a file with an ELF header and symbol tables with
entries, whose name can be read where it is printed. -/
def Readable (files : Files) (execAllocs : IntervalMap) (a : Word) (printed : Prop) : Prop :=
  ∀ fm, (intervalMapSearchByAddr execAllocs a.toNat).2 = some fm → 0 ≤ fm.fd →
    (∃ elf, files.elf fm.fd = some elf ∧ none ∉ elf.tables) ∧ (printed → (files.path fm.fd).isSome)

/-- The tables of the threads have an int for the index of each slot, the one for all of their blocks has,
and their symbols can be looked up. -/
structure Handled (files : Files) (execAllocs : IntervalMap) (threads : List Table) (memory : Word → Count) :
    Prop where
  size_lt : ∀ t ∈ threads, t.size < 2 ^ 31
  few : { k | (total memory threads k).isSome }.ncard ≤ maxEntries
  readable : ∀ a v, total memory threads a = some v → Readable files execAllocs a (v ≠ 0)

theorem searchTables_isSome (addr : Word) (tables : List (Option (List ElfSymbol))) (r : Word × Option String) :
    (searchTables addr tables r).isSome ↔ none ∉ tables := by
  induction tables generalizing r with
  | nil => simp [searchTables]
  | cons syms tables ih => cases syms <;> simp [searchTables, ih]

theorem readable_iff (a : Word) (named : Bool) :
    (getSymbolInfoByAddr files execAllocs a named).isSome ↔ Readable files execAllocs a (named = true) := by
  rw [getSymbolInfoByAddr, Readable]
  cases (intervalMapSearchByAddr execAllocs a.toNat).2 with
  | none => simp
  | some fm =>
      simp only [Option.some.injEq, forall_eq']
      by_cases hfd : fm.fd < 0
      · rw [if_pos hfd]
        simp [Int.not_le.mpr hfd]
      · rw [if_neg hfd]
        simp only [Int.not_lt.mp hfd, true_imp_iff]
        cases files.elf fm.fd with
        | none => simp
        | some elf =>
            have hsearch : (mappedSymbol elf (BitVec.ofNat 64 fm.start) a).isSome ↔ none ∉ elf.tables := by
              rw [mappedSymbol, Option.isSome_map, searchTables_isSome]
            rw [Option.bind_some]
            cases hr : mappedSymbol elf (BitVec.ofNat 64 fm.start) a with
            | none =>
                rw [hr] at hsearch
                simpa using fun hnone => absurd hnone (hsearch.not.mp (by simp))
            | some r =>
                rw [hr] at hsearch
                cases named <;> simp [hsearch.mp rfl]

theorem Readable.mono {a : Word} {printed printed' : Prop} (h : Readable files execAllocs a printed)
    (himp : printed' → printed) : Readable files execAllocs a printed' :=
  fun fm hfm hfd => (h fm hfm hfd).imp_right fun hpath hprinted => hpath (himp hprinted)

theorem forall_readable (totals : Word → Option Count) :
    (∀ a v, totals a = some v → Readable files execAllocs a (v ≠ 0)) ↔
      (∀ a, (totals a).isSome → (getSymbolInfoByAddr files execAllocs a false).isSome) ∧
        ∀ a v, totals a = some v ∧ v ≠ 0 → (getSymbolInfoByAddr files execAllocs a true).isSome := by
  simp only [readable_iff]
  constructor
  · refine fun h => ⟨fun a hsome => ?_, fun a v hv => (h a v hv.1).mono fun _ => hv.2⟩
    obtain ⟨v, hv⟩ := Option.isSome_iff_exists.mp hsome
    exact (h a v hv).mono nofun
  · intro h a v hv
    by_cases hzero : v = 0
    · exact (h.1 a (by rw [hv]; rfl)).mono fun hne => absurd hzero hne
    · exact (h.2 a v ⟨hv, hzero⟩).mono fun _ => trivial

def initialTable : Table := ⟨2 ^ 14, 0, 0, true, 80, 13107, cleared⟩

theorem init_eq (calloc : Nat → Bool) : mamboHtInit calloc HOTSTAT_TABLE_SIZE 0 80 true =
    if calloc (2 ^ 14) then .ok (some initialTable) else .ok none := rfl

theorem init_merged (hcalloc : ∀ n, calloc n = true → n * 16 < 2 ^ 64) (hinit : initHotstat calloc memory = .ok st)
    (locals : List Word) : Merged calloc st.memory locals 0 (fun _ => none) st fun _ => none := by
  rw [initHotstat, init_eq] at hinit
  by_cases hmemory : calloc (2 ^ 14) = true
  · rw [if_pos hmemory] at hinit
    obtain rfl := Except.ok.inj hinit
    have htable : mamboHtInit calloc HOTSTAT_TABLE_SIZE 0 80 true = .ok (some initialTable) := by
      rw [init_eq, if_pos hmemory]
    have hsized : Sized initialTable :=
      ⟨rfl, le_rfl, fun _ => Nat.zero_le _, fun hlarge => absurd hlarge (by decide)⟩
    exact ⟨init_holds hcalloc htable, rfl, hsized, le_rfl, le_rfl, nofun, nofun, nofun, fun _ _ => rfl, fun _ => rfl⟩
  · rw [if_neg hmemory] at hinit
    cases hinit

theorem exit_spec (mamboAlloc : List Word → Nat → Option Word) (files : Files) (execAllocs : IntervalMap) (topK : Nat)
    {g : Word → Option Word} (h : Holds calloc st.ht g) {totals : Word → Option Count}
    (htotals : (fun k => (g k).map st.memory) = totals) :
    hotstatExitCb mamboAlloc files execAllocs topK st = .error .memory ∧
        mamboAlloc st.globals (16 * st.ht.entryCount) = none ∨
      (∃ fs lines, (st.ht.size < 2 ^ 31 ∧ ∀ a v, totals a = some v → Readable files execAllocs a (v ≠ 0)) ∧
        hotstatExitCb mamboAlloc files execAllocs topK st = .ok (fs, lines) ∧
        (∃ starts rest, FunctionsListed (startedSymbol files execAllocs) topK totals fs starts rest) ∧
        ∃ blocks, blocks.map (blockLine files execAllocs) = lines.map some ∧ BlocksListed totals blocks) ∨
      (¬(st.ht.size < 2 ^ 31 ∧ ∀ a v, totals a = some v → Readable files execAllocs a (v ≠ 0))) ∧
        ∃ e, hotstatExitCb mamboAlloc files execAllocs topK st = .error e := by
  rw [hotstatExitCb, forall_readable]
  have hsome (a : Word) : (totals a).isSome = (g a).isSome := by rw [← htotals, Option.isSome_map]
  simp only [hsome]
  rcases functions_listed mamboAlloc files execAllocs h topK with
    ⟨hmemory, hnone⟩ | ⟨fs, starts, rest, hall, hfs, hlisted⟩ | ⟨hcrash, hfs⟩
  · rw [hmemory]
    exact .inl ⟨rfl, hnone⟩
  · rw [hfs]
    rw [htotals] at hlisted
    refine .inr ?_
    by_cases hsize : st.ht.size < 2 ^ 31
    · obtain ⟨blocks, hblocks, hreport⟩ := blocks_listed files execAllocs st.memory h hsize
      rw [htotals] at hreport
      have hnamed : (∀ b ∈ blocks, (blockLine files execAllocs b).isSome) ↔
          ∀ a v, totals a = some v ∧ v ≠ 0 → (getSymbolInfoByAddr files execAllocs a true).isSome := by
        simp only [Prod.forall, hreport.mem_iff, blockLine, Option.isSome_map]
      simp only [hblocks]
      rcases printAll_cases files execAllocs blocks with ⟨hread, lines, hok, hmap⟩ | ⟨hread, herr⟩
      · rw [hok]
        exact .inl ⟨fs, lines, ⟨hsize, hall, hnamed.mp hread⟩, rfl, ⟨_, rest, hlisted⟩, blocks, hmap, hreport⟩
      · rw [herr]
        exact .inr ⟨fun hand => hread (hnamed.mpr hand.2.2), _, rfl⟩
    · have hsearch := search_eq st.memory st.ht.entries st.ht.size
      rw [if_neg hsize] at hsearch
      obtain ⟨n, hn⟩ := Nat.exists_eq_succ_of_ne_zero h.size_pos.ne'
      have hover : reportBlocks files execAllocs st.memory st.ht.size st.ht.size 0 st.ht.entries =
          .error .overflow := by
        nth_rewrite 2 [hn]
        rw [reportBlocks, hsearch]
      simp only [hover]
      exact .inr ⟨fun hand => hsize hand.1, _, rfl⟩
  · rw [hfs]
    exact .inr (.inr ⟨fun hand => hcrash hand.2.1, _, rfl⟩)

/-- Unless there is no memory left, the counters are summed and listed just when the index of no loop
over a table overflows and no look-up of a symbol crashes. -/
theorem aggregates_iff (hcalloc : ∀ n, calloc n = true → n * 16 < 2 ^ 64)
    (hfresh : ∀ used n p, mamboAlloc used n = some p → p ∉ used) (hinit : initHotstat calloc memory = .ok st)
    (hthreads : ∀ t ∈ threads, ∃ m, Holds calloc t m) :
    hotstat calloc mamboAlloc files execAllocs topK threads st = .error .memory ∧
        NoMemory calloc mamboAlloc (threads.flatMap pointers).length ∨
      (Aggregates calloc mamboAlloc files execAllocs topK threads st ↔
        Handled files execAllocs threads st.memory) := by
  have hlocal : ∀ t ∈ threads, ∀ i < t.size, (t.entries i).value ∈ threads.flatMap pointers := fun t ht i hi =>
    List.mem_flatMap.mpr ⟨t, ht, List.mem_map.mpr ⟨i, List.mem_range.mpr hi, rfl⟩⟩
  have hinit' := init_merged hcalloc hinit (threads.flatMap pointers)
  rw [Aggregates, hotstat]
  rcases hinit'.threads hcalloc hfresh hthreads hlocal (Nat.zero_add _).le with ⟨hmemory, hnone⟩ | hdone
  · rw [hmemory]
    exact .inl ⟨rfl, hnone⟩
  by_cases hsize : ∀ t ∈ threads, t.size < 2 ^ 31
  · rw [if_pos hsize] at hdone
    obtain ⟨st', hok, g, hmerged⟩ := hdone
    have htotal : (fun k => (g k).map st'.memory) = total st.memory threads := by
      funext k
      rw [hmerged.counts k, Option.merge_none_left]
    have hsome (k : Word) : (total st.memory threads k).isSome = (g k).isSome := by rw [← htotal, Option.isSome_map]
    have hcount := hmerged.holds.ncard_eq
    simp only [← hsome] at hcount
    have hsizes := hmerged.sized.size_iff hmerged.holds
    rw [← hcount] at hsizes
    have hroom := hmerged.room
    have hentries := hmerged.count_le
    rw [hok]
    dsimp only
    rcases exit_spec mamboAlloc files execAllocs topK hmerged.holds htotal with
      ⟨hmemory, hnone⟩ | ⟨fs, lines, hgood, hout, hfunctions, hblocks⟩ | ⟨hbad, e, hout⟩
    · rw [hmemory]
      exact .inl ⟨rfl, .inr ⟨_, _, by omega, by omega, hnone⟩⟩
    · rw [hout]
      refine .inr (iff_of_true ⟨st', fs, lines, rfl, fun k => ?_, hfunctions, hblocks⟩
        ⟨hsize, hsizes.mp hgood.1, hgood.2⟩)
      rw [count_eq hmerged.holds, ← htotal]
    · rw [hout]
      exact .inr (iff_of_false (by rintro ⟨_, _, _, heq, -⟩; cases heq) fun hhandled =>
        hbad ⟨hsizes.mpr hhandled.few, hhandled.readable⟩)
  · rw [if_neg hsize] at hdone
    rw [hdone]
    exact .inr (iff_of_false (by rintro ⟨_, _, _, heq, -⟩; cases heq) fun hhandled => hsize hhandled.size_lt)

/-- Memory for tables of fewer than 2^40 slots, and nine counters. -/
def smallCalloc (n : Nat) : Bool := decide (n < 2 ^ 40)

def pages : List Word :=
  [0x10000, 0x11000, 0x12000, 0x13000, 0x14000, 0x15000, 0x16000, 0x17000, 0x18000]

def ninePages (used : List Word) (_ : Nat) : Option Word := pages.find? (· ∉ used)

theorem smallCalloc_fits (n : Nat) (h : smallCalloc n = true) : n * 16 < 2 ^ 64 := by
  have hlt : n < 2 ^ 40 := of_decide_eq_true h
  omega

theorem ninePages_fresh (used : List Word) (n : Nat) (p : Word) (h : ninePages used n = some p) : p ∉ used :=
  of_decide_eq_true (List.find?_some (p := fun q => decide (q ∉ used)) h)

theorem memory_four : ¬NoMemory smallCalloc ninePages 4 := by
  rintro ((⟨n, hn, hrefused⟩ | ⟨n, hn, hgranted⟩) | ⟨used, bytes, hused, -, hnone⟩)
  · have hge := of_decide_eq_false hrefused
    omega
  · have hlt : n < 2 ^ 40 := of_decide_eq_true hgranted
    omega
  · have hall : ∀ p ∈ pages, p ∈ used := fun p hp => by
      simpa using List.find?_eq_none.mp hnone p hp
    have hle := ((show pages.Nodup by decide).subperm hall).length_le
    exact absurd (hle.trans hused) (by decide)

def mainFile : Files where
  elf fd := if fd = 3 then some ⟨false, [some [⟨some "main", 0x400000, 0x20, true⟩]]⟩ else none
  path fd := if fd = 3 then some "main" else none

def mainMapping : IntervalMap := ⟨512, [⟨0x400000, 0x401000, 3⟩]⟩

def initialMemory (p : Word) : Count := if p = 0x5000 then 7 else 0

def initialState : State := ⟨initialTable, [], initialMemory⟩

theorem init_initialState : initHotstat smallCalloc initialMemory = .ok initialState := rfl

theorem oneBlock_aggregates : ∃ ht, insert ⟨4, 0, 0, true, 80, 3, cleared⟩ 0x400000 0x5000 = .ok (0, ht) ∧
    total initialMemory [ht] 0x400000 = some 7 ∧
    Aggregates smallCalloc ninePages mainFile mainMapping 10 [ht] initialState := by
  have hinit : mamboHtInit smallCalloc 4 0 80 true = .ok (some ⟨4, 0, 0, true, 80, 3, cleared⟩) := rfl
  have hkey : (0x400000 : Word) ≠ 0 := by decide
  obtain ⟨ht, hok, hadded⟩ := (init_holds smallCalloc_fits hinit).insert hkey (by decide) 0x5000
  have htotal (k : Word) : total initialMemory [ht] k = if k = 0x400000 then some 7 else none := by
    rw [total_cons, total_nil, Option.merge_none_right, count_eq hadded.holds]
    by_cases hk : k = 0x400000
    · subst hk
      rfl
    · rw [Function.update_of_ne hk, if_neg hk, Option.map_none]
  have hsize : ht.size = 4 := hadded.size_eq (by decide)
  refine ⟨ht, hok, by rw [htotal, if_pos rfl], ?_⟩
  have hiff : hotstat smallCalloc ninePages mainFile mainMapping 10 [ht] initialState = .error .memory ∧
      NoMemory smallCalloc ninePages ([ht].flatMap pointers).length ∨
        (Aggregates smallCalloc ninePages mainFile mainMapping 10 [ht] initialState ↔
          Handled mainFile mainMapping [ht] initialState.memory) :=
    aggregates_iff smallCalloc_fits ninePages_fresh init_initialState (by simpa using ⟨_, hadded.holds⟩)
  rcases hiff with ⟨-, hnone⟩ | hiff
  · have hlength : ([ht].flatMap pointers).length = 4 := by simp [pointers, hsize]
    rw [hlength] at hnone
    exact absurd hnone memory_four
  · refine hiff.mpr ⟨by simp [hsize], ?_, ?_⟩
    · have hone : { k | (total initialMemory [ht] k).isSome } = { 0x400000 } := by
        ext k
        rw [Set.mem_ofPred_eq, htotal, Set.mem_singleton_iff]
        by_cases hk : k = 0x400000 <;> simp [hk]
      have hcard : { k | (total initialState.memory [ht] k).isSome }.ncard = 1 :=
        (congrArg Set.ncard hone).trans (Set.ncard_singleton _)
      rw [hcard]
      decide
    · intro a v hv
      have hv' := hv
      change total initialMemory [ht] a = some v at hv'
      rw [htotal] at hv'
      split at hv'
      next ha =>
        subst ha
        exact (readable_iff 0x400000 true).mp (by decide) |>.mono fun _ => rfl
      next => cases hv'

def largeTable : Table := ⟨2 ^ 31, 0, 0, true, 80, threshold (2 ^ 31) 80, cleared⟩

/-- The index overflows in it. -/
theorem largeTable_overflows :
    hotstat smallCalloc ninePages mainFile mainMapping 10 [largeTable] initialState = .error .overflow ∧
      ¬Aggregates smallCalloc ninePages mainFile mainMapping 10 [largeTable] initialState := by
  have hover : hotstat smallCalloc ninePages mainFile mainMapping 10 [largeTable] initialState =
      .error .overflow := by
    generalize initialState = st
    have hstep : ∀ i < largeTable.size, ∀ s, s = st →
        (∃ s', mergeEntry smallCalloc ninePages ([largeTable].flatMap pointers) (largeTable.entries i) s = .ok s' ∧
          s' = st) ∨
          ∃ e, mergeEntry smallCalloc ninePages ([largeTable].flatMap pointers) (largeTable.entries i) s = .error e ∧
            False := fun i _ s hs => .inl ⟨s, if_neg (not_not.mpr rfl), hs⟩
    rcases forInt_rule Stop.overflow (fun _ s => s = st) (fun _ => False) hstep rfl with ⟨_, -, hfalse⟩ | hdone
    · exact hfalse.elim
    · rw [if_neg (by decide)] at hdone
      rw [hotstat, endAll, hotstatPostThreadCb, hdone]
  exact ⟨hover, by rintro ⟨_, _, _, heq, -⟩; rw [hover] at heq; cases heq⟩

end Runs

end Mambo.HotspotExact
