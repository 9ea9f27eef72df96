import Mambo.RaceDetector
import Mambo.VectorClocks
import Mathlib.Tactic.Common

namespace Mambo.RaceIndices

open RaceDetector VectorClocks

theorem increment_of_lt {clock : Int} (h0 : 0 ≤ clock) (h : clock < intMax) : increment clock = clock.succ := by
  rw [intMax] at h
  exact Int.bmod_eq_of_le (by omega) (by omega)

/-- A list without its items: the hash table and the length of the array. -/
structure Names where
  ht : List (Nat × Nat)
  size : Nat

def Names.get (n : Names) (key : Nat) : Nat × Names :=
  match mamboHtGet n.ht key with
  | some index => (index, n)
  | none => (n.size, ⟨mamboHtAdd n.ht key n.size, n.size + 1⟩)

def threadIndex (n : Names) (tid : Nat) : Option (Fin vcInitialSz × Names) :=
  if h : (n.get tid).1 < vcInitialSz then some (⟨(n.get tid).1, h⟩, (n.get tid).2) else none

structure Registry where
  threads : Names
  locks : Names
  vars : Names

/-- A call in terms of array indices; the flag of an access tells a load. -/
abbrev IndexEvent := Event (Fin vcInitialSz) Nat (Bool × Nat)

def resolveAccess (load : Bool) (r : Registry) (tid addr : Nat) : Option (IndexEvent × Registry) :=
  (threadIndex r.threads tid).map fun t =>
    (.access t.1 (load, (r.vars.get addr).1), { r with threads := t.2, vars := (r.vars.get addr).2 })

/-- The indices a call works on, which do not depend on the detector. -/
def resolve (r : Registry) : TraceEvent → Option (IndexEvent × Registry)
  | .fork parentTid childTid =>
    (threadIndex r.threads childTid).bind fun c =>
      if parentTid ≠ 0 then
        (threadIndex c.2 parentTid).map fun p => (.fork (some p.1) c.1, { r with threads := p.2 })
      else some (.fork none c.1, { r with threads := c.2 })
  | .join parentTid childTid =>
    (threadIndex r.threads childTid).bind fun c =>
      (threadIndex c.2 parentTid).map fun p => (.join p.1 c.1, { r with threads := p.2 })
  | .lock tid addr => (threadIndex r.threads tid).map fun t =>
      (.acquire t.1 (r.locks.get addr).1, { r with threads := t.2, locks := (r.locks.get addr).2 })
  | .unlock tid addr => (threadIndex r.threads tid).map fun t =>
      (.release t.1 (r.locks.get addr).1, { r with threads := t.2, locks := (r.locks.get addr).2 })
  | .read tid addr => resolveAccess true r tid addr
  | .write tid addr => resolveAccess false r tid addr

def resolveAll (r : Registry) : List TraceEvent → Option (List IndexEvent)
  | [] => some []
  | e :: es => (resolve r e).bind fun ie => (resolveAll ie.2 es).map (ie.1 :: ·)

variable (d : Detector)

/-- The detector with all its threads, locks and variables there from the start. -/
structure Abs where
  clocks : Clocks (Fin vcInitialSz) Nat
  vars : Nat → d.Var

def Abs.start : Abs d := ⟨fresh, d.variableInit⟩

variable {d}

def Abs.step (a : Abs d) : IndexEvent → Option Bool × Abs d
  | .access t (load, x) =>
    let update := if load then d.variableUpdateRead else d.variableUpdateWrite
    let r := update (a.vars x) ⟨t, a.clocks (.inl t)⟩
    (some r.1, { a with vars := Function.update a.vars x r.2 })
  | e => (none, { a with clocks := e.move.apply increment a.clocks })

theorem Abs.step_read (a : Abs d) (t : Fin vcInitialSz) (x : Nat) :
    a.step (.access t (true, x)) =
      let r := d.variableUpdateRead (a.vars x) ⟨t, a.clocks (.inl t)⟩
      (some r.1, { a with vars := Function.update a.vars x r.2 }) := rfl

theorem Abs.step_write (a : Abs d) (t : Fin vcInitialSz) (x : Nat) :
    a.step (.access t (false, x)) =
      let r := d.variableUpdateWrite (a.vars x) ⟨t, a.clocks (.inl t)⟩
      (some r.1, { a with vars := Function.update a.vars x r.2 }) := rfl

def Abs.verdicts (a : Abs d) : List IndexEvent → List (Option Bool)
  | [] => []
  | e :: es => (a.step e).1 :: Abs.verdicts (a.step e).2 es

theorem Abs.verdicts_length (a : Abs d) (es : List IndexEvent) : (a.verdicts es).length = es.length := by
  induction es generalizing a with
  | nil => rfl
  | cons e es ih => rw [Abs.verdicts, List.length_cons, List.length_cons, ih]

section View

variable {α : Type} {init : Nat → Option α} {l l' : ItemList α}

def view (init : Nat → Option α) (items : List α) (i : Nat) : Option α := items[i]?.or (init i)

def names (l : ItemList α) : Names := ⟨l.ht, l.items.length⟩

def Bounded (l : ItemList α) : Prop := ∀ kv ∈ l.ht, kv.2 < l.items.length

theorem view_append {items : List α} {x : α} (hx : init items.length = some x) :
    view init (items ++ [x]) = view init items := by
  funext i
  rcases lt_trichotomy i items.length with h | h | h
  · simp [view, List.getElem?_append_left h]
  · subst h
    simp [view, hx]
  · have h' : (items ++ [x]).length ≤ i := by simpa using Nat.succ_le_of_lt h
    simp [view, List.getElem?_eq_none (Nat.le_of_lt h), List.getElem?_eq_none h']

theorem view_modify {items : List α} {i : Nat} (hi : i < items.length) (f : α → α) (j : Nat) :
    view init (items.modify i f) j = if j = i then (view init items i).map f else view init items j := by
  by_cases hj : j = i
  · subst hj
    simp [view, hi]
  · simp [view, hj, Ne.symm hj]

theorem bounded_modify (h : Bounded l) (i : Nat) (f : α → α) : Bounded (l.modify i f) := by
  intro kv hkv
  simpa [ItemList.modify] using h kv hkv

theorem names_modify (l : ItemList α) (i : Nat) (f : α → α) : names (l.modify i f) = names l := by
  simp [names, ItemList.modify]

theorem mamboHtGet_mem {ht : List (Nat × Nat)} {key i : Nat} (h : mamboHtGet ht key = some i) :
    (key, i) ∈ ht := by
  unfold mamboHtGet at h
  split_ifs at h
  obtain ⟨l₁, l₂, rfl, -⟩ := List.lookup_eq_some_iff.mp h
  simp

/-- What smart_get returns for the index that the names give: a list that looks
the same as before, now with an item there. -/
structure Got (init : Nat → Option α) (l : ItemList α) (key : Nat) (l' : ItemList α) : Prop where
  names_eq : names l' = ((names l).get key).2
  lt : ((names l).get key).1 < l'.items.length
  length_le : l'.items.length ≤ max l.items.length (((names l).get key).1 + 1)
  view_eq : view init l'.items = view init l.items
  bounded : Bounded l'

theorem smartGet_got (init : Nat → Option α) (hl : Bounded l) (key : Nat) (hinit : (init ((names l).get key).1).isSome = true) :
    ∃ l', smartGet init l key = some (((names l).get key).1, l') ∧ Got init l key l' := by
  cases hget : mamboHtGet l.ht key with
  | some index =>
      have hn : (names l).get key = (index, names l) := by simp [Names.get, names, hget]
      have hlt := hl _ (mamboHtGet_mem hget)
      rw [hn]
      exact ⟨l, by rw [smartGet, hget], by rw [hn], by rwa [hn], le_max_left _ _, rfl, hl⟩
  | none =>
      have hn : (names l).get key =
          (l.items.length, ⟨mamboHtAdd l.ht key l.items.length, l.items.length + 1⟩) := by
        simp [Names.get, names, hget]
      rw [hn] at hinit ⊢
      obtain ⟨x, hx⟩ := Option.isSome_iff_exists.mp hinit
      refine ⟨⟨mamboHtAdd l.ht key l.items.length, l.items ++ [x]⟩, by rw [smartGet, hget, listAppend, hx]; rfl,
        by rw [hn]; simp [names], by rw [hn]; simp, by rw [hn]; simp, view_append hx, ?_⟩
      intro kv hkv
      have hold : ∀ kv ∈ l.ht, kv.2 < (l.items ++ [x]).length := fun kv h => by
        simpa using Nat.lt_succ_of_lt (hl kv h)
      unfold mamboHtAdd at hkv
      split_ifs at hkv
      · exact hold kv hkv
      · rcases List.mem_cons.mp hkv with rfl | hkv
        · simp
        · exact hold kv hkv

theorem Got.getElem {key : Nat} (h : Got init l key l') {x : α}
    (hx : view init l.items ((names l).get key).1 = some x) :
    l'.items[((names l).get key).1]? = some x := by
  rw [← h.view_eq, view, List.getElem?_eq_getElem h.lt] at hx
  rw [List.getElem?_eq_getElem h.lt]
  simpa using hx

end View

section Threads

variable {l : ItemList Thread}

theorem threadInit_isSome (i : Fin vcInitialSz) : (threadInit i).isSome = true := by
  simp [threadInit]

theorem threadListSmartGet_some (hl : Bounded l) {tid : Nat} {i : Fin vcInitialSz} {n : Names}
    (h : threadIndex (names l) tid = some (i, n)) :
    ∃ l', threadListSmartGet l tid = some (i.val, l') ∧ Got threadInit l tid l' ∧ names l' = n ∧
      ((names l).get tid).1 = i := by
  unfold threadIndex at h
  split_ifs at h with hlt
  obtain ⟨rfl, rfl⟩ := Prod.mk.inj (Option.some.inj h)
  obtain ⟨l', hget, hgot⟩ := smartGet_got threadInit hl tid (threadInit_isSome ⟨_, hlt⟩)
  exact ⟨l', hget, hgot, hgot.names_eq, rfl⟩

theorem threadListSmartGet_none (hl : Bounded l) (hlen : l.items.length ≤ vcInitialSz) {tid : Nat}
    (h : threadIndex (names l) tid = none) : threadListSmartGet l tid = none := by
  unfold threadIndex at h
  split_ifs at h with hge
  cases hget : mamboHtGet l.ht tid with
  | some index =>
      have hlt := hl _ (mamboHtGet_mem hget)
      simp only [Names.get, names, hget] at hge
      omega
  | none =>
      simp only [Names.get, names, hget] at hge
      simp [threadListSmartGet, smartGet, hget, listAppend, threadInit, hge]

end Threads

/-- The lists represent the state in which everything is there from the start. -/
structure Rep (s : DetectorLists d.Var) (a : Abs d) : Prop where
  threads : ∀ i : Fin vcInitialSz, view threadInit s.threads.items i = some ⟨i, a.clocks (.inl i)⟩
  locks : ∀ k, view (fun _ => some vectorClockInit) s.locks.items k = some (a.clocks (.inr k))
  vars : ∀ k, view (fun i => some (d.variableInit i)) s.vars.items k = some (a.vars k)
  threads_bounded : Bounded s.threads
  locks_bounded : Bounded s.locks
  vars_bounded : Bounded s.vars
  length_le : s.threads.items.length ≤ vcInitialSz

def registry (s : DetectorLists d.Var) : Registry := ⟨names s.threads, names s.locks, names s.vars⟩

theorem rep_start (d : Detector) : Rep (start d) (Abs.start d) := by
  refine ⟨fun i => ?_, fun k => rfl, fun k => rfl, ?_, ?_, ?_, Nat.zero_le _⟩
  · simp only [start, listInit, view, List.getElem?_nil, Option.none_or, threadInit, i.isLt, dite_true]
    congr 2
    funext u
    have hone : increment 0 = 1 := by decide
    by_cases h : u = i <;>
      simp [Abs.start, fresh, vectorClockIncrement, vectorClockInit, h, hone]
  all_goals
    intro kv hkv
    exact absurd hkv List.not_mem_nil

section Updates

variable {s : DetectorLists d.Var} {a : Abs d}

theorem Rep.getThreads (h : Rep s a) {tid : Nat} {l' : ItemList Thread} (hgot : Got threadInit s.threads tid l')
    (hlt : ((names s.threads).get tid).1 < vcInitialSz) : Rep { s with threads := l' } a :=
  ⟨fun i => by rw [hgot.view_eq]; exact h.threads i, h.locks, h.vars, hgot.bounded, h.locks_bounded,
    h.vars_bounded, hgot.length_le.trans (max_le h.length_le hlt)⟩

theorem Rep.getLocks (h : Rep s a) {addr : Nat} {l' : ItemList VectorClock}
    (hgot : Got (fun _ => some vectorClockInit) s.locks addr l') : Rep { s with locks := l' } a :=
  ⟨h.threads, fun k => by rw [hgot.view_eq]; exact h.locks k, h.vars, h.threads_bounded, hgot.bounded,
    h.vars_bounded, h.length_le⟩

theorem Rep.getVars (h : Rep s a) {addr : Nat} {l' : ItemList d.Var}
    (hgot : Got (fun i => some (d.variableInit i)) s.vars addr l') : Rep { s with vars := l' } a :=
  ⟨h.threads, h.locks, fun k => by rw [hgot.view_eq]; exact h.vars k, h.threads_bounded, h.locks_bounded,
    hgot.bounded, h.length_le⟩

theorem Rep.setThread (h : Rep s a) {i : Fin vcInitialSz} (hi : i.val < s.threads.items.length)
    {f : Thread → Thread} {V : VectorClock} (hf : f ⟨i, a.clocks (.inl i)⟩ = ⟨i, V⟩) :
    Rep { s with threads := s.threads.modify i f }
      { a with clocks := Function.update a.clocks (.inl i) V } := by
  refine ⟨fun j => ?_, fun k => ?_, h.vars, bounded_modify h.threads_bounded _ _, h.locks_bounded,
    h.vars_bounded, by simpa [ItemList.modify] using h.length_le⟩
  · simp only [ItemList.modify, view_modify hi]
    by_cases hj : j = i
    · subst hj
      simp [h.threads, hf]
    · have hv : j.val ≠ i.val := fun hv => hj (Fin.ext hv)
      simp [hv, hj, h.threads]
  · simpa using h.locks k

theorem Rep.setLock (h : Rep s a) {k : Nat} (hk : k < s.locks.items.length) (f : VectorClock → VectorClock) :
    Rep { s with locks := s.locks.modify k f }
      { a with clocks := Function.update a.clocks (.inr k) (f (a.clocks (.inr k))) } := by
  refine ⟨fun i => ?_, fun j => ?_, h.vars, h.threads_bounded, bounded_modify h.locks_bounded _ _,
    h.vars_bounded, h.length_le⟩
  · simpa using h.threads i
  · simp only [ItemList.modify, view_modify hk]
    by_cases hj : j = k
    · subst hj
      simp [h.locks]
    · simp [hj, h.locks]

theorem Rep.setVar (h : Rep s a) {x : Nat} (hx : x < s.vars.items.length) (v : d.Var) :
    Rep { s with vars := s.vars.modify x fun _ => v } { a with vars := Function.update a.vars x v } := by
  refine ⟨h.threads, h.locks, fun j => ?_, h.threads_bounded, h.locks_bounded,
    bounded_modify h.vars_bounded _ _, h.length_le⟩
  simp only [ItemList.modify, view_modify hx]
  by_cases hj : j = x
  · subst hj
    simp [h.vars]
  · simp [hj, h.vars]

theorem vectorClockUpdate_eq (vc otherVc : VectorClock) :
    vectorClockUpdate vc otherVc = fun u => max (vc u) (otherVc u) := by
  funext u
  simp only [vectorClockUpdate]
  split_ifs with h
  · exact (max_eq_right h.le).symm
  · exact (max_eq_left (not_lt.mp h)).symm

theorem Rep.threadVc_eq (h : Rep s a) {i : Fin vcInitialSz} (hi : i.val < s.threads.items.length) :
    threadVc s.threads i = a.clocks (.inl i) := by
  have hv := h.threads i
  rw [view, List.getElem?_eq_getElem hi, Option.some_or] at hv
  rw [threadVc, List.getElem?_eq_getElem hi]
  exact congrArg Thread.vc (Option.some.inj hv)

/-- The first thing every call does: look up a thread, with everything else as it was. -/
theorem Rep.lookupThread (h : Rep s a) {tid : Nat} {i : Fin vcInitialSz} {n : Names}
    (hi : threadIndex (names s.threads) tid = some (i, n)) :
    ∃ l', threadListSmartGet s.threads tid = some (i.val, l') ∧ names l' = n ∧ i.val < l'.items.length ∧
      s.threads.items.length ≤ l'.items.length ∧ Rep { s with threads := l' } a := by
  obtain ⟨l', hget, hgot, hn, hidx⟩ := threadListSmartGet_some h.threads_bounded hi
  refine ⟨l', hget, hn, hidx ▸ hgot.lt, ?_, h.getThreads hgot (hidx ▸ i.isLt)⟩
  have hlen : (names l').size = _ := congrArg Names.size hgot.names_eq
  simp only [names, Names.get] at hlen
  split at hlen <;> simp only at hlen <;> omega

theorem Rep.lookupLock (h : Rep s a) (addr : Nat) :
    ∃ l', lockListSmartGet s.locks addr = some (((names s.locks).get addr).1, l') ∧
      names l' = ((names s.locks).get addr).2 ∧ ((names s.locks).get addr).1 < l'.items.length ∧
      l'.items[((names s.locks).get addr).1]? = some (a.clocks (.inr ((names s.locks).get addr).1)) ∧
      Rep { s with locks := l' } a := by
  obtain ⟨l', hget, hgot⟩ := smartGet_got (fun _ => some vectorClockInit) h.locks_bounded addr rfl
  exact ⟨l', hget, hgot.names_eq, hgot.lt, hgot.getElem (h.locks _), h.getLocks hgot⟩

theorem Rep.lookupVar (h : Rep s a) (addr : Nat) :
    ∃ l', variableListSmartGet d s.vars addr = some (((names s.vars).get addr).1, l') ∧
      names l' = ((names s.vars).get addr).2 ∧ ((names s.vars).get addr).1 < l'.items.length ∧
      l'.items[((names s.vars).get addr).1]? = some (a.vars ((names s.vars).get addr).1) ∧
      Rep { s with vars := l' } a := by
  obtain ⟨l', hget, hgot⟩ := smartGet_got (fun i => some (d.variableInit i)) h.vars_bounded addr rfl
  exact ⟨l', hget, hgot.names_eq, hgot.lt, hgot.getElem (h.vars _), h.getVars hgot⟩

theorem Rep.sendThread (h : Rep s a) {i j : Fin vcInitialSz} (hi : i.val < s.threads.items.length)
    (hj : j.val < s.threads.items.length) :
    Rep { s with
        threads := (s.threads.modify j fun t => threadUpdateVc t (threadVc s.threads i)).modify i threadIncrement }
      { a with clocks := (Move.send i (.inl j)).apply increment a.clocks } := by
  have h1 := h.setThread hj (f := fun t => threadUpdateVc t (threadVc s.threads i)) rfl
  have hi' : i.val < (s.threads.modify j fun t => threadUpdateVc t (threadVc s.threads i)).items.length := by
    simpa [ItemList.modify] using hi
  have h2 := h1.setThread (i := i) hi' (f := threadIncrement) rfl
  rw [h.threadVc_eq hi, vectorClockUpdate_eq] at h2
  rw [h.threadVc_eq hi]
  exact h2

theorem Rep.sendLock (h : Rep s a) {i : Fin vcInitialSz} (hi : i.val < s.threads.items.length) {k : Nat}
    (hk : k < s.locks.items.length) :
    Rep { s with
        threads := s.threads.modify i threadIncrement
        locks := s.locks.modify k fun vc => vectorClockUpdate vc (threadVc s.threads i) }
      { a with clocks := (Move.send i (.inr k)).apply increment a.clocks } := by
  have h1 := h.setLock hk fun vc => vectorClockUpdate vc (threadVc s.threads i)
  have h2 := h1.setThread (i := i) hi (f := threadIncrement) rfl
  rw [h.threadVc_eq hi, vectorClockUpdate_eq] at h2
  rw [h.threadVc_eq hi]
  exact h2

theorem Rep.receiveLock (h : Rep s a) {i : Fin vcInitialSz} (hi : i.val < s.threads.items.length) (k : Nat) :
    Rep { s with threads := s.threads.modify i fun t => threadUpdateVc t (a.clocks (.inr k)) }
      { a with clocks := (Move.receive i k).apply increment a.clocks } := by
  have h1 := h.setThread hi (f := fun t => threadUpdateVc t (a.clocks (.inr k))) rfl
  rw [vectorClockUpdate_eq] at h1
  exact h1

end Updates

section Step

variable {s : DetectorLists d.Var} {a : Abs d}

/-- A call on the lists is the call on the indices it resolves to. -/
def Simulates (s : DetectorLists d.Var) (a : Abs d) (e : TraceEvent) : Prop :=
  match resolve (registry s) e with
  | none => process s e = none
  | some (ie, r) => ∃ s', process s e = some ((a.step ie).1, s') ∧ registry s' = r ∧ Rep s' (a.step ie).2

theorem simulates_fork (h : Rep s a) (parentTid childTid : Nat) : Simulates s a (.fork parentTid childTid) := by
  unfold Simulates
  simp only [resolve, process, processFork, registry]
  cases hc : threadIndex (names s.threads) childTid with
  | none => simp [threadListSmartGet_none h.threads_bounded h.length_le hc]
  | some c =>
      obtain ⟨l₁, hget₁, hn₁, hlt₁, -, h₁⟩ := h.lookupThread hc
      rw [hget₁]
      by_cases hp0 : parentTid = 0
      · simp only [hp0, Option.bind_some, ne_eq, not_true_eq_false, if_false]
        exact ⟨_, rfl, by rw [hn₁], h₁⟩
      · simp only [Option.bind_some, ne_eq, hp0, not_false_eq_true, if_true, ← hn₁]
        cases hp : threadIndex (names l₁) parentTid with
        | none => simp [threadListSmartGet_none h₁.threads_bounded h₁.length_le hp]
        | some p =>
            obtain ⟨l₂, hget₂, hn₂, hlt₂, hle, h₂⟩ := h₁.lookupThread hp
            refine ⟨{ s with threads := threadFork l₂ p.1 c.1 }, by simp [hget₂, Abs.step], ?_,
              h₂.sendThread hlt₂ (hlt₁.trans_le hle)⟩
            simp only [threadFork, names_modify, hn₂]

theorem simulates_join (h : Rep s a) (parentTid childTid : Nat) : Simulates s a (.join parentTid childTid) := by
  unfold Simulates
  simp only [resolve, process, processJoin, registry]
  cases hc : threadIndex (names s.threads) childTid with
  | none => simp [threadListSmartGet_none h.threads_bounded h.length_le hc]
  | some c =>
      obtain ⟨l₁, hget₁, hn₁, hlt₁, -, h₁⟩ := h.lookupThread hc
      rw [hget₁]
      simp only [Option.bind_some, ← hn₁]
      cases hp : threadIndex (names l₁) parentTid with
      | none => simp [threadListSmartGet_none h₁.threads_bounded h₁.length_le hp]
      | some p =>
          obtain ⟨l₂, hget₂, hn₂, hlt₂, hle, h₂⟩ := h₁.lookupThread hp
          refine ⟨{ s with threads := threadJoin l₂ p.1 c.1 }, by simp [hget₂, Abs.step], ?_,
            h₂.sendThread (hlt₁.trans_le hle) hlt₂⟩
          simp only [threadJoin, names_modify, hn₂]

theorem simulates_lock (h : Rep s a) (tid addr : Nat) : Simulates s a (.lock tid addr) := by
  unfold Simulates
  simp only [resolve, process, processLock, registry]
  cases ht : threadIndex (names s.threads) tid with
  | none => simp [threadListSmartGet_none h.threads_bounded h.length_le ht]
  | some t =>
      obtain ⟨l₁, hget₁, hn₁, hlt₁, -, h₁⟩ := h.lookupThread ht
      obtain ⟨l₂, hget₂, hn₂, hlt₂, hvc, h₂⟩ := h₁.lookupLock addr
      refine ⟨_, by simp [hget₁, hget₂, hvc]; rfl, ?_, h₂.receiveLock hlt₁ _⟩
      simp only [names_modify, hn₁, hn₂]

theorem simulates_unlock (h : Rep s a) (tid addr : Nat) : Simulates s a (.unlock tid addr) := by
  unfold Simulates
  simp only [resolve, process, processUnlock, registry]
  cases ht : threadIndex (names s.threads) tid with
  | none => simp [threadListSmartGet_none h.threads_bounded h.length_le ht]
  | some t =>
      obtain ⟨l₁, hget₁, hn₁, hlt₁, -, h₁⟩ := h.lookupThread ht
      obtain ⟨l₂, hget₂, hn₂, hlt₂, hvc, h₂⟩ := h₁.lookupLock addr
      refine ⟨_, by simp [hget₁, hget₂]; rfl, ?_, h₂.sendLock hlt₁ hlt₂⟩
      simp only [names_modify, hn₁, hn₂]

theorem processAccess_rep (h : Rep s a) (load : Bool) {tid : Nat} (addr : Nat) {t : Fin vcInitialSz × Names}
    (ht : threadIndex (names s.threads) tid = some t) :
    ∃ s', ((processAccess (if load then d.variableUpdateRead else d.variableUpdateWrite) s tid addr).map
        fun r => (some r.1, r.2)) =
          some ((a.step (.access t.1 (load, ((names s.vars).get addr).1))).1, s') ∧
      registry s' = ⟨t.2, names s.locks, ((names s.vars).get addr).2⟩ ∧
      Rep s' (a.step (.access t.1 (load, ((names s.vars).get addr).1))).2 := by
  obtain ⟨l₁, hget₁, hn₁, hlt₁, -, h₁⟩ := h.lookupThread ht
  obtain ⟨l₂, hget₂, hn₂, hlt₂, hv, h₂⟩ := h₁.lookupVar addr
  have hth : l₁.items[t.1.val]? = some ⟨t.1, a.clocks (.inl t.1)⟩ := by
    have hview := h₁.threads t.1
    rw [view, List.getElem?_eq_getElem hlt₁, Option.some_or] at hview
    rw [List.getElem?_eq_getElem hlt₁]
    exact hview
  refine ⟨_, by simp [processAccess, hget₁, hget₂, hth, hv]; rfl, ?_, h₂.setVar hlt₂ _⟩
  simp only [registry, names_modify, hn₁, hn₂]

theorem simulates (h : Rep s a) (e : TraceEvent) : Simulates s a e := by
  cases e with
  | fork p c => exact simulates_fork h p c
  | join p c => exact simulates_join h p c
  | lock tid addr => exact simulates_lock h tid addr
  | unlock tid addr => exact simulates_unlock h tid addr
  | read tid addr =>
      unfold Simulates
      simp only [resolve, resolveAccess, registry, process, processRead]
      cases ht : threadIndex (names s.threads) tid with
      | none => simp [processAccess, threadListSmartGet_none h.threads_bounded h.length_le ht]
      | some t => exact processAccess_rep h true addr ht
  | write tid addr =>
      unfold Simulates
      simp only [resolve, resolveAccess, registry, process, processWrite]
      cases ht : threadIndex (names s.threads) tid with
      | none => simp [processAccess, threadListSmartGet_none h.threads_bounded h.length_le ht]
      | some t => exact processAccess_rep h false addr ht

end Step

theorem verdictsFrom_eq (es : List TraceEvent) {s : DetectorLists d.Var} {a : Abs d} (h : Rep s a) :
    verdictsFrom s es = (resolveAll (registry s) es).map a.verdicts := by
  induction es generalizing s a with
  | nil => rfl
  | cons e es ih =>
      have hsim := simulates h e
      unfold Simulates at hsim
      rw [verdictsFrom, resolveAll]
      cases hr : resolve (registry s) e with
      | none =>
          rw [hr] at hsim
          rw [hsim]
          rfl
      | some ie =>
          rw [hr] at hsim
          obtain ⟨s', hstep, hreg, h'⟩ := hsim
          rw [hstep, Option.bind_some, Option.bind_some, ih h', hreg]
          cases resolveAll ie.2 es <;> rfl

def emptyRegistry : Registry := ⟨⟨[], 0⟩, ⟨[], 0⟩, ⟨[], 0⟩⟩

theorem verdicts_eq (d : Detector) (es : List TraceEvent) :
    verdicts d es = (resolveAll emptyRegistry es).map (Abs.start d).verdicts :=
  verdictsFrom_eq es (rep_start d)

end Mambo.RaceIndices
