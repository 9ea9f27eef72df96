import Mambo.HappensBefore
import Mambo.RaceIndices
import Mathlib.Data.Finset.Card

namespace Mambo.RaceNames

open RaceDetector RaceIndices VectorClocks HappensBefore

/-- A call as an event on thread ids and addresses. -/
def event : TraceEvent → Event Nat Nat (Bool × Nat)
  | .fork parentTid childTid => .fork (if parentTid = 0 then none else some parentTid) childTid
  | .join parentTid childTid => .join parentTid childTid
  | .lock tid addr => .acquire tid addr
  | .unlock tid addr => .release tid addr
  | .read tid addr => .access tid (true, addr)
  | .write tid addr => .access tid (false, addr)

def tids (e : TraceEvent) : List Nat := threads (event e)

def addrs : TraceEvent → List Nat
  | .lock _ addr => [addr]
  | .unlock _ addr => [addr]
  | .read _ addr => [addr]
  | .write _ addr => [addr]
  | _ => []

/-- The keys in S have indices of their own, in the order they came. -/
structure Tidy (n : Names) (S : Finset Nat) : Prop where
  mem : ∀ k, k ∈ S ↔ ∃ i, mamboHtGet n.ht k = some i
  inj : ∀ k k' i, mamboHtGet n.ht k = some i → mamboHtGet n.ht k' = some i → k = k'
  lt : ∀ k i, mamboHtGet n.ht k = some i → i < n.size
  size_eq : n.size = S.card

def Extends (n n' : Names) : Prop := ∀ k i, mamboHtGet n.ht k = some i → mamboHtGet n'.ht k = some i

theorem tidy_empty : Tidy ⟨[], 0⟩ ∅ := by
  refine ⟨fun k => ?_, ?_, ?_, rfl⟩ <;> simp [mamboHtGet]

theorem mamboHtGet_add {ht : List (Nat × Nat)} {key value : Nat} (hkey : key ≠ 0) (k : Nat) :
    mamboHtGet (mamboHtAdd ht key value) k = if k = key then some value else mamboHtGet ht k := by
  by_cases hk : k = key
  · subst hk
    simp [mamboHtGet, mamboHtAdd, hkey]
  · have hne : (k == key) = false := beq_eq_false_iff_ne.mpr hk
    simp [mamboHtGet, mamboHtAdd, hkey, hk, List.lookup_cons, hne]

theorem Tidy.get {n : Names} {S : Finset Nat} (h : Tidy n S) {key : Nat} (hkey : key ≠ 0) :
    Tidy (n.get key).2 (insert key S) ∧ Extends n (n.get key).2 ∧
      mamboHtGet (n.get key).2.ht key = some (n.get key).1 ∧ (n.get key).1 < (insert key S).card := by
  cases hget : mamboHtGet n.ht key with
  | some i =>
      have hn : n.get key = (i, n) := by rw [Names.get, hget]
      have hmem : key ∈ S := (h.mem key).mpr ⟨i, hget⟩
      rw [hn, Finset.insert_eq_of_mem hmem]
      exact ⟨h, fun _ _ hk => hk, hget, h.size_eq ▸ h.lt key i hget⟩
  | none =>
      have hn : n.get key = (n.size, ⟨mamboHtAdd n.ht key n.size, n.size + 1⟩) := by rw [Names.get, hget]
      have hnot : key ∉ S := fun hmem => by
        obtain ⟨i, hi⟩ := (h.mem key).mp hmem
        rw [hget] at hi
        exact absurd hi (by simp)
      have hcard : (insert key S).card = n.size + 1 := by rw [Finset.card_insert_of_notMem hnot, h.size_eq]
      have hold : ∀ k i, mamboHtGet n.ht k = some i → k ≠ key := by
        rintro k i hk rfl
        rw [hget] at hk
        exact absurd hk (by simp)
      rw [hn]
      refine ⟨⟨fun k => ?_, fun k k' i => ?_, fun k i => ?_, hcard.symm⟩, fun k i hk => ?_, ?_, ?_⟩
      · simp only [mamboHtGet_add hkey, Finset.mem_insert]
        by_cases hk : k = key
        · simp [hk]
        · simp [hk, h.mem k]
      · simp only [mamboHtGet_add hkey]
        split_ifs with hk hk'
        · intro _ _
          rw [hk, hk']
        · intro h1 h2
          exact absurd (h.lt k' i h2) (by rw [← Option.some.inj h1]; exact lt_irrefl _)
        · intro h1 h2
          exact absurd (h.lt k i h1) (by rw [← Option.some.inj h2]; exact lt_irrefl _)
        · exact h.inj k k' i
      · simp only [mamboHtGet_add hkey]
        split_ifs with hk
        · intro h1
          exact Option.some.inj h1 ▸ Nat.lt_succ_self _
        · intro h1
          exact (h.lt k i h1).trans (Nat.lt_succ_self _)
      · rw [mamboHtGet_add hkey, if_neg (hold k i hk)]
        exact hk
      · rw [mamboHtGet_add hkey, if_pos rfl]
      · rw [hcard]
        exact Nat.lt_succ_self _

theorem Tidy.threadIndex {n : Names} {S U : Finset Nat} (h : Tidy n S) {tid : Nat} (htid : tid ≠ 0)
    (hU : U.card ≤ vcInitialSz) (hS : insert tid S ⊆ U) :
    ∃ i n', RaceIndices.threadIndex n tid = some (i, n') ∧ Tidy n' (insert tid S) ∧ Extends n n' ∧
      mamboHtGet n'.ht tid = some i.val := by
  obtain ⟨htidy, hext, hget, hlt⟩ := h.get htid
  have hbound : (n.get tid).1 < vcInitialSz := hlt.trans_le ((Finset.card_le_card hS).trans hU)
  exact ⟨⟨_, hbound⟩, (n.get tid).2, dif_pos hbound, htidy, hext, hget⟩

/-- A choice of indices for all thread ids and addresses. -/
structure Naming where
  thread : Nat → Fin vcInitialSz
  lock : Nat → Nat
  var : Nat → Nat

def Naming.index (m : Naming) (e : TraceEvent) : IndexEvent :=
  rename m.thread m.lock (fun p => (p.1, m.var p.2)) (event e)

structure Naming.Fits (m : Naming) (r : Registry) : Prop where
  thread : ∀ k i, mamboHtGet r.threads.ht k = some i → (m.thread k).val = i
  lock : ∀ k i, mamboHtGet r.locks.ht k = some i → m.lock k = i
  var : ∀ k i, mamboHtGet r.vars.ht k = some i → m.var k = i

/-- Three lists whose keys have indices of their own, with the thread ids in U. -/
structure Ok (U : Finset Nat) (r : Registry) : Prop where
  threads : ∃ S, S ⊆ U ∧ Tidy r.threads S
  locks : ∃ S, Tidy r.locks S
  vars : ∃ S, Tidy r.vars S

structure Grows (r r' : Registry) : Prop where
  threads : Extends r.threads r'.threads
  locks : Extends r.locks r'.locks
  vars : Extends r.vars r'.vars

theorem Grows.refl (r : Registry) : Grows r r := ⟨fun _ _ h => h, fun _ _ h => h, fun _ _ h => h⟩

theorem Grows.trans {r r' r'' : Registry} (h : Grows r r') (h' : Grows r' r'') : Grows r r'' :=
  ⟨fun k i hk => h'.threads k i (h.threads k i hk), fun k i hk => h'.locks k i (h.locks k i hk),
    fun k i hk => h'.vars k i (h.vars k i hk)⟩

theorem Naming.Fits.mono {m : Naming} {r r' : Registry} (h : m.Fits r') (hg : Grows r r') : m.Fits r :=
  ⟨fun k i hk => h.thread k i (hg.threads k i hk), fun k i hk => h.lock k i (hg.locks k i hk),
    fun k i hk => h.var k i (hg.vars k i hk)⟩

structure Registered (r : Registry) (e : TraceEvent) : Prop where
  threads : ∀ t ∈ threads (event e), ∃ i, mamboHtGet r.threads.ht t = some i
  locks : ∀ l ∈ locks (event e), ∃ i, mamboHtGet r.locks.ht l = some i
  vars : ∀ t b x, event e = .access t (b, x) → ∃ i, mamboHtGet r.vars.ht x = some i

theorem Registered.mono {r r' : Registry} {e : TraceEvent} (h : Registered r e) (hg : Grows r r') :
    Registered r' e := by
  refine ⟨fun t ht => ?_, fun l hl => ?_, fun t b x hx => ?_⟩
  · obtain ⟨i, hi⟩ := h.threads t ht
    exact ⟨i, hg.threads t i hi⟩
  · obtain ⟨i, hi⟩ := h.locks l hl
    exact ⟨i, hg.locks l i hi⟩
  · obtain ⟨i, hi⟩ := h.vars t b x hx
    exact ⟨i, hg.vars x i hi⟩

section Resolve

variable {U : Finset Nat} {r : Registry}

theorem Ok.threadIndex (h : Ok U r) (hU : U.card ≤ vcInitialSz) {tid : Nat} (htid : tid ≠ 0) (hmem : tid ∈ U) :
    ∃ i n', RaceIndices.threadIndex r.threads tid = some (i, n') ∧ Ok U { r with threads := n' } ∧
      Grows r { r with threads := n' } ∧ mamboHtGet n'.ht tid = some i.val := by
  obtain ⟨S, hS, htidy⟩ := h.threads
  have hins := Finset.insert_subset hmem hS
  obtain ⟨i, n', hi, htidy', hext, hget⟩ := htidy.threadIndex htid hU hins
  exact ⟨i, n', hi, ⟨⟨_, hins, htidy'⟩, h.locks, h.vars⟩, ⟨hext, fun _ _ h => h, fun _ _ h => h⟩, hget⟩

theorem Ok.lockIndex (h : Ok U r) {addr : Nat} (haddr : addr ≠ 0) :
    Ok U { r with locks := (r.locks.get addr).2 } ∧ Grows r { r with locks := (r.locks.get addr).2 } ∧
      mamboHtGet (r.locks.get addr).2.ht addr = some (r.locks.get addr).1 := by
  obtain ⟨S, htidy⟩ := h.locks
  obtain ⟨htidy', hext, hget, -⟩ := htidy.get haddr
  exact ⟨⟨h.threads, ⟨_, htidy'⟩, h.vars⟩, ⟨fun _ _ h => h, hext, fun _ _ h => h⟩, hget⟩

theorem Ok.varIndex (h : Ok U r) {addr : Nat} (haddr : addr ≠ 0) :
    Ok U { r with vars := (r.vars.get addr).2 } ∧ Grows r { r with vars := (r.vars.get addr).2 } ∧
      mamboHtGet (r.vars.get addr).2.ht addr = some (r.vars.get addr).1 := by
  obtain ⟨S, htidy⟩ := h.vars
  obtain ⟨htidy', hext, hget, -⟩ := htidy.get haddr
  exact ⟨⟨h.threads, h.locks, ⟨_, htidy'⟩⟩, ⟨fun _ _ h => h, fun _ _ h => h, hext⟩, hget⟩

/-- A call resolves to its event under every choice of indices that fits afterwards. -/
def Resolves (U : Finset Nat) (r : Registry) (e : TraceEvent) : Prop :=
  ∃ ie r', resolve r e = some (ie, r') ∧ Ok U r' ∧ Grows r r' ∧ Registered r' e ∧
    ∀ m : Naming, m.Fits r' → ie = m.index e

variable (h : Ok U r) (hU : U.card ≤ vcInitialSz)
include h hU

theorem resolves_fork {parentTid childTid : Nat} (hp : parentTid ≠ 0 → parentTid ∈ U) (hc : childTid ≠ 0)
    (hcU : childTid ∈ U) : Resolves U r (.fork parentTid childTid) := by
  obtain ⟨c, n₁, hi₁, hok₁, hg₁, hget₁⟩ := h.threadIndex hU hc hcU
  by_cases hp0 : parentTid = 0
  · refine ⟨.fork none c, _, by simp [resolve, hi₁, hp0], hok₁, hg₁, ⟨?_, ?_, ?_⟩, fun m hm => ?_⟩
    · intro t ht
      have ht' : t = childTid := by simpa [event, threads, hp0] using ht
      exact ⟨_, ht' ▸ hget₁⟩
    · simp [event, locks]
    · simp [event]
    · simp [Naming.index, event, rename, hp0, Fin.ext (hm.thread _ _ hget₁)]
  · obtain ⟨p, n₂, hi₂, hok₂, hg₂, hget₂⟩ := hok₁.threadIndex hU hp0 (hp hp0)
    have hget₁' := hg₂.threads _ _ hget₁
    dsimp only at hi₂
    refine ⟨.fork (some p) c, _, by simp [resolve, hi₁, hp0, hi₂], hok₂, hg₁.trans hg₂, ⟨?_, ?_, ?_⟩, fun m hm => ?_⟩
    · intro t ht
      have ht' : t = childTid ∨ t = parentTid := by simpa [event, threads, hp0] using ht
      rcases ht' with rfl | rfl
      · exact ⟨_, hget₁'⟩
      · exact ⟨_, hget₂⟩
    · simp [event, locks]
    · simp [event]
    · simp [Naming.index, event, rename, hp0, Fin.ext (hm.thread _ _ hget₁'), Fin.ext (hm.thread _ _ hget₂)]

theorem resolves_join {parentTid childTid : Nat} (hp : parentTid ≠ 0) (hpU : parentTid ∈ U)
    (hc : childTid ≠ 0) (hcU : childTid ∈ U) : Resolves U r (.join parentTid childTid) := by
  obtain ⟨c, n₁, hi₁, hok₁, hg₁, hget₁⟩ := h.threadIndex hU hc hcU
  obtain ⟨p, n₂, hi₂, hok₂, hg₂, hget₂⟩ := hok₁.threadIndex hU hp hpU
  have hget₁' := hg₂.threads _ _ hget₁
  dsimp only at hi₂
  refine ⟨.join p c, _, by simp [resolve, hi₁, hi₂], hok₂, hg₁.trans hg₂, ⟨?_, ?_, ?_⟩, fun m hm => ?_⟩
  · intro t ht
    have ht' : t = parentTid ∨ t = childTid := by simpa [event, threads] using ht
    rcases ht' with rfl | rfl
    · exact ⟨_, hget₂⟩
    · exact ⟨_, hget₁'⟩
  · simp [event, locks]
  · simp [event]
  · simp [Naming.index, event, rename, Fin.ext (hm.thread _ _ hget₁'), Fin.ext (hm.thread _ _ hget₂)]

theorem resolves_lock {tid addr : Nat} (ht : tid ≠ 0) (htU : tid ∈ U) (ha : addr ≠ 0) :
    Resolves U r (.lock tid addr) ∧ Resolves U r (.unlock tid addr) := by
  obtain ⟨t, n₁, hi₁, hok₁, hg₁, hget₁⟩ := h.threadIndex hU ht htU
  obtain ⟨hok₂, hg₂, hget₂⟩ := hok₁.lockIndex ha
  have hreg : ∀ e, threads (event e) = [tid] → locks (event e) = [addr] → (∀ u b x, event e ≠ .access u (b, x)) →
      Registered { r with threads := n₁, locks := (r.locks.get addr).2 } e := by
    intro e hthreads hlocks hacc
    refine ⟨fun u hu => ?_, fun l hl => ?_, fun u b x hx => absurd hx (hacc u b x)⟩
    · rw [hthreads, List.mem_singleton] at hu
      exact ⟨_, hu ▸ hget₁⟩
    · rw [hlocks, List.mem_singleton] at hl
      subst hl
      exact ⟨_, hget₂⟩
  constructor
  · refine ⟨.acquire t (r.locks.get addr).1, _, by simp [resolve, hi₁], hok₂, hg₁.trans hg₂,
      hreg _ rfl rfl (by simp [event]), fun m hm => ?_⟩
    simp [Naming.index, event, rename, Fin.ext (hm.thread _ _ hget₁), hm.lock _ _ hget₂]
  · refine ⟨.release t (r.locks.get addr).1, _, by simp [resolve, hi₁], hok₂, hg₁.trans hg₂,
      hreg _ rfl rfl (by simp [event]), fun m hm => ?_⟩
    simp [Naming.index, event, rename, Fin.ext (hm.thread _ _ hget₁), hm.lock _ _ hget₂]

theorem resolves_access {e : TraceEvent} {tid addr : Nat} {load : Bool} (he : event e = .access tid (load, addr))
    (hres : resolve r e = resolveAccess load r tid addr) (ht : tid ≠ 0) (htU : tid ∈ U) (ha : addr ≠ 0) :
    Resolves U r e := by
  obtain ⟨t, n₁, hi₁, hok₁, hg₁, hget₁⟩ := h.threadIndex hU ht htU
  obtain ⟨hok₂, hg₂, hget₂⟩ := hok₁.varIndex ha
  refine ⟨.access t (load, (r.vars.get addr).1), _, by simp [hres, resolveAccess, hi₁], hok₂, hg₁.trans hg₂,
    ⟨fun u hu => ?_, ?_, fun u b x hx => ?_⟩, fun m hm => ?_⟩
  · rw [he, threads, List.mem_singleton] at hu
    exact ⟨_, hu ▸ hget₁⟩
  · simp [he, locks]
  · rw [he] at hx
    obtain ⟨-, hx⟩ := Event.access.inj hx
    obtain rfl := (Prod.mk.inj hx).2
    exact ⟨_, hget₂⟩
  · simp [Naming.index, he, rename, Fin.ext (hm.thread _ _ hget₁), hm.var _ _ hget₂]

theorem resolves {e : TraceEvent} (htids : ∀ t ∈ tids e, t ≠ 0 ∧ t ∈ U) (haddrs : ∀ a ∈ addrs e, a ≠ 0) :
    Resolves U r e := by
  cases e with
  | fork p c =>
      have hc := htids c (by simp [tids, event, threads])
      exact resolves_fork h hU (fun hp => (htids p (by simp [tids, event, threads, hp])).2) hc.1 hc.2
  | join p c =>
      have hp := htids p (by simp [tids, event, threads])
      have hc := htids c (by simp [tids, event, threads])
      exact resolves_join h hU hp.1 hp.2 hc.1 hc.2
  | lock tid addr =>
      have ht := htids tid (by simp [tids, event, threads])
      exact (resolves_lock h hU ht.1 ht.2 (haddrs addr (by simp [addrs]))).1
  | unlock tid addr =>
      have ht := htids tid (by simp [tids, event, threads])
      exact (resolves_lock h hU ht.1 ht.2 (haddrs addr (by simp [addrs]))).2
  | read tid addr =>
      have ht := htids tid (by simp [tids, event, threads])
      exact resolves_access h hU rfl rfl ht.1 ht.2 (haddrs addr (by simp [addrs]))
  | write tid addr =>
      have ht := htids tid (by simp [tids, event, threads])
      exact resolves_access h hU rfl rfl ht.1 ht.2 (haddrs addr (by simp [addrs]))

omit h in
theorem resolveAll_eq (es : List TraceEvent) (h : Ok U r) (htids : ∀ e ∈ es, ∀ t ∈ tids e, t ≠ 0 ∧ t ∈ U)
    (haddrs : ∀ e ∈ es, ∀ a ∈ addrs e, a ≠ 0) :
    ∃ r', Ok U r' ∧ Grows r r' ∧ (∀ e ∈ es, Registered r' e) ∧
      ∀ m : Naming, m.Fits r' → resolveAll r es = some (es.map m.index) := by
  induction es generalizing r with
  | nil => exact ⟨r, h, Grows.refl r, by simp, fun _ _ => rfl⟩
  | cons e es ih =>
      obtain ⟨ie, r₁, hres, hok₁, hg₁, hreg₁, hie⟩ :=
        resolves h hU (htids e List.mem_cons_self) (haddrs e List.mem_cons_self)
      obtain ⟨r', hok', hg', hreg', hall⟩ := ih hok₁ (fun x hx => htids x (List.mem_cons_of_mem e hx))
        (fun x hx => haddrs x (List.mem_cons_of_mem e hx))
      refine ⟨r', hok', hg₁.trans hg', fun x hx => ?_, fun m hm => ?_⟩
      · rcases List.mem_cons.mp hx with rfl | hx
        · exact hreg₁.mono hg'
        · exact hreg' x hx
      · rw [resolveAll, hres, Option.bind_some, hall m hm, hie m (hm.mono hg')]
        rfl

end Resolve

theorem vcInitialSz_pos : 0 < vcInitialSz := by decide

def namingOf (r : Registry) : Naming where
  thread k := if h : (mamboHtGet r.threads.ht k).getD 0 < vcInitialSz then ⟨_, h⟩ else ⟨0, vcInitialSz_pos⟩
  lock k := (mamboHtGet r.locks.ht k).getD 0
  var k := (mamboHtGet r.vars.ht k).getD 0

theorem namingOf_fits {U : Finset Nat} {r : Registry} (h : Ok U r) (hU : U.card ≤ vcInitialSz) :
    (namingOf r).Fits r := by
  obtain ⟨S, hS, htidy⟩ := h.threads
  refine ⟨fun k i hk => ?_, fun k i hk => ?_, fun k i hk => ?_⟩
  · have hlt : i < vcInitialSz := by
      have h1 := htidy.lt k i hk
      have h2 := Finset.card_le_card hS
      rw [htidy.size_eq] at h1
      omega
    simp [namingOf, hk, hlt]
  · simp [namingOf, hk]
  · simp [namingOf, hk]

/-- A trace on non-zero thread ids and addresses, with no more threads than a
vector clock has slots. -/
structure Supported (es : List TraceEvent) : Prop where
  tids_ne : ∀ e ∈ es, ∀ t ∈ tids e, t ≠ 0
  addrs_ne : ∀ e ∈ es, ∀ a ∈ addrs e, a ≠ 0
  card_le : (es.flatMap tids).toFinset.card ≤ vcInitialSz

/-- No thread forks, is joined and unlocks as often as an int can count. -/
def Counted (es : List TraceEvent) : Prop :=
  ∀ tid, ((((es.map event).filterMap Event.ticker).count tid : Nat) : Int) < intMax

theorem ticker_rename {T L A T' L' A' : Type*} (f : T → T') (g : L → L') (h : A → A') (e : Event T L A) :
    (rename f g h e).ticker = e.ticker.map f := by
  cases e with
  | fork p c => cases p <;> rfl
  | join | acquire | release | access => rfl

theorem ticker_mem {T L A : Type*} {e : Event T L A} {t : T} (h : e.ticker = some t) : t ∈ threads e := by
  cases e with
  | fork p c => cases p <;> simp_all [Event.ticker, Event.move, threads]
  | join | acquire | release | access => simp_all [Event.ticker, Event.move, threads]

theorem Counted.below {es : List TraceEvent} (h : Counted es) {m : Naming}
    (hm : Set.InjOn m.thread { t | ∃ e ∈ es, t ∈ threads (event e) }) : Below (es.map m.index) intMax := by
  have hmap : (es.map m.index).filterMap Event.ticker =
      ((es.map event).filterMap Event.ticker).map m.thread := by
    rw [List.filterMap_map, List.map_filterMap, List.filterMap_map]
    refine List.filterMap_congr fun e _ => ?_
    exact ticker_rename _ _ _ (event e)
  have hmem : ∀ t ∈ (es.map event).filterMap Event.ticker, ∃ e ∈ es, t ∈ threads (event e) := by
    intro t ht
    obtain ⟨e', he', ht⟩ := List.mem_filterMap.mp ht
    obtain ⟨e, he, rfl⟩ := List.mem_map.mp he'
    exact ⟨e, he, ticker_mem ht⟩
  refine below_of_count _ fun i => ?_
  rw [hmap]
  by_cases hi : ∃ t ∈ (es.map event).filterMap Event.ticker, m.thread t = i
  · obtain ⟨t, ht, rfl⟩ := hi
    refine lt_of_eq_of_lt (congrArg Nat.cast ?_) (h t)
    rw [List.count, List.countP_map, List.count]
    refine List.countP_congr fun u hu => ?_
    simp only [Function.comp_apply, beq_iff_eq]
    exact ⟨fun heq => hm (hmem u hu) (hmem t ht) heq, fun heq => heq ▸ rfl⟩
  · rw [List.count_eq_zero_of_not_mem fun hin => hi (List.mem_map.mp hin)]
    decide

theorem ok_empty (U : Finset Nat) : Ok U emptyRegistry :=
  ⟨⟨∅, Finset.empty_subset U, tidy_empty⟩, ⟨∅, tidy_empty⟩, ⟨∅, tidy_empty⟩⟩

/-- A supported trace resolves to itself under indices that keep its threads,
locks and variables apart. -/
theorem Supported.naming {es : List TraceEvent} (h : Supported es) :
    ∃ m : Naming, resolveAll emptyRegistry es = some (es.map m.index) ∧
      Set.InjOn m.thread { t | ∃ e ∈ es, t ∈ threads (event e) } ∧
      Set.InjOn m.lock { l | ∃ e ∈ es, l ∈ locks (event e) } ∧
      Set.InjOn m.var { x | ∃ e ∈ es, ∃ t b, event e = .access t (b, x) } := by
  have htids : ∀ e ∈ es, ∀ t ∈ tids e, t ≠ 0 ∧ t ∈ (es.flatMap tids).toFinset := fun e he t ht =>
    ⟨h.tids_ne e he t ht, List.mem_toFinset.mpr (List.mem_flatMap.mpr ⟨e, he, ht⟩)⟩
  obtain ⟨r, hok, -, hreg, hall⟩ := resolveAll_eq h.card_le es (ok_empty _) htids h.addrs_ne
  have hfits := namingOf_fits hok h.card_le
  refine ⟨namingOf r, hall _ hfits, ?_, ?_, ?_⟩
  · rintro t ⟨e, he, ht⟩ t' ⟨e', he', ht'⟩ heq
    obtain ⟨S, -, htidy⟩ := hok.threads
    obtain ⟨i, hi⟩ := (hreg e he).threads t ht
    obtain ⟨j, hj⟩ := (hreg e' he').threads t' ht'
    have hij : i = j := by rw [← hfits.thread t i hi, ← hfits.thread t' j hj, heq]
    exact htidy.inj t t' i hi (hij ▸ hj)
  · rintro l ⟨e, he, hl⟩ l' ⟨e', he', hl'⟩ heq
    obtain ⟨S, htidy⟩ := hok.locks
    obtain ⟨i, hi⟩ := (hreg e he).locks l hl
    obtain ⟨j, hj⟩ := (hreg e' he').locks l' hl'
    have hij : i = j := by rw [← hfits.lock l i hi, ← hfits.lock l' j hj, heq]
    exact htidy.inj l l' i hi (hij ▸ hj)
  · rintro x ⟨e, he, t, b, hx⟩ x' ⟨e', he', t', b', hx'⟩ heq
    obtain ⟨S, htidy⟩ := hok.vars
    obtain ⟨i, hi⟩ := (hreg e he).vars t b x hx
    obtain ⟨j, hj⟩ := (hreg e' he').vars t' b' x' hx'
    have hij : i = j := by rw [← hfits.var x i hi, ← hfits.var x' j hj, heq]
    exact htidy.inj x x' i hi (hij ▸ hj)

section States

variable {d : Detector} (tr : List IndexEvent)

def stateAt (a : Abs d) (tr : List IndexEvent) : Nat → Abs d
  | 0 => a
  | n + 1 =>
    match tr[n]? with
    | some e => ((stateAt a tr n).step e).2
    | none => stateAt a tr n

theorem stateAt_succ {a : Abs d} {n : Nat} {e : IndexEvent} (hn : tr[n]? = some e) :
    stateAt a tr (n + 1) = ((stateAt a tr n).step e).2 := by
  rw [stateAt, hn]

theorem stateAt_cons (a : Abs d) (e : IndexEvent) (n : Nat) :
    stateAt a (e :: tr) (n + 1) = stateAt (a.step e).2 tr n := by
  induction n with
  | zero => rfl
  | succ n ih =>
      rw [stateAt, List.getElem?_cons_succ, ih]
      rfl

theorem verdicts_getElem (a : Abs d) (n : Nat) :
    (a.verdicts tr)[n]? = tr[n]?.map fun e => ((stateAt a tr n).step e).1 := by
  induction tr generalizing a n with
  | nil => rfl
  | cons e tr ih =>
      cases n with
      | zero => rfl
      | succ n => rw [Abs.verdicts, List.getElem?_cons_succ, List.getElem?_cons_succ, ih, ← stateAt_cons]

/-- The ints are the clocks as long as none of them overflows. -/
theorem stateAt_clocks (h : Below tr intMax) (n : Nat) : (stateAt (Abs.start d) tr n).clocks = clocksAt tr n := by
  induction n with
  | zero => rfl
  | succ n ih =>
      cases hn : tr[n]? with
      | none => simpa only [stateAt, clocksAt, hn] using ih
      | some e =>
          have hmove : e.move.apply increment (clocksAt tr n) = e.move.apply Int.succ (clocksAt tr n) := by
            refine e.move.apply_congr fun t dst he => increment_of_lt (nonneg_clocksAt tr n _ _) ?_
            exact h n e t hn (by rw [Event.ticker, he])
          rw [stateAt_succ tr hn, clocksAt_succ tr hn, ← hmove, ← ih]
          cases e with
          | access t p => rfl
          | fork | join | acquire | release => rfl

end States

section Rounds

variable {d : Detector} {t : Fin vcInitialSz} {l : Nat}

def rounds (tid addr k : Nat) : List TraceEvent :=
  (List.replicate k [TraceEvent.lock tid addr, .unlock tid addr]).flatten

def indexRounds (t : Fin vcInitialSz) (l k : Nat) : List IndexEvent :=
  (List.replicate k [Event.acquire t l, .release t l]).flatten

theorem mem_rounds {tid addr k : Nat} {e : TraceEvent} (h : e ∈ rounds tid addr k) :
    e = .lock tid addr ∨ e = .unlock tid addr := by
  obtain ⟨es, hes, he⟩ := List.mem_flatten.mp h
  rw [(List.mem_replicate.mp hes).2] at he
  simpa using he

theorem resolveAll_rounds {r : Registry} {tid addr : Nat}
    (hlock : resolve r (.lock tid addr) = some (.acquire t l, r))
    (hunlock : resolve r (.unlock tid addr) = some (.release t l, r)) (k : Nat) (es : List TraceEvent) :
    resolveAll r (rounds tid addr k ++ es) = (resolveAll r es).map (indexRounds t l k ++ ·) := by
  induction k with
  | zero => exact Option.map_id'.symm
  | succ k ih =>
      simp only [rounds, indexRounds, List.replicate_succ, List.flatten_cons, List.cons_append, List.nil_append,
        resolveAll, hlock, hunlock, Option.bind_some] at ih ⊢
      rw [ih, Option.map_map, Option.map_map]
      rfl

def after (a : Abs d) (es : List IndexEvent) : Abs d := es.foldl (fun a e => (a.step e).2) a

theorem verdicts_append (a : Abs d) (es es' : List IndexEvent) :
    a.verdicts (es ++ es') = a.verdicts es ++ (after a es).verdicts es' := by
  induction es generalizing a with
  | nil => rfl
  | cons e es ih =>
      rw [List.cons_append, Abs.verdicts, Abs.verdicts, ih]
      rfl

/-- Thread t is in tick c, ahead of what it left with the lock. -/
structure Turn (K : Clocks (Fin vcInitialSz) Nat) (t : Fin vcInitialSz) (l : Nat) (c : Int) : Prop where
  own : K (.inl t) t = c
  lock_le : K (.inr l) t ≤ c
  nonneg : ∀ u, u ≠ t → 0 ≤ K (.inl t) u

/-- One round raises the clock of the thread, with or without an overflow. -/
theorem Turn.round {K : Clocks (Fin vcInitialSz) Nat} {c : Int} (h : Turn K t l c) :
    let K' := (Move.send t (.inr l)).apply increment ((Move.receive t l).apply increment K)
    K' (.inl t) t = increment c ∧ K' (.inr l) t = c ∧ ∀ u, u ≠ t → 0 ≤ K' (.inl t) u := by
  have hmax : max c (K (.inr l) t) = c := max_eq_left h.lock_le
  refine ⟨?_, ?_, fun u hu => ?_⟩
  · simp [Move.apply, tick, merge, h.own, hmax]
  · simp [Move.apply, tick, merge, h.own, h.lock_le]
  · simp [Move.apply, tick, merge, hu, h.nonneg u hu]

theorem after_rounds {a : Abs d} {c : Int} (hc : 0 ≤ c) (h : Turn a.clocks t l c) {k : Nat} (hk : c + k ≤ intMax) :
    (after a (indexRounds t l k)).vars = a.vars ∧ Turn (after a (indexRounds t l k)).clocks t l (c + k) := by
  induction k generalizing a c with
  | zero => exact ⟨rfl, by simpa [after, indexRounds] using h⟩
  | succ k ih =>
      obtain ⟨hown, hlock, hnonneg⟩ := h.round
      rw [increment_of_lt hc (by omega)] at hown
      have hnext : Turn (after a (indexRounds t l 1)).clocks t l c.succ :=
        ⟨hown, by rw [succ_eq]; exact hlock.le.trans (by omega), hnonneg⟩
      have hsum : c + (k + 1 : Nat) = c.succ + k := by rw [succ_eq]; omega
      rw [hsum]
      exact ih (a := after a (indexRounds t l 1)) (by rw [succ_eq]; omega) hnext (by rw [succ_eq]; omega)

/-- One round more than an int can count, and the clock of the thread is the least int. -/
theorem after_rounds_overflow {a : Abs d} {c : Int} (hc : 0 ≤ c) (h : Turn a.clocks t l c) {k : Nat}
    (hk : c + k = intMax) :
    (after a (indexRounds t l (k + 1))).vars = a.vars ∧
      (after a (indexRounds t l (k + 1))).clocks (.inl t) t = -2 ^ 31 ∧
      ∀ u, u ≠ t → 0 ≤ (after a (indexRounds t l (k + 1))).clocks (.inl t) u := by
  have hsplit : indexRounds t l (k + 1) = indexRounds t l k ++ indexRounds t l 1 := by
    rw [indexRounds, indexRounds, indexRounds, ← List.flatten_append, ← List.replicate_add]
  obtain ⟨hvars, hturn⟩ := after_rounds hc h hk.le
  obtain ⟨hown, -, hnonneg⟩ := hturn.round
  rw [hk] at hown
  rw [hsplit, after, List.foldl_append]
  exact ⟨hvars, hown, hnonneg⟩

def lockedThenRead (k : Nat) : List TraceEvent :=
  [.fork 0 1, .fork 1 2, .lock 2 8, .unlock 2 8] ++ (rounds 2 8 (k + 1) ++ [.read 2 16])

theorem mem_lockedThenRead {k : Nat} {e : TraceEvent} (h : e ∈ lockedThenRead k) :
    e = .fork 0 1 ∨ e = .fork 1 2 ∨ e = .lock 2 8 ∨ e = .unlock 2 8 ∨ e = .read 2 16 := by
  simp only [lockedThenRead, List.mem_append, List.mem_cons, List.not_mem_nil, or_false] at h
  rcases h with (h | h | h | h) | h | h
  · exact .inl h
  · exact .inr (.inl h)
  · exact .inr (.inr (.inl h))
  · exact .inr (.inr (.inr (.inl h)))
  · rcases mem_rounds h with h | h
    · exact .inr (.inr (.inl h))
    · exact .inr (.inr (.inr (.inl h)))
  · exact .inr (.inr (.inr (.inr h)))

theorem supported_lockedThenRead (k : Nat) : Supported (lockedThenRead k) := by
  refine ⟨fun e he => ?_, fun e he => ?_, ?_⟩
  · rcases mem_lockedThenRead he with rfl | rfl | rfl | rfl | rfl <;> decide
  · rcases mem_lockedThenRead he with rfl | rfl | rfl | rfl | rfl <;> decide
  · have hsub : ((lockedThenRead k).flatMap tids).toFinset ⊆ {1, 2} := by
      intro t hmem
      obtain ⟨e, he, ht⟩ := List.mem_flatMap.mp (List.mem_toFinset.mp hmem)
      clear hmem
      revert t
      rcases mem_lockedThenRead he with rfl | rfl | rfl | rfl | rfl <;> decide
    exact (Finset.card_le_card hsub).trans (by decide)

theorem verdicts_lockedThenRead (d : Detector) {k : Nat} (hk : 2 + (k : Int) = intMax) :
    ∃ vs vc, verdicts d (lockedThenRead k) =
        some (vs ++ [some (d.variableUpdateRead (d.variableInit 0) ⟨⟨1, by decide⟩, vc⟩).1]) ∧
      vc ⟨1, by decide⟩ = -2 ^ 31 ∧ 0 ≤ vc ⟨0, by decide⟩ := by
  let t : Fin vcInitialSz := ⟨1, by decide⟩
  let r : Registry := ⟨⟨[(2, 1), (1, 0)], 2⟩, ⟨[(8, 0)], 1⟩, ⟨[], 0⟩⟩
  let start : List IndexEvent := [.fork none ⟨0, by decide⟩, .fork (some ⟨0, by decide⟩) t, .acquire t 0, .release t 0]
  have hstart : ∀ es, resolveAll emptyRegistry ([.fork 0 1, .fork 1 2, .lock 2 8, .unlock 2 8] ++ es) =
      (resolveAll r es).map (start ++ ·) := by
    intro es
    have hmaps : resolveAll emptyRegistry ([.fork 0 1, .fork 1 2, .lock 2 8, .unlock 2 8] ++ es) =
        ((((resolveAll r es).map (.release t 0 :: ·)).map (.acquire t 0 :: ·)).map
          (.fork (some ⟨0, by decide⟩) t :: ·)).map (.fork none ⟨0, by decide⟩ :: ·) := rfl
    rw [hmaps, Option.map_map, Option.map_map, Option.map_map]
    rfl
  have hrounds : resolveAll r (rounds 2 8 (k + 1) ++ [.read 2 16]) =
      (resolveAll r [.read 2 16]).map (indexRounds t 0 (k + 1) ++ ·) := resolveAll_rounds rfl rfl (k + 1) [.read 2 16]
  have hres : resolveAll emptyRegistry (lockedThenRead k) =
      some (start ++ (indexRounds t 0 (k + 1) ++ [.access t (true, 0)])) := by
    rw [lockedThenRead, hstart, hrounds]
    rfl
  have hclocks : (after (Abs.start d) start).clocks = (after (Abs.start djit) start).clocks := rfl
  have hturn : Turn (after (Abs.start d) start).clocks t 0 2 := by
    rw [hclocks]
    exact ⟨by decide, by decide, by decide⟩
  obtain ⟨hvars, hown, hnonneg⟩ := after_rounds_overflow (by decide) hturn hk
  have hvar : (after (after (Abs.start d) start) (indexRounds t 0 (k + 1))).vars 0 = d.variableInit 0 := congrFun hvars 0
  refine ⟨(Abs.start d).verdicts start ++ (after (Abs.start d) start).verdicts (indexRounds t 0 (k + 1)), _, ?_,
    hown, hnonneg ⟨0, by decide⟩ (by decide)⟩
  rw [verdicts_eq, hres, Option.map_some, verdicts_append, verdicts_append, ← hvar, ← List.append_assoc]
  rfl

end Rounds

end Mambo.RaceNames
