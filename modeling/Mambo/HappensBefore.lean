import Mambo.VectorClocks
import Mathlib.Data.Set.Function
import Mathlib.Logic.Relation

namespace Mambo.HappensBefore

open VectorClocks Relation

variable {T L A : Type*}

def actor : Event T L A → T
  | .fork (some p) _ => p
  | .fork none c => c
  | .join p _ => p
  | .acquire t _ => t
  | .release t _ => t
  | .access t _ => t

/-- The events of a thread: those it makes, and the fork that starts it. -/
def InThread (e : Event T L A) (t : T) : Prop := actor e = t ∨ ∃ p, e = .fork p t

variable (tr : List (Event T L A))

inductive Edge : Nat → Nat → Prop
  | programOrder {i j : Nat} {e e' : Event T L A} (hlt : i < j) (hi : tr[i]? = some e)
      (hj : tr[j]? = some e') (h : actor e = actor e') : Edge i j
  | forkChild {i j : Nat} {p : Option T} {c : T} {e' : Event T L A} (hlt : i < j)
      (hi : tr[i]? = some (.fork p c)) (hj : tr[j]? = some e') (h : actor e' = c) : Edge i j
  | childJoin {i j : Nat} {p c : T} {e : Event T L A} (hlt : i < j) (hi : tr[i]? = some e)
      (h : InThread e c) (hj : tr[j]? = some (.join p c)) : Edge i j
  | releaseAcquire {i j : Nat} {t u : T} {l : L} (hlt : i < j) (hi : tr[i]? = some (.release t l))
      (hj : tr[j]? = some (.acquire u l)) : Edge i j

def HB : Nat → Nat → Prop := TransGen (Edge tr)

def Feeds (e : Event T L A) : T ⊕ L → Prop
  | .inl t => InThread e t
  | .inr l => ∃ t, e = .release t l

/-- The clocks and locks an event looks at. -/
def Reads (e : Event T L A) (node : T ⊕ L) : Prop :=
  node = .inl (actor e) ∨ (∃ p c, e = .join p c ∧ node = .inl c) ∨ ∃ t l, e = .acquire t l ∧ node = .inr l

def Moved (e : Event T L A) (node : T ⊕ L) : Prop :=
  match e.move with
  | .send t dst => t = actor e ∧ node = dst
  | _ => False

theorem feeds_iff (e : Event T L A) (node : T ⊕ L) :
    Feeds e node ↔ node = .inl (actor e) ∨ Moved e node := by
  cases e with
  | fork p c => cases p <;> cases node <;> simp [Feeds, InThread, actor, Moved, Event.move, eq_comm]
  | join p c => cases node <;> simp [Feeds, InThread, actor, Moved, Event.move, eq_comm]
  | acquire t l => cases node <;> simp [Feeds, InThread, actor, Moved, Event.move, eq_comm]
  | release t l => cases node <;> simp [Feeds, InThread, actor, Moved, Event.move, eq_comm]
  | access t a => cases node <;> simp [Feeds, InThread, actor, Moved, Event.move, eq_comm]

theorem edge_iff {j : Nat} {e' : Event T L A} (hj : tr[j]? = some e') (i : Nat) :
    Edge tr i j ↔ i < j ∧ ∃ e node, tr[i]? = some e ∧ Feeds e node ∧ Reads e' node := by
  constructor
  · intro h
    cases h with
    | @programOrder e e'' hlt hi hj' h =>
        obtain rfl := Option.some.inj (hj.symm.trans hj')
        exact ⟨hlt, e, .inl (actor e'), hi, Or.inl h, Or.inl rfl⟩
    | @forkChild p c e'' hlt hi hj' h =>
        obtain rfl := Option.some.inj (hj.symm.trans hj')
        exact ⟨hlt, _, .inl c, hi, Or.inr ⟨p, rfl⟩, Or.inl (h ▸ rfl)⟩
    | @childJoin p c e hlt hi h hj' =>
        obtain rfl := Option.some.inj (hj.symm.trans hj')
        exact ⟨hlt, e, .inl c, hi, h, Or.inr (Or.inl ⟨p, c, rfl, rfl⟩)⟩
    | @releaseAcquire t u l hlt hi hj' =>
        obtain rfl := Option.some.inj (hj.symm.trans hj')
        exact ⟨hlt, _, .inr l, hi, ⟨t, rfl⟩, Or.inr (Or.inr ⟨u, l, rfl, rfl⟩)⟩
  · rintro ⟨hlt, e, node, hi, hf, rfl | ⟨p, c, rfl, rfl⟩ | ⟨t, l, rfl, rfl⟩⟩
    · rcases hf with h | ⟨p, rfl⟩
      · exact .programOrder hlt hi hj h
      · exact .forkChild hlt hi hj rfl
    · exact .childJoin hlt hi hf hj
    · obtain ⟨s, rfl⟩ := hf
      exact .releaseAcquire hlt hi hj

theorem Edge.lt {i j : Nat} (h : Edge tr i j) : i < j := by
  cases h with
  | programOrder hlt | forkChild hlt | childJoin hlt | releaseAcquire hlt => exact hlt

theorem HB.lt {i j : Nat} (h : HB tr i j) : i < j := by
  induction h with
  | single h => exact h.lt
  | tail _ h ih => exact ih.trans h.lt

def Past (i j : Nat) : Prop := i = j ∨ HB tr i j

def Known (n i : Nat) (node : T ⊕ L) : Prop :=
  ∃ j e, j < n ∧ tr[j]? = some e ∧ Feeds e node ∧ Past tr i j

theorem hb_iff_known {j : Nat} {e : Event T L A} (hj : tr[j]? = some e) (i : Nat) :
    HB tr i j ↔ ∃ node, Reads e node ∧ Known tr j i node := by
  constructor
  · intro h
    cases h with
    | single h =>
        obtain ⟨hlt, e', node, hi, hf, hr⟩ := (edge_iff tr hj i).mp h
        exact ⟨node, hr, i, e', hlt, hi, hf, Or.inl rfl⟩
    | @tail k _ hik h =>
        obtain ⟨hlt, e', node, hk, hf, hr⟩ := (edge_iff tr hj k).mp h
        exact ⟨node, hr, k, e', hlt, hk, hf, Or.inr hik⟩
  · rintro ⟨node, hr, k, e', hlt, hk, hf, hpast⟩
    have hedge := (edge_iff tr hj k).mpr ⟨hlt, e', node, hk, hf, hr⟩
    rcases hpast with rfl | hik
    · exact TransGen.single hedge
    · exact TransGen.tail hik hedge

/-- What an event adds to the knowledge: the event is noted at its actor, then
moves with the clocks. -/
theorem known_succ {n : Nat} {e : Event T L A} (hn : tr[n]? = some e) (i : Nat) (node : T ⊕ L) :
    Known tr (n + 1) i node ↔
      e.move.spread (fun x => Known tr n i x ∨ x = .inl (actor e) ∧ i = n) node := by
  have hsucc : Known tr (n + 1) i node ↔ Known tr n i node ∨ Feeds e node ∧ Past tr i n := by
    constructor
    · rintro ⟨j, e', hlt, hj, hf, hp⟩
      rcases Nat.lt_succ_iff_lt_or_eq.mp hlt with hlt | rfl
      · exact Or.inl ⟨j, e', hlt, hj, hf, hp⟩
      · obtain rfl := Option.some.inj (hn.symm.trans hj)
        exact Or.inr ⟨hf, hp⟩
    · rintro (⟨j, e', hlt, hj, hf, hp⟩ | ⟨hf, hp⟩)
      · exact ⟨j, e', hlt.trans (Nat.lt_succ_self n), hj, hf, hp⟩
      · exact ⟨n, e, Nat.lt_succ_self n, hn, hf, hp⟩
  have hpast : Past tr i n ↔ i = n ∨ ∃ x, Reads e x ∧ Known tr n i x :=
    or_congr_right (hb_iff_known tr hn i)
  rw [hsucc, hpast, feeds_iff]
  cases e with
  | fork p c =>
      cases p with
      | none =>
          simp only [Reads, actor, Event.move, Move.spread, Moved]
          grind
      | some p =>
          simp only [Reads, actor, Event.move, Move.spread, Moved]
          grind
  | join | acquire | release | access =>
      simp only [Reads, actor, Event.move, Move.spread, Moved]
      grind

section Clocks

variable [DecidableEq T] [DecidableEq L]

def clocksAt : Nat → Clocks T L
  | 0 => fresh
  | n + 1 =>
    match tr[n]? with
    | some e => e.move.apply Int.succ (clocksAt n)
    | none => clocksAt n

theorem clocksAt_succ {n : Nat} {e : Event T L A} (hn : tr[n]? = some e) :
    clocksAt tr (n + 1) = e.move.apply Int.succ (clocksAt tr n) := by
  rw [clocksAt, hn]

theorem ahead_clocksAt (n : Nat) : Ahead (clocksAt tr n) := by
  induction n with
  | zero => exact ahead_fresh
  | succ n ih =>
      cases hn : tr[n]? with
      | none => simpa only [clocksAt, hn] using ih
      | some e =>
          rw [clocksAt_succ tr hn]
          exact ih.apply e.move

theorem nonneg_clocksAt (n : Nat) (node : T ⊕ L) (u : T) : 0 ≤ clocksAt tr n node u := by
  induction n with
  | zero => exact nonneg_fresh node u
  | succ n ih =>
      cases hn : tr[n]? with
      | none => simpa only [clocksAt, hn] using ih
      | some e =>
          rw [clocksAt_succ tr hn]
          exact ih.trans (le_apply _ _ _ _)

theorem clocksAt_own (n : Nat) (t : T) :
    clocksAt tr n (.inl t) t = 1 + ((tr.take n).filterMap Event.ticker).count t := by
  induction n with
  | zero => simp [clocksAt, fresh]
  | succ n ih =>
      cases hn : tr[n]? with
      | none => simpa only [clocksAt, hn, List.take_add_one, Option.toList_none, List.append_nil] using ih
      | some e =>
          rw [clocksAt_succ tr hn, (ahead_clocksAt tr n).own, ih, List.take_add_one, hn]
          cases he : e.ticker with
          | none => simp [he]
          | some s =>
              by_cases hs : s = t
              · simp [he, hs, Int.add_assoc]
              · simp [he, hs]

def Below (b : Int) : Prop :=
  ∀ n e t, tr[n]? = some e → e.ticker = some t → clocksAt tr n (.inl t) t < b

theorem below_of_count {b : Int} (h : ∀ t, (((tr.filterMap Event.ticker).count t : Nat) : Int) < b) :
    Below tr b := by
  intro n e t hn he
  obtain ⟨hlt, hget⟩ := List.getElem?_eq_some_iff.mp hn
  have hsplit : tr = tr.take n ++ e :: tr.drop (n + 1) := by
    rw [← hget, List.getElem_cons_drop, List.take_append_drop]
  have hcount := h t
  rw [hsplit, List.filterMap_append, List.count_append, List.filterMap_cons_some he, List.count_cons_self] at hcount
  rw [clocksAt_own]
  omega

omit [DecidableEq T] [DecidableEq L] in
theorem not_known_self (i : Nat) (node : T ⊕ L) : ¬ Known tr i i node := by
  rintro ⟨j, e, hlt, -, -, rfl | h⟩
  · exact lt_irrefl _ hlt
  · exact lt_asymm hlt h.lt

/-- From an access on, the clocks that have reached its tick are those that
carry the access. -/
theorem tracks_access {i : Nat} {u : T} {a : A} (hi : tr[i]? = some (.access u a)) {n : Nat} (hin : i < n)
    (hn : n ≤ tr.length) :
    Tracks (clocksAt tr n) u (clocksAt tr i (.inl u) u) (Known tr n i) := by
  induction n, hin using Nat.le_induction with
  | base =>
      have hahead := ahead_clocksAt tr i
      rw [clocksAt_succ tr hi]
      refine ⟨le_rfl, fun node => ?_⟩
      rw [known_succ tr hi]
      simp only [Event.move, Move.apply, Move.spread, not_known_self, false_or, actor, and_true]
      constructor
      · exact hahead.eq_of_le
      · rintro rfl
        exact le_rfl
  | succ n hin ih =>
      have he := List.getElem?_eq_getElem (show n < tr.length from hn)
      have hne : i ≠ n := Nat.ne_of_lt hin
      have hknown : Known tr (n + 1) i = tr[n].move.spread (Known tr n i) := by
        funext node
        simp only [known_succ tr he, hne, and_false, or_false]
      rw [clocksAt_succ tr he, hknown]
      exact (ih (Nat.le_of_succ_le hn)).apply _

/-- An access happens before a later one exactly when its tick has reached the
clock of the thread that makes the later one. -/
theorem hb_iff_clock {i j : Nat} {u t : T} {a b : A} (hi : tr[i]? = some (.access u a))
    (hj : tr[j]? = some (.access t b)) (hlt : i < j) :
    HB tr i j ↔ clocksAt tr i (.inl u) u ≤ clocksAt tr j (.inl t) u := by
  have hlen : j < tr.length := (List.getElem?_eq_some_iff.mp hj).1
  rw [hb_iff_known tr hj, (tracks_access tr hi hlt hlen.le).iff]
  simp [Reads, actor]

end Clocks

section Rename

variable {T' L' A' : Type*} (f : T → T') (g : L → L') (h : A → A')

def rename : Event T L A → Event T' L' A'
  | .fork p c => .fork (p.map f) (f c)
  | .join p c => .join (f p) (f c)
  | .acquire t l => .acquire (f t) (g l)
  | .release t l => .release (f t) (g l)
  | .access t a => .access (f t) (h a)

def threads : Event T L A → List T
  | .fork p c => c :: p.toList
  | .join p c => [p, c]
  | .acquire t _ => [t]
  | .release t _ => [t]
  | .access t _ => [t]

def locks : Event T L A → List L
  | .acquire _ l => [l]
  | .release _ l => [l]
  | _ => []

theorem actor_mem (e : Event T L A) : actor e ∈ threads e := by
  cases e with
  | fork p c => cases p <;> simp [actor, threads]
  | join | acquire | release | access => simp [actor, threads]

theorem actor_rename (e : Event T L A) : actor (rename f g h e) = f (actor e) := by
  cases e with
  | fork p c => cases p <;> rfl
  | join | acquire | release | access => rfl

/-- The events of an edge, without their places. -/
def Linked (e e' : Event T L A) : Prop :=
  InThread e (actor e') ∨ (∃ p c, e' = .join p c ∧ InThread e c) ∨
    ∃ t u l, e = .release t l ∧ e' = .acquire u l

theorem edge_iff_linked (i j : Nat) :
    Edge tr i j ↔ i < j ∧ ∃ e e', tr[i]? = some e ∧ tr[j]? = some e' ∧ Linked e e' := by
  constructor
  · intro h
    cases h with
    | programOrder hlt hi hj h => exact ⟨hlt, _, _, hi, hj, Or.inl (Or.inl h)⟩
    | forkChild hlt hi hj h =>
        subst h
        exact ⟨hlt, _, _, hi, hj, Or.inl (Or.inr ⟨_, rfl⟩)⟩
    | childJoin hlt hi h hj => exact ⟨hlt, _, _, hi, hj, Or.inr (Or.inl ⟨_, _, rfl, h⟩)⟩
    | releaseAcquire hlt hi hj => exact ⟨hlt, _, _, hi, hj, Or.inr (Or.inr ⟨_, _, _, rfl, rfl⟩)⟩
  · rintro ⟨hlt, e, e', hi, hj, (h | ⟨p, rfl⟩) | ⟨p, c, rfl, h⟩ | ⟨t, u, l, rfl, rfl⟩⟩
    · exact .programOrder hlt hi hj h
    · exact .forkChild hlt hi hj rfl
    · exact .childJoin hlt hi h hj
    · exact .releaseAcquire hlt hi hj

variable {f g h}

theorem inThread_rename {e : Event T L A} {t : T} (hf : ∀ u ∈ threads e, f u = f t → u = t) :
    InThread (rename f g h e) (f t) ↔ InThread e t := by
  unfold InThread
  rw [actor_rename]
  refine or_congr ⟨hf _ (actor_mem e), fun h => h ▸ rfl⟩ ?_
  cases e with
  | fork p c =>
      have hc := hf c (by simp [threads])
      simp only [rename, Event.fork.injEq, exists_and_right, exists_eq']
      exact ⟨fun h => ⟨trivial, hc h.2⟩, fun h => ⟨trivial, h.2 ▸ rfl⟩⟩
  | join | acquire | release | access => simp [rename]

theorem linked_rename {e e' : Event T L A} (hf : ∀ t ∈ threads e, ∀ t' ∈ threads e', f t = f t' → t = t')
    (hg : ∀ l ∈ locks e, ∀ l' ∈ locks e', g l = g l' → l = l') :
    Linked (rename f g h e) (rename f g h e') ↔ Linked e e' := by
  refine or_congr ?_ (or_congr ?_ ?_)
  · rw [actor_rename]
    exact inThread_rename fun t ht => hf t ht _ (actor_mem e')
  · cases e' with
    | join p c =>
        simp only [rename, Event.join.injEq, ↓existsAndEq, and_true, true_and]
        exact inThread_rename fun t ht => hf t ht c (by simp [threads])
    | fork | acquire | release | access => simp [rename]
  · cases e with
    | release t l =>
        cases e' with
        | acquire u l' =>
            have hl := hg l (by simp [locks]) l' (by simp [locks])
            simp only [rename, Event.release.injEq, Event.acquire.injEq, ↓existsAndEq, and_true, true_and]
            exact ⟨fun h => (hl h.symm).symm, fun h => h ▸ rfl⟩
        | fork | join | release | access => simp [rename]
    | fork | join | acquire | access => simp [rename]

theorem edge_rename (hf : Set.InjOn f { t | ∃ e ∈ tr, t ∈ threads e })
    (hg : Set.InjOn g { l | ∃ e ∈ tr, l ∈ locks e }) (i j : Nat) :
    Edge (tr.map (rename f g h)) i j ↔ Edge tr i j := by
  rw [edge_iff_linked, edge_iff_linked]
  refine and_congr_right fun _ => ?_
  simp only [List.getElem?_map, Option.map_eq_some_iff]
  have hlink : ∀ e e', tr[i]? = some e → tr[j]? = some e' →
      (Linked (rename f g h e) (rename f g h e') ↔ Linked e e') := by
    intro e e' hi hj
    have hmi := List.mem_of_getElem? hi
    have hmj := List.mem_of_getElem? hj
    exact linked_rename (fun t ht t' ht' => hf ⟨e, hmi, ht⟩ ⟨e', hmj, ht'⟩)
      (fun l hl l' hl' => hg ⟨e, hmi, hl⟩ ⟨e', hmj, hl'⟩)
  constructor
  · rintro ⟨_, _, ⟨e, hi, rfl⟩, ⟨e', hj, rfl⟩, hl⟩
    exact ⟨e, e', hi, hj, (hlink e e' hi hj).mp hl⟩
  · rintro ⟨e, e', hi, hj, hl⟩
    exact ⟨_, _, ⟨e, hi, rfl⟩, ⟨e', hj, rfl⟩, (hlink e e' hi hj).mpr hl⟩

theorem hb_rename (hf : Set.InjOn f { t | ∃ e ∈ tr, t ∈ threads e })
    (hg : Set.InjOn g { l | ∃ e ∈ tr, l ∈ locks e }) (i j : Nat) :
    HB (tr.map (rename f g h)) i j ↔ HB tr i j := by
  have hedge : Edge (tr.map (rename f g h)) = Edge tr := by
    funext a b
    exact propext (edge_rename tr hf hg a b)
  rw [HB, HB, hedge]

end Rename

end Mambo.HappensBefore
