import Mathlib.Data.Int.Init
import Mathlib.Data.Int.Order.Basic
import Mathlib.Data.Set.Basic
import Mathlib.Logic.Function.Basic
import Mathlib.Order.Lattice
import Mathlib.Tactic.Common

namespace Mambo.VectorClocks

inductive Event (T L A : Type*)
  | fork (parent : Option T) (child : T)
  | join (parent child : T)
  | acquire (t : T) (l : L)
  | release (t : T) (l : L)
  | access (t : T) (a : A)
  deriving DecidableEq, Repr

/-- A thread sends its clock and moves on, or receives the clock of a lock. -/
inductive Move (T L : Type*)
  | stay
  | send (t : T) (dst : T ⊕ L)
  | receive (t : T) (l : L)

variable {T L A : Type*}

def Event.move : Event T L A → Move T L
  | .fork (some p) c => .send p (.inl c)
  | .fork none _ => .stay
  | .join p c => .send c (.inl p)
  | .acquire t l => .receive t l
  | .release t l => .send t (.inr l)
  | .access _ _ => .stay

def Event.ticker (e : Event T L A) : Option T :=
  match e.move with
  | .send t _ => some t
  | _ => none

abbrev Clocks (T L : Type*) := T ⊕ L → T → Int

variable [DecidableEq T] [DecidableEq L]

def fresh : Clocks T L
  | .inl t => fun u => if u = t then 1 else 0
  | .inr _ => fun _ => 0

def merge (K : Clocks T L) (dst src : T ⊕ L) : Clocks T L :=
  Function.update K dst fun u => max (K dst u) (K src u)

/-- The clock of thread t moves on, to what next makes of its value. -/
def tick (next : Int → Int) (K : Clocks T L) (t : T) : Clocks T L :=
  Function.update K (.inl t) (Function.update (K (.inl t)) t (next (K (.inl t) t)))

def Move.apply (next : Int → Int) (K : Clocks T L) : Move T L → Clocks T L
  | .stay => K
  | .send t dst => tick next (merge K dst (.inl t)) t
  | .receive t l => merge K (.inl t) (.inr l)

theorem merge_apply (K : Clocks T L) (dst src node : T ⊕ L) (u : T) :
    merge K dst src node u = if node = dst then max (K dst u) (K src u) else K node u := by
  by_cases h : node = dst
  · subst h
    simp [merge]
  · simp [merge, h]

theorem succ_eq (c : Int) : c.succ = c + 1 := rfl

theorem tick_apply (K : Clocks T L) (t : T) (node : T ⊕ L) (u : T) :
    tick Int.succ K t node u = K node u + if node = .inl t ∧ u = t then 1 else 0 := by
  by_cases h : node = .inl t
  · subst h
    by_cases hu : u = t
    · subst hu
      simp [tick, succ_eq]
    · simp [tick, hu]
  · simp [tick, h]

theorem Move.apply_congr {next next' : Int → Int} {K : Clocks T L} (m : Move T L)
    (h : ∀ t dst, m = .send t dst → next (K (.inl t) t) = next' (K (.inl t) t)) :
    m.apply next K = m.apply next' K := by
  cases m with
  | stay | receive t l => rfl
  | send t dst =>
      have hown : merge K dst (.inl t) (.inl t) t = K (.inl t) t := by
        rw [merge_apply]
        split_ifs with hd
        · rw [← hd, max_self]
        · rfl
      rw [Move.apply, Move.apply, tick, tick, hown, h t dst rfl]

def Ahead (K : Clocks T L) : Prop := ∀ t node, node ≠ .inl t → K node t < K (.inl t) t

omit [DecidableEq L] in
theorem ahead_fresh : Ahead (fresh : Clocks T L) := by
  intro t node hne
  cases node with
  | inl s =>
      have hts : t ≠ s := fun h => hne (h ▸ rfl)
      simp [fresh, hts]
  | inr l => simp [fresh]

theorem Ahead.le {K : Clocks T L} (h : Ahead K) (t : T) (node : T ⊕ L) : K node t ≤ K (.inl t) t := by
  by_cases hn : node = .inl t
  · rw [hn]
  · exact (h t node hn).le

omit [DecidableEq T] [DecidableEq L] in
theorem Ahead.eq_of_le {K : Clocks T L} (h : Ahead K) {t : T} {node : T ⊕ L}
    (hle : K (.inl t) t ≤ K node t) : node = .inl t :=
  by_contra fun hn => absurd hle (not_le.mpr (h t node hn))

theorem Ahead.apply {K : Clocks T L} (h : Ahead K) (m : Move T L) : Ahead (m.apply Int.succ K) := by
  cases m with
  | stay => exact h
  | send t dst =>
      intro s node hne
      simp only [Move.apply, tick_apply, merge_apply]
      have h1 := h s node hne
      have h2 := h.le s (.inl t)
      have h3 := h.le s dst
      by_cases hst : s = t
      · subst hst
        simp only [hne, false_and, if_false, and_self, if_true]
        split_ifs with hd hd' <;> omega
      · have h4 := h s (.inl t) (fun he => hst (Sum.inl.inj he).symm)
        simp only [hst, and_false, if_false, Int.add_zero]
        by_cases hd : node = dst
        · subst hd
          have hd' : (.inl s : T ⊕ L) ≠ node := Ne.symm hne
          simp only [if_true, hd', if_false]
          omega
        · simp only [hd, if_false]
          split_ifs with hd'
          · rw [← hd']
            omega
          · exact h1
  | receive t l =>
      intro s node hne
      simp only [Move.apply, merge_apply]
      have h1 := h s node hne
      have h2 := h s (.inr l) (by simp)
      by_cases hd : node = .inl t
      · subst hd
        have hd' : (.inl s : T ⊕ L) ≠ .inl t := Ne.symm hne
        simp only [if_true, hd', if_false]
        omega
      · simp only [hd, if_false]
        split_ifs with hd'
        · rw [← hd']
          omega
        · exact h1

theorem le_apply (K : Clocks T L) (m : Move T L) (node : T ⊕ L) (u : T) : K node u ≤ m.apply Int.succ K node u := by
  cases m with
  | stay => exact le_rfl
  | send t dst =>
      simp only [Move.apply, tick_apply, merge_apply]
      by_cases hd : node = dst
      · subst hd
        rw [if_pos rfl]
        exact (le_max_left _ _).trans (Int.le_add_of_nonneg_right (by split_ifs <;> decide))
      · rw [if_neg hd]
        exact Int.le_add_of_nonneg_right (by split_ifs <;> decide)
  | receive t l =>
      simp only [Move.apply, merge_apply]
      by_cases hd : node = .inl t
      · subst hd
        rw [if_pos rfl]
        exact le_max_left _ _
      · rw [if_neg hd]

omit [DecidableEq L] in
theorem nonneg_fresh (node : T ⊕ L) (u : T) : 0 ≤ (fresh : Clocks T L) node u := by
  cases node with
  | inl s =>
      simp only [fresh]
      split_ifs <;> decide
  | inr l => exact le_rfl

theorem Ahead.merge_own {K : Clocks T L} (h : Ahead K) (dst src : T ⊕ L) (t : T) :
    merge K dst src (.inl t) t = K (.inl t) t := by
  rw [merge_apply]
  split_ifs with hd
  · rw [← hd]
    exact max_eq_left (h.le t src)
  · rfl

theorem Ahead.own {K : Clocks T L} (h : Ahead K) (e : Event T L A) (t : T) :
    e.move.apply Int.succ K (.inl t) t = K (.inl t) t + if e.ticker = some t then 1 else 0 := by
  rw [Event.ticker]
  cases e.move with
  | stay => simp [Move.apply]
  | send s dst => simp [Move.apply, tick_apply, h.merge_own, eq_comm]
  | receive s l => simp [Move.apply, h.merge_own]

def Move.spread (Q : T ⊕ L → Prop) : Move T L → T ⊕ L → Prop
  | .stay => Q
  | .send t dst => fun node => Q node ∨ node = dst ∧ Q (.inl t)
  | .receive t l => fun node => Q node ∨ node = .inl t ∧ Q (.inr l)

/-- Having reached tick c of thread u is the same as having property Q. -/
structure Tracks (K : Clocks T L) (u : T) (c : Int) (Q : T ⊕ L → Prop) : Prop where
  own : c ≤ K (.inl u) u
  iff : ∀ node, c ≤ K node u ↔ Q node

theorem Tracks.apply {K : Clocks T L} {u : T} {c : Int} {Q : T ⊕ L → Prop} (h : Tracks K u c Q)
    (m : Move T L) : Tracks (m.apply Int.succ K) u c (m.spread Q) := by
  refine ⟨h.own.trans (le_apply K m _ _), fun node => ?_⟩
  have hQ := h.iff
  cases m with
  | stay => exact hQ node
  | send t dst =>
      simp only [Move.apply, tick_apply, merge_apply, Move.spread, ← hQ]
      by_cases ht : node = .inl t ∧ u = t
      · -- the extra tick adds nothing: the thread had reached c already
        obtain ⟨rfl, rfl⟩ := ht
        exact iff_of_true ((h.own.trans (le_apply K (.send u dst) _ _)).trans_eq
          (by simp only [Move.apply, tick_apply, merge_apply])) (Or.inl h.own)
      · simp only [ht, if_false, Int.add_zero]
        by_cases hd : node = dst
        · subst hd
          simp only [if_true, true_and, le_sup_iff]
        · simp only [hd, if_false, false_and, or_false]
  | receive t l =>
      simp only [Move.apply, merge_apply, Move.spread, ← hQ]
      by_cases hd : node = .inl t
      · subst hd
        simp only [if_true, true_and, le_sup_iff]
      · simp only [hd, if_false, false_and, or_false]

/-- Having reached tick c of thread u comes with having reached tick m of thread v. -/
structure Implies (K : Clocks T L) (u : T) (c : Int) (v : T) (m : Int) : Prop where
  own : c ≤ K (.inl u) u
  imp : ∀ node, c ≤ K node u → m ≤ K node v

theorem Implies.apply {K : Clocks T L} {u v : T} {c n : Int} (h : Implies K u c v n) (m : Move T L) :
    Implies (m.apply Int.succ K) u c v n := by
  -- the nodes that have reached c are those to which having reached it has spread
  have htrack : Tracks K u c fun node => c ≤ K node u := ⟨h.own, fun _ => Iff.rfl⟩
  refine ⟨(htrack.apply m).own, fun node hnode => ?_⟩
  have hspread := ((htrack.apply m).iff node).mp hnode
  cases m with
  | stay => exact h.imp node hspread
  | send t dst =>
      rcases hspread with hc | ⟨rfl, hc⟩
      · exact (h.imp node hc).trans (le_apply K _ node v)
      · refine (h.imp _ hc).trans ?_
        simp only [Move.apply, tick_apply, merge_apply, if_true]
        omega
  | receive t l =>
      rcases hspread with hc | ⟨rfl, hc⟩
      · exact (h.imp node hc).trans (le_apply K _ node v)
      · refine (h.imp _ hc).trans ?_
        simp only [Move.apply, merge_apply, if_true]
        exact le_max_right _ _

end Mambo.VectorClocks
