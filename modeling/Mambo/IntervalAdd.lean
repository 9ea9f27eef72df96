import Mambo.Intervals
import Mathlib.Data.List.Perm.Basic
import Mathlib.Data.List.Induction
import Mathlib.Tactic.Common

namespace Mambo.IntervalAdd

open Intervals

def Covers (e : IntervalMapEntry) (a : Nat) : Prop := e.start ≤ a ∧ a < e.stop

def covered (m : IntervalMap) : Set Nat := { a | ∃ e ∈ m.entries, Covers e a }

def Apart (x y : IntervalMapEntry) : Prop := x.stop ≤ y.start ∨ y.stop ≤ x.start

/-- The shape invariant: entries are non-empty and pairwise disjoint. -/
structure Valid (m : IntervalMap) : Prop where
  nonempty : ∀ e ∈ m.entries, e.start < e.stop
  disjoint : m.entries.Pairwise Apart

/-- No entry holds a file, as when every add was made with a negative fd. -/
def Anonymous (m : IntervalMap) : Prop := ∀ e ∈ m.entries, e.fd < 0

theorem apart_symm {x y : IntervalMapEntry} (h : Apart x y) : Apart y x := h.symm

theorem hits_iff (start stop : Nat) (e : IntervalMapEntry) :
    hits start stop e = true ↔ start < e.stop ∧ e.start < stop := by
  simp [hits]

theorem deleteEntry_last (P : List IntervalMapEntry) (x : IntervalMapEntry) (size : Nat) :
    intervalMapDeleteEntry ⟨size, P ++ [x]⟩ P.length = (0, ⟨size, P⟩) := by
  simp [intervalMapDeleteEntry]

theorem deleteEntry_swap (P Q : List IntervalMapEntry) (x z : IntervalMapEntry) (size : Nat) :
    intervalMapDeleteEntry ⟨size, P ++ x :: (Q ++ [z])⟩ P.length = (0, ⟨size, P ++ z :: Q⟩) := by
  have hlast : (P ++ x :: (Q ++ [z])).getLastD default = z := by
    rw [show P ++ x :: (Q ++ [z]) = (P ++ x :: Q) ++ [z] by simp, List.getLastD_eq_getLast?,
      List.getLast?_concat]
    rfl
  have hlen : (P ++ x :: (Q ++ [z])).length ≥ 2 := by simp; omega
  have hin : ¬ P.length ≥ (P ++ x :: (Q ++ [z])).length := by simp
  simp only [intervalMapDeleteEntry, if_neg hin, if_pos hlen, hlast]
  congr 2
  rw [show (P ++ x :: (Q ++ [z])).set P.length z = (P ++ z :: Q) ++ [z] by simp, List.dropLast_concat]

/-- The entries that hit the range, in the order in which the loop meets them. -/
def hitsOf (start stop : Nat) (R : List IntervalMapEntry) : List IntervalMapEntry :=
  R.reverse.filter (hits start stop)

def missesOf (start stop : Nat) (R : List IntervalMapEntry) : List IntervalMapEntry :=
  R.filter fun e => !hits start stop e

def hullStart (start : Nat) (V : List IntervalMapEntry) : Nat := V.foldl (fun a e => min a e.start) start

def hullStop (stop : Nat) (V : List IntervalMapEntry) : Nat := V.foldl (fun a e => max a e.stop) stop

theorem hullStart_concat (start : Nat) (V : List IntervalMapEntry) (e : IntervalMapEntry) :
    hullStart start (V ++ [e]) = min (hullStart start V) e.start := by
  simp [hullStart]

theorem hullStop_concat (stop : Nat) (V : List IntervalMapEntry) (e : IntervalMapEntry) :
    hullStop stop (V ++ [e]) = max (hullStop stop V) e.stop := by
  simp [hullStop]

theorem hullStart_min (a b : Nat) (V : List IntervalMapEntry) :
    hullStart (min a b) V = min a (hullStart b V) := by
  induction V generalizing b with
  | nil => rfl
  | cons e V ih => simp only [hullStart, List.foldl_cons] at ih ⊢; rw [Nat.min_assoc, ih]

theorem hullStop_max (a b : Nat) (V : List IntervalMapEntry) :
    hullStop (max a b) V = max a (hullStop b V) := by
  induction V generalizing b with
  | nil => rfl
  | cons e V ih => simp only [hullStop, List.foldl_cons] at ih ⊢; rw [Nat.max_assoc, ih]

theorem hullStart_le (start : Nat) (V : List IntervalMapEntry) : hullStart start V ≤ start := by
  have h := hullStart_min start start V
  rw [Nat.min_self] at h
  omega

theorem le_hullStop (stop : Nat) (V : List IntervalMapEntry) : stop ≤ hullStop stop V := by
  have h := hullStop_max stop stop V
  rw [Nat.max_self] at h
  omega

theorem hull_covers (start stop : Nat) (V : List IntervalMapEntry)
    (hV : ∀ e ∈ V, start < e.stop ∧ e.start < stop) (a : Nat) :
    (hullStart start V ≤ a ∧ a < hullStop stop V) ↔
      (start ≤ a ∧ a < stop) ∨ ∃ e ∈ V, Covers e a := by
  induction V using List.reverseRecOn with
  | nil => simp [hullStart, hullStop]
  | append_singleton V e ih =>
      have hle := hullStart_le start V
      have hge := le_hullStop stop V
      have he := hV e (by simp)
      have ih := ih (fun x hx => hV x (by simp [hx]))
      rw [hullStart_concat, hullStop_concat]
      have : (∃ x ∈ V ++ [e], Covers x a) ↔ (∃ x ∈ V, Covers x a) ∨ Covers e a := by
        simp [or_and_right, exists_or]
      rw [this, ← or_assoc, ← ih]
      unfold Covers
      omega

theorem hitsOf_cons (start stop : Nat) (x : IntervalMapEntry) (R : List IntervalMapEntry) :
    hitsOf start stop (x :: R) =
      hitsOf start stop R ++ if hits start stop x then [x] else [] := by
  by_cases h : hits start stop x <;> simp [hitsOf, h]

theorem mem_hitsOf (start stop : Nat) (R : List IntervalMapEntry) (e : IntervalMapEntry) :
    e ∈ hitsOf start stop R ↔ e ∈ R ∧ hits start stop e = true := by
  simp [hitsOf]

theorem set_perm {T T' : IntervalMapEntry} {Q N : List IntervalMapEntry} {k : Nat}
    (hk : Q[k]? = some T) (hQ : Q.Perm (T :: N)) : (Q.set k T').Perm (T' :: N) := by
  obtain ⟨hlt, hT⟩ := List.getElem?_eq_some_iff.mp hk
  have h1 := List.getElem_cons_eraseIdx_perm hlt
  rw [hT] at h1
  have h2 := List.getElem_cons_eraseIdx_perm (l := Q.set k T') (n := k) (by simpa using hlt)
  rw [List.getElem_set_self, List.eraseIdx_set_eq] at h2
  exact h2.symm.trans (((h1.trans hQ).cons_inv).cons T')

/-- The number of merges after which the target stops absorbing: one for each
live entry stored from the first hit on. -/
def room (start stop : Nat) (l : List IntervalMapEntry) : Nat :=
  l.reverse.findIdx (hits start stop) + 1

/-- The indices from i on were visited and none of them hit. -/
structure Untouched (l : List IntervalMapEntry) (start stop i : Nat) (st : AddScan) : Prop where
  entries : st.imap.entries = l
  overlapInd : st.overlapInd = none
  start_eq : st.start = start
  stop_eq : st.stop = stop
  noHits : hitsOf start stop (l.drop i) = []

/-- The indices from i on were visited and h was the first that hit. The target
T absorbs hits while it is stored at h. Each deletion swaps the last live entry
away; once that entry is T itself, index h is dead and later merges miss T. -/
structure Merging (l : List IntervalMapEntry) (start stop i h : Nat) (T : IntervalMapEntry)
    (Q : List IntervalMapEntry) (st : AddScan) : Prop where
  entries : st.imap.entries = l.take i ++ Q
  overlapInd : st.overlapInd = some h
  index : i ≤ h
  room_eq : h + room start stop l = l.length
  perm : Q.Perm (T :: missesOf start stop (l.drop i))
  fd_neg : T.fd < 0
  length_eq : i + Q.length + (hitsOf start stop (l.drop i)).length = l.length + 1
  someHits : hitsOf start stop (l.drop i) ≠ []
  target_start : T.start = hullStart start ((hitsOf start stop (l.drop i)).take (room start stop l))
  target_stop : T.stop = hullStop stop ((hitsOf start stop (l.drop i)).take (room start stop l))
  start_eq : st.start = hullStart start (hitsOf start stop (l.drop i)).tail
  stop_eq : st.stop = hullStop stop (hitsOf start stop (l.drop i)).tail
  stored : (hitsOf start stop (l.drop i)).length ≤ room start stop l → Q[h - i]? = some T

def Scanned (l : List IntervalMapEntry) (size start stop i : Nat) (st : AddScan) : Prop :=
  st.imap.memSize = size ∧
    (Untouched l start stop i st ∨ ∃ h T Q, Merging l start stop i h T Q st)

theorem missesOf_eq_self {start stop : Nat} {R : List IntervalMapEntry} (h : hitsOf start stop R = []) :
    missesOf start stop R = R := by
  rw [missesOf, List.filter_eq_self]
  intro e he
  by_contra hn
  have : e ∈ hitsOf start stop R := (mem_hitsOf ..).mpr ⟨he, by simpa using hn⟩
  rw [h] at this
  exact absurd this (List.not_mem_nil)

theorem room_of_first {start stop i : Nat} {l : List IntervalMapEntry} (hi : i < l.length)
    (hx : hits start stop l[i] = true) (hno : hitsOf start stop (l.drop (i + 1)) = []) :
    i + room start stop l = l.length := by
  have hl : l.reverse = (l.drop (i + 1)).reverse ++ l[i] :: (l.take i).reverse := by
    conv_lhs => rw [← List.take_append_drop i l, List.drop_eq_getElem_cons hi]
    simp
  have hnone : (l.drop (i + 1)).reverse.findIdx (hits start stop) = (l.drop (i + 1)).length := by
    rw [← List.length_reverse]
    apply List.findIdx_eq_length_of_false
    intro e he
    by_contra hn
    have : e ∈ hitsOf start stop (l.drop (i + 1)) :=
      (mem_hitsOf ..).mpr ⟨List.mem_reverse.mp he, by simpa using hn⟩
    rw [hno] at this
    exact absurd this (List.not_mem_nil)
  rw [room, hl, List.findIdx_append, hnone, if_neg (by simp), List.findIdx_cons, hx]
  simp only [cond_true, List.length_reverse, List.length_drop]
  omega

section Step

variable {l : List IntervalMapEntry} {start stop i h size : Nat} {T : IntervalMapEntry}
  {Q : List IntervalMapEntry} {st : AddScan} {fd : Int}

theorem length_take_of_lt (hi : i < l.length) : (l.take i).length = i := by
  rw [List.length_take]; omega

theorem apart_of_mem_drop (hl : l.Pairwise Apart) (hi : i < l.length) {e : IntervalMapEntry}
    (he : e ∈ l.drop (i + 1)) : Apart l[i] e := by
  have hd : (l.drop i).Pairwise Apart := hl.sublist (List.drop_sublist i l)
  rw [List.drop_eq_getElem_cons hi] at hd
  exact List.rel_of_pairwise_cons hd he

/-- The bounds the loop has widened so far hit an unvisited entry exactly when
the given range does, because the absorbed entries are disjoint from it. -/
theorem hits_widened (hl : l.Pairwise Apart) (hne : ∀ e ∈ l, e.start < e.stop) (hi : i < l.length)
    (hlt : start < stop) (hs : st.start = hullStart start (hitsOf start stop (l.drop (i + 1))).tail)
    (hp : st.stop = hullStop stop (hitsOf start stop (l.drop (i + 1))).tail) :
    hits st.start st.stop l[i] = hits start stop l[i] := by
  have hV : ∀ e ∈ (hitsOf start stop (l.drop (i + 1))).tail, start < e.stop ∧ e.start < stop :=
    fun e he => (hits_iff ..).mp ((mem_hitsOf ..).mp (List.mem_of_mem_tail he)).2
  have hcov := hull_covers start stop _ hV
  have hle := hullStart_le start (hitsOf start stop (l.drop (i + 1))).tail
  have hge := le_hullStop stop (hitsOf start stop (l.drop (i + 1))).tail
  rw [← hs, ← hp] at hcov
  rw [← hs] at hle
  rw [← hp] at hge
  have hxne := hne _ (List.getElem_mem hi)
  rw [Bool.eq_iff_iff, hits_iff, hits_iff]
  constructor
  · intro hx
    -- an address common to the widened range and the entry
    have hmax := (hcov (max st.start l[i].start)).mp (by omega)
    rcases hmax with hmax | ⟨e, he, hcv⟩
    · omega
    · have hap := apart_of_mem_drop hl hi ((mem_hitsOf ..).mp (List.mem_of_mem_tail he)).1
      simp only [Apart, Covers] at hap hcv
      omega
  · omega

theorem getD_entries (hi : i < l.length) (Q : List IntervalMapEntry) :
    (l.take (i + 1) ++ Q).getD i default = l[i] := by
  rw [List.getD_eq_getElem?_getD, List.getElem?_append_left (by simp; omega),
    List.getElem?_take_of_lt (by omega), List.getElem?_eq_getElem hi]
  rfl

theorem take_append_eq (hi : i < l.length) (Q : List IntervalMapEntry) :
    l.take (i + 1) ++ Q = l.take i ++ l[i] :: Q := by
  rw [List.take_succ_eq_append_getElem hi, List.append_assoc]
  rfl

theorem modify_at (P Q : List IntervalMapEntry) (x : IntervalMapEntry)
    (f : IntervalMapEntry → IntervalMapEntry) :
    (P ++ x :: Q).modify P.length f = P ++ f x :: Q := by
  induction P with
  | nil => rfl
  | cons p P ih => simpa using ih

theorem merging_first (hi : i < l.length) (hu : Untouched l start stop (i + 1) st)
    (hx : hits start stop l[i] = true) (hfd : l[i].fd < 0) :
    Merging l start stop i i
      { l[i] with start := min l[i].start start, stop := max l[i].stop stop }
      ({ l[i] with start := min l[i].start start, stop := max l[i].stop stop } :: l.drop (i + 1))
      (addExtend { st with overlapInd := some i }) where
  entries := by
    have hl : l = l.take i ++ l[i] :: l.drop (i + 1) := by
      rw [← take_append_eq hi, List.take_append_drop]
    simp only [addExtend, hu.entries, hu.start_eq, hu.stop_eq]
    conv_lhs => rw [hl]
    conv_lhs => enter [2]; rw [← length_take_of_lt hi]
    rw [modify_at]
  overlapInd := rfl
  index := le_rfl
  room_eq := room_of_first hi hx hu.noHits
  perm := by
    rw [List.drop_eq_getElem_cons hi, missesOf, List.filter_cons, hx]
    simp only [Bool.not_true, Bool.false_eq_true, if_false]
    rw [← missesOf, missesOf_eq_self hu.noHits]
  fd_neg := hfd
  length_eq := by
    rw [List.drop_eq_getElem_cons hi, hitsOf_cons, hu.noHits, if_pos hx]
    simp only [List.length_cons, List.length_drop, List.nil_append, List.length_nil]
    omega
  someHits := by rw [List.drop_eq_getElem_cons hi, hitsOf_cons, if_pos hx]; simp
  target_start := by
    rw [List.drop_eq_getElem_cons hi, hitsOf_cons, hu.noHits, if_pos hx]
    simp [room, hullStart, Nat.min_comm]
  target_stop := by
    rw [List.drop_eq_getElem_cons hi, hitsOf_cons, hu.noHits, if_pos hx]
    simp [room, hullStop, Nat.max_comm]
  start_eq := by
    rw [List.drop_eq_getElem_cons hi, hitsOf_cons, hu.noHits, if_pos hx]
    exact hu.start_eq
  stop_eq := by
    rw [List.drop_eq_getElem_cons hi, hitsOf_cons, hu.noHits, if_pos hx]
    exact hu.stop_eq
  stored := by simp

theorem merging_miss (hi : i < l.length) (hm : Merging l start stop (i + 1) h T Q st)
    (hx : hits start stop l[i] = false) : Merging l start stop i h T (l[i] :: Q) st := by
  have hV : hitsOf start stop (l.drop i) = hitsOf start stop (l.drop (i + 1)) := by
    rw [List.drop_eq_getElem_cons hi, hitsOf_cons, hx]; simp
  have hN : missesOf start stop (l.drop i) = l[i] :: missesOf start stop (l.drop (i + 1)) := by
    rw [List.drop_eq_getElem_cons hi, missesOf, List.filter_cons, hx]; rfl
  have hlen := hm.length_eq
  have hidx := hm.index
  refine ⟨?_, hm.overlapInd, by omega, hm.room_eq, ?_, hm.fd_neg, ?_, hV ▸ hm.someHits,
    hV ▸ hm.target_start, hV ▸ hm.target_stop, hV ▸ hm.start_eq, hV ▸ hm.stop_eq, ?_⟩
  · rw [hm.entries, take_append_eq hi]
  · rw [hN]
    exact (hm.perm.cons l[i]).trans (List.Perm.swap ..)
  · rw [hV, List.length_cons]; omega
  · intro hle
    have hst := hm.stored (hV ▸ hle)
    rw [show h - i = (h - (i + 1)) + 1 by omega, List.getElem?_cons_succ]
    exact hst

/-- The scan after a further hit at i is deleted, before the target is extended. -/
def afterDelete (st : AddScan) (i h : Nat) (e z : IntervalMapEntry) (Q : List IntervalMapEntry)
    (l : List IntervalMapEntry) : AddScan :=
  ⟨⟨st.imap.memSize, l.take i ++ z :: Q⟩, min e.start st.start, max e.stop st.stop, some h⟩

theorem addMerge_delete (hi : i < l.length) {z : IntervalMapEntry}
    (hov : st.overlapInd = some h) (hent : st.imap.entries = l.take (i + 1) ++ (Q ++ [z])) :
    addMerge i l[i] st = some (afterDelete st i h l[i] z Q l) := by
  have hd := deleteEntry_swap (l.take i) Q l[i] z st.imap.memSize
  rw [length_take_of_lt hi] at hd
  have he : st.imap = ⟨st.imap.memSize, l.take i ++ l[i] :: (Q ++ [z])⟩ := by
    rw [← take_append_eq hi, ← hent]
  simp only [addMerge, hov]
  rw [he, hd]
  simp [afterDelete]

theorem hitsOf_drop_hit (hi : i < l.length) (hx : hits start stop l[i] = true) :
    hitsOf start stop (l.drop i) = hitsOf start stop (l.drop (i + 1)) ++ [l[i]] := by
  rw [List.drop_eq_getElem_cons hi, hitsOf_cons, if_pos hx]

theorem missesOf_drop_hit (hi : i < l.length) (hx : hits start stop l[i] = true) :
    missesOf start stop (l.drop i) = missesOf start stop (l.drop (i + 1)) := by
  rw [List.drop_eq_getElem_cons hi, missesOf, List.filter_cons, hx]; rfl

theorem Merging.start_next (hm : Merging l start stop (i + 1) h T Q st) (hi : i < l.length)
    (hx : hits start stop l[i] = true) :
    min l[i].start st.start = hullStart start (hitsOf start stop (l.drop i)).tail := by
  rw [hitsOf_drop_hit hi hx, List.tail_append_of_ne_nil hm.someHits, hullStart_concat, ← hm.start_eq,
    Nat.min_comm]

theorem Merging.stop_next (hm : Merging l start stop (i + 1) h T Q st) (hi : i < l.length)
    (hx : hits start stop l[i] = true) :
    max l[i].stop st.stop = hullStop stop (hitsOf start stop (l.drop i)).tail := by
  rw [hitsOf_drop_hit hi hx, List.tail_append_of_ne_nil hm.someHits, hullStop_concat, ← hm.stop_eq,
    Nat.max_comm]

theorem merging_absorb (hi : i < l.length) {z : IntervalMapEntry}
    (hm : Merging l start stop (i + 1) h T (Q ++ [z]) st) (hx : hits start stop l[i] = true)
    (hlive : (hitsOf start stop (l.drop (i + 1))).length < room start stop l) :
    ∃ T' Q', Merging l start stop i h T' Q' (addExtend (afterDelete st i h l[i] z Q l)) := by
  have hV := hitsOf_drop_hit hi hx
  have hlen := hm.length_eq
  have hroom := hm.room_eq
  have hidx := hm.index
  simp only [List.length_append, List.length_cons, List.length_nil] at hlen
  have hk : h - (i + 1) < Q.length := by omega
  have hst := hm.stored hlive.le
  rw [List.getElem?_append_left hk] at hst
  let T' : IntervalMapEntry :=
    { T with start := min T.start (min l[i].start st.start), stop := max T.stop (max l[i].stop st.stop) }
  have htake : (hitsOf start stop (l.drop (i + 1))).take (room start stop l) =
      hitsOf start stop (l.drop (i + 1)) := List.take_of_length_le hlive.le
  have htake' : (hitsOf start stop (l.drop i)).take (room start stop l) = hitsOf start stop (l.drop i) :=
    List.take_of_length_le (by rw [hV, List.length_append]; exact hlive)
  obtain ⟨v, V, hcons⟩ := List.exists_cons_of_ne_nil hm.someHits
  refine ⟨T', z :: Q.set (h - (i + 1)) T', ?_, rfl, by omega, hroom, ?_, hm.fd_neg, ?_, by simp [hV],
    ?_, ?_, hm.start_next hi hx, hm.stop_next hi hx, ?_⟩
  · have hsub : h - i = (h - (i + 1)) + 1 := by omega
    have hP := length_take_of_lt hi
    have hat : (l.take i ++ z :: Q)[h]? = some T := by
      rw [List.getElem?_append_right (by omega), hP, hsub, List.getElem?_cons_succ, hst]
    simp only [addExtend, afterDelete]
    rw [List.modify_eq_set, hat, List.set_append_right _ _ (by omega), hP, hsub, List.set_cons_succ]
    rfl
  · rw [missesOf_drop_hit hi hx]
    refine (List.perm_append_singleton z _).symm.trans ?_
    rw [← List.set_append_left _ _ hk]
    refine set_perm ?_ hm.perm
    rw [List.getElem?_append_left hk]
    exact hst
  · rw [hV]; simp only [List.length_cons, List.length_set, List.length_append, List.length_nil]; omega
  · have hts := hm.target_start
    have hss := hm.start_eq
    rw [htake, hcons] at hts
    rw [hcons] at hss
    rw [htake', hV, hullStart_concat, hcons]
    simp only [T', hts, hss, List.tail_cons]
    rw [hullStart, List.foldl_cons, ← hullStart, Nat.min_comm start, hullStart_min]
    omega
  · have htp := hm.target_stop
    have hsp := hm.stop_eq
    rw [htake, hcons] at htp
    rw [hcons] at hsp
    rw [htake', hV, hullStop_concat, hcons]
    simp only [T', htp, hsp, List.tail_cons]
    rw [hullStop, List.foldl_cons, ← hullStop, Nat.max_comm stop, hullStop_max]
    omega
  · intro _
    rw [show h - i = (h - (i + 1)) + 1 by omega, List.getElem?_cons_succ, List.getElem?_set_self hk]

theorem merging_lose (hi : i < l.length) {z : IntervalMapEntry}
    (hm : Merging l start stop (i + 1) h T (Q ++ [z]) st) (hx : hits start stop l[i] = true)
    (hdead : room start stop l ≤ (hitsOf start stop (l.drop (i + 1))).length) :
    Merging l start stop i h T (z :: Q) (addExtend (afterDelete st i h l[i] z Q l)) := by
  have hV := hitsOf_drop_hit hi hx
  have hlen := hm.length_eq
  have hroom := hm.room_eq
  have hidx := hm.index
  simp only [List.length_append, List.length_cons, List.length_nil] at hlen
  have htake : (hitsOf start stop (l.drop i)).take (room start stop l) =
      (hitsOf start stop (l.drop (i + 1))).take (room start stop l) := by
    rw [hV, List.take_append_of_le_length hdead]
  refine ⟨?_, rfl, by omega, hroom, ?_, hm.fd_neg, ?_, by simp [hV], ?_, ?_, hm.start_next hi hx,
    hm.stop_next hi hx, ?_⟩
  · simp only [addExtend, afterDelete]
    rw [List.modify_eq_self]
    simp only [List.length_append, List.length_cons, length_take_of_lt hi]
    omega
  · rw [missesOf_drop_hit hi hx]
    exact (List.perm_append_singleton z _).symm.trans hm.perm
  · rw [hV]; simp only [List.length_cons, List.length_append, List.length_nil]; omega
  · rw [htake]; exact hm.target_start
  · rw [htake]; exact hm.target_stop
  · rw [hV, List.length_append]
    intro hle
    simp only [List.length_cons, List.length_nil] at hle
    omega

theorem addBody_miss {e : IntervalMapEntry} (hget : st.imap.entries.getD i default = e)
    (hx : hits st.start st.stop e = false) : addBody fd i st = some st := by
  simp only [addBody, hget, hx, Bool.false_eq_true, if_false]

theorem addBody_hit {e : IntervalMapEntry} (hget : st.imap.entries.getD i default = e)
    (hx : hits st.start st.stop e = true) (hfd : fd < 0) (he : e.fd < 0) :
    addBody fd i st = (addMerge i e st).map addExtend := by
  simp only [addBody, hget, hx, if_true, hfd, he, and_self]

theorem addBody_scanned (hl : l.Pairwise Apart) (hne : ∀ e ∈ l, e.start < e.stop)
    (hanon : ∀ e ∈ l, e.fd < 0) (hfd : fd < 0) (hlt : start < stop) (hi : i < l.length)
    (hs : Scanned l size start stop (i + 1) st) :
    ∃ st', addBody fd i st = some st' ∧ Scanned l size start stop i st' := by
  obtain ⟨hsize, hu | ⟨h, T, Q, hm⟩⟩ := hs
  · have hget : st.imap.entries.getD i default = l[i] := by
      rw [hu.entries, List.getD_eq_getElem?_getD, List.getElem?_eq_getElem hi]; rfl
    have hw : hits st.start st.stop l[i] = hits start stop l[i] := by rw [hu.start_eq, hu.stop_eq]
    cases hx : hits start stop l[i] with
    | false =>
        refine ⟨st, addBody_miss hget (hw.trans hx), hsize,
          .inl ⟨hu.entries, hu.overlapInd, hu.start_eq, hu.stop_eq, ?_⟩⟩
        rw [List.drop_eq_getElem_cons hi, hitsOf_cons, hu.noHits, hx]; simp
    | true =>
        have hxfd := hanon _ (List.getElem_mem hi)
        refine ⟨addExtend { st with overlapInd := some i }, ?_, hsize,
          .inr ⟨_, _, _, merging_first hi hu hx hxfd⟩⟩
        simp only [addBody_hit hget (hw.trans hx) hfd hxfd, addMerge, hu.overlapInd, Option.map_some]
  · have hget : st.imap.entries.getD i default = l[i] := by rw [hm.entries, getD_entries hi]
    have hw := hits_widened hl hne hi hlt hm.start_eq hm.stop_eq
    cases hx : hits start stop l[i] with
    | false =>
        exact ⟨st, addBody_miss hget (hw.trans hx), hsize, .inr ⟨_, _, _, merging_miss hi hm hx⟩⟩
    | true =>
        have hQne : Q ≠ [] := by
          intro hQ
          have := hm.perm.length_eq
          simp [hQ] at this
        obtain ⟨Q, z, rfl⟩ := (List.eq_nil_or_concat Q).resolve_left hQne
        rw [List.concat_eq_append] at hm
        have hbody : addBody fd i st = some (addExtend (afterDelete st i h l[i] z Q l)) := by
          rw [addBody_hit hget (hw.trans hx) hfd (hanon _ (List.getElem_mem hi)),
            addMerge_delete hi hm.overlapInd hm.entries, Option.map_some]
        refine ⟨_, hbody, hsize, .inr ?_⟩
        rcases Nat.lt_or_ge (hitsOf start stop (l.drop (i + 1))).length (room start stop l) with hlive | hdead
        · obtain ⟨T', Q', hm'⟩ := merging_absorb hi hm hx hlive
          exact ⟨h, T', Q', hm'⟩
        · exact ⟨h, T, z :: Q, merging_lose hi hm hx hdead⟩

theorem addLoop_scanned (hl : l.Pairwise Apart) (hne : ∀ e ∈ l, e.start < e.stop)
    (hanon : ∀ e ∈ l, e.fd < 0) (hfd : fd < 0) (hlt : start < stop) (hi : i ≤ l.length)
    (hs : Scanned l size start stop i st) :
    ∃ st', addLoop fd i st = some st' ∧ Scanned l size start stop 0 st' := by
  induction i generalizing st with
  | zero => exact ⟨st, rfl, hs⟩
  | succ i ih =>
      obtain ⟨st', hb, hs'⟩ := addBody_scanned hl hne hanon hfd hlt hi hs
      obtain ⟨st'', hr, hs''⟩ := ih (by omega) hs'
      exact ⟨st'', by simp [addLoop, hb, hr], hs''⟩

end Step

section Outcome

variable (dup : Int → Int) {m : IntervalMap} {start stop : Nat} {fd : Int}

theorem intervalMapAdd_scan (hv : Valid m) (ha : Anonymous m) (hfd : fd < 0) (hlt : start < stop) :
    ∃ st, addLoop fd m.entries.length ⟨m, start, stop, none⟩ = some st ∧
      Scanned m.entries m.memSize start stop 0 st := by
  apply addLoop_scanned hv.disjoint hv.nonempty ha hfd hlt le_rfl
  exact ⟨rfl, .inl ⟨rfl, rfl, rfl, rfl, by simp [hitsOf]⟩⟩

theorem intervalMapAdd_eq (hfd : fd < 0) (hlt : start < stop) :
    intervalMapAdd dup m start stop fd =
      (addLoop fd m.entries.length ⟨m, start, stop, none⟩).bind (addFinish fd) := by
  have h1 : ¬ start ≥ stop := by omega
  have h2 : ¬ fd ≥ 0 := by omega
  simp [intervalMapAdd, h1, h2]

theorem intervalMapAdd_fresh (hv : Valid m) (ha : Anonymous m) (hfd : fd < 0) (hlt : start < stop)
    (hroom : m.entries.length < m.memSize) (hno : hitsOf start stop m.entries = []) :
    intervalMapAdd dup m start stop fd =
      some (0, { m with entries := m.entries ++ [⟨start, stop, fd⟩] }) := by
  obtain ⟨st, hloop, hsize, hu | ⟨h, T, Q, hm⟩⟩ := intervalMapAdd_scan hv ha hfd hlt
  · rw [intervalMapAdd_eq dup hfd hlt, hloop]
    have himap : st.imap = m := IntervalMap.ext hsize hu.entries
    have hfit : ¬ (m.entries.length ≥ m.memSize ∨ start ≥ stop) := by omega
    simp only [Option.bind_some, addFinish, hu.overlapInd, himap, hu.start_eq, hu.stop_eq,
      intervalMapAddEntry, if_neg hfit, if_true]
  · exact absurd hno (by simpa using hm.someHits)

/-- The target covers the range and the first hits, as many as there was room for. -/
theorem intervalMapAdd_merge (hv : Valid m) (ha : Anonymous m) (hfd : fd < 0) (hlt : start < stop)
    (hsome : hitsOf start stop m.entries ≠ []) :
    ∃ T l', intervalMapAdd dup m start stop fd = some (0, ⟨m.memSize, l'⟩) ∧
      l'.Perm (T :: missesOf start stop m.entries) ∧ T.fd < 0 ∧
      T.start = hullStart start ((hitsOf start stop m.entries).take (room start stop m.entries)) ∧
      T.stop = hullStop stop ((hitsOf start stop m.entries).take (room start stop m.entries)) := by
  obtain ⟨st, hloop, hsize, hu | ⟨h, T, Q, hm⟩⟩ := intervalMapAdd_scan hv ha hfd hlt
  · exact absurd (by simpa using hu.noHits) hsome
  · refine ⟨T, Q, ?_, by simpa using hm.perm, hm.fd_neg, by simpa using hm.target_start,
      by simpa using hm.target_stop⟩
    rw [intervalMapAdd_eq dup hfd hlt, hloop]
    have himap : st.imap = ⟨m.memSize, Q⟩ := IntervalMap.ext hsize (by simpa using hm.entries)
    simp [addFinish, hm.overlapInd, himap]

end Outcome

end Mambo.IntervalAdd
