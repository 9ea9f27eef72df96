import Mambo.IntervalAdd

namespace Mambo.IntervalDelete

open Intervals IntervalAdd

def CutsLeft (start stop : Nat) (e : IntervalMapEntry) : Prop :=
  start < e.start ∧ e.start < stop ∧ stop < e.stop

def CutsRight (start stop : Nat) (e : IntervalMapEntry) : Prop :=
  e.start < start ∧ start < e.stop ∧ e.stop < stop

def pieces (start stop : Nat) (e : IntervalMapEntry) : List IntervalMapEntry :=
  if hits start stop e then
    if start ≤ e.start ∧ stop ≥ e.stop then []
    else if start = e.start ∧ stop < e.stop then [{ e with start := stop }]
    else if stop = e.stop ∧ start > e.start then [{ e with stop := start }]
    else [{ e with stop := start }, { e with start := stop }]
  else [e]

theorem pieces_miss {start stop : Nat} {e : IntervalMapEntry} (h : hits start stop e = false) :
    pieces start stop e = [e] := by
  simp [pieces, h]

theorem pieces_covers {start stop : Nat} {e : IntervalMapEntry} (hlt : start < stop) (a : Nat) :
    (∃ y ∈ pieces start stop e, Covers y a) ↔ Covers e a ∧ ¬ (start ≤ a ∧ a < stop) := by
  have hh := hits_iff start stop e
  cases hx : hits start stop e with
  | false =>
      rw [pieces_miss hx]
      simp only [hx, Bool.false_eq_true, false_iff] at hh
      simp only [List.mem_singleton, exists_eq_left, Covers]
      omega
  | true =>
      have hh := hh.mp hx
      unfold pieces
      rw [if_pos hx]
      split_ifs <;> simp [Covers] <;> omega

section Body

variable (dup : Int → Int) {l Q : List IntervalMapEntry} {start stop i size : Nat} {n : Int}

theorem deleteEntry_perm (P Q : List IntervalMapEntry) (x : IntervalMapEntry) (size : Nat) :
    ∃ Q', intervalMapDeleteEntry ⟨size, P ++ x :: Q⟩ P.length = (0, ⟨size, P ++ Q'⟩) ∧ Q'.Perm Q := by
  rcases List.eq_nil_or_concat Q with rfl | ⟨Q, z, rfl⟩
  · exact ⟨[], by simpa using deleteEntry_last P x size, .refl _⟩
  · rw [List.concat_eq_append]
    exact ⟨z :: Q, deleteEntry_swap P Q x z size, (List.perm_append_singleton z Q).symm⟩

theorem setEntry_at (P Q : List IntervalMapEntry) (x y : IntervalMapEntry) (size : Nat) :
    setEntry ⟨size, P ++ x :: Q⟩ P.length y = ⟨size, P ++ y :: Q⟩ := by
  simp [setEntry]

theorem deleteSplit_eq (P : List IntervalMapEntry) (x : IntervalMapEntry) (hfd : x.fd < 0) :
    deleteSplit dup start stop P.length x ⟨size, P ++ x :: Q⟩ =
      if P.length + 1 + Q.length < size ∧ stop < x.stop then
        some ⟨size, P ++ { x with stop := start } :: (Q ++ [{ x with start := stop }])⟩
      else none := by
  have hfd' : ¬ x.fd ≥ 0 := by omega
  have hlen (y : IntervalMapEntry) : (P ++ y :: Q).length = P.length + 1 + Q.length := by simp; omega
  simp only [deleteSplit, hfd', false_and, if_false, setEntry_at, intervalMapAddEntry, hlen]
  by_cases h : P.length + 1 + Q.length < size ∧ stop < x.stop
  · have hn : ¬ (P.length + 1 + Q.length ≥ size ∨ stop ≥ x.stop) := by omega
    simp [h, hn]
  · have hn : P.length + 1 + Q.length ≥ size ∨ stop ≥ x.stop := by omega
    simp [h, hn]

theorem deleteHit_spec (P : List IntervalMapEntry) (x : IntervalMapEntry) (hfd : x.fd < 0)
    (hx : hits start stop x = true) {m : IntervalMap}
    (hr : deleteHit dup start stop P.length x ⟨size, P ++ x :: Q⟩ = some m) :
    ∃ Q', m = ⟨size, P ++ Q'⟩ ∧ Q'.Perm (pieces start stop x ++ Q) ∧ ¬ CutsRight start stop x := by
  unfold deleteHit at hr
  unfold pieces CutsRight
  rw [if_pos hx]
  by_cases h1 : start ≤ x.start ∧ stop ≥ x.stop
  · obtain ⟨Q', hd, hp⟩ := deleteEntry_perm P Q x size
    simp only [if_pos h1, hd, if_true, Option.some.injEq] at hr ⊢
    exact ⟨Q', hr.symm, hp, by omega⟩
  rw [if_neg h1] at hr ⊢
  by_cases h2 : start = x.start ∧ stop < x.stop
  · rw [if_pos h2, setEntry_at, Option.some.injEq] at hr
    rw [if_pos h2]
    exact ⟨_, hr.symm, .refl _, by omega⟩
  rw [if_neg h2] at hr ⊢
  by_cases h3 : stop = x.stop ∧ start > x.start
  · rw [if_pos h3, setEntry_at, Option.some.injEq] at hr
    rw [if_pos h3]
    exact ⟨_, hr.symm, .refl _, by omega⟩
  rw [if_neg h3, deleteSplit_eq dup P x hfd] at hr
  rw [if_neg h3]
  split at hr
  next h4 =>
    rw [Option.some.injEq] at hr
    refine ⟨_, hr.symm, ?_, by omega⟩
    exact (List.perm_append_singleton _ Q).cons _
  next => simp at hr

theorem deleteHit_total (P : List IntervalMapEntry) (x : IntervalMapEntry) (hfd : x.fd < 0)
    (hx : hits start stop x = true)
    (hclean : (start ≤ x.start ∧ x.stop ≤ stop) ∨ (x.start ≤ start ∧ stop ≤ x.stop))
    (hcap : x.start < start ∧ stop < x.stop → P.length + 1 + Q.length < size) :
    (deleteHit dup start stop P.length x ⟨size, P ++ x :: Q⟩).isSome = true := by
  have hh := (hits_iff start stop x).mp hx
  unfold deleteHit
  by_cases h1 : start ≤ x.start ∧ stop ≥ x.stop
  · obtain ⟨Q', hd, hp⟩ := deleteEntry_perm P Q x size
    simp [if_pos h1, hd]
  rw [if_neg h1]
  by_cases h2 : start = x.start ∧ stop < x.stop
  · rw [if_pos h2]; rfl
  rw [if_neg h2]
  by_cases h3 : stop = x.stop ∧ start > x.start
  · rw [if_pos h3]; rfl
  rw [if_neg h3, deleteSplit_eq dup P x hfd, if_pos ⟨hcap (by omega), by omega⟩]
  rfl

theorem deleteBody_miss {st : Int × IntervalMap} {e : IntervalMapEntry}
    (hget : st.2.entries.getD i default = e) (hx : hits start stop e = false) :
    deleteBody dup start stop i st = some st := by
  simp only [deleteBody, hget, hx, Bool.false_eq_true, if_false]

theorem deleteBody_hit {st : Int × IntervalMap} {e : IntervalMapEntry}
    (hget : st.2.entries.getD i default = e) (hx : hits start stop e = true) :
    deleteBody dup start stop i st =
      (deleteHit dup start stop i e st.2).map fun m => (st.1 + 1, m) := by
  simp only [deleteBody, hget, hx, if_true]

theorem deleteBody_spec (hanon : ∀ e ∈ l, e.fd < 0) (hi : i < l.length) {r : Int × IntervalMap}
    (hr : deleteBody dup start stop i (n, ⟨size, l.take (i + 1) ++ Q⟩) = some r) :
    ∃ Q', r.2 = ⟨size, l.take i ++ Q'⟩ ∧ Q'.Perm (pieces start stop l[i] ++ Q) ∧
      ¬ CutsRight start stop l[i] := by
  have hget := getD_entries hi Q
  cases hx : hits start stop l[i] with
  | false =>
      rw [deleteBody_miss dup hget hx, Option.some.injEq] at hr
      have hcut : ¬ CutsRight start stop l[i] := by
        have hh := hits_iff start stop l[i]
        simp only [hx, Bool.false_eq_true, false_iff] at hh
        unfold CutsRight
        omega
      exact ⟨l[i] :: Q, by rw [← hr, take_append_eq hi], by rw [pieces_miss hx]; exact .refl _, hcut⟩
  | true =>
      rw [deleteBody_hit dup hget hx] at hr
      obtain ⟨m, hm, rfl⟩ := Option.map_eq_some_iff.mp hr
      simp only [take_append_eq hi] at hm
      conv at hm => enter [1, 4]; rw [← length_take_of_lt hi]
      exact deleteHit_spec dup (l.take i) l[i] (hanon _ (List.getElem_mem hi)) hx hm

theorem deleteLoop_spec (hanon : ∀ e ∈ l, e.fd < 0) (hi : i ≤ l.length) {r : Int × IntervalMap}
    (hQ : Q.Perm ((l.drop i).flatMap (pieces start stop)))
    (hcut : ∀ e ∈ l.drop i, ¬ CutsRight start stop e)
    (hr : deleteLoop dup start stop i (n, ⟨size, l.take i ++ Q⟩) = some r) :
    r.2.memSize = size ∧ r.2.entries.Perm (l.flatMap (pieces start stop)) ∧
      ∀ e ∈ l, ¬ CutsRight start stop e := by
  induction i generalizing Q n with
  | zero =>
      rw [deleteLoop, Option.some.injEq] at hr
      subst hr
      exact ⟨rfl, by simpa using hQ, by simpa using hcut⟩
  | succ i ih =>
      rw [deleteLoop] at hr
      obtain ⟨⟨n', m'⟩, hb, hr⟩ := Option.bind_eq_some_iff.mp hr
      obtain ⟨Q', hm', hp, hc⟩ := deleteBody_spec dup hanon hi hb
      simp only at hm'
      subst hm'
      refine ih (by omega) ?_ ?_ hr
      · rw [List.drop_eq_getElem_cons hi, List.flatMap_cons]
        exact hp.trans (hQ.append_left _)
      · rw [List.drop_eq_getElem_cons hi]
        intro e he
        rcases List.mem_cons.mp he with rfl | he
        · exact hc
        · exact hcut e he

def Clean (start stop : Nat) (e : IntervalMapEntry) : Prop :=
  hits start stop e = true →
    (start ≤ e.start ∧ e.stop ≤ stop) ∨ (e.start ≤ start ∧ stop ≤ e.stop)

theorem pieces_of_inside (hl : l.Pairwise Apart) (hi : i < l.length)
    (hin : l[i].start < start ∧ stop < l[i].stop) :
    (l.drop (i + 1)).flatMap (pieces start stop) = l.drop (i + 1) := by
  have hmiss : ∀ e ∈ l.drop (i + 1), pieces start stop e = [e] := by
    intro e he
    have hap := apart_of_mem_drop hl hi he
    have hh := hits_iff start stop e
    apply pieces_miss
    rw [← Bool.not_eq_true, hh]
    unfold Apart at hap
    omega
  rw [List.flatMap_congr hmiss]
  exact List.flatMap_singleton' _

theorem deleteLoop_total (hl : l.Pairwise Apart) (hanon : ∀ e ∈ l, e.fd < 0)
    (hclean : ∀ e ∈ l, Clean start stop e)
    (hcap : (∃ e ∈ l, e.start < start ∧ stop < e.stop) → l.length < size)
    (hi : i ≤ l.length) (hQ : Q.Perm ((l.drop i).flatMap (pieces start stop))) :
    (deleteLoop dup start stop i (n, ⟨size, l.take i ++ Q⟩)).isSome = true := by
  induction i generalizing Q n with
  | zero => rfl
  | succ i ih =>
      have hmem := List.getElem_mem hi
      have hsome : (deleteBody dup start stop i (n, ⟨size, l.take (i + 1) ++ Q⟩)).isSome = true := by
        have hget := getD_entries hi Q
        cases hx : hits start stop l[i] with
        | false => rw [deleteBody_miss dup hget hx]; rfl
        | true =>
            rw [deleteBody_hit dup hget hx, Option.isSome_map]
            have hroom : l[i].start < start ∧ stop < l[i].stop → (l.take i).length + 1 + Q.length < size := by
              intro hin
              have hcap := hcap ⟨_, hmem, hin⟩
              have hlen := hQ.length_eq
              rw [pieces_of_inside hl hi hin, List.length_drop] at hlen
              rw [length_take_of_lt hi]
              omega
            have htotal := deleteHit_total dup (l.take i) l[i] (hanon _ hmem) hx (hclean _ hmem hx) hroom
            rw [length_take_of_lt hi] at htotal
            simpa only [take_append_eq hi] using htotal
      obtain ⟨⟨n', m'⟩, hb⟩ := Option.isSome_iff_exists.mp hsome
      obtain ⟨Q', hm', hp, -⟩ := deleteBody_spec dup hanon hi hb
      simp only at hm'
      subst hm'
      rw [deleteLoop, hb, Option.bind_some]
      apply ih (by omega)
      rw [List.drop_eq_getElem_cons hi, List.flatMap_cons]
      exact hp.trans (hQ.append_left _)

end Body

end Mambo.IntervalDelete
