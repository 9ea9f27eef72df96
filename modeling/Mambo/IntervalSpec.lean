import Mambo.IntervalDelete
import Mathlib.Data.List.Pairwise

namespace Mambo.IntervalSpec

open Intervals IntervalAdd IntervalDelete

inductive Op
  | add (start stop : Nat) (fd : Int)
  | delete (start stop : Nat)
  deriving DecidableEq, Repr

variable (dup : Int → Int)

def step (m : IntervalMap) : Op → Option (Int × IntervalMap)
  | .add start stop fd => intervalMapAdd dup m start stop fd
  | .delete start stop => intervalMapDelete dup m start stop

/-- The address set a call should leave behind. -/
def target (S : Set Nat) : Op → Set Nat
  | .add start stop _ => S ∪ { a | start ≤ a ∧ a < stop }
  | .delete start stop => S \ { a | start ≤ a ∧ a < stop }

/-- The call runs to its end, leaves a map in shape, has the effect it should
have on the covered addresses, and searching afterwards tells them apart. -/
def Correct (m : IntervalMap) (op : Op) (r : Int × IntervalMap) : Prop :=
  step dup m op = some r ∧ Valid r.2 ∧ covered r.2 = target (covered m) op ∧
    ∀ a, (intervalMapSearchByAddr r.2 a).1 = 1 ↔ a ∈ covered r.2

/-- The entry an add needs a new slot for, or the split a delete needs one for. -/
def NeedsSlot (m : IntervalMap) : Op → Prop
  | .add start stop _ => start < stop ∧ ∀ e ∈ m.entries, hits start stop e = false
  | .delete start stop => start < stop ∧ ∃ e ∈ m.entries, e.start < start ∧ stop < e.stop

/-- A hit that an add deletes when the merge target is no longer at overlap_ind. -/
def Lost (m : IntervalMap) (start stop : Nat) (e : IntervalMapEntry) : Prop :=
  e ∈ (hitsOf start stop m.entries).drop (room start stop m.entries)

/-- Where the code does what it should: an add may lose an entry only if the
added range contains it, and a delete never cuts an entry on one side only. -/
def Handled (m : IntervalMap) : Op → Prop
  | .add start stop _ => start < stop → ∀ e, Lost m start stop e → start ≤ e.start ∧ e.stop ≤ stop
  | .delete start stop => start < stop → ∀ e ∈ m.entries, Clean start stop e

theorem target_of_ge {start stop : Nat} (h : stop ≤ start) (S : Set Nat) (fd : Int) :
    target S (.add start stop fd) = S ∧ target S (.delete start stop) = S := by
  have hempty : ∀ a, ¬ (start ≤ a ∧ a < stop) := fun a ha => absurd (lt_of_le_of_lt ha.1 ha.2) (not_lt.mpr h)
  constructor
  · ext a
    simp only [target, Set.mem_union, Set.mem_ofPred_eq, hempty, or_false]
  · ext a
    simp only [target, Set.mem_sdiff, Set.mem_ofPred_eq, hempty, not_false_eq_true, and_true]

theorem searchLoop_isSome (l : List IntervalMapEntry) (a i : Nat) (hi : i ≤ l.length) :
    (searchLoop l a i).isSome = true ↔ ∃ e ∈ l.take i, Covers e a := by
  induction i with
  | zero => simp [searchLoop]
  | succ i ih =>
      have hget : l.getD i default = l[i] := by
        rw [List.getD_eq_getElem?_getD, List.getElem?_eq_getElem hi]; rfl
      rw [searchLoop, hget, List.take_succ_eq_append_getElem hi]
      simp only [List.mem_append, List.mem_singleton, or_and_right, exists_or, exists_eq_left]
      by_cases h : a ≥ l[i].start ∧ a < l[i].stop
      · simp [h, Covers]
      · rw [if_neg h, ih (by omega)]
        have : ¬ Covers l[i] a := h
        simp [this]

theorem search_iff (m : IntervalMap) (a : Nat) :
    (intervalMapSearchByAddr m a).1 = 1 ↔ a ∈ covered m := by
  have h := searchLoop_isSome m.entries a m.entries.length le_rfl
  rw [List.take_length] at h
  simp only [covered, Set.mem_ofPred_eq, ← h, intervalMapSearchByAddr]
  cases searchLoop m.entries a m.entries.length <;> simp

theorem covered_perm {m : IntervalMap} {l : List IntervalMapEntry} (h : m.entries.Perm l) (a : Nat) :
    a ∈ covered m ↔ ∃ e ∈ l, Covers e a := by
  simp only [covered, Set.mem_ofPred_eq, h.mem_iff]

theorem apart_iff {x y : IntervalMapEntry} (hx : x.start < x.stop) (hy : y.start < y.stop) :
    Apart x y ↔ ∀ a, Covers x a → ¬ Covers y a := by
  unfold Apart Covers
  constructor
  · intro h a; omega
  · intro h
    have h1 := h (max x.start y.start)
    omega

theorem apart_of_ne {m : IntervalMap} (hv : Valid m) {x y : IntervalMapEntry} (hx : x ∈ m.entries)
    (hy : y ∈ m.entries) (hne : x ≠ y) : Apart x y := by
  have : Std.Symm Apart := ⟨fun _ _ => apart_symm⟩
  exact hv.disjoint.forall hx hy hne

section Add

variable {dup} {m : IntervalMap} {start stop : Nat} {fd : Int}

theorem valid_fresh (hv : Valid m) (hlt : start < stop) (hno : hitsOf start stop m.entries = []) :
    Valid { m with entries := m.entries ++ [⟨start, stop, fd⟩] } := by
  constructor
  · intro e he
    rcases List.mem_append.mp he with he | he
    · exact hv.nonempty e he
    · rw [List.mem_singleton.mp he]; exact hlt
  · refine List.pairwise_append.mpr ⟨hv.disjoint, List.pairwise_singleton _ _, ?_⟩
    intro e he x hx
    rw [List.mem_singleton.mp hx]
    have hmiss : ¬ hits start stop e = true := fun h =>
      List.not_mem_nil (hno ▸ (mem_hitsOf start stop m.entries e).mpr ⟨he, h⟩)
    rw [hits_iff] at hmiss
    simp only [Apart]
    omega

theorem covered_fresh :
    covered { m with entries := m.entries ++ [⟨start, stop, fd⟩] } =
      target (covered m) (.add start stop fd) := by
  ext a
  simp [covered, target, Covers, or_and_right, exists_or]

/-- The part of a merged map that the range and the absorbed hits make up. -/
structure Merged (m : IntervalMap) (start stop : Nat) (T : IntervalMapEntry) : Prop where
  start_eq : T.start = hullStart start ((hitsOf start stop m.entries).take (room start stop m.entries))
  stop_eq : T.stop = hullStop stop ((hitsOf start stop m.entries).take (room start stop m.entries))

theorem Merged.covers {T : IntervalMapEntry} (hT : Merged m start stop T) (a : Nat) :
    Covers T a ↔ (start ≤ a ∧ a < stop) ∨
      ∃ e ∈ (hitsOf start stop m.entries).take (room start stop m.entries), Covers e a := by
  unfold Covers
  rw [hT.start_eq, hT.stop_eq]
  apply hull_covers
  intro e he
  exact (hits_iff start stop e).mp ((mem_hitsOf _ _ _ _).mp (List.mem_of_mem_take he)).2

theorem Merged.nonempty {T : IntervalMapEntry} (hT : Merged m start stop T) (hlt : start < stop) :
    T.start < T.stop := by
  have h := (hT.covers start).mpr (Or.inl ⟨le_rfl, hlt⟩)
  exact lt_of_le_of_lt h.1 h.2

theorem mem_missesOf {e : IntervalMapEntry} :
    e ∈ missesOf start stop m.entries ↔ e ∈ m.entries ∧ ¬ hits start stop e = true := by
  simp [missesOf]

theorem Merged.apart {T : IntervalMapEntry} (hT : Merged m start stop T) (hv : Valid m)
    (hlt : start < stop) {e : IntervalMapEntry} (he : e ∈ missesOf start stop m.entries) : Apart T e := by
  obtain ⟨hmem, hmiss⟩ := mem_missesOf.mp he
  refine (apart_iff (hT.nonempty hlt) (hv.nonempty e hmem)).mpr fun a hTa hea => ?_
  rcases (hT.covers a).mp hTa with h | ⟨x, hx, hxa⟩
  · apply hmiss
    rw [hits_iff]
    exact ⟨lt_of_le_of_lt h.1 hea.2, lt_of_le_of_lt hea.1 h.2⟩
  · obtain ⟨hxm, hxhit⟩ := (mem_hitsOf _ _ _ _).mp (List.mem_of_mem_take hx)
    have hne : x ≠ e := fun h => hmiss (h ▸ hxhit)
    exact (apart_iff (hv.nonempty x hxm) (hv.nonempty e hmem)).mp (apart_of_ne hv hxm hmem hne) a hxa hea

theorem valid_merged {T : IntervalMapEntry} {l : List IntervalMapEntry} (hv : Valid m) (hlt : start < stop)
    (hT : Merged m start stop T) (hl : l.Perm (T :: missesOf start stop m.entries)) :
    Valid ⟨m.memSize, l⟩ := by
  constructor
  · intro e he
    rcases List.mem_cons.mp (hl.mem_iff.mp he) with rfl | he
    · exact hT.nonempty hlt
    · exact hv.nonempty e (mem_missesOf.mp he).1
  · refine (hl.pairwise_iff (fun h => apart_symm h)).mpr (List.pairwise_cons.mpr ⟨?_, ?_⟩)
    · intro e he
      exact hT.apart hv hlt he
    · exact hv.disjoint.filter _

/-- What a merge leaves covered: everything but the lost hits outside the range. -/
theorem covered_merged {T : IntervalMapEntry} {l : List IntervalMapEntry} (hT : Merged m start stop T)
    (hl : l.Perm (T :: missesOf start stop m.entries)) (a : Nat) :
    a ∈ covered ⟨m.memSize, l⟩ ↔ (start ≤ a ∧ a < stop) ∨ ∃ e ∈ m.entries, Covers e a ∧
      (hits start stop e = true → e ∈ (hitsOf start stop m.entries).take (room start stop m.entries)) := by
  rw [covered_perm hl]
  simp only [List.mem_cons, exists_eq_or_imp, hT.covers, or_assoc]
  refine or_congr_right ?_
  constructor
  · rintro (⟨e, he, hea⟩ | ⟨e, he, hea⟩)
    · exact ⟨e, ((mem_hitsOf _ _ _ _).mp (List.mem_of_mem_take he)).1, hea, fun _ => he⟩
    · exact ⟨e, (mem_missesOf.mp he).1, hea, fun h => absurd h (mem_missesOf.mp he).2⟩
  · rintro ⟨e, he, hea, htake⟩
    by_cases h : hits start stop e = true
    · exact Or.inl ⟨e, htake h, hea⟩
    · exact Or.inr ⟨e, mem_missesOf.mpr ⟨he, h⟩, hea⟩

theorem hit_absorbed_or_lost (hv : Valid m) {e : IntervalMapEntry} (he : e ∈ m.entries)
    (hhit : hits start stop e = true) :
    (e ∈ (hitsOf start stop m.entries).take (room start stop m.entries) ↔ ¬ Lost m start stop e) := by
  have hmem := (mem_hitsOf start stop m.entries e).mpr ⟨he, hhit⟩
  have hnodup : (hitsOf start stop m.entries).Nodup := by
    refine List.Pairwise.filter _ (List.pairwise_reverse.mpr ?_)
    refine hv.disjoint.imp_of_mem fun {x y} hx _ hxy heq => ?_
    subst heq
    have := hv.nonempty _ hx
    unfold Apart at hxy
    omega
  rw [← List.take_append_drop (room start stop m.entries) (hitsOf start stop m.entries)] at hmem hnodup
  obtain ⟨-, -, hdisj⟩ := List.nodup_append.mp hnodup
  constructor
  · intro htake hlost
    exact hdisj e htake e hlost rfl
  · intro hlost
    exact (List.mem_append.mp hmem).resolve_right hlost

theorem covered_merged_eq {T : IntervalMapEntry} {l : List IntervalMapEntry} (hv : Valid m)
    (hlt : start < stop) (hT : Merged m start stop T)
    (hl : l.Perm (T :: missesOf start stop m.entries)) :
    covered ⟨m.memSize, l⟩ = target (covered m) (.add start stop fd) ↔ Handled m (.add start stop fd) := by
  simp only [Set.ext_iff, covered_merged hT hl, target, Set.mem_union, Set.mem_ofPred_eq, Handled]
  simp only [covered, Set.mem_ofPred_eq]
  constructor
  · intro heq _ e hlost
    obtain ⟨hmem, hhit⟩ := (mem_hitsOf _ _ _ _).mp (List.mem_of_mem_drop hlost)
    -- an end of a lost hit outside the range is covered by no other entry
    have hinside : ∀ a, Covers e a → start ≤ a ∧ a < stop := by
      intro a hea
      rcases (heq a).mpr (Or.inl ⟨e, hmem, hea⟩) with h | ⟨x, hx, hxa, htake⟩
      · exact h
      · by_cases hne : x = e
        · subst hne
          exact absurd hlost ((hit_absorbed_or_lost hv hmem hhit).mp (htake hhit))
        · exact absurd hea ((apart_iff (hv.nonempty x hx) (hv.nonempty e hmem)).mp
            (apart_of_ne hv hx hmem hne) a hxa)
    have hne := hv.nonempty e hmem
    have h1 := hinside e.start ⟨le_rfl, hne⟩
    have h2 := hinside (e.stop - 1) ⟨by omega, by omega⟩
    omega
  · intro hh a
    constructor
    · rintro (h | ⟨e, he, hea, -⟩)
      · exact Or.inr h
      · exact Or.inl ⟨e, he, hea⟩
    · rintro (⟨e, he, hea⟩ | h)
      · by_cases hlost : Lost m start stop e
        · have := hh hlt e hlost
          exact Or.inl ⟨le_trans this.1 hea.1, lt_of_lt_of_le hea.2 this.2⟩
        · exact Or.inr ⟨e, he, hea, fun h => (hit_absorbed_or_lost hv he h).mpr hlost⟩
      · exact Or.inl h

theorem addStep_handled (hv : Valid m) (ha : Anonymous m) (hfd : fd < 0)
    (hcap : NeedsSlot m (.add start stop fd) → m.entries.length < m.memSize)
    (hh : Handled m (.add start stop fd)) :
    ∃ r, Correct dup m (.add start stop fd) r ∧ Anonymous r.2 := by
  rcases Nat.lt_or_ge start stop with hlt | hge
  · by_cases hno : hitsOf start stop m.entries = []
    · have hneeds : NeedsSlot m (.add start stop fd) := by
        refine ⟨hlt, fun e he => Bool.eq_false_iff.mpr fun h => ?_⟩
        exact List.not_mem_nil (hno ▸ (mem_hitsOf _ _ _ _).mpr ⟨he, h⟩)
      refine ⟨_, ⟨intervalMapAdd_fresh dup hv ha hfd hlt (hcap hneeds) hno, valid_fresh hv hlt hno,
        covered_fresh, search_iff _⟩, ?_⟩
      intro e he
      rcases List.mem_append.mp he with he | he
      · exact ha e he
      · rw [List.mem_singleton.mp he]; exact hfd
    · obtain ⟨T, l, heq, hl, hTfd, hT1, hT2⟩ := intervalMapAdd_merge dup hv ha hfd hlt hno
      have hT : Merged m start stop T := ⟨hT1, hT2⟩
      refine ⟨_, ⟨heq, valid_merged hv hlt hT hl, (covered_merged_eq hv hlt hT hl).mpr hh, search_iff _⟩, ?_⟩
      intro e he
      rcases List.mem_cons.mp (hl.mem_iff.mp he) with rfl | he
      · exact hTfd
      · exact ha e (mem_missesOf.mp he).1
  · exact ⟨(-1, m), ⟨by simp [step, intervalMapAdd, hge], hv, (target_of_ge hge _ fd).1.symm,
      search_iff _⟩, ha⟩

theorem addStep_correct (hv : Valid m) (ha : Anonymous m) (hfd : fd < 0) {r : Int × IntervalMap}
    (hr : Correct dup m (.add start stop fd) r) : Handled m (.add start stop fd) := by
  intro hlt
  obtain ⟨hstep, -, hcov, -⟩ := hr
  by_cases hno : hitsOf start stop m.entries = []
  · intro e he
    rw [Lost, hno, List.drop_nil] at he
    exact absurd he List.not_mem_nil
  · obtain ⟨T, l, heq, hl, -, hT1, hT2⟩ := intervalMapAdd_merge dup hv ha hfd hlt hno
    have hr : r = (0, ⟨m.memSize, l⟩) := Option.some.inj (hstep.symm.trans heq)
    subst hr
    exact (covered_merged_eq hv hlt ⟨hT1, hT2⟩ hl).mp hcov hlt

end Add

section Delete

variable {dup} {m : IntervalMap} {start stop : Nat}

theorem clean_iff {e : IntervalMapEntry} :
    Clean start stop e ↔ ¬ CutsLeft start stop e ∧ ¬ CutsRight start stop e := by
  unfold Clean CutsLeft CutsRight
  rw [hits_iff]
  omega

theorem pieces_nonempty {e : IntervalMapEntry} (he : e.start < e.stop)
    (hclean : Clean start stop e) : ∀ y ∈ pieces start stop e, y.start < y.stop := by
  intro y hy
  cases hx : hits start stop e with
  | false =>
      rw [pieces_miss hx, List.mem_singleton] at hy
      exact hy ▸ he
  | true =>
      have hc := hclean hx
      have hh := (hits_iff start stop e).mp hx
      unfold pieces at hy
      rw [if_pos hx] at hy
      split_ifs at hy with h1 h2 h3
      · exact absurd hy List.not_mem_nil
      · rw [List.mem_singleton.mp hy]; exact h2.2
      · rw [List.mem_singleton.mp hy]; exact h3.2
      · simp only [List.mem_cons, List.not_mem_nil, or_false] at hy
        rcases hy with rfl | rfl <;> simp only <;> omega

theorem pieces_apart {e : IntervalMapEntry} (hlt : start < stop) : (pieces start stop e).Pairwise Apart := by
  unfold pieces
  split_ifs <;> simp [Apart, hlt.le]

theorem pieces_inverted {e : IntervalMapEntry} (h : CutsLeft start stop e) :
    { e with stop := start } ∈ pieces start stop e := by
  obtain ⟨h1, h2, h3⟩ := h
  have hx : hits start stop e = true := (hits_iff start stop e).mpr ⟨by omega, h2⟩
  rw [pieces, if_pos hx, if_neg (by omega), if_neg (by omega), if_neg (by omega)]
  exact List.mem_cons_self

theorem covered_pieces {l : List IntervalMapEntry} (hlt : start < stop)
    (hl : l.Perm (m.entries.flatMap (pieces start stop))) :
    covered ⟨m.memSize, l⟩ = target (covered m) (.delete start stop) := by
  ext a
  rw [covered_perm hl]
  simp only [target, covered, Set.mem_sdiff, Set.mem_ofPred_eq, List.mem_flatMap]
  constructor
  · rintro ⟨y, ⟨e, he, hy⟩, hya⟩
    obtain ⟨h1, h2⟩ := (pieces_covers hlt a).mp ⟨y, hy, hya⟩
    exact ⟨⟨e, he, h1⟩, h2⟩
  · rintro ⟨⟨e, he, hea⟩, hout⟩
    obtain ⟨y, hy, hya⟩ := (pieces_covers hlt a).mpr ⟨hea, hout⟩
    exact ⟨y, ⟨e, he, hy⟩, hya⟩

theorem valid_pieces {l : List IntervalMapEntry} (hv : Valid m) (hlt : start < stop)
    (hclean : ∀ e ∈ m.entries, Clean start stop e)
    (hl : l.Perm (m.entries.flatMap (pieces start stop))) : Valid ⟨m.memSize, l⟩ := by
  have hne : ∀ e ∈ m.entries, ∀ y ∈ pieces start stop e, y.start < y.stop := fun e he =>
    pieces_nonempty (hv.nonempty e he) (hclean e he)
  constructor
  · intro y hy
    obtain ⟨e, he, hy⟩ := List.mem_flatMap.mp (hl.mem_iff.mp hy)
    exact hne e he y hy
  · refine (hl.pairwise_iff (fun h => apart_symm h)).mpr (List.pairwise_flatMap.mpr ⟨?_, ?_⟩)
    · intro e _
      exact pieces_apart hlt
    · refine hv.disjoint.imp_of_mem fun {x z} hx hz hxz y hy w hw => ?_
      refine (apart_iff (hne x hx y hy) (hne z hz w hw)).mpr fun a hya hwa => ?_
      have hxa := ((pieces_covers hlt a).mp ⟨y, hy, hya⟩).1
      have hza := ((pieces_covers hlt a).mp ⟨w, hw, hwa⟩).1
      exact (apart_iff (hv.nonempty x hx) (hv.nonempty z hz)).mp hxz a hxa hza

theorem pieces_fd {e y : IntervalMapEntry} (hy : y ∈ pieces start stop e) : y.fd = e.fd := by
  unfold pieces at hy
  split_ifs at hy <;> simp only [List.mem_cons, List.not_mem_nil, or_false] at hy
  · rw [hy]
  · rw [hy]
  · rcases hy with rfl | rfl <;> rfl
  · rw [hy]

theorem delete_eq (hlt : start < stop) :
    intervalMapDelete dup m start stop =
      deleteLoop dup start stop m.entries.length
        (0, ⟨m.memSize, m.entries.take m.entries.length ++ []⟩) := by
  rw [intervalMapDelete, if_neg (by omega), List.take_length, List.append_nil]

theorem delete_spec (ha : Anonymous m) (hlt : start < stop) {r : Int × IntervalMap}
    (hr : intervalMapDelete dup m start stop = some r) :
    r.2.memSize = m.memSize ∧ r.2.entries.Perm (m.entries.flatMap (pieces start stop)) ∧
      ∀ e ∈ m.entries, ¬ CutsRight start stop e := by
  rw [delete_eq hlt] at hr
  exact deleteLoop_spec dup ha le_rfl (by simp) (by simp) hr

theorem deleteStep_handled (hv : Valid m) (ha : Anonymous m)
    (hcap : NeedsSlot m (.delete start stop) → m.entries.length < m.memSize)
    (hh : Handled m (.delete start stop)) :
    ∃ r, Correct dup m (.delete start stop) r ∧ Anonymous r.2 := by
  rcases Nat.lt_or_ge start stop with hlt | hge
  · have htotal : (intervalMapDelete dup m start stop).isSome = true := by
      rw [delete_eq hlt]
      exact deleteLoop_total dup hv.disjoint ha (hh hlt) (fun h => hcap ⟨hlt, h⟩) le_rfl (by simp)
    obtain ⟨r, hr⟩ := Option.isSome_iff_exists.mp htotal
    obtain ⟨hsize, hperm, -⟩ := delete_spec ha hlt hr
    have hr2 : r.2 = ⟨m.memSize, r.2.entries⟩ := IntervalMap.ext hsize rfl
    refine ⟨r, ⟨hr, ?_, ?_, search_iff _⟩, ?_⟩
    · rw [hr2]; exact valid_pieces hv hlt (hh hlt) hperm
    · rw [hr2]; exact covered_pieces hlt hperm
    · intro y hy
      obtain ⟨e, he, hy⟩ := List.mem_flatMap.mp (hperm.mem_iff.mp hy)
      rw [pieces_fd hy]
      exact ha e he
  · exact ⟨(-1, m), ⟨by simp [step, intervalMapDelete, hge], hv, (target_of_ge hge _ 0).2.symm,
      search_iff _⟩, ha⟩

theorem deleteStep_correct (hv : Valid m) (ha : Anonymous m) {r : Int × IntervalMap}
    (hr : Correct dup m (.delete start stop) r) : Handled m (.delete start stop) := by
  intro hlt e he
  obtain ⟨hstep, hvalid, -, -⟩ := hr
  obtain ⟨-, hperm, hright⟩ := delete_spec ha hlt hstep
  refine clean_iff.mpr ⟨fun hleft => ?_, hright e he⟩
  have hbad := hvalid.nonempty _ (hperm.mem_iff.mpr (List.mem_flatMap.mpr ⟨e, he, pieces_inverted hleft⟩))
  have hne := hv.nonempty e he
  unfold CutsLeft at hleft
  simp only at hbad
  omega

end Delete

end Mambo.IntervalSpec
