import Mambo.FastTrackDjit

namespace Mambo.DjitRaces

open RaceDetector RaceIndices RaceNames VectorClocks HappensBefore FastTrackDjit

section Race

variable {T L X : Type*}

/-- Two accesses to one variable by different threads, not both reads, neither of
which happens before the other. -/
def Race (tr : List (Event T L (Bool × X))) : Prop :=
  ∃ i j u t b c x, tr[i]? = some (.access u (b, x)) ∧ tr[j]? = some (.access t (c, x)) ∧ u ≠ t ∧
    (b = false ∨ c = false) ∧ ¬ HB tr i j ∧ ¬ HB tr j i

theorem race_iff (tr : List (Event T L (Bool × X))) :
    Race tr ↔ ∃ i j u t b c x, i < j ∧ tr[i]? = some (.access u (b, x)) ∧
      tr[j]? = some (.access t (c, x)) ∧ u ≠ t ∧ (b = false ∨ c = false) ∧ ¬ HB tr i j := by
  constructor
  · rintro ⟨i, j, u, t, b, c, x, hi, hj, hut, hbc, hij, hji⟩
    rcases lt_trichotomy i j with hlt | rfl | hlt
    · exact ⟨i, j, u, t, b, c, x, hlt, hi, hj, hut, hbc, hij⟩
    · exact absurd (Event.access.inj (Option.some.inj (hi.symm.trans hj))).1 hut
    · exact ⟨j, i, t, u, c, b, x, hlt, hj, hi, hut.symm, hbc.symm, hji⟩
  · rintro ⟨i, j, u, t, b, c, x, hlt, hi, hj, hut, hbc, hij⟩
    exact ⟨i, j, u, t, b, c, x, hi, hj, hut, hbc, hij, fun hji => lt_asymm hlt hji.lt⟩

variable {T' L' X' : Type*} {f : T → T'} {g : L → L'} {v : X → X'}

theorem rename_eq_access {e : Event T L (Bool × X)} {u' : T'} {b : Bool} {x' : X'}
    (h : rename f g (fun p => (p.1, v p.2)) e = .access u' (b, x')) :
    ∃ u x, e = .access u (b, x) ∧ f u = u' ∧ v x = x' := by
  cases e with
  | access u p =>
      obtain ⟨c, x⟩ := p
      obtain ⟨hu, hp⟩ := Event.access.inj h
      obtain ⟨rfl, hx⟩ := Prod.mk.inj hp
      exact ⟨u, x, rfl, hu, hx⟩
  | fork | join | acquire | release => exact absurd h (by simp [rename])

theorem race_rename (tr : List (Event T L (Bool × X))) (hf : Set.InjOn f { t | ∃ e ∈ tr, t ∈ threads e })
    (hg : Set.InjOn g { l | ∃ e ∈ tr, l ∈ locks e })
    (hv : Set.InjOn v { x | ∃ e ∈ tr, ∃ t b, e = .access t (b, x) }) :
    Race (tr.map (rename f g fun p => (p.1, v p.2))) ↔ Race tr := by
  simp only [Race, hb_rename tr hf hg, List.getElem?_map, Option.map_eq_some_iff]
  constructor
  · rintro ⟨i, j, _, _, b, c, _, ⟨e, hi, he⟩, ⟨e', hj, he'⟩, hne, hbc, hij, hji⟩
    obtain ⟨u, x, rfl, rfl, rfl⟩ := rename_eq_access he
    obtain ⟨t, x', rfl, rfl, hx⟩ := rename_eq_access he'
    have hmi := List.mem_of_getElem? hi
    have hmj := List.mem_of_getElem? hj
    obtain rfl := hv ⟨_, hmj, t, c, rfl⟩ ⟨_, hmi, u, b, rfl⟩ hx
    exact ⟨i, j, u, t, b, c, x', hi, hj, fun h => hne (h ▸ rfl), hbc, hij, hji⟩
  · rintro ⟨i, j, u, t, b, c, x, hi, hj, hne, hbc, hij, hji⟩
    have hmi := List.mem_of_getElem? hi
    have hmj := List.mem_of_getElem? hj
    refine ⟨i, j, f u, f t, b, c, v x, ⟨_, hi, rfl⟩, ⟨_, hj, rfl⟩, fun h => hne ?_, hbc, hij, hji⟩
    exact hf ⟨_, hmi, by simp [threads]⟩ ⟨_, hmj, by simp [threads]⟩ h

end Race

section History

/-- The clocks that a variable keeps of its reads or of its writes. -/
def kept (v : djit.Var) (load : Bool) : VectorClock := if load then DjitVar.rx v else DjitVar.wx v

/-- An access passes when its thread knows all the accesses it is checked against. -/
def Passes (a : Abs djit) (t : Fin vcInitialSz) (c : Bool) (x : Nat) : Prop :=
  ∀ b, (b = false ∨ c = false) → ∀ u, kept (a.vars x) b u ≤ a.clocks (.inl t) u

theorem readIsRaceFree_iff (a : Abs djit) (t : Fin vcInitialSz) (x : Nat) :
    DjitVar.readIsRaceFree (a.vars x) (a.clocks (.inl t)) = true ↔ Passes a t true x := by
  refine (happensBefore_iff _ _).trans ⟨?_, fun h => h false (Or.inl rfl)⟩
  rintro h b (rfl | hb)
  · exact h
  · exact absurd hb (by simp)

theorem writeIsRaceFree_iff (a : Abs djit) (t : Fin vcInitialSz) (x : Nat) :
    DjitVar.writeIsRaceFree (a.vars x) (a.clocks (.inl t)) = true ↔ Passes a t false x := by
  refine (Bool.and_eq_true_iff.trans (and_congr (happensBefore_iff _ _) (happensBefore_iff _ _))).trans
    ⟨?_, fun h => ⟨h false (Or.inl rfl), h true (Or.inr rfl)⟩⟩
  rintro ⟨hw, hr⟩ b -
  cases b
  · exact hw
  · exact hr

theorem kept_update {a : Abs djit} {x : Nat} {v : djit.Var} (y : Nat) (b : Bool) :
    kept (Function.update a.vars x v y) b = if y = x then kept v b else kept (a.vars y) b := by
  by_cases hy : y = x
  · subst hy
    rw [Function.update_self, if_pos rfl]
  · rw [Function.update_of_ne hy, if_neg hy]

/-- An access that passes is recorded; one that does not leaves everything as it was. -/
theorem djit_step (a : Abs djit) (t : Fin vcInitialSz) (c : Bool) (x : Nat) :
    Passes a t c x ∧ (a.step (.access t (c, x))).1 = some true ∧
        (∀ y b u, kept ((a.step (.access t (c, x))).2.vars y) b u =
          if y = x ∧ b = c ∧ u = t then a.clocks (.inl t) t else kept (a.vars y) b u) ∨
      ¬ Passes a t c x ∧ (a.step (.access t (c, x))).1 = some false ∧
        ∀ y b u, kept ((a.step (.access t (c, x))).2.vars y) b u = kept (a.vars y) b u := by
  have hpass : ∀ v : djit.Var, (∀ b u, kept v b u = if b = c ∧ u = t then a.clocks (.inl t) t
        else kept (a.vars x) b u) → ∀ y b u, kept (Function.update a.vars x v y) b u =
          if y = x ∧ b = c ∧ u = t then a.clocks (.inl t) t else kept (a.vars y) b u := by
    intro v hv y b u
    rw [kept_update]
    by_cases hy : y = x
    · subst hy
      simp only [if_true, true_and, hv]
    · simp only [hy, if_false, false_and]
  have hfail : ∀ y b u, kept (Function.update a.vars x (a.vars x) y) b u = kept (a.vars y) b u := by
    intro y b u
    rw [Function.update_eq_self]
  cases c with
  | true =>
      rw [Abs.step_read, ← readIsRaceFree_iff]
      by_cases h : DjitVar.readIsRaceFree (a.vars x) (a.clocks (.inl t)) = true
      · have hupd : djit.variableUpdateRead (a.vars x) ⟨t, a.clocks (.inl t)⟩ = (true,
            ⟨Function.update (DjitVar.rx (a.vars x)) t (a.clocks (.inl t) t), DjitVar.wx (a.vars x)⟩) := if_pos h
        rw [hupd]
        refine Or.inl ⟨h, rfl, hpass _ fun b u => ?_⟩
        cases b <;> simp [kept, Function.update_apply]
      · have hupd : djit.variableUpdateRead (a.vars x) ⟨t, a.clocks (.inl t)⟩ = (false, a.vars x) := if_neg h
        rw [hupd]
        exact Or.inr ⟨h, rfl, hfail⟩
  | false =>
      rw [Abs.step_write, ← writeIsRaceFree_iff]
      by_cases h : DjitVar.writeIsRaceFree (a.vars x) (a.clocks (.inl t)) = true
      · have hupd : djit.variableUpdateWrite (a.vars x) ⟨t, a.clocks (.inl t)⟩ = (true,
            ⟨DjitVar.rx (a.vars x), Function.update (DjitVar.wx (a.vars x)) t (a.clocks (.inl t) t)⟩) := if_pos h
        rw [hupd]
        refine Or.inl ⟨h, rfl, hpass _ fun b u => ?_⟩
        cases b <;> simp [kept, Function.update_apply]
      · have hupd : djit.variableUpdateWrite (a.vars x) ⟨t, a.clocks (.inl t)⟩ = (false, a.vars x) := if_neg h
        rw [hupd]
        exact Or.inr ⟨h, rfl, hfail⟩

variable (tr : List IndexEvent)

def djitAt (n : Nat) : Abs djit := stateAt (Abs.start djit) tr n

theorem djitAt_clocks (h : Below tr intMax) (n : Nat) : (djitAt tr n).clocks = clocksAt tr n :=
  stateAt_clocks tr h n

def keptAt (n : Nat) (x : Nat) (b : Bool) (u : Fin vcInitialSz) : Int := kept ((djitAt tr n).vars x) b u

def tickAt (i : Nat) (u : Fin vcInitialSz) : Int := clocksAt tr i (.inl u) u

theorem keptAt_succ (h : Below tr intMax) {n : Nat} {e : IndexEvent} (hn : tr[n]? = some e) (y : Nat) (b : Bool)
    (u : Fin vcInitialSz) :
    keptAt tr (n + 1) y b u = keptAt tr n y b u ∨
      e = .access u (b, y) ∧ Passes (djitAt tr n) u b y ∧ keptAt tr (n + 1) y b u = tickAt tr n u := by
  have hsucc : djitAt tr (n + 1) = ((djitAt tr n).step e).2 := stateAt_succ tr hn
  rw [keptAt, hsucc]
  cases e with
  | access t p =>
      obtain ⟨c, x⟩ := p
      rcases djit_step (djitAt tr n) t c x with ⟨hp, -, hk⟩ | ⟨-, -, hk⟩
      · rw [hk]
        by_cases hyx : y = x ∧ b = c ∧ u = t
        · rw [if_pos hyx]
          obtain ⟨rfl, rfl, rfl⟩ := hyx
          exact Or.inr ⟨rfl, hp, by rw [djitAt_clocks tr h, tickAt]⟩
        · rw [if_neg hyx]
          exact Or.inl rfl
      · exact Or.inl (hk y b u)
  | fork | join | acquire | release => exact Or.inl rfl

theorem keptAt_access (h : Below tr intMax) {n : Nat} (hn : n ≤ tr.length) (x : Nat) (b : Bool) (u : Fin vcInitialSz) :
    keptAt tr n x b u = 0 ∨ ∃ i, i < n ∧ tr[i]? = some (.access u (b, x)) ∧
      keptAt tr n x b u = tickAt tr i u := by
  induction n with
  | zero =>
      left
      cases b <;> rfl
  | succ n ih =>
      rcases keptAt_succ tr h (List.getElem?_eq_getElem hn) x b u with heq | ⟨he, -, heq⟩
      · rw [heq]
        exact (ih (Nat.le_of_succ_le hn)).imp_right fun ⟨i, hi, heq⟩ => ⟨i, hi.trans (Nat.lt_succ_self n), heq⟩
      · exact Or.inr ⟨n, Nat.lt_succ_self n, by rw [List.getElem?_eq_getElem hn, he], heq⟩

def Reports (n : Nat) : Prop := ∃ t c x, tr[n]? = some (.access t (c, x)) ∧ ¬ Passes (djitAt tr n) t c x

theorem tickAt_mono {i n : Nat} (h : i ≤ n) (u : Fin vcInitialSz) : tickAt tr i u ≤ tickAt tr n u := by
  induction n, h using Nat.le_induction with
  | base => exact le_rfl
  | succ n _ ih =>
      refine ih.trans ?_
      cases hn : tr[n]? with
      | none => rw [tickAt, tickAt, clocksAt, hn]
      | some e =>
          rw [tickAt, tickAt, clocksAt_succ tr hn]
          exact le_apply _ _ _ _

/-- While nothing is reported, what is kept of a thread is no older than any of
its accesses. -/
theorem tickAt_le_keptAt (h : Below tr intMax) {n : Nat} (hn : n ≤ tr.length) (hquiet : ∀ i, i < n → ¬ Reports tr i) {i x : Nat}
    {b : Bool} {u : Fin vcInitialSz} (hin : i < n) (hi : tr[i]? = some (.access u (b, x))) :
    tickAt tr i u ≤ keptAt tr n x b u := by
  induction n with
  | zero => exact absurd hin (Nat.not_lt_zero i)
  | succ n ih =>
      have he := List.getElem?_eq_getElem hn
      rcases Nat.lt_succ_iff_lt_or_eq.mp hin with hlt | rfl
      · have hle := ih (Nat.le_of_succ_le hn) (fun k hk => hquiet k (hk.trans (Nat.lt_succ_self n))) hlt
        rcases keptAt_succ tr h he x b u with heq | ⟨-, -, heq⟩
        · rwa [heq]
        · rw [heq]
          exact tickAt_mono tr hlt.le u
      · have hpass : Passes (djitAt tr i) u b x := by
          by_contra hp
          exact hquiet i (Nat.lt_succ_self i) ⟨u, b, x, hi, hp⟩
        have hsucc : djitAt tr (i + 1) = ((djitAt tr i).step (.access u (b, x))).2 := stateAt_succ tr hi
        rcases djit_step (djitAt tr i) u b x with ⟨-, -, hk⟩ | ⟨hp, -⟩
        · rw [keptAt, hsucc, hk, if_pos ⟨rfl, rfl, rfl⟩, djitAt_clocks tr h, tickAt]
        · exact absurd hpass hp

theorem reports_iff_race (h : Below tr intMax) : (∃ n, Reports tr n) ↔ Race tr := by
  rw [race_iff]
  constructor
  · rintro ⟨n, t, c, x, hn, hp⟩
    have hlen := (List.getElem?_eq_some_iff.mp hn).1
    simp only [Passes, not_forall, not_le] at hp
    obtain ⟨b, hbc, u, hlt⟩ := hp
    rw [djitAt_clocks tr h] at hlt
    rcases keptAt_access tr h hlen.le x b u with h0 | ⟨i, hin, hi, heq⟩
    · exact absurd hlt (by rw [← keptAt, h0]; exact not_lt.mpr (nonneg_clocksAt tr n _ _))
    · rw [← keptAt, heq] at hlt
      have hnot : ¬ HB tr i n := fun hb => absurd ((hb_iff_clock tr hi hn hin).mp hb) (not_le.mpr hlt)
      have hut : u ≠ t := by
        rintro rfl
        exact hnot (Relation.TransGen.single (.programOrder hin hi hn rfl))
      exact ⟨i, n, u, t, b, c, x, hin, hi, hn, hut, hbc, hnot⟩
  · rintro ⟨i, j, u, t, b, c, x, hij, hi, hj, -, hbc, hnot⟩
    by_contra hquiet
    have hlen := (List.getElem?_eq_some_iff.mp hj).1
    have hle := tickAt_le_keptAt tr h hlen.le (fun k _ hk => hquiet ⟨k, hk⟩) hij hi
    have hpass : Passes (djitAt tr j) t c x := by
      by_contra hp
      exact hquiet ⟨j, t, c, x, hj, hp⟩
    have hknow := hpass b hbc u
    rw [djitAt_clocks tr h] at hknow
    exact hnot ((hb_iff_clock tr hi hj hij).mpr (hle.trans hknow))

theorem mem_verdicts_iff : some false ∈ (Abs.start djit).verdicts tr ↔ ∃ n, Reports tr n := by
  rw [List.mem_iff_getElem?]
  refine exists_congr fun n => ?_
  rw [verdicts_getElem, Option.map_eq_some_iff]
  constructor
  · rintro ⟨e, he, hv⟩
    cases e with
    | access t p =>
        obtain ⟨c, x⟩ := p
        rcases djit_step (djitAt tr n) t c x with ⟨-, h1, -⟩ | ⟨hp, -⟩
        · exact absurd (h1.symm.trans hv) (by simp)
        · exact ⟨t, c, x, he, hp⟩
    | fork | join | acquire | release => exact absurd hv (by simp [Abs.step])
  · rintro ⟨t, c, x, he, hp⟩
    rcases djit_step (djitAt tr n) t c x with ⟨hp', -⟩ | ⟨-, h1, -⟩
    · exact absurd hp' hp
    · exact ⟨_, he, h1⟩

end History

/-- On a supported trace in which no clock overflows the detector reports a race
exactly when the trace has one by the happens-before order. -/
theorem djit_reports_races (es : List TraceEvent) (h : Supported es) (hcount : Counted es) :
    ∃ vs, verdicts djit es = some vs ∧ (some false ∈ vs ↔ Race (es.map event)) := by
  obtain ⟨m, hres, hthread, hlock, hvar⟩ := h.naming
  have hmap : es.map m.index =
      (es.map event).map (rename m.thread m.lock fun p => (p.1, m.var p.2)) := by
    rw [List.map_map]
    rfl
  refine ⟨(Abs.start djit).verdicts (es.map m.index), ?_, ?_⟩
  · rw [verdicts_eq, hres, Option.map_some]
  · rw [mem_verdicts_iff, reports_iff_race _ (hcount.below hthread), hmap]
    refine race_rename _ (hthread.mono ?_) (hlock.mono ?_) (hvar.mono ?_)
    · rintro t ⟨e', he', ht⟩
      obtain ⟨e, he, rfl⟩ := List.mem_map.mp he'
      exact ⟨e, he, ht⟩
    · rintro l ⟨e', he', hl⟩
      obtain ⟨e, he, rfl⟩ := List.mem_map.mp he'
      exact ⟨e, he, hl⟩
    · rintro x ⟨e', he', t, b, hx⟩
      obtain ⟨e, he, rfl⟩ := List.mem_map.mp he'
      exact ⟨e, he, t, b, hx⟩

theorem djit_reports_races_locked :
    let es := [TraceEvent.fork 0 1, .fork 1 2, .lock 1 8, .write 1 16, .unlock 1 8, .lock 2 8, .read 2 16,
      .unlock 2 8, .join 1 2]
    ∃ vs, verdicts djit es = some vs ∧ (some false ∈ vs ↔ Race (es.map event)) :=
  djit_reports_races _ ⟨by decide, by decide, by decide⟩ fun tid =>
    lt_of_le_of_lt (Int.ofNat_le.mpr List.count_le_length) (by decide)

/-- A trace with one access, on which the detector reports a race. -/
theorem overflow_reported :
    let es := lockedThenRead (2 ^ 31 - 3)
    Supported es ∧ ¬ Race (es.map event) ∧ ∃ vs, verdicts djit es = some vs ∧ some false ∈ vs := by
  have hk : 2 + ((2 ^ 31 - 3 : Nat) : Int) = intMax := by decide
  refine ⟨supported_lockedThenRead _, ?_, ?_⟩
  · rintro ⟨i, j, u, t, b, c, x, hi, hj, hne, -⟩
    have haccess : ∀ v p, Event.access v p ∈ (lockedThenRead (2 ^ 31 - 3)).map event → v = 2 := by
      intro v p hmem
      obtain ⟨e, he, heq⟩ := List.mem_map.mp hmem
      rcases mem_lockedThenRead he with rfl | rfl | rfl | rfl | rfl <;> simp_all [event]
    exact hne ((haccess u _ (List.mem_of_getElem? hi)).trans (haccess t _ (List.mem_of_getElem? hj)).symm)
  · obtain ⟨vs, vc, hvs, hvc, -⟩ := verdicts_lockedThenRead djit hk
    refine ⟨_, hvs, List.mem_append_right _ (List.mem_singleton.mpr ?_)⟩
    have hneg : vc ⟨1, by decide⟩ < 0 := by rw [hvc]; decide
    rw [djit_reports_overflow rfl _ hneg]

end Mambo.DjitRaces
