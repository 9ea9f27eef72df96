import Mambo.RaceNames

namespace Mambo.FastTrackDjit

open RaceDetector RaceIndices RaceNames VectorClocks HappensBefore

variable {K : Clocks (Fin vcInitialSz) Nat} {rx wx vc : VectorClock} {t : Fin vcInitialSz}

theorem happensBefore_iff (v w : VectorClock) : vectorClockHappensBefore v w = true ↔ ∀ i, v i ≤ w i := by
  simp [vectorClockHappensBefore]

/-- Knowing the ticks in vc comes with knowing those in rx. -/
structure Summary (K : Clocks (Fin vcInitialSz) Nat) (rx vc : VectorClock) : Prop where
  nonneg : ∀ u, 0 ≤ vc u
  le : ∀ u, vc u ≤ rx u
  own : ∀ t, rx t ≤ K (.inl t) t
  reach : ∀ v, ∃ u, Implies K u (vc u) v (rx v)

theorem Summary.le_iff (h : Summary K rx vc) (node : Fin vcInitialSz ⊕ Nat) :
    (∀ i, vc i ≤ K node i) ↔ ∀ i, rx i ≤ K node i := by
  constructor
  · intro hvc i
    obtain ⟨u, hu⟩ := h.reach i
    exact hu.imp node (hvc u)
  · intro hrx i
    exact (h.le i).trans (hrx i)

theorem Summary.apply (h : Summary K rx vc) (m : Move (Fin vcInitialSz) Nat) : Summary (m.apply Int.succ K) rx vc := by
  refine ⟨h.nonneg, h.le, fun s => (h.own s).trans (le_apply K m _ _), fun v => ?_⟩
  obtain ⟨u, hu⟩ := h.reach v
  exact ⟨u, hu.apply m⟩

theorem Summary.own_nonneg (h : Summary K rx vc) (t : Fin vcInitialSz) : 0 ≤ K (.inl t) t :=
  (h.nonneg t).trans ((h.le t).trans (h.own t))

theorem summary_zero (hK : ∀ node u, 0 ≤ K node u) : Summary K vectorClockInit vectorClockInit :=
  ⟨fun _ => le_rfl, fun _ => le_rfl, fun _ => hK _ _, fun v => ⟨v, hK _ _, fun node _ => hK node v⟩⟩

theorem Summary.record (h : Summary K rx vc) (t : Fin vcInitialSz) :
    Summary K (Function.update rx t (K (.inl t) t)) (Function.update vc t (K (.inl t) t)) := by
  refine ⟨fun u => ?_, fun u => ?_, fun s => ?_, fun v => ?_⟩
  · by_cases hu : u = t
    · subst hu
      simpa using h.own_nonneg u
    · simpa [hu] using h.nonneg u
  · by_cases hu : u = t
    · subst hu; simp
    · simpa [hu] using h.le u
  · by_cases hs : s = t
    · subst hs; simp
    · simpa [hs] using h.own s
  · by_cases hv : v = t
    · subst hv
      exact ⟨v, by simp, fun node hn => by simpa using hn⟩
    · obtain ⟨u, hu⟩ := h.reach v
      rw [Function.update_of_ne hv]
      by_cases hut : u = t
      · subst hut
        -- the new tick of u is no earlier than the one it replaces
        have hle : vc u ≤ K (.inl u) u := (h.le u).trans (h.own u)
        exact ⟨u, by simp, fun node hn => hu.imp node (hle.trans (by simpa using hn))⟩
      · exact ⟨u, by rwa [Function.update_of_ne hut]⟩

/-- Thread t knows all of rx, so its own tick stands for it. -/
theorem Summary.reset (h : Summary K rx vc) (hK : Ahead K) (hle : ∀ i, rx i ≤ K (.inl t) i) :
    Summary K (Function.update rx t (K (.inl t) t)) (Function.update vectorClockInit t (K (.inl t) t)) := by
  refine ⟨fun u => ?_, fun u => ?_, (h.record t).own, fun v => ⟨t, by simp, fun node hn => ?_⟩⟩
  · by_cases hu : u = t
    · subst hu
      simpa using h.own_nonneg u
    · simp [hu, vectorClockInit]
  · by_cases hu : u = t
    · subst hu; simp
    · simpa [hu, vectorClockInit] using (h.nonneg u).trans (h.le u)
  · obtain rfl := hK.eq_of_le (by simpa using hn)
    by_cases hv : v = t
    · subst hv; simp
    · simpa [hv] using hle v

def epochVc (e : Epoch) : VectorClock := Function.update vectorClockInit e.threadIdx e.clock

theorem epochHappensBefore_iff (e : Epoch) {v : VectorClock} (hv : ∀ i, 0 ≤ v i) :
    epochHappensBeforeVc e v = true ↔ ∀ i, epochVc e i ≤ v i := by
  have hle : epochHappensBeforeVc e v = true ↔ e.clock ≤ v e.threadIdx := decide_eq_true_iff
  rw [hle]
  constructor
  · intro h i
    by_cases hi : i = e.threadIdx
    · subst hi
      simpa [epochVc] using h
    · simpa [epochVc, hi, vectorClockInit] using hv i
  · intro h
    simpa [epochVc] using h e.threadIdx

/-- While a thread is in the tick of its last x, it knows all of y. -/
def Settled (K : Clocks (Fin vcInitialSz) Nat) (x y : VectorClock) : Prop :=
  ∀ t, x t = K (.inl t) t → ∀ u, y u ≤ K (.inl t) u

theorem Settled.apply {x y : VectorClock} (h : Settled K x y) (hx : ∀ t, x t ≤ K (.inl t) t)
    (m : Move (Fin vcInitialSz) Nat) : Settled (m.apply Int.succ K) x y := by
  intro t ht u
  have hle := le_apply K m (.inl t) t
  have heq : x t = K (.inl t) t := le_antisymm (hx t) (ht ▸ hle)
  exact (h t heq u).trans (le_apply K m _ _)

theorem Settled.left {x y : VectorClock} (h : Settled K x y) (hy : ∀ u, y u ≤ K (.inl t) u) :
    Settled K (Function.update x t (K (.inl t) t)) y := by
  intro s hs u
  by_cases hst : s = t
  · subst hst
    exact hy u
  · rw [Function.update_of_ne hst] at hs
    exact h s hs u

theorem Settled.right {x y : VectorClock} (h : Settled K x y) (hK : Ahead K)
    (hx : ∀ u, x u ≤ K (.inl t) u) : Settled K x (Function.update y t (K (.inl t) t)) := by
  intro s hs u
  have hst : t = s := by
    have hle := hx s
    rw [hs] at hle
    exact Sum.inl.inj (hK.eq_of_le hle)
  subst hst
  by_cases hu : u = t
  · subst hu; simp
  · simpa [hu] using h t hs u

/-- The two variables say the same about every clock. -/
structure Matches (K : Clocks (Fin vcInitialSz) Nat) (dj : DjitVar) (ft : FastTrackVar) : Prop where
  nonneg : ∀ node u, 0 ≤ K node u
  writes : Summary K dj.wx (epochVc ft.wxEpoch)
  reads : Summary K dj.rx (if ft.isShared then ft.rxVc else epochVc ft.rxEpoch)
  unused : ft.isShared = false → ft.rxVc = vectorClockInit
  last : ft.rxEpoch.clock ≤ dj.rx ft.rxEpoch.threadIdx
  afterWrite : Settled K dj.wx dj.rx
  afterRead : Settled K dj.rx dj.wx

variable {dj : DjitVar} {ft : FastTrackVar}

theorem Matches.apply (h : Matches K dj ft) (m : Move (Fin vcInitialSz) Nat) : Matches (m.apply Int.succ K) dj ft :=
  ⟨fun _ _ => (h.nonneg _ _).trans (le_apply K m _ _), h.writes.apply m, h.reads.apply m, h.unused, h.last, h.afterWrite.apply h.writes.own m,
    h.afterRead.apply h.reads.own m⟩

theorem epochVc_init : epochVc epochInit = vectorClockInit := Function.update_eq_self _ _

theorem matches_init (hK : ∀ node u, 0 ≤ K node u) (g : Bool) :
    Matches K ⟨vectorClockInit, vectorClockInit⟩ ⟨vectorClockInit, epochInit, epochInit, g⟩ := by
  refine ⟨hK, ?_, ?_, fun _ => rfl, le_rfl, fun _ _ _ => hK _ _, fun _ _ _ => hK _ _⟩
  · simpa only [epochVc_init] using summary_zero hK
  · simpa only [epochVc_init, ite_self] using summary_zero hK

theorem djit_read_again (h : Matches K dj ft) (ht : dj.rx t = K (.inl t) t) :
    dj.updateRead ⟨t, K (.inl t)⟩ = (true, dj) := by
  have hfree : dj.readIsRaceFree (K (.inl t)) = true := (happensBefore_iff _ _).mpr (h.afterRead t ht)
  have hsame : vectorClockSet dj.rx t (threadGetClock ⟨t, K (.inl t)⟩) = dj.rx := by
    simp [vectorClockSet, threadGetClock, vectorClockGet, ← ht]
  rw [DjitVar.updateRead, if_pos hfree, hsame]

theorem djit_write_again (h : Matches K dj ft) (ht : dj.wx t = K (.inl t) t) (hw : ∀ i, dj.wx i ≤ K (.inl t) i) :
    dj.updateWrite ⟨t, K (.inl t)⟩ = (true, dj) := by
  have hfree : dj.writeIsRaceFree (K (.inl t)) = true := by
    rw [DjitVar.writeIsRaceFree, Bool.and_eq_true, happensBefore_iff, happensBefore_iff]
    exact ⟨hw, h.afterWrite t ht⟩
  have hsame : vectorClockSet dj.wx t (threadGetClock ⟨t, K (.inl t)⟩) = dj.wx := by
    simp [vectorClockSet, threadGetClock, vectorClockGet, ← ht]
  rw [DjitVar.updateWrite, if_pos hfree, hsame]

section Record

variable (h : Matches K dj ft) (hK : Ahead K)
include h

theorem Matches.last_record (t : Fin vcInitialSz) :
    ft.rxEpoch.clock ≤ Function.update dj.rx t (K (.inl t) t) ft.rxEpoch.threadIdx := by
  by_cases hu : ft.rxEpoch.threadIdx = t
  · rw [hu, Function.update_self, ← hu]
    exact h.last.trans (h.reads.own _)
  · rw [Function.update_of_ne hu]
    exact h.last

include hK

theorem Matches.read_shared (hs : ft.isShared = true) (hw : ∀ i, dj.wx i ≤ K (.inl t) i) :
    Matches K { dj with rx := Function.update dj.rx t (K (.inl t) t) }
      { ft with rxVc := vectorClockSet ft.rxVc t (K (.inl t) t) } := by
  have hreads := h.reads
  rw [if_pos hs] at hreads
  refine ⟨h.nonneg, h.writes, ?_, fun hc => absurd (hs.symm.trans hc) (by simp), h.last_record t,
    h.afterWrite.right hK hw, h.afterRead.left hw⟩
  simpa only [hs, if_true, vectorClockSet] using hreads.record t

theorem Matches.read_epoch (hs : ft.isShared = false) (hw : ∀ i, dj.wx i ≤ K (.inl t) i)
    (hr : epochHappensBeforeVc ft.rxEpoch (K (.inl t)) = true) :
    Matches K { dj with rx := Function.update dj.rx t (K (.inl t) t) }
      { ft with rxEpoch := ⟨K (.inl t) t, t⟩ } := by
  have hreads := h.reads
  rw [hs, if_neg Bool.false_ne_true] at hreads
  have hknown := (hreads.le_iff (.inl t)).mp ((epochHappensBefore_iff _ (h.nonneg _)).mp hr)
  refine ⟨h.nonneg, h.writes, ?_, h.unused, by simp, h.afterWrite.right hK hw, h.afterRead.left hw⟩
  simpa only [hs, Bool.false_eq_true, if_false, epochVc] using hreads.reset hK hknown

theorem Matches.read_switch (hs : ft.isShared = false) (hw : ∀ i, dj.wx i ≤ K (.inl t) i) :
    Matches K { dj with rx := Function.update dj.rx t (K (.inl t) t) }
      { ft with
        rxVc := vectorClockSet (vectorClockSet ft.rxVc ft.rxEpoch.threadIdx ft.rxEpoch.clock) t (K (.inl t) t)
        isShared := true } := by
  have hreads := h.reads
  rw [hs, if_neg Bool.false_ne_true] at hreads
  refine ⟨h.nonneg, h.writes, ?_, fun hc => absurd hc (by simp), h.last_record t,
    h.afterWrite.right hK hw, h.afterRead.left hw⟩
  simpa only [if_true, h.unused hs, vectorClockSet, epochVc] using hreads.record t

theorem Matches.write_epoch (hw : ∀ i, dj.wx i ≤ K (.inl t) i) (hr : ∀ i, dj.rx i ≤ K (.inl t) i) :
    Matches K { dj with wx := Function.update dj.wx t (K (.inl t) t) }
      { ft with wxEpoch := ⟨K (.inl t) t, t⟩ } :=
  ⟨h.nonneg, h.writes.reset hK hw, h.reads, h.unused, h.last, h.afterWrite.left hr, h.afterRead.right hK hr⟩

end Record

theorem Matches.wxEpoch_iff (h : Matches K dj ft) (t : Fin vcInitialSz) :
    epochHappensBeforeVc ft.wxEpoch (K (.inl t)) = true ↔ ∀ i, dj.wx i ≤ K (.inl t) i :=
  (epochHappensBefore_iff _ (h.nonneg _)).trans (h.writes.le_iff _)

theorem Matches.reads_iff (h : Matches K dj ft) (t : Fin vcInitialSz) :
    (if !ft.isShared then !epochHappensBeforeVc ft.rxEpoch (K (.inl t))
      else !vectorClockHappensBefore ft.rxVc (K (.inl t))) = false ↔ ∀ i, dj.rx i ≤ K (.inl t) i := by
  rw [← h.reads.le_iff]
  cases ft.isShared with
  | true => simp [happensBefore_iff]
  | false => simp [epochHappensBefore_iff _ (h.nonneg (.inl t))]

theorem Matches.read (h : Matches K dj ft) (hK : Ahead K) (t : Fin vcInitialSz) :
    (ft.updateRead ⟨t, K (.inl t)⟩).1 = (dj.updateRead ⟨t, K (.inl t)⟩).1 ∧
      Matches K (dj.updateRead ⟨t, K (.inl t)⟩).2 (ft.updateRead ⟨t, K (.inl t)⟩).2 := by
  rw [FastTrackVar.updateRead]
  by_cases h1 : ft.rxEpoch.threadIdx = t ∧ ft.rxEpoch.clock = threadGetClock ⟨t, K (.inl t)⟩
  · have ht : dj.rx t = K (.inl t) t := by
      refine le_antisymm (h.reads.own t) ?_
      have hlast := h.last
      rwa [h1.1, h1.2] at hlast
    rw [if_pos h1, djit_read_again h ht]
    exact ⟨rfl, h⟩
  rw [if_neg h1]
  by_cases h2 : ft.isShared = true ∧ vectorClockGet ft.rxVc t = threadGetClock ⟨t, K (.inl t)⟩
  · have ht : dj.rx t = K (.inl t) t := by
      refine le_antisymm (h.reads.own t) ?_
      have hle := h.reads.le t
      rw [if_pos h2.1] at hle
      exact h2.2.symm.trans_le hle
    rw [if_pos h2, djit_read_again h ht]
    exact ⟨rfl, h⟩
  rw [if_neg h2]
  by_cases hw : ∀ i, dj.wx i ≤ K (.inl t) i
  · have hdj : dj.updateRead ⟨t, K (.inl t)⟩ =
        (true, { dj with rx := Function.update dj.rx t (K (.inl t) t) }) :=
      if_pos ((happensBefore_iff _ _).mpr hw)
    rw [hdj, (h.wxEpoch_iff t).mpr hw, if_neg (by simp)]
    by_cases hs : ft.isShared = true
    · rw [if_pos hs]
      exact ⟨rfl, h.read_shared hK hs hw⟩
    · rw [if_neg hs]
      have hs' : ft.isShared = false := by simpa using hs
      by_cases hr : epochHappensBeforeVc ft.rxEpoch (K (.inl t)) = true
      · rw [if_pos hr]
        exact ⟨rfl, h.read_epoch hK hs' hw hr⟩
      · rw [if_neg hr]
        exact ⟨rfl, h.read_switch hK hs' hw⟩
  · have hdj : dj.updateRead ⟨t, K (.inl t)⟩ = (false, dj) :=
      if_neg fun hfree => hw ((happensBefore_iff _ _).mp hfree)
    have hft : epochHappensBeforeVc ft.wxEpoch (K (.inl t)) = false :=
      Bool.eq_false_iff.mpr fun hle => hw ((h.wxEpoch_iff t).mp hle)
    rw [hdj, hft]
    exact ⟨rfl, h⟩

theorem Matches.write (h : Matches K dj ft) (hK : Ahead K) (t : Fin vcInitialSz) :
    (ft.updateWrite ⟨t, K (.inl t)⟩).1 = (dj.updateWrite ⟨t, K (.inl t)⟩).1 ∧
      Matches K (dj.updateWrite ⟨t, K (.inl t)⟩).2 (ft.updateWrite ⟨t, K (.inl t)⟩).2 := by
  rw [FastTrackVar.updateWrite]
  by_cases h1 : ft.wxEpoch.threadIdx = t ∧ ft.wxEpoch.clock = threadGetClock ⟨t, K (.inl t)⟩
  · have hw : ∀ i, dj.wx i ≤ K (.inl t) i := by
      refine (h.wxEpoch_iff t).mp (decide_eq_true ?_)
      rw [h1.1, h1.2]
      exact le_rfl
    have ht : dj.wx t = K (.inl t) t := by
      refine le_antisymm (h.writes.own t) ?_
      have hle := h.writes.le t
      rwa [epochVc, h1.1, h1.2, Function.update_self] at hle
    rw [if_pos h1, djit_write_again h ht hw]
    exact ⟨rfl, h⟩
  rw [if_neg h1]
  have hfree : dj.writeIsRaceFree (K (.inl t)) = true ↔
      (∀ i, dj.wx i ≤ K (.inl t) i) ∧ ∀ i, dj.rx i ≤ K (.inl t) i := by
    rw [DjitVar.writeIsRaceFree, Bool.and_eq_true, happensBefore_iff, happensBefore_iff]
  by_cases hw : ∀ i, dj.wx i ≤ K (.inl t) i
  · rw [(h.wxEpoch_iff t).mpr hw, if_neg (by simp)]
    by_cases hr : ∀ i, dj.rx i ≤ K (.inl t) i
    · have hdj : dj.updateWrite ⟨t, K (.inl t)⟩ =
          (true, { dj with wx := Function.update dj.wx t (K (.inl t) t) }) := if_pos (hfree.mpr ⟨hw, hr⟩)
      rw [hdj, (h.reads_iff t).mpr hr, if_neg Bool.false_ne_true]
      exact ⟨rfl, h.write_epoch hK hw hr⟩
    · have hdj : dj.updateWrite ⟨t, K (.inl t)⟩ = (false, dj) := if_neg fun hf => hr (hfree.mp hf).2
      have hft := Bool.eq_true_of_not_eq_false fun hf => hr ((h.reads_iff t).mp hf)
      rw [hdj, if_pos hft]
      exact ⟨rfl, h⟩
  · have hdj : dj.updateWrite ⟨t, K (.inl t)⟩ = (false, dj) := if_neg fun hf => hw (hfree.mp hf).1
    have hft : epochHappensBeforeVc ft.wxEpoch (K (.inl t)) = false :=
      Bool.eq_false_iff.mpr fun hle => hw ((h.wxEpoch_iff t).mp hle)
    rw [hdj, hft]
    exact ⟨rfl, h⟩

section Runs

theorem matches_update {f : Nat → DjitVar} {g : Nat → FastTrackVar} (h : ∀ x, Matches K (f x) (g x)) (y : Nat)
    (hy : Matches K dj ft) (x : Nat) : Matches K (Function.update f y dj x) (Function.update g y ft x) := by
  by_cases hx : x = y
  · subst hx
    simpa only [Function.update_self] using hy
  · simpa only [Function.update_of_ne hx] using h x

theorem matches_at {tr : List IndexEvent} (h : Below tr intMax) (garbage : Nat → Bool) (n x : Nat) :
    Matches (clocksAt tr n) ((stateAt (Abs.start djit) tr n).vars x)
      ((stateAt (Abs.start (fastTrack garbage)) tr n).vars x) := by
  induction n generalizing x with
  | zero => exact matches_init (nonneg_clocksAt tr 0) (garbage x)
  | succ n ih =>
      cases hn : tr[n]? with
      | none => simpa only [stateAt, clocksAt, hn] using ih x
      | some e =>
          rw [clocksAt_succ tr hn, stateAt_succ tr hn, stateAt_succ tr hn]
          cases e with
          | fork p c => exact (ih x).apply _
          | join | acquire | release => exact (ih x).apply _
          | access t p =>
              obtain ⟨load, y⟩ := p
              cases load with
              | true =>
                  rw [Abs.step_read, Abs.step_read, stateAt_clocks tr h, stateAt_clocks tr h]
                  exact matches_update ih y ((ih y).read (ahead_clocksAt tr n) t).2 x
              | false =>
                  rw [Abs.step_write, Abs.step_write, stateAt_clocks tr h, stateAt_clocks tr h]
                  exact matches_update ih y ((ih y).write (ahead_clocksAt tr n) t).2 x

theorem answers_eq {tr : List IndexEvent} (h : Below tr intMax) (garbage : Nat → Bool) (n : Nat) (e : IndexEvent) :
    ((stateAt (Abs.start (fastTrack garbage)) tr n).step e).1 = ((stateAt (Abs.start djit) tr n).step e).1 := by
  cases e with
  | access t p =>
      obtain ⟨load, x⟩ := p
      have hmatch := matches_at h garbage n x
      cases load with
      | true =>
          rw [Abs.step_read, Abs.step_read, stateAt_clocks tr h, stateAt_clocks tr h]
          exact congrArg some (hmatch.read (ahead_clocksAt tr n) t).1
      | false =>
          rw [Abs.step_write, Abs.step_write, stateAt_clocks tr h, stateAt_clocks tr h]
          exact congrArg some (hmatch.write (ahead_clocksAt tr n) t).1
  | fork | join | acquire | release => rfl

/-- On every supported trace in which no clock overflows the two detectors answer
alike at every access, whatever variable_init finds in is_shared. -/
theorem fastTrack_agrees_djit (garbage : Nat → Bool) (es : List TraceEvent) (h : Supported es)
    (hcount : Counted es) :
    ∃ vs, verdicts djit es = some vs ∧ verdicts (fastTrack garbage) es = some vs ∧ vs.length = es.length := by
  obtain ⟨m, hres, hthread, -⟩ := h.naming
  have hbelow := hcount.below hthread
  refine ⟨(Abs.start djit).verdicts (es.map m.index), ?_, ?_, ?_⟩
  · rw [verdicts_eq, hres, Option.map_some]
  · rw [verdicts_eq, hres, Option.map_some]
    refine congrArg some (List.ext_getElem? fun n => ?_)
    rw [verdicts_getElem, verdicts_getElem]
    exact congrArg (fun f => (es.map m.index)[n]?.map f) (funext fun e => answers_eq hbelow garbage n e)
  · rw [Abs.verdicts_length, List.length_map]

/-- Two racing writes, and a read of the first thread after them. -/
theorem fastTrack_agrees_djit_race :
    let es := [TraceEvent.fork 0 1, .fork 1 2, .write 1 16, .write 2 16, .read 1 16]
    ∃ vs, verdicts djit es = some vs ∧ verdicts (fastTrack fun _ => true) es = some vs ∧ vs.length = es.length :=
  fastTrack_agrees_djit _ _ ⟨by decide, by decide, by decide⟩ fun tid =>
    lt_of_le_of_lt (Int.ofNat_le.mpr List.count_le_length) (by decide)

theorem djit_reports_overflow {vc : VectorClock} {t : Thread} (ht : t.vc = vc) (i : Fin vcInitialSz)
    (hi : vc i < 0) (x : Nat) : (djit.variableUpdateRead (djit.variableInit x) t).1 = false := by
  have hnot : ¬ DjitVar.readIsRaceFree ⟨vectorClockInit, vectorClockInit⟩ t.vc = true := by
    rw [DjitVar.readIsRaceFree, happensBefore_iff, ht]
    exact fun h => absurd (h i) (not_le.mpr hi)
  have hupd : djit.variableUpdateRead (djit.variableInit x) t = (false, _) := if_neg hnot
  rw [hupd]

theorem overflow_disagrees :
    let es := lockedThenRead (2 ^ 31 - 3)
    Supported es ∧ verdicts djit es ≠ verdicts (fastTrack fun _ => false) es := by
  have hk : 2 + ((2 ^ 31 - 3 : Nat) : Int) = intMax := by decide
  refine ⟨supported_lockedThenRead _, fun heq => ?_⟩
  obtain ⟨vs, vc, hvs, hvc, -⟩ := verdicts_lockedThenRead djit hk
  obtain ⟨ws, wc, hws, hwc, hzero⟩ := verdicts_lockedThenRead (fastTrack fun _ => false) hk
  rw [hvs, hws] at heq
  have hlast := (List.append_inj' (Option.some.inj heq) rfl).2
  have hneg : vc ⟨1, by decide⟩ < 0 := by rw [hvc]; decide
  rw [djit_reports_overflow rfl _ hneg] at hlast
  -- the first thread is known to have done nothing before its clock is 0
  have hfree : epochHappensBeforeVc epochInit wc = true := decide_eq_true hzero
  have hpass : (FastTrackVar.updateRead ⟨vectorClockInit, epochInit, epochInit, false⟩ ⟨⟨1, by decide⟩, wc⟩).1 = true := by
    have hother : ¬ (epochInit.threadIdx = ⟨1, by decide⟩ ∧ epochInit.clock = threadGetClock ⟨⟨1, by decide⟩, wc⟩) :=
      fun h => absurd h.1 (by decide)
    rw [FastTrackVar.updateRead, if_neg hother]
    simp [hfree]
  exact absurd (hlast.trans (congrArg (fun b => [some b]) hpass)) (by decide)

end Runs

end Mambo.FastTrackDjit
