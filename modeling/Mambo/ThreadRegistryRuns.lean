import Mambo.ThreadRegistry

namespace Mambo.ThreadRegistryRuns

open ThreadRegistry

variable {α : Type*} [DecidableEq α] {g g' : Registry α} {p q t : α} {ts : List α} {fuel : Nat} {c : Call α}
  {r : Result α} {R : Set α}

section Unregister

/-- The walk stops in front of the thread, or at the end of the list. -/
theorem prevThread_spec (hwalk : Walk g.nextThread (some p) (p :: ts)) (h : prevThread g t fuel p = some q) :
    t ∉ ts ∧ g.nextThread q = none ∨ ∃ pre post, p :: ts = pre ++ q :: t :: post := by
  induction ts generalizing p fuel with
  | nil =>
      obtain ⟨-, hnext⟩ := hwalk
      cases fuel with
      | zero => exact absurd h (by simp [prevThread])
      | succ fuel =>
          simp only [Walk] at hnext
          simp only [prevThread, hnext, Option.some.injEq] at h
          subst h
          exact Or.inl ⟨List.not_mem_nil, hnext⟩
  | cons u ts ih =>
      obtain ⟨-, hnext, hrest⟩ := hwalk
      cases fuel with
      | zero => exact absurd h (by simp [prevThread])
      | succ fuel =>
          simp only [prevThread, hnext] at h
          by_cases hu : u = t
          · rw [if_pos hu, Option.some.injEq] at h
            subst h hu
            exact Or.inr ⟨[], ts, rfl⟩
          · rw [if_neg hu] at h
            rcases ih ⟨rfl, hrest⟩ h with ⟨hmem, hnone⟩ | ⟨pre, post, heq⟩
            · exact Or.inl ⟨List.not_mem_cons_of_ne_of_not_mem (Ne.symm hu) hmem, hnone⟩
            · exact Or.inr ⟨p :: pre, post, by rw [heq, List.cons_append]⟩

theorem prevThread_ends (hwalk : Walk g.nextThread (some p) (p :: ts)) :
    ∃ q, prevThread g t (ts.length + 1) p = some q := by
  induction ts generalizing p with
  | nil =>
      obtain ⟨-, hnext⟩ := hwalk
      simp only [Walk] at hnext
      exact ⟨p, by simp only [prevThread, hnext]⟩
  | cons u ts ih =>
      obtain ⟨-, hnext, hrest⟩ := hwalk
      rw [List.length_cons, prevThread]
      simp only [hnext]
      by_cases hu : u = t
      · exact ⟨p, if_pos hu⟩
      · rw [if_neg hu]
        exact ih ⟨rfl, hrest⟩

theorem unregisterThread_spec (hwalk : Walk g.nextThread g.threads ts) (hnodup : ts.Nodup) {status : Int}
    (h : unregisterThread fuel t g = some (status, g')) :
    Walk g'.nextThread g'.threads (ts.erase t) ∧ (t ∈ ts → status = 0) ∧ (t ∉ ts → status = -1 ∧ g' = g) := by
  cases ts with
  | nil =>
      simp only [Walk] at hwalk
      simp [unregisterThread, hwalk] at h
  | cons p ts =>
      obtain ⟨hhead, hrest⟩ := hwalk
      rw [unregisterThread, hhead] at h
      by_cases hp : p = t
      · subst hp
        rw [if_pos rfl] at h
        obtain ⟨rfl, rfl⟩ := Prod.mk.inj (Option.some.inj h)
        refine ⟨?_, fun _ => rfl, fun hno => absurd List.mem_cons_self hno⟩
        rw [List.erase_cons_head]
        exact hrest
      · rw [if_neg (fun heq => hp (Option.some.inj heq))] at h
        simp only [Option.bind_eq_bind, Option.bind_some, Option.bind_eq_some_iff] at h
        obtain ⟨q, hq, h⟩ := h
        rcases prevThread_spec ⟨rfl, hrest⟩ hq with ⟨hmem, hnone⟩ | ⟨pre, post, heq⟩
        · have hnot : t ∉ p :: ts := List.not_mem_cons_of_ne_of_not_mem (Ne.symm hp) hmem
          rw [hnone, if_neg (by simp)] at h
          obtain ⟨rfl, rfl⟩ := Prod.mk.inj (Option.some.inj h)
          rw [List.erase_of_not_mem hnot]
          exact ⟨⟨hhead, hrest⟩, fun hyes => absurd hyes hnot, fun _ => ⟨rfl, rfl⟩⟩
        · have hall : Walk g.nextThread g.threads (pre ++ q :: t :: post) := heq ▸ ⟨hhead, hrest⟩
          rw [heq] at hnodup
          have hqt : g.nextThread q = some t := (walk_append hall).2.1
          rw [if_pos hqt] at h
          obtain ⟨rfl, rfl⟩ := Prod.mk.inj (Option.some.inj h)
          have hmem : t ∈ p :: ts := by
            rw [heq]
            simp
          refine ⟨?_, fun _ => rfl, fun hno => absurd hmem hno⟩
          have herase : (p :: ts).erase t = pre ++ q :: post := by
            have hsplit : pre ++ q :: t :: post = (pre ++ [q]) ++ t :: post := by simp
            have hnotin : t ∉ pre ++ [q] := by
              rw [hsplit] at hnodup
              exact fun hin => (List.nodup_append.mp hnodup).2.2 t hin t List.mem_cons_self rfl
            rw [heq, hsplit, List.erase_append_right _ hnotin, List.erase_cons_head, List.append_assoc]
            rfl
          have hremoved := hall.remove hnodup
          rw [hhead] at hremoved
          rw [herase]
          exact hremoved

theorem unregisterThread_ends (hwalk : Walk g.nextThread g.threads ts) (hne : ts ≠ []) :
    ∃ fuel r, unregisterThread fuel t g = some r := by
  cases ts with
  | nil => exact absurd rfl hne
  | cons p ts =>
      obtain ⟨hhead, hrest⟩ := hwalk
      by_cases hp : p = t
      · subst hp
        exact ⟨0, _, if_pos hhead⟩
      · obtain ⟨q, hq⟩ := @prevThread_ends _ _ g p t ts ⟨rfl, hrest⟩
        refine ⟨ts.length + 1, ?_⟩
        rw [unregisterThread, hhead, if_neg (fun heq => hp (Option.some.inj heq))]
        simp only [Option.bind_eq_bind, Option.bind_some, hq]
        split
        · exact ⟨_, rfl⟩
        · exact ⟨_, rfl⟩

end Unregister

section FreeAll

theorem freeLoop_none {freed freed' : List α} (h : freeLoop g t fuel none freed = some freed') : freed' = freed := by
  cases fuel with
  | zero => exact absurd h (by simp [freeLoop])
  | succ fuel => exact (Option.some.inj h).symm

theorem freeLoop_last {freed : List α} (hlast : g.nextThread t = none) (h : freeLoop g t fuel (some p) [] = some freed) :
    freed = if p = t then [] else [p] := by
  cases fuel with
  | zero => exact absurd h (by simp [freeLoop])
  | succ fuel =>
      simp only [freeLoop, hlast, List.not_mem_nil, if_false] at h
      by_cases hp : p = t
      · rw [if_pos hp] at h ⊢
        exact freeLoop_none h
      · rw [if_neg hp] at h ⊢
        exact freeLoop_none h

omit [DecidableEq α] in
theorem freeAll_lists (hfits : (Call.freeAll t).Fits ts) : ts = [t] ∨ ∃ u, ts = [u, t] := by
  obtain ⟨hlast, hlen⟩ := hfits
  match ts, hlast, hlen with
  | [u], hlast, _ => exact Or.inl (by simpa using hlast)
  | [u, v], hlast, _ =>
      have hv : v = t := by simpa using hlast
      exact Or.inr ⟨u, by rw [hv]⟩

theorem freeAllOtherThreads_spec {freed : List α} (hwalk : Walk g.nextThread g.threads ts) (hnodup : ts.Nodup)
    (hfits : (Call.freeAll t).Fits ts) (h : freeAllOtherThreads fuel t g = some (freed, g')) :
    freed.Nodup ∧ (∀ u, u ∈ freed ↔ u ∈ ts ∧ u ≠ t) ∧ Walk g'.nextThread g'.threads [t] := by
  obtain ⟨freed', hloop, heq⟩ := Option.map_eq_some_iff.mp h
  obtain ⟨rfl, rfl⟩ := Prod.mk.inj heq
  rcases freeAll_lists hfits with rfl | ⟨u, rfl⟩
  · obtain ⟨hhead, hlast⟩ := hwalk
    simp only [Walk] at hlast
    rw [hhead] at hloop
    rw [freeLoop_last hlast hloop, if_pos rfl]
    refine ⟨List.nodup_nil, fun u => ?_, rfl, hlast⟩
    simp
  · obtain ⟨hhead, -, hlast⟩ := hwalk
    simp only [Walk] at hlast
    have hne : u ≠ t := by simpa using hnodup
    rw [hhead] at hloop
    rw [freeLoop_last hlast hloop, if_neg hne]
    refine ⟨by simp, fun v => ?_, rfl, hlast⟩
    rw [List.mem_singleton, List.mem_cons, List.mem_singleton]
    exact ⟨fun hv => ⟨Or.inl hv, hv ▸ hne⟩, fun hv => hv.1.resolve_right hv.2⟩

theorem freeAllOtherThreads_ends (hwalk : Walk g.nextThread g.threads ts) (hfits : (Call.freeAll t).Fits ts) :
    ∃ fuel r, freeAllOtherThreads fuel t g = some r := by
  have hlast : g.nextThread t = none ∧ ∃ p, g.threads = some p := by
    rcases freeAll_lists hfits with rfl | ⟨u, rfl⟩
    · exact ⟨hwalk.2, t, hwalk.1⟩
    · exact ⟨hwalk.2.2, u, hwalk.1⟩
  obtain ⟨hnone, p, hp⟩ := hlast
  refine ⟨2, ?_⟩
  simp only [freeAllOtherThreads, hp, freeLoop, hnone]
  split
  · exact ⟨_, rfl⟩
  · exact ⟨_, rfl⟩

theorem fits_of_freed {freed : List α} (hwalk : Walk g.nextThread g.threads ts) (hnodup : ts.Nodup)
    (h : freeAllOtherThreads fuel t g = some (freed, g')) (hfreed : ∀ u, u ∈ freed ↔ u ∈ ts ∧ u ≠ t)
    (hend : Walk g'.nextThread g'.threads [t]) (hmem : t ∈ ts) : (Call.freeAll t).Fits ts := by
  obtain ⟨freed', hloop, heq⟩ := Option.map_eq_some_iff.mp h
  obtain ⟨rfl, rfl⟩ := Prod.mk.inj heq
  have hnone : g.nextThread t = none := hend.2
  obtain ⟨pre, post, rfl⟩ := List.append_of_mem hmem
  have hpost : post = [] := by
    cases post with
    | nil => rfl
    | cons u post => exact absurd (hnone.symm.trans (walk_append hwalk).2.1) (by simp)
  subst hpost
  refine ⟨by simp, ?_⟩
  cases pre with
  | nil => simp
  | cons p pre =>
      rw [hwalk.1] at hloop
      have hpt : p ≠ t := by
        rintro rfl
        simp at hnodup
      rw [freeLoop_last hnone hloop, if_neg hpt] at hfreed
      cases pre with
      | nil => simp
      | cons q pre =>
          -- the thread behind the head is not freed
          have hq : q ≠ t ∧ q ≠ p := by
            constructor
            · rintro rfl
              simp at hnodup
            · rintro rfl
              simp at hnodup
          have hfreedQ := (hfreed q).mpr ⟨by simp, hq.1⟩
          exact absurd (List.mem_singleton.mp hfreedQ) hq.2

end FreeAll

section Runs

theorem call_spec (hwalk : Walk g.nextThread g.threads ts) (hnodup : ts.Nodup) (hR : ∀ t, t ∈ ts ↔ t ∈ R)
    (hfits : c.Fits ts) (h : Ends c g r g') :
    c.Returns R g g' r ∧ Walk g'.nextThread g'.threads (c.next ts) ∧ (c.next ts).Nodup ∧
      ∀ t, t ∈ c.next ts ↔ t ∈ c.after R := by
  obtain ⟨fuel, h⟩ := h
  cases c with
  | register t =>
      obtain ⟨rfl, rfl⟩ := Prod.mk.inj (Option.some.inj h)
      refine ⟨rfl, ⟨rfl, ?_⟩, List.nodup_cons.mpr ⟨hfits, hnodup⟩, fun u => ?_⟩
      · show Walk _ (Function.update g.nextThread t g.threads t) ts
        rw [Function.update_self]
        exact hwalk.update hfits
      · rw [Call.next, List.mem_cons, hR u]
        rfl
  | unregister t =>
      obtain ⟨⟨status, g₁⟩, hcall, heq⟩ := Option.map_eq_some_iff.mp h
      obtain ⟨rfl, rfl⟩ := Prod.mk.inj heq
      obtain ⟨hlist, hyes, hno⟩ := unregisterThread_spec hwalk hnodup hcall
      refine ⟨⟨fun ht => hyes ((hR t).mpr ht), fun ht => hno fun hmem => ht ((hR t).mp hmem)⟩, hlist,
        hnodup.erase t, fun u => ?_⟩
      rw [Call.next, hnodup.mem_erase_iff, hR u, and_comm]
      rfl
  | freeAll t =>
      obtain ⟨⟨freed, g₁⟩, hcall, heq⟩ := Option.map_eq_some_iff.mp h
      obtain ⟨rfl, rfl⟩ := Prod.mk.inj heq
      obtain ⟨hfreedNodup, hfreed, hlist⟩ := freeAllOtherThreads_spec hwalk hnodup hfits hcall
      refine ⟨⟨hfreedNodup, fun u => ?_, hlist⟩, hlist, by simp [Call.next], fun u => ?_⟩
      · rw [hfreed u, hR u]
      · have hmem : t ∈ R := (hR t).mp (List.mem_of_getLast? hfits.1)
        rw [Call.next, List.mem_singleton]
        exact ⟨fun hu => ⟨hu ▸ hmem, hu⟩, fun hu => hu.2⟩

theorem call_ends (hwalk : Walk g.nextThread g.threads ts) (hfits : c.Fits ts) : ∃ r g', Ends c g r g' := by
  cases c with
  | register t => exact ⟨_, _, 0, rfl⟩
  | unregister t =>
      obtain ⟨fuel, ⟨status, g'⟩, hcall⟩ := @unregisterThread_ends _ _ g t ts hwalk hfits
      exact ⟨_, _, fuel, by rw [call, hcall]; rfl⟩
  | freeAll t =>
      obtain ⟨fuel, ⟨freed, g'⟩, hcall⟩ := freeAllOtherThreads_ends hwalk hfits
      exact ⟨_, _, fuel, by rw [call, hcall]; rfl⟩

theorem fits_of_returns (hwalk : Walk g.nextThread g.threads ts) (hnodup : ts.Nodup) (hR : ∀ t, t ∈ ts ↔ t ∈ R)
    (h : Ends c g r g') (hreturns : c.Returns R g g' r) (hholds : Holds g' (c.after R)) : c.Fits ts := by
  obtain ⟨fuel, h⟩ := h
  cases c with
  | register t =>
      obtain ⟨rfl, rfl⟩ := Prod.mk.inj (Option.some.inj h)
      obtain ⟨ts', hwalk', -, -⟩ := hholds
      intro hmem
      cases ts' with
      | nil => exact absurd hwalk' (by simp [Walk, registerThread])
      | cons u ts' =>
          obtain ⟨hu, hrest⟩ := hwalk'
          obtain rfl : t = u := Option.some.inj hu
          simp only [registerThread, Function.update_self] at hrest
          exact not_walk_cycle hwalk hmem hrest
  | unregister t =>
      rintro rfl
      simp only [Walk] at hwalk
      simp [call, unregisterThread, hwalk] at h
  | freeAll t =>
      obtain ⟨⟨freed, g₁⟩, hcall, heq⟩ := Option.map_eq_some_iff.mp h
      obtain ⟨rfl, rfl⟩ := Prod.mk.inj heq
      obtain ⟨-, hfreed, hlist⟩ := hreturns
      obtain ⟨ts', hwalk', -, hts'⟩ := hholds
      obtain rfl := hwalk'.unique hlist
      have hmem : t ∈ R := ((hts' t).mp (List.mem_singleton_self t)).1
      exact fits_of_freed hwalk hnodup hcall (fun u => by rw [hfreed u, hR u]) hlist ((hR t).mpr hmem)

omit [DecidableEq α] in
theorem walk_empty (nextThread : α → Option α) : Walk nextThread none [] := rfl

theorem runOk_iff (hwalk : Walk g.nextThread g.threads ts) (hnodup : ts.Nodup) (hR : ∀ t, t ∈ ts ↔ t ∈ R)
    (calls : List (Call α)) : RunOk g R calls ↔ FitsAll ts calls := by
  induction calls generalizing g ts R with
  | nil => exact Iff.rfl
  | cons c calls ih =>
      constructor
      · rintro ⟨r, g', hends, hreturns, hholds, hrest⟩
        have hfits := fits_of_returns hwalk hnodup hR hends hreturns hholds
        obtain ⟨-, hwalk', hnodup', hR'⟩ := call_spec hwalk hnodup hR hfits hends
        exact ⟨hfits, (ih hwalk' hnodup' hR').mp hrest⟩
      · rintro ⟨hfits, hrest⟩
        obtain ⟨r, g', hends⟩ := call_ends hwalk hfits
        obtain ⟨hreturns, hwalk', hnodup', hR'⟩ := call_spec hwalk hnodup hR hfits hends
        exact ⟨r, g', hends, hreturns, ⟨_, hwalk', hnodup', hR'⟩, (ih hwalk' hnodup' hR').mpr hrest⟩

/-- From the empty list, a sequence of calls does what it has to exactly when each call
fits the list before it. -/
theorem threadRegistry_run (nextThread : α → Option α) (calls : List (Call α)) :
    RunOk ⟨none, nextThread⟩ ∅ calls ↔ FitsAll [] calls :=
  runOk_iff (walk_empty nextThread) List.nodup_nil (fun t => by simp) calls

/-- The thread that was registered last frees the other one, and then once more. -/
theorem threadRegistry_run_fork : ¬ RunOk (⟨none, fun _ => none⟩ : Registry Nat) ∅ [.register 1, .register 2, .freeAll 2] := by
  rw [runOk_iff (walk_empty _) List.nodup_nil fun t => by simp]
  rintro ⟨-, -, hfits, -⟩
  exact absurd hfits.1 (by decide)

end Runs

end Mambo.ThreadRegistryRuns
