import Mambo.MemcheckMark
import Mambo.MamboHtRefines

namespace Mambo.MemcheckRuns

open MamboHt MamboHtRefines Memcheck

variable {shadow shadow' : Shadow} {start size : Word} {valid : Bool} {a : Nat}

section Mark

def Fits (start size : Word) : Prop := start.toNat + size.toNat < reservedBase

theorem covers_mk : (Block.mk start size).Covers a ↔ start.toNat ≤ a ∧ a < start.toNat + size.toNat := Iff.rfl

/-- Marking a block gives its bits the value and leaves every other bit as it was. -/
theorem mark_spec (halign : start.toNat % 8 = 0) (hfits : Fits start size) (shadow : Shadow) (valid : Bool) :
    ∃ shadow', memcheckMark shadow start size valid = .ok shadow' ∧
      ∀ a, ((Block.mk start size).Covers a → bit shadow' a = valid) ∧
        (¬ (Block.mk start size).Covers a → bit shadow' a = bit shadow a) := by
  obtain ⟨shadow', hdone, hbits⟩ := @MemcheckMark.marks_of_aligned .aarch64 start size halign hfits shadow valid
  refine ⟨shadow', hdone, fun a => ?_⟩
  have hwithin : @MemcheckMark.Within .aarch64 start size (reservedBase + a / 8) (a % 8) ↔
      (Block.mk start size).Covers a := by
    have hshift : 8 * (reservedBase + a / 8 - reservedBase) + a % 8 = a := by omega
    rw [covers_mk]
    show reservedBase ≤ reservedBase + a / 8 ∧ start.toNat ≤ 8 * (reservedBase + a / 8 - reservedBase) + a % 8 ∧
      8 * (reservedBase + a / 8 - reservedBase) + a % 8 < start.toNat + size.toNat ↔ _
    rw [hshift, and_iff_right (Nat.le_add_right _ _)]
  rw [← hwithin]
  exact hbits _ _ (Nat.mod_lt _ (by decide))

theorem mark_not_fits (h : ¬ Fits start size) (shadow : Shadow) (valid : Bool) :
    memcheckMark shadow start size valid = .error .assertion := by
  exact if_pos ((@MemcheckMark.fits_iff .aarch64 start size).not.mpr h)

end Mark

section History

variable {events : List Event} {e : Event} {value : Word}

/-- What the table holds for an address after the events. -/
def entry : List Event → Word → Option Word
  | [], _ => none
  | .alloc start size :: events, x => if x = start then some size else entry events x
  | .free start _ :: events, x => if x = start then (entry events x).map fun _ => magicFreed else entry events x

theorem entry_alloc (events : List Event) (start size : Word) :
    entry (.alloc start size :: events) = Function.update (entry events) start (some size) := by
  funext x
  rw [entry, Function.update_apply]

theorem entry_free_some (size : Word) (h : entry events start = some value) :
    entry (.free start size :: events) = Function.update (entry events) start (some magicFreed) := by
  funext x
  rw [entry, Function.update_apply]
  split_ifs with hx
  · rw [hx, h]
    rfl
  · rfl

theorem entry_free_same (size : Word) (h : entry events start = none ∨ entry events start = some magicFreed) :
    entry (.free start size :: events) = entry events := by
  funext x
  rw [entry]
  split_ifs with hx
  · rcases h with h | h <;> rw [hx, h] <;> rfl
  · rfl

theorem entry_eq_none_iff : entry events start = none ↔ ¬ Allocated events start := by
  induction events with
  | nil => exact iff_of_true rfl (by rintro ⟨_, ⟨⟩⟩)
  | cons e events ih =>
    cases e with
    | alloc s n =>
      rw [entry]
      split_ifs with hs
      · exact iff_of_false (by simp) (not_not.mpr ⟨n, hs ▸ List.mem_cons_self⟩)
      · rw [ih]
        refine not_congr (exists_congr fun size => ?_)
        rw [List.mem_cons, Event.alloc.injEq, or_iff_right fun h => hs h.1]
    | free s n =>
      have hmem : Allocated (.free s n :: events) start ↔ Allocated events start :=
        exists_congr fun size => by rw [List.mem_cons, or_iff_right fun h => by cases h]
      rw [entry, hmem, ← ih]
      split_ifs
      · exact Option.map_eq_none_iff
      · exact Iff.rfl

theorem latest_cons (e : Event) (events : List Event) (start : Word) :
    latest (e :: events) start = if e.start = start then some e else latest events start := by
  rw [latest, List.find?_cons]
  by_cases h : e.start = start
  · rw [if_pos h, decide_eq_true h]
  · rw [if_neg h, decide_eq_false h]
    rfl

/-- The entry tells the latest event of an address, as long as no block has the size of
the mark for a freed one. -/
theorem entry_latest (hsize : ∀ s n, Event.alloc s n ∈ events → n ≠ magicFreed) (h : entry events start = some value) :
    (value = magicFreed ∧ ∃ n, latest events start = some (.free start n)) ∨
      value ≠ magicFreed ∧ latest events start = some (.alloc start value) := by
  induction events with
  | nil => cases h
  | cons e events ih =>
    have hrest := ih fun s n hmem => hsize s n (List.mem_cons_of_mem _ hmem)
    rw [latest_cons]
    cases e with
    | alloc s n =>
      rw [entry] at h
      rw [Event.start]
      split_ifs at h with hs
      · obtain rfl := Option.some.inj h
        subst hs
        exact .inr ⟨hsize _ _ List.mem_cons_self, if_pos rfl⟩
      · rw [if_neg (Ne.symm hs)]
        exact hrest h
    | free s n =>
      rw [entry] at h
      rw [Event.start]
      split_ifs at h with hs
      · obtain ⟨-, -, rfl⟩ := Option.map_eq_some_iff.mp h
        subst hs
        exact .inl ⟨rfl, n, if_pos rfl⟩
      · rw [if_neg (Ne.symm hs)]
        exact hrest h

theorem find_eraseP_of_ne {s : Word} (hne : s ≠ start) (blocks : List Block) :
    (blocks.eraseP fun b => b.start = s).find? (fun b => b.start = start) =
      blocks.find? fun b => b.start = start := by
  induction blocks with
  | nil => rfl
  | cons b blocks ih =>
    by_cases hb : b.start = s
    · rw [List.eraseP_cons_of_pos (by simpa using hb), List.find?_cons_of_neg (by simp [hb, hne])]
    · rw [List.eraseP_cons_of_neg (by simpa using hb), List.find?_cons, List.find?_cons, ih]

theorem live_find (h : latest events start = some (.alloc start size)) :
    (live events).find? (fun b => b.start = start) = some ⟨start, size⟩ := by
  induction events with
  | nil => cases h
  | cons e events ih =>
    rw [latest_cons] at h
    cases e with
    | alloc s n =>
      rw [live]
      split_ifs at h with hs
      · obtain ⟨rfl, rfl⟩ := Event.alloc.inj (Option.some.inj h)
        exact List.find?_cons_of_pos (decide_eq_true rfl)
      · rw [List.find?_cons_of_neg (by simpa using hs)]
        exact ih h
    | free s n =>
      split_ifs at h with hs
      · cases h
      · rw [live]
        split
        · rw [find_eraseP_of_ne (by simpa using hs)]
          exact ih h
        · exact ih h

theorem live_free (n : Word) (h : latest events start = some (.alloc start size)) :
    ∃ before after, live events = before ++ ⟨start, size⟩ :: after ∧
      live (.free start n :: events) = before ++ after := by
  obtain ⟨hstart, before, after, heq, hbefore⟩ := List.find?_eq_some_iff_append.mp (live_find h)
  refine ⟨before, after, heq, ?_⟩
  rw [live, h]
  dsimp only
  rw [heq, List.eraseP_append_right _ fun b hb => by simpa using hbefore b hb,
    List.eraseP_cons_of_pos (p := fun b : Block => b.start = start) hstart]

theorem live_free_again (n : Word) {m : Word} (h : latest events start = some (.free start m)) :
    live (.free start n :: events) = live events := by
  rw [live, h]

theorem live_free_unknown (n : Word) (h : ¬ Allocated events start) : live (.free start n :: events) = live events := by
  rw [live]
  split
  · rename_i s m hlatest
    have hs := List.find?_some hlatest
    rw [decide_eq_true_eq, Event.start_alloc] at hs
    exact absurd ⟨m, hs ▸ List.mem_of_find?_eq_some hlatest⟩ h
  · rfl

end History

section Hooks

variable {calloc : Nat → Bool} {events : List Event} {s s' : State} {report : Option Report}

/-- The state after the events, as the hooks keep it. -/
structure Tracks (calloc : Nat → Bool) (events : List Event) (s : State) : Prop where
  holds : Holds calloc s.allocs (entry events)
  count_le : s.allocs.entryCount ≤ events.length
  resizes : s.allocs.allowResize = true
  fits : ∀ start size, Event.alloc start size ∈ events → Fits start size
  aligned : ∀ e ∈ events, e.start.toNat % 8 = 0
  apart : (live events).Pairwise fun b c => ∀ a, ¬ (b.Covers a ∧ c.Covers a)
  bits : ∀ a, EverAllocated events a → (bit s.shadow a = true ↔ ∃ b ∈ live events, b.Covers a)

theorem add_cases (hcalloc : ∀ n, calloc n = true → n * 16 < 2 ^ 64) {allocs : Table} {m : Word → Option Word}
    (h : Holds calloc allocs m) (hresizes : allocs.allowResize = true) (hstart : start ≠ 0) (value : Word) :
    mamboHtAdd calloc allocs start value = .error .memory ∧ Refused calloc allocs.entryCount ∨
      ∃ allocs', mamboHtAdd calloc allocs start value = .ok (0, allocs') ∧
        Holds calloc allocs' (Function.update m start (some value)) ∧
        allocs'.entryCount ≤ allocs.entryCount + 1 ∧ allocs'.allowResize = true := by
  rcases h.add hcalloc (allocs.entryCount + 1) hstart (Nat.lt_succ_self _) value with
    ⟨allocs', hok, hadded⟩ | ⟨-, hfixed⟩ | hmemory
  · exact .inr ⟨allocs', hok, hadded.holds, hadded.count_le, hadded.allow_eq.trans hresizes⟩
  · exact absurd (hfixed.symm.trans hresizes) Bool.false_ne_true
  · exact .inl hmemory

theorem fits_size_ne (h : Fits start size) : size ≠ magicFreed := by
  rintro rfl
  have hlt : magicFreed.toNat < reservedBase := Nat.lt_of_le_of_lt (Nat.le_add_left _ _) h
  exact absurd hlt (by decide)

theorem ever_alloc : EverAllocated (.alloc start size :: events) a ↔
    (Block.mk start size).Covers a ∨ EverAllocated events a := by
  constructor
  · rintro ⟨s, n, hmem, hcovers⟩
    rcases List.mem_cons.mp hmem with heq | hmem
    · obtain ⟨rfl, rfl⟩ := Event.alloc.inj heq
      exact .inl hcovers
    · exact .inr ⟨s, n, hmem, hcovers⟩
  · rintro (hcovers | ⟨s, n, hmem, hcovers⟩)
    · exact ⟨start, size, List.mem_cons_self, hcovers⟩
    · exact ⟨s, n, List.mem_cons_of_mem _ hmem, hcovers⟩

theorem ever_free : EverAllocated (.free start size :: events) a ↔ EverAllocated events a := by
  refine exists_congr fun s => exists_congr fun n => and_congr_left fun _ => ?_
  rw [List.mem_cons, or_iff_right fun h => by cases h]

/-- An allocation sets exactly the bits of its block, unless the program ends for lack of
memory or because the block does not lie below the shadow. -/
theorem alloc_spec (hcalloc : ∀ n, calloc n = true → n * 16 < 2 ^ 64) (h : Tracks calloc events s)
    (hallowed : Allowed events (.alloc start size)) :
    memcheckAllocHook calloc s start size = .error .memory ∧ Refused calloc events.length ∨
      (¬ Fits start size ∧ memcheckAllocHook calloc s start size = .error .assertion) ∨
      ∃ s', memcheckAllocHook calloc s start size = .ok s' ∧ Tracks calloc (.alloc start size :: events) s' := by
  obtain ⟨hstart, halign, hover⟩ := hallowed
  have hover := hover start size rfl
  rw [Event.start_alloc] at hstart halign
  rcases add_cases hcalloc h.holds h.resizes hstart size with ⟨hmemory, hrefused⟩ | ⟨allocs', hok, hholds, hcount, hresizes⟩
  · exact .inl ⟨by rw [memcheckAllocHook, hmemory], hrefused.mono h.count_le⟩
  by_cases hfits : Fits start size
  · obtain ⟨shadow', hmark, hbits⟩ := mark_spec halign hfits s.shadow true
    refine .inr (.inr ⟨⟨allocs', shadow'⟩, ?_, ?_⟩)
    · rw [memcheckAllocHook, hok]
      dsimp only
      rw [if_pos rfl, hmark]
      rfl
    · refine ⟨by rw [entry_alloc]; exact hholds, hcount.trans (Nat.succ_le_succ h.count_le), hresizes, ?_, ?_, ?_, ?_⟩
      · intro s₁ n hmem
        rcases List.mem_cons.mp hmem with heq | hmem
        · obtain ⟨rfl, rfl⟩ := Event.alloc.inj heq
          exact hfits
        · exact h.fits s₁ n hmem
      · intro e hmem
        rcases List.mem_cons.mp hmem with rfl | hmem
        · exact halign
        · exact h.aligned e hmem
      · exact List.pairwise_cons.mpr ⟨hover, h.apart⟩
      · intro a hever
        rw [live]
        by_cases hin : (Block.mk start size).Covers a
        · exact iff_of_true ((hbits a).1 hin) ⟨_, List.mem_cons_self, hin⟩
        · have hold := h.bits a ((ever_alloc.mp hever).resolve_left hin)
          rw [(hbits a).2 hin, hold]
          constructor
          · rintro ⟨b, hb, hcovers⟩
            exact ⟨b, List.mem_cons_of_mem _ hb, hcovers⟩
          · rintro ⟨b, hb, hcovers⟩
            rcases List.mem_cons.mp hb with rfl | hb
            · exact absurd hcovers hin
            · exact ⟨b, hb, hcovers⟩
  · refine .inr (.inl ⟨hfits, ?_⟩)
    rw [memcheckAllocHook, hok]
    dsimp only
    rw [if_pos rfl, mark_not_fits hfits]
    rfl

theorem Tracks.free_same (h : Tracks calloc events s) (hstart : start.toNat % 8 = 0) (size : Word)
    (hentry : entry (.free start size :: events) = entry events)
    (hlive : live (.free start size :: events) = live events) : Tracks calloc (.free start size :: events) s := by
  refine ⟨by rw [hentry]; exact h.holds, h.count_le.trans (Nat.le_succ _), h.resizes, ?_, ?_,
    by rw [hlive]; exact h.apart, ?_⟩
  · intro s₁ n hmem
    exact h.fits s₁ n ((List.mem_cons.mp hmem).resolve_left fun heq => by cases heq)
  · intro e hmem
    rcases List.mem_cons.mp hmem with rfl | hmem
    · exact hstart
    · exact h.aligned e hmem
  · intro a hever
    rw [hlive]
    exact h.bits a (ever_free.mp hever)

theorem Tracks.free_block (h : Tracks calloc events s) (hstart : start.toNat % 8 = 0) (n : Word)
    (hlatest : latest events start = some (.alloc start size)) {allocs' : Table} {shadow' : Shadow}
    (hholds : Holds calloc allocs' (Function.update (entry events) start (some magicFreed)))
    (hcount : allocs'.entryCount ≤ s.allocs.entryCount + 1) (hresizes : allocs'.allowResize = true) (hentry : entry events start = some size)
    (hbits : ∀ a, ((Block.mk start size).Covers a → bit shadow' a = false) ∧
      (¬ (Block.mk start size).Covers a → bit shadow' a = bit s.shadow a)) :
    Tracks calloc (.free start n :: events) ⟨allocs', shadow'⟩ := by
  obtain ⟨before, after, hlive, hrest⟩ := live_free n hlatest
  have hapart := h.apart
  rw [hlive, List.pairwise_middle fun {b c} hbc a hcovers => hbc a hcovers.symm, List.pairwise_cons] at hapart
  refine ⟨by rw [entry_free_some n hentry]; exact hholds, hcount.trans (Nat.succ_le_succ h.count_le), hresizes, ?_, ?_,
    by rw [hrest]; exact hapart.2, ?_⟩
  · intro s₁ m hmem
    exact h.fits s₁ m ((List.mem_cons.mp hmem).resolve_left fun heq => by cases heq)
  · intro e hmem
    rcases List.mem_cons.mp hmem with rfl | hmem
    · exact hstart
    · exact h.aligned e hmem
  · intro a hever
    rw [hrest]
    by_cases hin : (Block.mk start size).Covers a
    · rw [(hbits a).1 hin]
      refine iff_of_false Bool.false_ne_true ?_
      rintro ⟨b, hb, hcovers⟩
      exact hapart.1 b hb a ⟨hin, hcovers⟩
    · rw [(hbits a).2 hin, h.bits a (ever_free.mp hever), hlive]
      constructor
      · rintro ⟨b, hb, hcovers⟩
        rcases List.mem_append.mp hb with hb | hb
        · exact ⟨b, List.mem_append_left _ hb, hcovers⟩
        · rcases List.mem_cons.mp hb with rfl | hb
          · exact absurd hcovers hin
          · exact ⟨b, List.mem_append_right _ hb, hcovers⟩
      · rintro ⟨b, hb, hcovers⟩
        rcases List.mem_append.mp hb with hb | hb
        · exact ⟨b, List.mem_append_left _ hb, hcovers⟩
        · exact ⟨b, List.mem_append_right _ (List.mem_cons_of_mem _ hb), hcovers⟩

/-- What a free reports, and that it keeps the state; it ends the program only for lack of
memory. -/
theorem free_spec (hcalloc : ∀ n, calloc n = true → n * 16 < 2 ^ 64) (h : Tracks calloc events s)
    (hstart : start ≠ 0) (halign : start.toNat % 8 = 0) (size : Word) :
    memcheckFreeHook calloc s start size = .error .memory ∧ Refused calloc events.length ∨
      ∃ s' report, memcheckFreeHook calloc s start size = .ok (s', report) ∧ Tracks calloc (.free start size :: events) s' ∧
        (report = some .invalidFree ↔ ¬ Allocated events start) ∧
        (report = some .doubleFree ↔ Allocated events start ∧ ∃ n, latest events start = some (.free start n)) := by
  have hsize : ∀ s n, Event.alloc s n ∈ events → n ≠ magicFreed := fun s n hmem => fits_size_ne (h.fits s n hmem)
  rw [memcheckFreeHook, if_neg hstart, h.holds.get_eq]
  cases hentry : entry events start with
  | none =>
    have hnever := entry_eq_none_iff.mp hentry
    refine .inr ⟨s, _, rfl, h.free_same halign size (entry_free_same size (.inl hentry)) (live_free_unknown size hnever),
      iff_of_true rfl hnever, iff_of_false (by decide) fun hboth => hnever hboth.1⟩
  | some value =>
    have halloc : Allocated events start := by
      by_contra hnever
      exact absurd (entry_eq_none_iff.mpr hnever) (by rw [hentry]; simp)
    dsimp only
    rcases entry_latest hsize hentry with ⟨rfl, n, hlatest⟩ | ⟨hvalue, hlatest⟩
    · rw [if_pos rfl]
      exact .inr ⟨s, _, rfl, h.free_same halign size (entry_free_same size (.inr hentry)) (live_free_again size hlatest),
        iff_of_false (by decide) (not_not.mpr halloc), iff_of_true rfl ⟨halloc, n, hlatest⟩⟩
    · rw [if_neg hvalue]
      rcases add_cases hcalloc h.holds h.resizes hstart magicFreed with
        ⟨hmemory, hrefused⟩ | ⟨allocs', hok, hholds, hcount, hresizes⟩
      · exact .inl ⟨by rw [hmemory], hrefused.mono h.count_le⟩
      · have hmem : Event.alloc start value ∈ events := List.mem_of_find?_eq_some hlatest
        obtain ⟨shadow', hmark, hbits⟩ := mark_spec halign (h.fits _ _ hmem) s.shadow false
        refine .inr ⟨⟨allocs', shadow'⟩, none, ?_, h.free_block halign size hlatest hholds hcount hresizes hentry hbits,
          iff_of_false (by decide) (not_not.mpr halloc), iff_of_false (by decide) ?_⟩
        · rw [hok]
          dsimp only
          rw [if_pos rfl, hmark]
          rfl
        · rintro ⟨-, n, hfree⟩
          cases hlatest.symm.trans hfree

theorem init_tracks (hcalloc : ∀ n, calloc n = true → n * 16 < 2 ^ 64) {allocs : Table} (shadow : Shadow)
    (h : mamboHtInit calloc 10000 2 70 true = .ok (some allocs)) : Tracks calloc [] ⟨allocs, shadow⟩ := by
  refine ⟨init_holds hcalloc h, (init_count h).1.le, (init_count h).2, fun _ _ hmem => absurd hmem List.not_mem_nil,
    fun _ hmem => absurd hmem List.not_mem_nil, List.Pairwise.nil, ?_⟩
  · rintro a ⟨_, _, hmem, -⟩
    cases hmem

/-- Each hook keeps the state and reports what it should, or the program ends: without
memory, or at a block that does not lie below the shadow. -/
theorem hook_spec (hcalloc : ∀ n, calloc n = true → n * 16 < 2 ^ 64) (h : Tracks calloc events s) {e : Event}
    (hallowed : Allowed events e) :
    hook calloc s e = .error .memory ∧ Refused calloc events.length ∨
      (∃ start size, e = .alloc start size ∧ ¬ Fits start size ∧ hook calloc s e = .error .assertion) ∨
      ∃ s' report, hook calloc s e = .ok (s', report) ∧ Tracks calloc (e :: events) s' ∧
        (report = some .invalidFree ↔ ∃ start size, e = .free start size ∧ ¬ Allocated events start) ∧
        (report = some .doubleFree ↔ ∃ start size, e = .free start size ∧ Allocated events start ∧
          ∃ n, latest events start = some (.free start n)) := by
  cases e with
  | alloc start size =>
    rw [hook]
    rcases alloc_spec hcalloc h hallowed with ⟨hmemory, hrefused⟩ | ⟨hfits, herror⟩ | ⟨s', hok, htracks⟩
    · exact .inl ⟨by rw [hmemory]; rfl, hrefused⟩
    · exact .inr (.inl ⟨start, size, rfl, hfits, by rw [herror]; rfl⟩)
    · refine .inr (.inr ⟨s', none, by rw [hok]; rfl, htracks, iff_of_false (by decide) ?_, iff_of_false (by decide) ?_⟩)
      · rintro ⟨_, _, heq, -⟩
        cases heq
      · rintro ⟨_, _, heq, -⟩
        cases heq
  | free start size =>
    obtain ⟨hstart, halign, -⟩ := hallowed
    rw [hook]
    rcases free_spec hcalloc h hstart halign size with hmemory | ⟨s', report, hok, htracks, hinvalid, hdouble⟩
    · exact .inl hmemory
    · refine .inr (.inr ⟨s', report, hok, htracks, hinvalid.trans ?_, hdouble.trans ?_⟩)
      · constructor
        · exact fun hnever => ⟨start, size, rfl, hnever⟩
        · rintro ⟨_, _, heq, hnever⟩
          obtain ⟨rfl, rfl⟩ := Event.free.inj heq
          exact hnever
      · constructor
        · exact fun hboth => ⟨start, size, rfl, hboth⟩
        · rintro ⟨_, _, heq, hboth⟩
          obtain ⟨rfl, rfl⟩ := Event.free.inj heq
          exact hboth

theorem reaches_tracks (hcalloc : ∀ n, calloc n = true → n * 16 < 2 ^ 64) (h : Reaches calloc events s) :
    Tracks calloc events s := by
  induction h with
  | init shadow hinit => exact init_tracks hcalloc shadow hinit
  | step before allowed hdone ih =>
    rcases hook_spec hcalloc ih allowed with ⟨hmemory, -⟩ | ⟨_, _, _, _, herror⟩ | ⟨s₁, r₁, hok, htracks, -⟩
    · cases hmemory.symm.trans hdone
    · cases herror.symm.trans hdone
    · obtain ⟨rfl, -⟩ := Prod.mk.inj (Except.ok.inj (hok.symm.trans hdone))
      exact htracks

/-- After any sequence of events the bits of the memory that was ever allocated are those
of the live blocks. A free is reported as invalid exactly if its address was never
allocated, and as a double free exactly if it was and the latest event there was a free. -/
theorem memcheck_tracks (hcalloc : ∀ n, calloc n = true → n * 16 < 2 ^ 64) (h : Reaches calloc events s) :
    (∀ a, EverAllocated events a → (bit s.shadow a = true ↔ ∃ b ∈ live events, b.Covers a)) ∧
      ∀ e, Allowed events e →
        hook calloc s e = .error .memory ∧ Refused calloc events.length ∨
          (∃ start size, e = .alloc start size ∧ ¬ Fits start size ∧ hook calloc s e = .error .assertion) ∨
          ∃ s' report, hook calloc s e = .ok (s', report) ∧
            (report = some .invalidFree ↔ ∃ start size, e = .free start size ∧ ¬ Allocated events start) ∧
            (report = some .doubleFree ↔ ∃ start size, e = .free start size ∧ Allocated events start ∧
              ∃ n, latest events start = some (.free start n)) := by
  have htracks := reaches_tracks hcalloc h
  refine ⟨htracks.bits, fun e hallowed => ?_⟩
  rcases hook_spec hcalloc htracks hallowed with hmemory | herror | ⟨s', report, hok, -, hreport⟩
  · exact .inl hmemory
  · exact .inr (.inl herror)
  · exact .inr (.inr ⟨s', report, hok, hreport⟩)

def someMemory (n : Nat) : Bool := n ≤ 2 ^ 16

theorem someMemory_lt : ∀ n, someMemory n = true → n * 16 < 2 ^ 64 := by
  intro n hn
  have hle : n ≤ 2 ^ 16 := of_decide_eq_true hn
  omega

def emptyTable : Table := ⟨2 ^ 14, 0, 2, true, 70, 11468, cleared⟩

theorem emptyTable_init : mamboHtInit someMemory 10000 2 70 true = .ok (some emptyTable) := rfl

theorem not_refused_someMemory {count : Nat} (h : count ≤ 1000) : ¬ Refused someMemory count := by
  rintro (⟨n, hn, hfails⟩ | ⟨n, hn, hgrants⟩)
  · have hlt := of_decide_eq_false hfails
    omega
  · have hle : n ≤ 2 ^ 16 := of_decide_eq_true hgrants
    omega

/-- A block that is freed twice. -/
theorem memcheck_tracks_block :
    ∃ s s', Reaches someMemory [.free 0x10000 0, .alloc 0x10000 20] s ∧ bit s.shadow 0x10013 = false ∧
      hook someMemory s (.free 0x10000 0) = .ok (s', some .doubleFree) := by
  have halloc : Allowed [] (.alloc 0x10000 20) := ⟨by decide, by decide, fun _ _ _ _ hb => by cases hb⟩
  have hfree : ∀ events, Allowed events (.free 0x10000 0) := fun _ => ⟨by decide, by decide, fun _ _ heq => by cases heq⟩
  obtain ⟨s₁, hs₁⟩ : ∃ s, Reaches someMemory [.alloc 0x10000 20] s :=
    ⟨_, .step (.init (fun _ => 0) emptyTable_init) halloc rfl⟩
  rcases (memcheck_tracks someMemory_lt hs₁).2 _ (hfree _) with ⟨-, hrefused⟩ | ⟨_, _, heq, -⟩ | ⟨s, _, hok, -⟩
  · exact absurd hrefused (not_refused_someMemory (by decide))
  · cases heq
  have hs := Reaches.step hs₁ (hfree _) hok
  obtain ⟨hbits, hhooks⟩ := memcheck_tracks someMemory_lt hs
  rcases hhooks _ (hfree _) with ⟨-, hrefused⟩ | ⟨_, _, heq, -⟩ | ⟨s', report, hagain, -, hdouble⟩
  · exact absurd hrefused (not_refused_someMemory (by decide))
  · cases heq
  obtain rfl := hdouble.mpr ⟨0x10000, 0, rfl, ⟨20, by simp⟩, 0, rfl⟩
  refine ⟨s, s', hs, Bool.eq_false_of_not_eq_true fun hbit => ?_, hagain⟩
  obtain ⟨b, hb, -⟩ := (hbits 0x10013 ⟨0x10000, 20, by simp, by decide, by decide⟩).mp hbit
  exact absurd hb List.not_mem_nil

/-- A second free of an address that was never allocated is once more an invalid free. -/
theorem free_unknown_twice :
    ¬ ∀ calloc events s start size s' report, (∀ n, calloc n = true → n * 16 < 2 ^ 64) → Reaches calloc events s →
      Allowed events (.free start size) → hook calloc s (.free start size) = .ok (s', report) →
        (report = some .doubleFree ↔ ∃ n, latest events start = some (.free start n)) := by
  intro h
  have hallowed : ∀ events, Allowed events (.free 0x10000 0) := fun _ => ⟨by decide, by decide, fun _ _ heq => by cases heq⟩
  have hreach : Reaches someMemory [.free 0x10000 0] ⟨emptyTable, fun _ => 0⟩ :=
    .step (.init (fun _ => 0) emptyTable_init) (hallowed []) rfl
  exact absurd ((h _ _ _ 0x10000 0 ⟨emptyTable, fun _ => 0⟩ (some .invalidFree) someMemory_lt hreach (hallowed _) rfl).mpr
    ⟨0, rfl⟩) (by decide)

end Hooks

end Mambo.MemcheckRuns
