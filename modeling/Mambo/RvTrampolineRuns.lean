import Mambo.RvTrampolines

namespace Mambo.RvTrampolineRuns

open CodeRuns Rv RvCode RvEmit RvTrampolines

def codeCacheSize : Nat := 55000

def codeCacheOverp : Nat := 512

def blockBytes : Nat := 256

/-- Where the code cache is, and how many of its blocks the dispatcher takes. -/
structure Layout where
  blocks : Word
  trampolinesSizeBbs : Nat
  fits : blocks.toNat + blockBytes * codeCacheSize ≤ 2 ^ 64
  small : trampolinesSizeBbs < codeCacheSize - codeCacheOverp

def Layout.blockAddr (l : Layout) (i : Nat) : Nat := l.blocks.toNat + blockBytes * i

/-- The state of a thread, and where the code of each fragment that starts at a
block ends. -/
structure Cache where
  thread : Thread
  codeEnd : Nat → Option Word

section Steps

variable (l : Layout)

def flushCodeCache (t : Thread) : Thread :=
  { t with
    freeBlock := l.trampolinesSizeBbs
    codeCacheMeta := fun i => if i < codeCacheSize then ⟨0, 0⟩ else t.codeCacheMeta i }

def allocateBb (t : Thread) : Nat × Thread :=
  let t := if t.freeBlock ≥ codeCacheSize - codeCacheOverp then flushCodeCache l t else t
  (t.freeBlock, { t with freeBlock := t.freeBlock + 1 })

/-- None where the assertion fails. -/
def allocateBbOverflow (t : Thread) : Option (Nat × Thread) :=
  if t.freeBlock < codeCacheSize then some (t.freeBlock, { t with freeBlock := t.freeBlock + 1 }) else none

def allocateOverflows : Nat → Thread → Option Thread
  | 0, t => some t
  | n + 1, t => do
    let (_, t) ← allocateBbOverflow t
    allocateOverflows n t

/-- The end of scan_riscv: the slots follow the code where there is room for them. -/
def reserveSlots (t : Thread) (basicBlock : Nat) (writeP : Word) (dataP : Nat) : Thread :=
  { t with
    codeCacheMeta := Function.update t.codeCacheMeta basicBlock
      ⟨if dataP - writeP.toNat ≥ 4 * trampolineSlots then writeP else 0, 0⟩ }

/-- A place in the cache where a block or a trace is linked. -/
inductive Exit (c : Cache) (source : Word) : Prop
  | fragment (i : Nat) (writeP : Word) (hge : l.trampolinesSizeBbs ≤ i) (hlt : i < c.thread.freeBlock)
      (hcode : c.codeEnd i = some writeP) (hfrom : l.blockAddr i ≤ source.toNat)
      (hto : source.toNat + 4 ≤ writeP.toNat)
  | trace (hfrom : l.blockAddr codeCacheSize ≤ source.toNat) (hto : source.toNat + 4 ≤ 2 ^ 64)

/-- What happens to the cache: a fragment is scanned into fresh blocks, an exit
is linked through trampolines, code that is there is rewritten, or everything is
flushed. -/
inductive Step (c : Cache) : Cache → Prop
  | scan (n : Nat) (writeP : Word) (t : Thread) (code : Code)
      (halloc : allocateOverflows n (allocateBb l c.thread).2 = some t)
      (hfrom : l.blockAddr (allocateBb l c.thread).1 ≤ writeP.toNat) (hto : writeP.toNat ≤ l.blockAddr t.freeBlock) :
      Step c ⟨reserveSlots { t with code := code } (allocateBb l c.thread).1 writeP (l.blockAddr t.freeBlock),
        fun i => if i = (allocateBb l c.thread).1 then some writeP
          else if i < (allocateBb l c.thread).1 then c.codeEnd i else none⟩
  | link (source target : Word) (ret : Int) (t : Thread) (hexit : Exit l c source)
      (htry : tryJumpTrampolines l.trampolinesSizeBbs c.thread source target = some (ret, t)) : Step c ⟨t, c.codeEnd⟩
  | rewrite (code : Code) : Step c ⟨{ c.thread with code := code }, c.codeEnd⟩
  | flush : Step c ⟨flushCodeCache l c.thread, c.codeEnd⟩

/-- A cache that has been in use since init_thread, which starts with a flush of
zeroed memory. -/
inductive Reachable : Cache → Prop
  | init (t : Thread) (codeEnd : Nat → Option Word) (hzero : ∀ i, t.codeCacheMeta i = ⟨0, 0⟩) :
      Reachable ⟨flushCodeCache l t, codeEnd⟩
  | step {c c' : Cache} (hc : Reachable c) (hstep : Step l c c') : Reachable c'

end Steps

section Invariant

variable {l : Layout} {c c' : Cache} {t : Thread} {codeEnd : Nat → Option Word} {source : Word}

/-- Fragments lie one after the other, each with its slots behind its code. -/
structure Inv (l : Layout) (t : Thread) (codeEnd : Nat → Option Word) : Prop where
  free_ge : l.trampolinesSizeBbs ≤ t.freeBlock
  free_le : t.freeBlock ≤ codeCacheSize
  used : ∀ i, (t.codeCacheMeta i).trampolineSlotsUsed ≤ trampolineSlots
  fresh : ∀ i, t.freeBlock ≤ i → i < codeCacheSize → (t.codeCacheMeta i).trampolineAddr = 0
  ends : ∀ i writeP, l.trampolinesSizeBbs ≤ i → i < t.freeBlock → codeEnd i = some writeP →
    l.blockAddr i ≤ writeP.toNat ∧ writeP.toNat ≤ l.blockAddr t.freeBlock
  areas : ∀ i, Reserved l.trampolinesSizeBbs t i →
    codeEnd i = some (t.codeCacheMeta i).trampolineAddr ∧
      (t.codeCacheMeta i).trampolineAddr.toNat + 4 * trampolineSlots ≤ l.blockAddr t.freeBlock
  apart : ∀ i j, l.trampolinesSizeBbs ≤ i → i < j → j < t.freeBlock → (codeEnd j).isSome →
    (∀ writeP, codeEnd i = some writeP → writeP.toNat ≤ l.blockAddr j) ∧
      (Reserved l.trampolinesSizeBbs t i →
        (t.codeCacheMeta i).trampolineAddr.toNat + 4 * trampolineSlots ≤ l.blockAddr j)

theorem blockAddr_mono {i j : Nat} (h : i ≤ j) : l.blockAddr i ≤ l.blockAddr j := by
  rw [Layout.blockAddr, Layout.blockAddr]
  exact Nat.add_le_add_left (Nat.mul_le_mul_left _ h) _

theorem Inv.wellFormed (h : Inv l t codeEnd) : WellFormed l.trampolinesSizeBbs t := by
  refine ⟨h.used, fun i hi => ?_, fun i j hi hj hij => ?_⟩
  · have harea := (h.areas i hi).2
    have hend : l.blockAddr t.freeBlock ≤ l.blockAddr codeCacheSize := blockAddr_mono h.free_le
    have hfits := l.fits
    rw [Layout.blockAddr, Layout.blockAddr] at hend
    rw [Layout.blockAddr] at harea
    omega
  · have hcode := (h.areas j hj).1
    obtain ⟨-, hbefore⟩ := h.apart i j hi.ge hij hj.lt (by rw [hcode, Option.isSome_some])
    exact (hbefore hi).trans (h.ends j _ hj.ge hj.lt hcode).1

theorem Inv.site (h : Inv l c.thread c.codeEnd) (hexit : Exit l c source) : Site l.trampolinesSizeBbs c.thread source := by
  have hend : l.blockAddr c.thread.freeBlock ≤ l.blockAddr codeCacheSize := blockAddr_mono h.free_le
  cases hexit with
  | trace hfrom hto =>
      refine ⟨hto, fun i hi => Or.inr ?_⟩
      exact (h.areas i hi).2.trans (hend.trans hfrom)
  | fragment f writeP hge hlt hcode hfrom hto =>
      refine ⟨?_, fun i hi => ?_⟩
      · have := writeP.isLt
        omega
      · obtain ⟨hcodei, -⟩ := h.areas i hi
        rcases lt_trichotomy i f with hif | hif | hif
        · have hbefore := (h.apart i f hi.ge hif hlt (by rw [hcode, Option.isSome_some])).2 hi
          exact Or.inr (hbefore.trans hfrom)
        · subst hif
          rw [hcode] at hcodei
          rw [← Option.some.inj hcodei]
          exact Or.inl hto
        · have hafter := (h.apart f i hge hif hi.lt (by rw [hcodei, Option.isSome_some])).1 writeP hcode
          exact Or.inl (hto.trans (hafter.trans (h.ends i _ hi.ge hi.lt hcodei).1))

theorem inv_flush (hused : ∀ i, (t.codeCacheMeta i).trampolineSlotsUsed ≤ trampolineSlots) :
    Inv l (flushCodeCache l t) codeEnd := by
  have hempty : ∀ i, l.trampolinesSizeBbs ≤ i → ¬ i < l.trampolinesSizeBbs := fun _ => not_lt.mpr
  refine ⟨le_rfl, ?_, fun i => ?_, fun i _ hi => ?_, fun i _ hge hlt => absurd hlt (hempty i hge),
    fun i hi => absurd hi.lt (hempty i hi.ge), fun i j hge hij hlt => absurd (hij.trans hlt) (hempty i hge)⟩
  · exact l.small.le.trans (Nat.sub_le _ _)
  · rw [flushCodeCache]
    dsimp only
    split
    · exact Nat.zero_le _
    · exact hused i
  · rw [flushCodeCache]
    dsimp only
    rw [if_pos hi]

theorem Inv.allocateBb (h : Inv l t codeEnd) :
    ∃ t₀, Inv l t₀ codeEnd ∧ t₀.freeBlock < codeCacheSize ∧
      RvTrampolineRuns.allocateBb l t = (t₀.freeBlock, { t₀ with freeBlock := t₀.freeBlock + 1 }) := by
  by_cases hfull : t.freeBlock ≥ codeCacheSize - codeCacheOverp
  · refine ⟨flushCodeCache l t, inv_flush h.used, ?_, ?_⟩
    · exact lt_of_lt_of_le l.small (Nat.sub_le _ _)
    · rw [RvTrampolineRuns.allocateBb, if_pos hfull]
  · refine ⟨t, h, ?_, ?_⟩
    · exact lt_of_lt_of_le (not_le.mp hfull) (Nat.sub_le _ _)
    · rw [RvTrampolineRuns.allocateBb, if_neg hfull]

theorem allocateOverflows_eq {n : Nat} {t' : Thread} (hle : t.freeBlock ≤ codeCacheSize)
    (h : allocateOverflows n t = some t') :
    t' = { t with freeBlock := t.freeBlock + n } ∧ t.freeBlock + n ≤ codeCacheSize := by
  induction n generalizing t with
  | zero => exact ⟨(Option.some.inj h).symm, hle⟩
  | succ n ih =>
      rw [allocateOverflows, allocateBbOverflow] at h
      split_ifs at h with hroom
      · obtain ⟨heq, hle'⟩ := ih (show t.freeBlock + 1 ≤ codeCacheSize from hroom) h
        have hsum : t.freeBlock + 1 + n = t.freeBlock + (n + 1) := by omega
        refine ⟨heq.trans ?_, hsum ▸ hle'⟩
        rw [hsum]
      · exact absurd h (by simp)

def scanned (l : Layout) (t : Thread) (n : Nat) (writeP : Word) (code : Code) : Thread :=
  reserveSlots { t with freeBlock := t.freeBlock + 1 + n, code := code } t.freeBlock writeP
    (l.blockAddr (t.freeBlock + 1 + n))

theorem scanned_old {n i : Nat} {writeP : Word} {code : Code} (hi : i ≠ t.freeBlock) :
    (scanned l t n writeP code).codeCacheMeta i = t.codeCacheMeta i := Function.update_of_ne hi _ _

theorem scanned_new {n : Nat} {writeP : Word} {code : Code} :
    (scanned l t n writeP code).codeCacheMeta t.freeBlock =
      ⟨if l.blockAddr (t.freeBlock + 1 + n) - writeP.toNat ≥ 4 * trampolineSlots then writeP else 0, 0⟩ :=
  Function.update_self ..

theorem Inv.reserved_old (h : Inv l t codeEnd) {n i : Nat} {writeP : Word} {code : Code}
    (hle : t.freeBlock + 1 + n ≤ codeCacheSize)
    (hi : Reserved l.trampolinesSizeBbs (scanned l t n writeP code) i) (hne : i ≠ t.freeBlock) :
    Reserved l.trampolinesSizeBbs t i := by
  have haddr := hi.addr
  have hlt : i < t.freeBlock + 1 + n := hi.lt
  rw [scanned_old hne] at haddr
  refine ⟨hi.ge, ?_, haddr⟩
  by_contra hge
  exact haddr (h.fresh i (not_lt.mp hge) (by omega))

theorem Inv.scan (h : Inv l t codeEnd) {n : Nat} {writeP : Word} (code : Code)
    (hle : t.freeBlock + 1 + n ≤ codeCacheSize) (hfrom : l.blockAddr t.freeBlock ≤ writeP.toNat)
    (hto : writeP.toNat ≤ l.blockAddr (t.freeBlock + 1 + n)) :
    Inv l (scanned l t n writeP code)
      (fun i => if i = t.freeBlock then some writeP else if i < t.freeBlock then codeEnd i else none) := by
  have hgrow : l.blockAddr t.freeBlock ≤ l.blockAddr (t.freeBlock + 1 + n) := blockAddr_mono (by omega)
  have hfree : (scanned l t n writeP code).freeBlock = t.freeBlock + 1 + n := rfl
  have hge := h.free_ge
  constructor
  case free_ge => exact hge.trans (by omega)
  case free_le => exact hle
  case used =>
    intro i
    by_cases hi : i = t.freeBlock
    · rw [hi, scanned_new]
      exact Nat.zero_le _
    · rw [scanned_old hi]
      exact h.used i
  case fresh =>
    intro i hi hlt
    rw [hfree] at hi
    rw [scanned_old (by omega)]
    exact h.fresh i (show t.freeBlock ≤ i by omega) hlt
  case ends =>
    intro i w hi hlt hcode
    rw [hfree]
    by_cases hb : i = t.freeBlock
    · rw [if_pos hb] at hcode
      rw [← Option.some.inj hcode, hb]
      exact ⟨hfrom, hto⟩
    · rw [if_neg hb] at hcode
      split_ifs at hcode with hold
      obtain ⟨hstart, hend⟩ := h.ends i w hi hold hcode
      exact ⟨hstart, hend.trans hgrow⟩
  case areas =>
    intro i hi
    rw [hfree]
    by_cases hb : i = t.freeBlock
    · have haddr := hi.addr
      subst hb
      rw [scanned_new] at haddr ⊢
      by_cases hroom : l.blockAddr (t.freeBlock + 1 + n) - writeP.toNat ≥ 4 * trampolineSlots
      · refine ⟨?_, ?_⟩
        · rw [if_pos rfl, if_pos hroom]
        · rw [if_pos hroom]
          show writeP.toNat + 4 * trampolineSlots ≤ _
          rw [trampolineSlots] at hroom ⊢
          omega
      · exact absurd (if_neg hroom) haddr
    · have hold := h.reserved_old hle hi hb
      rw [scanned_old hb, if_neg hb, if_pos hold.lt]
      exact ⟨(h.areas i hold).1, (h.areas i hold).2.trans hgrow⟩
  case apart =>
    intro i j hi hij hlt hcode
    have hj : j ≤ t.freeBlock := by
      by_contra hgt
      rw [if_neg (by omega), if_neg (by omega)] at hcode
      exact absurd hcode (by simp)
    have hib : i ≠ t.freeBlock := by omega
    have hilt : i < t.freeBlock := by omega
    rw [if_neg hib, if_pos hilt, scanned_old hib]
    rcases Nat.eq_or_lt_of_le hj with hjb | hjb
    · rw [hjb]
      exact ⟨fun w hw => (h.ends i w hi hilt hw).2, fun hres => (h.areas i (h.reserved_old hle hres hib)).2⟩
    · rw [if_neg (by omega), if_pos hjb] at hcode
      obtain ⟨hends, hareas⟩ := h.apart i j hi hij hjb hcode
      exact ⟨hends, fun hres => hareas (h.reserved_old hle hres hib)⟩

theorem Inv.led {t' : Thread} {target : Word} {slots : List (Nat × Word)} (h : Inv l t codeEnd)
    (hled : Led l.trampolinesSizeBbs t t' source target slots) : Inv l t' codeEnd := by
  have haddr : ∀ i, (t'.codeCacheMeta i).trampolineAddr = (t.codeCacheMeta i).trampolineAddr := by
    intro i
    rw [hled.counted i]
  have hres : ∀ i, Reserved l.trampolinesSizeBbs t' i → Reserved l.trampolinesSizeBbs t i := fun i hi =>
    ⟨hi.ge, hled.freeBlock ▸ hi.lt, haddr i ▸ hi.addr⟩
  constructor
  case used => exact hled.used_le h.used
  all_goals simp only [hled.freeBlock, haddr]
  case free_ge => exact h.free_ge
  case free_le => exact h.free_le
  case fresh => exact h.fresh
  case ends => exact h.ends
  case areas => exact fun i hi => h.areas i (hres i hi)
  case apart =>
    intro i j hi hij hlt hcode
    obtain ⟨hends, hareas⟩ := h.apart i j hi hij hlt hcode
    exact ⟨hends, fun hr => hareas (hres i hr)⟩

theorem Step.inv (hstep : Step l c c') (h : Inv l c.thread c.codeEnd) : Inv l c'.thread c'.codeEnd := by
  cases hstep with
  | scan n writeP t code halloc hfrom hto =>
      obtain ⟨t₀, h₀, hlt, heq⟩ := h.allocateBb
      rw [heq] at halloc hfrom ⊢
      obtain ⟨rfl, hle⟩ := allocateOverflows_eq (t := { t₀ with freeBlock := t₀.freeBlock + 1 }) hlt halloc
      exact h₀.scan code hle hfrom hto
  | link source target ret t hexit htry =>
      rcases tryJumpTrampolines_cases h.wellFormed (h.site hexit) target with hfail | ⟨t', slots, hok, hled⟩
      · rw [hfail] at htry
        obtain ⟨-, rfl⟩ := Prod.mk.inj (Option.some.inj htry)
        exact h
      · rw [hok] at htry
        obtain ⟨-, rfl⟩ := Prod.mk.inj (Option.some.inj htry)
        exact h.led hled
  | rewrite code => exact ⟨h.free_ge, h.free_le, h.used, h.fresh, h.ends, fun i hi => h.areas i ⟨hi.ge, hi.lt, hi.addr⟩,
      fun i j hi hij hlt hcode => ⟨(h.apart i j hi hij hlt hcode).1,
        fun hr => (h.apart i j hi hij hlt hcode).2 ⟨hr.ge, hr.lt, hr.addr⟩⟩⟩
  | flush => exact inv_flush h.used

theorem Reachable.inv (h : Reachable l c) : Inv l c.thread c.codeEnd := by
  induction h with
  | init t codeEnd hzero =>
      refine inv_flush fun i => ?_
      rw [hzero i]
      exact Nat.zero_le _
  | step _ hstep ih => exact hstep.inv ih

end Invariant

section Correct

variable {l : Layout} {c : Cache} {source target : Word}

/-- A jump through trampolines, with everything that must hold of it. -/
structure Trampolined (l : Layout) (t t' : Thread) (source target : Word) (slots : List (Nat × Word)) : Prop
    extends Led l.trampolinesSizeBbs t t' source target slots where
  reaches : ∀ s : State, Reaches rv (fetch t'.code) (s.goto source) (s.goto target)
  kept : ∀ i k x, Reserved l.trampolinesSizeBbs t i → k < (t.codeCacheMeta i).trampolineSlotsUsed →
    Covers (slotAddr (t.codeCacheMeta i) k) x → t'.code x = t.code x
  used_le : ∀ i, (t'.codeCacheMeta i).trampolineSlotsUsed ≤ trampolineSlots

theorem path_reaches {code : Code} {a b : Word} {l : List Word} (h : (a :: (l ++ [b])).IsChain (Hop code)) (s : State) :
    Reaches rv (fetch code) (s.goto a) (s.goto b) := by
  induction l generalizing a with
  | nil => exact Relation.ReflTransGen.single ((List.isChain_pair.mp h).steps s)
  | cons c l ih =>
      rw [List.cons_append, List.isChain_cons_cons] at h
      exact Relation.ReflTransGen.head (h.1.steps s) (ih h.2)

theorem Inv.trampolined {t t' : Thread} {codeEnd : Nat → Option Word} {slots : List (Nat × Word)}
    (h : Inv l t codeEnd) (hsite : Site l.trampolinesSizeBbs t source)
    (hled : Led l.trampolinesSizeBbs t t' source target slots) : Trampolined l t t' source target slots := by
  refine ⟨hled, path_reaches hled.hops, fun i k x hi hk hx => ?_, hled.used_le h.used⟩
  have hwf := h.wellFormed
  have hk' : k < trampolineSlots := lt_of_lt_of_le hk (h.used i)
  refine hled.outside x (hsite.not_covers hwf hi hk' hx) fun slot hmem => ?_
  obtain ⟨hslot, hfree, haddr⟩ := hled.reserved slot hmem
  rw [haddr]
  refine hwf.slots_apart hi hslot hk' hfree (fun heq => ?_) hx
  obtain ⟨rfl, hsame⟩ := heq
  exact absurd hsame hk.ne

/-- Linking an exit through trampolines, in any cache that comes up: it succeeds
with a chain of jumps to the target or changes nothing. -/
theorem tryJumpTrampolines_correct (hc : Reachable l c) (hexit : Exit l c source) (target : Word) :
    ∃ ret t, tryJumpTrampolines l.trampolinesSizeBbs c.thread source target = some (ret, t) ∧ (ret = 0 ∨ ret = -1) ∧
      (ret = 0 → ∃ slots, Trampolined l c.thread t source target slots) ∧
      (ret = -1 → t.code = c.thread.code ∧ ∀ i, (t.codeCacheMeta i).trampolineSlotsUsed =
        (c.thread.codeCacheMeta i).trampolineSlotsUsed) := by
  have hinv := hc.inv
  have hsite := hinv.site hexit
  rcases tryJumpTrampolines_cases hinv.wellFormed hsite target with hfail | ⟨t, slots, hok, hled⟩
  · exact ⟨-1, c.thread, hfail, Or.inr rfl, fun h => absurd h (by decide), fun _ => ⟨rfl, fun _ => rfl⟩⟩
  · exact ⟨0, t, hok, Or.inl rfl, fun _ => ⟨slots, hinv.trampolined hsite hled⟩, fun h => absurd h (by decide)⟩

/-- An exit of the first fragment in a cache at a typical address. -/
theorem tryJumpTrampolines_correct_first :
    ∃ (l : Layout) (c : Cache), Reachable l c ∧ Exit l c 0x50000A10 ∧
      ∃ ret t, tryJumpTrampolines l.trampolinesSizeBbs c.thread 0x50000A10 0x50000A06 = some (ret, t) ∧
        (ret = 0 ∨ ret = -1) ∧ (ret = 0 → ∃ slots, Trampolined l c.thread t 0x50000A10 0x50000A06 slots) := by
  let l : Layout := ⟨0x50000000, 10, by decide, by decide⟩
  let c₀ : Cache := ⟨flushCodeCache l ⟨0, fun _ => ⟨0, 0⟩, fun _ => none⟩, fun _ => none⟩
  have hscan := (Reachable.init (l := l) _ c₀.codeEnd fun _ => rfl).step
    (Step.scan 0 0x50000A40 (allocateBb l c₀.thread).2 (fun _ => none) rfl (by decide) (by decide))
  obtain ⟨c, hc, hfree, hend⟩ : ∃ c, Reachable l c ∧ c.thread.freeBlock = 11 ∧ c.codeEnd 10 = some 0x50000A40 :=
    ⟨_, hscan, rfl, rfl⟩
  have hexit : Exit l c 0x50000A10 :=
    Exit.fragment 10 0x50000A40 (by decide) (by rw [hfree]; decide) hend (by decide) (by decide)
  obtain ⟨ret, t, htry, hret, hok, -⟩ := tryJumpTrampolines_correct hc hexit 0x50000A06
  exact ⟨l, c, hc, hexit, ret, t, htry, hret, hok⟩

end Correct

end Mambo.RvTrampolineRuns
