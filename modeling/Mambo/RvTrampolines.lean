import Mambo.RvEmit
import Mathlib.Data.List.Chain

namespace Mambo.RvTrampolines

open CodeRuns Rv RvCode RvEmit

def trampolineSlots : Nat := 6

def trampolineMaxDistance : Nat := 3 * 1024 * 1024

def trampolineMaxHops : Nat := 8

def jalRange : Int := 1024 * 1024

structure CodeCacheMeta where
  trampolineAddr : Word
  trampolineSlotsUsed : Nat

structure Thread where
  freeBlock : Nat
  codeCacheMeta : Nat → CodeCacheMeta
  code : Code

section Search

def jalCanReach (source target : Word) : Bool :=
  let offset := target - source
  offset &&& 1 = 0 ∧ -jalRange ≤ offset.toInt ∧ offset.toInt < jalRange

def addressDistance (a b : Word) : Nat := if a.toNat ≥ b.toNat then a.toNat - b.toNat else b.toNat - a.toNat

def slotAddr (m : CodeCacheMeta) (k : Nat) : Word := past m.trampolineAddr (4 * k)

def between (source target candidate : Word) : Bool :=
  if source.toNat < target.toNat then source.toNat < candidate.toNat ∧ candidate.toNat < target.toNat
  else candidate.toNat < source.toNat ∧ target.toNat < candidate.toNat

def closer (source target candidate best : Word) : Bool :=
  if source.toNat < target.toNat then candidate.toNat < best.toNat else best.toNat < candidate.toNat

def visit (t : Thread) (source target : Word) (best : Option (Nat × Word)) (i : Nat) : Option (Nat × Word) :=
  let m := t.codeCacheMeta i
  if m.trampolineAddr = 0 ∨ m.trampolineSlotsUsed ≥ trampolineSlots then best
  else
    let candidate := slotAddr m m.trampolineSlotsUsed
    if ¬ between source target candidate ∨ ¬ jalCanReach candidate target then best
    else
      match best with
      | none => some (i, candidate)
      | some (_, bestAddr) => if closer source target candidate bestAddr then some (i, candidate) else best

variable (trampolinesSizeBbs : Nat)

def findTrampolineSlot (t : Thread) (source target : Word) : Option (Nat × Word) :=
  (List.range' trampolinesSizeBbs (t.freeBlock - trampolinesSizeBbs)).foldl (visit t source target) none

/-- The slots from the target back to the source, or none where the source gives up. -/
def collect (t : Thread) (source : Word) (hops : Nat) (nextTarget : Word) : Option (List (Nat × Word)) :=
  if jalCanReach source nextTarget then some []
  else
    match hops with
    | 0 => none
    | hops + 1 => do
      let slot ← findTrampolineSlot trampolinesSizeBbs t source nextTarget
      return slot :: (← collect t source hops slot.2)

end Search

section Commit

def Thread.write (t : Thread) (a : Word) (i : Inst) : Thread := { t with code := put a i t.code }

theorem Thread.write_code (t : Thread) (a : Word) (i : Inst) : (t.write a i).code = put a i t.code := rfl

def Thread.useSlot (t : Thread) (i : Nat) : Thread :=
  { t with
    codeCacheMeta := Function.update t.codeCacheMeta i
      { t.codeCacheMeta i with trampolineSlotsUsed := (t.codeCacheMeta i).trampolineSlotsUsed + 1 } }

/-- The JALs in the slots; none where an assertion fails. -/
def commit (target : Word) : List (Nat × Word) → Thread → Option (Word × Thread)
  | [], t => some (target, t)
  | (i, addr) :: slots, t => do
    let jal ← jalHelper addr target zero
    commit addr slots ((t.write addr jal).useSlot i)

variable (trampolinesSizeBbs : Nat)

def tryJumpTrampolines (t : Thread) (source target : Word) : Option (Int × Thread) :=
  if addressDistance source target ≥ trampolineMaxDistance then some (-1, t)
  else
    match collect trampolinesSizeBbs t source trampolineMaxHops target with
    | none => some (-1, t)
    | some slots => do
      let (nextTarget, t) ← commit target slots t
      let jal ← jalHelper source nextTarget zero
      return (0, t.write source jal)

end Commit

section Found

variable {trampolinesSizeBbs : Nat} {t : Thread} {source target : Word} {i : Nat} {addr : Word}

structure Usable (trampolinesSizeBbs : Nat) (t : Thread) (source target : Word) (slot : Nat × Word) : Prop where
  ge : trampolinesSizeBbs ≤ slot.1
  lt : slot.1 < t.freeBlock
  reserved : (t.codeCacheMeta slot.1).trampolineAddr ≠ 0
  free : (t.codeCacheMeta slot.1).trampolineSlotsUsed < trampolineSlots
  addr : slot.2 = slotAddr (t.codeCacheMeta slot.1) (t.codeCacheMeta slot.1).trampolineSlotsUsed
  between : between source target slot.2 = true
  reaches : jalCanReach slot.2 target = true

theorem visit_usable {best : Option (Nat × Word)}
    (hbest : ∀ slot, best = some slot → Usable trampolinesSizeBbs t source target slot)
    (hge : trampolinesSizeBbs ≤ i) (hlt : i < t.freeBlock) {slot : Nat × Word}
    (h : visit t source target best i = some slot) : Usable trampolinesSizeBbs t source target slot := by
  rw [visit] at h
  dsimp only at h
  split_ifs at h with hskip hout
  · exact hbest slot h
  · exact hbest slot h
  · rw [not_or, not_le] at hskip
    rw [not_or, not_not, not_not] at hout
    have hnew : Usable trampolinesSizeBbs t source target
        (i, slotAddr (t.codeCacheMeta i) (t.codeCacheMeta i).trampolineSlotsUsed) :=
      ⟨hge, hlt, hskip.1, hskip.2, rfl, hout.1, hout.2⟩
    split at h
    · obtain rfl := Option.some.inj h
      exact hnew
    · split_ifs at h
      · obtain rfl := Option.some.inj h
        exact hnew
      · exact hbest slot h

theorem findTrampolineSlot_usable {slot : Nat × Word}
    (h : findTrampolineSlot trampolinesSizeBbs t source target = some slot) :
    Usable trampolinesSizeBbs t source target slot := by
  have hfold : ∀ (is : List Nat) (best : Option (Nat × Word)),
      (∀ i ∈ is, trampolinesSizeBbs ≤ i ∧ i < t.freeBlock) →
      (∀ slot, best = some slot → Usable trampolinesSizeBbs t source target slot) →
      ∀ slot, is.foldl (visit t source target) best = some slot → Usable trampolinesSizeBbs t source target slot := by
    intro is
    induction is with
    | nil => exact fun best _ hbest slot hslot => hbest slot hslot
    | cons i is ih =>
        intro best his hbest
        obtain ⟨hge, hlt⟩ := his i List.mem_cons_self
        exact ih _ (fun j hj => his j (List.mem_cons_of_mem i hj)) fun slot hslot => visit_usable hbest hge hlt hslot
  refine hfold _ none (fun i hi => ?_) (fun slot hslot => absurd hslot (by simp)) slot h
  obtain ⟨hge, hlt⟩ := List.mem_range'_1.mp hi
  exact ⟨hge, by omega⟩

def Chain (trampolinesSizeBbs : Nat) (t : Thread) (source : Word) : Word → List (Nat × Word) → Prop
  | target, [] => jalCanReach source target = true
  | target, slot :: slots => Usable trampolinesSizeBbs t source target slot ∧
    Chain trampolinesSizeBbs t source slot.2 slots

theorem collect_chain {hops : Nat} {slots : List (Nat × Word)}
    (h : collect trampolinesSizeBbs t source hops target = some slots) :
    Chain trampolinesSizeBbs t source target slots := by
  induction hops generalizing target slots with
  | zero =>
      rw [collect] at h
      split_ifs at h with hreach
      obtain rfl := Option.some.inj h
      exact hreach
  | succ hops ih =>
      rw [collect] at h
      split_ifs at h with hreach
      · obtain rfl := Option.some.inj h
        exact hreach
      · simp only [Option.bind_eq_bind, Option.bind_eq_some_iff, Option.pure_def, Option.some.injEq] at h
        obtain ⟨slot, hslot, rest, hrest, rfl⟩ := h
        exact ⟨findTrampolineSlot_usable hslot, ih hrest⟩

end Found

section Paths

variable {source target : Word} {slots : List (Nat × Word)} {R S : Word → Word → Prop}

/-- Where the jumps from a source go. -/
def path (source target : Word) (slots : List (Nat × Word)) : List Word :=
  source :: ((slots.map Prod.snd).reverse ++ [target])

def lastTarget : Word → List (Nat × Word) → Word
  | target, [] => target
  | _, slot :: slots => lastTarget slot.2 slots

def Hops (R : Word → Word → Prop) : Word → List (Nat × Word) → Prop
  | _, [] => True
  | target, slot :: slots => R slot.2 target ∧ Hops R slot.2 slots

theorem Hops.isChain (h : Hops R target slots) (hsource : R source (lastTarget target slots)) :
    (path source target slots).IsChain R := by
  induction slots generalizing target with
  | nil =>
      rw [path, List.map_nil, List.reverse_nil, List.nil_append, List.isChain_pair]
      exact hsource
  | cons slot slots ih =>
      have hrest := ih h.2 hsource
      have heq : path source target (slot :: slots) =
          (source :: (slots.map Prod.snd).reverse) ++ slot.2 :: target :: [] := by
        simp [path]
      rw [heq, List.isChain_append_cons_cons]
      exact ⟨hrest, h.1, List.isChain_singleton _⟩

end Paths

section Order

variable {trampolinesSizeBbs : Nat} {t : Thread} {source target : Word} {slots : List (Nat × Word)}

theorem Chain.reaches (h : Chain trampolinesSizeBbs t source target slots) :
    Hops (fun a b => jalCanReach a b = true) target slots ∧ jalCanReach source (lastTarget target slots) = true := by
  induction slots generalizing target with
  | nil => exact ⟨trivial, h⟩
  | cons slot slots ih =>
      obtain ⟨hslot, hrest⟩ := h
      exact ⟨⟨hslot.reaches, (ih hrest).1⟩, (ih hrest).2⟩

theorem between_up (hlt : source.toNat < target.toNat) {a : Word} (h : between source target a = true) :
    source.toNat < a.toNat ∧ a.toNat < target.toNat := by
  rwa [between, if_pos hlt, decide_eq_true_iff] at h

theorem between_down (hle : ¬ source.toNat < target.toNat) {a : Word} (h : between source target a = true) :
    a.toNat < source.toNat ∧ target.toNat < a.toNat := by
  rwa [between, if_neg hle, decide_eq_true_iff] at h

theorem Chain.up (h : Chain trampolinesSizeBbs t source target slots) (hlt : source.toNat < target.toNat) :
    Hops (fun a b => a.toNat < b.toNat) target slots ∧ source.toNat < (lastTarget target slots).toNat := by
  induction slots generalizing target with
  | nil => exact ⟨trivial, hlt⟩
  | cons slot slots ih =>
      obtain ⟨hslot, hrest⟩ := h
      obtain ⟨hfrom, hto⟩ := between_up hlt hslot.between
      exact ⟨⟨hto, (ih hrest hfrom).1⟩, (ih hrest hfrom).2⟩

theorem Chain.down (h : Chain trampolinesSizeBbs t source target slots) (hlt : target.toNat < source.toNat) :
    Hops (fun a b => b.toNat < a.toNat) target slots ∧ (lastTarget target slots).toNat < source.toNat := by
  induction slots generalizing target with
  | nil => exact ⟨trivial, hlt⟩
  | cons slot slots ih =>
      obtain ⟨hslot, hrest⟩ := h
      obtain ⟨hfrom, hto⟩ := between_down (lt_asymm hlt) hslot.between
      exact ⟨⟨hto, (ih hrest hfrom).1⟩, (ih hrest hfrom).2⟩

theorem isChain_pairwise {R : Word → Word → Prop} {l : List Word} (h : l.IsChain R)
    (htrans : ∀ a b c, R a b → R b c → R a c) : l.Pairwise R := by
  have : Trans R R R := ⟨htrans _ _ _⟩
  exact List.isChain_iff_pairwise.mp h

theorem Chain.empty_of_eq (h : Chain trampolinesSizeBbs t source source slots) : slots = [] := by
  cases slots with
  | nil => rfl
  | cons slot slots =>
      obtain ⟨hfrom, hto⟩ := between_down (lt_irrefl source.toNat) h.1.between
      exact absurd hto (lt_asymm hfrom)

theorem path_pairwise {R : Word → Word → Prop} (h : (path source target slots).Pairwise R) :
    (slots.map Prod.snd).reverse.Pairwise R ∧ (∀ slot ∈ slots, R source slot.2) ∧ ∀ slot ∈ slots, R slot.2 target := by
  obtain ⟨hsource, hrest⟩ := List.pairwise_cons.mp h
  obtain ⟨hslots, -, htarget⟩ := List.pairwise_append.mp hrest
  have hmem : ∀ slot ∈ slots, slot.2 ∈ (slots.map Prod.snd).reverse := fun slot hslot =>
    List.mem_reverse.mpr (List.mem_map_of_mem hslot)
  exact ⟨hslots, fun slot hslot => hsource _ (List.mem_append_left _ (hmem slot hslot)),
    fun slot hslot => htarget _ (hmem slot hslot) _ (List.mem_singleton_self target)⟩

theorem Chain.monotone (h : Chain trampolinesSizeBbs t source target slots) :
    ((slots.map Prod.snd).reverse.Pairwise (fun a b => a.toNat < b.toNat) ∨
      (slots.map Prod.snd).reverse.Pairwise (fun a b => b.toNat < a.toNat)) ∧
      ∀ slot ∈ slots, between source target slot.2 = true := by
  rcases lt_trichotomy source.toNat target.toNat with hlt | heq | hgt
  · obtain ⟨hhops, hsource⟩ := h.up hlt
    obtain ⟨hslots, hfrom, hto⟩ := path_pairwise
      (isChain_pairwise (hhops.isChain hsource) fun _ _ _ h1 h2 => h1.trans h2)
    refine ⟨Or.inl hslots, fun slot hmem => ?_⟩
    rw [between, if_pos hlt, decide_eq_true_iff]
    exact ⟨hfrom slot hmem, hto slot hmem⟩
  · obtain rfl := BitVec.eq_of_toNat_eq heq
    rw [h.empty_of_eq]
    exact ⟨Or.inl List.Pairwise.nil, fun slot hmem => absurd hmem (by simp)⟩
  · obtain ⟨hhops, hsource⟩ := h.down hgt
    obtain ⟨hslots, hfrom, hto⟩ := path_pairwise
      (isChain_pairwise (hhops.isChain hsource) fun _ _ _ h1 h2 => h2.trans h1)
    refine ⟨Or.inr hslots, fun slot hmem => ?_⟩
    rw [between, if_neg (lt_asymm hgt), decide_eq_true_iff]
    exact ⟨hfrom slot hmem, hto slot hmem⟩

theorem Chain.nodup (h : Chain trampolinesSizeBbs t source target slots) : (slots.map Prod.snd).Nodup := by
  rw [← List.nodup_reverse]
  rcases h.monotone.1 with hp | hp
  · exact hp.imp fun hlt heq => absurd (congrArg BitVec.toNat heq) hlt.ne
  · exact hp.imp fun hlt heq => absurd (congrArg BitVec.toNat heq) hlt.ne'

theorem Chain.usable (h : Chain trampolinesSizeBbs t source target slots) {slot : Nat × Word} (hmem : slot ∈ slots) :
    ∃ next, Usable trampolinesSizeBbs t source next slot := by
  induction slots generalizing target with
  | nil => exact absurd hmem (by simp)
  | cons slot' slots ih =>
      rcases List.mem_cons.mp hmem with rfl | hrest
      · exact ⟨target, h.1⟩
      · exact ih h.2 hrest

theorem Chain.blocks_nodup (h : Chain trampolinesSizeBbs t source target slots) : (slots.map Prod.fst).Nodup := by
  have haddrs := h.nodup
  rw [List.Nodup, List.pairwise_map] at haddrs ⊢
  refine haddrs.imp_of_mem fun {p q} hp hq hne heq => hne ?_
  obtain ⟨_, hp'⟩ := h.usable hp
  obtain ⟨_, hq'⟩ := h.usable hq
  rw [hp'.addr, hq'.addr, heq]

end Order

section Writing

variable {trampolinesSizeBbs : Nat} {t : Thread} {source target : Word} {slots : List (Nat × Word)} {code code' : Code}
  {a b x : Word}

/-- One of the four bytes of an instruction. -/
def Covers (a x : Word) : Prop := ∃ k, k < 4 ∧ x = past a k

def Hop (code : Code) (a b : Word) : Prop :=
  ∃ imm, fetch code a = some (.jal zero imm) ∧ ∀ s : State, exec (.jal zero imm) (s.goto a) = s.goto b

theorem Hop.steps (h : Hop code a b) (s : State) : Steps rv (fetch code) (s.goto a) (s.goto b) := by
  obtain ⟨imm, hfetch, hexec⟩ := h
  exact steps_exec hfetch (hexec s)

theorem Hop.congr (h : Hop code a b) (hsame : ∀ x, Covers a x → code x = code' x) : Hop code' a b := by
  obtain ⟨imm, hfetch, hexec⟩ := h
  exact ⟨imm, fetch_congr hfetch fun k hk => hsame _ ⟨k, hk, rfl⟩, hexec⟩

theorem jalHelper_of_reach (h : jalCanReach a b = true) :
    ∃ imm, jalHelper a b zero = some (.jal zero imm) ∧ ∀ s : State, exec (.jal zero imm) (s.goto a) = s.goto b := by
  rw [jalCanReach, decide_eq_true_iff] at h
  obtain ⟨heven, hge, hlt⟩ := h
  rw [jalRange] at hge hlt
  have hfits : ¬ (b - a &&& 1 ≠ 0 ∨ (b - a).toInt < -1024 * 1024 ∨ (b - a).toInt ≥ 1024 * 1024) := by
    rw [not_or, not_or, not_not, not_lt, not_le]
    exact ⟨heven, by omega, by omega⟩
  obtain ⟨imm, hjal⟩ : ∃ imm, jalHelper a b zero = some (.jal zero imm) := ⟨_, if_neg hfits⟩
  exact ⟨imm, hjal, fun s => jalHelper_exec hjal s⟩

theorem Thread.write_hop (h : jalCanReach a b = true) (t : Thread) :
    ∃ imm, jalHelper a b zero = some (.jal zero imm) ∧ Hop (t.write a (.jal zero imm)).code a b ∧
      ∀ x, ¬ Covers a x → (t.write a (.jal zero imm)).code x = t.code x := by
  obtain ⟨imm, hjal, hexec⟩ := jalHelper_of_reach h
  have hput : fetch (put a (.jal zero imm) t.code) a = some (.jal zero imm) := fetch_put
  refine ⟨imm, hjal, ⟨imm, hput, hexec⟩, fun x hx => ?_⟩
  rw [Thread.write_code, put_outside]
  exact fun k hk heq => hx ⟨k, hk, heq⟩

theorem Hops.congr (h : Hops (Hop code) target slots) (hsame : ∀ slot ∈ slots, ∀ x, Covers slot.2 x → code x = code' x) :
    Hops (Hop code') target slots := by
  induction slots generalizing target with
  | nil => trivial
  | cons slot slots ih =>
      refine ⟨h.1.congr (hsame slot List.mem_cons_self), ih h.2 fun slot' hmem => ?_⟩
      exact hsame slot' (List.mem_cons_of_mem slot hmem)

def taken (slots : List (Nat × Word)) (i : Nat) : Nat := (slots.map Prod.fst).count i

theorem commit_spec (hreach : Hops (fun a b => jalCanReach a b = true) target slots)
    (hapart : slots.Pairwise fun p q => ∀ x, Covers p.2 x → ¬ Covers q.2 x) (t : Thread) :
    ∃ t', commit target slots t = some (lastTarget target slots, t') ∧ Hops (Hop t'.code) target slots ∧
      (∀ x, (∀ slot ∈ slots, ¬ Covers slot.2 x) → t'.code x = t.code x) ∧ t'.freeBlock = t.freeBlock ∧
      ∀ i, t'.codeCacheMeta i = ⟨(t.codeCacheMeta i).trampolineAddr,
        (t.codeCacheMeta i).trampolineSlotsUsed + taken slots i⟩ := by
  induction slots generalizing target t with
  | nil => exact ⟨t, rfl, trivial, fun _ _ => rfl, rfl, fun _ => rfl⟩
  | cons slot slots ih =>
      obtain ⟨hslot, hrest⟩ := hreach
      obtain ⟨hfirst, hlater⟩ := List.pairwise_cons.mp hapart
      obtain ⟨imm, hjal, hhop, houtside⟩ := t.write_hop hslot
      obtain ⟨t', hcommit, hhops, hcode, hfree, hmeta⟩ := ih hrest hlater ((t.write slot.2 (.jal zero imm)).useSlot slot.1)
      refine ⟨t', ?_, ⟨hhop.congr fun x hx => ?_, hhops⟩, fun x hx => ?_, hfree, fun i => ?_⟩
      · rw [commit, hjal]
        exact hcommit
      · exact (hcode x fun slot' hmem => hfirst slot' hmem x hx).symm
      · rw [hcode x fun slot' hmem => hx slot' (List.mem_cons_of_mem slot hmem)]
        exact houtside x (hx slot List.mem_cons_self)
      · rw [hmeta i, taken, taken, List.map_cons, List.count_cons]
        by_cases hi : slot.1 = i
        · subst hi
          simp [Thread.useSlot, Thread.write, Nat.add_assoc, Nat.add_comm 1]
        · simp [Thread.useSlot, Thread.write, Function.update_of_ne (Ne.symm hi), hi]

end Writing

section Sound

variable {trampolinesSizeBbs : Nat} {t t' : Thread} {source target : Word} {slots : List (Nat × Word)} {a x : Word}

variable (trampolinesSizeBbs) in
structure Reserved (t : Thread) (i : Nat) : Prop where
  ge : trampolinesSizeBbs ≤ i
  lt : i < t.freeBlock
  addr : (t.codeCacheMeta i).trampolineAddr ≠ 0

variable (trampolinesSizeBbs) in
/-- The reserved areas lie in the address space, in the order of their blocks. -/
structure WellFormed (t : Thread) : Prop where
  used : ∀ i, (t.codeCacheMeta i).trampolineSlotsUsed ≤ trampolineSlots
  fits : ∀ i, Reserved trampolinesSizeBbs t i →
    (t.codeCacheMeta i).trampolineAddr.toNat + 4 * trampolineSlots ≤ 2 ^ 64
  apart : ∀ i j, Reserved trampolinesSizeBbs t i → Reserved trampolinesSizeBbs t j → i < j →
    (t.codeCacheMeta i).trampolineAddr.toNat + 4 * trampolineSlots ≤ (t.codeCacheMeta j).trampolineAddr.toNat

variable (trampolinesSizeBbs) in
/-- Room for a jump outside the reserved areas. -/
structure Site (t : Thread) (source : Word) : Prop where
  fits : source.toNat + 4 ≤ 2 ^ 64
  apart : ∀ i, Reserved trampolinesSizeBbs t i → source.toNat + 4 ≤ (t.codeCacheMeta i).trampolineAddr.toNat ∨
    (t.codeCacheMeta i).trampolineAddr.toNat + 4 * trampolineSlots ≤ source.toNat

theorem Covers.range (h : Covers a x) (hfits : a.toNat + 4 ≤ 2 ^ 64) : a.toNat ≤ x.toNat ∧ x.toNat < a.toNat + 4 := by
  obtain ⟨k, hk, rfl⟩ := h
  rw [past, BitVec.toNat_add, BitVec.toNat_ofNat, Nat.mod_eq_of_lt (show k < 2 ^ 64 by omega),
    Nat.mod_eq_of_lt (by omega)]
  omega

theorem WellFormed.covers (hwf : WellFormed trampolinesSizeBbs t) {i k : Nat} (hi : Reserved trampolinesSizeBbs t i)
    (hk : k < trampolineSlots) (h : Covers (slotAddr (t.codeCacheMeta i) k) x) :
    (t.codeCacheMeta i).trampolineAddr.toNat + 4 * k ≤ x.toNat ∧
      x.toNat < (t.codeCacheMeta i).trampolineAddr.toNat + 4 * k + 4 := by
  have hfits := hwf.fits i hi
  rw [trampolineSlots] at hk hfits
  have haddr : (slotAddr (t.codeCacheMeta i) k).toNat = (t.codeCacheMeta i).trampolineAddr.toNat + 4 * k := by
    rw [slotAddr, past, BitVec.toNat_add, BitVec.toNat_ofNat, Nat.mod_eq_of_lt (show 4 * k < 2 ^ 64 by omega),
      Nat.mod_eq_of_lt (by omega)]
  rw [← haddr]
  exact h.range (by omega)

theorem WellFormed.slots_apart (hwf : WellFormed trampolinesSizeBbs t) {i j k l : Nat}
    (hi : Reserved trampolinesSizeBbs t i) (hj : Reserved trampolinesSizeBbs t j) (hk : k < trampolineSlots)
    (hl : l < trampolineSlots) (hne : ¬ (i = j ∧ k = l)) (h : Covers (slotAddr (t.codeCacheMeta i) k) x) :
    ¬ Covers (slotAddr (t.codeCacheMeta j) l) x := by
  intro h'
  have hx := hwf.covers hi hk h
  have hx' := hwf.covers hj hl h'
  rw [trampolineSlots] at hk hl
  rcases lt_trichotomy i j with hlt | heq | hgt
  · have hapart := hwf.apart i j hi hj hlt
    rw [trampolineSlots] at hapart
    omega
  · subst heq
    omega
  · have hapart := hwf.apart j i hj hi hgt
    rw [trampolineSlots] at hapart
    omega

theorem Site.not_covers (hsite : Site trampolinesSizeBbs t source) (hwf : WellFormed trampolinesSizeBbs t) {i k : Nat}
    (hi : Reserved trampolinesSizeBbs t i) (hk : k < trampolineSlots)
    (h : Covers (slotAddr (t.codeCacheMeta i) k) x) : ¬ Covers source x := by
  intro h'
  have hx := hwf.covers hi hk h
  have hx' := h'.range hsite.fits
  have hapart := hsite.apart i hi
  rw [trampolineSlots] at hk hapart
  omega

theorem Usable.reserved_block {next : Word} {slot : Nat × Word}
    (h : Usable trampolinesSizeBbs t source next slot) : Reserved trampolinesSizeBbs t slot.1 :=
  ⟨h.ge, h.lt, h.reserved⟩

theorem Chain.cells_apart (h : Chain trampolinesSizeBbs t source target slots)
    (hwf : WellFormed trampolinesSizeBbs t) :
    slots.Pairwise fun p q => ∀ x, Covers p.2 x → ¬ Covers q.2 x := by
  have hblocks := h.blocks_nodup
  rw [List.Nodup, List.pairwise_map] at hblocks
  refine hblocks.imp_of_mem fun {p q} hp hq hne x hx => ?_
  obtain ⟨_, hp'⟩ := h.usable hp
  obtain ⟨_, hq'⟩ := h.usable hq
  rw [hp'.addr] at hx
  rw [hq'.addr]
  exact hwf.slots_apart hp'.reserved_block hq'.reserved_block hp'.free hq'.free (fun heq => hne heq.1) hx

variable (trampolinesSizeBbs) in
/-- What a successful attempt leaves: slots that lead from the source to the
target, which were free in their blocks and are counted now. -/
structure Led (t t' : Thread) (source target : Word) (slots : List (Nat × Word)) : Prop where
  hops : (path source target slots).IsChain (Hop t'.code)
  inRange : (path source target slots).IsChain fun a b => jalCanReach a b = true
  monotone : (slots.map Prod.snd).reverse.Pairwise (fun a b => a.toNat < b.toNat) ∨
    (slots.map Prod.snd).reverse.Pairwise (fun a b => b.toNat < a.toNat)
  distinct : (slots.map Prod.snd).Nodup
  blocks : (slots.map Prod.fst).Nodup
  between : ∀ slot ∈ slots, between source target slot.2 = true
  reserved : ∀ slot ∈ slots, Reserved trampolinesSizeBbs t slot.1 ∧
    (t.codeCacheMeta slot.1).trampolineSlotsUsed < trampolineSlots ∧
    slot.2 = slotAddr (t.codeCacheMeta slot.1) (t.codeCacheMeta slot.1).trampolineSlotsUsed
  outside : ∀ x, ¬ Covers source x → (∀ slot ∈ slots, ¬ Covers slot.2 x) → t'.code x = t.code x
  freeBlock : t'.freeBlock = t.freeBlock
  counted : ∀ i, t'.codeCacheMeta i =
    ⟨(t.codeCacheMeta i).trampolineAddr, (t.codeCacheMeta i).trampolineSlotsUsed + taken slots i⟩

theorem Led.used_le (h : Led trampolinesSizeBbs t t' source target slots)
    (hused : ∀ i, (t.codeCacheMeta i).trampolineSlotsUsed ≤ trampolineSlots) (i : Nat) :
    (t'.codeCacheMeta i).trampolineSlotsUsed ≤ trampolineSlots := by
  have hone : taken slots i ≤ 1 := List.nodup_iff_count_le_one.mp h.blocks i
  rw [h.counted i]
  show (t.codeCacheMeta i).trampolineSlotsUsed + taken slots i ≤ trampolineSlots
  by_cases hzero : taken slots i = 0
  · rw [hzero]
    exact hused i
  · have hmem : i ∈ slots.map Prod.fst := List.count_pos_iff.mp (Nat.pos_of_ne_zero hzero)
    obtain ⟨slot, hslot, rfl⟩ := List.mem_map.mp hmem
    have hfree := (h.reserved slot hslot).2.1
    omega

/-- The attempt either leads to the target or leaves everything as it is, and no
assertion in it fails. -/
theorem tryJumpTrampolines_cases (hwf : WellFormed trampolinesSizeBbs t) (hsite : Site trampolinesSizeBbs t source)
    (target : Word) :
    tryJumpTrampolines trampolinesSizeBbs t source target = some (-1, t) ∨
      ∃ t' slots, tryJumpTrampolines trampolinesSizeBbs t source target = some (0, t') ∧
        Led trampolinesSizeBbs t t' source target slots := by
  rw [tryJumpTrampolines]
  split_ifs with hfar
  · exact Or.inl rfl
  cases hcollect : collect trampolinesSizeBbs t source trampolineMaxHops target with
  | none => exact Or.inl rfl
  | some slots =>
      right
      have hchain := collect_chain hcollect
      obtain ⟨hreach, hsource⟩ := hchain.reaches
      obtain ⟨t₁, hcommit, hhops, hcode, hfree, hmeta⟩ := commit_spec hreach (hchain.cells_apart hwf) t
      obtain ⟨imm, hjal, hhop, houtside⟩ := t₁.write_hop hsource
      have hclear : ∀ slot ∈ slots, ∀ x, Covers slot.2 x → ¬ Covers source x := by
        intro slot hmem x hx
        obtain ⟨_, hslot⟩ := hchain.usable hmem
        rw [hslot.addr] at hx
        exact hsite.not_covers hwf hslot.reserved_block hslot.free hx
      have hhops' : Hops (Hop (t₁.write source (.jal zero imm)).code) target slots :=
        hhops.congr fun slot hmem x hx => (houtside x (hclear slot hmem x hx)).symm
      refine ⟨t₁.write source (.jal zero imm), slots, ?_, hhops'.isChain hhop, hreach.isChain hsource, hchain.monotone.1,
        hchain.nodup, hchain.blocks_nodup, hchain.monotone.2, fun slot hmem => ?_, fun x hx hx' => ?_, hfree, hmeta⟩
      · simp [hcommit, hjal]
      · obtain ⟨_, hslot⟩ := hchain.usable hmem
        exact ⟨hslot.reserved_block, hslot.free, hslot.addr⟩
      · rw [houtside x hx, hcode x hx']

end Sound

end Mambo.RvTrampolines
