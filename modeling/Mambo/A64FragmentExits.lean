import Mambo.A64ScanExits
import Mambo.A64TraceRuns
import Mambo.FragmentIds

namespace Mambo.A64FragmentExits

open A64Scan A64ScanExits TraceState TraceLog TraceRuns A64Traces A64TraceRuns

section Results

variable {T α β : Type}

/-- The hash table refuses an entry. -/
def HashFull (env : Env T) : Prop := ∃ table key value, (env.hashAdd table key value).2 = false

/-- A call does not reach an endless loop, unless the hash table is full, and returns
a result with a property. -/
structure Returns (env : Env T) (x : Except Stop α) (p : α → Prop) : Prop where
  endless : x = .error .endless → HashFull env
  ok : ∀ a, x = .ok a → p a

variable {env : Env T} {x y : Except Stop α} {f : α → Except Stop β} {p q : α → Prop} {r : β → Prop}

theorem returns_ok {a : α} (h : p a) : Returns env (.ok a) p := by
  refine ⟨?_, ?_⟩
  · intro he
    cases he
  · intro b hb
    rwa [← Except.ok.inj hb]

theorem returns_error {e : Stop} (h : e = .endless → HashFull env) : Returns env (.error e) p :=
  ⟨fun he => h (Except.error.inj he), fun _ ha => by cases ha⟩

theorem returns_assertion : Returns env (.error .assertion) p := returns_error fun h => by cases h

theorem Returns.bind (hx : Returns env x p) (hf : ∀ a, p a → Returns env (f a) r) : Returns env (x >>= f) r := by
  cases x with
  | error e => exact returns_error fun he => hx.endless (congrArg Except.error he)
  | ok a => exact hf a (hx.ok a rfl)

theorem Returns.mono (hx : Returns env x p) (h : ∀ a, p a → q a) : Returns env x q :=
  ⟨hx.endless, fun a ha => h a (hx.ok a ha)⟩

theorem returns_ite {c : Prop} [Decidable c] (hx : c → Returns env x p) (hy : ¬ c → Returns env y p) :
    Returns env (if c then x else y) p := by
  by_cases h : c
  · rw [if_pos h]
    exact hx h
  · rw [if_neg h]
    exact hy h

end Results

section Invariant

variable {T : Type} (mambo : Addresses) (program : Nat → Guest) (fuel n : Nat)

def fragmentPart (m : CodeCacheMeta) : Nat × Nat × Nat × BranchType × List Nat :=
  (m.sourceAddr, m.tpc, m.actualId, exitFields m)

/-- A fragment that has the exit of its own scan, or an exit stub. -/
def Own (id : Nat) (m : CodeCacheMeta) : Prop :=
  WrittenByScan mambo program fuel n id m ∨ m.exitBranchType = .traceExit

/-- The fragments and blocks, except for one that is being scanned, have the exits
of their scans. -/
structure Sound (env : Env T) (skip : Option Nat) (t : Thread T) : Prop where
  ids : codeCacheSize ≤ t.traceId ∧ t.traceId ≤ t.activeTrace.id
  free : 0 < t.freeBlock
  fragments : ∀ i, some i ≠ skip → codeCacheSize ≤ i → i < t.activeTrace.id → Own mambo program fuel n i (t.codeCacheMeta i)
  stubless : ∀ i, i < codeCacheSize → (t.codeCacheMeta i).exitBranchType ≠ .stub
  heads : ∀ i, some i ≠ skip → i < codeCacheSize → env.trampolinesSizeBbs ≤ i → i < t.freeBlock →
    (t.codeCacheMeta i).actualId = 0 → isTraceHead program fuel (t.codeCacheMeta i).sourceAddr →
    directExit (t.codeCacheMeta i).exitBranchType

def Conditional (exits : List TraceExit) : Prop := ∀ e ∈ exits, ∃ max, condBranchRange e.kind = .ok max

structure Awaits (t : Thread T) (f : Nat) : Prop where
  first : codeCacheSize ≤ f
  direct : directExit (t.codeCacheMeta f).exitBranchType
  written : WrittenByScan mambo program fuel n f (t.codeCacheMeta f)
  exits : Conditional t.activeTrace.exits

def Left (env : Env T) (r : Thread T × Outcome) : Prop :=
  Sound mambo program fuel n env none r.1 ∧ ∀ f, r.2.fragment = some f → Awaits mambo program fuel n r.1 f

variable {mambo program fuel n} {env : Env T} {t t' : Thread T} {skip : Option Nat} {id : Nat} {m m' : CodeCacheMeta}

theorem part_type (h : fragmentPart m' = fragmentPart m) : m'.exitBranchType = m.exitBranchType :=
  congrArg (fun p => p.2.2.2.1) h

theorem written_congr (h : fragmentPart m' = fragmentPart m) (hm : WrittenByScan mambo program fuel n id m) :
    WrittenByScan mambo program fuel n id m' := by
  have hsource : m'.sourceAddr = m.sourceAddr := congrArg (fun p => p.1) h
  have htpc : m'.tpc = m.tpc := congrArg (fun p => p.2.1) h
  have hexit : exitFields m' = exitFields m := congrArg (fun p => p.2.2.2) h
  obtain ⟨type, freeBlock, htype, hall⟩ := hm
  refine ⟨type, freeBlock, htype, fun before => ?_⟩
  rw [hsource, htpc, hexit]
  exact hall before

theorem own_congr (h : fragmentPart m' = fragmentPart m) (hm : Own mambo program fuel n id m) :
    Own mambo program fuel n id m' := by
  rcases hm with hwritten | hstub
  · exact Or.inl (written_congr h hwritten)
  · exact Or.inr ((part_type h).trans hstub)

/-- A part of a call that the exits do not depend on. -/
structure Untouched (t t' : Thread T) : Prop where
  part : ∀ i, fragmentPart (t'.codeCacheMeta i) = fragmentPart (t.codeCacheMeta i)
  free : t'.freeBlock = t.freeBlock
  traceId : t'.traceId = t.traceId
  id : t'.activeTrace.id = t.activeTrace.id
  exits : t'.activeTrace.exits = t.activeTrace.exits

theorem Untouched.trans {t'' : Thread T} (h : Untouched t t') (h' : Untouched t' t'') : Untouched t t'' :=
  ⟨fun i => (h'.part i).trans (h.part i), h'.free.trans h.free, h'.traceId.trans h.traceId, h'.id.trans h.id,
    h'.exits.trans h.exits⟩

theorem Sound.untouched (h : Sound mambo program fuel n env skip t) (hsame : Untouched t t') :
    Sound mambo program fuel n env skip t' := by
  refine ⟨?_, ?_, ?_, ?_, ?_⟩
  · rw [hsame.traceId, hsame.id]
    exact h.ids
  · rw [hsame.free]
    exact h.free
  · intro i hskip hge hlt
    rw [hsame.id] at hlt
    exact own_congr (hsame.part i) (h.fragments i hskip hge hlt)
  · intro i hi
    rw [part_type (hsame.part i)]
    exact h.stubless i hi
  · intro i hskip hlt hge hfree hid hhead
    rw [hsame.free] at hfree
    have hid' : (t'.codeCacheMeta i).actualId = (t.codeCacheMeta i).actualId :=
      congrArg (fun p => p.2.2.1) (hsame.part i)
    have hsource : (t'.codeCacheMeta i).sourceAddr = (t.codeCacheMeta i).sourceAddr := congrArg (fun p => p.1) (hsame.part i)
    rw [hid'] at hid
    rw [hsource] at hhead
    rw [part_type (hsame.part i)]
    exact h.heads i hskip hlt hge hfree hid hhead

theorem untouched_log (e : Event) : Untouched t (t.log e) := ⟨fun _ => rfl, rfl, rfl, rfl, rfl⟩

theorem untouched_setCcLinks (links : Nat) : Untouched t (t.setCcLinks links) := ⟨fun _ => rfl, rfl, rfl, rfl, rfl⟩

theorem untouched_setWriteP (p : Nat) : Untouched t (t.setWriteP p) := ⟨fun _ => rfl, rfl, rfl, rfl, rfl⟩

theorem untouched_setMeta (id : Nat) {f : CodeCacheMeta → CodeCacheMeta} (h : ∀ m, fragmentPart (f m) = fragmentPart m) :
    Untouched t (t.setMeta id f) := by
  refine ⟨fun i => ?_, rfl, rfl, rfl, rfl⟩
  rw [Thread.setMeta]
  by_cases hi : i = id
  · subst hi
    dsimp only
    rw [Function.update_self]
    exact h _
  · dsimp only
    rw [Function.update_of_ne hi]

end Invariant

section Scans

variable {T : Type} {mambo : Addresses} {program : Nat → Guest} {fuel n : Nat} {env : Env T} {t t' : Thread T}
  {skip : Option Nat} {id target address writeP : Nat} {type : CcType}

theorem setMeta_apply (t : Thread T) (id i : Nat) (f : CodeCacheMeta → CodeCacheMeta) :
    (t.setMeta id f).codeCacheMeta i = if i = id then f (t.codeCacheMeta i) else t.codeCacheMeta i := by
  rw [Thread.setMeta]
  by_cases hi : i = id
  · subst hi
    dsimp only
    rw [Function.update_self, if_pos rfl]
  · dsimp only
    rw [Function.update_of_ne hi, if_neg hi]

theorem setMeta_self (t : Thread T) (id : Nat) (f : CodeCacheMeta → CodeCacheMeta) :
    (t.setMeta id f).codeCacheMeta id = f (t.codeCacheMeta id) := (setMeta_apply t id id f).trans (if_pos rfl)

theorem overflow_sound (h : Sound mambo program fuel n env skip t) (hid : id ≠ 0) :
    Sound mambo program fuel n env skip
      ((t.setMeta t.freeBlock fun m => { m with actualId := id }).setFreeBlock (t.freeBlock + 1)) := by
  refine ⟨h.ids, Nat.succ_pos _, ?_, ?_, ?_⟩
  · intro i hskip hge hlt
    have hown := h.fragments i hskip hge hlt
    rw [Thread.setFreeBlock, setMeta_apply]
    split_ifs
    · exact hown
    · exact hown
  · intro i hi
    have hstub := h.stubless i hi
    rw [Thread.setFreeBlock, setMeta_apply]
    split_ifs
    · exact hstub
    · exact hstub
  · intro i hskip hlt hge hfree
    rw [Thread.setFreeBlock, setMeta_apply]
    split_ifs with hi
    · intro hzero
      exact absurd hzero hid
    · have hfree' : i < t.freeBlock := Nat.lt_of_le_of_ne (Nat.le_of_lt_succ hfree) hi
      exact h.heads i hskip hlt hge hfree'

theorem allocateOverflows_sound (h : Sound mambo program fuel n env skip t) (hid : id ≠ 0) (k : Nat) :
    Returns env (allocateOverflows id k t) fun t' => Sound mambo program fuel n env skip t' ∧
      t'.activeTrace = t.activeTrace ∧ (t'.codeCacheMeta id).sourceAddr = (t.codeCacheMeta id).sourceAddr ∧
      (t'.codeCacheMeta id).tpc = (t.codeCacheMeta id).tpc := by
  induction k generalizing t with
  | zero => exact returns_ok ⟨h, rfl, rfl, rfl⟩
  | succ k ih =>
      rw [allocateOverflows]
      refine returns_ite (fun _ => ?_) fun _ => returns_assertion
      refine (ih (overflow_sound h hid)).mono fun t' h' => ?_
      have hmeta := setMeta_apply t t.freeBlock id fun m => { m with actualId := id }
      refine ⟨h'.1, h'.2.1, ?_, ?_⟩
      · rw [h'.2.2.1, Thread.setFreeBlock]
        dsimp only
        rw [hmeta]
        split_ifs <;> rfl
      · rw [h'.2.2.2, Thread.setFreeBlock]
        dsimp only
        rw [hmeta]
        split_ifs <;> rfl

theorem Sound.scanned {f : CodeCacheMeta → CodeCacheMeta} (h : Sound mambo program fuel n env (some id) t)
    (hown : codeCacheSize ≤ id → Own mambo program fuel n id (f (t.codeCacheMeta id)))
    (hstub : (f (t.codeCacheMeta id)).exitBranchType ≠ .stub)
    (hhead : id < codeCacheSize → isTraceHead program fuel (f (t.codeCacheMeta id)).sourceAddr →
      directExit (f (t.codeCacheMeta id)).exitBranchType) : Sound mambo program fuel n env none (t.setMeta id f) := by
  refine ⟨h.ids, h.free, ?_, ?_, ?_⟩
  · intro i _ hge hlt
    rw [setMeta_apply]
    split_ifs with hi
    · subst hi
      exact hown hge
    · exact h.fragments i (fun heq => hi (Option.some.inj heq)) hge hlt
  · intro i hi
    rw [setMeta_apply]
    split_ifs with heq
    · subst heq
      exact hstub
    · exact h.stubless i hi
  · intro i _ hlt hge hfree
    rw [setMeta_apply]
    split_ifs with hi
    · subst hi
      exact fun _ => hhead hlt
    · exact h.heads i (fun heq => hi (Option.some.inj heq)) hlt hge hfree

theorem Sound.begin (f : CodeCacheMeta → CodeCacheMeta) (h : Sound mambo program fuel n env (some id) t)
    (hstub : id < codeCacheSize → (f (t.codeCacheMeta id)).exitBranchType ≠ .stub) :
    Sound mambo program fuel n env (some id) (t.setMeta id f) := by
  refine ⟨h.ids, h.free, ?_, ?_, ?_⟩
  · intro i hskip hge hlt
    rw [setMeta_apply, if_neg fun heq => hskip (congrArg some heq)]
    exact h.fragments i hskip hge hlt
  · intro i hi
    rw [setMeta_apply]
    split_ifs with heq
    · subst heq
      exact hstub hi
    · exact h.stubless i hi
  · intro i hskip hlt hge hfree
    rw [setMeta_apply, if_neg fun heq => hskip (congrArg some heq)]
    exact h.heads i hskip hlt hge hfree

theorem untouched_entered (t : Thread T) (table : T) (e : Event) : Untouched t ((t.setEntryAddress table).log e) :=
  ⟨fun _ => rfl, rfl, rfl, rfl, rfl⟩

theorem exitType_cases {g : Guest} {type : BranchType} (h : exitType g = some type) :
    type ≠ .stub ∧ (type ≠ .uncondBranchReg → directExit type) := by
  cases g with
  | cbzCbnz | bCond | tbzTbnz | bBl =>
      obtain rfl := Option.some.inj h
      exact ⟨BranchType.noConfusion, fun _ => rfl⟩
  | indirect inst rn =>
      obtain rfl := Option.some.inj h
      exact ⟨BranchType.noConfusion, fun hne => absurd rfl hne⟩
  | svc | mrsMsrReg | ldrLit | adr | other | invalid | unhandled => cases h

theorem pass1_direct {a : Nat} (h : isTraceHead program fuel a) :
    pass1 program fuel a ≠ .unknown ∧ directExit (pass1 program fuel a) := by
  obtain ⟨hreg, hknown⟩ := of_decide_eq_true h
  obtain ⟨r, htype⟩ := pass1_some hknown
  exact ⟨hknown, (exitType_cases htype).2 hreg⟩

/-- A fragment or a block for which the scanner is called. -/
structure Begun (program : Nat → Guest) (type : CcType) (address id writeP : Nat) (t : Thread T) : Prop where
  positive : id ≠ 0
  source : (t.codeCacheMeta id).sourceAddr = address
  fragment : codeCacheSize ≤ id → type ≠ .bb ∧ (t.codeCacheMeta id).tpc = writeP ∧ Known program address
  block : (t.codeCacheMeta id).exitBranchType ≠ .stub ∨ codeCacheSize ≤ id

structure Ended (mambo : Addresses) (program : Nat → Guest) (fuel n address id : Nat) (t t' : Thread T) : Prop where
  active : t'.activeTrace = t.activeTrace
  fragment : codeCacheSize ≤ id → WrittenByScan mambo program fuel n id (t'.codeCacheMeta id) ∧
    ((t'.codeCacheMeta id).exitBranchType ≠ .uncondBranchReg → directExit (t'.codeCacheMeta id).exitBranchType)
  head : isTraceHead program fuel address → directExit (t'.codeCacheMeta id).exitBranchType

theorem scanCode_sound (hscanner : env.scanner = scannerA64 mambo program fuel n)
    (h : Sound mambo program fuel n env (some id) t) (hbegun : Begun program type address id writeP t) :
    Returns env (scanCode env t type address id writeP) fun r =>
      Sound mambo program fuel n env none r.1 ∧ Ended mambo program fuel n address id t r.1 := by
  rw [scanCode, hscanner]
  cases hscan : scannerA64 mambo program fuel n t type address id writeP with
  | error e =>
      refine returns_error ?_
      rw [scannerA64] at hscan
      split_ifs at hscan
      obtain rfl := Except.error.inj hscan
      exact fun he => by cases he
  | ok s =>
      obtain ⟨hexit, htype, hfields⟩ := scannerA64_ok hscan
      refine (allocateOverflows_sound h hbegun.positive s.overflow).bind fun t₁ h₁ => returns_ok ?_
      obtain ⟨h₁, hactive, hsource, htpc⟩ := h₁
      rw [hbegun.source] at hsource
      generalize hf : (fun m : CodeCacheMeta => { m with
        exitBranchType := s.exitBranchType
        exitBranchAddr := s.exitBranchAddr
        branchTakenAddr := s.branchTakenAddr
        branchSkippedAddr := s.branchSkippedAddr
        branchCondition := s.branchCondition }) = f
      have hftype : (f (t₁.codeCacheMeta id)).exitBranchType = s.exitBranchType := by rw [← hf]
      have hfsource : (f (t₁.codeCacheMeta id)).sourceAddr = address := by rw [← hf, ← hsource]
      have hhead : isTraceHead program fuel address → directExit s.exitBranchType := by
        intro hhead
        obtain ⟨hpass, hdirect⟩ := pass1_direct hhead
        rw [htype, scan_pass1 hpass hexit]
        exact hdirect
      have hown : codeCacheSize ≤ id → WrittenByScan mambo program fuel n id (f (t₁.codeCacheMeta id)) ∧
          (s.exitBranchType ≠ .uncondBranchReg → directExit s.exitBranchType) := by
        intro hid
        obtain ⟨hbb, htpc', hknown⟩ := hbegun.fragment hid
        obtain ⟨⟨r, hr⟩, hwritten⟩ := scan_written hbb hknown hexit
        rw [← htype] at hr
        refine ⟨hwritten _ hfsource ?_ ?_, (exitType_cases hr).2⟩
        · rw [← hf]
          exact htpc.trans htpc'
        · rw [← hf]
          exact hfields _
      have hstub : s.exitBranchType ≠ .stub := by
        rcases scan_type hexit with hbefore | ⟨r, hr⟩
        · rcases hbegun.block with hblock | hid
          · rw [htype, hbefore]
            exact hblock
          · obtain ⟨hbb, -, hknown⟩ := hbegun.fragment hid
            obtain ⟨⟨r, hr⟩, -⟩ := scan_written hbb hknown hexit
            rw [← htype] at hr
            exact (exitType_cases hr).1
        · rw [← htype] at hr
          exact (exitType_cases hr).1
      have hself := setMeta_self t₁ id f
      refine ⟨h₁.scanned (fun hid => Or.inl (hown hid).1) (by rwa [hftype]) ?_, hactive, ?_, ?_⟩
      · rw [hftype, hfsource]
        exact fun _ => hhead
      · intro hid
        rw [hself, hftype]
        exact hown hid
      · rw [hself, hftype]
        exact hhead

theorem flush_sound (hblocks : 0 < env.trampolinesSizeBbs) (t : Thread T) :
    Sound mambo program fuel n env none (flushCodeCache env t) := by
  refine ⟨⟨Nat.le_refl _, Nat.le_refl _⟩, hblocks, ?_, ?_, ?_⟩
  · intro i _ hge hlt
    exact absurd hlt (Nat.not_lt_of_le hge)
  · intro i hi
    rw [flushCodeCache]
    dsimp only
    rw [if_pos hi]
    exact BranchType.noConfusion
  · intro i _ _ hge hlt
    exact absurd hlt (Nat.not_lt_of_le hge)

theorem allocateBb_sound (hblocks : 0 < env.trampolinesSizeBbs) (hsize : env.trampolinesSizeBbs < codeCacheSize)
    (h : Sound mambo program fuel n env none t) :
    Sound mambo program fuel n env (some (allocateBb env t).2) (allocateBb env t).1 ∧ (allocateBb env t).2 ≠ 0 ∧
      (allocateBb env t).2 < codeCacheSize ∧ (allocateBb env t).1.activeTrace.exits = t.activeTrace.exits := by
  have hnext : ∀ u : Thread T, Sound mambo program fuel n env none u →
      Sound mambo program fuel n env (some u.freeBlock) (u.setFreeBlock (u.freeBlock + 1)) := by
    intro u hu
    refine ⟨hu.ids, Nat.succ_pos _, fun i _ => hu.fragments i (Option.some_ne_none i), hu.stubless, ?_⟩
    intro i hskip hlt hge hfree
    have hne : i ≠ u.freeBlock := fun heq => hskip (congrArg some heq)
    exact hu.heads i (Option.some_ne_none i) hlt hge (Nat.lt_of_le_of_ne (Nat.le_of_lt_succ hfree) hne)
  rw [allocateBb]
  by_cases hfull : t.freeBlock ≥ codeCacheSize - codeCacheOverp
  · rw [if_pos hfull]
    exact ⟨hnext _ (flush_sound hblocks t), Nat.ne_of_gt hblocks, hsize, rfl⟩
  · rw [if_neg hfull]
    refine ⟨hnext t h, Nat.ne_of_gt h.free, ?_, rfl⟩
    dsimp only
    omega

theorem stubless_block (h : Sound mambo program fuel n env none t) (addr : Nat) : stubBlock env t addr = none := by
  cases hstub : stubBlock env t addr with
  | none => rfl
  | some id =>
      have hlt := FragmentIds.stubBlock_lt hstub
      rw [stubBlock] at hstub
      split_ifs at hstub
      obtain ⟨-, htype⟩ := Option.filter_eq_some_iff.mp hstub
      exact absurd (of_decide_eq_true htype) (h.stubless id hlt)

variable (hscanner : env.scanner = scannerA64 mambo program fuel n) (hblocks : 0 < env.trampolinesSizeBbs)
  (hsize : env.trampolinesSizeBbs < codeCacheSize)
include hscanner hblocks hsize

theorem lookupOrScan_sound (h : Sound mambo program fuel n env none t) (target : Nat) :
    Returns env (lookupOrScan env t target) fun r =>
      Sound mambo program fuel n env none r.1 ∧ r.1.activeTrace.exits = t.activeTrace.exits := by
  rw [lookupOrScan]
  refine returns_ite (fun _ => ?_) fun _ => ?_
  · rw [stubless_block h]
    exact returns_ok ⟨h.untouched (untouched_log _), rfl⟩
  · obtain ⟨halloc, hne, hlt, hexits⟩ := allocateBb_sound hblocks hsize h
    rw [scan]
    dsimp only
    generalize (allocateBb env t).1 = u at halloc hexits ⊢
    generalize (allocateBb env t).2 = id at halloc hne hlt ⊢
    generalize hf : (fun m : CodeCacheMeta => { m with sourceAddr := target, tpc := env.block id }) = f
    have hself := setMeta_self u id f
    have hsource : ((u.setMeta id f).codeCacheMeta id).sourceAddr = target := by rw [hself, ← hf]
    have hstub : ((u.setMeta id f).codeCacheMeta id).exitBranchType ≠ .stub := by
      rw [hself, ← hf]
      exact halloc.stubless id hlt
    refine returns_ite (fun hadded => ?_) fun _ => ?_
    · rw [Bool.not_eq_true'] at hadded
      exact returns_error fun _ => ⟨_, _, _, hadded⟩
    · have hbegun : Sound mambo program fuel n env (some id) (u.setMeta id f) :=
        halloc.begin f fun _ => hself ▸ hstub
      refine (scanCode_sound hscanner (hbegun.untouched (untouched_entered _ _ _)) ?_).bind fun r hr => returns_ok ⟨hr.1, ?_⟩
      · exact ⟨hne, hsource, fun hge => absurd hlt (Nat.not_lt_of_le hge), Or.inl hstub⟩
      · rw [hr.2.active]
        exact hexits

theorem activeTraceLookupOrScan_sound (h : Sound mambo program fuel n env none t) (target : Nat) :
    Returns env (activeTraceLookupOrScan env t target) fun r =>
      Sound mambo program fuel n env none r.1 ∧ r.1.activeTrace.exits = t.activeTrace.exits :=
  returns_ite (fun _ => returns_ok ⟨h, rfl⟩) fun _ => lookupOrScan_sound hscanner hblocks hsize h target

omit hscanner hblocks hsize in
theorem allocateTraceFragment_sound (h : Sound mambo program fuel n env none t) :
    Returns env (allocateTraceFragment t) fun r => Sound mambo program fuel n env (some r.2) r.1 ∧ r.2 = t.activeTrace.id ∧
      r.1 = t.setActive fun a => { a with id := a.id + 1 } := by
  refine returns_ite (fun _ => returns_ok ⟨?_, rfl, rfl⟩) fun _ => returns_assertion
  refine ⟨⟨h.ids.1, Nat.le_succ_of_le h.ids.2⟩, h.free, ?_, h.stubless, fun i _ => h.heads i (Option.some_ne_none i)⟩
  intro i hskip hge hlt
  have hne : i ≠ t.activeTrace.id := fun heq => hskip (congrArg some heq)
  exact h.fragments i (Option.some_ne_none i) hge (Nat.lt_of_le_of_ne (Nat.le_of_lt_succ hlt) hne)

omit hblocks hsize in
theorem scanTrace_sound {address : Nat} {type : CcType} (htype : type ≠ .bb) (hknown : Known program address)
    (h : Sound mambo program fuel n env none t) :
    Returns env (scanTrace env t address type) fun r => Sound mambo program fuel n env none r.1 ∧
      r.1.activeTrace = { t.activeTrace with id := t.activeTrace.id + 1 } ∧ codeCacheSize ≤ r.2.1 ∧
      WrittenByScan mambo program fuel n r.2.1 (r.1.codeCacheMeta r.2.1) ∧
      ((r.1.codeCacheMeta r.2.1).exitBranchType ≠ .uncondBranchReg → directExit (r.1.codeCacheMeta r.2.1).exitBranchType) ∧
      (isTraceHead program fuel address → directExit (r.1.codeCacheMeta r.2.1).exitBranchType) := by
  refine (allocateTraceFragment_sound h).bind fun r hr => ?_
  obtain ⟨t₁, id⟩ := r
  obtain ⟨h₁, rfl, ht₁⟩ := hr
  have hfirst : codeCacheSize ≤ t.activeTrace.id := Nat.le_trans h.ids.1 h.ids.2
  dsimp only at h₁ ht₁ ⊢
  have hbegun := h₁.begin (fun m => { m with sourceAddr := address, tpc := t.activeTrace.writeP, branchCacheStatus := 0 })
    fun hlt => absurd hlt (Nat.not_lt_of_le hfirst)
  have hself := setMeta_self t₁ t.activeTrace.id fun m =>
    { m with sourceAddr := address, tpc := t.activeTrace.writeP, branchCacheStatus := 0 }
  refine (scanCode_sound hscanner hbegun ⟨?_, ?_, ?_, Or.inr hfirst⟩).bind fun r hr => returns_ok ?_
  · rw [codeCacheSize] at hfirst
    omega
  · exact congrArg CodeCacheMeta.sourceAddr hself
  · intro _
    exact ⟨htype, congrArg CodeCacheMeta.tpc hself, hknown⟩
  · obtain ⟨hsound, hended⟩ := hr
    refine ⟨hsound.untouched ⟨fun _ => rfl, rfl, rfl, rfl, rfl⟩, ?_, hfirst, (hended.fragment hfirst).1,
      (hended.fragment hfirst).2, hended.head⟩
    exact hended.active.trans (by rw [ht₁]; rfl)

end Scans

section Install

variable {T : Type} {mambo : Addresses} {program : Nat → Guest} {fuel n : Nat} {env : Env T} {t t' : Thread T}
  {isInstructionPositionIndependent : Thread T → Nat → Bool}

theorem recordCcLink_sound (h : Sound mambo program fuel n env none t) (linkedFrom target : Nat) :
    Returns env (recordCcLink env t linkedFrom target) fun t' => Sound mambo program fuel n env none t' ∧ Untouched t t' := by
  rw [recordCcLink]
  cases addrToBbId env target with
  | none => exact returns_ok ⟨h, fun _ => rfl, rfl, rfl, rfl, rfl⟩
  | some id =>
      refine returns_ite (fun _ => ?_) fun _ => returns_assertion
      have hlink : Untouched t (t.setMeta id fun m => { m with linkedFrom := linkedFrom :: m.linkedFrom }) :=
        untouched_setMeta id fun _ => rfl
      have hmeta := hlink.trans (untouched_setCcLinks (t.ccLinks + 1))
      exact returns_ok ⟨h.untouched hmeta, hmeta⟩

theorem ccBranch_sound (h : Sound mambo program fuel n env none t) (fragment : Fragment) (writeP target : Nat) :
    Returns env (ccBranch env t fragment writeP target) fun t' => Sound mambo program fuel n env none t' ∧ Untouched t t' := by
  have hlog := untouched_log (t := t) (.link writeP 4 fragment)
  exact (recordCcLink_sound (h.untouched hlog) writeP target).mono fun t' h' => ⟨h'.1, hlog.trans h'.2⟩

theorem writeStub_sound (h : Sound mambo program fuel n env none t) (e : TraceExit) (exitStart : Nat) :
    Returns env (writeStub t isInstructionPositionIndependent e exitStart) fun r => Sound mambo program fuel n env none r.1 := by
  refine (allocateTraceFragment_sound h).bind fun r hr => returns_ok ?_
  obtain ⟨t₁, id⟩ := r
  obtain ⟨h₁, rfl, -⟩ := hr
  have hfirst : codeCacheSize ≤ t.activeTrace.id := Nat.le_trans h.ids.1 h.ids.2
  have hstub : Sound mambo program fuel n env none (t₁.setMeta t.activeTrace.id fun m => { m with
      tpc := exitStart
      exitBranchType := .traceExit
      branchCacheStatus := branchLinked
      exitBranchAddr := exitStart + 4 * copied t₁ isInstructionPositionIndependent e.target
      branchTakenAddr := e.target + 4 * copied t₁ isInstructionPositionIndependent e.target }) :=
    h₁.scanned (fun _ => Or.inr rfl) BranchType.noConfusion fun hlt => absurd hlt (Nat.not_lt_of_le hfirst)
  have hrecord : ∀ u : Thread T, Untouched u ((u.setMeta e.fragmentId fun m => { m with freeB := t.activeTrace.id }).log
      (.stub e.target)) := by
    intro u
    have hmeta : Untouched u (u.setMeta e.fragmentId fun m => { m with freeB := t.activeTrace.id }) :=
      untouched_setMeta _ fun _ => rfl
    exact hmeta.trans (untouched_log _)
  exact hstub.untouched (hrecord _)

theorem writeExits_sound {exits : List TraceExit} (h : Sound mambo program fuel n env none t) (hexits : Conditional exits)
    (p : Nat) : Returns env (writeExits env isInstructionPositionIndependent exits t p) fun r =>
      Sound mambo program fuel n env none r.1 := by
  induction exits generalizing t p with
  | nil => exact returns_ok h
  | cons e rest ih =>
      obtain ⟨max, hmax⟩ := hexits e List.mem_cons_self
      have hrest : Conditional rest := fun e he => hexits e (List.mem_cons_of_mem _ he)
      have hlink : Returns env (linkExit env t e) fun t' => Sound mambo program fuel n env none t' :=
        returns_ite (fun _ => (ccBranch_sound h _ _ _).mono fun _ h' => h'.1) fun _ => returns_ok h
      have hrange : Returns env (condBranchRange e.kind) fun _ => True := by
        rw [hmax]
        exact returns_ok trivial
      rw [writeExits]
      refine hrange.bind fun max' _ => hlink.bind fun t₁ h₁ => returns_ite (fun _ => ?_) fun _ => ih h₁ hrest _
      exact (writeStub_sound h₁ e _).bind fun r hr => returns_ite (fun _ => ih hr hrest _) fun _ =>
        returns_error fun he => by cases he

theorem patchLinks_untouched (links : List Nat) (t : Thread T) : Untouched t (patchLinks links t) := by
  induction links generalizing t with
  | nil => exact ⟨fun _ => rfl, rfl, rfl, rfl, rfl⟩
  | cons link rest ih => exact (untouched_log _).trans (ih _)

theorem installTrace_sound (h : Sound mambo program fuel n env none t) (hexits : Conditional t.activeTrace.exits) :
    Returns env (installTrace env t isInstructionPositionIndependent) fun t' => Sound mambo program fuel n env none t' := by
  refine returns_ite (fun _ => returns_assertion) fun _ => ?_
  have hinactive : Untouched t (t.setActive fun a => { a with active := false }) := ⟨fun _ => rfl, rfl, rfl, rfl, rfl⟩
  have hpatched := hinactive.trans (patchLinks_untouched (t.codeCacheMeta t.activeTrace.sourceBb).linkedFrom _)
  have hentered := hpatched.trans (untouched_entered _ (env.hashAdd (patchLinks
    (t.codeCacheMeta t.activeTrace.sourceBb).linkedFrom (t.setActive fun a => { a with active := false })).entryAddress
    (t.codeCacheMeta t.activeTrace.sourceBb).sourceAddr t.activeTrace.entryAddr).1
    (.commit (t.codeCacheMeta t.activeTrace.sourceBb).sourceAddr t.activeTrace.entryAddr))
  have hkept : Conditional _ := hentered.exits ▸ hexits
  refine (writeExits_sound (h.untouched hentered) hkept _).bind fun r hr => returns_ok ?_
  exact ⟨⟨Nat.le_trans hr.ids.1 hr.ids.2, Nat.le_refl _⟩, hr.free, hr.fragments, hr.stubless, hr.heads⟩

end Install

section Calls

variable {T : Type} {mambo : Addresses} {program : Nat → Guest} {fuel n : Nat} {env : Env T} {t t' : Thread T}
  {isInstructionPositionIndependent : Thread T → Nat → Bool} {source writeP target : Nat}

theorem Sound.leave (h : Sound mambo program fuel n env none t) (addr : Nat) :
    Left mambo program fuel n env (leave t addr) := by
  refine ⟨h.untouched (untouched_log _), ?_⟩
  intro f hf
  cases hf

theorem exitTo_left (h : Sound mambo program fuel n env none t) (hexits : Conditional t.activeTrace.exits) (addr : Nat) :
    Returns env (exitTo env t isInstructionPositionIndependent source writeP addr) (Left mambo program fuel n env) := by
  have hearly : Returns env (earlyTraceExit env t isInstructionPositionIndependent source writeP addr) fun t' =>
      Sound mambo program fuel n env none t' := by
    refine (ccBranch_sound h _ _ _).bind fun t₁ h₁ => ?_
    have hwritten : Sound mambo program fuel n env none (t₁.setWriteP (writeP + 4)) :=
      h₁.1.untouched (untouched_setWriteP _)
    have hkept : Conditional (t₁.setWriteP (writeP + 4)).activeTrace.exits := h₁.2.exits ▸ hexits
    refine (installTrace_sound hwritten hkept).bind fun t₂ h₂ => returns_ok ?_
    have hstatus : Untouched t₂ (t₂.setMeta source fun m => { m with
        branchCacheStatus := m.branchCacheStatus ||| bothLinked }) := untouched_setMeta _ fun _ => rfl
    exact h₂.untouched hstatus
  exact hearly.bind fun t₁ h₁ => returns_ok (h₁.leave addr)

theorem stubsFit_returns {exits : List TraceExit} (hexits : Conditional exits) (p : Nat) :
    Returns env (traceExitStubsFit exits p) fun _ => True := by
  induction exits generalizing p with
  | nil => exact returns_ok trivial
  | cons e rest ih =>
      obtain ⟨max, hmax⟩ := hexits e List.mem_cons_self
      have hrange : Returns env (condBranchRange e.kind) fun _ => True := by
        rw [hmax]
        exact returns_ok trivial
      have hrest : Conditional rest := fun e he => hexits e (List.mem_cons_of_mem _ he)
      exact hrange.bind fun max' _ => returns_ite (fun _ => ih hrest _) fun _ => returns_ok trivial

variable (hscanner : env.scanner = scannerA64 mambo program fuel n) (hblocks : 0 < env.trampolinesSizeBbs)
  (hsize : env.trampolinesSizeBbs < codeCacheSize)
include hscanner hblocks hsize

theorem resolve_left (h : Sound mambo program fuel n env none t) (target : Nat) :
    Returns env (resolve env t target) (Left mambo program fuel n env) :=
  (lookupOrScan_sound hscanner hblocks hsize h target).bind fun r hr => returns_ok (hr.1.leave r.2)

theorem scanAndExit_left (h : Sound mambo program fuel n env none t) (hexits : Conditional t.activeTrace.exits) :
    Returns env (scanAndExit env t isInstructionPositionIndependent source writeP target)
      (Left mambo program fuel n env) :=
  (activeTraceLookupOrScan_sound hscanner hblocks hsize h target).bind fun r hr =>
    exitTo_left hr.1 (hr.2 ▸ hexits) r.2

theorem nextFragment_left (hknown : Known program target) (h : Sound mambo program fuel n env none t)
    (hexits : Conditional t.activeTrace.exits) :
    Returns env (nextFragment env t isInstructionPositionIndependent source writeP target)
      (Left mambo program fuel n env) := by
  refine (scanTrace_sound hscanner CcType.noConfusion hknown h).bind fun r hr => ?_
  obtain ⟨t₁, id, len⟩ := r
  obtain ⟨h₁, hactive, hfirst, hwritten, hdirect, -⟩ := hr
  dsimp only at h₁ hactive hfirst hwritten hdirect ⊢
  have h₂ : Sound mambo program fuel n env none (t₁.setWriteP (t₁.activeTrace.writeP + len)) :=
    h₁.untouched (untouched_setWriteP _)
  have hexits₁ : Conditional t₁.activeTrace.exits := by
    rw [hactive]
    exact hexits
  refine (stubsFit_returns hexits₁ _).bind fun fit _ => returns_ite (fun _ => ?_) fun _ => returns_ite (fun _ => ?_) fun hreg => ?_
  · exact scanAndExit_left hscanner hblocks hsize (h₂.untouched (untouched_setWriteP _)) hexits₁
  · exact (installTrace_sound h₂ hexits₁).bind fun t₃ h₃ => returns_ok (h₃.leave _)
  · refine returns_ok ⟨h₂.untouched (untouched_log _), ?_⟩
    intro f hf
    obtain rfl := Option.some.inj hf
    exact ⟨hfirst, hdirect hreg, hwritten, hexits₁⟩

theorem continueTrace_left (hknown : Known program target) (h : Sound mambo program fuel n env none t)
    (hexits : Conditional t.activeTrace.exits) :
    Returns env (continueTrace env t isInstructionPositionIndependent source writeP target)
      (Left mambo program fuel n env) := by
  have h₁ : Sound mambo program fuel n env none (t.setWriteP writeP) := h.untouched (untouched_setWriteP _)
  have hexits₁ : Conditional (t.setWriteP writeP).activeTrace.exits := hexits
  rw [continueTrace]
  generalize t.setWriteP writeP = u at h₁ hexits₁ ⊢
  have hexit := @scanAndExit_left _ _ _ _ _ _ u isInstructionPositionIndependent source writeP target hscanner hblocks
    hsize h₁ hexits₁
  refine returns_ite (fun _ => resolve_left hscanner hblocks hsize h₁ target) fun _ => returns_ite (fun _ => hexit) fun _ => ?_
  refine (stubsFit_returns hexits₁ _).bind fun fit _ => returns_ite (fun _ => hexit) fun _ => returns_ite (fun _ => hexit)
    fun _ => returns_ite (fun _ => exitTo_left h₁ hexits₁ _) fun _ => ?_
  exact nextFragment_left hscanner hblocks hsize hknown h₁ hexits₁

theorem setUpTraceExit_sound {isTaken : Bool} {max : Nat}
    (hmax : condBranchRange (t.codeCacheMeta source).exitBranchType = .ok max)
    (h : Sound mambo program fuel n env none t) (hexits : Conditional t.activeTrace.exits) :
    Returns env (setUpTraceExit env t writeP source isTaken) fun r =>
      Sound mambo program fuel n env none r.1 ∧ Conditional r.1.activeTrace.exits := by
  refine (activeTraceLookupOrScan_sound hscanner hblocks hsize h _).bind fun r hr => ?_
  have hrecord : ∀ e : TraceExit, condBranchRange e.kind = .ok max → Returns env (traceRecordExit r.1 e) fun t' =>
      Sound mambo program fuel n env none t' ∧ Conditional t'.activeTrace.exits := by
    intro e he
    refine returns_ite (fun _ => returns_ok ⟨?_, ?_⟩) fun _ => returns_error fun he => by cases he
    · exact ⟨hr.1.ids, hr.1.free, hr.1.fragments, hr.1.stubless, hr.1.heads⟩
    · intro e' he'
      rcases List.mem_append.mp he' with hold | hnew
      · exact (hr.2 ▸ hexits) e' hold
      · obtain rfl := List.mem_singleton.mp hnew
        exact ⟨max, he⟩
  exact (hrecord _ hmax).bind fun t₁ h₁ => returns_ok h₁

theorem traceDispatcher_left (hknown : Known program target) (h : Sound mambo program fuel n env none t)
    (hawaits : Awaits mambo program fuel n t source) :
    Returns env (traceDispatcher env t isInstructionPositionIndependent target source) (Left mambo program fuel n env) := by
  have h₀ : Sound mambo program fuel n env none { t with wasFlushed := false } :=
    ⟨h.ids, h.free, h.fragments, h.stubless, h.heads⟩
  have hstatus : ∀ (u : Thread T) s, Untouched u (u.setMeta source fun m => { m with branchCacheStatus := s }) :=
    fun u s => untouched_setMeta _ fun _ => rfl
  have hconditional : ∀ max, condBranchRange (t.codeCacheMeta source).exitBranchType = .ok max →
      Returns env (do
        let r ← setUpTraceExit env { t with wasFlushed := false } (t.codeCacheMeta source).exitBranchAddr source
          (decide ((t.codeCacheMeta source).branchTakenAddr = target))
        continueTrace env (r.1.setMeta source fun m => { m with
          branchCacheStatus := if (t.codeCacheMeta source).branchTakenAddr = target then branchLinked
            else fallthroughLinked }) isInstructionPositionIndependent source r.2 target)
      (Left mambo program fuel n env) := by
    intro max hmax
    refine (setUpTraceExit_sound (t := { t with wasFlushed := false }) hscanner hblocks hsize hmax h₀
      hawaits.exits).bind fun r hr => ?_
    have hkept := hstatus r.1 (if (t.codeCacheMeta source).branchTakenAddr = target then branchLinked
      else fallthroughLinked)
    exact continueTrace_left hscanner hblocks hsize hknown (hr.1.untouched hkept) (hkept.exits ▸ hr.2)
  have hdirect := hawaits.direct
  rw [traceDispatcher]
  cases htype : (t.codeCacheMeta source).exitBranchType with
  | cbzA64 | condImmA64 | tbzA64 =>
      exact hconditional _ (by rw [htype]; rfl)
  | uncondImmA64 =>
      have hkept := hstatus { t with wasFlushed := false } branchLinked
      exact continueTrace_left hscanner hblocks hsize hknown (h₀.untouched hkept) hawaits.exits
  | uncondBranchReg | unknown | stub | traceExit | jalRiscv | jalrRiscv | branchRiscv | atomicMemoryRiscv =>
      rw [htype] at hdirect
      cases hdirect

theorem traceDispatcher_indirect (h : Sound mambo program fuel n env none t)
    (htype : (t.codeCacheMeta source).exitBranchType = .uncondBranchReg) :
    Returns env (traceDispatcher env t isInstructionPositionIndependent target source) (Left mambo program fuel n env) := by
  have h₀ : Sound mambo program fuel n env none { t with wasFlushed := false } :=
    ⟨h.ids, h.free, h.fragments, h.stubless, h.heads⟩
  rw [traceDispatcher, htype]
  exact resolve_left hscanner hblocks hsize h₀ target

/-- A block that calls trace_head_incr: its code was scanned since the last flush,
and the first pass found a direct exit. -/
structure Head (program : Nat → Guest) (fuel : Nat) (env : Env T) (t : Thread T) (bbSource : Nat) : Prop where
  block : bbSource < codeCacheSize
  first : env.trampolinesSizeBbs ≤ bbSource
  allocated : bbSource < t.freeBlock
  own : (t.codeCacheMeta bbSource).actualId = 0
  head : isTraceHead program fuel (t.codeCacheMeta bbSource).sourceAddr

theorem createTrace_left {bbSource : Nat} (hhead : Head program fuel env t bbSource)
    (h : Sound mambo program fuel n env none t) :
    Returns env (createTrace env t bbSource) (Left mambo program fuel n env) := by
  have hdirect := h.heads bbSource (Option.some_ne_none _) hhead.block hhead.first hhead.allocated hhead.own hhead.head
  have hknown : Known program (t.codeCacheMeta bbSource).sourceAddr := by
    intro hnotype
    exact (pass1_clear (pass1_direct hhead.head).1).next hnotype
  rw [createTrace]
  dsimp only
  rw [if_pos hdirect]
  refine returns_ite (fun _ => resolve_left hscanner hblocks hsize (flush_sound hblocks _) _) fun _ => ?_
  have hbegun : Sound mambo program fuel n env none (beginTrace { t with
      traceFragmentCount := 0, traceCacheNext := alignTrace t.traceCacheNext } bbSource) := by
    refine ⟨⟨h.ids.1, Nat.le_refl _⟩, h.free, ?_, h.stubless, h.heads⟩
    intro i hskip hge hlt
    exact h.fragments i hskip hge (Nat.lt_of_lt_of_le hlt h.ids.2)
  refine (scanTrace_sound hscanner CcType.noConfusion hknown hbegun).bind fun r hr => ?_
  obtain ⟨t₁, id, len⟩ := r
  obtain ⟨h₁, hactive, hfirst, hwritten, -, hentry⟩ := hr
  dsimp only at h₁ hactive hfirst hwritten hentry ⊢
  refine returns_ite (fun _ => returns_ok ⟨h₁.untouched (untouched_log _), ?_⟩) fun hnot => absurd (hentry hhead.head) hnot
  intro f hf
  obtain rfl := Option.some.inj hf
  refine ⟨hfirst, hentry hhead.head, hwritten, ?_⟩
  have hempty : t₁.activeTrace.exits = [] := by
    rw [hactive]
    rfl
  intro e he
  rw [stay, Thread.log] at he
  rw [hempty] at he
  exact absurd he List.not_mem_nil

end Calls

end Mambo.A64FragmentExits
