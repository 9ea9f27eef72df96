import Mambo.A64CodeRoom

namespace Mambo.A64BlockSpace

open A64 A64Emit A64Scan A64CodeRoom
open Immediates (ofNat_ne)
open TraceState (CodeCacheMeta codeCacheSize blockBytes maxBranchRange)

section Writing

variable {code : Word → Option Out} {out : List Out} {st : Scan} {a : Nat}

/-- Words that stand at an address. -/
def Placed (code : Word → Option Out) : Nat → List Out → Prop
  | _, [] => True
  | a, o :: out => code (BitVec.ofNat 64 a) = some o ∧ Placed code (a + 4) out

@[simp] theorem writeAll_nil : st.writeAll [] = st := rfl

@[simp] theorem writeAll_cons (o : Out) : st.writeAll (o :: out) = (st.write o).writeAll out := rfl

@[simp] theorem writeAll_readAddress : (st.writeAll out).readAddress = st.readAddress := by
  induction out generalizing st with
  | nil => rfl
  | cons o out ih => exact ih

@[simp] theorem writeAll_dataP : (st.writeAll out).dataP = st.dataP := by
  induction out generalizing st with
  | nil => rfl
  | cons o out ih => exact ih

@[simp] theorem writeAll_freeBlock : (st.writeAll out).freeBlock = st.freeBlock := by
  induction out generalizing st with
  | nil => rfl
  | cons o out ih => exact ih

@[simp] theorem writeAll_ending : (st.writeAll out).ending = st.ending := by
  induction out generalizing st with
  | nil => rfl
  | cons o out ih => exact ih

@[simp] theorem writeAll_writeP : (st.writeAll out).writeP = st.writeP + 4 * out.length := by
  induction out generalizing st with
  | nil => rfl
  | cons o out ih =>
      have hwriteP : (st.write o).writeP = st.writeP + 4 := rfl
      rw [writeAll_cons, ih, List.length_cons, hwriteP]
      omega

theorem mem_writeAll_log {e : Nat × Nat} (h : e ∈ (st.writeAll out).log) :
    e ∈ st.log ∨ e.2 = st.dataP ∧ st.writeP ≤ e.1 ∧ e.1 + 4 ≤ st.writeP + 4 * out.length := by
  induction out generalizing st with
  | nil => exact Or.inl h
  | cons o out ih =>
      rcases ih h with hold | ⟨hdata, hge, hle⟩
      · rcases List.mem_cons.mp hold with heq | hold
        · right
          rw [heq, List.length_cons]
          exact ⟨rfl, le_refl _, by omega⟩
        · exact Or.inl hold
      · right
        change st.writeP + 4 ≤ e.1 at hge
        change e.1 + 4 ≤ st.writeP + 4 + 4 * out.length at hle
        rw [List.length_cons]
        exact ⟨hdata, by omega, by omega⟩

theorem writeAll_below (hend : st.writeP + 4 * out.length ≤ 2 ^ 64) (ha : a < st.writeP) :
    (st.writeAll out).code (BitVec.ofNat 64 a) = st.code (BitVec.ofNat 64 a) := by
  induction out generalizing st with
  | nil => rfl
  | cons o out ih =>
      rw [List.length_cons] at hend
      have hwriteP : (st.write o).writeP = st.writeP + 4 := rfl
      rw [writeAll_cons, ih (by rw [hwriteP]; omega) (by rw [hwriteP]; omega)]
      exact Function.update_of_ne (ofNat_ne (by omega) (by omega) (by omega)) _ _

theorem placed_writeAll (hend : st.writeP + 4 * out.length ≤ 2 ^ 64) :
    Placed (st.writeAll out).code st.writeP out := by
  induction out generalizing st with
  | nil => trivial
  | cons o out ih =>
      rw [List.length_cons] at hend
      have hwriteP : (st.write o).writeP = st.writeP + 4 := rfl
      refine ⟨?_, ih (by rw [hwriteP]; omega)⟩
      rw [writeAll_cons, writeAll_below (by rw [hwriteP]; omega) (by rw [hwriteP]; omega)]
      exact Function.update_self _ _ _

theorem Placed.congr {code' : Word → Option Out}
    (h : ∀ b, b < a + 4 * out.length → code' (BitVec.ofNat 64 b) = code (BitVec.ofNat 64 b))
    (hplaced : Placed code a out) : Placed code' a out := by
  induction out generalizing a with
  | nil => trivial
  | cons o out ih =>
      rw [List.length_cons] at h
      refine ⟨(h a (by omega)).trans hplaced.1, ih (fun b hb => h b (by omega)) hplaced.2⟩

end Writing

section Branch

theorem branchHelper_forward {a b : Nat} (hlt : a < b) (hrange : b - a < 2 ^ 27) (hword : 4 ∣ b - a) :
    ∃ imm26, branchHelper (BitVec.ofNat 64 a) (BitVec.ofNat 64 b) = some (.b imm26) ∧
      BitVec.ofNat 64 a + offset imm26 = BitVec.ofNat 64 b := by
  have hdifference : BitVec.ofNat 64 b - BitVec.ofNat 64 a = BitVec.ofNat 64 (b - a) := by
    rw [sub_eq_iff_eq_add, ← BitVec.ofNat_add, Nat.sub_add_cancel hlt.le]
  have hnat : (BitVec.ofNat 64 (b - a)).toNat = b - a := by
    rw [BitVec.toNat_ofNat, Nat.mod_eq_of_lt (by omega)]
  have hint : (BitVec.ofNat 64 (b - a)).toInt = (b - a : Nat) := by
    rw [BitVec.toInt_eq_toNat_of_lt (by rw [hnat]; omega), hnat]
  have hlow : BitVec.ofNat 64 (b - a) &&& 3 = 0 := by
    apply BitVec.eq_of_toNat_eq
    rw [BitVec.toNat_and, hnat, show (3 : Word).toNat = 2 ^ 2 - 1 from rfl, Nat.and_two_pow_sub_one_eq_mod]
    exact Nat.mod_eq_zero_of_dvd hword
  refine ⟨((BitVec.ofNat 64 (b - a)).sshiftRight 2).setWidth 26, ?_, ?_⟩
  · rw [branchHelper]
    simp only [hdifference, hint]
    exact if_pos ⟨hlow, by omega, by omega⟩
  · rw [offset_eq (by decide) (by decide) hlow (by rw [hint]; omega) (by rw [hint]; omega), ← hdifference,
      add_sub_cancel]

end Branch

section Invariant

variable (mambo : Addresses) (program : Nat → Guest) (basicBlock fuel : Nat)

/-- The code of a block, followed from its first word through the branches to
further blocks, translates the instructions from an address up to another one. -/
inductive Translates (code : Word → Option Out) (startScan : Nat) : Nat → Nat → Prop
  | entry (out : List Out)
      (hout : entryCode mambo program basicBlock fuel .bb startScan
        (BitVec.ofNat 64 (blockAddr mambo basicBlock)) = some out)
      (hplaced : Placed code (blockAddr mambo basicBlock) out) :
      Translates code startScan startScan (blockAddr mambo basicBlock + 4 * out.length)
  | inst (r a : Nat) (out : List Out) (hbefore : Translates code startScan r a)
      (hout : instCode mambo basicBlock (program r) (r = startScan) (BitVec.ofNat 64 r) (BitVec.ofNat 64 a) = some out)
      (hplaced : Placed code a out) : Translates code startScan (r + 4) (a + 4 * out.length)
  | branch (r a b : Nat) (imm26 : BitVec 26) (hbefore : Translates code startScan r a)
      (hcode : code (BitVec.ofNat 64 a) = some (.inst (.b imm26)))
      (htarget : BitVec.ofNat 64 a + offset imm26 = BitVec.ofNat 64 b) (hforward : a < b) :
      Translates code startScan r b

/-- An address in the first block of a fragment or in a block that its scan took. -/
def Owned (freeBefore freeAfter w : Nat) : Prop :=
  ∃ k, (k = basicBlock ∨ freeBefore ≤ k ∧ k < freeAfter) ∧ blockAddr mambo k ≤ w ∧ w < blockAddr mambo (k + 1)

structure Space (freeBefore : Nat) (st : Scan) : Prop where
  free : freeBefore ≤ st.freeBlock
  word : 4 ∣ st.writeP
  below : blockAddr mambo basicBlock ≤ st.writeP
  data : ∃ k, k < codeCacheSize ∧ k < st.freeBlock ∧ st.dataP = blockAddr mambo (k + 1)
  room : ∀ w, st.writeP ≤ w → w < st.dataP → Owned mambo basicBlock freeBefore st.freeBlock w
  log : ∀ e ∈ st.log, e.1 + 4 ≤ e.2 ∧ ∀ j, j < 4 → Owned mambo basicBlock freeBefore st.freeBlock (e.1 + j)

variable {mambo program basicBlock fuel} {code code' : Word → Option Out} {startScan r a freeBefore : Nat} {st : Scan}

theorem Translates.congr (htranslates : Translates mambo program basicBlock fuel code startScan r a)
    (h : ∀ b, b < a → code' (BitVec.ofNat 64 b) = code (BitVec.ofNat 64 b)) :
    Translates mambo program basicBlock fuel code' startScan r a := by
  induction htranslates with
  | entry out hout hplaced => exact .entry out hout (hplaced.congr h)
  | inst r a out _ hout hplaced ih => exact .inst r a out (ih fun b hb => h b (by omega)) hout (hplaced.congr h)
  | branch r a b imm26 _ hcode htarget hforward ih =>
      exact .branch r a b imm26 (ih fun c hc => h c (by omega)) ((h a hforward).trans hcode) htarget hforward

theorem Owned.mono {free free' w : Nat} (hle : free ≤ free') (h : Owned mambo basicBlock freeBefore free w) :
    Owned mambo basicBlock freeBefore free' w := by
  obtain ⟨k, hk, hw⟩ := h
  exact ⟨k, hk.imp id fun hk => ⟨hk.1, lt_of_lt_of_le hk.2 hle⟩, hw⟩

theorem blockAddr_succ (mambo : Addresses) (k : Nat) : blockAddr mambo (k + 1) = blockAddr mambo k + blockBytes := by
  rw [blockAddr, blockAddr, Nat.succ_mul, Nat.add_assoc]

theorem blockAddr_le {j k : Nat} (h : j ≤ k) : blockAddr mambo j ≤ blockAddr mambo k :=
  Nat.add_le_add_left (Nat.mul_le_mul_right blockBytes h) mambo.codeCache

structure Cache (mambo : Addresses) (basicBlock : Nat) : Prop where
  word : 4 ∣ mambo.codeCache
  top : mambo.codeCache + maxBranchRange ≤ 2 ^ 48
  id : basicBlock < codeCacheSize

theorem Cache.block_word (hcache : Cache mambo basicBlock) (k : Nat) : 4 ∣ blockAddr mambo k :=
  Nat.dvd_add hcache.word (Dvd.dvd.mul_left (by decide) k)

theorem Cache.block_range (hcache : Cache mambo basicBlock) {k : Nat} (hk : k ≤ codeCacheSize) :
    mambo.codeCache ≤ blockAddr mambo k ∧ blockAddr mambo k ≤ mambo.codeCache + 2 ^ 24 ∧
      blockAddr mambo k ≤ 2 ^ 48 := by
  have htop := hcache.top
  rw [maxBranchRange] at htop
  rw [codeCacheSize] at hk
  rw [blockAddr, blockBytes]
  omega

theorem Space.range (h : Space mambo basicBlock freeBefore st) (hcache : Cache mambo basicBlock) :
    mambo.codeCache ≤ st.writeP ∧ st.dataP ≤ mambo.codeCache + 2 ^ 24 ∧ st.dataP ≤ 2 ^ 48 := by
  obtain ⟨k, hk, _, hdata⟩ := h.data
  have hfirst := hcache.block_range hcache.id.le
  have hlast := hcache.block_range (Nat.succ_le_of_lt hk)
  rw [hdata]
  exact ⟨hfirst.1.trans h.below, hlast.2⟩

theorem Space.writeAll {out : List Out} (h : Space mambo basicBlock freeBefore st)
    (hroom : st.writeP + 4 * out.length ≤ st.dataP) : Space mambo basicBlock freeBefore (st.writeAll out) := by
  have hword := h.word
  have hbelow := h.below
  refine ⟨by simpa using h.free, ?_, ?_, by simpa using h.data, ?_, ?_⟩
  · rw [writeAll_writeP]
    omega
  · rw [writeAll_writeP]
    omega
  · intro w hge hlt
    rw [writeAll_writeP] at hge
    rw [writeAll_dataP] at hlt
    rw [writeAll_freeBlock]
    exact h.room w (by omega) hlt
  · intro e he
    rw [writeAll_freeBlock]
    rcases mem_writeAll_log he with hold | ⟨hdata, hge, hle⟩
    · exact h.log e hold
    · exact ⟨by omega, fun j hj => h.room (e.1 + j) (by omega) (by omega)⟩

theorem Translates.writeAll {out : List Out}
    (htranslates : Translates mambo program basicBlock fuel st.code startScan r st.writeP)
    (hend : st.writeP + 4 * out.length ≤ 2 ^ 64) :
    Translates mambo program basicBlock fuel (st.writeAll out).code startScan r st.writeP :=
  htranslates.congr fun _ hb => writeAll_below hend hb

def grown (mambo : Addresses) (st : Scan) : Scan :=
  { st with freeBlock := st.freeBlock + 1, dataP := blockAddr mambo (st.freeBlock + 1) }

theorem checkFreeSpace_next {size : Nat} (hfull : st.writeP + size ≥ st.dataP)
    (hblocks : ¬(basicBlock ≥ codeCacheSize ∨ st.freeBlock ≥ codeCacheSize))
    (hnext : blockAddr mambo st.freeBlock = st.dataP) : checkFreeSpace mambo basicBlock size st = grown mambo st := by
  rw [checkFreeSpace, if_pos hfull, if_neg hblocks]
  simp only [hnext, ne_eq, not_true_eq_false, if_false]
  rw [grown, blockAddr_succ, hnext]

theorem checkFreeSpace_far {size : Nat} {jump : Inst} (hfull : st.writeP + size ≥ st.dataP)
    (hblocks : ¬(basicBlock ≥ codeCacheSize ∨ st.freeBlock ≥ codeCacheSize))
    (hfar : blockAddr mambo st.freeBlock ≠ st.dataP)
    (hjump : branchHelper (BitVec.ofNat 64 st.writeP) (BitVec.ofNat 64 (blockAddr mambo st.freeBlock)) = some jump) :
    checkFreeSpace mambo basicBlock size st =
      grown mambo { st.writeAll [.inst jump] with writeP := blockAddr mambo st.freeBlock } := by
  rw [checkFreeSpace, if_pos hfull, if_neg hblocks]
  simp only [hjump, ne_eq, hfar, not_false_eq_true, if_true]
  rw [grown, ← blockAddr_succ]
  rfl

theorem owned_new {free w : Nat} (hfree : freeBefore ≤ free) (hge : blockAddr mambo free ≤ w)
    (hlt : w < blockAddr mambo (free + 1)) : Owned mambo basicBlock freeBefore (free + 1) w :=
  ⟨free, Or.inr ⟨hfree, Nat.lt_succ_self free⟩, hge, hlt⟩

theorem Space.next (h : Space mambo basicBlock freeBefore st) (hfree : st.freeBlock < codeCacheSize)
    (hnext : blockAddr mambo st.freeBlock = st.dataP) : Space mambo basicBlock freeBefore (grown mambo st) := by
  have hmono := Nat.le_succ st.freeBlock
  refine ⟨h.free.trans hmono, h.word, h.below, ⟨st.freeBlock, hfree, Nat.lt_succ_self _, rfl⟩, ?_, ?_⟩
  · intro w hge hlt
    by_cases hold : w < st.dataP
    · exact (h.room w hge hold).mono hmono
    · exact owned_new h.free (by omega) hlt
  · intro e he
    exact ⟨(h.log e he).1, fun j hj => ((h.log e he).2 j hj).mono hmono⟩

theorem Space.far (h : Space mambo basicBlock freeBefore st) (hcache : Cache mambo basicBlock)
    (hfree : st.freeBlock < codeCacheSize) (hahead : blockAddr mambo basicBlock ≤ blockAddr mambo st.freeBlock) :
    Space mambo basicBlock freeBefore (grown mambo { st with writeP := blockAddr mambo st.freeBlock }) := by
  have hmono := Nat.le_succ st.freeBlock
  refine ⟨h.free.trans hmono, hcache.block_word st.freeBlock, hahead,
    ⟨st.freeBlock, hfree, Nat.lt_succ_self _, rfl⟩, ?_, ?_⟩
  · intro w hge hlt
    exact owned_new h.free hge hlt
  · intro e he
    exact ⟨(h.log e he).1, fun j hj => ((h.log e he).2 j hj).mono hmono⟩

structure SpaceInv (mambo : Addresses) (program : Nat → Guest) (basicBlock fuel freeBefore startScan r : Nat)
    (st : Scan) : Prop where
  space : Space mambo basicBlock freeBefore st
  code : Translates mambo program basicBlock fuel st.code startScan r st.writeP

theorem SpaceInv.advance {p : Nat} {e : Option Ending}
    (hinv : SpaceInv mambo program basicBlock fuel freeBefore startScan r st) :
    SpaceInv mambo program basicBlock fuel freeBefore startScan r { st with readAddress := p, ending := e } :=
  ⟨⟨hinv.space.free, hinv.space.word, hinv.space.below, hinv.space.data, hinv.space.room, hinv.space.log⟩, hinv.code⟩

theorem SpaceInv.piece {out : List Out} {f : CodeCacheMeta → CodeCacheMeta}
    (hinv : SpaceInv mambo program basicBlock fuel freeBefore startScan r st) (hcache : Cache mambo basicBlock)
    (hroom : st.writeP + 4 * out.length ≤ st.dataP)
    (hout : instCode mambo basicBlock (program r) (r = startScan) (BitVec.ofNat 64 r) (BitVec.ofNat 64 st.writeP) =
      some out) :
    SpaceInv mambo program basicBlock fuel freeBefore startScan (r + 4) ((st.setMeta f).writeAll out) := by
  have hspace : Space mambo basicBlock freeBefore (st.setMeta f) :=
    ⟨hinv.space.free, hinv.space.word, hinv.space.below, hinv.space.data, hinv.space.room, hinv.space.log⟩
  have hcode : Translates mambo program basicBlock fuel (st.setMeta f).code startScan r (st.setMeta f).writeP :=
    hinv.code
  have hend : (st.setMeta f).writeP + 4 * out.length ≤ 2 ^ 64 := by
    have hrange := hinv.space.range hcache
    exact hroom.trans (by omega)
  refine ⟨hspace.writeAll hroom, ?_⟩
  rw [writeAll_writeP]
  exact .inst r st.writeP out (hcode.writeAll hend) hout (placed_writeAll hend)

theorem SpaceInv.check (size : Nat) (hinv : SpaceInv mambo program basicBlock fuel freeBefore startScan r st)
    (hcache : Cache mambo basicBlock) (hroom : st.writeP < st.dataP) (hsize : size < blockBytes)
    (hending : st.ending = none) :
    SpaceInv mambo program basicBlock fuel freeBefore startScan r (checkFreeSpace mambo basicBlock size st) ∧
      (checkFreeSpace mambo basicBlock size st).readAddress = st.readAddress ∧
      ((checkFreeSpace mambo basicBlock size st).ending = none ∧
          (checkFreeSpace mambo basicBlock size st).writeP + size < (checkFreeSpace mambo basicBlock size st).dataP ∨
        (checkFreeSpace mambo basicBlock size st).ending = some .full) := by
  have hspace := hinv.space
  by_cases hfull : st.writeP + size ≥ st.dataP
  · by_cases hblocks : basicBlock ≥ codeCacheSize ∨ st.freeBlock ≥ codeCacheSize
    · rw [checkFreeSpace, if_pos hfull, if_pos hblocks]
      exact ⟨⟨⟨hspace.free, hspace.word, hspace.below, hspace.data, hspace.room, hspace.log⟩, hinv.code⟩, rfl,
        Or.inr rfl⟩
    · have hfree : st.freeBlock < codeCacheSize := by omega
      have hsucc := blockAddr_succ mambo st.freeBlock
      by_cases hnext : blockAddr mambo st.freeBlock = st.dataP
      · rw [checkFreeSpace_next hfull hblocks hnext]
        refine ⟨⟨hspace.next hfree hnext, hinv.code⟩, rfl, Or.inl ⟨hending, ?_⟩⟩
        rw [grown]
        simp only
        omega
      · have hrange := hspace.range hcache
        have hblock := hcache.block_range hfree.le
        have hblockWord := hcache.block_word st.freeBlock
        have hword := hspace.word
        have hbelow := hspace.below
        obtain ⟨k, _, hk, hdata⟩ := hspace.data
        have hdataWord := hcache.block_word (k + 1)
        rw [← hdata] at hdataWord
        have hword4 : st.writeP + 4 ≤ st.dataP := by omega
        have hahead : st.dataP ≤ blockAddr mambo st.freeBlock := by
          rw [hdata]
          exact blockAddr_le hk
        obtain ⟨imm26, hjump, htarget⟩ := branchHelper_forward (a := st.writeP) (b := blockAddr mambo st.freeBlock)
          (by omega) (by omega) (by omega)
        have hend : st.writeP + 4 * [Out.inst (.b imm26)].length ≤ 2 ^ 64 := by
          rw [List.length_singleton]
          omega
        have hwritten : Space mambo basicBlock freeBefore (st.writeAll [.inst (.b imm26)]) := hspace.writeAll hword4
        have hfirst : blockAddr mambo basicBlock ≤ blockAddr mambo st.freeBlock := by omega
        have hforward : st.writeP < blockAddr mambo st.freeBlock := by omega
        have hfits : blockAddr mambo st.freeBlock + size < blockAddr mambo (st.freeBlock + 1) := by omega
        rw [checkFreeSpace_far hfull hblocks hnext hjump]
        exact ⟨⟨hwritten.far hcache hfree hfirst,
          .branch r st.writeP _ imm26 (hinv.code.writeAll hend) (placed_writeAll hend).1 htarget hforward⟩, rfl,
          Or.inl ⟨hending, hfits⟩⟩
  · rw [checkFreeSpace, if_neg hfull]
    exact ⟨hinv, rfl, Or.inl ⟨hending, by omega⟩⟩

theorem SpaceInv.reserved (hinv : SpaceInv mambo program basicBlock fuel freeBefore startScan r st)
    (hcache : Cache mambo basicBlock) (hroom : st.writeP + minFspace < st.dataP) (hending : st.ending = none)
    (g : Guest) :
    SpaceInv mambo program basicBlock fuel freeBefore startScan r (reserve mambo basicBlock g st) ∧
      (reserve mambo basicBlock g st).readAddress = st.readAddress ∧
      ((reserve mambo basicBlock g st).ending = none ∧
          (reserve mambo basicBlock g st).writeP + 4 * room g < (reserve mambo basicBlock g st).dataP ∨
        (reserve mambo basicBlock g st).ending = some .full) := by
  rw [minFspace] at hroom
  cases g with
  | indirect inst rn => exact hinv.check 88 hcache (by omega) (by decide) hending
  | _ => exact ⟨hinv, rfl, Or.inl ⟨hending, hroom⟩⟩

structure Round (mambo : Addresses) (program : Nat → Guest) (basicBlock fuel freeBefore startScan r : Nat)
    (st : Scan) : Prop where
  inv : SpaceInv mambo program basicBlock fuel freeBefore startScan st.readAddress st
  overrun : st.ending ≠ some .overrun
  next : st.ending = none → st.readAddress = r ∧ st.writeP + minFspace < st.dataP

theorem SpaceInv.round (hinv : SpaceInv mambo program basicBlock fuel freeBefore startScan st.readAddress st)
    (hcache : Cache mambo basicBlock) (hroom : st.writeP + minFspace < st.dataP) (hending : st.ending = none)
    (hsmall : Small mambo basicBlock (BitVec.ofNat 64 st.readAddress)) :
    Round mambo program basicBlock fuel freeBefore startScan (st.readAddress + 4)
      (scanRound mambo program basicBlock startScan st) := by
  obtain ⟨hreserved, hread, hreserve⟩ := hinv.reserved hcache hroom hending (program st.readAddress)
  rw [scanRound, scanInst]
  generalize reserve mambo basicBlock (program st.readAddress) st = st₁ at hreserved hread hreserve ⊢
  rcases hreserve with ⟨hnone, hspace⟩ | hfull
  · rw [hnone]
    simp only [Option.isSome_none, Bool.false_eq_true, if_false, hread]
    cases hout : instCode mambo basicBlock (program st.readAddress) (st.readAddress = startScan)
        (BitVec.ofNat 64 st.readAddress) (BitVec.ofNat 64 st₁.writeP) with
    | none =>
        have hfailed : ∀ e, SpaceInv mambo program basicBlock fuel freeBefore startScan (st₁.fail e).readAddress
            (st₁.fail e) := by
          intro e
          rw [← hread] at hreserved
          exact hreserved.advance
        refine ⟨hfailed _, ?_, fun h => absurd h (Option.some_ne_none _)⟩
        rw [Scan.fail]
        split_ifs <;> simp
    | some out =>
        have hlength := instCode_length hsmall hout
        have hpiece := hreserved.piece (f := exitMeta (program st.readAddress) (BitVec.ofNat 64 st.readAddress)
          (BitVec.ofNat 64 st₁.writeP)) hcache (by omega) hout
        dsimp only
        generalize hst₂ : (st₁.setMeta (exitMeta (program st.readAddress) (BitVec.ofNat 64 st.readAddress)
          (BitVec.ofNat 64 st₁.writeP))).writeAll out = st₂ at hpiece ⊢
        have hwriteP : st₂.writeP = st₁.writeP + 4 * out.length := by
          rw [← hst₂, writeAll_writeP]
          rfl
        have hdataP : st₂.dataP = st₁.dataP := by
          rw [← hst₂, writeAll_dataP]
          rfl
        have hread₂ : st₂.readAddress = st.readAddress := by
          rw [← hst₂, writeAll_readAddress, ← hread]
          rfl
        have hending₂ : st₂.ending = none := by
          rw [← hst₂, writeAll_ending]
          exact hnone
        obtain ⟨hchecked, hread₃, hcheck⟩ := hpiece.check minFspace hcache (by omega) (by decide) hending₂
        have hroom₂ : ¬st₂.dataP ≤ st₂.writeP := by omega
        rw [if_neg hroom₂]
        split_ifs with hstop
        · rw [← hread₂] at hpiece
          exact ⟨hpiece.advance, by simp, fun h => absurd h (Option.some_ne_none _)⟩
        · rw [← hread₂, ← hread₃] at hchecked
          refine ⟨hchecked.advance, ?_, ?_⟩
          · rcases hcheck with ⟨hnone₃, _⟩ | hfull
            · simp [hnone₃]
            · simp [hfull]
          · intro hnone₃
            rcases hcheck with ⟨_, hspace₃⟩ | hfull
            · exact ⟨by rw [hread₃, hread₂], hspace₃⟩
            · exact absurd (hfull.symm.trans hnone₃) (Option.some_ne_none _)
  · rw [hfull]
    rw [← hread] at hreserved
    refine ⟨hreserved, ?_, ?_⟩ <;> simp [hfull]

theorem Cache.small (hcache : Cache mambo basicBlock) (hentries : mambo.entries.toNat < 2 ^ 48)
    (hr : r + 4 ≤ 2 ^ 48) : Small mambo basicBlock (BitVec.ofNat 64 r) := by
  have hid := hcache.id
  rw [codeCacheSize] at hid
  refine ⟨by omega, ?_, hentries.le⟩
  rw [show (4 : Word) = BitVec.ofNat 64 4 from rfl, ← BitVec.ofNat_add, BitVec.toNat_ofNat, Nat.mod_eq_of_lt (by omega)]
  exact hr

theorem Round.loop {n : Nat} (h : Round mambo program basicBlock fuel freeBefore startScan r st)
    (hcache : Cache mambo basicBlock) (hentries : mambo.entries.toNat < 2 ^ 48) (hguest : r + 4 * n ≤ 2 ^ 48) :
    SpaceInv mambo program basicBlock fuel freeBefore startScan (scanLoop mambo program basicBlock startScan n st).readAddress
        (scanLoop mambo program basicBlock startScan n st) ∧
      (scanLoop mambo program basicBlock startScan n st).ending ≠ some .overrun := by
  induction n generalizing r st with
  | zero => exact ⟨h.inv, h.overrun⟩
  | succ n ih =>
      rw [scanLoop]
      cases hending : st.ending with
      | some e =>
          rw [Option.isSome_some, if_pos rfl]
          exact ⟨h.inv, h.overrun⟩
      | none =>
          obtain ⟨hread, hroom⟩ := h.next hending
          rw [Option.isSome_none, if_neg Bool.false_ne_true]
          exact ih (h.inv.round hcache hroom hending (hcache.small hentries (by omega))) (by omega)

variable {m : CodeCacheMeta} {readAddress freeBlock : Nat} {out : List Out}

theorem start_round (hcache : Cache mambo basicBlock) (hfree : basicBlock < freeBlock)
    (hout : entryCode mambo program basicBlock fuel .bb readAddress (BitVec.ofNat 64 (blockAddr mambo basicBlock)) =
      some out) :
    Round mambo program basicBlock fuel freeBlock readAddress readAddress
      (scanStart mambo program basicBlock fuel .bb readAddress (blockAddr mambo basicBlock) freeBlock m code) := by
  have hid := hcache.id
  have hsize : blockBytes = 256 := rfl
  have hlength := entryCode_length (by rw [codeCacheSize] at hid; omega) hout
  have hrange := hcache.block_range hid.le
  rw [scanStart, hout]
  dsimp only
  generalize hst : emptyScan mambo .bb readAddress (blockAddr mambo basicBlock) freeBlock m code = st
  have hwriteP : st.writeP = blockAddr mambo basicBlock := by
    rw [← hst]
    rfl
  have hdataP : st.dataP = blockAddr mambo (basicBlock + 1) := by
    rw [← hst, blockAddr_succ]
    rfl
  have hsucc := blockAddr_succ mambo basicBlock
  have hfreeBlock : st.freeBlock = freeBlock := by
    rw [← hst]
    rfl
  have hread : st.readAddress = readAddress := by
    rw [← hst]
    rfl
  have hending : st.ending = none := by
    rw [← hst]
    rfl
  have hspace : Space mambo basicBlock freeBlock st := by
    refine ⟨hfreeBlock.ge, hwriteP ▸ hcache.block_word basicBlock, hwriteP.ge,
      ⟨basicBlock, hid, by rwa [hfreeBlock], hdataP⟩, ?_, ?_⟩
    · intro w hge hlt
      exact ⟨basicBlock, Or.inl rfl, by omega, by omega⟩
    · intro e he
      rw [← hst] at he
      exact absurd he List.not_mem_nil
  refine ⟨⟨hspace.writeAll (by omega), ?_⟩, ?_, fun _ => ⟨?_, ?_⟩⟩
  · rw [writeAll_readAddress, writeAll_writeP, hread, hwriteP]
    have hplaced : Placed (st.writeAll out).code st.writeP out := placed_writeAll (by omega)
    rw [hwriteP] at hplaced
    exact .entry out hout hplaced
  · simp [hending]
  · rw [writeAll_readAddress, hread]
  · rw [writeAll_writeP, writeAll_dataP, minFspace]
    omega

/-- The scan of a block writes below the end of the block it is in, into blocks of
its own only, the check for an overrun never fails, and the code is that of the
instructions in order, with branches to further blocks between them. -/
theorem block_space (hword : 4 ∣ mambo.codeCache) (htop : mambo.codeCache + maxBranchRange ≤ 2 ^ 48)
    (hentries : mambo.entries.toNat < 2 ^ 48) (hid : basicBlock < codeCacheSize) (hfree : basicBlock < freeBlock)
    (n : Nat) (hguest : readAddress + 4 * n ≤ 2 ^ 48) :
    let st := scanA64 mambo program basicBlock fuel .bb readAddress (blockAddr mambo basicBlock) freeBlock m code n
    (∀ e ∈ st.log, e.1 + 4 ≤ e.2 ∧ ∀ j, j < 4 → Owned mambo basicBlock freeBlock st.freeBlock (e.1 + j)) ∧
      st.ending ≠ some .overrun ∧
      (entryCode mambo program basicBlock fuel .bb readAddress (BitVec.ofNat 64 (blockAddr mambo basicBlock)) ≠ none →
        Translates mambo program basicBlock fuel st.code readAddress st.readAddress st.writeP) := by
  have hcache : Cache mambo basicBlock := ⟨hword, htop, hid⟩
  intro st
  cases hout : entryCode mambo program basicBlock fuel .bb readAddress
      (BitVec.ofNat 64 (blockAddr mambo basicBlock)) with
  | none =>
      have hstart : (scanStart mambo program basicBlock fuel .bb readAddress (blockAddr mambo basicBlock) freeBlock m
          code).log = [] ∧ (scanStart mambo program basicBlock fuel .bb readAddress (blockAddr mambo basicBlock)
          freeBlock m code).ending = some .assertion := by
        rw [scanStart, hout]
        exact ⟨rfl, rfl⟩
      have hst : st = scanStart mambo program basicBlock fuel .bb readAddress (blockAddr mambo basicBlock) freeBlock m
          code := scanLoop_ended _ _ _ (by rw [hstart.2]; rfl)
      rw [hst, hstart.1, hstart.2]
      exact ⟨fun e he => absurd he List.not_mem_nil, by simp, fun h => absurd rfl h⟩
  | some out =>
      have hstart : Round mambo program basicBlock fuel freeBlock readAddress readAddress
          (scanStart mambo program basicBlock fuel .bb readAddress (blockAddr mambo basicBlock) freeBlock m code) :=
        start_round hcache hfree hout
      obtain ⟨hinv, hoverrun⟩ := hstart.loop hcache hentries hguest
      exact ⟨hinv.space.log, hoverrun, fun _ => hinv.code⟩

end Invariant

section Example

def someAddresses : Addresses := ⟨0x10000000, 0x10000000, 0x10000100, 0x10000200, 0x20000000, 0x30000000⟩

/-- System calls up to a register branch, from a block after which others are
taken: three blocks are. -/
def someScan : Scan :=
  scanA64 someAddresses (fun r => if r < 0x400080 then .svc else .indirect .blr 0) 100 64 .bb 0x400000
    (blockAddr someAddresses 100) 200 ⟨0, 0, .unknown, 0, 0, 0, 0, 0, 0, 0, []⟩ (fun _ => none) 40

theorem block_space_some :
    someScan.ending = some .exit ∧ someScan.freeBlock = 203 ∧
      (∀ e ∈ someScan.log, e.1 + 4 ≤ e.2 ∧ ∀ j, j < 4 → Owned someAddresses 100 200 someScan.freeBlock (e.1 + j)) := by
  refine ⟨by decide, by decide, ?_⟩
  exact (block_space (by decide) (by decide) (by decide) (by decide) (by decide) 40 (by decide)).1

end Example

end Mambo.A64BlockSpace
