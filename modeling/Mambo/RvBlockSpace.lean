import Mambo.RvCodeRoom

namespace Mambo.RvBlockSpace

open Rv RvCode RvEmit RvExits RvScan RvCodeRoom
open Immediates (ofNat_ne)
open TraceState (codeCacheSize blockBytes maxBranchRange)

section Writing

variable {code code' : Word → Option (Out × Nat)} {out : List Out} {o : Out} {st : Scan} {a b : Nat}

/-- An instruction at an address, and several one after the other. -/
def Stands (code : Word → Option (Out × Nat)) (a : Nat) (o : Out) : Prop :=
  code (BitVec.ofNat 64 a) = some (o, 0) ∧ (o.size = 4 → code (BitVec.ofNat 64 (a + 2)) = some (o, 2))

def Placed (code : Word → Option (Out × Nat)) : Nat → List Out → Prop
  | _, [] => True
  | a, o :: out => Stands code a o ∧ Placed code (a + o.size) out

/-- Instructions of two or four bytes. -/
def Sized (out : List Out) : Prop := ∀ o ∈ out, o.size = 2 ∨ o.size = 4

theorem totalSize_cons (o : Out) (out : List Out) : totalSize (o :: out) = o.size + totalSize out := List.sum_cons

@[simp] theorem writeAll_nil : st.writeAll [] = st := rfl

@[simp] theorem writeAll_cons (o : Out) : st.writeAll (o :: out) = (st.write o).writeAll out := rfl

@[simp] theorem writeAll_readAddress : (st.writeAll out).readAddress = st.readAddress := by
  induction out generalizing st with
  | nil => rfl
  | cons o out ih => exact ih

@[simp] theorem writeAll_dataP : (st.writeAll out).dataP = st.dataP := by
  induction out generalizing st with
  | nil => rfl
  | cons o out ih => exact ih

@[simp] theorem writeAll_freeBlock : (st.writeAll out).freeBlock = st.freeBlock := by
  induction out generalizing st with
  | nil => rfl
  | cons o out ih => exact ih

@[simp] theorem writeAll_ending : (st.writeAll out).ending = st.ending := by
  induction out generalizing st with
  | nil => rfl
  | cons o out ih => exact ih

@[simp] theorem writeAll_writeP : (st.writeAll out).writeP = st.writeP + totalSize out := by
  induction out generalizing st with
  | nil => rfl
  | cons o out ih =>
      have hwriteP : (st.write o).writeP = st.writeP + o.size := rfl
      rw [writeAll_cons, ih, totalSize_cons, hwriteP]
      omega

theorem mem_writeAll_log {e : Nat × Nat × Nat} (h : e ∈ (st.writeAll out).log) :
    e ∈ st.log ∨ e.2.2 = st.dataP ∧ st.writeP ≤ e.1 ∧ e.1 + e.2.1 ≤ st.writeP + totalSize out := by
  induction out generalizing st with
  | nil => exact Or.inl h
  | cons o out ih =>
      have hwriteP : (st.write o).writeP = st.writeP + o.size := rfl
      rw [totalSize_cons]
      rcases ih h with hold | ⟨hdata, hge, hle⟩
      · rcases List.mem_cons.mp hold with heq | hold
        · right
          rw [heq]
          exact ⟨rfl, le_refl _, by dsimp only; omega⟩
        · exact Or.inl hold
      · right
        rw [hwriteP] at hge hle
        exact ⟨hdata, by omega, by omega⟩

theorem put_below (hend : a + o.size ≤ 2 ^ 64) (hsize : o.size = 2 ∨ o.size = 4) (hb : b < a) :
    Scan.put a o code (BitVec.ofNat 64 b) = code (BitVec.ofNat 64 b) := by
  have h0 : BitVec.ofNat 64 b ≠ BitVec.ofNat 64 a := ofNat_ne (by omega) (by omega) (by omega)
  rw [Scan.put]
  split
  · have h2 : BitVec.ofNat 64 b ≠ BitVec.ofNat 64 (a + 2) := ofNat_ne (by omega) (by omega) (by omega)
    rw [Function.update_of_ne h2, Function.update_of_ne h0]
  · exact Function.update_of_ne h0 _ _

theorem put_stands (hend : a + o.size ≤ 2 ^ 64) : Stands (Scan.put a o code) a o := by
  rw [Stands, Scan.put]
  by_cases h4 : o.size = 4
  · have hne : BitVec.ofNat 64 a ≠ BitVec.ofNat 64 (a + 2) := ofNat_ne (by omega) (by omega) (by omega)
    simp only [h4, if_true]
    rw [Function.update_of_ne hne, Function.update_self]
    exact ⟨rfl, fun _ => Function.update_self _ _ _⟩
  · simp only [h4, if_false]
    exact ⟨Function.update_self _ _ _, False.elim⟩

theorem writeAll_below (hend : st.writeP + totalSize out ≤ 2 ^ 64) (hsized : Sized out) (ha : a < st.writeP) :
    (st.writeAll out).code (BitVec.ofNat 64 a) = st.code (BitVec.ofNat 64 a) := by
  induction out generalizing st with
  | nil => rfl
  | cons o out ih =>
      rw [totalSize_cons] at hend
      have hwriteP : (st.write o).writeP = st.writeP + o.size := rfl
      have hrest : Sized out := fun o' ho' => hsized o' (List.mem_cons_of_mem _ ho')
      rw [writeAll_cons, ih (by rw [hwriteP]; omega) hrest (by rw [hwriteP]; omega)]
      exact put_below (by omega) (hsized o List.mem_cons_self) ha

theorem Stands.congr (hsize : o.size = 2 ∨ o.size = 4)
    (h : ∀ b, b < a + o.size → code' (BitVec.ofNat 64 b) = code (BitVec.ofNat 64 b)) (hstands : Stands code a o) :
    Stands code' a o := by
  refine ⟨(h a (by omega)).trans hstands.1, fun h4 => ?_⟩
  rw [h (a + 2) (by omega)]
  exact hstands.2 h4

theorem Placed.congr (hsized : Sized out)
    (h : ∀ b, b < a + totalSize out → code' (BitVec.ofNat 64 b) = code (BitVec.ofNat 64 b))
    (hplaced : Placed code a out) : Placed code' a out := by
  induction out generalizing a with
  | nil => trivial
  | cons o out ih =>
      rw [totalSize_cons] at h
      have hrest : Sized out := fun o' ho' => hsized o' (List.mem_cons_of_mem _ ho')
      exact ⟨hplaced.1.congr (hsized o List.mem_cons_self) fun b hb => h b (by omega),
        ih hrest (fun b hb => h b (by omega)) hplaced.2⟩

theorem placed_writeAll (hend : st.writeP + totalSize out ≤ 2 ^ 64) (hsized : Sized out) :
    Placed (st.writeAll out).code st.writeP out := by
  induction out generalizing st with
  | nil => trivial
  | cons o out ih =>
      rw [totalSize_cons] at hend
      have hwriteP : (st.write o).writeP = st.writeP + o.size := rfl
      have hrest : Sized out := fun o' ho' => hsized o' (List.mem_cons_of_mem _ ho')
      have hsize := hsized o List.mem_cons_self
      refine ⟨?_, ih (by rw [hwriteP]; omega) hrest⟩
      have hput : Stands (st.write o).code st.writeP o := put_stands (by omega)
      refine hput.congr hsize fun b hb => ?_
      exact writeAll_below (by rw [hwriteP]; omega) hrest (by rw [hwriteP]; exact hb)

theorem sized_insts (code : List Inst) : Sized (insts code) := by
  intro o ho
  obtain ⟨i, -, rfl⟩ := List.mem_map.mp ho
  exact size_eq i

theorem even_totalSize (hsized : Sized out) : 2 ∣ totalSize out := by
  induction out with
  | nil => exact Dvd.intro 0 rfl
  | cons o out ih =>
      have hrest := ih fun o' ho' => hsized o' (List.mem_cons_of_mem _ ho')
      rw [totalSize_cons]
      rcases hsized o List.mem_cons_self with h | h <;> omega

end Writing

section Invariant

variable (mambo : Addresses) (program : Nat → Guest) (basicBlock fuel : Nat)

/-- The code of a block, followed from its first word through the jumps to further
blocks, translates the instructions from an address up to another one. -/
inductive Translates (code : Word → Option (Out × Nat)) (startScan : Nat) : Nat → Nat → Prop
  | entry (out : List Out)
      (hout : entryCode mambo program basicBlock fuel startScan (BitVec.ofNat 64 (blockAddr mambo basicBlock)) = some out)
      (hplaced : Placed code (blockAddr mambo basicBlock) out) :
      Translates code startScan startScan (blockAddr mambo basicBlock + totalSize out)
  | inst (r a : Nat) (out : List Out) (hbefore : Translates code startScan r a)
      (hout : instCode mambo basicBlock (program r) (r = startScan) (BitVec.ofNat 64 r) (BitVec.ofNat 64 a) = some out)
      (hplaced : Placed code a out) : Translates code startScan (r + (program r).size) (a + totalSize out)
  | jump (r a b : Nat) (i : Inst) (hbefore : Translates code startScan r a) (hcode : Stands code a (.inst i))
      (hexec : ∀ s : State, exec i (s.goto (BitVec.ofNat 64 a)) = s.goto (BitVec.ofNat 64 b))
      (hforward : a + i.size ≤ b) : Translates code startScan r b

/-- An address in the first block of a fragment or in a block that its scan took. -/
def Owned (freeBefore freeAfter w : Nat) : Prop :=
  ∃ k, (k = basicBlock ∨ freeBefore ≤ k ∧ k < freeAfter) ∧ blockAddr mambo k ≤ w ∧ w < blockAddr mambo (k + 1)

structure Space (freeBefore : Nat) (st : Scan) : Prop where
  free : freeBefore ≤ st.freeBlock
  half : 2 ∣ st.writeP
  below : blockAddr mambo basicBlock ≤ st.writeP
  data : ∃ k, k < codeCacheSize ∧ k < st.freeBlock ∧ st.dataP = blockAddr mambo (k + 1)
  room : ∀ w, st.writeP ≤ w → w < st.dataP → Owned mambo basicBlock freeBefore st.freeBlock w
  log : ∀ e ∈ st.log, e.1 + e.2.1 ≤ e.2.2 ∧
    ∀ j, j < e.2.1 → Owned mambo basicBlock freeBefore st.freeBlock (e.1 + j)

variable {mambo program basicBlock fuel} {code code' : Word → Option (Out × Nat)} {startScan r a freeBefore : Nat}
  {st : Scan}

theorem sized_of_code {out : List Out} {g : Guest} {first : Bool} {readAddress writeP : Word}
    (h : instCode mambo basicBlock g first readAddress writeP = some out) : Sized out := by
  have hmap : ∀ {o : Option (List Inst)}, o.map insts = some out → Sized out := by
    intro o ho
    obtain ⟨is, -, rfl⟩ := Option.map_eq_some_iff.mp ho
    exact sized_insts is
  cases g with
  | cCopy =>
      obtain rfl := Option.some.inj h
      exact List.forall_mem_singleton.mpr (Or.inl rfl)
  | copy =>
      obtain rfl := Option.some.inj h
      exact List.forall_mem_singleton.mpr (Or.inr rfl)
  | atomic =>
      obtain rfl := Option.some.inj h
      exact List.forall_mem_singleton.mpr (Or.inr rfl)
  | auipc rd imm =>
      obtain rfl := Option.some.inj h
      exact sized_insts _
  | invalid =>
      cases first with
      | true => exact nomatch h
      | false => exact hmap h
  | unhandled => exact nomatch h
  | _ => exact hmap h

theorem sized_entry {out : List Out} {readAddress : Nat} {writeP : Word}
    (h : entryCode mambo program basicBlock fuel readAddress writeP = some out) : Sized out := by
  simp only [entryCode, Option.bind_eq_bind, Option.bind_eq_some_iff] at h
  obtain ⟨restored, -, h⟩ := h
  split_ifs at h
  · obtain ⟨call, -, h⟩ := Option.bind_eq_some_iff.mp h
    rw [← Option.some.inj h]
    exact sized_insts _
  · rw [← Option.some.inj h]
    exact sized_insts _

theorem Translates.congr (htranslates : Translates mambo program basicBlock fuel code startScan r a)
    (h : ∀ b, b < a → code' (BitVec.ofNat 64 b) = code (BitVec.ofNat 64 b)) :
    Translates mambo program basicBlock fuel code' startScan r a := by
  induction htranslates with
  | entry out hout hplaced => exact .entry out hout (hplaced.congr (sized_entry hout) h)
  | inst r a out _ hout hplaced ih =>
      exact .inst r a out (ih fun b hb => h b (by omega)) hout (hplaced.congr (sized_of_code hout) h)
  | jump r a b i _ hcode hexec hforward ih =>
      exact .jump r a b i (ih fun c hc => h c (by omega))
        (hcode.congr (size_eq i) fun c hc => h c (lt_of_lt_of_le hc hforward)) hexec hforward

theorem Owned.mono {free free' w : Nat} (hle : free ≤ free') (h : Owned mambo basicBlock freeBefore free w) :
    Owned mambo basicBlock freeBefore free' w := by
  obtain ⟨k, hk, hw⟩ := h
  exact ⟨k, hk.imp id fun hk => ⟨hk.1, lt_of_lt_of_le hk.2 hle⟩, hw⟩

theorem blockAddr_succ (mambo : Addresses) (k : Nat) : blockAddr mambo (k + 1) = blockAddr mambo k + blockBytes := by
  rw [blockAddr, blockAddr, Nat.succ_mul, Nat.add_assoc]

theorem blockAddr_le {j k : Nat} (h : j ≤ k) : blockAddr mambo j ≤ blockAddr mambo k :=
  Nat.add_le_add_left (Nat.mul_le_mul_right blockBytes h) mambo.codeCache

structure Cache (mambo : Addresses) (basicBlock : Nat) : Prop where
  half : 2 ∣ mambo.codeCache
  top : mambo.codeCache + maxBranchRange ≤ 2 ^ 48
  id : basicBlock < codeCacheSize

theorem Cache.block_half (hcache : Cache mambo basicBlock) (k : Nat) : 2 ∣ blockAddr mambo k :=
  Nat.dvd_add hcache.half (Dvd.dvd.mul_left (by decide) k)

theorem Cache.block_range (hcache : Cache mambo basicBlock) {k : Nat} (hk : k ≤ codeCacheSize) :
    blockAddr mambo k ≤ 2 ^ 48 := by
  have htop := hcache.top
  rw [maxBranchRange] at htop
  rw [codeCacheSize] at hk
  have haddr : blockAddr mambo k = mambo.codeCache + k * (64 * 4) := rfl
  omega

theorem Space.range (h : Space mambo basicBlock freeBefore st) (hcache : Cache mambo basicBlock) :
    st.dataP ≤ 2 ^ 48 := by
  obtain ⟨k, hk, _, hdata⟩ := h.data
  rw [hdata]
  exact hcache.block_range (Nat.succ_le_of_lt hk)

theorem Space.writeAll {out : List Out} (h : Space mambo basicBlock freeBefore st) (hsized : Sized out)
    (hroom : st.writeP + totalSize out ≤ st.dataP) : Space mambo basicBlock freeBefore (st.writeAll out) := by
  have hhalf := h.half
  have hbelow := h.below
  have heven := even_totalSize hsized
  refine ⟨by simpa using h.free, ?_, ?_, by simpa using h.data, ?_, ?_⟩
  · rw [writeAll_writeP]
    omega
  · rw [writeAll_writeP]
    omega
  · intro w hge hlt
    rw [writeAll_writeP] at hge
    rw [writeAll_dataP] at hlt
    rw [writeAll_freeBlock]
    exact h.room w (by omega) hlt
  · intro e he
    rw [writeAll_freeBlock]
    rcases mem_writeAll_log he with hold | ⟨hdata, hge, hle⟩
    · exact h.log e hold
    · exact ⟨by omega, fun j hj => h.room (e.1 + j) (by omega) (by omega)⟩

theorem Translates.writeAll {out : List Out}
    (htranslates : Translates mambo program basicBlock fuel st.code startScan r st.writeP)
    (hend : st.writeP + totalSize out ≤ 2 ^ 64) (hsized : Sized out) :
    Translates mambo program basicBlock fuel (st.writeAll out).code startScan r st.writeP :=
  htranslates.congr fun _ hb => writeAll_below hend hsized hb

def grown (mambo : Addresses) (st : Scan) : Scan :=
  { st with freeBlock := st.freeBlock + 1, dataP := blockAddr mambo (st.freeBlock + 1) }

theorem checkFreeSpace_next {size : Nat} (hfull : st.writeP + size ≥ st.dataP) (hblocks : ¬st.freeBlock ≥ codeCacheSize)
    (hnext : blockAddr mambo st.freeBlock = st.dataP) : checkFreeSpace mambo size st = grown mambo st := by
  rw [checkFreeSpace, if_pos hfull, if_neg hblocks]
  simp only [hnext, ne_eq, not_true_eq_false, if_false]
  rw [grown, blockAddr_succ, hnext]

theorem checkFreeSpace_far {size : Nat} {jump : Inst} (hfull : st.writeP + size ≥ st.dataP)
    (hblocks : ¬st.freeBlock ≥ codeCacheSize) (hfar : blockAddr mambo st.freeBlock ≠ st.dataP)
    (hjump : jalHelper (BitVec.ofNat 64 st.writeP) (BitVec.ofNat 64 (blockAddr mambo st.freeBlock)) zero = some jump) :
    checkFreeSpace mambo size st =
      grown mambo { st.writeAll [.inst jump] with writeP := blockAddr mambo st.freeBlock } := by
  rw [checkFreeSpace, if_pos hfull, if_neg hblocks]
  simp only [hjump, ne_eq, hfar, not_false_eq_true, if_true]
  rw [grown, ← blockAddr_succ]
  rfl

theorem checkFreeSpace_fails {size : Nat} (hfull : st.writeP + size ≥ st.dataP) (hblocks : ¬st.freeBlock ≥ codeCacheSize)
    (hfar : blockAddr mambo st.freeBlock ≠ st.dataP)
    (hjump : jalHelper (BitVec.ofNat 64 st.writeP) (BitVec.ofNat 64 (blockAddr mambo st.freeBlock)) zero = none) :
    checkFreeSpace mambo size st = st.fail .assertion := by
  rw [checkFreeSpace, if_pos hfull, if_neg hblocks]
  simp only [hjump, ne_eq, hfar, not_false_eq_true, if_true]

theorem owned_new {free w : Nat} (hfree : freeBefore ≤ free) (hge : blockAddr mambo free ≤ w)
    (hlt : w < blockAddr mambo (free + 1)) : Owned mambo basicBlock freeBefore (free + 1) w :=
  ⟨free, Or.inr ⟨hfree, Nat.lt_succ_self free⟩, hge, hlt⟩

theorem Space.next (h : Space mambo basicBlock freeBefore st) (hfree : st.freeBlock < codeCacheSize)
    (hnext : blockAddr mambo st.freeBlock = st.dataP) : Space mambo basicBlock freeBefore (grown mambo st) := by
  have hmono := Nat.le_succ st.freeBlock
  refine ⟨h.free.trans hmono, h.half, h.below, ⟨st.freeBlock, hfree, Nat.lt_succ_self _, rfl⟩, ?_, ?_⟩
  · intro w hge hlt
    by_cases hold : w < st.dataP
    · exact (h.room w hge hold).mono hmono
    · exact owned_new h.free (by omega) hlt
  · intro e he
    exact ⟨(h.log e he).1, fun j hj => ((h.log e he).2 j hj).mono hmono⟩

theorem Space.far (h : Space mambo basicBlock freeBefore st) (hcache : Cache mambo basicBlock)
    (hfree : st.freeBlock < codeCacheSize) (hahead : blockAddr mambo basicBlock ≤ blockAddr mambo st.freeBlock) :
    Space mambo basicBlock freeBefore (grown mambo { st with writeP := blockAddr mambo st.freeBlock }) := by
  have hmono := Nat.le_succ st.freeBlock
  refine ⟨h.free.trans hmono, hcache.block_half st.freeBlock, hahead,
    ⟨st.freeBlock, hfree, Nat.lt_succ_self _, rfl⟩, ?_, ?_⟩
  · intro w hge hlt
    exact owned_new h.free hge hlt
  · intro e he
    exact ⟨(h.log e he).1, fun j hj => ((h.log e he).2 j hj).mono hmono⟩

structure SpaceInv (mambo : Addresses) (program : Nat → Guest) (basicBlock fuel freeBefore startScan r : Nat)
    (st : Scan) : Prop where
  space : Space mambo basicBlock freeBefore st
  code : Translates mambo program basicBlock fuel st.code startScan r st.writeP

theorem SpaceInv.advance {p : Nat} {e : Option Ending}
    (hinv : SpaceInv mambo program basicBlock fuel freeBefore startScan r st) :
    SpaceInv mambo program basicBlock fuel freeBefore startScan r { st with readAddress := p, ending := e } :=
  ⟨⟨hinv.space.free, hinv.space.half, hinv.space.below, hinv.space.data, hinv.space.room, hinv.space.log⟩, hinv.code⟩

theorem SpaceInv.piece {out : List Out}
    (hinv : SpaceInv mambo program basicBlock fuel freeBefore startScan r st) (hcache : Cache mambo basicBlock)
    (hroom : st.writeP + totalSize out ≤ st.dataP)
    (hout : instCode mambo basicBlock (program r) (r = startScan) (BitVec.ofNat 64 r) (BitVec.ofNat 64 st.writeP) =
      some out) :
    SpaceInv mambo program basicBlock fuel freeBefore startScan (r + (program r).size) (st.writeAll out) := by
  have hsized := sized_of_code hout
  have hend : st.writeP + totalSize out ≤ 2 ^ 64 := by
    have hrange := hinv.space.range hcache
    omega
  refine ⟨hinv.space.writeAll hsized hroom, ?_⟩
  rw [writeAll_writeP]
  exact .inst r st.writeP out (hinv.code.writeAll hend hsized) hout (placed_writeAll hend hsized)

theorem SpaceInv.check (size : Nat) (hinv : SpaceInv mambo program basicBlock fuel freeBefore startScan r st)
    (hcache : Cache mambo basicBlock) (hroom : st.writeP + 4 ≤ st.dataP) (hsize : size < blockBytes)
    (hending : st.ending = none) :
    SpaceInv mambo program basicBlock fuel freeBefore startScan r (checkFreeSpace mambo size st) ∧
      (checkFreeSpace mambo size st).readAddress = st.readAddress ∧
      ((checkFreeSpace mambo size st).ending = none ∧
          (checkFreeSpace mambo size st).writeP + size < (checkFreeSpace mambo size st).dataP ∨
        (checkFreeSpace mambo size st).ending = some .full ∨
        (checkFreeSpace mambo size st).ending = some .assertion) := by
  have hspace := hinv.space
  have hfailed : ∀ e, SpaceInv mambo program basicBlock fuel freeBefore startScan r (st.fail e) :=
    fun e => ⟨⟨hspace.free, hspace.half, hspace.below, hspace.data, hspace.room, hspace.log⟩, hinv.code⟩
  by_cases hfull : st.writeP + size ≥ st.dataP
  · by_cases hblocks : st.freeBlock ≥ codeCacheSize
    · rw [checkFreeSpace, if_pos hfull, if_pos hblocks]
      exact ⟨hfailed _, rfl, Or.inr (Or.inl rfl)⟩
    · have hfree : st.freeBlock < codeCacheSize := by omega
      have hsucc := blockAddr_succ mambo st.freeBlock
      by_cases hnext : blockAddr mambo st.freeBlock = st.dataP
      · rw [checkFreeSpace_next hfull hblocks hnext]
        refine ⟨⟨hspace.next hfree hnext, hinv.code⟩, rfl, Or.inl ⟨hending, ?_⟩⟩
        rw [grown]
        dsimp only
        omega
      · cases hjump : jalHelper (BitVec.ofNat 64 st.writeP) (BitVec.ofNat 64 (blockAddr mambo st.freeBlock)) zero with
        | none =>
            rw [checkFreeSpace_fails hfull hblocks hnext hjump]
            exact ⟨hfailed _, rfl, Or.inr (Or.inr rfl)⟩
        | some jump =>
            have hrange := hspace.range hcache
            have hbelow := hspace.below
            obtain ⟨k, _, hk, hdata⟩ := hspace.data
            have hahead : st.dataP ≤ blockAddr mambo st.freeBlock := by
              rw [hdata]
              exact blockAddr_le hk
            have hsized : Sized [Out.inst jump] := sized_insts [jump]
            have htotal : totalSize [Out.inst jump] = 4 := by
              rw [totalSize_cons]
              exact size_jalHelper hjump
            have hend : st.writeP + totalSize [Out.inst jump] ≤ 2 ^ 64 := by omega
            have hwritten : Space mambo basicBlock freeBefore (st.writeAll [.inst jump]) :=
              hspace.writeAll hsized (by omega)
            have hfirst : blockAddr mambo basicBlock ≤ blockAddr mambo st.freeBlock := by omega
            have hforward : st.writeP + jump.size ≤ blockAddr mambo st.freeBlock := by
              rw [size_jalHelper hjump]
              omega
            have hfits : blockAddr mambo st.freeBlock + size < blockAddr mambo (st.freeBlock + 1) := by omega
            rw [checkFreeSpace_far hfull hblocks hnext hjump]
            exact ⟨⟨hwritten.far hcache hfree hfirst, .jump r st.writeP _ jump (hinv.code.writeAll hend hsized)
              (placed_writeAll hend hsized).1 (jalHelper_exec hjump) hforward⟩, rfl, Or.inl ⟨hending, hfits⟩⟩
  · rw [checkFreeSpace, if_neg hfull]
    exact ⟨hinv, rfl, Or.inl ⟨hending, by omega⟩⟩

theorem SpaceInv.reserved (hinv : SpaceInv mambo program basicBlock fuel freeBefore startScan r st)
    (hcache : Cache mambo basicBlock) (hroom : st.writeP + minFspace < st.dataP) (hending : st.ending = none)
    (g : Guest) :
    SpaceInv mambo program basicBlock fuel freeBefore startScan r (reserve mambo g st) ∧
      (reserve mambo g st).readAddress = st.readAddress ∧
      ((reserve mambo g st).ending = none ∧ (reserve mambo g st).writeP + max (room g) minFspace < (reserve mambo g st).dataP ∨
        (reserve mambo g st).ending = some .full ∨ (reserve mambo g st).ending = some .assertion) := by
  have hjump : st.writeP + 4 ≤ st.dataP := by
    rw [minFspace] at hroom
    omega
  have hplain : room g ≤ 52 → SpaceInv mambo program basicBlock fuel freeBefore startScan r st ∧
      st.readAddress = st.readAddress ∧ (st.ending = none ∧ st.writeP + max (room g) minFspace < st.dataP ∨
        st.ending = some .full ∨ st.ending = some .assertion) := by
    intro hsmall
    refine ⟨hinv, rfl, Or.inl ⟨hending, ?_⟩⟩
    rw [minFspace] at hroom ⊢
    omega
  have hasks : ∀ size, size < blockBytes → max (room g) minFspace ≤ size →
      SpaceInv mambo program basicBlock fuel freeBefore startScan r (checkFreeSpace mambo size st) ∧
        (checkFreeSpace mambo size st).readAddress = st.readAddress ∧
        ((checkFreeSpace mambo size st).ending = none ∧
            (checkFreeSpace mambo size st).writeP + max (room g) minFspace < (checkFreeSpace mambo size st).dataP ∨
          (checkFreeSpace mambo size st).ending = some .full ∨
          (checkFreeSpace mambo size st).ending = some .assertion) := by
    intro size hlt hle
    obtain ⟨hchecked, hread, hcheck⟩ := hinv.check size hcache hjump hlt hending
    refine ⟨hchecked, hread, hcheck.imp_left fun h => ⟨h.1, ?_⟩⟩
    exact lt_of_le_of_lt (Nat.add_le_add_left hle _) h.2
  cases g with
  | cBranch _ _ _ _ => exact hasks branchFspace (by decide) (show max 132 56 ≤ 152 by decide)
  | branch _ _ _ _ _ => exact hasks branchFspace (by decide) (show max 132 56 ≤ 152 by decide)
  | jal _ _ => exact hasks branchFspace (by decide) (show max 72 56 ≤ 152 by decide)
  | cJr _ => exact hasks regJumpFspace (by decide) (show max 192 56 ≤ 196 by decide)
  | cJalr _ => exact hasks regJumpFspace (by decide) (show max 192 56 ≤ 196 by decide)
  | jalr _ _ _ => exact hasks regJumpFspace (by decide) (show max 192 56 ≤ 196 by decide)
  | _ => exact hplain (by simp [room])

def fspace : Guest → Nat
  | .cBranch .. | .branch .. | .jal .. => branchFspace
  | .cJr .. | .cJalr .. | .jalr .. => regJumpFspace
  | _ => minFspace

theorem room_lt_fspace (g : Guest) : room g < fspace g := by
  cases g with
  | cBranch _ _ _ _ => exact (by decide : 132 < 152)
  | branch _ _ _ _ _ => exact (by decide : 132 < 152)
  | jal _ _ => exact (by decide : 72 < 152)
  | cJr _ => exact (by decide : 192 < 196)
  | cJalr _ => exact (by decide : 192 < 196)
  | jalr _ _ _ => exact (by decide : 192 < 196)
  | _ => simp [room, fspace, minFspace]

structure Round (mambo : Addresses) (program : Nat → Guest) (basicBlock fuel freeBefore startScan : Nat)
    (st : Scan) : Prop where
  inv : SpaceInv mambo program basicBlock fuel freeBefore startScan st.readAddress st
  overrun : st.ending ≠ some .overrun
  next : st.ending = none → st.writeP + minFspace < st.dataP

theorem room_of_not_stops {g : Guest} (h : stops g = false) : room g ≤ 50 := by
  cases g with
  | cCopy => exact (by decide : 2 ≤ 50)
  | auipc _ _ => exact (by decide : 20 ≤ 50)
  | ecall => exact le_refl 50
  | copy => exact (by decide : 4 ≤ 50)
  | atomic => exact (by decide : 4 ≤ 50)
  | unhandled => exact (by decide : 4 ≤ 50)
  | _ => exact nomatch h

theorem SpaceInv.round (hinv : SpaceInv mambo program basicBlock fuel freeBefore startScan st.readAddress st)
    (hcache : Cache mambo basicBlock) (hroom : st.writeP + minFspace < st.dataP) (hending : st.ending = none)
    (hentries : Short mambo.entries) (hguest : st.readAddress < 2 ^ 48) :
    Round mambo program basicBlock fuel freeBefore startScan (scanRound mambo program basicBlock startScan st) := by
  obtain ⟨hreserved, hread, hreserve⟩ := hinv.reserved hcache hroom hending (program st.readAddress)
  rw [scanRound, scanInst]
  generalize reserve mambo (program st.readAddress) st = st₁ at hreserved hread hreserve ⊢
  rcases hreserve with ⟨hnone, hspace⟩ | hfailed
  · rw [hnone]
    simp only [Option.isSome_none, Bool.false_eq_true, if_false, hread]
    cases hout : instCode mambo basicBlock (program st.readAddress) (st.readAddress = startScan)
        (BitVec.ofNat 64 st.readAddress) (BitVec.ofNat 64 st₁.writeP) with
    | none =>
        have hkept : ∀ e, SpaceInv mambo program basicBlock fuel freeBefore startScan (st₁.fail e).readAddress
            (st₁.fail e) := by
          intro e
          rw [← hread] at hreserved
          exact hreserved.advance
        refine ⟨hkept _, ?_, fun h => absurd h (Option.some_ne_none _)⟩
        rw [Scan.fail]
        split_ifs <;> simp
    | some out =>
        have hid : basicBlock < 2 ^ 16 := lt_trans hcache.id (by decide)
        have hsize := instCode_size hid hentries hguest hout
        have hpiece := hreserved.piece hcache (by omega) hout
        dsimp only
        generalize hst₂ : st₁.writeAll out = st₂ at hpiece ⊢
        have hwriteP : st₂.writeP = st₁.writeP + totalSize out := by rw [← hst₂, writeAll_writeP]
        have hdataP : st₂.dataP = st₁.dataP := by rw [← hst₂, writeAll_dataP]
        have hread₂ : st₂.readAddress = st.readAddress := by rw [← hst₂, writeAll_readAddress, hread]
        have hending₂ : st₂.ending = none := by rw [← hst₂, writeAll_ending, hnone]
        have hroom₂ : ¬st₂.dataP ≤ st₂.writeP := by omega
        rw [if_neg hroom₂]
        split_ifs with hstop
        · rw [hread₂]
          exact ⟨hpiece.advance, by simp, fun h => absurd h (Option.some_ne_none _)⟩
        · have hsmall := room_of_not_stops (Bool.not_eq_true _ ▸ hstop)
          have hjump : st₂.writeP + 4 ≤ st₂.dataP := by
            rw [minFspace] at hspace
            omega
          obtain ⟨hchecked, hread₃, hcheck⟩ := hpiece.check minFspace hcache hjump (by decide) hending₂
          refine ⟨?_, ?_, ?_⟩
          · rw [hread₃.trans hread₂]
            exact hchecked.advance
          · rcases hcheck with ⟨hnone₃, _⟩ | hfull | hassert
            · simp [hnone₃]
            · simp [hfull]
            · simp [hassert]
          · intro hnone₃
            rcases hcheck with ⟨_, hspace₃⟩ | hfull | hassert
            · exact hspace₃
            · exact absurd (hfull.symm.trans hnone₃) (Option.some_ne_none _)
            · exact absurd (hassert.symm.trans hnone₃) (Option.some_ne_none _)
  · rw [← hread] at hreserved
    rcases hfailed with hfull | hassert
    · rw [hfull]
      refine ⟨hreserved, ?_, ?_⟩ <;> simp [hfull]
    · rw [hassert]
      refine ⟨hreserved, ?_, ?_⟩ <;> simp [hassert]

theorem Round.loop {n : Nat} (h : Round mambo program basicBlock fuel freeBefore startScan st)
    (hcache : Cache mambo basicBlock) (hentries : Short mambo.entries)
    (hguest : ∀ k, k < n → (scanLoop mambo program basicBlock startScan k st).readAddress < 2 ^ 47) :
    SpaceInv mambo program basicBlock fuel freeBefore startScan (scanLoop mambo program basicBlock startScan n st).readAddress
        (scanLoop mambo program basicBlock startScan n st) ∧
      (scanLoop mambo program basicBlock startScan n st).ending ≠ some .overrun := by
  induction n generalizing st with
  | zero => exact ⟨h.inv, h.overrun⟩
  | succ n ih =>
      rw [scanLoop]
      cases hending : st.ending with
      | some e =>
          rw [Option.isSome_some, if_pos rfl]
          exact ⟨h.inv, h.overrun⟩
      | none =>
          have hread : st.readAddress < 2 ^ 47 := hguest 0 (Nat.succ_pos n)
          rw [Option.isSome_none, if_neg Bool.false_ne_true]
          refine ih (h.inv.round hcache (h.next hending) hending hentries (by omega)) fun k hk => ?_
          have hnext := hguest (k + 1) (Nat.succ_lt_succ hk)
          rwa [scanLoop, hending, Option.isSome_none, if_neg Bool.false_ne_true] at hnext

variable {readAddress freeBlock : Nat} {out : List Out}

theorem entryCode_some (mambo : Addresses) (program : Nat → Guest) (basicBlock fuel readAddress : Nat) (writeP : Word) :
    ∃ out, entryCode mambo program basicBlock fuel readAddress writeP = some out := by
  obtain ⟨restored, hrestored⟩ : ∃ code, pop [a0, a1] = some code := ⟨_, rfl⟩
  obtain ⟨popped, hpopped⟩ : ∃ code, pop [ra] = some code := ⟨_, rfl⟩
  simp only [entryCode, traceHeadCall, hrestored, hpopped, Option.bind_eq_bind, Option.bind_some, Option.pure_def]
  split <;> exact ⟨_, rfl⟩

theorem start_round (hcache : Cache mambo basicBlock) (hfree : basicBlock < freeBlock) :
    Round mambo program basicBlock fuel freeBlock readAddress
      (scanStart mambo program basicBlock fuel readAddress freeBlock code) := by
  have hsize : blockBytes = 256 := rfl
  obtain ⟨out, hout⟩ := entryCode_some mambo program basicBlock fuel readAddress
    (BitVec.ofNat 64 (blockAddr mambo basicBlock))
  have hlength := entryCode_size (lt_trans hcache.id (by decide)) hout
  have hsized := sized_entry hout
  have hrange := hcache.block_range hcache.id.le
  have hsucc := blockAddr_succ mambo basicBlock
  rw [scanStart, hout]
  dsimp only
  generalize hst : (⟨readAddress, blockAddr mambo basicBlock, blockAddr mambo basicBlock + blockBytes, freeBlock, code,
    [], none⟩ : Scan) = st
  have hread : st.readAddress = readAddress := by rw [← hst]
  have hwriteP : st.writeP = blockAddr mambo basicBlock := by rw [← hst]
  have hdataP : st.dataP = blockAddr mambo (basicBlock + 1) := by rw [← hst, hsucc]
  have hfreeBlock : st.freeBlock = freeBlock := by rw [← hst]
  have hending : st.ending = none := by rw [← hst]
  have hspace : Space mambo basicBlock freeBlock st := by
    refine ⟨hfreeBlock.ge, hwriteP ▸ hcache.block_half basicBlock, hwriteP.ge,
      ⟨basicBlock, hcache.id, by rwa [hfreeBlock], hdataP⟩, ?_, ?_⟩
    · intro w hge hlt
      exact ⟨basicBlock, Or.inl rfl, by omega, by omega⟩
    · intro e he
      rw [← hst] at he
      exact absurd he List.not_mem_nil
  refine ⟨⟨hspace.writeAll hsized (by omega), ?_⟩, by simp [hending], fun _ => ?_⟩
  · rw [writeAll_readAddress, writeAll_writeP, hread, hwriteP]
    have hplaced : Placed (st.writeAll out).code st.writeP out := placed_writeAll (by omega) hsized
    rw [hwriteP] at hplaced
    exact .entry out hout hplaced
  · rw [writeAll_writeP, writeAll_dataP, minFspace]
    omega

/-- The scan of a block writes below the end of the block it is in, into blocks of
its own only, each instruction takes less than the room that is checked before it, the
check for an overrun never fails, and the code is that of the instructions in order,
with jumps to further blocks between them. -/
theorem scan_space (hhalf : 2 ∣ mambo.codeCache) (htop : mambo.codeCache + maxBranchRange ≤ 2 ^ 48)
    (hentries : mambo.entries.toNat < 2 ^ 48) (hid : basicBlock < codeCacheSize) (hfree : basicBlock < freeBlock)
    (n : Nat)
    (hguest : ∀ k, k < n →
      (scanRiscv mambo program basicBlock fuel readAddress freeBlock code k).readAddress < 2 ^ 47) :
    let st := scanRiscv mambo program basicBlock fuel readAddress freeBlock code n
    (∀ e ∈ st.log, e.1 + e.2.1 ≤ e.2.2 ∧ ∀ j, j < e.2.1 → Owned mambo basicBlock freeBlock st.freeBlock (e.1 + j)) ∧
      (∀ g first r writeP out, r < 2 ^ 47 →
        instCode mambo basicBlock g first (BitVec.ofNat 64 r) writeP = some out → totalSize out < fspace g) ∧
      st.ending ≠ some .overrun ∧
      Translates mambo program basicBlock fuel st.code readAddress st.readAddress st.writeP := by
  have hcache : Cache mambo basicBlock := ⟨hhalf, htop, hid⟩
  have hshort : Short mambo.entries := by
    rw [Short, BitVec.toInt_eq_toNat_of_lt (by omega)]
    omega
  obtain ⟨hinv, hoverrun⟩ := (start_round hcache hfree).loop hcache hshort hguest
  refine ⟨hinv.space.log, fun g first r writeP out hr hout => ?_, hoverrun, hinv.code⟩
  have hsize := instCode_size (lt_trans hid (by decide)) hshort (lt_trans hr (by decide)) hout
  exact lt_of_le_of_lt hsize (room_lt_fspace g)

end Invariant

section Example

def someAddresses : Addresses := ⟨0x10000000, 0x20000000, 0x20000100, 0x20000200, 0x30000000, 0x11000000⟩

/-- System calls up to a call with a1 as its register, from a block after which others
are taken: three blocks are. -/
def someScan (k : Nat) : Scan :=
  scanRiscv someAddresses (fun r => if r < 0x400040 then .ecall else .jalr ra a1 8) 100 64 0x400000 200
    (fun _ => none) k

theorem scan_space_some :
    (someScan 40).ending = some .exit ∧ (someScan 40).freeBlock = 203 ∧
      ∀ e ∈ (someScan 40).log, e.1 + e.2.1 ≤ e.2.2 ∧
        ∀ j, j < e.2.1 → Owned someAddresses 100 200 (someScan 40).freeBlock (e.1 + j) := by
  refine ⟨by with_unfolding_all decide, by with_unfolding_all decide, ?_⟩
  exact (scan_space (by decide) (by decide) (by decide) (by decide) (by decide) 40
    (by with_unfolding_all decide)).1

end Example

end Mambo.RvBlockSpace
