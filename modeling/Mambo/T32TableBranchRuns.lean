import Mambo.T32TableBranch

namespace Mambo.T32TableBranchRuns

open Bytes ByteMemory CodeRuns CodeCells WordMemory T32 T32Emit T32TableBranch

variable {x : Site} {σ σ₀ σ' : Fragment} {s t u : State} {a p i block : Word} {mem : Word → Byte} {k n : Nat}
  {f : Word → Option Inst} {calls L : List (Word × Word)}

section Slow

def pushedAt (s : State) : Word := s.r sp - 28

/-- Bytes that the slow path does not write. -/
structure Apart (x : Site) (s : State) (a : Word) (n : Nat) : Prop where
  stack : Clear (pushedAt s) 16 a n
  metaRn : Clear x.metaRn 4 a n

/-- The memory in which the slow path reads the table of the program. -/
def slowMem (x : Site) (s : State) : Word → Byte :=
  storeWord (storeWords s.mem (pushedAt s) [s.r 0, s.r 1, s.r 2, s.r 3]) x.metaRn (s.r x.rm)

theorem slowMem_apart (h : Apart x s a n) : loadBytes (slowMem x s) a n = loadBytes s.mem a n := by
  rw [slowMem, storeWord, loadBytes_clear h.metaRn, loadBytes_storeWords (show 4 * 4 ≤ 2 ^ 32 by decide) h.stack]

theorem scratch_ne (hx : x.Accepted) : x.scratchReg ≠ pc ∧ x.scratchReg ≠ sp ∧ x.scratchReg2 ≠ pc := by
  have hne : ∀ r : Reg, r.toNat < 3 → r ≠ pc ∧ r ≠ sp := by decide
  exact ⟨(hne _ hx.scratch_lt).1, (hne _ hx.scratch_lt).2, (hne _ hx.scratch2_lt).1⟩

def recorded (x : Site) (s : State) : State :=
  performAll [.strwi32 x.rm x.scratchReg 0]
    (performAll (copyToReg32bit x.scratchReg x.metaRn) (performAll (branchSaveContext true) s))

theorem recorded_spec (hx : x.Accepted) (s : State) :
    (recorded x s).mem = slowMem x s ∧ (recorded x s).r x.rm = s.r x.rm := by
  obtain ⟨hpc, hsp, -⟩ := scratch_ne hx
  have hrm : ∀ (s : State) p v w, (((s.set sp v).goto p).set x.scratchReg w).r x.rm = s.r x.rm := fun _ _ _ _ =>
    (State.set_r_of_ne hx.rm_scratch).trans (State.set_r_of_ne hx.rm_sp)
  rw [recorded, performAll_save, performAll_copy hpc, performAll, List.foldl_cons, List.foldl_nil, perform]
  simp only [State.goto_mem, State.goto_r, State.setMem_mem, State.setMem_r, State.get_of_ne hpc, State.get_of_ne hx.rm_pc]
  rw [State.set_r_self, hrm, State.setMem_r, State.set_mem, State.goto_mem, State.set_mem, State.setMem_mem]
  exact ⟨congrArg (storeWord _ · _) (BitVec.add_zero _), rfl⟩

def located (x : Site) (s : State) : State :=
  performAll [x.load, .add32 x.scratchReg x.scratchReg 1 x.scratchReg2, .addi32 x.scratchReg r0 1]
    (performAll (copyToReg32bit x.scratchReg (x.readAddress + 4)) s)

theorem located_spec (hx : x.Accepted) (s : State) :
    (located x s).mem = s.mem ∧ (located x s).r r0 = x.target s.mem (s.r x.rm) := by
  obtain ⟨hpc, -, hpc2⟩ := scratch_ne hx
  have hdouble : ∀ n, BitVec.ofNat 32 n <<< 1 = BitVec.ofNat 32 (2 * n) := by
    intro n
    apply BitVec.eq_of_toNat_eq
    rw [BitVec.toNat_shiftLeft, BitVec.toNat_ofNat, BitVec.toNat_ofNat, Nat.shiftLeft_eq]
    omega
  let s₀ := (s.set x.scratchReg (x.readAddress + 4)).goto (past s.pc 8)
  have hscratch : s₀.get x.scratchReg = x.readAddress + 4 := (State.get_of_ne hpc).trans State.set_r_self
  have hrm : s₀.get x.rm = s.r x.rm := (State.get_of_ne hx.rm_pc).trans (State.set_r_of_ne hx.rm_scratch)
  have hload : perform x.load s₀ = (s₀.set x.scratchReg2
      (BitVec.ofNat 32 (loadBytes s.mem (x.offsetAddr (s.r x.rm)) x.width))).goto (past s₀.pc 4) := by
    rcases hkind : x.kind with _ | _
    · simp only [Site.load, Site.offsetAddr, Site.width, hkind, perform, hscratch, hrm]
      rw [show (0 : BitVec 2).toNat = 0 by rfl, BitVec.shiftLeft_zero]
      rfl
    · simp only [Site.load, Site.offsetAddr, Site.width, hkind, perform, hscratch, hrm]
      rfl
  rw [located, performAll_copy hpc, performAll, List.foldl_cons, List.foldl_cons, List.foldl_cons, List.foldl_nil, hload]
  simp only [perform]
  refine ⟨rfl, ?_⟩
  rw [State.goto_r, State.set_r_self, State.get_of_ne hpc, State.goto_r, State.set_r_self, State.get_of_ne hpc,
    State.get_of_ne hpc2, State.goto_r, State.set_r_self, State.set_r_of_ne hx.distinct, Site.target, ← hdouble,
    ← State.get_of_ne hpc, hscratch]
  rfl

theorem performAll_slow (hx : x.Accepted) (s : State) :
    (performAll x.slowCode s).mem = slowMem x s ∧ (performAll x.slowCode s).r r1 = x.basicBlock ∧
      (performAll x.slowCode s).r r0 = x.target (slowMem x s) (s.r x.rm) := by
  have hparts : performAll x.slowCode s =
      performAll [.addi32 sp r3 dispSpOffset] (performAll (copyToReg32bit r1 x.basicBlock) (located x (recorded x s))) := by
    simp only [Site.slowCode, performAll_append, located, recorded]
  obtain ⟨hmem, hrm⟩ := recorded_spec hx s
  obtain ⟨hmem', hr0⟩ := located_spec hx (recorded x s)
  rw [hmem, hrm] at hr0
  rw [hparts, performAll_copy (by decide), performAll, List.foldl_cons, List.foldl_nil, perform]
  refine ⟨hmem'.trans hmem, ?_, ?_⟩
  · rw [State.goto_r, State.set_r_of_ne (by decide), State.goto_r, State.set_r_self]
  · rw [State.goto_r, State.set_r_of_ne (by decide), State.goto_r, State.set_r_of_ne (by decide), hr0]

theorem slow_run {b : Inst} (hx : x.Accepted) (hs : At s x.slow) (heven : x.writeP.toNat % 2 = 0)
    (hb : b32Helper (past x.slow 48) (x.dispatcherAddr - 4) = some b) (hcode : CodeAt t32 f x.slow (x.slowCode ++ [b])) :
    ∃ u, Reaches t32 f s u ∧ At u (entry (x.dispatcherAddr - 4)) ∧ u.mem = slowMem x s ∧ u.r r1 = x.basicBlock ∧
      u.r r0 = x.target (slowMem x s) (s.r x.rm) := by
  obtain ⟨hslow, hjump⟩ := codeAt_append_t32.mp hcode
  rw [bytes_slowCode] at hjump
  obtain ⟨hrun, hend⟩ := performAll_run hs (slowCode_straight x) hslow
  rw [bytes_slowCode] at hend
  obtain ⟨hstep, hat⟩ := b32_step hend hb (past_even (past_even heven (by decide)) (by decide)) hjump.1
  obtain ⟨hmem, hr1, hr0⟩ := performAll_slow hx s
  exact ⟨_, hrun.tail hstep, hat, hmem, hr1, hr0⟩

end Slow

section Head

theorem hi_iff (i : Word) : A64.condHolds hi (compare i ((BitVec.ofNat 8 151).setWidth 32)) = true ↔ maxTbIndex ≤ i.toNat := by
  have hc : A64.condHolds hi (compare i ((BitVec.ofNat 8 151).setWidth 32)) =
      (decide ((BitVec.ofNat 8 151).setWidth 32 ≤ i) && !(i == (BitVec.ofNat 8 151).setWidth 32)) := rfl
  have hlimit : ((BitVec.ofNat 8 151).setWidth 32 : Word).toNat = 151 := rfl
  rw [hc, Bool.and_eq_true, decide_eq_true_iff, Bool.not_eq_true', beq_eq_false_iff_ne, BitVec.le_def, ne_eq,
    ← BitVec.toNat_inj, hlimit, maxTbIndex]
  omega

theorem loadBytes_one (mem : Word → Byte) (a : Word) : loadBytes mem a 1 = (mem a).toNat := by
  rw [loadBytes, List.range_one, List.map_singleton, ofBytes, ofBytes, BitVec.add_zero]
  omega

/-- The state after the comparison, in the block of the condition. -/
def compared (x : Site) (s : State) : State :=
  { s.goto (past x.writeP 6) with flags := compare (s.r x.rm) ((BitVec.ofNat 8 151).setWidth 32), itstate := 0x88 }

theorem compared_run {is : List Inst} (hx : x.Accepted) (hs : At s x.writeP)
    (hcode : CodeAt t32 f x.writeP (.cmpi32 x.rm 151 :: .it16 hi 8 :: is)) : Reaches t32 f s (compared x s) := by
  obtain ⟨hcmp, hrest⟩ := codeAt_cons_t32.mp hcode
  obtain ⟨hit, -⟩ := codeAt_cons_t32.mp hrest
  have hat : At (perform (.cmpi32 x.rm 151) s) (past x.writeP 4) := hs.perform rfl
  have hstep : Steps t32 f (perform (.cmpi32 x.rm 151) s) (compared x s) := by
    refine steps_exec (by rw [hat.pc]; exact hit) ?_
    have hnext : past (past x.writeP 4) 2 = past x.writeP 6 := past_past _ _ _
    rw [exec, passed_outside hat.outside, if_pos rfl, perform, hat.pc, compared, ← hnext, perform,
      State.get_of_ne hx.rm_pc]
    rfl
  exact Relation.ReflTransGen.head (hs.step rfl hcmp) (Relation.ReflTransGen.single hstep)

theorem head_run {slow : Inst} (hx : x.Accepted) (hs : At s x.writeP) (heven : x.writeP.toNat % 2 = 0)
    (hb : b32Helper (past x.writeP 6) x.slow = some slow)
    (hcode : CodeAt t32 f x.writeP [.cmpi32 x.rm 151, .it16 hi 8, slow, .tbb32 pc x.rm]) :
    ∃ u, Reaches t32 f s u ∧ u.r = s.r ∧ u.mem = s.mem ∧
      At u (if maxTbIndex ≤ (s.r x.rm).toNat then x.slow
        else past x.table (2 * (s.mem (past x.table (s.r x.rm).toNat)).toNat)) := by
  have hrun := compared_run hx hs hcode
  obtain ⟨hslow, htbb⟩ := codeAt_cons_t32.mp (codeAt_cons_t32.mp (codeAt_cons_t32.mp hcode).2).2
  have hsix : past (past x.writeP (Inst.cmpi32 x.rm 151).size) (Inst.it16 hi 8).size = past x.writeP 6 := past_past _ _ _
  have hten : past (past x.writeP 6) slow.size = past x.writeP 10 := by
    rw [b32Helper_size hb]
    exact past_past _ _ _
  rw [hsix] at hslow
  rw [hsix, hten] at htbb
  have hblock : ((0x88 : BitVec 8).extractLsb' 0 4 == 0) = false := by decide
  have hcond : (0x88 : BitVec 8).extractLsb' 4 4 = hi := by decide
  have hpass : passed (compared x s) = A64.condHolds hi (compare (s.r x.rm) ((BitVec.ofNat 8 151).setWidth 32)) := by
    rw [passed, compared]
    dsimp only
    rw [hblock, Bool.false_or, hcond]
  have hexec := hpass ▸ hi_iff (s.r x.rm)
  have hnext : nextIt slow (0x88 : BitVec 8) = 0 := (b32Helper_next hb _).trans (by decide)
  have hstep : ∀ t, exec slow (compared x s) = t → Reaches t32 f s t := fun t ht => hrun.tail (steps_exec hslow ht)
  have hslowEven : x.slow.toNat % 2 = 0 := past_even heven (by decide)
  split
  · rename_i hge
    have hgo : perform slow (compared x s) = (compared x s).goto x.slow := by
      have hentry : entry x.slow = x.slow := by
        apply BitVec.eq_of_toNat_eq
        rw [entry_toNat]
        omega
      rw [b32Helper_exec (s := compared x s) hb (past_even heven (by decide)), hentry]
    refine ⟨_, hstep _ rfl, ?_, ?_, ?_⟩ <;> rw [exec, if_pos (hexec.mpr hge), hgo]
    · rfl
    · rfl
    · exact ⟨rfl, hs.thumb, hnext⟩
  · rename_i hlt
    have hgo : exec slow (compared x s) =
        { s.goto (past x.writeP 10) with flags := (compared x s).flags, itstate := 0 } := by
      have hit : nextIt slow (compared x s).itstate = 0 := hnext
      have hpast : past (past x.writeP 6) 4 = past x.writeP 10 := past_past _ _ _
      rw [exec, if_neg (mt hexec.mp hlt), hit, b32Helper_size hb, ← hpast]
      rfl
    have hget : ∀ t : State, t.pc = past x.writeP 10 → t.get pc = x.table := fun t ht => by
      rw [State.get, if_pos rfl, ht]
      exact past_past _ _ _
    refine ⟨_, (hstep _ hgo).tail (steps_exec htbb.1 (exec_plain rfl rfl)), rfl, rfl, ?_, hs.thumb, rfl⟩
    have hindex : x.table + s.r x.rm = past x.table (s.r x.rm).toNat := by
      rw [past, BitVec.ofNat_toNat, BitVec.setWidth_eq]
    rw [perform, tableTarget, hget _ rfl, State.get_of_ne hx.rm_pc, loadBytes_one, State.goto_pc]
    change past (past x.writeP 10) 4 + BitVec.ofNat 32 (2 * (s.mem (x.table + s.r x.rm)).toNat) = _
    rw [hindex, past_past]
    rfl

end Head

section System

def exitBytes : Nat := 346

/-- The instructions of the exit only. -/
def inside (x : Site) (code : Code) : Word → Option Inst :=
  fun a => if (a - x.writeP).toNat < exitBytes then fetch code a else none

/-- The state in which an execution leaves the exit. -/
def Exits (x : Site) (code : Code) (s t : State) : Prop :=
  Reaches t32 (inside x code) s t ∧ exitBytes ≤ (t.pc - x.writeP).toNat

/-- Where the exit lies: in the code cache, which is as large as the range of a branch. -/
structure Placed (x : Site) (cache : Word) : Prop where
  even : x.writeP.toNat % 2 = 0
  cache_le : cache.toNat + 2 ^ 24 ≤ 2 ^ 32
  low : cache.toNat ≤ x.writeP.toNat
  high : x.writeP.toNat + exitBytes ≤ cache.toNat + 2 ^ 24
  readEven : x.readAddress.toNat % 2 = 0
  dispatcher : exitBytes ≤ (entry (x.dispatcherAddr - 4) - x.writeP).toNat
  metaRn : Clear x.metaRn 4 x.table maxTbIndex

/-- What lookup_or_scan returns for a target: the address of a fragment in the code cache. -/
structure Blocks (x : Site) (cache : Word) (lookup : Word → Word → Prop) : Prop where
  low : ∀ target block, lookup target block → cache.toNat ≤ block.toNat
  high : ∀ target block, lookup target block → block.toNat < cache.toNat + 2 ^ 24
  outside : ∀ target block, lookup target block → exitBytes ≤ (entry block - x.writeP).toNat
  code : ∀ target block, lookup target block → entry block ≠ entry (x.dispatcherAddr - 4)

/-- An execution comes to the exit. The program does not change the table that it
branches by, and what it keeps below its stack pointer is not its table. -/
structure Enters (x : Site) (targets : Word → Word) (σ : Fragment) (s : State) : Prop where
  at_start : At s x.writeP
  mem : s.mem = σ.mem
  fixed : (s.r x.rm).toNat < maxTbIndex → x.target s.mem (s.r x.rm) = targets (s.r x.rm)
  table : Clear (pushedAt s) 16 x.table maxTbIndex
  offset : Apart x s (x.offsetAddr (s.r x.rm)) x.width

def Own (x : Site) (a : Word) : Prop := Within x.table maxTbIndex a ∨ Within x.metaRn 4 a

/-- Runs of the program past the exit, with the calls of the dispatcher, each with
the index and the block that it is given. -/
inductive Run (x : Site) (lookup : Word → Word → Prop) (targets : Word → Word) (σ₀ : Fragment) :
    List (Word × Word) → Fragment → Prop
  | start : Run x lookup targets σ₀ [] σ₀
  | program {calls : List (Word × Word)} {σ : Fragment} {mem : Word → Byte} (h : Run x lookup targets σ₀ calls σ)
      (hmem : ∀ a, Own x a → mem a = σ.mem a) : Run x lookup targets σ₀ calls { σ with mem := mem }
  | exit {calls : List (Word × Word)} {σ : Fragment} {s t : State} (h : Run x lookup targets σ₀ calls σ)
      (hs : Enters x targets σ s) (ht : Exits x σ.code s t) (hpc : t.pc ≠ entry (x.dispatcherAddr - 4)) :
      Run x lookup targets σ₀ calls { σ with mem := t.mem }
  | call {calls : List (Word × Word)} {σ σ' : Fragment} {s t : State} {block : Word}
      (h : Run x lookup targets σ₀ calls σ) (hs : Enters x targets σ s) (ht : Exits x σ.code s t)
      (hpc : t.pc = entry (x.dispatcherAddr - 4)) (hlookup : lookup (t.r r0) block)
      (hσ : dispatcherTb x { σ with mem := t.mem } block = some σ') :
      Run x lookup targets σ₀ (calls ++ [(s.r x.rm, block)]) σ'

/-- The branch slots in the order in which they are given: the index and the block. -/
def link (slots : List (Word × Word)) (call : Word × Word) : List (Word × Word) :=
  if maxTbIndex ≤ call.1.toNat ∨ slots.length = tbCacheSize then slots else slots ++ [call]

def linked (calls : List (Word × Word)) : List (Word × Word) := calls.foldl link []

theorem linked_append (calls : List (Word × Word)) (call : Word × Word) :
    linked (calls ++ [call]) = link (linked calls) call := by
  rw [linked, List.foldl_append]
  rfl

/-- The slot of an index; the one after the last is the slow path. -/
def slotOf (slots : List (Word × Word)) (i : Word) : Nat :=
  if i ∈ slots.map Prod.fst then (slots.map Prod.fst).idxOf i else tbCacheSize

/-- The state of the exit, from the slots that are given. -/
structure Holds (x : Site) (lookup : Word → Word → Prop) (targets : Word → Word) (σ₀ : Fragment) (slots : List (Word × Word))
    (σ : Fragment) : Prop where
  free : σ.freeB = slots.length
  le : slots.length ≤ tbCacheSize
  nodup : (slots.map Prod.fst).Nodup
  lt : ∀ i ∈ slots.map Prod.fst, i.toNat < maxTbIndex
  blocks : ∀ p ∈ slots, lookup (targets p.1) p.2
  entries : ∀ i, i < maxTbIndex → σ.mem (past x.table i) = BitVec.ofNat 8 (76 + 2 * slotOf slots (BitVec.ofNat 32 i))
  branches : ∀ k p, slots[k]? = some p → ∃ b, b32Helper (x.slot k) p.2 = some b ∧ fetch σ.code (x.slot k) = some b
  kept : ∀ a, ¬Within (x.slot 0) 128 a → σ.code a = σ₀.code a

theorem slotOf_le (hle : L.length ≤ tbCacheSize) (i : Word) : slotOf L i ≤ tbCacheSize := by
  rw [slotOf]
  split
  · exact (List.idxOf_le_length).trans (by rw [List.length_map]; exact hle)
  · exact le_rfl

theorem inside_codeAt {code : Code} {is : List Inst} (hp : p = past x.writeP k) (hle : k + bytes Inst.size is ≤ exitBytes)
    (hcode : CodeAt t32 (fetch code) p is) : CodeAt t32 (inside x code) p is := by
  refine codeAt_of_agree t32_size (fun i => by rcases size_eq i with h | h <;> rw [h] <;> decide) (fun j hj => ?_) hcode
  have hsub : (past x.writeP (k + j) - x.writeP).toNat = k + j := by
    have hlt : exitBytes < 2 ^ 32 := by decide
    rw [past_sub, BitVec.toNat_ofNat, Nat.mod_eq_of_lt (by omega)]
  rw [inside, hp, past_past, hsub, if_pos (by omega)]

theorem Exits.unique {code : Code} (ht : Exits x code s t) (hu : Exits x code s u) : t = u :=
  ht.1.stop_unique (if_neg (Nat.not_lt.mpr ht.2)) hu.1 (if_neg (Nat.not_lt.mpr hu.2))

theorem in_range {cache : Word} (ha : cache.toNat ≤ a.toNat)
    (ha' : a.toNat + 4 ≤ cache.toNat + 2 ^ 24) (hb : cache.toNat ≤ block.toNat) (hb' : block.toNat < cache.toNat + 2 ^ 24) :
    ∃ b, b32Helper a block = some b := by
  have hint : (block - a - 4).toInt = block.toNat - a.toNat - 4 := by
    rw [BitVec.toInt_eq_toNat_cond, BitVec.toNat_sub, BitVec.toNat_sub, show (4 : Word).toNat = 4 by rfl]
    split_ifs <;> omega
  rw [b32Helper]
  exact ⟨_, if_neg (by rw [hint]; omega)⟩

theorem slot_toNat {cache : Word} (hp : Placed x cache) (hk : k ≤ tbCacheSize) :
    (x.slot k).toNat = x.writeP.toNat + (166 + 4 * k) := by
  have hk' : k ≤ 32 := hk
  have hhigh := hp.high
  have hle := hp.cache_le
  rw [exitBytes] at hhigh
  rw [Site.slot, past, BitVec.toNat_add, BitVec.toNat_ofNat, Nat.mod_eq_of_lt (a := 166 + 4 * k) (by omega),
    Nat.mod_eq_of_lt (by omega)]

theorem not_within_slots (hk : k < 166 ∨ 294 ≤ k) (hlt : k < 2 ^ 31) : ¬Within (x.slot 0) 128 (past x.writeP k) := by
  have hsub : past x.writeP k - x.slot 0 = BitVec.ofNat 32 k - BitVec.ofNat 32 166 := add_sub_add_left_eq_sub _ _ _
  rw [Within, hsub, BitVec.toNat_sub, BitVec.toNat_ofNat, BitVec.toNat_ofNat]
  omega

section Execution

variable {cache : Word} {lookup : Word → Word → Prop} {targets : Word → Word}

theorem Holds.codeAt {is : List Inst} (h : Holds x lookup targets σ₀ L σ)
    (hk : k + bytes Inst.size is ≤ 166 ∨ 294 ≤ k) (hle : k + bytes Inst.size is ≤ exitBytes)
    (hcode : CodeAt t32 (fetch σ₀.code) (past x.writeP k) is) : CodeAt t32 (inside x σ.code) (past x.writeP k) is := by
  have hexit : exitBytes < 2 ^ 31 := by decide
  refine inside_codeAt rfl hle (codeAt_congr t32_size size_eq (fun j hj => ?_) hcode)
  rw [past_past]
  exact (h.kept _ (not_within_slots (by omega) (by omega))).symm

theorem slow_exit (hp : Placed x cache) (he : Emitted x σ₀) (hH : Holds x lookup targets σ₀ L σ) (hs : Enters x targets σ s)
    (hr : u.r = s.r) (hmem : u.mem = s.mem) (hat : At u x.slow) (hrun : Reaches t32 (inside x σ.code) s u) :
    ∃ t, Exits x σ.code s t ∧ At t (entry (x.dispatcherAddr - 4)) ∧ t.mem = slowMem x s ∧ t.r r1 = x.basicBlock ∧
      t.r r0 = x.target s.mem (s.r x.rm) := by
  obtain ⟨b, hb, hcode⟩ := he.slow
  have hbytes : bytes Inst.size (x.slowCode ++ [b]) = 52 := by
    rw [bytes_append, bytes_slowCode, bytes, bytes, b32Helper_size hb]
  obtain ⟨t, ht, hend, htmem, htr1, htr0⟩ := slow_run he.accepted hat hp.even hb
    (hH.codeAt (k := 294) (Or.inr le_rfl) (by rw [hbytes]; decide) hcode)
  have hslow : slowMem x u = slowMem x s := by
    rw [slowMem, slowMem, pushedAt, pushedAt, hr, hmem]
  rw [hslow] at htmem htr0
  rw [Site.target, slowMem_apart (hr ▸ hs.offset), hr] at htr0
  exact ⟨t, ⟨hrun.trans ht, by rw [hend.pc]; exact hp.dispatcher⟩, hend, htmem, htr1, htr0⟩

theorem slot_of_mem (hi : i ∈ L.map Prod.fst) :
    ∃ block, L[slotOf L i]? = some (i, block) ∧ (i, block) ∈ L ∧ slotOf L i < L.length := by
  have hslot : slotOf L i = (L.map Prod.fst).idxOf i := if_pos hi
  have hlt : slotOf L i < L.length := by
    rw [hslot, ← List.length_map (f := Prod.fst)]
    exact List.idxOf_lt_length_of_mem hi
  have hfst : (L[slotOf L i]).1 = i := by
    have hidx : (L.map Prod.fst).idxOf i < (L.map Prod.fst).length := by
      rw [List.length_map, ← hslot]
      exact hlt
    have hget := List.getElem_idxOf hidx
    rw [List.getElem_map] at hget
    simpa only [hslot] using hget
  have hpair : L[slotOf L i] = (i, (L[slotOf L i]).2) := Prod.ext hfst rfl
  refine ⟨_, (List.getElem?_eq_getElem hlt).trans (congrArg some hpair), ?_, hlt⟩
  have hmem := List.getElem_mem hlt
  rwa [hpair] at hmem

theorem past_table_slot (x : Site) (k : Nat) : past x.table (2 * (maxTbIndex / 2 + 2 * k)) = x.slot k := by
  rw [Site.table, past_past, Site.slot]
  exact congrArg (past x.writeP) (by rw [maxTbIndex]; omega)

theorem exit_run (hp : Placed x cache) (hblocks : Blocks x cache lookup) (he : Emitted x σ₀)
    (hH : Holds x lookup targets σ₀ L σ) (hs : Enters x targets σ s) :
    ∃ t, Exits x σ.code s t ∧
      ((∃ block, (s.r x.rm, block) ∈ L ∧ At t (entry block) ∧ t.r = s.r ∧ t.mem = s.mem) ∨
        (s.r x.rm ∉ L.map Prod.fst ∧ At t (entry (x.dispatcherAddr - 4)) ∧ t.mem = slowMem x s ∧ t.r r1 = x.basicBlock ∧
          t.r r0 = x.target s.mem (s.r x.rm))) := by
  obtain ⟨slow, hslow, hcode⟩ := he.head
  have hbytes : bytes Inst.size [.cmpi32 x.rm 151, .it16 hi 8, slow, .tbb32 pc x.rm] = 14 := by
    rw [bytes, bytes, bytes, b32Helper_size hslow]
    rfl
  have hhead := hH.codeAt (k := 0) (by rw [hbytes]; omega) (by rw [hbytes]; decide) (by rw [past_zero]; exact hcode)
  rw [past_zero] at hhead
  obtain ⟨u, hrun, hr, hmem, hat⟩ := head_run he.accepted hs.at_start hp.even hslow hhead
  split at hat
  · rename_i hge
    obtain ⟨t, ht, hrest⟩ := slow_exit hp he hH hs hr hmem hat hrun
    exact ⟨t, ht, Or.inr ⟨fun hi => absurd (hH.lt _ hi) (Nat.not_lt.mpr hge), hrest⟩⟩
  · rename_i hlt
    have hle := slotOf_le hH.le (s.r x.rm)
    have hbyte := hH.entries _ (Nat.lt_of_not_le hlt)
    rw [BitVec.ofNat_toNat, BitVec.setWidth_eq] at hbyte
    have hto : past x.table (2 * (s.mem (past x.table (s.r x.rm).toNat)).toNat) = x.slot (slotOf L (s.r x.rm)) := by
      rw [hs.mem, hbyte, BitVec.toNat_ofNat, Nat.mod_eq_of_lt (by rw [tbCacheSize] at hle; omega)]
      exact past_table_slot x _
    rw [hto] at hat
    by_cases hi : s.r x.rm ∈ L.map Prod.fst
    · obtain ⟨block, hget, hmemL, hslotLt⟩ := slot_of_mem hi
      obtain ⟨b, hb, hfetch⟩ := hH.branches _ _ hget
      have hin : inside x σ.code (x.slot (slotOf L (s.r x.rm))) = some b := by
        rw [inside, Site.slot, past_sub, BitVec.toNat_ofNat, if_pos, ← Site.slot, hfetch]
        rw [tbCacheSize] at hle
        rw [exitBytes, Nat.mod_eq_of_lt (by omega)]
        omega
      obtain ⟨hstep, hend⟩ := b32_step hat hb (past_even hp.even (by omega)) hin
      refine ⟨_, ⟨hrun.tail hstep, hblocks.outside _ _ (hH.blocks _ hmemL)⟩, Or.inl ⟨block, hmemL, hend, hr, hmem⟩⟩
    · have hslot : x.slot (slotOf L (s.r x.rm)) = x.slow := by
        rw [slotOf, if_neg hi]
        rfl
      rw [hslot] at hat
      obtain ⟨t, ht, hrest⟩ := slow_exit hp he hH hs hr hmem hat hrun
      exact ⟨t, ht, Or.inr ⟨hi, hrest⟩⟩

end Execution

section Linking

variable {cache : Word} {lookup : Word → Word → Prop} {targets : Word → Word}

/-- Writing only the slots, the table and the recorded index. -/
structure Writes (x : Site) (σ σ' : Fragment) : Prop where
  code : ∀ a, ¬Within (x.slot 0) 128 a → σ'.code a = σ.code a
  mem : ∀ a, ¬Own x a → σ'.mem a = σ.mem a

theorem Holds.program (h : Holds x lookup targets σ₀ L σ)
    (hmem : ∀ i, i < maxTbIndex → mem (past x.table i) = σ.mem (past x.table i)) :
    Holds x lookup targets σ₀ L { σ with mem := mem } :=
  ⟨h.free, h.le, h.nodup, h.lt, h.blocks, fun i hi => (hmem i hi).trans (h.entries i hi), h.branches, h.kept⟩

def setEntry (x : Site) (mem : Word → Byte) (i : Word) (v : Nat) : Word → Byte :=
  storeWord (storeBytes mem (x.table + i) 1 v) x.metaRn intMax

theorem setEntry_own (x : Site) (mem : Word → Byte) (i : Word) (hi : i.toNat < maxTbIndex) (v : Nat) (ha : ¬Own x a) :
    setEntry x mem i v a = mem a := by
  rw [Own, not_or] at ha
  rw [setEntry, storeWord, storeBytes_outside ha.2, storeBytes_outside]
  have hge : maxTbIndex ≤ (a - x.table).toNat := Nat.le_of_not_lt ha.1
  rw [maxTbIndex] at hge hi
  have hlt := (a - x.table).isLt
  rw [Within, ← sub_sub, BitVec.toNat_sub_of_le (by rw [BitVec.le_def]; omega)]
  omega

theorem setEntry_entry {cache : Word} (hp : Placed x cache) {j : Nat} (hj : j < maxTbIndex) (hi : i.toNat < maxTbIndex) (v : Nat) :
    setEntry x mem i v (past x.table j) = if j = i.toNat then BitVec.ofNat 8 v else mem (past x.table j) := by
  have hlim : maxTbIndex < 2 ^ 32 := by decide
  have hindex : x.table + i = past x.table i.toNat := by
    rw [past, BitVec.ofNat_toNat, BitVec.setWidth_eq]
  have hsub : past x.table j - past x.table i.toNat = BitVec.ofNat 32 j - BitVec.ofNat 32 i.toNat := add_sub_add_left_eq_sub _ _ _
  have hmeta : ¬Within x.metaRn 4 (past x.table j) := hp.metaRn j hj
  rw [setEntry, storeWord, storeBytes_outside hmeta, hindex]
  split
  · rename_i heq
    rw [heq, storeBytes, sub_self]
    rfl
  · rw [storeBytes_outside]
    rw [Within, hsub, BitVec.toNat_sub, BitVec.toNat_ofNat, BitVec.toNat_ofNat]
    omega

theorem slotOf_append {i j block : Word} (hj : j ∉ L.map Prod.fst) :
    slotOf (L ++ [(j, block)]) i = if i = j then L.length else slotOf L i := by
  rw [slotOf, slotOf, List.map_append, List.map_singleton]
  by_cases hi : i ∈ L.map Prod.fst
  · have hne : i ≠ j := fun h => hj (h ▸ hi)
    rw [if_pos (List.mem_append_left _ hi), if_neg hne, if_pos hi, List.idxOf_append_of_mem hi]
  · by_cases heq : i = j
    · subst heq
      rw [if_pos (List.mem_append_right _ (List.mem_singleton_self i)), if_pos rfl, List.idxOf_append_of_notMem hi,
        List.idxOf_cons_self, List.length_map, Nat.add_zero]
    · have hnot : i ∉ L.map Prod.fst ++ [j] := by
        rw [List.mem_append, List.mem_singleton]
        exact not_or.mpr ⟨hi, heq⟩
      rw [if_neg hnot, if_neg heq, if_neg hi]

theorem ofNat_eq_iff {j : Nat} (hj : j < maxTbIndex) : BitVec.ofNat 32 j = i ↔ j = i.toNat := by
  have hlim : maxTbIndex < 2 ^ 32 := by decide
  constructor
  · rintro rfl
    rw [BitVec.toNat_ofNat, Nat.mod_eq_of_lt (by omega)]
  · rintro rfl
    rw [BitVec.ofNat_toNat, BitVec.setWidth_eq]

theorem put_slot_outside {b : Inst} {code : Code} (hsize : b.size = 4) (hk : k < tbCacheSize) (ha : ¬Within (x.slot 0) 128 a) :
    put Inst.size (x.slot k) b code a = code a := by
  refine put_outside (size_eq b) fun j hj heq => ha ?_
  have hsub : a - x.slot 0 = BitVec.ofNat 32 (166 + 4 * k + j) - BitVec.ofNat 32 166 := by
    rw [heq, Site.slot, past_past]
    exact add_sub_add_left_eq_sub _ _ _
  rw [tbCacheSize] at hk
  rw [Within, hsub, BitVec.toNat_sub, BitVec.toNat_ofNat, BitVec.toNat_ofNat]
  omega

theorem branches_append {b : Inst} {code : Code} (hlt : L.length < tbCacheSize)
    (hb : b32Helper (x.slot L.length) block = some b)
    (h : ∀ k p, L[k]? = some p → ∃ b, b32Helper (x.slot k) p.2 = some b ∧ fetch code (x.slot k) = some b) {p : Word × Word}
    (hk : (L ++ [(i, block)])[k]? = some p) :
    ∃ b', b32Helper (x.slot k) p.2 = some b' ∧ fetch (put Inst.size (x.slot L.length) b code) (x.slot k) = some b' := by
  rw [tbCacheSize] at hlt
  by_cases hlast : k < L.length
  · rw [List.getElem?_append_left hlast] at hk
    obtain ⟨b', hb', hfetch⟩ := h k p hk
    refine ⟨b', hb', fetch_congr (size_eq b') hfetch fun j hj => (put_outside (size_eq b) fun m hm heq => ?_).symm⟩
    rw [b32Helper_size hb'] at hj
    rw [b32Helper_size hb] at hm
    rw [Site.slot, Site.slot, past_past, past_past] at heq
    have hsum := past_inj (by omega) (by omega) heq
    omega
  · rw [List.getElem?_append_right (Nat.le_of_not_lt hlast)] at hk
    obtain ⟨hzero, hp⟩ := List.getElem?_eq_some_iff.mp hk
    rw [List.length_singleton] at hzero
    obtain rfl : k = L.length := by omega
    rw [List.getElem_singleton] at hp
    rw [← hp]
    exact ⟨b, hb, fetch_put (by decide)⟩

theorem Holds.append {b : Inst} (hp : Placed x cache) (h : Holds x lookup targets σ₀ L σ) (hi : i ∉ L.map Prod.fst)
    (hlt : i.toNat < maxTbIndex) (hroom : L.length < tbCacheSize) (hlookup : lookup (targets i) block)
    (hb : b32Helper (x.slot L.length) block = some b) (links : List (Word × Word)) :
    Holds x lookup targets σ₀ (L ++ [(i, block)])
      ⟨put Inst.size (x.slot L.length) b σ.code, setEntry x σ.mem i (maxTbIndex / 2 + L.length * 2), L.length + 1, links⟩ := by
  have hmap : (L ++ [(i, block)]).map Prod.fst = L.map Prod.fst ++ [i] := by rw [List.map_append, List.map_singleton]
  refine ⟨?_, ?_, ?_, ?_, ?_, fun j hj => ?_, fun k p hk => branches_append hroom hb h.branches hk, fun a ha => ?_⟩
  · rw [List.length_append, List.length_singleton]
  · rw [List.length_append, List.length_singleton]
    exact hroom
  · rw [hmap]
    exact List.nodup_append.mpr ⟨h.nodup, List.nodup_singleton i, fun _ hj _ hk => by
      rw [List.mem_singleton.mp hk]
      exact fun heq => hi (heq ▸ hj)⟩
  · intro j hj
    rw [hmap, List.mem_append, List.mem_singleton] at hj
    rcases hj with hj | rfl
    · exact h.lt j hj
    · exact hlt
  · intro p hp'
    rcases List.mem_append.mp hp' with hp' | hp'
    · exact h.blocks p hp'
    · rw [List.mem_singleton.mp hp']
      exact hlookup
  · refine (setEntry_entry hp hj hlt _).trans ?_
    rw [slotOf_append hi]
    split
    · rename_i heq
      rw [if_pos ((ofNat_eq_iff hj).mpr heq), maxTbIndex]
      congr 1
      omega
    · rename_i heq
      rw [if_neg (mt (ofNat_eq_iff hj).mp heq), h.entries j hj]
  · exact (put_slot_outside (b32Helper_size hb) hroom ha).trans (h.kept a ha)

theorem Holds.link (hp : Placed x cache) (hblocks : Blocks x cache lookup) (h : Holds x lookup targets σ₀ L σ)
    (hrn : loadWord σ.mem x.metaRn = i) (hi : i ∉ L.map Prod.fst) {target : Word} (hlookup : lookup target block)
    (htarget : i.toNat < maxTbIndex → target = targets i) :
    ∃ σ', dispatcherTb x σ block = some σ' ∧ Holds x lookup targets σ₀ (link L (i, block)) σ' ∧ Writes x σ σ' := by
  rw [dispatcherTb, hrn, T32TableBranchRuns.link]
  dsimp only
  by_cases hge : maxTbIndex ≤ i.toNat
  · rw [if_pos hge, if_pos (Or.inl hge)]
    exact ⟨σ, rfl, h, fun _ _ => rfl, fun _ _ => rfl⟩
  · have hlt : i.toNat < maxTbIndex := Nat.lt_of_not_le hge
    rw [if_neg hge]
    by_cases hfull : L.length = tbCacheSize
    · rw [if_pos (h.free.trans hfull), if_pos (Or.inr hfull)]
      refine ⟨_, rfl, h.program fun j hj => ?_, fun _ _ => rfl, fun a ha => setEntry_own x _ _ hlt _ ha⟩
      refine (setEntry_entry hp hj hlt _).trans ?_
      split
      · rename_i heq
        rw [h.entries j hj, (ofNat_eq_iff hj).mpr heq, slotOf, if_neg hi]
        rfl
      · rfl
    · have hroom : L.length < tbCacheSize := Nat.lt_of_le_of_ne h.le hfull
      rw [h.free, if_neg hfull, if_neg (not_or.mpr ⟨hge, hfull⟩)]
      have hslot : past (past x.writeP (2 * 7)) (2 * (maxTbIndex / 2 + L.length * 2)) = x.slot L.length := by
        rw [past_past, Site.slot, maxTbIndex]
        congr 1
        omega
      have hnat := slot_toNat hp h.le
      have hlow := hp.low
      have hhigh := hp.high
      have hsize : tbCacheSize = 32 := rfl
      have hexit : exitBytes = 346 := rfl
      obtain ⟨b, hb⟩ := in_range (a := x.slot L.length) (by omega) (by omega) (hblocks.low _ _ hlookup) (hblocks.high _ _ hlookup)
      rw [hslot, hb]
      exact ⟨_, rfl, h.append hp hi hlt hroom (htarget hlt ▸ hlookup) hb _,
        fun a ha => put_slot_outside (b32Helper_size hb) hroom ha, fun a ha => setEntry_own x _ _ hlt _ ha⟩

theorem slowMem_table (hp : Placed x cache) (hs : Enters x targets σ s) {j : Nat} (hj : j < maxTbIndex) :
    slowMem x s (past x.table j) = s.mem (past x.table j) := by
  have hmeta : ¬Within x.metaRn 4 (past x.table j) := hp.metaRn j hj
  have hstack : ¬Within (pushedAt s) 16 (past x.table j) := hs.table j hj
  rw [slowMem, storeWord, storeBytes_outside hmeta, storeWords_outside (show 4 * 4 ≤ 2 ^ 32 by decide) hstack]

theorem run_holds (hp : Placed x cache) (hblocks : Blocks x cache lookup) (he : Emitted x σ₀)
    (hrun : Run x lookup targets σ₀ calls σ) : Holds x lookup targets σ₀ (linked calls) σ := by
  induction hrun with
  | start =>
      exact ⟨he.free, Nat.zero_le _, List.nodup_nil, fun _ hi => absurd hi List.not_mem_nil,
        fun _ hi => absurd hi List.not_mem_nil, fun i hi => he.table i hi, fun _ _ hk => absurd hk (by simp [linked]),
        fun _ _ => rfl⟩
  | program _ hmem ih =>
      refine ih.program fun i hi => hmem _ (Or.inl ?_)
      exact within_add hi (by decide)
  | exit _ hs ht hpc ih =>
      obtain ⟨t, ht', hend⟩ := exit_run hp hblocks he ih hs
      obtain rfl := ht.unique ht'
      rcases hend with ⟨block, -, -, -, hmem⟩ | ⟨-, hat, -⟩
      · refine ih.program fun i _ => ?_
        rw [hmem, hs.mem]
      · exact absurd hat.pc hpc
  | @call calls σ σ' s t block _ hs ht hpc hlookup hσ ih =>
      obtain ⟨t', ht', hend⟩ := exit_run hp hblocks he ih hs
      obtain rfl := ht.unique ht'
      rcases hend with ⟨block', hmem, hat, -⟩ | ⟨hi, -, hmem, -, hr0⟩
      · exact absurd (hat.pc.symm.trans hpc) (hblocks.code _ _ (ih.blocks _ hmem))
      · have hH : Holds x lookup targets σ₀ (linked calls) { σ with mem := t.mem } := by
          refine ih.program fun j hj => ?_
          rw [hmem, slowMem_table hp hs hj, hs.mem]
        have hrn : loadWord t.mem x.metaRn = s.r x.rm := by
          rw [hmem, slowMem, loadWord_storeWord (by decide)]
        obtain ⟨σ'', hσ'', hlink, -⟩ := hH.link hp hblocks hrn hi hlookup fun hlt => hr0.trans (hs.fixed hlt)
        obtain rfl := Option.some.inj (hσ.symm.trans hσ'')
        rw [linked_append]
        exact hlink

structure Sound (x : Site) (σ₀ : Fragment) (slots : List (Word × Word)) (σ : Fragment) : Prop where
  free : σ.freeB = slots.length
  le : σ.freeB ≤ tbCacheSize
  nodup : (slots.map Prod.fst).Nodup
  entries : ∀ i, i < maxTbIndex → ∃ k, k ≤ tbCacheSize ∧ (σ.mem (past x.table i)).toNat = maxTbIndex / 2 + 2 * k ∧
    past x.table (2 * (σ.mem (past x.table i)).toNat) = x.slot k
  apart : ∀ i j, i < maxTbIndex → j < maxTbIndex → σ.mem (past x.table i) = σ.mem (past x.table j) →
    i = j ∨ past x.table (2 * (σ.mem (past x.table i)).toNat) = x.slow
  kept : ∀ a, ¬Within (x.slot 0) (4 * tbCacheSize) a → σ.code a = σ₀.code a

theorem slotOf_inj {i j : Word} (hle : L.length ≤ tbCacheSize) (h : slotOf L i = slotOf L j) :
    i = j ∨ slotOf L i = tbCacheSize := by
  by_cases hi : i ∈ L.map Prod.fst
  · obtain ⟨_, hget, -, hlt⟩ := slot_of_mem hi
    by_cases hj : j ∈ L.map Prod.fst
    · obtain ⟨_, hget', -, -⟩ := slot_of_mem hj
      rw [h] at hget
      exact Or.inl (congrArg Prod.fst (Option.some.inj (hget.symm.trans hget')))
    · have hslow : slotOf L j = tbCacheSize := if_neg hj
      omega
  · exact Or.inr (if_neg hi)

theorem Holds.sound (h : Holds x lookup targets σ₀ L σ) : Sound x σ₀ L σ := by
  have hnat : ∀ i, i < maxTbIndex →
      (σ.mem (past x.table i)).toNat = maxTbIndex / 2 + 2 * slotOf L (BitVec.ofNat 32 i) := by
    intro i hi
    have hle := slotOf_le h.le (BitVec.ofNat 32 i)
    rw [tbCacheSize] at hle
    rw [h.entries i hi, BitVec.toNat_ofNat, Nat.mod_eq_of_lt (by omega), maxTbIndex]
  refine ⟨h.free, h.free ▸ h.le, h.nodup, fun i hi => ?_, fun i j hi hj heq => ?_, h.kept⟩
  · refine ⟨_, slotOf_le h.le (BitVec.ofNat 32 i), hnat i hi, ?_⟩
    rw [hnat i hi, past_table_slot]
  · have hsame := congrArg BitVec.toNat heq
    rw [hnat i hi, hnat j hj] at hsame
    rw [hnat i hi, past_table_slot]
    rcases slotOf_inj h.le (show slotOf L (BitVec.ofNat 32 i) = slotOf L (BitVec.ofNat 32 j) by omega) with hij | hslow
    · rw [ofNat_eq_iff hi, BitVec.toNat_ofNat, Nat.mod_eq_of_lt (lt_trans hj (by decide))] at hij
      exact Or.inl hij
    · rw [hslow]
      exact Or.inr rfl

theorem target_odd (h : x.readAddress.toNat % 2 = 0) (mem : Word → Byte) (i : Word) :
    (x.target mem i).toNat % 2 = 1 := by
  rw [Site.target, BitVec.toNat_add, BitVec.toNat_add, BitVec.toNat_add, BitVec.toNat_ofNat,
    show (4 : Word).toNat = 4 by rfl, show (1 : Word).toNat = 1 by rfl]
  omega

/-- The exits of a trace that ends in a table branch. -/
theorem table_branch (hscan : scanTb x σ = some σ₀) (hp : Placed x cache) (hblocks : Blocks x cache lookup)
    (hrun : Run x lookup targets σ₀ calls σ') :
    Sound x σ₀ (linked calls) σ' ∧ ∀ s, Enters x targets σ' s → ∃ t, Exits x σ'.code s t ∧
      ((∃ block, (s.r x.rm, block) ∈ linked calls ∧ lookup (x.target s.mem (s.r x.rm)) block ∧
          At t (entry block) ∧ t.r = s.r ∧ t.mem = s.mem) ∨
        (s.r x.rm ∉ (linked calls).map Prod.fst ∧ At t (entry (x.dispatcherAddr - 4)) ∧
          t.r r0 = x.target s.mem (s.r x.rm) ∧ (t.r r0).toNat % 2 = 1 ∧ t.r r1 = x.basicBlock ∧
          loadWord t.mem x.metaRn = s.r x.rm ∧
          ∀ block, lookup (t.r r0) block →
            ∃ σ'', dispatcherTb x { σ' with mem := t.mem } block = some σ'' ∧ Writes x { σ' with mem := t.mem } σ'')) := by
  have he := scanTb_emitted hscan
  have hH := run_holds hp hblocks he hrun
  refine ⟨hH.sound, fun s hs => ?_⟩
  obtain ⟨t, ht, ⟨block, hmem, hat, hr, hm⟩ | ⟨hi, hat, hm, hr1, hr0⟩⟩ := exit_run hp hblocks he hH hs
  · have hlt : (s.r x.rm).toNat < maxTbIndex := hH.lt _ (List.mem_map_of_mem (f := Prod.fst) hmem)
    refine ⟨t, ht, Or.inl ⟨block, hmem, ?_, hat, hr, hm⟩⟩
    rw [hs.fixed hlt]
    exact hH.blocks _ hmem
  · have hrn : loadWord t.mem x.metaRn = s.r x.rm := by
      rw [hm, slowMem, loadWord_storeWord (by decide)]
    have hHt : Holds x lookup targets σ₀ (linked calls) { σ' with mem := t.mem } := by
      refine hH.program fun j hj => ?_
      rw [hm, slowMem_table hp hs hj, hs.mem]
    refine ⟨t, ht, Or.inr ⟨hi, hat, hr0, by rw [hr0]; exact target_odd hp.readEven _ _, hr1, hrn, fun block hlookup => ?_⟩⟩
    obtain ⟨σ'', hσ'', -, hwrites⟩ := hHt.link hp hblocks hrn hi hlookup fun hlt => hr0.trans (hs.fixed hlt)
    exact ⟨σ'', hσ'', hwrites⟩

end Linking

section Example

def firstSite : Site := ⟨.tbb, 0x8000, pc, 3, 0x10100000, 65000, 0x20000000, 0x10000100⟩

def firstFragment : Fragment := ((scanTb firstSite ⟨fun _ => none, fun _ => 0, 0, []⟩).getD ⟨fun _ => none, fun _ => 0, 0, []⟩)

def firstState : State :=
  ⟨0x10100000, true, fun r => if r = sp then 0x7fff0000 else 0, ⟨false, false, false, false⟩, 0, firstFragment.mem⟩

/-- The first execution comes to the dispatcher, which gives the index a slot; the next one takes it. -/
theorem table_branch_first : ∃ σ mem t,
    Run firstSite (fun _ block => block = 0x10200001) (firstSite.target firstFragment.mem) firstFragment
      [(0, 0x10200001)] σ ∧
      Exits firstSite σ.code { firstState with mem := mem } t ∧ At t 0x10200000 ∧ t.mem = mem := by
  have hsome : (scanTb firstSite ⟨fun _ => none, fun _ => 0, 0, []⟩).isSome = true := by decide
  have hscan : scanTb firstSite ⟨fun _ => none, fun _ => 0, 0, []⟩ = some firstFragment := by
    obtain ⟨σ, hσ⟩ := Option.isSome_iff_exists.mp hsome
    rw [firstFragment, hσ]
    rfl
  have hp : Placed firstSite 0x10000000 :=
    ⟨by decide, by decide, by decide, by decide, by decide, by decide, by
      unfold Clear Within
      set_option maxRecDepth 4000 in decide⟩
  have hblocks : Blocks firstSite 0x10000000 fun _ block => block = 0x10200001 := by
    constructor <;> rintro _ _ rfl <;> decide
  have htable : Clear (pushedAt firstState) 16 firstSite.table maxTbIndex := by
    unfold Clear Within
    set_option maxRecDepth 4000 in decide
  have hoffset : Apart firstSite firstState (firstSite.offsetAddr (firstState.r firstSite.rm)) firstSite.width :=
    ⟨by unfold Clear Within; decide, by unfold Clear Within; decide⟩
  have hs : Enters firstSite (firstSite.target firstFragment.mem) firstFragment firstState :=
    ⟨⟨rfl, rfl, rfl⟩, rfl, fun _ => rfl, htable, hoffset⟩
  obtain ⟨t, ht, ⟨_, hmem, _⟩ | ⟨-, hat, -, -, -, hrn, hcall⟩⟩ := (table_branch hscan hp hblocks .start).2 firstState hs
  · exact absurd hmem List.not_mem_nil
  obtain ⟨σ, hσ, -⟩ := hcall 0x10200001 rfl
  have hrun : Run firstSite (fun _ block => block = 0x10200001) (firstSite.target firstFragment.mem) firstFragment
      [(0, 0x10200001)] σ := .call .start hs ht hat.pc rfl hσ
  classical
  obtain ⟨mem, hmem⟩ : ∃ mem, mem = fun a => if Own firstSite a then σ.mem a else firstFragment.mem a := ⟨_, rfl⟩
  have hlater : Run firstSite (fun _ block => block = 0x10200001) (firstSite.target firstFragment.mem) firstFragment
      [(0, 0x10200001)] { σ with mem := mem } := .program hrun fun a ha => by rw [hmem]; exact if_pos ha
  have hout : ∀ i, i < firstSite.width → ¬Own firstSite (firstSite.offsetAddr 0 + BitVec.ofNat 32 i) := by
    unfold Own Within
    decide
  have hfixed : firstSite.target mem 0 = firstSite.target firstFragment.mem 0 := by
    rw [Site.target, Site.target, loadBytes_congr fun i hi => by rw [hmem]; exact if_neg (hout i hi)]
  have hs' : Enters firstSite (firstSite.target firstFragment.mem) { σ with mem := mem } { firstState with mem := mem } :=
    ⟨⟨rfl, rfl, rfl⟩, rfl, fun _ => hfixed, htable, ⟨hoffset.stack, hoffset.metaRn⟩⟩
  have hlinked : linked [(0, 0x10200001)] = [(0, 0x10200001)] := by decide
  obtain ⟨u, hu, ⟨block, hmem', -, hat', -, hm'⟩ | ⟨hi, -⟩⟩ := (table_branch hscan hp hblocks hlater).2 _ hs'
  · rw [hlinked] at hmem'
    obtain rfl : block = 0x10200001 := (Prod.mk.inj (List.mem_singleton.mp hmem')).2
    exact ⟨_, mem, u, hlater, hu, hat', hm'⟩
  · rw [hlinked] at hi
    exact absurd (List.mem_singleton_self _) hi

end Example

end System

end Mambo.T32TableBranchRuns
