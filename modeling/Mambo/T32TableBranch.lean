import Mambo.T32Emit

namespace Mambo.T32TableBranch

open Bytes ByteMemory CodeRuns CodeCells WordMemory T32 T32Emit

section Source

def maxTbIndex : Nat := 152

def tbCacheSize : Nat := 32

def intMax : Word := 0x7fffffff

def hi : BitVec 4 := 8

def THUMB : Word := 1

inductive Kind
  | tbb
  | tbh

/-- The table branch that scan_t32 has come to in a trace, and where it writes. -/
structure Site where
  kind : Kind
  readAddress : Word
  rn : Reg
  rm : Reg
  writeP : Word
  basicBlock : Word
  metaRn : Word
  dispatcherAddr : Word

/-- The code and the memory with the table, the meta-information free_b of the fragment,
whose rn is in the memory, and the recorded links. -/
structure Fragment where
  code : Code
  mem : Word → Byte
  freeB : Nat
  ccLinks : List (Word × Word)

def nextScratch (rn rm reg : Reg) : Reg :=
  if rn = reg ∨ rm = reg then if rn = reg + 1 ∨ rm = reg + 1 then reg + 2 else reg + 1 else reg

def Site.scratchReg (x : Site) : Reg := nextScratch x.rn x.rm r0

def Site.scratchReg2 (x : Site) : Reg := nextScratch x.rn x.rm (x.scratchReg + 1)

def tbHead (x : Site) : Option (List Inst) :=
  let compare := [.cmpi32 x.rm (BitVec.ofNat 8 (maxTbIndex - 1)), .it16 hi 8]
  let writeP := past x.writeP (bytes Inst.size compare)
  (b32Helper writeP (past writeP (maxTbIndex + tbCacheSize * 4 + 8))).map fun slow =>
    compare ++ [slow, .tbb32 pc x.rm]

def tbEntry : BitVec 16 :=
  let entry := BitVec.ofNat 16 (maxTbIndex / 2 + tbCacheSize * 2)
  entry ||| entry <<< 8

def tbTable (writeP : Word) (mem : Word → Byte) : Word → Byte :=
  (List.range (maxTbIndex / 2)).foldl (fun mem i => storeBytes mem (past writeP (2 * i)) 2 tbEntry.toNat) mem

def tbSlots (writeP : Word) : Option (List Inst) :=
  (List.range tbCacheSize).mapM fun i =>
    b32Helper (past writeP (4 * i)) (past (past writeP (4 * i)) ((tbCacheSize - i) * 4))

/-- The code that reads the table of the program and calls the dispatcher. -/
def tbSlow (x : Site) (writeP : Word) : Option (List Inst) :=
  let rn := if x.rn = pc then x.scratchReg else x.rn
  let load := match x.kind with
    | .tbb => .ldrb32 rn x.scratchReg2 0 x.rm
    | .tbh => .ldrh32 rn x.scratchReg2 1 x.rm
  let out := branchSaveContext true ++ copyToReg32bit x.scratchReg x.metaRn ++ [.strwi32 x.rm x.scratchReg 0] ++
    copyToReg32bit x.scratchReg (x.readAddress + 4) ++
    [load, .add32 x.scratchReg x.scratchReg 1 x.scratchReg2, .addi32 x.scratchReg r0 1]
  (branchJump x.dispatcherAddr (past writeP (bytes Inst.size out)) x.basicBlock 0 ⟨true, false, true, true⟩).map
    fun jump => out ++ jump

/-- The exit of a trace that ends in a table branch. None where the scanner does not go on. -/
def scanTb (x : Site) (σ : Fragment) : Option Fragment := do
  if x.rm = pc ∨ x.rn = sp ∨ x.rm = sp ∨ 2 < x.scratchReg2.toNat ∨ x.rn ≠ pc then none
  let head ← tbHead x
  let table := past x.writeP (bytes Inst.size head)
  let slotsP := past table (2 * (maxTbIndex / 2))
  let slots ← tbSlots slotsP
  let slowP := past slotsP (bytes Inst.size slots)
  let slow ← tbSlow x slowP
  some { σ with
    code := emit Inst.size slowP slow (emit Inst.size slotsP slots (emit Inst.size x.writeP head σ.code))
    mem := tbTable table (storeWord σ.mem x.metaRn intMax)
    freeB := 0 }

/-- What dispatcher_aarch32 does for a table branch of a fragment. None where it does not return. -/
def dispatcherTb (x : Site) (σ : Fragment) (blockAddress : Word) : Option Fragment :=
  let rn := loadWord σ.mem x.metaRn
  if maxTbIndex ≤ rn.toNat then some σ
  else
    let table := past x.writeP (2 * 7)
    if σ.freeB = tbCacheSize then
      let mem := storeBytes σ.mem (table + rn) 1 (maxTbIndex / 2 + tbCacheSize * 2)
      some { σ with mem := storeWord mem x.metaRn intMax }
    else
      let cacheIndex := σ.freeB
      let mem := storeBytes σ.mem (table + rn) 1 (maxTbIndex / 2 + cacheIndex * 2)
      let branchAddr := past table (2 * (maxTbIndex / 2 + cacheIndex * 2))
      (b32Helper branchAddr blockAddress).map fun branch =>
        { code := put Inst.size branchAddr branch σ.code
          mem := storeWord mem x.metaRn intMax
          freeB := cacheIndex + 1
          ccLinks := σ.ccLinks ++ [(branchAddr ||| THUMB, blockAddress)] }

end Source

variable {x : Site} {σ σ₀ : Fragment} {w a p : Word} {is : List Inst} {i k n : Nat} {mem : Word → Byte}

section Layout

def Site.table (x : Site) : Word := past x.writeP 14

def Site.slot (x : Site) (k : Nat) : Word := past x.writeP (166 + 4 * k)

def Site.slow (x : Site) : Word := past x.writeP 294

theorem b32Helper_size {dest : Word} {b : Inst} (h : b32Helper a dest = some b) : b.size = 4 := by
  rw [b32Helper] at h
  split_ifs at h
  obtain rfl := Option.some.inj h
  rfl

theorem mapM_forall {α β : Type*} {f : α → Option β} {q : β → Prop} (hf : ∀ a b, f a = some b → q b) {as : List α}
    {bs : List β} (h : as.mapM f = some bs) : bs.length = as.length ∧ ∀ b ∈ bs, q b := by
  induction as generalizing bs with
  | nil =>
      obtain rfl := Option.some.inj h
      exact ⟨rfl, fun _ hb => absurd hb List.not_mem_nil⟩
  | cons a as ih =>
      simp only [List.mapM_cons, Option.bind_eq_bind, Option.bind_eq_some_iff, Option.pure_def] at h
      obtain ⟨b, hb, bs', hbs', heq⟩ := h
      obtain rfl := Option.some.inj heq
      obtain ⟨hlen, hall⟩ := ih hbs'
      refine ⟨by rw [List.length_cons, List.length_cons, hlen], fun c hc => ?_⟩
      rcases List.mem_cons.mp hc with rfl | hc
      · exact hf _ _ hb
      · exact hall c hc

theorem bytes_const (h : ∀ i ∈ is, i.size = n) : bytes Inst.size is = n * is.length := by
  induction is with
  | nil => rfl
  | cons i is ih =>
      rw [bytes, h i List.mem_cons_self, ih fun j hj => h j (List.mem_cons_of_mem _ hj), List.length_cons, Nat.mul_succ,
        Nat.add_comm]

theorem bytes_tbSlots (h : tbSlots w = some is) : bytes Inst.size is = 128 := by
  obtain ⟨hlen, hsize⟩ := mapM_forall (q := fun b => b.size = 4) (fun _ _ hb => b32Helper_size hb) h
  rw [bytes_const hsize, hlen, List.length_range]
  rfl

theorem tbHead_eq : tbHead x = (b32Helper (past x.writeP 6) x.slow).map fun slow =>
    [.cmpi32 x.rm 151, .it16 hi 8, slow, .tbb32 pc x.rm] := by
  have hdest : past (past x.writeP 6) 288 = x.slow := past_past _ _ _
  rw [← hdest]
  rfl

theorem tbHead_some (h : tbHead x = some is) :
    ∃ slow, b32Helper (past x.writeP 6) x.slow = some slow ∧ is = [.cmpi32 x.rm 151, .it16 hi 8, slow, .tbb32 pc x.rm] := by
  rw [tbHead_eq] at h
  obtain ⟨slow, hslow, his⟩ := Option.map_eq_some_iff.mp h
  exact ⟨slow, hslow, his.symm⟩

theorem tbTable_byte (hn : 2 * n < 2 ^ 32) : ∀ j, j < 2 * n →
    (List.range n).foldl (fun mem i => storeBytes mem (past w (2 * i)) 2 tbEntry.toNat) mem (past w j) = 140 := by
  induction n with
  | zero => exact fun j hj => absurd hj (Nat.not_lt_zero j)
  | succ n ih =>
      intro j hj
      have hsub : past w j - past w (2 * n) = BitVec.ofNat 32 j - BitVec.ofNat 32 (2 * n) := add_sub_add_left_eq_sub _ _ _
      rw [List.range_succ, List.foldl_append, List.foldl_cons, List.foldl_nil, storeBytes, hsub]
      by_cases hlow : j < 2 * n
      · have hout : 2 ≤ (BitVec.ofNat 32 j - BitVec.ofNat 32 (2 * n)).toNat := by
          rw [BitVec.toNat_sub, BitVec.toNat_ofNat, BitVec.toNat_ofNat, Nat.mod_eq_of_lt (a := j) (by omega),
            Nat.mod_eq_of_lt (a := 2 * n) (by omega)]
          omega
        rw [List.getD_eq_default _ _ (by rw [length_toBytes]; exact hout)]
        exact ih (by omega) j hlow
      · have hin : j = 2 * n ∨ j = 2 * n + 1 := by omega
        rcases hin with rfl | rfl
        · rw [sub_self]
          rfl
        · rw [BitVec.ofNat_add, add_sub_cancel_left]
          rfl

def Site.load (x : Site) : Inst :=
  match x.kind with
  | .tbb => .ldrb32 x.scratchReg x.scratchReg2 0 x.rm
  | .tbh => .ldrh32 x.scratchReg x.scratchReg2 1 x.rm

def Site.slowCode (x : Site) : List Inst :=
  branchSaveContext true ++ (copyToReg32bit x.scratchReg x.metaRn ++ ([.strwi32 x.rm x.scratchReg 0] ++
    (copyToReg32bit x.scratchReg (x.readAddress + 4) ++
      ([x.load, .add32 x.scratchReg x.scratchReg 1 x.scratchReg2, .addi32 x.scratchReg r0 1] ++
        (copyToReg32bit r1 x.basicBlock ++ [.addi32 sp r3 dispSpOffset])))))

theorem load_size (x : Site) : x.load.size = 4 := by
  rw [Site.load]
  cases x.kind <;> rfl

theorem load_straight (x : Site) : straight x.load = true := by
  rw [Site.load]
  cases x.kind <;> rfl

theorem bytes_slowCode (x : Site) : bytes Inst.size x.slowCode = 48 := by
  simp only [Site.slowCode, bytes_append, bytes, load_size]
  rfl

theorem slowCode_straight (x : Site) : x.slowCode.all straight = true := by
  simp only [Site.slowCode, List.all_append, List.all_cons, load_straight]
  rfl

theorem tbSlow_eq (hrn : x.rn = pc) (w : Word) :
    tbSlow x w = (b32Helper (past w 48) (x.dispatcherAddr - 4)).map fun b => x.slowCode ++ [b] := by
  have hsize : bytes Inst.size (branchSaveContext true ++ copyToReg32bit x.scratchReg x.metaRn ++
      [.strwi32 x.rm x.scratchReg 0] ++ copyToReg32bit x.scratchReg (x.readAddress + 4) ++
      [x.load, .add32 x.scratchReg x.scratchReg 1 x.scratchReg2, .addi32 x.scratchReg r0 1]) = 36 := by
    simp only [bytes_append, bytes, load_size]
    rfl
  have hjump : past (past w 36) (bytes Inst.size (copyToReg32bit r1 x.basicBlock ++ ([] ++ [.addi32 sp r3 dispSpOffset]))) =
      past w 48 := past_past _ _ _
  rw [tbSlow, if_pos hrn]
  change (branchJump _ (past w (bytes Inst.size (_ ++ [x.load, _, _]))) _ _ _).map _ = _
  rw [hsize, branchJump, if_pos rfl, if_pos rfl, if_pos rfl, if_neg Bool.false_ne_true]
  dsimp only
  rw [hjump, Option.map_map]
  congr 1

/-- The registers of a table branch that is accepted. -/
structure Site.Accepted (x : Site) : Prop where
  rn : x.rn = pc
  rm_pc : x.rm ≠ pc
  rm_sp : x.rm ≠ sp
  rm_scratch : x.rm ≠ x.scratchReg
  rm_scratch2 : x.rm ≠ x.scratchReg2
  distinct : x.scratchReg ≠ x.scratchReg2
  scratch_lt : x.scratchReg.toNat < 3
  scratch2_lt : x.scratchReg2.toNat < 3

structure Emitted (x : Site) (σ : Fragment) : Prop where
  accepted : x.Accepted
  head : ∃ slow, b32Helper (past x.writeP 6) x.slow = some slow ∧
    CodeAt t32 (fetch σ.code) x.writeP [.cmpi32 x.rm 151, .it16 hi 8, slow, .tbb32 pc x.rm]
  table : ∀ i, i < maxTbIndex → σ.mem (past x.table i) = 140
  slow : ∃ b, b32Helper (past x.slow 48) (x.dispatcherAddr - 4) = some b ∧
    CodeAt t32 (fetch σ.code) x.slow (x.slowCode ++ [b])
  free : σ.freeB = 0

theorem accepted_of (h : ¬(x.rm = pc ∨ x.rn = sp ∨ x.rm = sp ∨ 2 < x.scratchReg2.toNat ∨ x.rn ≠ pc)) : x.Accepted := by
  simp only [not_or, not_not, not_lt] at h
  obtain ⟨hpc, -, hsp, hle, hrn⟩ := h
  have hregs : ∀ rm : Reg, rm ≠ nextScratch pc rm r0 ∧ rm ≠ nextScratch pc rm (nextScratch pc rm r0 + 1) ∧
      nextScratch pc rm r0 ≠ nextScratch pc rm (nextScratch pc rm r0 + 1) ∧ (nextScratch pc rm r0).toNat < 3 := by
    decide
  obtain ⟨h1, h2, h3, h4⟩ := hregs x.rm
  rw [← hrn] at h1 h2 h3 h4
  exact ⟨hrn, hpc, hsp, h1, h2, h3, h4, Nat.lt_succ_of_le hle⟩

theorem emit_kept {q : Word} {m : Nat} {js : List Inst} {code : Code} (hp : a = past w k) (hq : q = past w n)
    (hcode : CodeAt t32 (fetch code) a is) (hle : k + bytes Inst.size is ≤ n ∨ n + m ≤ k)
    (hm : bytes Inst.size js = m) (hlt : k + bytes Inst.size is < 2 ^ 32) (hlt' : n + m < 2 ^ 32) :
    CodeAt t32 (fetch (emit Inst.size q js code)) a is := by
  refine codeAt_congr t32_size size_eq (fun i hi => ?_) hcode
  rw [emit_outside size_eq]
  intro j hj heq
  rw [hp, hq, past_past, past_past] at heq
  have hsum := past_inj (by omega) (by omega) heq
  omega

theorem scanTb_emitted (h : scanTb x σ = some σ₀) : Emitted x σ₀ := by
  simp only [scanTb, Option.bind_eq_bind] at h
  split_ifs at h with hbad
  · exact absurd h (by simp)
  · have hok := accepted_of hbad
    simp only [Option.bind_eq_some_iff] at h
    obtain ⟨head, hhead, slots, hslots, slow, hslow, heq⟩ := h
    obtain ⟨b, hb, rfl⟩ := tbHead_some hhead
    have hfour := b32Helper_size hb
    have hbytes : bytes Inst.size [.cmpi32 x.rm 151, .it16 hi 8, b, .tbb32 pc x.rm] = 14 := by
      rw [bytes, bytes, bytes, hfour]
      rfl
    have hslotBytes := bytes_tbSlots hslots
    rw [hslotBytes, hbytes] at hslow heq
    rw [hbytes] at hslots
    have htable : past x.writeP 14 = x.table := rfl
    have hslotsP : past x.table (2 * (maxTbIndex / 2)) = past x.writeP 166 := past_past _ _ _
    have hslowP : past (past x.writeP 166) 128 = x.slow := past_past _ _ _
    rw [htable, hslotsP, hslowP] at heq hslow
    rw [tbSlow_eq hok.rn] at hslow
    obtain ⟨jump, hjump, rfl⟩ := Option.map_eq_some_iff.mp hslow
    have hslowBytes : bytes Inst.size (x.slowCode ++ [jump]) = 52 := by
      rw [bytes_append, bytes_slowCode, bytes, bytes, b32Helper_size hjump]
    obtain rfl := Option.some.inj heq
    refine ⟨hok, ⟨b, hb, ?_⟩, fun i hi => ?_, ⟨jump, hjump, emit_codeAt t32_size size_eq (by decide) (by omega)⟩, rfl⟩
    · have hcode := @emit_codeAt _ _ _ Inst.size σ.code x.writeP _ _ t32 t32_size size_eq (by decide) (by rw [hbytes]; decide)
      have h0 : x.writeP = past x.writeP 0 := (past_zero _).symm
      refine emit_kept h0 rfl (emit_kept h0 rfl hcode ?_ hslotBytes ?_ ?_) ?_ hslowBytes ?_ ?_ <;> omega
    · exact tbTable_byte (n := maxTbIndex / 2) (by decide) i hi

end Layout

section Program

/-- Where the program's own instruction reads the offset of an index. -/
def Site.offsetAddr (x : Site) (i : Word) : Word :=
  match x.kind with
  | .tbb => x.readAddress + 4 + i
  | .tbh => x.readAddress + 4 + i <<< 1

def Site.width (x : Site) : Nat :=
  match x.kind with
  | .tbb => 1
  | .tbh => 2

def Site.target (x : Site) (mem : Word → Byte) (i : Word) : Word :=
  x.readAddress + 4 + BitVec.ofNat 32 (2 * loadBytes mem (x.offsetAddr i) x.width) + 1

def Site.inst (x : Site) : Inst :=
  match x.kind with
  | .tbb => .tbb32 x.rn x.rm
  | .tbh => .tbh32 x.rn x.rm

end Program

end Mambo.T32TableBranch
