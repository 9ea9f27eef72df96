import Mambo.BitPlacement
import Mambo.Immediates
import Mambo.T32
import Mathlib.Tactic.IntervalCases

namespace Mambo.T32Emit

open BitPlacement Bytes CodeRuns CodeCells Immediates WordMemory T32

variable {f : Word → Option Inst} {s : State} {i : Inst} {is js : List Inst} {a p dest v : Word} {rd : Reg}

section Source

def dispResWords : BitVec 7 := 3

def dispSpOffset : BitVec 8 := 28

def r0 : Reg := 0

def r1 : Reg := 1

def r3 : Reg := 3

/-- None where the branch is out of range. -/
def b32Helper (writeP destAddr : Word) : Option Inst :=
  let difference := destAddr - writeP - 4
  if difference.toInt < -(16 * 1024 * 1024) ∨ 16 * 1024 * 1024 ≤ difference.toInt then none
  else
    let signBit := difference.extractLsb' 31 1
    let i1 := ~~~(difference.extractLsb' 23 1 ^^^ signBit)
    let i2 := ~~~(difference.extractLsb' 22 1 ^^^ signBit)
    some (.b32 signBit (difference.extractLsb' 12 10) i1 i2 (difference.extractLsb' 1 11))

def copyToReg32bit (reg : Reg) (value : Word) : List Inst :=
  [.movwi32 (value.extractLsb' 11 1) (value.extractLsb' 12 4) (value.extractLsb' 8 3) reg (value.extractLsb' 0 8),
    .movti32 (value.extractLsb' 27 1) (value.extractLsb' 28 4) (value.extractLsb' 24 3) reg (value.extractLsb' 16 8)]

def branchSaveContext (lateAppSp : Bool) : List Inst :=
  [.subSpI16 dispResWords, .push16 0b1111] ++ if lateAppSp then [] else [.addi32 sp r3 dispSpOffset]

structure JumpFlags where
  setup : Bool
  replaceTarget : Bool
  insertBranch : Bool
  lateAppSp : Bool

def branchJump (dispatcherAddr writeP bbIndex target : Word) (flags : JumpFlags) : Option (List Inst) :=
  let setup := if flags.setup then copyToReg32bit r1 bbIndex else []
  let replace := if flags.replaceTarget then copyToReg32bit r0 target else []
  if flags.insertBranch then
    let late := if flags.lateAppSp then [.addi32 sp r3 dispSpOffset] else []
    let out := setup ++ (replace ++ late)
    (b32Helper (past writeP (bytes Inst.size out)) (dispatcherAddr - 4)).map fun b => out ++ [b]
  else some (setup ++ replace)

end Source

section Branches

theorem entry_toNat (a : Word) : (entry a).toNat = a.toNat / 2 * 2 := by
  have hmask : entry a = a >>> 1 <<< 1 := by
    apply BitVec.eq_of_getLsbD_eq
    intro i hi
    rw [entry, BitVec.getLsbD_and, BitVec.getLsbD_not, BitVec.getLsbD_shiftLeft, BitVec.getLsbD_ushiftRight]
    by_cases h0 : i = 0
    · subst h0
      simp
    · have hback : 1 + (i - 1) = i := by omega
      simp [hi, hback, h0]
  rw [hmask, shiftRight_shiftLeft_toNat, Nat.pow_one]

theorem add_entry {x y : Word} (h : x.toNat % 2 = 0) : x + entry y = entry (x + y) := by
  apply BitVec.eq_of_toNat_eq
  have hx := x.isLt
  have hy := y.isLt
  rw [BitVec.toNat_add, entry_toNat, entry_toNat, BitVec.toNat_add]
  omega

theorem getLsbD_entry (a : Word) (i : Nat) : (entry a).getLsbD i = (a.getLsbD i && decide (i ≠ 0)) := by
  have hone : (1 : Word).getLsbD i = decide (i = 0) := by
    rw [show (1 : Word) = BitVec.ofNat 32 1 by rfl, BitVec.getLsbD_one]
    simp
  rw [entry, BitVec.getLsbD_and, BitVec.getLsbD_not, hone]
  by_cases hi : i < 32
  · simp [hi]
  · simp [BitVec.getLsbD_of_ge a i (by omega)]

theorem entry_toInt (a : Word) : a.toInt - 1 ≤ (entry a).toInt ∧ (entry a).toInt ≤ a.toInt := by
  have hlt := a.isLt
  rw [BitVec.toInt_eq_toNat_cond, BitVec.toInt_eq_toNat_cond, entry_toNat]
  split_ifs <;> omega

theorem branchOffset_eq {d : Word} (hlt : d.toInt < 16 * 1024 * 1024) (hge : -(16 * 1024 * 1024) ≤ d.toInt) :
    branchOffset (d.extractLsb' 31 1) (d.extractLsb' 12 10) (~~~(d.extractLsb' 23 1 ^^^ d.extractLsb' 31 1))
      (~~~(d.extractLsb' 22 1 ^^^ d.extractLsb' 31 1)) (d.extractLsb' 1 11) = entry d := by
  have hback : (d.setWidth 25).signExtend 32 = d := signExtend_setWidth (by decide) (by decide) (by omega) (by omega)
  have hsign : d.extractLsb' 31 1 = d.extractLsb' 24 1 := by
    rw [← hback]
    generalize d.setWidth 25 = v
    revert v
    exact Bitwise.ext (by fun_prop) (by fun_prop) (by decide)
  have hxor : ∀ j sign : BitVec 1, ~~~(~~~(j ^^^ sign) ^^^ sign) = j := by decide
  obtain ⟨hlow, hhigh⟩ := entry_toInt d
  have heven : (entry d).toInt % 2 = 0 := by
    rw [BitVec.toInt_eq_toNat_cond, entry_toNat]
    split_ifs <;> omega
  rw [← signExtend_setWidth (x := entry d) (n := 25) (by decide) (by decide) (by omega) (by omega), branchOffset]
  congr 1
  rw [hxor, hxor, hsign, entry]
  apply Bitwise.ext ?_ ?_ ?_ d
  · fun_prop
  · fun_prop
  · decide

theorem b32Helper_exec (h : b32Helper s.pc dest = some i) (heven : s.pc.toNat % 2 = 0) :
    perform i s = s.goto (entry dest) := by
  rw [b32Helper] at h
  split_ifs at h with hrange
  rw [not_or, not_lt, not_le] at hrange
  obtain rfl := Option.some.inj h
  have hpc : (s.pc + 4).toNat % 2 = 0 := by
    rw [BitVec.toNat_add, show (4 : Word).toNat = 4 by rfl]
    omega
  rw [perform, branchOffset_eq hrange.2 hrange.1, add_entry hpc]
  congr 2
  rw [sub_sub, add_sub_cancel]

end Branches

section Straight

/-- The instructions that go on to the next one, without an IT block. -/
def straight : Inst → Bool
  | .it16 .. | .bCond16 .. | .bx16 .. | .blx16 .. | .b32 .. | .tbb32 .. | .tbh32 .. => false
  | .movh16 dn _ rdn => dn ++ rdn != pc
  | .pop16 reg => pc ∉ regs16 pc reg
  | .ldr32 _ rt _ _ | .ldri32 rt .. | .ldrl32 rt _ => rt != pc
  | .ldmfd32 _ _ reglist | .ldmea32 _ _ reglist => pc ∉ regsOf reglist
  | _ => true

theorem loadTo_straight {rt : Reg} (h : rt ≠ pc) (v next : Word) (s : State) : loadTo rt v next s = (s.set rt v).goto next :=
  if_neg h

theorem loadMultiple_straight {rs : List Reg} (h : pc ∉ rs) (a next : Word) (s : State) :
    loadMultiple rs a next s = (loadRegs rs a s).goto next :=
  if_neg h

theorem perform_straight (h : straight i = true) (s : State) : (perform i s).pc = past s.pc i.size := by
  cases i with
  | movh16 dn rm rdn =>
      rw [perform, if_neg (by simpa [straight] using h)]
      rfl
  | pop16 reg =>
      rw [perform, loadMultiple_straight (by simpa [straight] using h)]
      rfl
  | ldr32 rn rt shift rm =>
      rw [perform, loadTo_straight (by simpa [straight] using h)]
      rfl
  | ldri32 rt rn imm8 p u w =>
      rw [perform, loadTo_straight (by simpa [straight] using h)]
      rfl
  | ldrl32 rt imm12 =>
      rw [perform, loadTo_straight (by simpa [straight] using h)]
      rfl
  | ldmfd32 w rn reglist =>
      rw [perform, ldm, loadMultiple_straight (by simpa [straight] using h)]
      rfl
  | ldmea32 w rn reglist =>
      rw [perform, ldm, loadMultiple_straight (by simpa [straight] using h)]
      rfl
  | _ => first | rfl | exact absurd h Bool.false_ne_true

theorem nextIt_straight (h : straight i = true) : nextIt i 0 = 0 := by
  cases i with
  | it16 cond mask => exact absurd h Bool.false_ne_true
  | _ => rfl

@[simp] theorem loadRegs_thumb (rs : List Reg) (a : Word) (s : State) : (loadRegs rs a s).thumb = s.thumb := by
  induction rs generalizing a s with
  | nil => rfl
  | cons r rs ih => rw [loadRegs, ih, State.set_thumb]

theorem thumb_straight (h : straight i = true) (s : State) : (perform i s).thumb = s.thumb := by
  cases i with
  | movh16 dn rm rdn =>
      rw [perform]
      split <;> rfl
  | pop16 reg =>
      rw [perform, loadMultiple_straight (by simpa [straight] using h)]
      exact loadRegs_thumb _ _ _
  | ldr32 rn rt shift rm =>
      rw [perform, loadTo_straight (by simpa [straight] using h)]
      rfl
  | ldri32 rt rn imm8 p u w =>
      rw [perform, loadTo_straight (by simpa [straight] using h)]
      dsimp only [State.goto_thumb, State.set_thumb]
      split <;> rfl
  | ldrl32 rt imm12 =>
      rw [perform, loadTo_straight (by simpa [straight] using h)]
      rfl
  | ldmfd32 w rn reglist =>
      rw [perform, ldm, loadMultiple_straight (by simpa [straight] using h)]
      refine (loadRegs_thumb _ _ _).trans ?_
      split <;> rfl
  | ldmea32 w rn reglist =>
      rw [perform, ldm, loadMultiple_straight (by simpa [straight] using h)]
      refine (loadRegs_thumb _ _ _).trans ?_
      split <;> rfl
  | _ => first | rfl | exact absurd h Bool.false_ne_true

def performAll (is : List Inst) (s : State) : State := is.foldl (fun s i => perform i s) s

theorem performAll_append (is js : List Inst) (s : State) : performAll (is ++ js) s = performAll js (performAll is s) :=
  List.foldl_append

/-- What holds of an execution that went on to an address, outside IT blocks. -/
structure At (s : State) (p : Word) : Prop where
  pc : s.pc = p
  thumb : s.thumb = true
  outside : s.itstate = 0

theorem codeAt_append_t32 : CodeAt t32 f a (is ++ js) ↔
    CodeAt t32 f a is ∧ CodeAt t32 f (past a (bytes Inst.size is)) js :=
  codeAt_append_past t32_size

theorem codeAt_cons_t32 : CodeAt t32 f a (i :: is) ↔ f a = some i ∧ CodeAt t32 f (past a i.size) is :=
  codeAt_cons t32_size

theorem At.perform (h : At s p) (hi : straight i = true) : At (perform i s) (past p i.size) := by
  exact ⟨(perform_straight hi s).trans (by rw [h.pc]), (thumb_straight hi s).trans h.thumb,
    (perform_itstate i s).trans h.outside⟩

theorem At.step (h : At s p) (hi : straight i = true) (hcode : f p = some i) :
    Steps t32 f s (T32.perform i s) := by
  refine steps_exec (by rw [h.pc]; exact hcode) ?_
  exact exec_plain h.outside (nextIt_straight hi)

theorem performAll_run (h : At s p) (his : is.all straight = true) (hcode : CodeAt t32 f p is) :
    Reaches t32 f s (performAll is s) ∧ At (performAll is s) (past p (bytes Inst.size is)) := by
  induction is generalizing s p with
  | nil => exact ⟨Relation.ReflTransGen.refl, by rw [bytes, past_zero]; exact h⟩
  | cons i is ih =>
      rw [List.all_cons, Bool.and_eq_true] at his
      rw [codeAt_cons_t32] at hcode
      obtain ⟨hrun, hend⟩ := ih (h.perform his.1) his.2 hcode.2
      rw [past_past] at hend
      exact ⟨Relation.ReflTransGen.head (h.step his.1 hcode.1) hrun, hend⟩

theorem b32Helper_next (h : b32Helper a dest = some i) (it : BitVec 8) : nextIt i it = itAdvance it := by
  rw [b32Helper] at h
  split_ifs at h
  obtain rfl := Option.some.inj h
  rfl

theorem b32_step (hs : At s p) (hi : b32Helper p dest = some i) (heven : p.toNat % 2 = 0) (hf : f p = some i) :
    Steps t32 f s (s.goto (entry dest)) ∧ At (s.goto (entry dest)) (entry dest) := by
  refine ⟨steps_exec (by rw [hs.pc, hf]) ?_, rfl, hs.thumb, hs.outside⟩
  rw [exec_plain hs.outside ((b32Helper_next hi 0).trans (by decide))]
  exact b32Helper_exec (by rw [hs.pc]; exact hi) (by rw [hs.pc]; exact heven)

theorem past_even {n : Nat} (ha : a.toNat % 2 = 0) (hn : n % 2 = 0) : (past a n).toNat % 2 = 0 := by
  rw [past, BitVec.toNat_add, BitVec.toNat_ofNat]
  omega

theorem copyToReg32bit_value (value : Word) :
    imm16 (value.extractLsb' 27 1) (value.extractLsb' 28 4) (value.extractLsb' 24 3) (value.extractLsb' 16 8) ++
      ((imm16 (value.extractLsb' 11 1) (value.extractLsb' 12 4) (value.extractLsb' 8 3)
        (value.extractLsb' 0 8)).setWidth 32).extractLsb' 0 16 = value := by
  rw [imm16, imm16]
  revert value
  exact Bitwise.ext (by fun_prop) (by fun_prop) (by decide)

theorem performAll_copy (hrd : rd ≠ pc) (value : Word) :
    performAll (copyToReg32bit rd value) s = (s.set rd value).goto (past s.pc 8) := by
  have hvalue := copyToReg32bit_value value
  have hnext : past s.pc 4 + BitVec.ofNat 32 4 = past s.pc 8 := past_past s.pc 4 4
  rw [performAll, copyToReg32bit, List.foldl_cons, List.foldl_cons, List.foldl_nil, perform, perform,
    State.get_of_ne hrd, State.goto_r, State.set_r_self, hvalue, ← hnext]
  rw [State.set_goto, State.set_set]
  rfl

theorem performAll_save (s : State) : performAll (branchSaveContext true) s =
    ((s.setMem (storeWords s.mem (s.r sp - 28) [s.r 0, s.r 1, s.r 2, s.r 3])).set sp (s.r sp - 28)).goto (past s.pc 4) := by
  have hregs : regs16 lr 0b1111 = [0, 1, 2, 3] := by decide
  have hbase : s.r sp - dispResWords.setWidth 32 <<< 2 - BitVec.ofNat 32 (4 * [(0 : Reg), 1, 2, 3].length) = s.r sp - 28 := by
    rw [sub_sub]
    rfl
  have hne : ∀ r : Reg, r ∈ [(0 : Reg), 1, 2, 3] → r ≠ sp := by decide
  have hvals : ∀ v, [(0 : Reg), 1, 2, 3].map (s.set sp v).r = [s.r 0, s.r 1, s.r 2, s.r 3] := by
    intro v
    exact List.map_congr_left fun r hr => State.set_r_of_ne (hne r hr)
  rw [performAll, branchSaveContext, if_pos rfl, List.append_nil, List.foldl_cons, List.foldl_cons, List.foldl_nil,
    perform, perform, hregs, push]
  rw [State.goto_r, State.set_r_self, hbase, hvals]
  have hset : ((s.setMem (storeWords s.mem (s.r sp - 28) [s.r 0, s.r 1, s.r 2, s.r 3])).set sp
      (s.r sp - dispResWords.setWidth 32 <<< 2)).set sp (s.r sp - 28) = _ := State.set_set
  have hnext : past s.pc 2 + BitVec.ofNat 32 2 = past s.pc 4 := past_past _ _ _
  rw [← hset, ← hnext]
  rfl

theorem loadRegs_mem (rs : List Reg) (a : Word) (s : State) : (loadRegs rs a s).mem = s.mem := by
  induction rs generalizing a s with
  | nil => rfl
  | cons r rs ih => rw [loadRegs, ih, State.set_mem]

theorem perform_ldmfd {reglist : BitVec 16} {regs : List Reg} {rn : Reg} (hregs : regsOf reglist = regs) (hrn : rn ≠ pc)
    (hmem : rn ∉ regs) (hpc : pc ∉ regs) (s : State) :
    perform (.ldmfd32 1 rn reglist) s =
      (loadRegs regs (s.r rn) (s.set rn (s.r rn + BitVec.ofNat 32 (4 * regs.length)))).goto (past s.pc 4) := by
  rw [perform, hregs, ldm, loadMultiple_straight hpc, if_pos ⟨rfl, hmem⟩, State.get_of_ne hrn]
  rfl

def Loads (w : Reg → Word) (mem : Word → Byte) : List Reg → Word → Prop
  | [], _ => True
  | r :: rs, a => loadWord mem a = w r ∧ Loads w mem rs (a + 4)

theorem loadRegs_loads {w : Reg → Word} {rs : List Reg} (h : Loads w s.mem rs a) (r : Reg) :
    (loadRegs rs a s).r r = if r ∈ rs then w r else s.r r := by
  induction rs generalizing a s with
  | nil => rw [if_neg List.not_mem_nil, loadRegs]
  | cons r' rs ih =>
      rw [loadRegs, ih (s := s.set r' (loadWord s.mem a)) h.2, h.1]
      by_cases hr : r ∈ rs
      · rw [if_pos hr, if_pos (List.mem_cons_of_mem _ hr)]
      · by_cases heq : r = r'
        · rw [if_neg hr, if_pos (heq ▸ List.mem_cons_self), heq, State.set_r_self]
        · rw [if_neg hr, if_neg (List.not_mem_cons_of_ne_of_not_mem heq hr), State.set_r_of_ne heq]

end Straight

end Mambo.T32Emit
