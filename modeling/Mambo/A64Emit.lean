import Mambo.A64
import Mambo.Immediates

namespace Mambo.A64Emit

open ByteMemory CodeRuns A64 Immediates

abbrev Code := Word → Option Inst

section Helpers

/-- The instructions that the helpers write, or none where an assertion of
theirs fails. -/
def branchHelper (writeP target : Word) : Option Inst :=
  let difference := target - writeP
  if difference &&& 3 = 0 ∧ difference.toInt < 128 * 1024 * 1024 ∧ -128 * 1024 * 1024 ≤ difference.toInt then
    some (.b ((difference.sshiftRight 2).setWidth 26))
  else none

def bCondHelper (writeP target cond : Word) : Option Inst :=
  let difference := target - writeP
  if difference &&& 3 = 0 ∧ difference.toInt < 1024 * 1024 ∧ -1024 * 1024 ≤ difference.toInt then
    some (.bCond ((difference.sshiftRight 2).setWidth 19) (cond.setWidth 4))
  else none

/-- The range is not checked here: the two bounds are joined with an and. -/
def cbzCbnzHelper (writeP : Word) (cbnz : Bool) (target : Word) (sf : BitVec 1) (rt : Reg) : Option Inst :=
  let difference := target - writeP
  if difference &&& 3 ≠ 0 ∨ difference.toInt ≥ 1024 * 1024 ∧ difference.toInt < -1024 * 1024 then none
  else some (.cbzCbnz sf (if cbnz then 1 else 0) ((difference.sshiftRight 2).setWidth 19) rt)

def tbzTbnzHelper (writeP : Word) (isTbnz : Bool) (target : Word) (reg : Reg) (bit : BitVec 6) : Option Inst :=
  let difference := target - writeP
  if difference &&& 3 = 0 ∧ difference.toInt < 32 * 1024 ∧ -32 * 1024 ≤ difference.toInt then
    some (.tbzTbnz ((bit >>> 5).setWidth 1) (if isTbnz then 1 else 0) (bit.setWidth 5)
      ((difference.sshiftRight 2).setWidth 14) reg)
  else none

def halfWord (value : Word) (k : Nat) : BitVec 16 := (value >>> (16 * k)).setWidth 16

def moveKeep (value : Word) (k : Nat) (hw : BitVec 2) (reg : Reg) : List Inst :=
  if 0 < (halfWord value k).toNat then [.movk hw (halfWord value k) reg] else []

def copyToReg64bits (reg : Reg) (value : Word) : List Inst :=
  .movz 0 (halfWord value 0) reg :: (moveKeep value 1 1 reg ++ moveKeep value 2 2 reg ++ moveKeep value 3 3 reg)

def pushPairReg (rt rt2 : Reg) : Inst := .stpPre (-2) rt2 xzr rt

def pushReg (reg : Reg) : Inst := .strPre (-16) xzr reg

def popReg (reg : Reg) : Inst := .ldrPost 16 xzr reg

def emit : Word → List Inst → Code → Code
  | _, [], code => code
  | a, i :: is, code => emit (a + 4) is (Function.update code a (some i))

end Helpers

section Branches

variable {writeP target : Word} {i : Inst}

theorem low_bits {d : Word} (h : d &&& 3 = 0) : d.toNat % 2 ^ 2 = 0 := by
  have hand := congrArg BitVec.toNat h
  rwa [BitVec.toNat_and, show (3 : Word).toNat = 2 ^ 2 - 1 from rfl, Nat.and_two_pow_sub_one_eq_mod] at hand

theorem offset_eq {n : Nat} (hn : 0 < n) (hw : n ≤ 64) {d : Word} (h : d &&& 3 = 0)
    (hlt : d.toInt < 2 ^ (n - 1) * 2 ^ 2) (hge : -(2 ^ (n - 1) * 2 ^ 2) ≤ d.toInt) :
    offset ((d.sshiftRight 2).setWidth n) = d :=
  distance_eq hn (by decide) hw (low_bits h) hlt hge

theorem branchHelper_exec (h : branchHelper writeP target = some i) (s : State) :
    exec i (s.goto writeP) = s.goto target := by
  rw [branchHelper] at h
  split_ifs at h with hrange
  obtain ⟨hlow, hlt, hge⟩ := hrange
  rw [← Option.some.inj h, exec, offset_eq (by decide) (by decide) hlow (by omega) (by omega), State.goto_pc,
    add_sub_cancel, State.goto_goto]

theorem bCondHelper_exec {cond : Word} (h : bCondHelper writeP target cond = some i) (s : State) :
    exec i (s.goto writeP) =
      if condHolds (cond.setWidth 4) s.flags then s.goto target else s.goto (writeP + 4) := by
  rw [bCondHelper] at h
  split_ifs at h with hrange
  obtain ⟨hlow, hlt, hge⟩ := hrange
  rw [← Option.some.inj h, exec, offset_eq (by decide) (by decide) hlow (by omega) (by omega), branch, taken,
    State.goto_pc, add_sub_cancel, State.goto_goto, State.next_goto]
  rfl

theorem cbzCbnzHelper_exec {cbnz : Bool} {sf : BitVec 1} {rt : Reg}
    (h : cbzCbnzHelper writeP cbnz target sf rt = some i) (hlt : (target - writeP).toInt < 1024 * 1024)
    (hge : -1024 * 1024 ≤ (target - writeP).toInt) (s : State) :
    exec i (s.goto writeP) =
      if (operand sf (s.get rt) == 0) == !cbnz then s.goto target else s.goto (writeP + 4) := by
  rw [cbzCbnzHelper] at h
  split_ifs at h with hrange hcbnz
  all_goals
    have hlow : target - writeP &&& 3 = 0 := by
      by_contra hne
      exact hrange (Or.inl hne)
    rw [← Option.some.inj h, exec, offset_eq (by decide) (by decide) hlow (by omega) (by omega), branch, taken,
      State.goto_pc, add_sub_cancel, State.goto_goto, State.next_goto, State.get_goto]
  · rw [hcbnz]
    rfl
  · rw [Bool.not_eq_true] at hcbnz
    rw [hcbnz]
    rfl

theorem bit_fields : ∀ bit : BitVec 6, ((bit >>> 5).setWidth 1).toNat * 32 + (bit.setWidth 5).toNat = bit.toNat := by
  decide

theorem tbzTbnzHelper_exec {isTbnz : Bool} {reg : Reg} {bit : BitVec 6}
    (h : tbzTbnzHelper writeP isTbnz target reg bit = some i) (s : State) :
    exec i (s.goto writeP) =
      if (s.get reg).getLsbD bit.toNat == isTbnz then s.goto target else s.goto (writeP + 4) := by
  rw [tbzTbnzHelper] at h
  split_ifs at h with hrange htbnz
  all_goals
    obtain ⟨hlow, hlt, hge⟩ := hrange
    rw [← Option.some.inj h, exec, offset_eq (by decide) (by decide) hlow (by omega) (by omega), branch, taken,
      State.goto_pc, add_sub_cancel, State.goto_goto, State.next_goto, State.get_goto, bit_fields]
  · rw [htbnz]
    rfl
  · rw [Bool.not_eq_true] at htbnz
    rw [htbnz]
    rfl

end Branches

section Cells

variable {code code' : Code} {a x : Word} {is : List Inst}

/-- The cell of the k-th instruction from an address on. -/
def cell (a : Word) (k : Nat) : Word := a + BitVec.ofNat 64 (4 * k)

theorem cell_zero (a : Word) : cell a 0 = a := BitVec.add_zero a

theorem cell_succ (a : Word) (k : Nat) : cell (a + 4) k = cell a (k + 1) := by
  rw [cell, cell, show 4 * (k + 1) = 4 + 4 * k by omega, BitVec.ofNat_add, BitVec.add_assoc]
  rfl

theorem cell_inj {j k : Nat} (hj : 4 * j < 2 ^ 64) (hk : 4 * k < 2 ^ 64) (h : cell a j = cell a k) : j = k := by
  have hnat := congrArg BitVec.toNat (add_left_cancel h)
  rw [BitVec.toNat_ofNat, BitVec.toNat_ofNat, Nat.mod_eq_of_lt hj, Nat.mod_eq_of_lt hk] at hnat
  omega

theorem cell_add (a : Word) (j k : Nat) : cell (cell a j) k = cell a (j + k) := by
  rw [cell, cell, cell, Nat.mul_add, BitVec.ofNat_add, BitVec.add_assoc]

theorem cell_next (a : Word) (k : Nat) : cell a k + 4 = cell a (k + 1) := cell_add a k 1

theorem small_cell (a : Word) {k : Nat} (hk : k < 16) :
    (cell a k - a).toInt < 1024 * 1024 ∧ -1024 * 1024 ≤ (cell a k - a).toInt := by
  have hsub : cell a k - a = BitVec.ofNat 64 (4 * k) := add_sub_cancel_left a _
  have hnat : (BitVec.ofNat 64 (4 * k)).toNat = 4 * k := by
    rw [BitVec.toNat_ofNat, Nat.mod_eq_of_lt (by omega)]
  rw [hsub, BitVec.toInt_eq_toNat_of_lt (by rw [hnat]; omega), hnat]
  omega

theorem add_extent (a : Word) (is : List Inst) : a + extent a64 is = cell a is.length := by
  induction is generalizing a with
  | nil => rfl
  | cons i is ih => rw [extent, ← BitVec.add_assoc, a64_size, ih, cell_succ, List.length_cons]

theorem codeAt_append_cell {js : List Inst} :
    CodeAt a64 code a (is ++ js) ↔ CodeAt a64 code a is ∧ CodeAt a64 code (cell a is.length) js := by
  rw [codeAt_append, add_extent]

theorem codeAt_cons_cell {i : Inst} :
    CodeAt a64 code a (i :: is) ↔ code a = some i ∧ CodeAt a64 code (cell a 1) is := Iff.rfl

theorem codeAt_congr (h : ∀ k, k < is.length → code (cell a k) = code' (cell a k))
    (hcode : CodeAt a64 code a is) : CodeAt a64 code' a is := by
  induction is generalizing a with
  | nil => trivial
  | cons i is ih =>
      refine ⟨?_, ih (fun k hk => ?_) hcode.2⟩
      · rw [← hcode.1, ← cell_zero a]
        exact (h 0 (Nat.succ_pos _)).symm
      · rw [a64_size, cell_succ]
        exact h (k + 1) (Nat.succ_lt_succ hk)

theorem emit_outside (h : ∀ k, k < is.length → x ≠ cell a k) : emit a is code x = code x := by
  induction is generalizing a code with
  | nil => rfl
  | cons i is ih =>
      have hne : x ≠ a := by
        rw [← cell_zero a]
        exact h 0 (Nat.succ_pos _)
      rw [emit, ih fun k hk => by rw [cell_succ]; exact h (k + 1) (Nat.succ_lt_succ hk), Function.update_of_ne hne]

theorem emit_codeAt (hlen : 4 * is.length < 2 ^ 64) : CodeAt a64 (emit a is code) a is := by
  induction is generalizing a code with
  | nil => trivial
  | cons i is ih =>
      rw [List.length_cons] at hlen
      refine ⟨?_, ih (by omega)⟩
      rw [emit, emit_outside, Function.update_self]
      intro k hk heq
      have hcell : cell a 0 = cell a (k + 1) := by rw [cell_zero, ← cell_succ, ← heq]
      exact absurd (cell_inj (by omega) (by omega) hcell) (by omega)

end Cells

section Constants

def lowPart (value : Word) (k : Nat) : Word := (value.setWidth (16 * k)).setWidth 64

theorem getLsbD_lowPart (value : Word) (k i : Nat) :
    (lowPart value k).getLsbD i = (decide (i < 64) && (decide (i < 16 * k) && value.getLsbD i)) := by
  rw [lowPart, BitVec.getLsbD_setWidth, BitVec.getLsbD_setWidth]

theorem lowPart_keep (value : Word) (k : Nat) :
    (lowPart value k &&& ~~~((0xFFFF : Word) <<< (k * 16))) ||| (halfWord value k).setWidth 64 <<< (k * 16) =
      lowPart value (k + 1) := by
  apply BitVec.eq_of_getLsbD_eq
  intro i hi
  simp only [BitVec.getLsbD_or, BitVec.getLsbD_and, BitVec.getLsbD_not, BitVec.getLsbD_shiftLeft,
    getLsbD_lowPart, BitVec.getLsbD_setWidth, halfWord, BitVec.getLsbD_ushiftRight, hi, decide_true, Bool.true_and]
  by_cases hlow : i < k * 16
  · have h1 : i < 16 * k := by omega
    have h2 : i < 16 * (k + 1) := by omega
    simp [hlow, h1, h2]
  · have h1 : ¬ i < 16 * k := by omega
    have hadd : 16 * k + (i - k * 16) = i := by omega
    by_cases hhigh : i - k * 16 < 16
    · have h2 : i < 16 * (k + 1) := by omega
      have h3 : i - k * 16 < 64 := by omega
      simp [hlow, h1, h2, h3, hhigh, hadd]
    · have h2 : ¬ i < 16 * (k + 1) := by omega
      simp [hlow, h1, h2, hhigh]

theorem lowPart_skip (value : Word) {k : Nat} (h : halfWord value k = 0) : lowPart value (k + 1) = lowPart value k := by
  apply BitVec.eq_of_getLsbD_eq
  intro i hi
  rw [getLsbD_lowPart, getLsbD_lowPart]
  by_cases hlow : i < 16 * k
  · have h2 : i < 16 * (k + 1) := by omega
    simp [hlow, h2]
  · by_cases hhigh : i < 16 * (k + 1)
    · have hbit := congrArg (fun x : BitVec 16 => x.getLsbD (i - 16 * k)) h
      have hadd : 16 * k + (i - 16 * k) = i := by omega
      have hlt : i - 16 * k < 16 := by omega
      simp [halfWord, hadd, hlt] at hbit
      simp [hlow, hbit]
    · simp [hlow, hhigh]

theorem lowPart_one (value : Word) : lowPart value 1 = (halfWord value 0).setWidth 64 := by
  rw [lowPart, halfWord, Nat.mul_zero, BitVec.ushiftRight_zero]

theorem lowPart_four (value : Word) : lowPart value 4 = value := by
  rw [lowPart]
  exact (BitVec.setWidth_eq _).trans (BitVec.setWidth_eq _)

variable {code : Code} {reg : Reg} {value : Word} {s : State}

def partly (s : State) (reg : Reg) (value p : Word) (k : Nat) : State := (s.set reg (lowPart value k)).goto p

theorem movk_exec {p : Word} {k : Nat} {hw : BitVec 2} (hk : hw.toNat = k) :
    exec (.movk hw (halfWord value k) reg) (partly s reg value p k) = partly s reg value (p + 4) (k + 1) := by
  by_cases hreg : reg = xzr
  · simp only [exec, partly, State.set, if_pos hreg]
    rfl
  · rw [exec, hk, partly, State.get_goto, State.get_set_self hreg, lowPart_keep, State.set_goto, State.set_set]
    rfl

theorem moveKeep_run {p : Word} {k : Nat} {hw : BitVec 2} (hk : hw.toNat = k)
    (h : CodeAt a64 code p (moveKeep value k hw reg)) :
    Reaches a64 code (partly s reg value p k) (partly s reg value (p + extent a64 (moveKeep value k hw reg)) (k + 1)) := by
  rw [moveKeep] at h ⊢
  by_cases hpos : 0 < (halfWord value k).toNat
  · rw [if_pos hpos] at h ⊢
    have hsize : extent a64 [Inst.movk hw (halfWord value k) reg] = 4 := rfl
    rw [hsize]
    exact Relation.ReflTransGen.single (steps_exec h.1 (movk_exec hk))
  · have hzero : halfWord value k = 0 := BitVec.eq_of_toNat_eq (by simpa using hpos)
    rw [if_neg hpos, extent, partly, partly, lowPart_skip value hzero]
    simpa using Relation.ReflTransGen.refl

theorem movz_run {p : Word} (h : code p = some (.movz 0 (halfWord value 0) reg)) :
    Reaches a64 code (s.goto p) (partly s reg value (p + 4) 1) := by
  have hshift : (halfWord value 0).setWidth 64 <<< ((0 : BitVec 2).toNat * 16) = lowPart value 1 := by
    rw [lowPart_one]
    exact BitVec.shiftLeft_zero _
  refine Relation.ReflTransGen.single (steps_exec h ?_)
  rw [exec, hshift, State.set_goto, State.next_goto, partly]

theorem extent_copyToReg64bits (reg : Reg) (value : Word) :
    extent a64 (copyToReg64bits reg value) = 4 + (extent a64 (moveKeep value 1 1 reg) +
      (extent a64 (moveKeep value 2 2 reg) + extent a64 (moveKeep value 3 3 reg))) := by
  rw [copyToReg64bits, extent, a64_size, extent_append, extent_append, BitVec.add_assoc]

theorem copyToReg64bits_run {a : Word} (h : CodeAt a64 code a (copyToReg64bits reg value)) :
    Reaches a64 code (s.goto a) ((s.set reg value).goto (cell a (copyToReg64bits reg value).length)) := by
  obtain ⟨hmovz, hrest⟩ := h
  rw [codeAt_append, codeAt_append, a64_size, extent_append, ← BitVec.add_assoc] at hrest
  obtain ⟨⟨h1, h2⟩, h3⟩ := hrest
  have hone : (1 : BitVec 2).toNat = 1 := rfl
  have htwo : (2 : BitVec 2).toNat = 2 := rfl
  have hthree : (3 : BitVec 2).toNat = 3 := rfl
  have hrun := (((movz_run (s := s) hmovz).trans (moveKeep_run hone h1)).trans
    (moveKeep_run htwo h2)).trans (moveKeep_run hthree h3)
  rw [← add_extent, extent_copyToReg64bits, ← BitVec.add_assoc, ← BitVec.add_assoc, ← BitVec.add_assoc]
  rwa [partly, lowPart_four] at hrun

theorem length_copyToReg64bits (reg : Reg) (value : Word) : (copyToReg64bits reg value).length ≤ 4 := by
  have hkeep : ∀ k hw, (moveKeep value k hw reg).length ≤ 1 := by
    intro k hw
    rw [moveKeep]
    split <;> simp
  have h1 := hkeep 1 1
  have h2 := hkeep 2 2
  have h3 := hkeep 3 3
  rw [copyToReg64bits, List.length_cons, List.length_append, List.length_append]
  omega

end Constants

section Saving

variable {code : Code} {s : State} {a target : Word}

/-- The registers x0 and x1 saved as the dispatcher and the entry of a block
expect them. -/
def pushed (s : State) : State :=
  { s with sp := s.sp - 16, mem := store64 (store64 s.mem (s.sp - 16) (s.x 0)) (s.sp - 16 + 8) (s.x 1) }

theorem push_run (h : code a = some (pushPairReg 0 1)) :
    Steps a64 code (s.goto a) ((pushed s).goto (a + 4)) := by
  refine steps_exec h ?_
  have himm : (-2 : BitVec 7).signExtend 64 <<< 3 = -(16 : Word) := by decide
  rw [pushPairReg, exec, State.getBase, if_pos rfl, himm, ← sub_eq_add_neg]
  rfl

theorem jump_run {i : Inst} (hi : branchHelper a target = some i) (hcode : code a = some i) :
    Steps a64 code (s.goto a) (s.goto target) := steps_exec hcode (branchHelper_exec hi s)

end Saving

end Mambo.A64Emit
