import Mambo.A64Exits

namespace Mambo.A64ExitLinks

open Bytes ByteMemory CodeRuns A64 A64Emit A64Exits

variable {code : Code} {s : State} {d w basicBlock target readAddress : Word}

section Stubs

def atDispatcher (d basicBlock : Word) (s : State) (g : Word) : State :=
  (((pushed s).set 0 g).set 1 basicBlock).goto d

theorem branchJump_run {is : List Inst} (h : branchJump d w basicBlock target true true = some is)
    (hcode : CodeAt a64 code w is) :
    Reaches a64 code (s.goto w) (((s.set 0 target).set 1 basicBlock).goto d) := by
  simp only [branchJump, if_true, Option.bind_eq_bind, Option.bind_eq_some_iff, Option.pure_def,
    Option.some.injEq] at h
  obtain ⟨jump, hjump, rfl⟩ := h
  rw [codeAt_append_cell, codeAt_append_cell] at hcode
  obtain ⟨⟨hmove, hid⟩, hlast, -⟩ := hcode
  rw [List.length_append, ← cell_add] at hlast
  rw [← cell_add] at hjump
  exact ((copyToReg64bits_run hmove).trans (copyToReg64bits_run hid)).tail
    (jump_run hjump hlast)

/-- The move of an address to x0 and the jump to the dispatcher, with the id in x1. -/
theorem move_jump_run {jump : Inst} {k : Nat} {g : Word} (hmove : CodeAt a64 code (cell w k) (copyToReg64bits 0 g))
    (hjump : branchHelper (cell w (k + (copyToReg64bits 0 g).length)) d = some jump)
    (hjumpAt : code (cell w (k + (copyToReg64bits 0 g).length)) = some jump) :
    Reaches a64 code (((pushed s).set 1 basicBlock).goto (cell w k)) (atDispatcher d basicBlock s g) := by
  have hrun := copyToReg64bits_run (s := (pushed s).set 1 basicBlock) hmove
  rw [cell_add] at hrun
  rw [atDispatcher, State.set_comm (by decide)]
  exact hrun.tail (jump_run hjump hjumpAt)

theorem branchJumpCond_run {cond : Word} {stub : List Inst}
    (h : branchJumpCond d w basicBlock target readAddress cond = some stub) :
    ∃ tail, stub = .nop :: .nop :: tail ∧ ∀ {code : Code} {s : State}, CodeAt a64 code (cell w 2) tail →
      Reaches a64 code (s.goto (cell w 2)) (atDispatcher d basicBlock s
        (if condHolds ((invertCond cond).setWidth 4) s.flags then readAddress + 4 else target)) := by
  simp only [branchJumpCond, Option.bind_eq_bind, Option.bind_eq_some_iff, Option.pure_def,
    Option.some.injEq] at h
  obtain ⟨jump, hjump, toSkipped, hto, jump', hjump', rfl⟩ := h
  refine ⟨pushPairReg 0 1 :: (copyToReg64bits 1 basicBlock ++ toSkipped :: (copyToReg64bits 0 target ++
    jump :: (copyToReg64bits 0 (readAddress + 4) ++ [jump']))), by simp, fun {code s} hcode => ?_⟩
  simp only [codeAt_cons_cell, codeAt_append_cell, List.length_append, List.length_cons, List.length_nil, cell_add,
    ← Nat.add_assoc, Nat.reduceAdd] at hcode hjump hto hjump'
  generalize hn : (copyToReg64bits 1 basicBlock).length = n at hcode hjump hto hjump'
  have hskip : 3 + n + 2 + (copyToReg64bits 0 target).length = 3 + n + 1 + (copyToReg64bits 0 target).length + 1 := by
    omega
  rw [hskip] at hto hjump'
  obtain ⟨hpush, hid, hcond, hmove, hjumpAt, hmove', hjumpAt', -⟩ := hcode
  have hstart : Reaches a64 code (s.goto (cell w 2)) (((pushed s).set 1 basicBlock).goto (cell w (3 + n))) := by
    have hrun := copyToReg64bits_run (s := pushed s) hid
    have hstep := push_run (s := s) hpush
    rw [cell_add, hn] at hrun
    rw [cell_next] at hstep
    exact Relation.ReflTransGen.head hstep hrun
  refine hstart.trans (Relation.ReflTransGen.head (steps_exec hcond (bCondHelper_exec hto _)) ?_)
  have hflags : ((pushed s).set 1 basicBlock).flags = s.flags := rfl
  rw [hflags]
  split
  · exact move_jump_run hmove' hjump' hjumpAt'
  · rw [cell_next]
    exact move_jump_run hmove hjump hjumpAt

def OfRegs (test : State → Bool) : Prop := ∀ s s' : State, s.x = s'.x → test s = test s'

theorem length_branchJump_le {is : List Inst} (h : branchJump d w basicBlock target true true = some is) :
    is.length ≤ 9 := by
  have hlength := length_branchJump _ h
  have h0 := length_copyToReg64bits 0 target
  have h1 := length_copyToReg64bits 1 basicBlock
  omega

theorem branchImmReg_run {helper : Word → Word → Option Inst} (test : State → Bool) (htest : OfRegs test)
    (hhelper : ∀ {a i k s}, k < 16 → helper a (cell a k) = some i →
      exec i (s.goto a) = if test s then s.goto (cell a k) else s.goto (a + 4)) {stub : List Inst}
    (h : branchImmReg d w basicBlock target readAddress helper = some stub) :
    ∃ tail, stub = .nop :: .nop :: tail ∧ ∀ {code : Code} {s : State}, CodeAt a64 code (cell w 2) tail →
      Reaches a64 code (s.goto (cell w 2)) (atDispatcher d basicBlock s
        (if test s then readAddress + 4 else target)) := by
  simp only [branchImmReg, Option.bind_eq_bind, Option.bind_eq_some_iff, Option.pure_def,
    Option.some.injEq, List.length_cons, List.length_nil, Nat.reduceAdd] at h
  obtain ⟨takenJump, htaken, toSkipped, hto, skippedJump, hskipped, rfl⟩ := h
  have hlen := length_branchJump_le htaken
  refine ⟨pushPairReg 0 1 :: toSkipped :: (takenJump ++ skippedJump), by simp, fun {code s} hcode => ?_⟩
  simp only [codeAt_cons_cell, codeAt_append_cell, cell_add, Nat.reduceAdd] at hcode
  obtain ⟨hpush, hcond, htakenAt, hskippedAt⟩ := hcode
  have hstep := push_run (s := s) hpush
  have hexec := hhelper (s := pushed s) (by omega) hto
  rw [htest (pushed s) s rfl] at hexec
  simp only [cell_add, ← Nat.add_assoc, cell_next, Nat.reduceAdd] at hstep hexec htaken hskipped
  refine Relation.ReflTransGen.head hstep (Relation.ReflTransGen.head (steps_exec hcond hexec) ?_)
  split
  · exact branchJump_run hskipped hskippedAt
  · exact branchJump_run htaken htakenAt

end Stubs

section Guests

/-- The branch with its condition inverted as the scanner and the dispatcher do it. -/
def invert : Inst → Inst
  | .bCond imm19 cond => .bCond imm19 (cond ^^^ 1)
  | .cbzCbnz sf op imm19 rt => .cbzCbnz sf (op ^^^ 1) imm19 rt
  | .tbzTbnz b5 op b40 imm14 rt => .tbzTbnz b5 (op ^^^ 1) b40 imm14 rt
  | i => i

/-- How far a conditional branch goes when it is taken. -/
def distance : Inst → Word
  | .bCond imm19 _ => offset imm19
  | .cbzCbnz _ _ imm19 _ => offset imm19
  | .tbzTbnz _ _ _ imm14 _ => offset imm14
  | _ => 4

theorem low_field (high : BitVec 32) (rt : Reg) : (((high <<< 5) ||| rt.setWidth 32) &&& 0x1F).setWidth 5 = rt := by
  apply BitVec.eq_of_getLsbD_eq
  intro i hi
  have hmask : (0x1F : BitVec 32).getLsbD i = true :=
    (by decide : ∀ j, j < 5 → (0x1F : BitVec 32).getLsbD j = true) i hi
  have h32 : i < 32 := by omega
  simp only [BitVec.getLsbD_setWidth, BitVec.getLsbD_and, BitVec.getLsbD_or, BitVec.getLsbD_shiftLeft, hi, hmask, h32,
    decide_true, Bool.not_true, Bool.true_and, Bool.false_and, Bool.and_false, Bool.false_or, Bool.and_true]

theorem high_field {n : Nat} (hn : n ≤ 27) (high : BitVec n) (rt : Reg) :
    (((high.setWidth 32 <<< 5) ||| rt.setWidth 32) >>> 5).setWidth n = high := by
  apply BitVec.eq_of_getLsbD_eq
  intro i hi
  have h32 : i < 32 := by omega
  have h32' : 5 + i < 32 := by omega
  simp [hi, h32, h32']

theorem cond_field : ∀ cond : BitVec 4, (invertCond (cond.setWidth 64)).setWidth 4 = cond ^^^ 1 := by decide

theorem op_fields : ∀ op : BitVec 1, decide (op.setWidth 64 ≠ (0 : Word)) = (op == 1) ∧
    decide (invertCond (op.setWidth 64) ≠ 0) = (op ^^^ 1 == 1) ∧ decide (op ^^^ 1 ≠ 0) = (op ^^^ 1 == 1) := by
  decide

theorem taken_cbz {sf op : BitVec 1} {imm19 : BitVec 19} {rt : Reg} :
    taken (.cbzCbnz sf op imm19 rt) s = ((operand sf (s.get rt) == 0) == !(op == 1)) := by
  have hop : (op == 0) = !(op == 1) := (by decide : ∀ x : BitVec 1, (x == 0) = !(x == 1)) op
  rw [taken, hop]

theorem bit_number (b5 : BitVec 1) (b40 : BitVec 5) :
    (((b5.setWidth 32 <<< 5) ||| b40.setWidth 32 : BitVec 32).setWidth 6).toNat = b5.toNat * 32 + b40.toNat := by
  revert b5 b40
  decide

theorem bit_field (b5 : BitVec 1) (b40 : BitVec 5) :
    ((b5.setWidth 32 <<< 5) ||| b40.setWidth 32 : BitVec 32) =
      (((b5.setWidth 32 <<< 5) ||| b40.setWidth 32 : BitVec 32).setWidth 6).setWidth 32 := by
  revert b5 b40
  decide

variable {guest : Inst} {m : CodeCacheMeta} {stub : List Inst}

theorem scan_meta (h : scanCondExit d guest readAddress w basicBlock = some (m, stub)) :
    m.exitBranchAddr = w ∧ m.branchTakenAddr = readAddress + distance guest ∧
      m.branchSkippedAddr = readAddress + 4 ∧ m.branchCacheStatus = 0 ∧
      (m.exitBranchType = .condImmA64 ∨ m.exitBranchType = .cbzA64 ∨ m.exitBranchType = .tbzA64) := by
  cases guest with
  | bCond imm19 cond =>
      obtain ⟨stub', -, heq⟩ := Option.map_eq_some_iff.mp h
      obtain ⟨rfl, rfl⟩ := Prod.mk.inj heq
      exact ⟨rfl, rfl, rfl, rfl, Or.inl rfl⟩
  | cbzCbnz sf op imm19 rt =>
      obtain ⟨stub', -, heq⟩ := Option.map_eq_some_iff.mp h
      obtain ⟨rfl, rfl⟩ := Prod.mk.inj heq
      exact ⟨rfl, rfl, rfl, rfl, Or.inr (Or.inl rfl)⟩
  | tbzTbnz b5 op b40 imm14 rt =>
      obtain ⟨stub', -, heq⟩ := Option.map_eq_some_iff.mp h
      obtain ⟨rfl, rfl⟩ := Prod.mk.inj heq
      exact ⟨rfl, rfl, rfl, rfl, Or.inr (Or.inr rfl)⟩
  | _ => exact absurd h (by simp [scanCondExit])

theorem scan_run (h : scanCondExit d guest readAddress w basicBlock = some (m, stub)) :
    ∃ tail, stub = .nop :: .nop :: tail ∧ ∀ {code : Code} {s : State}, CodeAt a64 code (cell w 2) tail →
      Reaches a64 code (s.goto (cell w 2)) (atDispatcher d basicBlock s
        (if taken (invert guest) s then readAddress + 4 else readAddress + distance guest)) := by
  cases guest with
  | bCond imm19 cond =>
      obtain ⟨stub', hstub, heq⟩ := Option.map_eq_some_iff.mp h
      obtain ⟨-, rfl⟩ := Prod.mk.inj heq
      have hrun := branchJumpCond_run hstub
      rw [cond_field] at hrun
      exact hrun
  | cbzCbnz sf op imm19 rt =>
      obtain ⟨stub', hstub, heq⟩ := Option.map_eq_some_iff.mp h
      obtain ⟨-, rfl⟩ := Prod.mk.inj heq
      refine branchImmReg_run (taken (.cbzCbnz sf (op ^^^ 1) imm19 rt)) ?_ ?_ hstub
      · intro s s' hx
        rw [taken_cbz, taken_cbz, State.get, State.get, hx]
      · intro a i k s hk hi
        obtain ⟨hlt, hge⟩ := small_cell a hk
        rw [cbzCbnzHelper_exec hi hlt hge, taken_cbz, (op_fields op).2.2]
  | tbzTbnz b5 op b40 imm14 rt =>
      obtain ⟨stub', hstub, heq⟩ := Option.map_eq_some_iff.mp h
      obtain ⟨-, rfl⟩ := Prod.mk.inj heq
      refine branchImmReg_run (taken (.tbzTbnz b5 (op ^^^ 1) b40 imm14 rt)) ?_ ?_ hstub
      · intro s s' hx
        rw [taken, taken, State.get, State.get, hx]
      · intro a i k s hk hi
        rw [tbzTbnzHelper_exec hi, taken, bit_number, (op_fields op).2.2]
  | _ => exact absurd h (by simp [scanCondExit])

theorem branchImmReg_length {helper : Word → Word → Option Inst}
    (h : branchImmReg d w basicBlock target readAddress helper = some stub) : 3 ≤ stub.length ∧ stub.length ≤ 22 := by
  simp only [branchImmReg, Option.bind_eq_bind, Option.bind_eq_some_iff, Option.pure_def, Option.some.injEq] at h
  obtain ⟨takenJump, htaken, toSkipped, -, skippedJump, hskipped, rfl⟩ := h
  have h1 := length_branchJump_le htaken
  have h2 := length_branchJump_le hskipped
  simp only [List.length_append, List.length_cons, List.length_nil]
  omega

theorem scan_length (h : scanCondExit d guest readAddress w basicBlock = some (m, stub)) :
    3 ≤ stub.length ∧ stub.length ≤ 22 := by
  cases guest with
  | bCond imm19 cond =>
      obtain ⟨stub', hstub, heq⟩ := Option.map_eq_some_iff.mp h
      obtain ⟨-, rfl⟩ := Prod.mk.inj heq
      simp only [branchJumpCond, Option.bind_eq_bind, Option.bind_eq_some_iff, Option.pure_def,
        Option.some.injEq] at hstub
      obtain ⟨jump, -, toSkipped, -, jump', -, rfl⟩ := hstub
      have h1 := length_copyToReg64bits 1 basicBlock
      have h2 := length_copyToReg64bits 0 (readAddress + offset imm19)
      have h3 := length_copyToReg64bits 0 (readAddress + 4)
      simp only [List.length_append, List.length_cons, List.length_nil]
      omega
  | cbzCbnz sf op imm19 rt =>
      obtain ⟨stub', hstub, heq⟩ := Option.map_eq_some_iff.mp h
      obtain ⟨-, rfl⟩ := Prod.mk.inj heq
      exact branchImmReg_length hstub
  | tbzTbnz b5 op b40 imm14 rt =>
      obtain ⟨stub', hstub, heq⟩ := Option.map_eq_some_iff.mp h
      obtain ⟨-, rfl⟩ := Prod.mk.inj heq
      exact branchImmReg_length hstub
  | _ => exact absurd h (by simp [scanCondExit])

theorem exec_guest (h : scanCondExit d guest readAddress w basicBlock = some (m, stub)) (s : State) :
    (exec guest (s.goto readAddress)).pc =
      if taken guest s then readAddress + distance guest else readAddress + 4 := by
  cases guest with
  | bCond imm19 cond =>
      change (branch _ (taken (.bCond imm19 cond) s) _).pc = _
      rw [branch]
      split <;> rfl
  | cbzCbnz sf op imm19 rt =>
      change (branch _ (taken (.cbzCbnz sf op imm19 rt) s) _).pc = _
      rw [branch]
      split <;> rfl
  | tbzTbnz b5 op b40 imm14 rt =>
      change (branch _ (taken (.tbzTbnz b5 op b40 imm14 rt) s) _).pc = _
      rw [branch]
      split <;> rfl
  | _ => exact absurd h (by simp [scanCondExit])

/-- The first word after a link: the branch of the guest, or its inversion, over
the second word. -/
theorem insert_exec (h : scanCondExit d guest readAddress w basicBlock = some (m, stub)) (inverted : Bool)
    {is : List Inst}
    (hins : insertCondExitBranch m w (if inverted then invertCond m.branchCondition else m.branchCondition) = some is) :
    ∃ i, is = [i] ∧ ∀ s : State, exec i (s.goto w) =
      if taken (if inverted then invert guest else guest) s then s.goto (cell w 2) else s.goto (cell w 1) := by
  cases guest with
  | bCond imm19 cond =>
      obtain ⟨stub', -, heq⟩ := Option.map_eq_some_iff.mp h
      obtain ⟨rfl, rfl⟩ := Prod.mk.inj heq
      obtain ⟨i, hi, rfl⟩ := Option.map_eq_some_iff.mp hins
      refine ⟨i, rfl, fun s => ?_⟩
      rw [bCondHelper_exec hi]
      cases inverted with
      | true => rw [if_pos rfl, if_pos rfl, cond_field]; rfl
      | false => simp [taken, cell]
  | cbzCbnz sf op imm19 rt =>
      obtain ⟨stub', -, heq⟩ := Option.map_eq_some_iff.mp h
      obtain ⟨rfl, rfl⟩ := Prod.mk.inj heq
      obtain ⟨i, hi, rfl⟩ := Option.map_eq_some_iff.mp hins
      obtain ⟨hlt, hge⟩ := small_cell w (k := 2) (by decide)
      refine ⟨i, rfl, fun s => ?_⟩
      rw [cbzCbnzHelper_exec hi hlt hge, low_field, high_field (by decide)]
      cases inverted with
      | true => rw [if_pos rfl, if_pos rfl, (op_fields op).2.1, invert, taken_cbz]; rfl
      | false => rw [if_neg Bool.false_ne_true, if_neg Bool.false_ne_true, (op_fields op).1, taken_cbz]; rfl
  | tbzTbnz b5 op b40 imm14 rt =>
      obtain ⟨stub', -, heq⟩ := Option.map_eq_some_iff.mp h
      obtain ⟨rfl, rfl⟩ := Prod.mk.inj heq
      obtain ⟨i, hi, rfl⟩ := Option.map_eq_some_iff.mp hins
      have hbit := bit_field b5 b40
      have hnumber := bit_number b5 b40
      generalize (b5.setWidth 32 <<< 5 ||| b40.setWidth 32 : BitVec 32) = bit at hi hbit hnumber
      rw [hbit, high_field (by decide), low_field] at hi
      refine ⟨i, rfl, fun s => ?_⟩
      rw [tbzTbnzHelper_exec hi, hnumber]
      cases inverted with
      | true => rw [if_pos rfl, if_pos rfl, (op_fields op).2.1, invert, taken]; rfl
      | false => rw [if_neg Bool.false_ne_true, if_neg Bool.false_ne_true, (op_fields op).1, taken]; rfl
  | _ => exact absurd h (by simp [scanCondExit])

end Guests

end Mambo.A64ExitLinks
