import Mambo.A64HashLookup

namespace Mambo.A64LookupRuns

open Bytes ByteMemory CodeRuns A64 A64Emit CodeCacheHash HashRefines TableMemory A64HashLookup Probing

variable {code : Code} {entries readAddress : Word} {rn : Reg} {link : Bool} {s u : State} {a v : Word}

section Registers

theorem regTmp_ne_zero : regTmp rn link ≠ 0 := by
  rw [regTmp]
  split <;> decide

theorem regTmp_ne_xzr : regTmp rn link ≠ xzr := by
  rw [regTmp]
  split <;> decide

theorem regTmp_ne_lr : regTmp rn link ≠ lr := by
  rw [regTmp]
  split <;> decide

theorem not_useX2 (h : useX2 rn link = false) : rn ≠ 0 ∧ rn ≠ 1 ∧ ¬ (link = true ∧ rn = lr) := by
  rw [useX2, decide_eq_false_iff_not, not_or, not_or] at h
  exact h

theorem regSpc_ne_zero : regSpc rn link ≠ 0 := by
  rw [regSpc]
  split
  · decide
  · rename_i h
    exact (not_useX2 (Bool.not_eq_true _ ▸ h)).1

theorem regSpc_ne_regTmp : regSpc rn link ≠ regTmp rn link := by
  rw [regSpc, regTmp]
  split
  · decide
  · rename_i h
    exact (not_useX2 (Bool.not_eq_true _ ▸ h)).2.1

theorem regSpc_ne_lr (hlink : link = true) : regSpc rn link ≠ lr := by
  rw [regSpc]
  split
  · decide
  · rename_i h
    exact fun heq => (not_useX2 (Bool.not_eq_true _ ▸ h)).2.2 ⟨hlink, heq⟩

end Registers

section Saved

def pushedReg (r : Reg) (s : State) : State :=
  { s with sp := s.sp - 16, mem := store64 s.mem (s.sp - 16) (s.get r) }

theorem pushReg_run {r : Reg} (h : code a = some (pushReg r)) :
    Steps a64 code (s.goto a) ((pushedReg r s).goto (a + 4)) := by
  refine steps_exec h ?_
  have himm : (-16 : BitVec 9).signExtend 64 = -(16 : Word) := by decide
  rw [pushReg, exec, State.getBase, if_pos rfl, himm, ← sub_eq_add_neg]
  rfl

theorem orr_run {r r' : Reg} (h : code a = some (.orr r xzr r')) :
    Steps a64 code (s.goto a) ((s.set r' (s.get r)).goto (a + 4)) := by
  refine steps_exec h ?_
  have hzero : (s.goto a).get xzr = 0 := rfl
  rw [exec, hzero, State.set_goto, State.next_goto, State.get_goto]
  congr 2
  exact BitVec.zero_or

def saved (rn : Reg) (link : Bool) (s : State) : State :=
  if useX2 rn link then pushedReg 2 (pushed s) else pushed s

def Scratch (rn : Reg) (link : Bool) (r : Reg) : Prop := r = 0 ∨ r = regTmp rn link ∨ link = true ∧ r = lr

/-- A state inside the lookup: the target is at hand, the registers are saved or
as they were. -/
structure Saved (rn : Reg) (link : Bool) (s u : State) : Prop where
  spc : u.get (regSpc rn link) = s.get rn
  sp : u.sp = (saved rn link s).sp
  mem : u.mem = (saved rn link s).mem
  flags : u.flags = s.flags
  others : ∀ r, r ≠ 0 → r ≠ 1 → ¬ (useX2 rn link = true ∧ r = 2) → ¬ (link = true ∧ r = lr) → u.x r = s.x r

theorem scratch_ne_spc {r : Reg} (h : Scratch rn link r) : regSpc rn link ≠ r := by
  rcases h with rfl | rfl | ⟨hlink, rfl⟩
  · exact regSpc_ne_zero
  · exact regSpc_ne_regTmp
  · exact regSpc_ne_lr hlink

theorem Saved.set (h : Saved rn link s u) {r : Reg} (hr : Scratch rn link r) (v : Word) :
    Saved rn link s (u.set r v) := by
  refine ⟨?_, by rw [State.set_sp, h.sp], by rw [State.set_mem, h.mem], by rw [State.set_flags, h.flags], ?_⟩
  · rw [State.get_set_of_ne (scratch_ne_spc hr), h.spc]
  · intro r' h0 h1 h2 hlr
    rw [State.set_x_of_ne, h.others r' h0 h1 h2 hlr]
    rintro rfl
    rcases hr with rfl | rfl | hl
    · exact h0 rfl
    · by_cases hx : useX2 rn link
      · exact h2 ⟨hx, by rw [regTmp, if_pos hx]⟩
      · exact h1 (by rw [regTmp, if_neg hx])
    · exact hlr hl

end Saved

section Head

def moves (rn : Reg) (link : Bool) : List Inst :=
  if useX2 rn link then pushReg 2 :: (if rn ≠ regSpc rn link then [.orr rn xzr (regSpc rn link)] else []) else []

theorem moves_run (hcode : CodeAt a64 code a (pushPairReg 0 1 :: moves rn link)) :
    ∃ u, Reaches a64 code (s.goto a) (u.goto (cell a (1 + (moves rn link).length))) ∧ Saved rn link s u := by
  rw [codeAt_cons_cell] at hcode
  obtain ⟨hpush, hmoves⟩ := hcode
  have hstep : Steps a64 code (s.goto a) ((pushed s).goto (cell a 1)) := push_run hpush
  by_cases hx : useX2 rn link
  · have hspc : regSpc rn link = 1 := if_pos hx
    rw [moves, if_pos hx, hspc, codeAt_cons_cell] at hmoves
    have hstep' := pushReg_run (s := pushed s) hmoves.1
    rw [cell_next] at hstep'
    have hreach : Reaches a64 code (s.goto a) ((pushedReg 2 (pushed s)).goto (cell a 2)) :=
      (Relation.ReflTransGen.single hstep).tail hstep'
    have hsaved : saved rn link s = pushedReg 2 (pushed s) := if_pos hx
    by_cases hrn : rn = 1
    · subst hrn
      refine ⟨pushedReg 2 (pushed s), ?_, ?_⟩
      · rw [moves, if_pos hx, hspc, if_neg (by simp)]
        exact hreach
      · exact ⟨by rw [hspc]; rfl, by rw [hsaved], by rw [hsaved], rfl, fun _ _ _ _ _ => rfl⟩
    · refine ⟨(pushedReg 2 (pushed s)).set 1 (s.get rn), ?_, ?_⟩
      · have horr := hmoves.2
        rw [if_pos hrn, codeAt_cons_cell, cell_add] at horr
        have hlast := orr_run (s := pushedReg 2 (pushed s)) horr.1
        rw [cell_next] at hlast
        rw [moves, if_pos hx, hspc, if_pos hrn]
        exact hreach.tail hlast
      · refine ⟨by rw [hspc, State.get_set_self (by decide)], by rw [hsaved, State.set_sp], by
          rw [hsaved, State.set_mem], by rw [State.set_flags]; rfl, fun r _ h1 _ _ => ?_⟩
        rw [State.set_x_of_ne h1]
        rfl
  · have hspc : regSpc rn link = rn := if_neg hx
    have hsaved : saved rn link s = pushed s := if_neg hx
    refine ⟨pushed s, ?_, ?_⟩
    · rw [moves, if_neg hx]
      exact Relation.ReflTransGen.single hstep
    · exact ⟨by rw [hspc]; rfl, by rw [hsaved], by rw [hsaved], rfl, fun _ _ _ _ _ => rfl⟩

structure Inside (rn : Reg) (link : Bool) (readAddress : Word) (s u : State) : Prop where
  saved : Saved rn link s u
  ret : link = true → u.x lr = readAddress + 4

theorem Inside.set (h : Inside rn link readAddress s u) {r : Reg} (hr : r = 0 ∨ r = regTmp rn link) (v : Word) :
    Inside rn link readAddress s (u.set r v) := by
  have hne : lr ≠ r := by
    rcases hr with rfl | rfl
    · decide
    · exact regTmp_ne_lr.symm
  refine ⟨h.saved.set (hr.imp_right Or.inl) v, fun hlink => ?_⟩
  rw [State.set_x_of_ne hne, h.ret hlink]

theorem link_run (hsaved : Saved rn link s u)
    (hcode : CodeAt a64 code a (if link then copyToReg64bits lr (readAddress + 4) else [])) :
    ∃ u', Reaches a64 code (u.goto a)
        (u'.goto (cell a (if link then copyToReg64bits lr (readAddress + 4) else []).length)) ∧
      Inside rn link readAddress s u' := by
  cases link with
  | false =>
      refine ⟨u, ?_, hsaved, fun h => absurd h Bool.false_ne_true⟩
      rw [if_neg Bool.false_ne_true, List.length_nil, cell_zero]
  | true =>
      refine ⟨u.set lr (readAddress + 4), ?_, hsaved.set (Or.inr (Or.inr ⟨rfl, rfl⟩)) _, fun _ => ?_⟩
      · rw [if_pos rfl] at hcode ⊢
        exact copyToReg64bits_run hcode
      · have hx : (u.set lr (readAddress + 4)).get lr = readAddress + 4 := State.get_set_self (by decide)
        exact hx

theorem andImm_run {r r' : Reg} {immr imms : BitVec 6} (h : code a = some (.andImm immr imms r r')) :
    Steps a64 code (s.goto a) ((s.set r' (s.get r &&& bitMask immr imms)).goto (a + 4)) := by
  refine steps_exec h ?_
  rw [exec, State.get_goto, State.set_goto, State.next_goto]

theorem add_run {r r' r'' : Reg} {imm6 : BitVec 6} (h : code a = some (.add r imm6 r' r'')) :
    Steps a64 code (s.goto a) ((s.set r'' (s.get r' + s.get r <<< imm6.toNat)).goto (a + 4)) := by
  refine steps_exec h ?_
  rw [exec, State.get_goto, State.get_goto, State.set_goto, State.next_goto]

theorem index_run (h : Inside rn link readAddress s u)
    (hcode : CodeAt a64 code a (copyToReg64bits 0 entries ++
      [.andImm 62 18 (regSpc rn link) (regTmp rn link), .add (regTmp rn link) 2 0 0])) :
    ∃ u', Reaches a64 code (u.goto a) (u'.goto (cell a ((copyToReg64bits 0 entries).length + 2))) ∧
      Inside rn link readAddress s u' ∧ u'.get 0 = slot entries (home 2 (s.get rn)) := by
  simp only [codeAt_append_cell, codeAt_cons_cell, cell_add] at hcode
  obtain ⟨hcopy, hand, hadd, -⟩ := hcode
  have hmask : bitMask 62 18 = BitVec.ofNat 64 codeCacheHashSize <<< 2 := by decide
  have htwo : (2 : BitVec 6).toNat = 4 - 2 := rfl
  have h1 := h.set (Or.inl rfl) entries
  have hcopyRun := copyToReg64bits_run (s := u) hcopy
  have handRun := andImm_run (s := u.set 0 entries) hand
  rw [h1.saved.spc, hmask, cell_next] at handRun
  have h2 := h1.set (Or.inr rfl) (s.get rn &&& BitVec.ofNat 64 codeCacheHashSize <<< 2)
  have haddRun := add_run (s := (u.set 0 entries).set (regTmp rn link)
    (s.get rn &&& BitVec.ofNat 64 codeCacheHashSize <<< 2)) hadd
  rw [State.get_set_of_ne regTmp_ne_zero.symm, State.get_set_self (by decide), State.get_set_self regTmp_ne_xzr,
    htwo, slot_home entries (s.get rn) (by decide), cell_next] at haddRun
  exact ⟨_, (hcopyRun.tail handRun).tail haddRun, h2.set (Or.inl rfl) _, State.get_set_self (by decide)⟩

theorem head_run (hcode : CodeAt a64 code a (lookupHead entries readAddress rn link)) :
    ∃ u, Reaches a64 code (s.goto a) (u.goto (cell a (lookupHead entries readAddress rn link).length)) ∧
      Inside rn link readAddress s u ∧ u.get 0 = slot entries (home 2 (s.get rn)) := by
  have heq : lookupHead entries readAddress rn link = (pushPairReg 0 1 :: moves rn link) ++
      ((if link then copyToReg64bits lr (readAddress + 4) else []) ++ (copyToReg64bits 0 entries ++
        [.andImm 62 18 (regSpc rn link) (regTmp rn link), .add (regTmp rn link) 2 0 0])) := rfl
  rw [heq] at hcode ⊢
  rw [codeAt_append_cell, codeAt_append_cell] at hcode
  obtain ⟨hmoves, hlink, hindex⟩ := hcode
  obtain ⟨u₁, hrun₁, hsaved⟩ := moves_run (s := s) hmoves
  rw [Nat.add_comm] at hrun₁
  obtain ⟨u₂, hrun₂, hinside⟩ := link_run hsaved hlink
  obtain ⟨u₃, hrun₃, hinside', hslot⟩ := index_run hinside hindex
  refine ⟨u₃, ?_, hinside', hslot⟩
  have hend := (hrun₁.trans hrun₂).trans hrun₃
  rw [cell_add, cell_add] at hend
  rw [List.length_append, List.length_append, List.length_append, List.length_cons]
  exact hend

end Head

section Loop

variable {t : HashTable 64} {loop notFound : Word} {toNotFound toLoop : Inst}

theorem ldrPost_run {r : Reg} (h : code a = some (.ldrPost 16 0 r)) :
    Steps a64 code (s.goto a) (((s.set r (load64 s.mem (s.get 0))).set 0 (s.get 0 + 16)).goto (a + 4)) := by
  refine steps_exec h ?_
  have himm : (16 : BitVec 9).signExtend 64 = (16 : Word) := by decide
  rw [exec, State.getBase, if_neg (by decide), State.setBase, if_neg (by decide), himm, State.set_goto,
    State.set_goto, State.next_goto]
  rfl

theorem sub_run {r r' r'' : Reg} (h : code a = some (.sub r 0 r' r'')) :
    Steps a64 code (s.goto a) ((s.set r'' (s.get r' - s.get r)).goto (a + 4)) := by
  refine steps_exec h ?_
  have hzero : s.get r <<< (0 : BitVec 6).toNat = s.get r := BitVec.shiftLeft_zero _
  rw [exec, State.get_goto, State.get_goto, hzero, State.set_goto, State.next_goto]

theorem operand_one (v : Word) : operand 1 v = v := if_pos rfl

/-- The four instructions of the loop at an address. -/
structure LoopAt (code : Code) (rn : Reg) (link : Bool) (loop notFound : Word) : Prop where
  load : code (cell loop 0) = some (.ldrPost 16 0 (regTmp rn link))
  leave : ∃ i, code (cell loop 1) = some i ∧ ∀ s : State, exec i (s.goto (cell loop 1)) =
    if s.get (regTmp rn link) == 0 then s.goto notFound else s.goto (cell loop 2)
  compare : code (cell loop 2) = some (.sub (regSpc rn link) 0 (regTmp rn link) (regTmp rn link))
  again : ∃ i, code (cell loop 3) = some i ∧ ∀ s : State, exec i (s.goto (cell loop 3)) =
    if s.get (regTmp rn link) == 0 then s.goto (cell loop 4) else s.goto loop

theorem LoopAt.round (h : LoopAt code rn link loop notFound) (hin : Inside rn link readAddress s u) {key : Word}
    (hload : load64 u.mem (u.get 0) = key) :
    ∃ u', Reaches a64 code (u.goto loop)
        (u'.goto (if key = 0 then notFound else if key = s.get rn then cell loop 4 else loop)) ∧
      Inside rn link readAddress s u' ∧ u'.get 0 = u.get 0 + 16 := by
  obtain ⟨toNotFound, hleave, hleaveExec⟩ := h.leave
  obtain ⟨toLoop, hagain, hagainExec⟩ := h.again
  have hload' := h.load
  rw [cell_zero] at hload'
  have hloadRun := ldrPost_run (s := u) hload'
  rw [hload] at hloadRun
  let u₁ := (u.set (regTmp rn link) key).set 0 (u.get 0 + 16)
  have hin₁ : Inside rn link readAddress s u₁ := (hin.set (Or.inr rfl) key).set (Or.inl rfl) _
  have htmp₁ : u₁.get (regTmp rn link) = key :=
    (State.get_set_of_ne regTmp_ne_zero).trans (State.get_set_self regTmp_ne_xzr)
  have hx₁ : u₁.get 0 = u.get 0 + 16 := State.get_set_self (by decide)
  have hleaveRun : Steps a64 code (u₁.goto (cell loop 1)) _ := steps_exec hleave (hleaveExec u₁)
  have hreach₁ : Reaches a64 code (u.goto loop) (u₁.goto (cell loop 1)) := Relation.ReflTransGen.single hloadRun
  rw [htmp₁] at hleaveRun
  by_cases hzero : key = 0
  · rw [if_pos (beq_iff_eq.mpr hzero)] at hleaveRun
    rw [if_pos hzero]
    exact ⟨u₁, hreach₁.tail hleaveRun, hin₁, hx₁⟩
  · rw [if_neg (fun hbeq => hzero (beq_iff_eq.mp hbeq))] at hleaveRun
    rw [if_neg hzero]
    have hsubRun := sub_run (s := u₁) h.compare
    rw [htmp₁, hin₁.saved.spc, cell_next] at hsubRun
    let u₂ := u₁.set (regTmp rn link) (key - s.get rn)
    have hagainRun : Steps a64 code (u₂.goto (cell loop 3)) _ := steps_exec hagain (hagainExec u₂)
    have htmp₂ : u₂.get (regTmp rn link) = key - s.get rn := State.get_set_self regTmp_ne_xzr
    have hreach₂ : Reaches a64 code (u.goto loop) (u₂.goto (cell loop 3)) :=
      (hreach₁.tail hleaveRun).tail hsubRun
    have hx₂ : u₂.get 0 = u.get 0 + 16 := (State.get_set_of_ne regTmp_ne_zero.symm).trans hx₁
    refine ⟨u₂, ?_, hin₁.set (Or.inr rfl) _, hx₂⟩
    rw [htmp₂] at hagainRun
    by_cases heq : key = s.get rn
    · rw [if_pos (beq_iff_eq.mpr (sub_eq_zero.mpr heq))] at hagainRun
      rw [if_pos heq]
      exact hreach₂.tail hagainRun
    · rw [if_neg (fun hbeq => heq (sub_eq_zero.mp (beq_iff_eq.mp hbeq)))] at hagainRun
      rw [if_neg heq]
      exact hreach₂.tail hagainRun

theorem LoopAt.round_slot (h : LoopAt code rn link loop notFound)
    (htable : InMemory t entries (saved rn link s).mem) {index : Nat} (hindex : index < slots)
    (hin : Inside rn link readAddress s u) (hslot : u.get 0 = slot entries index) :
    ∃ u', Reaches a64 code (u.goto loop)
        (u'.goto (if keys t index = 0 then notFound else if keys t index = s.get rn then cell loop 4 else loop)) ∧
      Inside rn link readAddress s u' ∧ u'.get 0 = slot entries (index + 1) := by
  have hload : load64 u.mem (u.get 0) = keys t index := by
    rw [hin.saved.mem, hslot, htable.key index hindex, keys_of_lt t hindex]
  obtain ⟨u', hreach, hin', hx⟩ := h.round hin hload
  rw [hslot, slot_next] at hx
  exact ⟨u', hreach, hin', hx⟩

theorem LoopAt.run (h : LoopAt code rn link loop notFound) (htable : InMemory t entries (saved rn link s).mem)
    (hkey : s.get rn ≠ 0) {n index : Nat} (hin : Inside rn link readAddress s u)
    (hs : StopsAt 0 (keys t) (s.get rn) index (index + n)) (hlt : index + n < slots)
    (hslot : u.get 0 = slot entries index) :
    ∃ u', Reaches a64 code (u.goto loop)
        (u'.goto (if keys t (index + n) = s.get rn then cell loop 4 else notFound)) ∧
      Inside rn link readAddress s u' ∧ u'.get 0 = slot entries (index + n + 1) := by
  induction n generalizing index u with
  | zero =>
      obtain ⟨u', hreach, hin', hx⟩ := h.round_slot htable hlt hin hslot
      refine ⟨u', ?_, hin', hx⟩
      have hhit := hs.hit
      rw [Nat.add_zero] at hhit hreach ⊢
      rcases hhit with hhit | hhit
      · rw [hhit, if_neg hkey, if_pos rfl] at hreach
        rwa [if_pos hhit]
      · rw [hhit, if_pos rfl] at hreach
        rwa [hhit, if_neg hkey.symm]
  | succ n ih =>
      obtain ⟨u', hreach, hin', hx⟩ := h.round_slot htable (by omega) hin hslot
      obtain ⟨hne, hfull⟩ := hs.pass index le_rfl (by omega)
      rw [if_neg hfull, if_neg hne] at hreach
      have hsum : index + (n + 1) = index + 1 + n := by omega
      rw [hsum] at hs hlt ⊢
      obtain ⟨v, hrest, hinv, hxv⟩ := ih hin' (hs.next hne hfull) hlt hx
      exact ⟨v, hreach.trans hrest, hinv, hxv⟩

end Loop

section Tails

/-- A state behind the loop: the target is no longer needed. -/
structure Kept (rn : Reg) (link : Bool) (readAddress : Word) (s u : State) : Prop where
  sp : u.sp = (saved rn link s).sp
  mem : u.mem = (saved rn link s).mem
  flags : u.flags = s.flags
  ret : link = true → u.x lr = readAddress + 4
  others : ∀ r, r ≠ 0 → r ≠ 1 → ¬ (useX2 rn link = true ∧ r = 2) → ¬ (link = true ∧ r = lr) → u.x r = s.x r

theorem Inside.kept (h : Inside rn link readAddress s u) : Kept rn link readAddress s u :=
  ⟨h.saved.sp, h.saved.mem, h.saved.flags, h.ret, h.saved.others⟩

theorem Kept.set (h : Kept rn link readAddress s u) {r : Reg} (hr : r = 0 ∨ r = 1) (v : Word) :
    Kept rn link readAddress s (u.set r v) := by
  refine ⟨by rw [State.set_sp, h.sp], by rw [State.set_mem, h.mem], by rw [State.set_flags, h.flags], ?_, ?_⟩
  · intro hlink
    have hne : lr ≠ r := by
      rcases hr with rfl | rfl <;> decide
    rw [State.set_x_of_ne hne, h.ret hlink]
  · intro r' h0 h1 h2 hlr
    have hne : r' ≠ r := by
      rcases hr with rfl | rfl
      · exact h0
      · exact h1
    rw [State.set_x_of_ne hne, h.others r' h0 h1 h2 hlr]

/-- The guest state as the prologue of a block or the dispatcher finds it: x0 and
x1 on the stack, lr set by a call, and the rest as it was. -/
structure Left (link : Bool) (readAddress : Word) (s u : State) : Prop where
  sp : u.sp = s.sp - 16
  x0 : load64 u.mem u.sp = s.x 0
  x1 : load64 u.mem (u.sp + 8) = s.x 1
  flags : u.flags = s.flags
  ret : link = true → u.x lr = readAddress + 4
  others : ∀ r, r ≠ 0 → r ≠ 1 → ¬ (link = true ∧ r = lr) → u.x r = s.x r
  mem : ∀ a, 32 ≤ (a - (s.sp - 32)).toNat → u.mem a = s.mem a

theorem Left.goto (h : Left link readAddress s u) (p : Word) : Left link readAddress s (u.goto p) :=
  ⟨h.sp, h.x0, h.x1, h.flags, h.ret, h.others, h.mem⟩

theorem pushed_mem (s : State) :
    (pushed s).mem = store64 (store64 s.mem (s.sp - 16) (s.x 0)) (s.sp - 16 + 8) (s.x 1) := rfl

theorem pushed_x0 (s : State) : load64 (pushed s).mem (s.sp - 16) = s.x 0 := by
  have hapart : Apart (s.sp - 16) (s.sp - 16 + 8) := apart_add _ (d := 8) le_rfl (by decide)
  rw [pushed_mem, load64_store64_apart hapart.symm, load64_store64 (by decide)]

theorem pushed_x1 (s : State) : load64 (pushed s).mem (s.sp - 16 + 8) = s.x 1 := by
  rw [pushed_mem, load64_store64 (by decide)]

theorem store64_below {m : Word → Byte} {b x v : Word} {d : Nat} (hd : d ≤ 24) (hx : 32 ≤ (x - b).toNat) :
    store64 m (b + BitVec.ofNat 64 d) v x = m x := by
  have hnat : (BitVec.ofNat 64 d).toNat = d := by
    rw [BitVec.toNat_ofNat, Nat.mod_eq_of_lt (by omega)]
  refine store64_of_ge ?_
  rw [← sub_sub, BitVec.toNat_sub_of_le (by rw [BitVec.le_def, hnat]; omega), hnat]
  omega

theorem stack_slots (sp : Word) : sp - 16 = sp - 32 + BitVec.ofNat 64 16 ∧ sp - 16 + 8 = sp - 32 + BitVec.ofNat 64 24 ∧
    sp - 16 - 16 = sp - 32 + BitVec.ofNat 64 0 := by
  refine ⟨?_, ?_, ?_⟩ <;> bv_omega

theorem pushed_outside {x : Word} (s : State) (hx : 32 ≤ (x - (s.sp - 32)).toNat) : (pushed s).mem x = s.mem x := by
  obtain ⟨h16, h24, -⟩ := stack_slots s.sp
  rw [pushed_mem, h24, h16, store64_below (by decide) hx, store64_below (by decide) hx]

theorem pushedReg_mem (s : State) : (∀ d, d = 16 ∨ d = 24 →
      load64 (pushedReg 2 (pushed s)).mem (s.sp - 32 + BitVec.ofNat 64 d) =
        load64 (pushed s).mem (s.sp - 32 + BitVec.ofNat 64 d)) ∧
    load64 (pushedReg 2 (pushed s)).mem (s.sp - 16 - 16) = s.x 2 ∧
    ∀ x, 32 ≤ (x - (s.sp - 32)).toNat → (pushedReg 2 (pushed s)).mem x = s.mem x := by
  obtain ⟨h16, h24, h0⟩ := stack_slots s.sp
  have hmem : (pushedReg 2 (pushed s)).mem = store64 (pushed s).mem (s.sp - 16 - 16) (s.x 2) := rfl
  refine ⟨fun d hd => ?_, ?_, fun x hx => ?_⟩
  · have hapart : Apart (s.sp - 32) (s.sp - 32 + BitVec.ofNat 64 d) := apart_add _ (by omega) (by omega)
    rw [hmem, h0, BitVec.add_zero, load64_store64_apart hapart]
  · rw [hmem, load64_store64 (by decide)]
  · rw [hmem, h0, store64_below (by decide) hx, pushed_outside s hx]

def poppedReg (r : Reg) (u : State) : State :=
  { u with sp := u.sp + 16, x := Function.update u.x r (load64 u.mem u.sp) }

theorem poppedReg_self {r : Reg} : (poppedReg r u).x r = load64 u.mem u.sp := Function.update_self ..

theorem popReg_run {r : Reg} (hr : r ≠ xzr) (h : code a = some (popReg r)) :
    Steps a64 code (u.goto a) ((poppedReg r u).goto (a + 4)) := by
  refine steps_exec h ?_
  have himm : (16 : BitVec 9).signExtend 64 = (16 : Word) := by decide
  rw [popReg, exec, State.getBase, if_pos rfl, State.setBase, if_pos rfl, himm, State.set, if_neg hr]
  rfl

theorem popScratch_run (h : Kept rn link readAddress s u) (hcode : CodeAt a64 code a (popScratch rn link)) :
    ∃ u', Reaches a64 code (u.goto a) (u'.goto (cell a (popScratch rn link).length)) ∧
      Left link readAddress s u' ∧ u'.x 0 = u.x 0 ∧ u'.x 1 = u.x 1 := by
  obtain ⟨h16, h24, h0⟩ := stack_slots s.sp
  by_cases hx : useX2 rn link
  · rw [popScratch, if_pos hx] at hcode ⊢
    have hsaved : saved rn link s = pushedReg 2 (pushed s) := if_pos hx
    have hsp : u.sp = s.sp - 16 - 16 := h.sp.trans (by rw [hsaved]; rfl)
    have hmem := h.mem
    rw [hsaved] at hmem
    obtain ⟨hpair, hx2, hout⟩ := pushedReg_mem s
    have hload : load64 u.mem u.sp = s.x 2 := by rw [hmem, hsp, hx2]
    have hother : ∀ r, r ≠ 2 → (poppedReg 2 u).x r = u.x r := fun r hr => Function.update_of_ne hr _ _
    have hspEnd : (poppedReg 2 u).sp = s.sp - 16 := by rw [poppedReg, hsp, sub_add_cancel]
    have hmemEnd : (poppedReg 2 u).mem = (pushedReg 2 (pushed s)).mem := hmem
    have hpop := popReg_run (u := u) (by decide) hcode.1
    refine ⟨poppedReg 2 u, Relation.ReflTransGen.single hpop, ?_, hother 0 (by decide), hother 1 (by decide)⟩
    refine ⟨hspEnd, ?_, ?_, h.flags, fun hlink => ?_, fun r hr0 hr1 hlr => ?_, fun x hx => ?_⟩
    · rw [hspEnd, hmemEnd, h16, hpair 16 (Or.inl rfl), ← h16, pushed_x0]
    · rw [hspEnd, hmemEnd, h24, hpair 24 (Or.inr rfl), ← h24, pushed_x1]
    · rw [hother lr (by decide), h.ret hlink]
    · by_cases hr2 : r = 2
      · subst hr2
        rw [poppedReg_self, hload]
      · rw [hother r hr2, h.others r hr0 hr1 (fun hr => hr2 hr.2) hlr]
    · rw [hmemEnd, hout x hx]
  · rw [popScratch, if_neg hx] at hcode ⊢
    have hsaved : saved rn link s = pushed s := if_neg hx
    have hsp : u.sp = s.sp - 16 := h.sp.trans (by rw [hsaved]; rfl)
    have hmem := h.mem
    rw [hsaved] at hmem
    refine ⟨u, by rw [List.length_nil, cell_zero], ?_, rfl, rfl⟩
    refine ⟨hsp, ?_, ?_, h.flags, h.ret, fun r hr0 hr1 => ?_, fun x hx => ?_⟩
    · rw [hmem, hsp, pushed_x0]
    · rw [hmem, hsp, pushed_x1]
    · exact h.others r hr0 hr1 (fun hr => hx hr.1)
    · rw [hmem, pushed_outside s hx]

theorem ldur_run {r : Reg} (h : code a = some (.ldur (-8) 0 r)) :
    Steps a64 code (u.goto a) ((u.set r (load64 u.mem (u.get 0 - 8))).goto (a + 4)) := by
  refine steps_exec h ?_
  have himm : (-8 : BitVec 9).signExtend 64 = -(8 : Word) := by decide
  rw [exec, State.getBase, if_neg (by decide), himm, ← sub_eq_add_neg, State.set_goto, State.next_goto]
  rfl

theorem found_run {value : Word} (h : Inside rn link readAddress s u) (hvalue : load64 u.mem (u.get 0 - 8) = value)
    (hcode : CodeAt a64 code a (found rn link)) :
    ∃ u', Reaches a64 code (u.goto a) (u'.goto value) ∧ Left link readAddress s u' := by
  rw [found, codeAt_append_cell, codeAt_append_cell] at hcode
  obtain ⟨⟨hldur, hpop⟩, hbr⟩ := hcode
  have hldurRun := ldur_run (u := u) hldur.1
  rw [hvalue] at hldurRun
  obtain ⟨u', hpopRun, hleft, hx0, -⟩ := popScratch_run (h.kept.set (Or.inl rfl) value) hpop
  have hset : (u.set 0 value).get 0 = value := State.get_set_self (by decide)
  have hget : u'.get 0 = value := hx0.trans hset
  refine ⟨u', ?_, hleft⟩
  rw [cell_add] at hpopRun
  rw [List.length_append] at hbr
  have hbrRun : Steps a64 code (u'.goto (cell a (1 + (popScratch rn link).length))) (u'.goto value) :=
    steps_exec hbr.1 (by rw [exec, State.get_goto, hget, State.goto_goto])
  exact (Relation.ReflTransGen.head hldurRun hpopRun).tail hbrRun

/-- The end for a key that is missing: the dispatcher, with the target and the block. -/
theorem missing_run {basicBlock dispatcherAddr : Word} {jump : Inst} (h : Inside rn link readAddress s u)
    (hcode : CodeAt a64 code a (missing basicBlock rn link))
    (hjump : branchHelper (cell a (missing basicBlock rn link).length) dispatcherAddr = some jump)
    (hcodeJump : code (cell a (missing basicBlock rn link).length) = some jump) :
    ∃ u', Reaches a64 code (u.goto a) (u'.goto dispatcherAddr) ∧ Left link readAddress s u' ∧
      u'.x 0 = s.get rn ∧ u'.x 1 = basicBlock := by
  rw [missing] at hcode hjump hcodeJump
  rw [codeAt_append_cell, codeAt_append_cell] at hcode
  obtain ⟨⟨horr, hcopy⟩, hpop⟩ := hcode
  have horrRun := orr_run (s := u) horr.1
  rw [h.saved.spc] at horrRun
  have hcopyRun := copyToReg64bits_run (s := u.set 0 (s.get rn)) hcopy
  rw [cell_add, ← List.length_append] at hcopyRun
  have hkept := (h.kept.set (Or.inl rfl) (s.get rn)).set (Or.inr rfl) basicBlock
  obtain ⟨u', hpopRun, hleft, hx0, hx1⟩ := popScratch_run hkept hpop
  rw [cell_add, ← List.length_append] at hpopRun
  have hreach := (Relation.ReflTransGen.head horrRun hcopyRun).trans hpopRun
  refine ⟨u', hreach.tail (jump_run hjump hcodeJump), hleft, ?_, ?_⟩
  · have hget : ((u.set 0 (s.get rn)).set 1 basicBlock).get 0 = s.get rn :=
      (State.get_set_of_ne (by decide)).trans (State.get_set_self (by decide))
    exact hx0.trans hget
  · have hget : ((u.set 0 (s.get rn)).set 1 basicBlock).get 1 = basicBlock := State.get_set_self (by decide)
    exact hx1.trans hget

end Tails

section Lookup

variable {t : HashTable 64} {dispatcherAddr basicBlock writeP : Word} {is : List Inst}

/-- The guest's stack does not lie in the table of the translator. -/
structure StackClear (entries sp : Word) : Prop where
  x0 : Clear entries (sp - 16)
  x1 : Clear entries (sp - 16 + 8)
  x2 : Clear entries (sp - 16 - 16)

theorem saved_inMemory (h : InMemory t entries s.mem) (hclear : StackClear entries s.sp) :
    InMemory t entries (saved rn link s).mem := by
  have hpushed : InMemory t entries (pushed s).mem := (h.store hclear.x0 _).store hclear.x1 _
  rw [saved]
  split
  · exact hpushed.store hclear.x2 _
  · exact hpushed

theorem length_found_le : (found rn link).length ≤ 3 := by
  rw [found, popScratch]
  split <;> simp

theorem loopAt_of_helpers {loop : Word} {toNotFound toLoop : Inst} {n : Nat} (hn : n < 12)
    (hload : code loop = some (.ldrPost 16 0 (regTmp rn link)))
    (hleave : code (cell loop 1) = some toNotFound)
    (hcompare : code (cell loop 2) = some (.sub (regSpc rn link) 0 (regTmp rn link) (regTmp rn link)))
    (hagain : code (cell loop 3) = some toLoop)
    (htoNotFound : cbzCbnzHelper (cell loop 1) false (cell loop (4 + n)) 1 (regTmp rn link) = some toNotFound)
    (htoLoop : cbzCbnzHelper (cell loop 3) true loop 1 (regTmp rn link) = some toLoop) :
    LoopAt code rn link loop (cell loop (4 + n)) := by
  refine ⟨by rw [cell_zero, hload], ⟨toNotFound, hleave, fun s => ?_⟩, hcompare, toLoop, hagain, fun s => ?_⟩
  · have hcell : cell loop (4 + n) = cell (cell loop 1) (3 + n) := by
      rw [cell_add, show 1 + (3 + n) = 4 + n by omega]
    rw [hcell] at htoNotFound
    obtain ⟨hlt, hge⟩ := small_cell (cell loop 1) (show 3 + n < 16 by omega)
    rw [cbzCbnzHelper_exec htoNotFound hlt hge, operand_one, cell_next, ← hcell, Bool.not_false, beq_true]
  · have hback : loop - cell loop 3 = -(12 : Word) := sub_add_cancel_left loop _
    have hrange : (loop - cell loop 3).toInt < 1024 * 1024 ∧ -1024 * 1024 ≤ (loop - cell loop 3).toInt := by
      rw [hback]
      decide
    rw [cbzCbnzHelper_exec htoLoop hrange.1 hrange.2, operand_one, cell_next, Bool.not_true, beq_false]
    by_cases hzero : s.get (regTmp rn link) == 0
    · rw [if_pos hzero, if_neg (by rw [hzero]; decide)]
    · rw [if_neg hzero, if_pos (by rw [Bool.not_eq_true] at hzero; rw [hzero]; rfl)]

theorem lookup_parts
    (h : inlineHashLookup dispatcherAddr entries basicBlock writeP readAddress rn link = some is)
    (hcode : CodeAt a64 code writeP is) :
    CodeAt a64 code writeP (lookupHead entries readAddress rn link) ∧ ∃ loop notFound jump,
      loop = cell writeP (lookupHead entries readAddress rn link).length ∧ LoopAt code rn link loop notFound ∧
      CodeAt a64 code (cell loop 4) (found rn link) ∧ CodeAt a64 code notFound (missing basicBlock rn link) ∧
      branchHelper (cell notFound (missing basicBlock rn link).length) dispatcherAddr = some jump ∧
      code (cell notFound (missing basicBlock rn link).length) = some jump := by
  simp only [inlineHashLookup, Option.bind_eq_bind, Option.bind_eq_some_iff, Option.pure_def, Option.some.injEq] at h
  obtain ⟨toLoop, htoLoop, toNotFound, htoNotFound, jump, hjump, rfl⟩ := h
  generalize hloop : cell writeP (lookupHead entries readAddress rn link).length = loop at *
  simp only [codeAt_append_cell, codeAt_cons_cell, List.length_append, ← cell_add, hloop] at hcode
  simp only [cell_add, List.length_cons, List.length_nil, Nat.reduceAdd] at hcode hjump
  obtain ⟨⟨⟨⟨hhead, hload, hleave, hcompare, hagain, -⟩, hfound⟩, hmissing⟩, hcodeJump, -⟩ := hcode
  have hloopAt := loopAt_of_helpers (lt_of_le_of_lt length_found_le (by decide)) hload hleave hcompare hagain
    htoNotFound htoLoop
  refine ⟨hhead, loop, _, jump, rfl, hloopAt, hfound, hmissing, ?_, ?_⟩
  · rw [cell_add, hjump]
  · rw [cell_add, hcodeJump]

/-- The code for an indirect branch agrees with hash_lookup: it comes to an end,
at the translation of the target exactly when the table has one. -/
theorem inlineHashLookup_agrees (inst : IndirectBranch) (rn : Reg)
    (hemit : inlineHashLookup dispatcherAddr entries basicBlock writeP readAddress rn inst.link = some is)
    (hcode : CodeAt a64 code writeP is) (htarget : s.get rn ≠ 0) (ht : Reachable 2 t)
    (hmem : InMemory t entries s.mem) (hclear : StackClear entries s.sp) :
    ∃ u, Reaches a64 code (s.goto writeP) u ∧ Left inst.link readAddress s u ∧
      ((∃ i, i < slots ∧ (t.entries i).key = s.get rn) → hashLookup 2 t (s.get rn) = .ok u.pc) ∧
      ((¬ ∃ i, i < slots ∧ (t.entries i).key = s.get rn) →
        u.pc = dispatcherAddr ∧ u.x 0 = s.get rn ∧ u.x 1 = basicBlock) := by
  obtain ⟨hhead, loop, notFound, jump, hloopEq, hloop, hfound, hmissing, hjump, hcodeJump⟩ := lookup_parts hemit hcode
  obtain ⟨u, hheadRun, hin, hslot⟩ := head_run (s := s) hhead
  rw [← hloopEq] at hheadRun
  obtain ⟨stop, hstop, hle⟩ := ht.shaped.exists_stop (s.get rn)
  have hlookup := ht.shaped.hashLookup_eq htarget hstop
  have hpresent := ht.shaped.present_iff htarget hstop
  obtain ⟨n, rfl⟩ := Nat.exists_eq_add_of_le hstop.le
  have hlt : home 2 (s.get rn) + n < slots := lt_of_le_of_lt hle (by decide)
  have htable : InMemory t entries (saved rn inst.link s).mem := saved_inMemory hmem hclear
  obtain ⟨u', hloopRun, hin', hslot'⟩ := hloop.run htable htarget hin hstop hlt hslot
  rw [hpresent]
  by_cases hkey : keys t (home 2 (s.get rn) + n) = s.get rn
  · rw [if_pos hkey] at hloopRun hlookup
    have hvalue : load64 u'.mem (u'.get 0 - 8) = (t.entries (home 2 (s.get rn) + n)).value := by
      have haddr : ∀ a : Word, a + 16 - 8 = a + 8 := by
        intro a
        rw [add_sub_assoc]
        rfl
      rw [hin'.saved.mem, hslot', ← slot_next, haddr, htable.value _ hlt]
    obtain ⟨v, hfoundRun, hleft⟩ := found_run hin' hvalue hfound
    exact ⟨v.goto _, (hheadRun.trans hloopRun).trans hfoundRun, hleft.goto _, fun _ => hlookup,
      fun h => absurd hkey h⟩
  · rw [if_neg hkey] at hloopRun
    obtain ⟨v, hmissingRun, hleft, hx0, hx1⟩ := missing_run hin' hmissing hjump hcodeJump
    exact ⟨v.goto _, (hheadRun.trans hloopRun).trans hmissingRun, hleft.goto _, fun h => absurd h hkey,
      fun _ => ⟨rfl, hx0, hx1⟩⟩

/-- A call through lr, into a table that has its target. -/
theorem inlineHashLookup_agrees_blr_lr :
    ∃ is t, inlineHashLookup 0x2000 0x10000000 7 0x1000 0x400000 lr true = some is ∧ Reachable 2 t ∧
      ∃ u, Reaches a64 (emit 0x1000 is fun _ => none)
          ⟨0x1000, fun r => if r = lr then 0x500000 else 3, 0x7F000000, ⟨true, false, true, false⟩,
            layout t 0x10000000⟩ u ∧
        u.x lr = 0x400004 ∧ u.x 2 = 3 ∧ u.pc = 0x7000 := by
  have hsome : (inlineHashLookup 0x2000 0x10000000 7 0x1000 0x400000 lr true).isSome := by decide
  obtain ⟨is, hemit⟩ := Option.isSome_iff_exists.mp hsome
  obtain ⟨t, ht, hlookup, hpresent⟩ := exists_reachable 2 (0x500000 : Word) 0x7000 (by decide)
  have hlen : 4 * is.length < 2 ^ 64 := by
    have hall : ∀ js ∈ inlineHashLookup 0x2000 0x10000000 7 0x1000 0x400000 lr true, 4 * js.length < 2 ^ 64 := by decide
    exact hall is hemit
  have hclear : StackClear 0x10000000 0x7F000000 := by
    refine ⟨?_, ?_, ?_⟩ <;>
    · intro i j hi hj
      have hslots : 16 * slots = 8388752 := by decide
      bv_omega
  obtain ⟨u, hrun, hleft, hfound, -⟩ := inlineHashLookup_agrees .blr lr hemit (emit_codeAt hlen)
    (s := ⟨0x1000, fun r => if r = lr then 0x500000 else 3, 0x7F000000, ⟨true, false, true, false⟩,
      layout t 0x10000000⟩) (show (0x500000 : Word) ≠ 0 by decide) ht (layout_inMemory t _) hclear
  refine ⟨is, t, hemit, ht, u, hrun, hleft.ret rfl, hleft.others 2 (by decide) (by decide) (by decide), ?_⟩
  exact Except.ok.inj ((hfound hpresent).symm.trans hlookup)

end Lookup

end Mambo.A64LookupRuns
