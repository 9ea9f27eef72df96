import Mambo.RvCodeRoom
import Mambo.TableMemory

namespace Mambo.RvLookup

open Bytes ByteMemory CodeRuns Rv RvCode RvEmit RvExits RvCodeRoom CodeCacheHash HashRefines TableMemory Probing

variable {code : Code} {rs1 rd : Reg} {imm : BitVec 12} {link : Bool} {mambo : Addresses} {site : Site}
  {a : Word} {b c u : State}

section Registers

theorem regTmp_cases : regTmp rs1 link = a1 ∨ regTmp rs1 link = a2 := by
  rw [regTmp]
  split
  · exact Or.inr rfl
  · exact Or.inl rfl

theorem regTmp_ne_zero : regTmp rs1 link ≠ zero := by
  rcases @regTmp_cases rs1 link with h | h <;> rw [h] <;> decide

theorem regTmp_ne_a0 : regTmp rs1 link ≠ a0 := by
  rcases @regTmp_cases rs1 link with h | h <;> rw [h] <;> decide

theorem regTmp_ne_sp : regTmp rs1 link ≠ sp := by
  rcases @regTmp_cases rs1 link with h | h <;> rw [h] <;> decide

theorem regTmp_wide : wide ((regTmp rs1 link).setWidth 3) = regTmp rs1 link := by
  rcases @regTmp_cases rs1 link with h | h <;> rw [h] <;> decide

theorem not_useA2 (h : useA2 rs1 link = false) : rs1 ≠ a0 ∧ rs1 ≠ a1 ∧ ¬ (link = true ∧ rs1 = ra) := by
  rw [useA2, decide_eq_false_iff_not, not_or, not_or] at h
  exact h

theorem regSpc_ne_a0 : regSpc rs1 link ≠ a0 := by
  rw [regSpc]
  split
  · decide
  · rename_i h
    exact (not_useA2 (Bool.not_eq_true _ ▸ h)).1

theorem regSpc_ne_regTmp : regSpc rs1 link ≠ regTmp rs1 link := by
  rw [regSpc, regTmp]
  split
  · decide
  · rename_i h
    exact (not_useA2 (Bool.not_eq_true _ ▸ h)).2.1

end Registers

section Parts

theorem linkCode_run (hcode : CodeAt rv (fetch code) a (linkCode site rd)) :
    Reaches rv (fetch code) (u.goto a) ((u.set rd site.retAddr).goto (past a (bytes (linkCode site rd)))) := by
  rw [linkCode] at hcode ⊢
  by_cases hrd : rd = zero
  · subst hrd
    rw [if_neg (not_not.mpr rfl), State.set_zero, bytes, past_zero]
  · rw [if_pos hrd] at hcode ⊢
    exact copyToReg_run hrd hcode

def moved (rs1 : Reg) (imm : BitVec 12) (link : Bool) (s : State) : State :=
  if useA2 rs1 link then
    if rs1 ≠ regSpc rs1 link then (pushed [a2] s).set (regSpc rs1 link) (s.get rs1 + imm.signExtend 64)
    else pushed [a2] s
  else s.set rs1 (s.get rs1 + imm.signExtend 64)

section Single

variable {r r' r'' : Reg} {shamt : BitVec 6}

theorem addi_run (h : fetch code a = some (.addi r r' imm)) :
    Steps rv (fetch code) (u.goto a) ((u.set r (u.get r' + imm.signExtend 64)).goto (past a 4)) := by
  refine steps_exec h ?_
  rw [exec, State.get_goto, State.set_goto]
  rfl

theorem ld_run (h : fetch code a = some (.ld r r' imm)) :
    Steps rv (fetch code) (u.goto a) ((u.set r (load64 u.mem (u.get r' + imm.signExtend 64))).goto (past a 4)) := by
  refine steps_exec h ?_
  rw [exec, State.get_goto, State.set_goto]
  rfl

theorem srli_run (h : fetch code a = some (.srli r r' shamt)) :
    Steps rv (fetch code) (u.goto a) ((u.set r (u.get r' >>> shamt.toNat)).goto (past a 4)) := by
  refine steps_exec h ?_
  rw [exec, State.get_goto, State.set_goto]
  rfl

theorem slli_run (h : fetch code a = some (.slli r r' shamt)) :
    Steps rv (fetch code) (u.goto a) ((u.set r (u.get r' <<< shamt.toNat)).goto (past a 4)) := by
  refine steps_exec h ?_
  rw [exec, State.get_goto, State.set_goto]
  rfl

theorem add_run (h : fetch code a = some (.add r r' r'')) :
    Steps rv (fetch code) (u.goto a) ((u.set r (u.get r' + u.get r'')).goto (past a 4)) := by
  refine steps_exec h ?_
  rw [exec, State.get_goto, State.get_goto, State.set_goto]
  rfl

theorem sub_run (h : fetch code a = some (.sub r r' r'')) :
    Steps rv (fetch code) (u.goto a) ((u.set r (u.get r' - u.get r'')).goto (past a 4)) := by
  refine steps_exec h ?_
  rw [exec, State.get_goto, State.get_goto, State.set_goto]
  rfl

theorem and_run (h : fetch code a = some (.and r r' r'')) :
    Steps rv (fetch code) (u.goto a) ((u.set r (u.get r' &&& u.get r'')).goto (past a 4)) := by
  refine steps_exec h ?_
  rw [exec, State.get_goto, State.get_goto, State.set_goto]
  rfl

end Single

theorem useA2_ne_sp (h : useA2 rs1 link = true) : rs1 ≠ sp := by
  rintro rfl
  rw [useA2, decide_eq_true_iff] at h
  rcases h with h | h | ⟨-, h⟩ <;> exact absurd h (by decide)

theorem moves_run (hcode : CodeAt rv (fetch code) a (moves rs1 imm link)) :
    Reaches rv (fetch code) (c.goto a) ((moved rs1 imm link c).goto (past a (bytes (moves rs1 imm link)))) := by
  rw [moves] at hcode ⊢
  rw [moved]
  by_cases hx : useA2 rs1 link
  · rw [if_pos hx] at hcode ⊢
    rw [codeAt_append_past] at hcode
    rw [if_pos hx, bytes_append, ← past_past]
    have hpush := @push_run _ _ c [a2] (by decide) (by decide) hcode.1
    by_cases hspc : rs1 ≠ regSpc rs1 link
    · rw [if_pos hspc] at hcode ⊢
      have hstep := addi_run (u := pushed [a2] c) hcode.2.1
      rw [pushed_get (useA2_ne_sp hx)] at hstep
      rw [if_pos hspc]
      exact hpush.tail hstep
    · rw [if_neg hspc, if_neg hspc, bytes, past_zero]
      exact hpush
  · have hspc : regSpc rs1 link = rs1 := if_neg hx
    rw [if_neg hx, hspc] at hcode ⊢
    rw [if_neg hx]
    exact Relation.ReflTransGen.single (addi_run hcode.1)

/-- A state of the probing: only its two scratch registers differ. -/
structure Along (rs1 : Reg) (link : Bool) (b u : State) : Prop where
  others : ∀ r, r ≠ a0 → r ≠ regTmp rs1 link → u.get r = b.get r
  mem : u.mem = b.mem

theorem Along.refl (b : State) : Along rs1 link b b := ⟨fun _ _ _ => rfl, rfl⟩

theorem Along.set (h : Along rs1 link b u) {r : Reg} (hr : r = a0 ∨ r = regTmp rs1 link) (v : Word) :
    Along rs1 link b (u.set r v) := by
  refine ⟨fun r' h0 htmp => ?_, by rw [State.set_mem, h.mem]⟩
  have hne : r' ≠ r := by
    rcases hr with rfl | rfl
    · exact h0
    · exact htmp
  rw [State.get_set_of_ne hne, h.others r' h0 htmp]

theorem Along.spc (h : Along rs1 link b u) : u.get (regSpc rs1 link) = b.get (regSpc rs1 link) :=
  h.others _ regSpc_ne_a0 regSpc_ne_regTmp

theorem hashCode_run {entries : Word} (hcode : CodeAt rv (fetch code) a (hashCode rs1 link entries)) :
    ∃ u, Reaches rv (fetch code) (b.goto a) (u.goto (past a (bytes (hashCode rs1 link entries)))) ∧
      Along rs1 link b u ∧ u.get a0 = slot entries (home 1 (b.get (regSpc rs1 link))) := by
  rw [hashCode] at hcode ⊢
  rw [List.append_assoc, List.append_assoc, codeAt_append_past, codeAt_append_past, codeAt_append_past] at hcode
  rw [List.append_assoc, List.append_assoc, bytes_append, bytes_append, bytes_append, ← past_past, ← past_past,
    ← past_past]
  obtain ⟨hsize, ⟨hsrli, hand, -⟩, hentries, hslli, hadd, -⟩ := hcode
  let tmp := regTmp rs1 link
  have htmp : tmp ≠ zero := regTmp_ne_zero
  have htmpA0 : tmp ≠ a0 := regTmp_ne_a0
  let key := b.get (regSpc rs1 link)
  let mask := BitVec.ofNat 64 codeCacheHashSize
  let index := (key >>> 1) &&& mask
  have h₁ : Along rs1 link b (b.set a0 mask) := (Along.refl b).set (Or.inl rfl) _
  have hrun₁ := copyToReg_run (s := b) (by decide) hsize
  have hrun₂ := srli_run (u := b.set a0 mask) hsrli
  rw [h₁.spc] at hrun₂
  have h₂ : Along rs1 link b ((b.set a0 mask).set tmp (key >>> 1)) := h₁.set (Or.inr rfl) _
  generalize past a (bytes (copyToReg a0 (BitVec.ofNat 64 codeCacheHashSize))) = p at *
  have hand' : fetch code (past p 4) = some (.and tmp tmp a0) := hand
  have hrun₃ := and_run (u := (b.set a0 mask).set tmp (key >>> 1)) hand'
  rw [State.get_set_self htmp, State.get_set_of_ne htmpA0.symm, State.get_set_self (by decide), State.set_set,
    past_past p 4 4] at hrun₃
  have h₃ : Along rs1 link b ((b.set a0 mask).set tmp index) := h₁.set (Or.inr rfl) _
  have hrun₄ := copyToReg_run (s := (b.set a0 mask).set tmp index) (by decide) hentries
  generalize past (past p _) (bytes (copyToReg a0 entries)) = q at *
  have hadd' : fetch code (past q 4) = some (.add a0 a0 tmp) := hadd
  have hrun₅ := slli_run (u := ((b.set a0 mask).set tmp index).set a0 entries) hslli
  have hrun₆ := add_run (u := (((b.set a0 mask).set tmp index).set a0 entries).set tmp (index <<< 4)) hadd'
  rw [State.get_set_of_ne htmpA0, State.get_set_self htmp] at hrun₅
  rw [State.get_set_of_ne htmpA0.symm, State.get_set_self (by decide), State.get_set_self htmp, slot_index,
    past_past q 4 4] at hrun₆
  refine ⟨_, ?_, (((h₃.set (Or.inl rfl) entries).set (Or.inr rfl) (index <<< 4)).set (Or.inl rfl) _),
    State.get_set_self (by decide)⟩
  exact ((((hrun₁.tail hrun₂).tail hrun₃).trans hrun₄).tail hrun₅).tail hrun₆

end Parts

section Loop

variable {t : HashTable 64} {entries loop notFound : Word}

structure LoopAt (code : Code) (rs1 : Reg) (link : Bool) (loop notFound : Word) : Prop where
  load : fetch code loop = some (.ld (regTmp rs1 link) a0 0)
  advance : fetch code (past loop 4) = some (.addi a0 a0 16)
  leave : ∃ i, fetch code (past loop 8) = some i ∧ ∀ s : State, exec i (s.goto (past loop 8)) =
    if s.get (regTmp rs1 link) == 0 then s.goto notFound else s.goto (past loop 10)
  compare : fetch code (past loop 10) = some (.sub (regTmp rs1 link) (regTmp rs1 link) (regSpc rs1 link))
  again : ∃ i, fetch code (past loop 14) = some i ∧ ∀ s : State, exec i (s.goto (past loop 14)) =
    if s.get (regTmp rs1 link) == 0 then s.goto (past loop 18) else s.goto loop
  value : fetch code (past loop 18) = some (.ld a0 a0 (-8))

theorem LoopAt.round (h : LoopAt code rs1 link loop notFound) (hu : Along rs1 link b u) {key : Word}
    (hload : load64 u.mem (u.get a0) = key) :
    ∃ u', Reaches rv (fetch code) (u.goto loop)
        (u'.goto (if key = 0 then notFound else if key = b.get (regSpc rs1 link) then past loop 18 else loop)) ∧
      Along rs1 link b u' ∧ u'.get a0 = u.get a0 + 16 := by
  obtain ⟨toNotFound, hleave, hleaveExec⟩ := h.leave
  obtain ⟨toLoop, hagain, hagainExec⟩ := h.again
  let tmp := regTmp rs1 link
  have htmp : tmp ≠ zero := regTmp_ne_zero
  have htmpA0 : tmp ≠ a0 := regTmp_ne_a0
  have hzero : (0 : BitVec 12).signExtend 64 = 0 := by decide
  have hsixteen : (16 : BitVec 12).signExtend 64 = 16 := by decide
  have hloadRun := ld_run (u := u) h.load
  rw [hzero, add_zero, hload] at hloadRun
  have hadvanceRun := addi_run (u := u.set tmp key) h.advance
  rw [hsixteen, State.get_set_of_ne htmpA0.symm, past_past] at hadvanceRun
  let u₁ := (u.set tmp key).set a0 (u.get a0 + 16)
  have hu₁ : Along rs1 link b u₁ := (hu.set (Or.inr rfl) key).set (Or.inl rfl) _
  have htmp₁ : u₁.get tmp = key := (State.get_set_of_ne htmpA0).trans (State.get_set_self htmp)
  have hx₁ : u₁.get a0 = u.get a0 + 16 := State.get_set_self (by decide)
  have hleaveRun : Steps rv (fetch code) (u₁.goto (past loop 8)) _ := steps_exec hleave (hleaveExec u₁)
  rw [htmp₁] at hleaveRun
  have hreach₁ : Reaches rv (fetch code) (u.goto loop) (u₁.goto (past loop 8)) :=
    (Relation.ReflTransGen.single hloadRun).tail hadvanceRun
  by_cases hkey : key = 0
  · rw [if_pos (beq_iff_eq.mpr hkey)] at hleaveRun
    rw [if_pos hkey]
    exact ⟨u₁, hreach₁.tail hleaveRun, hu₁, hx₁⟩
  · rw [if_neg (fun hbeq => hkey (beq_iff_eq.mp hbeq))] at hleaveRun
    rw [if_neg hkey]
    have hsubRun := sub_run (u := u₁) h.compare
    rw [htmp₁, hu₁.spc, past_past] at hsubRun
    let u₂ := u₁.set tmp (key - b.get (regSpc rs1 link))
    have hagainRun : Steps rv (fetch code) (u₂.goto (past loop 14)) _ := steps_exec hagain (hagainExec u₂)
    have htmp₂ : u₂.get tmp = key - b.get (regSpc rs1 link) := State.get_set_self htmp
    have hreach₂ : Reaches rv (fetch code) (u.goto loop) (u₂.goto (past loop 14)) :=
      (hreach₁.tail hleaveRun).tail hsubRun
    have hx₂ : u₂.get a0 = u.get a0 + 16 := (State.get_set_of_ne htmpA0.symm).trans hx₁
    refine ⟨u₂, ?_, hu₁.set (Or.inr rfl) _, hx₂⟩
    rw [htmp₂] at hagainRun
    by_cases heq : key = b.get (regSpc rs1 link)
    · rw [if_pos (beq_iff_eq.mpr (sub_eq_zero.mpr heq))] at hagainRun
      rw [if_pos heq]
      exact hreach₂.tail hagainRun
    · rw [if_neg (fun hbeq => heq (sub_eq_zero.mp (beq_iff_eq.mp hbeq)))] at hagainRun
      rw [if_neg heq]
      exact hreach₂.tail hagainRun

theorem LoopAt.round_slot (h : LoopAt code rs1 link loop notFound) (htable : InMemory t entries b.mem) {index : Nat}
    (hindex : index < slots) (hu : Along rs1 link b u) (hslot : u.get a0 = slot entries index) :
    ∃ u', Reaches rv (fetch code) (u.goto loop)
        (u'.goto (if keys t index = 0 then notFound
          else if keys t index = b.get (regSpc rs1 link) then past loop 18 else loop)) ∧
      Along rs1 link b u' ∧ u'.get a0 = slot entries (index + 1) := by
  have hload : load64 u.mem (u.get a0) = keys t index := by
    rw [hu.mem, hslot, htable.key index hindex, keys_of_lt t hindex]
  obtain ⟨u', hreach, hu', hx⟩ := h.round hu hload
  rw [hslot, slot_next] at hx
  exact ⟨u', hreach, hu', hx⟩

theorem LoopAt.value_run (h : LoopAt code rs1 link loop notFound) (htable : InMemory t entries b.mem) {index : Nat}
    (hindex : index < slots) (hu : Along rs1 link b u) (hslot : u.get a0 = slot entries (index + 1)) :
    ∃ u', Reaches rv (fetch code) (u.goto (past loop 18)) (u'.goto (past loop 22)) ∧ Along rs1 link b u' ∧
      u'.get a0 = (t.entries index).value := by
  have hback : (-8 : BitVec 12).signExtend 64 = -(8 : Word) := by decide
  have haddr : ∀ a : Word, a + 16 - 8 = a + 8 := by
    intro a
    rw [add_sub_assoc]
    rfl
  have hrun := ld_run (u := u) h.value
  rw [hback, ← sub_eq_add_neg, hslot, ← slot_next, haddr, hu.mem, htable.value _ hindex, past_past] at hrun
  exact ⟨_, Relation.ReflTransGen.single hrun, hu.set (Or.inl rfl) _, State.get_set_self (by decide)⟩

theorem LoopAt.run (h : LoopAt code rs1 link loop notFound) (htable : InMemory t entries b.mem) {n index : Nat}
    (hu : Along rs1 link b u) (hs : StopsAt 0 (keys t) (b.get (regSpc rs1 link)) index (index + n))
    (hlt : index + n < slots) (hslot : u.get a0 = slot entries index) :
    ∃ u', Reaches rv (fetch code) (u.goto loop)
        (u'.goto (if keys t (index + n) = 0 then notFound else past loop 22)) ∧
      Along rs1 link b u' ∧ (keys t (index + n) ≠ 0 → u'.get a0 = (t.entries (index + n)).value) := by
  induction n generalizing index u with
  | zero =>
      rw [Nat.add_zero] at hs hlt ⊢
      obtain ⟨u', hreach, hu', hx⟩ := h.round_slot htable hlt hu hslot
      by_cases hzero : keys t index = 0
      · rw [if_pos hzero] at hreach ⊢
        exact ⟨u', hreach, hu', fun hne => absurd hzero hne⟩
      · rw [if_neg hzero, if_pos (hs.hit.resolve_right hzero)] at hreach
        obtain ⟨v, hvalue, hv, hget⟩ := h.value_run htable hlt hu' hx
        rw [if_neg hzero]
        exact ⟨v, hreach.trans hvalue, hv, fun _ => hget⟩
  | succ n ih =>
      obtain ⟨u', hreach, hu', hx⟩ := h.round_slot htable (by omega) hu hslot
      obtain ⟨hne, hfull⟩ := hs.pass index le_rfl (by omega)
      rw [if_neg hfull, if_neg hne] at hreach
      have hsum : index + (n + 1) = index + 1 + n := by omega
      rw [hsum] at hs hlt ⊢
      obtain ⟨v, hrest, hv, hget⟩ := ih hu' (hs.next hne hfull) hlt hx
      exact ⟨v, hreach.trans hrest, hv, hget⟩

end Loop

section Tails

variable {is : List Inst}

def restored (rs1 : Reg) (link : Bool) (u : State) : State := if useA2 rs1 link then popped [a2] u else u

theorem popA2_run (h : popA2 rs1 link = some is) (hcode : CodeAt rv (fetch code) a is) :
    Reaches rv (fetch code) (u.goto a) ((restored rs1 link u).goto (past a (bytes is))) := by
  rw [popA2] at h
  rw [restored]
  by_cases hx : useA2 rs1 link
  · rw [if_pos hx] at h ⊢
    exact pop_run h (by decide) (by decide) hcode
  · rw [if_neg hx] at h ⊢
    obtain rfl := Option.some.inj h
    rw [bytes, past_zero]

theorem restored_get {r : Reg} (hsp : r ≠ sp) (hx : ¬ (useA2 rs1 link = true ∧ r = a2)) :
    (restored rs1 link u).get r = u.get r := by
  rw [restored]
  split
  · rename_i h
    have hne : r ≠ a2 := fun heq => hx ⟨h, heq⟩
    rw [popped, State.get_set_of_ne hsp, loaded_get (by simpa using hne)]
  · rfl

theorem foundCode_run (h : foundCode rs1 link site rd = some is) (hrd : rd ≠ a0)
    (hcode : CodeAt rv (fetch code) a is) :
    Reaches rv (fetch code) (u.goto a)
      (((restored rs1 link u).set rd site.retAddr).goto (u.get a0 &&& ~~~1)) := by
  simp only [foundCode, Option.bind_eq_bind, Option.bind_eq_some_iff, Option.pure_def, Option.some.injEq] at h
  obtain ⟨pop, hpop, rfl⟩ := h
  rw [List.append_assoc, codeAt_append_past, codeAt_append_past] at hcode
  obtain ⟨hpopCode, hlinkCode, hjr, -⟩ := hcode
  have hpopRun := popA2_run (u := u) hpop hpopCode
  have hlinkRun := linkCode_run (u := restored rs1 link u) hlinkCode
  refine (hpopRun.trans hlinkRun).tail (steps_exec hjr ?_)
  have hget : ((restored rs1 link u).set rd site.retAddr).get a0 = u.get a0 := by
    rw [State.get_set_of_ne hrd.symm, restored_get (by decide) fun hx => absurd hx.2 (by decide)]
  rw [exec, State.get_goto, hget, State.goto_goto]

def missed (rs1 : Reg) (link : Bool) (site : Site) (rd : Reg) (u : State) : State :=
  pushed [s1] ((restored rs1 link (((u.set a0 (u.get (regSpc rs1 link))).set rd site.retAddr).set a1
    site.basicBlock)).set rd site.retAddr)

/-- Where the dispatcher lies for code at an address: in reach, at an even address. -/
structure InReach (mambo : Addresses) (writeP : Word) : Prop where
  even : mambo.dispatcherAddr.getLsbD 0 = false
  above : (mambo.dispatcherAddr - writeP).toInt < 2 ^ 30
  below : -2 ^ 30 ≤ (mambo.dispatcherAddr - writeP).toInt

theorem far_reach {d : Word} (habove : (d - a).toInt < 2 ^ 30) (hbelow : -2 ^ 30 ≤ (d - a).toInt) {n : Nat}
    (hn : n ≤ 2 ^ 20) : (d - past a n).toInt < 2 ^ 31 - 2048 := by
  have hsub : d - past a n = d - a - BitVec.ofNat 64 n := by
    rw [past, sub_add_eq_sub_sub]
  have hint : (BitVec.ofNat 64 n).toInt = n := by
    rw [BitVec.toInt_eq_toNat_of_lt, BitVec.toNat_ofNat, Nat.mod_eq_of_lt (by omega)]
    rw [BitVec.toNat_ofNat, Nat.mod_eq_of_lt (by omega)]
    omega
  rw [hsub, BitVec.toInt_sub, hint, Int.bmod_eq_of_le (by omega) (by omega)]
  omega

theorem notFoundCode_run {writeP : Word} {m : Nat} (h : notFoundCode rs1 link mambo site rd (past writeP m) = some is)
    (hreach : InReach mambo writeP) (hm : m + bytes is ≤ 2 ^ 20) (hcode : CodeAt rv (fetch code) (past writeP m) is) :
    ∃ v, Reaches rv (fetch code) (u.goto (past writeP m))
      (((missed rs1 link site rd u).set s1 v).goto mambo.dispatcherAddr) := by
  simp only [notFoundCode, Option.bind_eq_bind, Option.bind_eq_some_iff, Option.pure_def, Option.some.injEq] at h
  obtain ⟨pop, hpop, jump, hjump, rfl⟩ := h
  rw [past_past] at hjump
  rw [bytes_append] at hm
  rw [codeAt_append_past] at hcode
  obtain ⟨hhead, hjumpCode⟩ := hcode
  rw [past_past] at hjumpCode
  obtain ⟨v, hlast⟩ := jalrHelper_run (s := missed rs1 link site rd u) hjump (by decide) hreach.even
    (far_reach hreach.above hreach.below (by omega)) hjumpCode
  refine ⟨v, Relation.ReflTransGen.trans ?_ hlast⟩
  rw [← past_past]
  generalize past writeP m = p at *
  rw [List.cons_append, List.cons_append, List.cons_append, codeAt_cons, List.append_assoc, List.append_assoc,
    List.append_assoc, codeAt_append_past, codeAt_append_past, codeAt_append_past, codeAt_append_past] at hhead
  obtain ⟨hadd, hlink, hcopy, hpopCode, hlink', hpush⟩ := hhead
  rw [List.cons_append, List.cons_append, List.cons_append, bytes, List.append_assoc, List.append_assoc,
    List.append_assoc, bytes_append, bytes_append, bytes_append, bytes_append, ← past_past, ← past_past, ← past_past,
    ← past_past, ← past_past]
  have haddRun := add_run (u := u) hadd
  rw [State.get_zero, add_zero] at haddRun
  have hlinkRun := linkCode_run (u := u.set a0 (u.get (regSpc rs1 link))) hlink
  have hcopyRun := copyToReg_run (s := (u.set a0 (u.get (regSpc rs1 link))).set rd site.retAddr) (by decide) hcopy
  have hpopRun := popA2_run (u := ((u.set a0 (u.get (regSpc rs1 link))).set rd site.retAddr).set a1 site.basicBlock)
    hpop hpopCode
  have hlinkRun' := linkCode_run (u := restored rs1 link (((u.set a0 (u.get (regSpc rs1 link))).set rd
    site.retAddr).set a1 site.basicBlock)) hlink'
  have hpushRun := @push_run _ _ ((restored rs1 link (((u.set a0 (u.get (regSpc rs1 link))).set rd
    site.retAddr).set a1 site.basicBlock)).set rd site.retAddr) [s1] (by decide) (by decide) hpush
  exact ((((Relation.ReflTransGen.head haddRun hlinkRun).trans hcopyRun).trans hpopRun).trans hlinkRun').trans hpushRun

end Tails

section Layout

variable {writeP : Word} {triBi : Bool} {is : List Inst}

def startCode (triBi : Bool) : List Inst := if triBi then [] else push [a0, a1]

def guardCode (rs1 : Reg) (link : Bool) (traces loop notFound : Word) (triBi : Bool) : Option (List Inst) :=
  let limit := if triBi then copyToReg (regTmp rs1 link) traces else []
  if triBi then
    (branchHelper (past loop (22 + bytes limit)) notFound a0 (regTmp rs1 link) bge).map fun i => limit ++ [i]
  else some []

theorem near_past {n m : Nat} (hn : n < 2 ^ 31) (hm : m < 2 ^ 31) : Near (past a n) (past a m) := by
  have hint : ∀ k : Nat, k < 2 ^ 31 → (BitVec.ofNat 64 k).toInt = k := by
    intro k hk
    have hnat : (BitVec.ofNat 64 k).toNat = k := by rw [BitVec.toNat_ofNat, Nat.mod_eq_of_lt (by omega)]
    rw [BitVec.toInt_eq_toNat_of_lt (by omega), hnat]
  have hsub : past a m - past a n = BitVec.ofNat 64 m - BitVec.ofNat 64 n := by
    rw [past, past, add_sub_add_left_eq_sub]
  rw [Near, hsub, BitVec.toInt_sub, hint m hm, hint n hn, Int.bmod_eq_of_le (by omega) (by omega)]
  omega

theorem guardCode_run {loop : Word} {m : Nat} {traces : Word} (h : guardCode rs1 link traces loop (past loop m) triBi = some is)
    (hm : m < 2 ^ 31) (hcode : CodeAt rv (fetch code) (past loop 22) is) (hu : Along rs1 link b u) :
    ∃ u', Reaches rv (fetch code) (u.goto (past loop 22))
        (u'.goto (if triBi = true ∧ ¬ (u.get a0).slt traces then past loop m else past loop (22 + bytes is))) ∧
      Along rs1 link b u' ∧ u'.get a0 = u.get a0 := by
  rw [guardCode] at h
  cases triBi with
  | false =>
      obtain rfl := Option.some.inj h
      refine ⟨u, ?_, hu, rfl⟩
      rw [if_neg fun hand => Bool.false_ne_true hand.1]
      exact Relation.ReflTransGen.refl
  | true =>
      simp only [if_true] at h
      obtain ⟨i, hi, rfl⟩ := Option.map_eq_some_iff.mp h
      rw [codeAt_append_past] at hcode
      obtain ⟨hlimit, hbranch, -⟩ := hcode
      have hlen := bytes_copyToReg (regTmp rs1 link) traces
      have hlimitRun := copyToReg_run (s := u) regTmp_ne_zero hlimit
      have hexec := branchHelper_exec hi (near_past (by omega) hm) (u.set (regTmp rs1 link) traces)
      rw [State.get_set_of_ne regTmp_ne_a0.symm, State.get_set_self regTmp_ne_zero, past_past] at hexec
      rw [past_past] at hlimitRun hbranch
      have hcond : ∀ v w : Word, condHolds bge v w = !v.slt w := fun v w => rfl
      rw [hcond] at hexec
      have hsize : i.size = 4 := size_branchHelper hi
      refine ⟨u.set (regTmp rs1 link) traces, hlimitRun.tail (steps_exec hbranch ?_), hu.set (Or.inr rfl) _,
        State.get_set_of_ne regTmp_ne_a0.symm⟩
      rw [hexec, bytes_append, bytes, bytes, hsize]
      cases hlt : (u.get a0).slt traces
      · rw [Bool.not_false, if_pos rfl, if_pos ⟨rfl, Bool.false_ne_true⟩]
      · rw [Bool.not_true, if_neg (by decide), if_neg fun hand => hand.2 rfl]
        rfl

def headCode (rs1 : Reg) (imm : BitVec 12) (link : Bool) (entries : Word) (triBi : Bool) : List Inst :=
  startCode triBi ++ moves rs1 imm link ++ hashCode rs1 link entries

/-- The offset of the miss path from the loop, for the given end of a hit. -/
def missOffset (rs1 : Reg) (link : Bool) (traces : Word) (triBi : Bool) (found : List Inst) : Nat :=
  22 + bytes (if triBi then copyToReg (regTmp rs1 link) traces else []) + (if triBi then 4 else 0) + bytes found

def loopCode (rs1 : Reg) (link : Bool) (toNotFound toLoop : Inst) : List Inst :=
  [.ld (regTmp rs1 link) a0 0, .addi a0 a0 16, toNotFound,
    .sub (regTmp rs1 link) (regTmp rs1 link) (regSpc rs1 link), toLoop, .ld a0 a0 (-8)]

/-- The miss path is near enough for the branch to it. -/
def MissNear (rs1 : Reg) (link : Bool) (traces : Word) (site : Site) (rd : Reg) (triBi : Bool) : Prop :=
  ∀ found, foundCode rs1 link site rd = some found → missOffset rs1 link traces triBi found < 72

theorem inlineHashLookup_eq : inlineHashLookup rs1 imm link mambo site rd writeP triBi = (do
    let loop := past writeP (bytes (headCode rs1 imm link mambo.entries triBi))
    let toLoop ← branchHelper (past loop 14) loop zero (regTmp rs1 link) bne
    let found ← foundCode rs1 link site rd
    let notFound := past loop (missOffset rs1 link mambo.traces triBi found)
    let toNotFound ← cBeqzHelper (past loop 8) notFound (regTmp rs1 link)
    let guards ← guardCode rs1 link mambo.traces loop notFound triBi
    let miss ← notFoundCode rs1 link mambo site rd notFound
    return headCode rs1 imm link mambo.entries triBi ++ loopCode rs1 link toNotFound toLoop ++ guards ++ found ++ miss) := by
  cases triBi <;> rfl

theorem bytes_guardCode {traces loop notFound : Word} (h : guardCode rs1 link traces loop notFound triBi = some is) :
    bytes is = bytes (if triBi then copyToReg (regTmp rs1 link) traces else []) + (if triBi then 4 else 0) := by
  rw [guardCode] at h
  cases triBi with
  | false =>
      obtain rfl := Option.some.inj h
      rfl
  | true =>
      simp only [if_true] at h ⊢
      obtain ⟨i, hi, rfl⟩ := Option.map_eq_some_iff.mp h
      rw [bytes_append, bytes, bytes, size_branchHelper hi]

theorem bytes_linkCode_le : bytes (linkCode site rd) ≤ 26 := by
  rw [linkCode]
  split
  · exact bytes_copyToReg rd _
  · exact Nat.zero_le _

theorem bytes_foundCode_le (h : foundCode rs1 link site rd = some is) : bytes is ≤ 34 := by
  simp only [foundCode, Option.bind_eq_bind, Option.bind_eq_some_iff, Option.pure_def, Option.some.injEq] at h
  obtain ⟨pop, hpop, rfl⟩ := h
  have hpopLen := bytes_popA2 hpop
  have hlink := @bytes_linkCode_le rd site
  simp only [bytes_append, bytes, Inst.size]
  split at hpopLen <;> omega

theorem missNear_plain {traces : Word} : MissNear rs1 link traces site rd false := by
  intro found hfound
  have hlen := bytes_foundCode_le hfound
  simp only [missOffset, Bool.false_eq_true, if_false, bytes]
  omega

theorem bytes_notFoundCode_le (h : notFoundCode rs1 link mambo site rd writeP = some is) : bytes is ≤ 104 := by
  simp only [notFoundCode, Option.bind_eq_bind, Option.bind_eq_some_iff, Option.pure_def, Option.some.injEq] at h
  obtain ⟨pop, hpop, jump, hjump, rfl⟩ := h
  have hpopLen := bytes_popA2 hpop
  have hlink := @bytes_linkCode_le rd site
  have hcopy := bytes_copyToReg a1 site.basicBlock
  have hpush := bytes_push [s1]
  have hjumpLen := bytes_goToDispatcher hjump
  simp only [bytes_append, bytes, Inst.size, List.cons_append, hjumpLen, hpush, List.length_cons, List.length_nil]
  split at hpopLen <;> omega

theorem bytes_headCode_le {entries : Word} : bytes (headCode rs1 imm link entries triBi) ≤ 92 := by
  have hmoves := @bytes_moves rs1 imm link
  have hsize := bytes_copyToReg a0 (BitVec.ofNat 64 codeCacheHashSize)
  have hentries := bytes_copyToReg a0 entries
  have hstart : bytes (startCode triBi) ≤ 12 := by
    cases triBi <;> decide
  simp only [headCode, hashCode, bytes_append, bytes, Inst.size]
  split at hmoves <;> omega

theorem bytes_limit_le {traces : Word} : bytes (if triBi then copyToReg (regTmp rs1 link) traces else []) ≤ 26 := by
  split
  · exact bytes_copyToReg _ _
  · exact Nat.zero_le _

theorem bytes_loopCode {writeP' target' : Word} {toNotFound toLoop : Inst} {r r' r'' : Reg} {cond : BitVec 3}
    (htoNotFound : cBeqzHelper writeP target' r = some toNotFound)
    (htoLoop : branchHelper writeP' a r' r'' cond = some toLoop) : bytes (loopCode rs1 link toNotFound toLoop) = 22 := by
  simp only [loopCode, bytes, size_cBeqzHelper htoNotFound, size_branchHelper htoLoop]
  rfl

theorem bytes_inlineHashLookup_le (h : inlineHashLookup rs1 imm link mambo site rd writeP triBi = some is) :
    bytes is ≤ 512 := by
  simp only [inlineHashLookup_eq, Option.bind_eq_bind, Option.bind_eq_some_iff, Option.pure_def, Option.some.injEq] at h
  obtain ⟨toLoop, htoLoop, found, hfound, toNotFound, htoNotFound, guards, hguards, miss, hmiss, rfl⟩ := h
  have hhead := @bytes_headCode_le rs1 imm link triBi mambo.entries
  have hguardsLen := bytes_guardCode hguards
  have hlimit := @bytes_limit_le rs1 link triBi mambo.traces
  have hfoundLen := bytes_foundCode_le hfound
  have hmissLen := bytes_notFoundCode_le hmiss
  have hgap : (if triBi then 4 else 0) ≤ 4 := by cases triBi <;> decide
  rw [bytes_append, bytes_append, bytes_append, bytes_append, bytes_loopCode htoNotFound htoLoop]
  omega

theorem lookup_parts (h : inlineHashLookup rs1 imm link mambo site rd writeP triBi = some is)
    (hnear : MissNear rs1 link mambo.traces site rd triBi) (hcode : CodeAt rv (fetch code) writeP is) :
    ∃ m k guards found miss loop, loop = past writeP m ∧ m = bytes (headCode rs1 imm link mambo.entries triBi) ∧
      m + (k + bytes miss) = bytes is ∧
      CodeAt rv (fetch code) writeP (headCode rs1 imm link mambo.entries triBi) ∧
      LoopAt code rs1 link loop (past loop k) ∧
      (guardCode rs1 link mambo.traces loop (past loop k) triBi = some guards ∧
        CodeAt rv (fetch code) (past loop 22) guards) ∧
      (foundCode rs1 link site rd = some found ∧ CodeAt rv (fetch code) (past loop (22 + bytes guards)) found) ∧
      notFoundCode rs1 link mambo site rd (past loop k) = some miss ∧ CodeAt rv (fetch code) (past loop k) miss := by
  have hmax := bytes_inlineHashLookup_le h
  simp only [inlineHashLookup_eq, Option.bind_eq_bind, Option.bind_eq_some_iff, Option.pure_def, Option.some.injEq] at h
  obtain ⟨toLoop, htoLoop, found, hfound, toNotFound, htoNotFound, guards, hguards, miss, hmiss, rfl⟩ := h
  have hguardsLen := bytes_guardCode hguards
  have hmissNear := hnear found hfound
  have hloopLen : bytes (loopCode rs1 link toNotFound toLoop) = 22 := bytes_loopCode htoNotFound htoLoop
  have hk : missOffset rs1 link mambo.traces triBi found = 22 + bytes guards + bytes found := by
    rw [hguardsLen, missOffset, Nat.add_assoc, Nat.add_assoc, Nat.add_assoc, Nat.add_assoc]
  rw [hk] at htoNotFound hguards hmiss hmissNear
  simp only [List.append_assoc, codeAt_append_past, hloopLen] at hcode
  obtain ⟨hheadCode, hloop, hguardsCode, hfoundCode, hmissCode⟩ := hcode
  rw [bytes_append, bytes_append, bytes_append, bytes_append, hloopLen] at hmax
  generalize hm : bytes (headCode rs1 imm link mambo.entries triBi) = m at *
  generalize hloopEq : past writeP m = loop at *
  rw [past_past] at hfoundCode hmissCode
  rw [past_past, ← Nat.add_assoc] at hmissCode
  refine ⟨m, 22 + bytes guards + bytes found, guards, found, miss, loop, hloopEq.symm, rfl, ?_, hheadCode, ?_,
    ⟨hguards, hguardsCode⟩, ⟨hfound, hfoundCode⟩, hmiss, hmissCode⟩
  · rw [bytes_append, bytes_append, bytes_append, bytes_append, hm, hloopLen]
    omega
  · simp only [loopCode, codeAt_cons, size_cBeqzHelper htoNotFound, size_branchHelper htoLoop, past_past] at hloop
    obtain ⟨hload, hadvance, hleave, hcompare, hagain, hvalue, -⟩ := hloop
    refine ⟨hload, hadvance, ⟨toNotFound, hleave, fun s => ?_⟩, hcompare, ⟨toLoop, hagain, fun s => ?_⟩, hvalue⟩
    · have hdistance : (past loop (22 + bytes guards + bytes found) - past loop 8).toNat < 64 := by
        rw [past_sub _ (by omega), BitVec.toNat_ofNat]
        omega
      rw [cBeqzHelper_exec htoNotFound hdistance regTmp_wide, past_past]
    · have hback : Near (past loop 14) loop := by
        have hzero := @near_past loop 14 0 (by omega) (by omega)
        rwa [past_zero] at hzero
      have hne : ∀ v : Word, condHolds bne 0 v = !(0 == v) := fun v => rfl
      rw [branchHelper_exec htoLoop hback, State.get_zero, hne, past_past]
      by_cases hz : s.get (regTmp rs1 link) = 0
      · rw [hz]
        rfl
      · rw [if_pos (by simpa using fun heq => hz heq.symm), if_neg (by simpa using hz)]

end Layout

section Lookup

variable {writeP : Word} {triBi : Bool} {is : List Inst} {t : HashTable 64}

/-- A key of the table; no key is zero. -/
def Present (t : HashTable 64) (key : Word) : Prop := key ≠ 0 ∧ ∃ i, i < slots ∧ (t.entries i).key = key

/-- A key whose translation the lookup jumps to: in a trace it is below the traces. -/
def Hit (t : HashTable 64) (traces : Word) (triBi : Bool) (key : Word) : Prop :=
  Present t key ∧ ∀ value, hashLookup 1 t key = .ok value → triBi = true → value.slt traces = true

def started (triBi : Bool) (c : State) : State := if triBi then c else pushed [a0, a1] c

theorem startCode_run (hcode : CodeAt rv (fetch code) a (startCode triBi)) :
    Reaches rv (fetch code) (c.goto a) ((started triBi c).goto (past a (bytes (startCode triBi)))) := by
  cases triBi with
  | false => exact push_run (by decide) (by decide) hcode
  | true =>
      rw [startCode, if_pos rfl, bytes, past_zero]
      exact Relation.ReflTransGen.refl

def begun (rs1 : Reg) (imm : BitVec 12) (link triBi : Bool) (c : State) : State := moved rs1 imm link (started triBi c)

theorem headCode_run {entries : Word} (hcode : CodeAt rv (fetch code) a (headCode rs1 imm link entries triBi)) :
    ∃ u, Reaches rv (fetch code) (c.goto a) (u.goto (past a (bytes (headCode rs1 imm link entries triBi)))) ∧
      Along rs1 link (begun rs1 imm link triBi c) u ∧
      u.get a0 = slot entries (home 1 ((begun rs1 imm link triBi c).get (regSpc rs1 link))) := by
  rw [headCode, List.append_assoc] at hcode ⊢
  rw [codeAt_append_past, codeAt_append_past] at hcode
  rw [bytes_append, bytes_append, ← past_past, ← past_past]
  obtain ⟨hstart, hmoves, hhash⟩ := hcode
  obtain ⟨u, hrun, hu, hslot⟩ := hashCode_run (b := begun rs1 imm link triBi c) hhash
  exact ⟨u, ((startCode_run hstart).trans (moves_run hmoves)).trans hrun, hu, hslot⟩

theorem present_iff {key : Word} (ht : Shaped 1 t) {stop : Nat} (hs : StopsAt 0 (keys t) key (home 1 key) stop) :
    Present t key ↔ keys t stop ≠ 0 := by
  constructor
  · rintro ⟨hkey, hmem⟩
    rw [(ht.present_iff hkey hs).mp hmem]
    exact hkey
  · intro hne
    have hhit := hs.hit.resolve_right hne
    have hkey : key ≠ 0 := fun hzero => hne (hhit.trans hzero)
    exact ⟨hkey, (ht.present_iff hkey hs).mpr hhit⟩

/-- A lookup comes to an end: in the translation of the key that it looks up if it
hits, else at the dispatcher. -/
theorem lookup_run (h : inlineHashLookup rs1 imm link mambo site rd writeP triBi = some is)
    (hnear : MissNear rs1 link mambo.traces site rd triBi) (hcode : CodeAt rv (fetch code) writeP is)
    (hreach : InReach mambo writeP) (hrd : rd ≠ a0) (ht : Shaped 1 t)
    (hb : begun rs1 imm link triBi c = b) (htable : InMemory t mambo.entries b.mem) :
    ∃ u, Along rs1 link b u ∧
      (Hit t mambo.traces triBi (b.get (regSpc rs1 link)) →
        ∃ value, hashLookup 1 t (b.get (regSpc rs1 link)) = .ok value ∧ Reaches rv (fetch code) (c.goto writeP)
          (((restored rs1 link u).set rd site.retAddr).goto (value &&& ~~~1))) ∧
      (¬ Hit t mambo.traces triBi (b.get (regSpc rs1 link)) → ∃ v, Reaches rv (fetch code) (c.goto writeP)
        (((missed rs1 link site rd u).set s1 v).goto mambo.dispatcherAddr)) := by
  have hmax := bytes_inlineHashLookup_le h
  obtain ⟨m, k, guards, found, miss, loop, rfl, hm, hlen, hhead, hloop, ⟨hguards, hguardsCode⟩,
    ⟨hfound, hfoundCode⟩, hmiss, hmissCode⟩ := lookup_parts h hnear hcode
  obtain ⟨u, hheadRun, hu, hslot⟩ := headCode_run (c := c) hhead
  rw [hb] at hu hslot
  rw [← hm] at hheadRun
  generalize hkeyEq : b.get (regSpc rs1 link) = key at *
  obtain ⟨stop, hstop, hle⟩ := ht.exists_stop key
  have hpresent := present_iff ht hstop
  have hlookup : Present t key → hashLookup 1 t key = .ok (t.entries stop).value := fun hp => by
    rw [ht.hashLookup_eq hp.1 hstop, if_pos (hstop.hit.resolve_right (hpresent.mp hp))]
  obtain ⟨n, rfl⟩ := Nat.exists_eq_add_of_le hstop.le
  have hlt : home 1 key + n < slots := lt_of_le_of_lt hle (by decide)
  obtain ⟨u₁, hloopRun, hu₁, hvalue⟩ := hloop.run htable hu (hkeyEq ▸ hstop) hlt hslot
  have hreached := hheadRun.trans hloopRun
  have hmissRun : ∀ w : State, ∃ v, Reaches rv (fetch code) (w.goto (past (past writeP m) k))
      (((missed rs1 link site rd w).set s1 v).goto mambo.dispatcherAddr) := by
    intro w
    rw [past_past] at hmiss hmissCode ⊢
    exact notFoundCode_run hmiss hreach (by omega) hmissCode
  by_cases hp : Present t key
  · rw [if_neg (hpresent.mp hp)] at hreached
    obtain ⟨u₂, hguardRun, hu₂, ha0⟩ := guardCode_run hguards (by omega) hguardsCode hu₁
    rw [hvalue (hpresent.mp hp)] at hguardRun ha0
    refine ⟨u₂, hu₂, fun hhit => ⟨_, hlookup hp, ?_⟩, fun hno => ?_⟩
    · rw [if_neg fun hand => hand.2 (hhit.2 _ (hlookup hp) hand.1)] at hguardRun
      have hrun := foundCode_run (u := u₂) hfound hrd hfoundCode
      rw [ha0] at hrun
      exact (hreached.trans hguardRun).trans hrun
    · have hguard : triBi = true ∧ ¬ ((t.entries (home 1 key + n)).value.slt mambo.traces = true) := by
        by_contra hand
        refine hno ⟨hp, fun value hval htri => ?_⟩
        obtain rfl := Except.ok.inj (hval.symm.trans (hlookup hp))
        by_contra hge
        exact hand ⟨htri, hge⟩
      rw [if_pos hguard] at hguardRun
      obtain ⟨v, hrun⟩ := hmissRun u₂
      exact ⟨v, (hreached.trans hguardRun).trans hrun⟩
  · rw [if_pos (not_not.mp fun hne => hp (hpresent.mpr hne))] at hreached
    obtain ⟨v, hrun⟩ := hmissRun u₁
    exact ⟨u₁, hu₁, fun hhit => absurd hhit.1 hp, fun _ => ⟨v, hreached.trans hrun⟩⟩

end Lookup

end Mambo.RvLookup
