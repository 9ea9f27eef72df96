import Mambo.RvLookup

namespace Mambo.RvLookupRuns

open Bytes ByteMemory CodeRuns Rv RvCode RvEmit RvExits CodeCacheHash HashRefines TableMemory RvLookup

variable {code : Code} {rs1 rd r : Reg} {imm : BitVec 12} {link triBi : Bool} {mambo : Addresses} {site : Site}
  {a : Word} {b c s u : State} {regs : List Reg} {lost : Reg → Prop} {t : HashTable 64}

section Stack

/-- The guest state as the prologue of a block or the dispatcher finds it: some
registers are on its stack, lowest first, and the rest is as it was, except for what
may be lost. -/
structure Left (regs : List Reg) (lost : Reg → Prop) (s u : State) : Prop where
  stack : u.get sp = s.get sp - BitVec.ofNat 64 (8 * regs.length)
  saved : ∀ i r, regs[i]? = some r → ¬ lost r → load64 u.mem (u.get sp + BitVec.ofNat 64 (8 * i)) = s.get r
  others : ∀ r, r ≠ sp → r ∉ regs → ¬ lost r → u.get r = s.get r
  mem : ∀ x, 24 ≤ (x - (s.get sp - 24)).toNat → u.mem x = s.mem x

theorem Left.set (h : Left regs lost s u) (hr : r ∈ regs ∨ lost r) (hsp : r ≠ sp) (v : Word) :
    Left regs lost s (u.set r v) := by
  have hget : (u.set r v).get sp = u.get sp := State.get_set_of_ne hsp.symm
  refine ⟨hget.trans h.stack, fun i r' hi hl => ?_, fun r' hsp' hr' hl => ?_, fun x hx => ?_⟩
  · rw [State.set_mem, hget, h.saved i r' hi hl]
  · have hne : r' ≠ r := by
      rintro rfl
      exact hr.elim hr' hl
    rw [State.get_set_of_ne hne, h.others r' hsp' hr' hl]
  · rw [State.set_mem, h.mem x hx]

theorem Left.goto (h : Left regs lost s u) (p : Word) : Left regs lost s (u.goto p) := ⟨h.stack, h.saved, h.others, h.mem⟩

theorem pushed_load {i : Nat} (hlen : regs.length ≤ 32) (hi : regs[i]? = some r) :
    load64 (pushed regs u).mem ((pushed regs u).get sp + BitVec.ofNat 64 (8 * i)) = u.get r := by
  rw [pushed_mem, pushed_sp]
  refine load64_storeAll ?_ ?_
  · rw [List.length_map]
    omega
  · rw [List.getElem?_map, hi, Option.map_some]

theorem pushed_outside {x : Word} (hx : 8 * regs.length ≤ (x - (u.get sp - BitVec.ofNat 64 (8 * regs.length))).toNat) :
    (pushed regs u).mem x = u.mem x := by
  rw [pushed_mem]
  exact storeAll_of_ge (by rwa [List.length_map])

theorem left_pushed (hlen : regs.length ≤ 3) : Left regs lost s (pushed regs s) := by
  refine ⟨pushed_sp, fun i r hi _ => pushed_load (by omega) hi, fun r hsp _ _ => pushed_get hsp, fun x hx => ?_⟩
  refine pushed_outside ?_
  have hle : 8 * regs.length ≤ 24 := by omega
  generalize 8 * regs.length = n at *
  have hnat : (BitVec.ofNat 64 n).toNat = n := by
    rw [BitVec.toNat_ofNat, Nat.mod_eq_of_lt (by omega)]
  generalize hw : BitVec.ofNat 64 n = w at *
  bv_omega

theorem Left.push (h : Left regs lost s u) (hsp : r ≠ sp) (hr : r ∉ regs) (hlen : regs.length < 3) :
    Left (r :: regs) lost s (pushed [r] u) := by
  have hsp' : (pushed [r] u).get sp = u.get sp - 8 := pushed_sp
  refine ⟨?_, fun i r' hi hl => ?_, fun r' hne hr' hl => ?_, fun x hx => ?_⟩
  · rw [hsp', h.stack, List.length_cons, Nat.mul_succ, BitVec.ofNat_add, sub_sub]
    rfl
  · cases i with
    | zero =>
        obtain rfl : r = r' := Option.some.inj hi
        rw [@pushed_load r u [r] 0 (Nat.succ_le_succ (Nat.zero_le _)) rfl, h.others r hsp hr hl]
    | succ i =>
        have hstored : (pushed [r] u).mem = store64 u.mem (u.get sp - 8) (u.get r) := pushed_mem
        have haddr : u.get sp - 8 + BitVec.ofNat 64 (8 * (i + 1)) = u.get sp + BitVec.ofNat 64 (8 * i) := by
          rw [Nat.mul_succ, BitVec.ofNat_add]
          generalize BitVec.ofNat 64 (8 * i) = d
          bv_omega
        have hlt : i < regs.length := by
          obtain ⟨hi', -⟩ := List.getElem?_eq_some_iff.mp hi
          exact Nat.lt_of_succ_lt_succ hi'
        have hapart : Apart (u.get sp - 8) (u.get sp - 8 + BitVec.ofNat 64 (8 * (i + 1))) :=
          apart_add _ (by omega) (by omega)
        rw [hstored, hsp', load64_store64_apart hapart, haddr]
        exact h.saved i r' hi hl
  · rw [pushed_get hne, h.others r' hne (fun hmem => hr' (List.mem_cons_of_mem _ hmem)) hl]
  · have hspAt := h.stack
    rw [pushed_outside, h.mem x hx]
    have hle : 8 * regs.length ≤ 16 := by omega
    show 8 ≤ (x - (u.get sp - 8)).toNat
    rw [hspAt]
    generalize 8 * regs.length = n at *
    have hnat : (BitVec.ofNat 64 n).toNat = n := by
      rw [BitVec.toNat_ofNat, Nat.mod_eq_of_lt (by omega)]
    generalize hw : BitVec.ofNat 64 n = w at *
    bv_omega

end Stack

section Lookup

def spilled (rs1 : Reg) (link : Bool) (c : State) : State := if useA2 rs1 link then pushed [a2] c else c

structure Kept (rs1 : Reg) (link : Bool) (lost : Reg → Prop) (c u : State) : Prop where
  stack : u.get sp = (spilled rs1 link c).get sp
  mem : u.mem = (spilled rs1 link c).mem
  others : ∀ r, r ≠ sp → r ≠ a0 → r ≠ a1 → ¬ (useA2 rs1 link = true ∧ r = a2) → ¬ lost r → u.get r = c.get r

theorem Kept.set (h : Kept rs1 link lost c u) (hr : r = a0 ∨ r = a1 ∨ useA2 rs1 link = true ∧ r = a2 ∨ lost r)
    (hsp : r ≠ sp) (v : Word) : Kept rs1 link lost c (u.set r v) := by
  refine ⟨(State.get_set_of_ne hsp.symm).trans h.stack, by rw [State.set_mem, h.mem], fun r' hsp' h0 h1 h2 hl => ?_⟩
  have hne : r' ≠ r := by
    rintro rfl
    rcases hr with hr | hr | hr | hr
    · exact h0 hr
    · exact h1 hr
    · exact h2 hr
    · exact hl hr
  rw [State.get_set_of_ne hne, h.others r' hsp' h0 h1 h2 hl]

theorem spilled_get (hr : r ≠ sp) : (spilled rs1 link c).get r = c.get r := by
  rw [spilled]
  split
  · exact pushed_get hr
  · rfl

theorem kept_spilled : Kept rs1 link lost c (spilled rs1 link c) := ⟨rfl, rfl, fun _ hsp _ _ _ _ => spilled_get hsp⟩

theorem kept_moved (hrs1 : rs1 ≠ sp) (hlost : useA2 rs1 link = true ∨ imm = 0 ∨ lost rs1) :
    Kept rs1 link lost c (moved rs1 imm link c) := by
  rw [moved]
  by_cases hx : useA2 rs1 link = true
  · have hkept : Kept rs1 link lost c (pushed [a2] c) := by
      have hspilled : spilled rs1 link c = pushed [a2] c := if_pos hx
      exact hspilled ▸ kept_spilled
    have hspc : regSpc rs1 link = a1 := if_pos hx
    rw [if_pos hx, hspc]
    split
    · exact hkept.set (Or.inr (Or.inl rfl)) (by decide) _
    · exact hkept
  · have hspilled : spilled rs1 link c = c := if_neg hx
    have hkept : Kept rs1 link lost c c := by
      have h := @kept_spilled rs1 link c lost
      rwa [hspilled] at h
    rw [if_neg hx]
    rcases hlost with hlost | hlost | hlost
    · exact absurd hlost hx
    · have hzero : (0 : BitVec 12).signExtend 64 = 0 := by decide
      rw [hlost, hzero, add_zero]
      refine ⟨(State.get_set_of_ne hrs1.symm).trans hkept.stack, by rw [State.set_mem, hkept.mem],
        fun r hsp h0 h1 h2 hl => ?_⟩
      by_cases hr : r = rs1
      · by_cases hz : rs1 = zero
        · rw [hz, State.set_zero]
        · rw [hr, State.get_set_self hz]
      · rw [State.get_set_of_ne hr]
    · exact hkept.set (Or.inr (Or.inr (Or.inr hlost))) hrs1 _

theorem moved_spc (hrs1 : rs1 ≠ sp) (himm : imm = 0 ∨ rs1 ≠ zero ∧ rs1 ≠ a1) :
    (moved rs1 imm link c).get (regSpc rs1 link) = c.get rs1 + imm.signExtend 64 := by
  have hzero : (0 : BitVec 12).signExtend 64 = 0 := by decide
  rw [moved]
  by_cases hx : useA2 rs1 link = true
  · rw [if_pos hx]
    by_cases hne : rs1 ≠ regSpc rs1 link
    · have hspc : regSpc rs1 link = a1 := if_pos hx
      rw [if_pos hne, State.get_set_self (by rw [hspc]; decide)]
    · have hspc : regSpc rs1 link = a1 := if_pos hx
      have heq : rs1 = a1 := (not_not.mp hne).trans hspc
      rw [if_neg hne, ← not_not.mp hne, pushed_get hrs1, himm.resolve_right fun h => h.2 heq, hzero, add_zero]
  · have hspc : regSpc rs1 link = rs1 := if_neg hx
    rw [if_neg hx, hspc]
    by_cases hz : rs1 = zero
    · rw [himm.resolve_right fun h => h.1 hz, hz, State.set_zero, hzero, add_zero]
    · rw [State.get_set_self hz]

theorem Kept.along (h : Kept rs1 link lost c b) (hu : Along rs1 link b u) : Kept rs1 link lost c u := by
  refine ⟨(hu.others _ (by decide) regTmp_ne_sp.symm).trans h.stack, hu.mem.trans h.mem, fun r hsp h0 h1 h2 hl => ?_⟩
  have htmp : r ≠ regTmp rs1 link := by
    by_cases hx : useA2 rs1 link = true
    · exact fun heq => h2 ⟨hx, heq.trans (if_pos hx)⟩
    · exact fun heq => h1 (heq.trans (if_neg hx))
  rw [hu.others r h0 htmp, h.others r hsp h0 h1 h2 hl]

theorem spilled_mem : (∀ i, i < 2 → load64 (spilled rs1 link c).mem (c.get sp + BitVec.ofNat 64 (8 * i)) =
      load64 c.mem (c.get sp + BitVec.ofNat 64 (8 * i))) ∧
    ∀ x, 8 ≤ (x - (c.get sp - 8)).toNat → (spilled rs1 link c).mem x = c.mem x := by
  rw [spilled]
  split
  · have hstored : (pushed [a2] c).mem = store64 c.mem (c.get sp - 8) (c.get a2) := pushed_mem
    refine ⟨fun i hi => ?_, fun x hx => pushed_outside hx⟩
    have haddr : c.get sp + BitVec.ofNat 64 (8 * i) = c.get sp - 8 + BitVec.ofNat 64 (8 * (i + 1)) := by
      rw [Nat.mul_succ, BitVec.ofNat_add]
      generalize BitVec.ofNat 64 (8 * i) = d
      bv_omega
    rw [hstored, haddr, load64_store64_apart (apart_add _ (by omega) (by omega))]
  · exact ⟨fun _ _ => rfl, fun _ _ => rfl⟩

theorem Kept.restored (h : Kept rs1 link lost c u) (hc : Left [a0, a1] lost s c) :
    Left [a0, a1] lost s (restored rs1 link u) := by
  obtain ⟨hpair, hout⟩ := @spilled_mem rs1 link c
  have hmem : (RvLookup.restored rs1 link u).mem = (spilled rs1 link c).mem := by
    rw [RvLookup.restored, ← h.mem]
    split
    · rw [popped, State.set_mem, loaded, loaded, State.set_mem]
    · rfl
  have hsp : (RvLookup.restored rs1 link u).get sp = c.get sp := by
    rw [RvLookup.restored]
    have hstack := h.stack
    rw [spilled] at hstack
    split
    · rename_i hx
      rw [if_pos hx, pushed_sp] at hstack
      rw [popped, State.get_set_self (by decide), hstack, List.length_singleton, sub_add_cancel]
    · rename_i hx
      rwa [if_neg hx] at hstack
  refine ⟨hsp.trans hc.stack, fun i r hi hl => ?_, fun r hne hr hl => ?_, fun x hx => ?_⟩
  · obtain ⟨hlt, -⟩ := List.getElem?_eq_some_iff.mp hi
    rw [hmem, hsp, hpair i hlt]
    exact hc.saved i r hi hl
  · obtain ⟨h0, h1⟩ := not_or.mp (List.mem_cons.not.mp hr)
    rw [List.mem_singleton] at h1
    by_cases hx : useA2 rs1 link = true ∧ r = a2
    · have hspilled : spilled rs1 link c = pushed [a2] c := if_pos hx.1
      have hload : load64 u.mem (u.get sp) = c.get a2 := by
        have hval := @pushed_load a2 c [a2] 0 (by decide) rfl
        rw [Nat.mul_zero, BitVec.add_zero] at hval
        rw [h.mem, h.stack, hspilled, hval]
      rw [hx.2, RvLookup.restored, if_pos hx.1, popped, State.get_set_of_ne (by decide), loaded, loaded,
        State.get_set_self (by decide), past_zero, hload]
      exact hc.others a2 (by decide) (by decide) (hx.2 ▸ hl)
    · rw [restored_get hne hx, h.others r hne h0 h1 hx hl]
      exact hc.others r hne hr hl
  · rw [hmem, hout, hc.mem x hx]
    have hstack := hc.stack
    have h16 : BitVec.ofNat 64 (8 * [a0, a1].length) = 16#64 := rfl
    rw [h16] at hstack
    rw [hstack]
    bv_omega

end Lookup

section Ends

/-- The registers of the guest after the instruction. -/
def returned (site : Site) (rd : Reg) (s : State) : State := s.set rd site.retAddr

theorem Left.returned (h : Left regs (fun r => r = rd ∨ lost r) s u) (hrd : rd ≠ zero → u.get rd = site.retAddr)
    (hsp : rd ≠ sp) (hregs : rd ∉ regs) : Left regs lost (returned site rd s) u := by
  have hother : ∀ r, r ≠ rd → (RvLookupRuns.returned site rd s).get r = s.get r := fun r hr => State.get_set_of_ne hr
  refine ⟨?_, fun i r hi hl => ?_, fun r hne hr hl => ?_, fun x hx => ?_⟩
  · rw [hother sp hsp.symm, h.stack]
  · have hne : r ≠ rd := by
      rintro rfl
      exact hregs (List.mem_of_getElem? hi)
    rw [hother r hne, h.saved i r hi fun hor => hor.elim hne hl]
  · by_cases heq : r = rd
    · subst heq
      by_cases hz : r = zero
      · rw [hz, State.get_zero, State.get_zero]
      · rw [hrd hz, RvLookupRuns.returned, State.get_set_self hz]
    · rw [hother r heq, h.others r hne hr fun hor => hor.elim heq hl]
  · rw [hother sp hsp.symm] at hx
    rw [h.mem x hx, RvLookupRuns.returned, State.set_mem]

theorem missed_get (hsp : r ≠ sp) (ha0 : r ≠ a0) (ha1 : r ≠ a1) (hrd : r ≠ rd) (hx : ¬ (useA2 rs1 link = true ∧ r = a2)) :
    (missed rs1 link site rd u).get r = u.get r := by
  rw [missed, pushed_get hsp, State.get_set_of_ne hrd, restored_get hsp hx, State.get_set_of_ne ha1,
    State.get_set_of_ne hrd, State.get_set_of_ne ha0]

theorem missed_a0 (hrd : rd ≠ a0) : (missed rs1 link site rd u).get a0 = u.get (regSpc rs1 link) := by
  rw [missed, pushed_get (by decide), State.get_set_of_ne hrd.symm, restored_get (by decide) fun hx => absurd hx.2 (by decide),
    State.get_set_of_ne (by decide), State.get_set_of_ne hrd.symm, State.get_set_self (by decide)]

theorem missed_a1 (hrd : rd ≠ a1) : (missed rs1 link site rd u).get a1 = site.basicBlock := by
  rw [missed, pushed_get (by decide), State.get_set_of_ne hrd.symm, restored_get (by decide) fun hx => absurd hx.2 (by decide),
    State.get_set_self (by decide)]

theorem missed_rd (hsp : rd ≠ sp) (hrd : rd ≠ zero) : (missed rs1 link site rd u).get rd = site.retAddr := by
  rw [missed, pushed_get hsp, State.get_set_self hrd]

theorem missed_saved : load64 (missed rs1 link site rd u).mem ((missed rs1 link site rd u).get sp + BitVec.ofNat 64 (8 * 0)) =
    (missed rs1 link site rd u).get s1 := by
  rw [missed, pushed_load (r := s1) (by decide) rfl, pushed_get (by decide)]

theorem Kept.missed (h : Kept rs1 link lost c u) (hc : Left [a0, a1] lost s c) (hrd : lost rd) (hsp : rd ≠ sp) (v : Word) :
    Left [s1, a0, a1] lost s ((missed rs1 link site rd u).set s1 v) := by
  have hkept := ((h.set (Or.inl rfl) (by decide) (u.get (regSpc rs1 link))).set
    (Or.inr (Or.inr (Or.inr hrd))) hsp site.retAddr).set (Or.inr (Or.inl rfl)) (by decide) site.basicBlock
  have hleft := (hkept.restored hc).set (Or.inr hrd) hsp site.retAddr
  have hpushed : Left [s1, a0, a1] lost s (RvLookup.missed rs1 link site rd u) := hleft.push (by decide) (by decide) (by decide)
  exact hpushed.set (Or.inl List.mem_cons_self) (by decide) v

/-- The doublewords below the stack pointer are not in the table of the translator. -/
def StackClear (entries sp : Word) : Prop := ∀ k, k < 3 → Clear entries (sp - BitVec.ofNat 64 (8 * (k + 1)))

theorem inMemory_pushed {entries : Word} (h : InMemory t entries c.mem)
    (hclear : ∀ i, i < regs.length → Clear entries (c.get sp - BitVec.ofNat 64 (8 * regs.length) + BitVec.ofNat 64 (8 * i))) :
    InMemory t entries (pushed regs c).mem := by
  rw [pushed_mem]
  refine h.storeAll fun i hi => hclear i ?_
  rwa [List.length_map] at hi

theorem moved_inMemory {entries : Word} (h : InMemory t entries c.mem) (hclear : Clear entries (c.get sp - 8)) :
    InMemory t entries (moved rs1 imm link c).mem := by
  have hpushed : InMemory t entries (pushed [a2] c).mem := by
    refine inMemory_pushed h fun i hi => ?_
    obtain rfl : i = 0 := Nat.lt_one_iff.mp hi
    rw [Nat.mul_zero, BitVec.add_zero]
    exact hclear
  rw [moved]
  split
  · split
    · rwa [State.set_mem]
    · exact hpushed
  · rwa [State.set_mem]

theorem StackClear.third {entries sp : Word} (h : StackClear entries sp) : Clear entries (sp - 16 - 8) := by
  have hclear := h 2 (by decide)
  have haddr : sp - BitVec.ofNat 64 (8 * (2 + 1)) = sp - 16 - 8 := by bv_omega
  rwa [haddr] at hclear

theorem saved_inMemory {entries : Word} (h : InMemory t entries s.mem) (hclear : StackClear entries (s.get sp)) :
    InMemory t entries (pushed [a0, a1] s).mem := by
  refine inMemory_pushed h fun i hi => ?_
  have hclear' := hclear (1 - i) (by omega)
  have haddr : s.get sp - BitVec.ofNat 64 (8 * (1 - i + 1)) =
      s.get sp - BitVec.ofNat 64 (8 * [a0, a1].length) + BitVec.ofNat 64 (8 * i) := by
    have hi' : i = 0 ∨ i = 1 := by
      have : i < 2 := hi
      omega
    have hlen : [a0, a1].length = 2 := rfl
    rw [hlen]
    rcases hi' with rfl | rfl
    · bv_omega
    · bv_omega
  rwa [haddr] at hclear'

theorem begun_inMemory {entries : Word} (h : InMemory t entries s.mem) (hclear : StackClear entries (s.get sp)) :
    InMemory t entries (begun rs1 imm link false s).mem := by
  refine moved_inMemory (saved_inMemory h hclear) ?_
  have hsp : (started false s).get sp = s.get sp - 16 := pushed_sp
  rw [hsp]
  exact hclear.third

end Ends

section Jumps

variable {writeP : Word} {is : List Inst}

def target (s : State) (rs1 : Reg) (imm : BitVec 12) : Word := s.get rs1 + imm.signExtend 64

/-- What a jump of the guest has to come to: the translation of its target if the
table has one, else the dispatcher, with the registers as the guest leaves them. -/
structure Agrees (mambo : Addresses) (site : Site) (rd rs1 : Reg) (imm : BitVec 12) (t : HashTable 64) (s u : State) :
    Prop where
  hit : Present t (target s rs1 imm) → hashLookup 1 t (target s rs1 imm) = .ok u.pc ∧
    Left [a0, a1] (fun _ => False) (returned site rd s) u
  miss : ¬ Present t (target s rs1 imm) → u.pc = mambo.dispatcherAddr ∧ u.get a0 = target s rs1 imm ∧
    u.get a1 = site.basicBlock ∧ Left [s1, a0, a1] (fun _ => False) (returned site rd s) u

/-- Translations begin at even addresses. -/
def EvenValues (t : HashTable 64) : Prop :=
  ∀ key value, Present t key → hashLookup 1 t key = .ok value → value.getLsbD 0 = false

/-- The code for a jump agrees with the table from every state of the guest. -/
def Faithful (mambo : Addresses) (site : Site) (rd rs1 : Reg) (imm : BitVec 12) (writeP : Word) (is : List Inst) : Prop :=
  ∀ (code : Code) (t : HashTable 64) (s : State), CodeAt rv (fetch code) writeP is → Reachable 1 t → EvenValues t →
    InMemory t mambo.entries s.mem → StackClear mambo.entries (s.get sp) →
    ∃ u, Reaches rv (fetch code) (s.goto writeP) u ∧ Agrees mambo site rd rs1 imm t s u

/-- The jumps whose registers and offset the lookup handles. -/
def Handled (rd rs1 : Reg) (imm : BitVec 12) : Prop :=
  rs1 ≠ sp ∧ rd ≠ sp ∧ (imm = 0 ∨ rs1 = a0 ∨ rs1 = rd ∧ rd ≠ zero)

theorem jumpRegister_some (h : jumpRegister mambo site writeP rd rs1 imm = some is) :
    inlineHashLookup rs1 imm (rd = ra) mambo site rd writeP false = some is ∧ rd ≠ s1 ∧ rd ≠ a0 ∧ rd ≠ a1 := by
  simp only [jumpRegister, Option.bind_eq_bind, Option.bind_eq_some_iff] at h
  obtain ⟨_, hguard, h⟩ := h
  refine ⟨h, ?_⟩
  have hrd : rd = zero ∨ isContextReg rd = false := by
    by_contra hne
    simp [guard, hne] at hguard
  rcases hrd with rfl | hrd
  · exact ⟨by decide, by decide, by decide⟩
  · rw [isContextReg, decide_eq_false_iff_not, not_or, not_or] at hrd
    exact hrd

theorem Handled.target (h : Handled rd rs1 imm) (h1 : rd ≠ a1) : imm = 0 ∨ rs1 ≠ zero ∧ rs1 ≠ a1 := by
  rcases h.2.2 with himm | rfl | ⟨rfl, hz⟩
  · exact Or.inl himm
  · exact Or.inr ⟨by decide, by decide⟩
  · exact Or.inr ⟨hz, h1⟩

theorem lookup_left (hlookup : inlineHashLookup rs1 imm link mambo site rd writeP triBi = some is)
    (hnear : MissNear rs1 link mambo.traces site rd triBi) (hrd : rd ≠ s1 ∧ rd ≠ a0 ∧ rd ≠ a1) (hreach : InReach mambo writeP)
    (hcode : CodeAt rv (fetch code) writeP is)
    (ht : Shaped 1 t) (heven : EvenValues t) (hmem : InMemory t mambo.entries (begun rs1 imm link triBi c).mem)
    (hc : Left [a0, a1] lost s (started triBi c)) (hget : (started triBi c).get rs1 = s.get rs1)
    (hrs1 : rs1 ≠ sp) (hrdSp : rd ≠ sp) (himm : imm = 0 ∨ rs1 ≠ zero ∧ rs1 ≠ a1) (hlost : lost rd)
    (hused : useA2 rs1 link = true ∨ imm = 0 ∨ lost rs1) :
    ∃ u, Reaches rv (fetch code) (c.goto writeP) u ∧ (rd ≠ zero → u.get rd = site.retAddr) ∧
      (Hit t mambo.traces triBi (target s rs1 imm) →
        hashLookup 1 t (target s rs1 imm) = .ok u.pc ∧ Left [a0, a1] lost s u) ∧
      (¬ Hit t mambo.traces triBi (target s rs1 imm) → u.pc = mambo.dispatcherAddr ∧ u.get a0 = target s rs1 imm ∧
        u.get a1 = site.basicBlock ∧ Left [s1, a0, a1] lost s u) := by
  obtain ⟨h9, h0, h1⟩ := hrd
  obtain ⟨u, hu, hhit, hmiss⟩ := lookup_run hlookup hnear hcode hreach h0 ht rfl hmem
  have hkept : Kept rs1 link lost (started triBi c) u := @Kept.along rs1 link _ _ u lost (kept_moved hrs1 hused) hu
  have hspc : (begun rs1 imm link triBi c).get (regSpc rs1 link) = target s rs1 imm := by
    rw [begun, moved_spc hrs1 himm, hget, target]
  rw [hspc] at hhit hmiss
  by_cases hp : Hit t mambo.traces triBi (target s rs1 imm)
  · obtain ⟨value, hvalue, hrun⟩ := hhit hp
    rw [even_masked (heven _ _ hp.1 hvalue)] at hrun
    have hleft := (hkept.restored hc).set (Or.inr hlost) hrdSp site.retAddr
    exact ⟨_, hrun, fun hz => State.get_set_self hz, fun _ => ⟨hvalue, hleft.goto _⟩, fun hno => absurd hp hno⟩
  · obtain ⟨v, hrun⟩ := hmiss hp
    have hleft : Left [s1, a0, a1] lost s ((missed rs1 link site rd u).set s1 v) := hkept.missed hc hlost hrdSp v
    refine ⟨_, hrun, fun hz => ?_, fun hyes => absurd hyes hp, fun _ => ⟨rfl, ?_, ?_, hleft.goto _⟩⟩
    · rw [State.get_goto, State.get_set_of_ne h9, missed_rd hrdSp hz]
    · rw [State.get_goto, State.get_set_of_ne (by decide), missed_a0 h0, hu.spc, hspc]
    · rw [State.get_goto, State.get_set_of_ne (by decide), missed_a1 h1]

theorem hit_false {traces key : Word} : Hit t traces false key ↔ Present t key :=
  ⟨And.left, fun hp => ⟨hp, fun _ _ hfalse => absurd hfalse Bool.false_ne_true⟩⟩

theorem faithful_of_handled (hlookup : inlineHashLookup rs1 imm link mambo site rd writeP false = some is)
    (hrd : rd ≠ s1 ∧ rd ≠ a0 ∧ rd ≠ a1) (hreach : InReach mambo writeP) (h : Handled rd rs1 imm) :
    Faithful mambo site rd rs1 imm writeP is := by
  intro code t s hcode ht heven hmem hclear
  let lost : Reg → Prop := fun r => r = rd ∨ False
  have hused : useA2 rs1 link = true ∨ imm = 0 ∨ lost rs1 := by
    rcases h.2.2 with himm | ha0 | ⟨hrs1, -⟩
    · exact Or.inr (Or.inl himm)
    · exact Or.inl (by rw [useA2, decide_eq_true_iff]; exact Or.inl ha0)
    · exact Or.inr (Or.inr (Or.inl hrs1))
  have hstarted : Left [a0, a1] lost s (started false s) := left_pushed (by decide)
  obtain ⟨u, hrun, hret, hhit, hmiss⟩ := lookup_left hlookup missNear_plain hrd hreach hcode ht.shaped heven
    (begun_inMemory hmem hclear) hstarted (pushed_get h.1) h.1 h.2.1 (h.target hrd.2.2) (Or.inl rfl) hused
  rw [hit_false] at hhit hmiss
  refine ⟨u, hrun, fun hp => ?_, fun hp => ?_⟩
  · obtain ⟨hvalue, hleft⟩ := hhit hp
    exact ⟨hvalue, hleft.returned hret h.2.1 (by simp [hrd.2.1, hrd.2.2])⟩
  · obtain ⟨hpc, ha0, ha1, hleft⟩ := hmiss hp
    exact ⟨hpc, ha0, ha1, hleft.returned hret h.2.1 (by simp [hrd.1, hrd.2.1, hrd.2.2])⟩

theorem exists_empty : ∃ t : HashTable 64, Reachable 1 t ∧ ∀ key, ¬ Present t key := by
  obtain ⟨t, hinit, hh⟩ := hashInit_holds 1 (⟨0, 0, 0, fun _ => ⟨0, 0⟩⟩ : HashTable 64)
  refine ⟨t, ⟨_, t, [], hinit, rfl⟩, fun key hp => ?_⟩
  obtain ⟨hkey, i, hi, heq⟩ := hp
  rw [← keys_of_lt t hi] at heq
  exact absurd ((hh.stored key hkey _).mpr ⟨i, heq, rfl⟩) (by simp [lastValue])

theorem stackClear_below (entries : Word) : StackClear entries (entries - 4096) := by
  intro k hk i j hi hj
  have hslots : 16 * slots = 8388752 := by decide
  have hk' : k = 0 ∨ k = 1 ∨ k = 2 := by omega
  rcases hk' with rfl | rfl | rfl
  · bv_omega
  · bv_omega
  · bv_omega

theorem offset_ne (v : Word) (himm : imm ≠ 0) : v + imm.signExtend 64 ≠ v := by
  intro h
  have hzero : imm.signExtend 64 = 0 := by rwa [add_eq_left] at h
  refine himm (BitVec.eq_of_toInt_eq ?_)
  have hint := congrArg BitVec.toInt hzero
  rwa [BitVec.toInt_signExtend_of_le (by decide)] at hint

/-- What the code does for a jump that it does not handle shows in the state at the
dispatcher. -/
theorem handled_of_left {v : Word} (hlookup : link = decide (rd = ra)) (hrd : rd ≠ s1 ∧ rd ≠ a0 ∧ rd ≠ a1)
    (hu : Along rs1 link (begun rs1 imm link false s) u)
    (htarget : ((missed rs1 link site rd u).set s1 v).get a0 = target s rs1 imm)
    (hleft : Left [s1, a0, a1] (fun _ => False) (returned site rd s) ((missed rs1 link site rd u).set s1 v)) :
    Handled rd rs1 imm := by
  obtain ⟨h9, h0, h1⟩ := hrd
  rw [State.get_set_of_ne (by decide), missed_a0 h0, hu.spc, target] at htarget
  have hstarted : ∀ r, r ≠ sp → (started false s).get r = s.get r := fun r hr => pushed_get hr
  have hsp : (started false s).get sp = s.get sp - 16 := pushed_sp
  have hrs1 : rs1 ≠ sp := by
    rintro rfl
    have hx : ¬ useA2 sp link = true := fun hx => useA2_ne_sp hx rfl
    have hspc : regSpc sp link = sp := if_neg hx
    rw [hspc, begun, moved, if_neg hx, State.get_set_self (by decide), hsp] at htarget
    have heq := add_right_cancel htarget
    bv_omega
  have hrdSp : rd ≠ sp := by
    rintro rfl
    have hstack := hleft.stack
    have hmissed : (missed rs1 link site sp u).get sp = site.retAddr - 8 := by
      rw [missed, pushed_sp, State.get_set_self (by decide)]
      rfl
    have hlen : BitVec.ofNat 64 (8 * [s1, a0, a1].length) = 24#64 := rfl
    rw [State.get_set_of_ne (by decide), hmissed, returned, State.get_set_self (by decide), hlen] at hstack
    bv_omega
  refine ⟨hrs1, hrdSp, ?_⟩
  by_contra hno
  rw [not_or, not_or, not_and] at hno
  obtain ⟨himm, ha0, hrs1rd⟩ := hno
  have hx : ¬ useA2 rs1 link = true ∨ rs1 = a1 := by
    by_contra hand
    rw [not_or, not_not, useA2, decide_eq_true_iff] at hand
    rcases hand.1 with h | h | ⟨hl, h⟩
    · exact ha0 h
    · exact hand.2 h
    · rw [hlookup, decide_eq_true_iff] at hl
      exact hrs1rd (h.trans hl.symm) (by rw [hl]; decide)
  by_cases ha1 : rs1 = a1
  · subst ha1
    have hspc : regSpc a1 link = a1 := by
      rw [regSpc]
      split <;> rfl
    have huse : useA2 a1 link = true := by
      rw [useA2, decide_eq_true_iff]
      exact Or.inr (Or.inl rfl)
    have hsame : ¬ a1 ≠ regSpc a1 link := fun hne => hne hspc.symm
    rw [hspc, begun, moved, if_pos huse, if_neg hsame, pushed_get (by decide), hstarted a1 (by decide)] at htarget
    exact offset_ne _ himm htarget.symm
  · have hx := hx.resolve_right ha1
    have hspc : regSpc rs1 link = rs1 := if_neg hx
    rw [hspc, begun, moved, if_neg hx] at htarget
    by_cases hz : rs1 = zero
    · rw [hz, State.set_zero, State.get_zero, State.get_zero] at htarget
      exact offset_ne _ himm htarget.symm
    have hne : rs1 ≠ rd := fun heq => hrs1rd heq (heq ▸ hz)
    have hval : u.get rs1 = s.get rs1 + imm.signExtend 64 := by
      have hspcVal := hu.spc
      rwa [hspc, begun, moved, if_neg hx, State.get_set_self hz, hstarted rs1 hrs1] at hspcVal
    have hmissed : (missed rs1 link site rd u).get rs1 = u.get rs1 :=
      missed_get hrs1 ha0 ha1 hne fun hand => hx hand.1
    have hreturned : (returned site rd s).get rs1 = s.get rs1 := State.get_set_of_ne hne
    by_cases h9' : rs1 = s1
    · subst h9'
      have hload := hleft.saved 0 s1 rfl not_false
      rw [State.set_mem, State.get_set_of_ne (by decide), missed_saved, hmissed, hval, hreturned] at hload
      exact offset_ne _ himm hload
    · have hothers := hleft.others rs1 hrs1 (by simp [h9', ha0, ha1]) not_false
      rw [State.get_set_of_ne h9', hmissed, hval, hreturned] at hothers
      exact offset_ne _ himm hothers

theorem fetch_outside (h : ∀ k, k < bytes is → a ≠ past writeP k) : fetch (emit writeP is fun _ => none) a = none := by
  rw [fetch, emit_outside h]

theorem handled_of_faithful (h : jumpRegister mambo site writeP rd rs1 imm = some is) (hreach : InReach mambo writeP)
    (hout : ∀ k, k < bytes is → mambo.dispatcherAddr ≠ past writeP k)
    (hfaithful : Faithful mambo site rd rs1 imm writeP is) : Handled rd rs1 imm := by
  obtain ⟨hlookup, hrd⟩ := jumpRegister_some h
  obtain ⟨t, ht, hempty⟩ := exists_empty
  let s : State := ⟨0, fun r => if r = sp then mambo.entries - 4096 else 0, layout t mambo.entries⟩
  have hclear : StackClear mambo.entries (s.get sp) := stackClear_below _
  have hmem : InMemory t mambo.entries s.mem := layout_inMemory t _
  have hcode : CodeAt rv (fetch (emit writeP is fun _ => none)) writeP is :=
    emit_codeAt (lt_of_le_of_lt (bytes_inlineHashLookup_le hlookup) (by decide))
  obtain ⟨w, hw, hagrees⟩ := hfaithful _ t s hcode ht (fun key _ hp => absurd hp (hempty key)) hmem hclear
  obtain ⟨hpc, ha0, -, hleft⟩ := hagrees.miss (hempty _)
  obtain ⟨u, hu, -, hmiss⟩ := lookup_run hlookup missNear_plain hcode hreach hrd.2.1 ht.shaped rfl (begun_inMemory hmem hclear)
  obtain ⟨v, hrun⟩ := hmiss fun hhit => hempty _ hhit.1
  have hstop : fetch (emit writeP is fun _ => none) w.pc = none := by
    rw [hpc]
    exact fetch_outside hout
  have hend := Reaches.stop_unique hw hstop hrun (fetch_outside hout)
  subst hend
  exact handled_of_left rfl hrd hu ha0 ⟨hleft.stack, hleft.saved, hleft.others, hleft.mem⟩

/-- The code for an indirect jump agrees with the table, and the guest does not
notice it, exactly for the jumps that the lookup handles. -/
theorem jumpRegister_faithful_iff (h : jumpRegister mambo site writeP rd rs1 imm = some is) (hreach : InReach mambo writeP)
    (hout : ∀ k, k < bytes is → mambo.dispatcherAddr ≠ past writeP k) :
    Faithful mambo site rd rs1 imm writeP is ↔ Handled rd rs1 imm := by
  obtain ⟨hlookup, hrd⟩ := jumpRegister_some h
  exact ⟨handled_of_faithful h hreach hout, faithful_of_handled hlookup hrd hreach⟩

def someAddresses : Addresses := ⟨0x10000000, 0x10000100, 0x10000200, 0x10000300, 0x20000000, 0x11000000⟩

theorem someAddresses_inReach : InReach someAddresses 0x10000400 := ⟨by decide, by decide, by decide⟩

theorem someAddresses_outside (hlen : bytes is ≤ 512) : ∀ k, k < bytes is → someAddresses.dispatcherAddr ≠ past 0x10000400 k := by
  intro k hk heq
  have hsub := congrArg BitVec.toNat heq
  rw [past, BitVec.toNat_add, BitVec.toNat_ofNat] at hsub
  have hleft : someAddresses.dispatcherAddr.toNat = 0x10000100 := rfl
  have hright : (0x10000400 : Word).toNat = 0x10000400 := rfl
  rw [hleft, hright] at hsub
  omega

/-- A return through ra. -/
theorem jumpRegister_faithful_ret : ∃ is, jumpRegister someAddresses ⟨0x400000, 2, 7⟩ 0x10000400 zero ra 0 = some is ∧
    Faithful someAddresses ⟨0x400000, 2, 7⟩ zero ra 0 0x10000400 is := by
  obtain ⟨is, h⟩ := Option.isSome_iff_exists.mp
    (show (jumpRegister someAddresses ⟨0x400000, 2, 7⟩ 0x10000400 zero ra 0).isSome by with_unfolding_all decide)
  have hlen := bytes_inlineHashLookup_le (jumpRegister_some h).1
  exact ⟨is, h, (jumpRegister_faithful_iff h someAddresses_inReach (someAddresses_outside hlen)).mpr
    ⟨by decide, by decide, Or.inl rfl⟩⟩

/-- A jump through t0 with an offset leaves the offset in t0. -/
theorem jumpRegister_offset : ∃ is, jumpRegister someAddresses ⟨0x400000, 4, 7⟩ 0x10000400 zero 5 8 = some is ∧
    ¬ Faithful someAddresses ⟨0x400000, 4, 7⟩ zero 5 8 0x10000400 is := by
  obtain ⟨is, h⟩ := Option.isSome_iff_exists.mp
    (show (jumpRegister someAddresses ⟨0x400000, 4, 7⟩ 0x10000400 zero 5 8).isSome by with_unfolding_all decide)
  have hlen := bytes_inlineHashLookup_le (jumpRegister_some h).1
  refine ⟨is, h, fun hfaithful => ?_⟩
  have hhandled := handled_of_faithful h someAddresses_inReach (someAddresses_outside hlen) hfaithful
  exact absurd hhandled.2.2 (by decide)

end Jumps

end Mambo.RvLookupRuns
