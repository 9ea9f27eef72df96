import Mambo.RvTriBi

namespace Mambo.RvTriBiRuns

open Bytes ByteMemory CodeRuns Rv RvCode RvEmit RvExits RvCodeRoom CodeCacheHash HashRefines TableMemory RvLookup
  RvLookupRuns RvTriBi

variable {code : Code} {mambo : Addresses} {site : Site} {rd rs1 : Reg} {imm : BitVec 12} {w slot tpc : Word}
  {c s : State} {t : HashTable 64} {is : List Inst} {m n : Nat} {ps calls : List (Word × Word)} {e e₀ e' : TriBi}

section Predictions

/-- A place that code at an address can jump to. -/
structure JumpsTo (a target : Word) : Prop where
  even : target.getLsbD 0 = false
  above : (target - a).toInt < 2 ^ 30
  below : -2 ^ 30 ≤ (target - a).toInt

theorem triBiJumpTo_run (h : triBiJumpTo slot tpc = some is) (heven : tpc.getLsbD 0 = false)
    (hlt : (tpc - slot).toInt < 2 ^ 31 - 2048) (hcode : CodeAt rv (fetch code) slot is) :
    ∃ u : State, Reaches rv (fetch code) (c.goto slot) (u.goto tpc) ∧ ∀ r, r ≠ a0 → u.get r = c.get r := by
  rw [triBiJumpTo] at h
  cases hjal : jalHelper slot tpc zero with
  | some jal =>
      rw [hjal] at h
      obtain rfl := Option.some.inj h
      exact ⟨c, Relation.ReflTransGen.single (steps_exec hcode.1 (jalHelper_exec hjal c)), fun _ _ => rfl⟩
  | none =>
      rw [hjal] at h
      obtain ⟨v, hrun⟩ := jalrHelper_run (s := c) h (by decide) heven hlt hcode
      exact ⟨c.set a0 v, hrun, fun r hr => State.get_set_of_ne hr⟩

theorem predictionReg_ne_rs1 : predictionReg rs1 ≠ rs1 := by
  rw [predictionReg]
  split
  · rename_i h
    rw [h]
    decide
  · rename_i h
    exact fun heq => h heq.symm

theorem predictionReg_cases : predictionReg rs1 = a0 ∨ predictionReg rs1 = a1 := by
  rw [predictionReg]
  split
  · exact Or.inr rfl
  · exact Or.inl rfl

theorem predictionReg_ne_zero : predictionReg rs1 ≠ zero := by
  rcases @predictionReg_cases rs1 with h | h <;> rw [h] <;> decide

theorem prediction_run {target : Word} (h : predictionCode site rd rs1 (past w n) target tpc = some is) (hn : n ≤ 2 ^ 16)
    (hrd : rd ≠ a0) (hjumps : JumpsTo w tpc) (hcode : CodeAt rv (fetch code) (past w n) is) :
    (c.get rs1 = target → ∃ u : State, Reaches rv (fetch code) (c.goto (past w n)) (u.goto tpc) ∧
        (rd ≠ zero → u.get rd = site.retAddr)) ∧
      (c.get rs1 ≠ target → Reaches rv (fetch code) (c.goto (past w n))
        ((c.set (predictionReg rs1) target).goto (past w (n + bytes is)))) := by
  simp only [predictionCode, Option.bind_eq_bind, Option.bind_eq_some_iff, Option.pure_def, Option.some.injEq] at h
  obtain ⟨jump, hjump, branch, hbranch, rfl⟩ := h
  have hload := bytes_copyToReg (predictionReg rs1) target
  have hlink := @bytes_linkCode_le rd site
  have hsize := size_branchHelper hbranch
  have hjumpLen := bytes_triBiJumpTo hjump
  rw [codeAt_append_past, codeAt_cons, codeAt_append_past] at hcode
  obtain ⟨hloadCode, hbranchCode, hlinkCode, hjumpCode⟩ := hcode
  rw [hsize] at hlinkCode hjumpCode
  have hloadRun := copyToReg_run (s := c) predictionReg_ne_zero hloadCode
  simp only [past_past] at hloadRun hbranchCode hlinkCode hjumpCode hjump hbranch
  let c₁ := c.set (predictionReg rs1) target
  have hexec := branchHelper_exec hbranch (near_past (by omega) (by omega)) c₁
  have hget : c₁.get rs1 = c.get rs1 := State.get_set_of_ne predictionReg_ne_rs1.symm
  have hne : ∀ v v' : Word, condHolds bne v v' = !(v == v') := fun _ _ => rfl
  rw [hget, State.get_set_self predictionReg_ne_zero, hne] at hexec
  have hbranchRun : Steps rv (fetch code) (c₁.goto _) _ := steps_exec hbranchCode hexec
  constructor
  · intro heq
    rw [heq, beq_self_eq_true, Bool.not_true, if_neg Bool.false_ne_true, past_past] at hbranchRun
    have hlinkRun := linkCode_run (u := c₁) hlinkCode
    rw [past_past] at hlinkRun
    have hreach : (tpc - past w (n + (bytes (copyToReg (predictionReg rs1) target) + (4 + bytes (linkCode site rd))))).toInt <
        2 ^ 31 - 2048 := far_reach hjumps.above hjumps.below (by omega)
    have haddr : n + bytes (copyToReg (predictionReg rs1) target) + 4 + bytes (linkCode site rd) =
        n + (bytes (copyToReg (predictionReg rs1) target) + (4 + bytes (linkCode site rd))) := by omega
    rw [haddr] at hlinkRun hjumpCode
    obtain ⟨u, hjumpRun, hu⟩ := triBiJumpTo_run (c := c₁.set rd site.retAddr) hjump hjumps.even hreach hjumpCode
    refine ⟨u, (hloadRun.tail hbranchRun).trans (hlinkRun.trans hjumpRun), fun hz => ?_⟩
    rw [hu rd hrd, State.get_set_self hz]
  · intro hneq
    have hbeq : (c.get rs1 == target) = false := beq_eq_false_iff_ne.mpr hneq
    rw [hbeq, Bool.not_false, if_pos rfl] at hbranchRun
    have hend : n + bytes (copyToReg (predictionReg rs1) target ++ branch :: (linkCode site rd ++ jump)) =
        n + (bytes (copyToReg (predictionReg rs1) target) + (4 + (bytes (linkCode site rd) + bytes jump))) := by
      rw [bytes_append, bytes, bytes_append, hsize]
    rw [hend]
    exact hloadRun.tail hbranchRun

/-- The state between the predictions: a0 and a1 are on the stack. -/
structure Entered (rs1 : Reg) (s c : State) : Prop where
  stack : c.get sp = s.get sp - 16
  mem : c.mem = (pushed [a0, a1] s).mem
  source : c.get rs1 = s.get rs1

theorem entered_pushed (hrs1 : rs1 ≠ sp) : Entered rs1 s (pushed [a0, a1] s) := ⟨pushed_sp, rfl, pushed_get hrs1⟩

theorem Entered.set (h : Entered rs1 s c) (v : Word) : Entered rs1 s (c.set (predictionReg rs1) v) := by
  have hsp : sp ≠ predictionReg rs1 := by
    rcases @predictionReg_cases rs1 with h | h <;> rw [h] <;> decide
  exact ⟨(State.get_set_of_ne hsp).trans h.stack, State.set_mem.trans h.mem,
    (State.get_set_of_ne predictionReg_ne_rs1.symm).trans h.source⟩

theorem chain_run (h : Chain code site rd rs1 w n ps m) (hm : m ≤ 2 ^ 16) (hrd : rd ≠ a0)
    (hjumps : ∀ p ∈ ps, JumpsTo w p.2) (hc : Entered rs1 s c) :
    (∃ p ∈ ps, p.1 = s.get rs1 ∧ ∃ u : State, Reaches rv (fetch code) (c.goto (past w n)) (u.goto p.2) ∧
        (rd ≠ zero → u.get rd = site.retAddr)) ∨
      (∀ p ∈ ps, p.1 ≠ s.get rs1) ∧
        ∃ c' : State, Reaches rv (fetch code) (c.goto (past w n)) (c'.goto (past w m)) ∧ Entered rs1 s c' := by
  induction ps generalizing n c with
  | nil =>
      obtain rfl : n = m := h
      exact Or.inr ⟨fun p hp => absurd hp List.not_mem_nil, c, Relation.ReflTransGen.refl, hc⟩
  | cons p ps ih =>
      obtain ⟨is, his, hcode, hrest⟩ := h
      have hle := hrest.le
      obtain ⟨htaken, hpassed⟩ := prediction_run (c := c) his (by omega) hrd (hjumps p List.mem_cons_self) hcode
      rw [hc.source] at htaken hpassed
      by_cases heq : s.get rs1 = p.1
      · obtain ⟨u, hrun, hret⟩ := htaken heq
        exact Or.inl ⟨p, List.mem_cons_self, heq.symm, u, hrun, hret⟩
      · have hfirst := hpassed heq
        rcases ih hrest (fun q hq => hjumps q (List.mem_cons_of_mem _ hq)) (hc.set p.1) with
          ⟨q, hq, hqeq, u, hrun, hret⟩ | ⟨hnone, c', hrun, hc'⟩
        · exact Or.inl ⟨q, List.mem_cons_of_mem _ hq, hqeq, u, hfirst.trans hrun, hret⟩
        · refine Or.inr ⟨fun q hq => ?_, c', hfirst.trans hrun, hc'⟩
          rcases List.mem_cons.mp hq with rfl | hq
          · exact Ne.symm heq
          · exact hnone q hq

end Predictions

section Exits

/-- What an exit with the predictions in front comes to: the translation of the target
if it is predicted or has one that is not a trace, else the dispatcher. -/
structure Transfers (mambo : Addresses) (rs1 : Reg) (imm : BitVec 12) (ps : List (Word × Word)) (triBi : Bool)
    (t : HashTable 64) (s u : State) : Prop where
  predicted : (∃ p ∈ ps, p.1 = target s rs1 imm) → ∃ p ∈ ps, p.1 = target s rs1 imm ∧ u.pc = p.2
  hit : (∀ p ∈ ps, p.1 ≠ target s rs1 imm) → Hit t mambo.traces triBi (target s rs1 imm) →
    hashLookup 1 t (target s rs1 imm) = .ok u.pc
  miss : (∀ p ∈ ps, p.1 ≠ target s rs1 imm) → ¬ Hit t mambo.traces triBi (target s rs1 imm) →
    u.pc = mambo.dispatcherAddr ∧ u.get a0 = target s rs1 imm

/-- The offset is zero, or it is applied where it should be and no prediction is
compared without it. -/
def OffsetHandled (rs1 : Reg) (imm : BitVec 12) (ps : List (Word × Word)) (s : State) : Prop :=
  imm = 0 ∨ rs1 ≠ zero ∧ rs1 ≠ a1 ∧ ∀ p ∈ ps, p.1 ≠ s.get rs1 ∧ p.1 ≠ target s rs1 imm

theorem target_zero : target s rs1 0 = s.get rs1 := by
  have hzero : (0 : BitVec 12).signExtend 64 = 0 := by decide
  rw [target, hzero, add_zero]

theorem Entered.left {lost : Reg → Prop} (h : Entered rs1 s c) (hlost : ∀ r, lost r) : Left [a0, a1] lost s c :=
  ⟨h.stack, fun _ r _ hl => absurd (hlost r) hl, fun r _ _ hl => absurd (hlost r) hl, fun x hx => by
    rw [h.mem]
    exact (@left_pushed s [a0, a1] (fun _ => True) (by decide)).mem x hx⟩

theorem Entered.inMemory (h : Entered rs1 s c) (hmem : InMemory t mambo.entries s.mem)
    (hclear : StackClear mambo.entries (s.get sp)) : InMemory t mambo.entries (begun rs1 imm false true c).mem := by
  refine moved_inMemory ?_ ?_
  · show InMemory t mambo.entries c.mem
    rw [h.mem]
    exact saved_inMemory hmem hclear
  · show Clear mambo.entries (c.get sp - 8)
    rw [h.stack]
    exact hclear.third

theorem stage_run (h : Stage mambo site w rd rs1 imm ps e) (hroom : ps.length ≤ triBiSlots)
    (hnear : MissNear rs1 false mambo.traces site rd true)
    (hrd : rd ≠ s1 ∧ rd ≠ a0 ∧ rd ≠ a1) (hreach : InReach mambo (past w lookupOffset)) (hjumps : ∀ p ∈ ps, JumpsTo w p.2)
    (ht : Shaped 1 t) (heven : EvenValues t) (hmem : InMemory t mambo.entries s.mem)
    (hclear : StackClear mambo.entries (s.get sp)) (hrs1 : rs1 ≠ sp) (hrdSp : rd ≠ sp)
    (himm : OffsetHandled rs1 imm ps s) :
    ∃ u, Reaches rv (fetch e.code) (s.goto w) u ∧ (rd ≠ zero → u.get rd = site.retAddr) ∧
      Transfers mambo rs1 imm ps true t s u := by
  obtain ⟨m, jal, -, hm, hchain, hjal, hjalCode, -⟩ := h.chain
  obtain ⟨is, hlookup, hlookupCode⟩ := h.lookup
  have hspace : predictionFspace = 13 := rfl
  have hslots : triBiSlots = 4 := rfl
  rw [hspace] at hm
  rw [hslots] at hroom
  have hstart := @push_run _ _ s [a0, a1] (by decide) (by decide) h.saved
  rw [past_zero] at hstart
  -- a register that is compared without an offset is compared with the target
  have hsame : ∀ p ∈ ps, p.1 = s.get rs1 → p.1 = target s rs1 imm := by
    intro p hp heq
    rcases himm with rfl | ⟨-, -, hnone⟩
    · rw [target_zero, heq]
    · exact absurd heq (hnone p hp).1
  have hback : (∀ p ∈ ps, p.1 ≠ s.get rs1) → ∀ p ∈ ps, p.1 ≠ target s rs1 imm := by
    intro hnone p hp
    rcases himm with rfl | ⟨-, -, hother⟩
    · rw [target_zero]
      exact hnone p hp
    · exact (hother p hp).2
  rcases chain_run hchain (by omega) hrd.2.1 hjumps (entered_pushed hrs1) with
    ⟨p, hp, heq, u, hrun, hret⟩ | ⟨hnone, c, hrun, hc⟩
  · have hmatch := hsame p hp heq
    exact ⟨u.goto p.2, hstart.trans hrun, hret, fun _ => ⟨p, hp, hmatch, rfl⟩, fun hno => absurd hmatch (hno p hp),
      fun hno => absurd hmatch (hno p hp)⟩
  · have hjalRun : Steps rv (fetch e.code) (c.goto (past w m)) (c.goto (past w lookupOffset)) :=
      steps_exec hjalCode (jalHelper_exec hjal c)
    have hoff : imm = 0 ∨ rs1 ≠ zero ∧ rs1 ≠ a1 := himm.imp_right fun h => ⟨h.1, h.2.1⟩
    obtain ⟨u, hlookupRun, hret, hhit, hmiss⟩ := lookup_left hlookup hnear hrd hreach hlookupCode ht heven
      (hc.inMemory hmem hclear) (hc.left fun _ => trivial) hc.source hrs1 hrdSp hoff trivial (Or.inr (Or.inr trivial))
    refine ⟨u, ((hstart.trans hrun).tail hjalRun).trans hlookupRun, hret, fun ⟨p, hp, heq⟩ => ?_, fun _ hyes => (hhit hyes).1,
      fun _ hno => ⟨(hmiss hno).1, (hmiss hno).2.1⟩⟩
    exact absurd heq (hback hnone p hp)

theorem stage_switched (h : Stage mambo site w rd rs1 imm ps e) (hfull : ps.length = triBiSlots) {p : Word × Word}
    (hinsert : insertTriBiPrediction mambo site e p.1 p.2 = some e') :
    ∃ is, inlineHashLookup rs1 imm (rd = ra) mambo { site with readAddress := e.branchSkippedAddr } rd w false = some is ∧
      e'.code = emit w is e.code := by
  obtain ⟨hexit, hihlu⟩ := h.addresses
  obtain ⟨hrd, hrs1, himm⟩ := h.registers
  have hcount : ¬ e.numberOfPredictions < triBiSlots := by
    rw [h.count, hfull]
    exact lt_irrefl _
  simp only [insertTriBiPrediction, hrd, hrs1, himm, hexit, h.linked.1, if_neg hcount, Option.bind_eq_bind,
    Option.bind_eq_some_iff, Option.pure_def, Option.some.injEq] at hinsert
  obtain ⟨-, -, is, his, rfl⟩ := hinsert
  exact ⟨is, his, rfl⟩

theorem switched_run {skipped : Word} (hlookup : inlineHashLookup rs1 imm (rd = ra) mambo
      { site with readAddress := skipped } rd w false = some is)
    (hskipped : rd = ra → skipped = site.readAddress) (hra : rd = zero ∨ rd = ra) (hreach : InReach mambo w)
    (ht : Shaped 1 t) (heven : EvenValues t) (hmem : InMemory t mambo.entries s.mem)
    (hclear : StackClear mambo.entries (s.get sp)) (hrs1 : rs1 ≠ sp) (himm : imm = 0 ∨ rs1 ≠ zero ∧ rs1 ≠ a1) :
    ∃ u, Reaches rv (fetch (emit w is code)) (s.goto w) u ∧ (rd ≠ zero → u.get rd = site.retAddr) ∧
      Transfers mambo rs1 imm [] false t s u := by
  have hrd : rd ≠ s1 ∧ rd ≠ a0 ∧ rd ≠ a1 ∧ rd ≠ sp := by
    rcases hra with rfl | rfl <;> decide
  have hcode : CodeAt rv (fetch (emit w is code)) w is :=
    emit_codeAt (lt_of_le_of_lt (bytes_inlineHashLookup_le hlookup) (by decide))
  have hstarted : Left [a0, a1] (fun _ => True) s (started false s) := left_pushed (by decide)
  obtain ⟨u, hrun, hret, hhit, hmiss⟩ := lookup_left hlookup missNear_plain ⟨hrd.1, hrd.2.1, hrd.2.2.1⟩ hreach hcode ht heven
    (begun_inMemory hmem hclear) hstarted (pushed_get hrs1) hrs1 hrd.2.2.2 himm trivial (Or.inr (Or.inr trivial))
  refine ⟨u, hrun, fun hz => ?_, fun ⟨p, hp, _⟩ => absurd hp List.not_mem_nil, fun _ hyes => (hhit hyes).1,
    fun _ hno => ⟨(hmiss hno).1, (hmiss hno).2.1⟩⟩
  rw [hret hz, Site.retAddr, Site.retAddr, hskipped (hra.resolve_left hz)]

/-- The predictions that are in the code after some calls. -/
def predictions (calls : List (Word × Word)) : List (Word × Word) := if calls.length ≤ triBiSlots then calls else []

theorem short_of_lt {v : Word} (h : v.toNat < 2 ^ 47) : Short v := by
  rw [Short, BitVec.toInt_eq_toNat_of_lt (by omega)]
  omega

/-- An indirect branch at the end of a trace fragment, at every stage of its exit, and
the room that an inserted prediction takes. -/
theorem triBi_follows {skippedAddr : Word} {code₀ : Code}
    (hscan : scanTriBi mambo site w rd rs1 imm skippedAddr code₀ = some e₀)
    (hcalls : insertAll mambo site e₀ calls = some e) (hlen : calls.length ≤ triBiSlots + 1)
    (hguest : ∀ p ∈ calls, p.1.toNat < 2 ^ 47) (hret : site.retAddr.toNat < 2 ^ 47)
    (hreach : InReach mambo w ∧ InReach mambo (past w lookupOffset)) (hjumps : ∀ p ∈ calls, JumpsTo w p.2)
    (ht : Reachable 1 t) (heven : EvenValues t) (hmem : InMemory t mambo.entries s.mem)
    (hclear : StackClear mambo.entries (s.get sp)) (hnear : MissNear rs1 false mambo.traces site rd true)
    (hrs1 : rs1 ≠ sp) (hrdSp : rd ≠ sp) (himm : OffsetHandled rs1 imm (predictions calls) s)
    (hra : calls.length ≤ triBiSlots ∨ rd = zero ∨ rd = ra) :
    (∃ u, Reaches rv (fetch e.code) (s.goto w) u ∧ (rd ≠ zero → u.get rd = site.retAddr) ∧
      Transfers mambo rs1 imm (predictions calls) (calls.length ≤ triBiSlots) t s u) ∧
    (calls.length < triBiSlots → ∀ p : Word × Word, p.1.toNat < 2 ^ 47 → ∀ e',
      insertTriBiPrediction mambo site e p.1 p.2 = some e' →
        (e'.nextPredictionSlot - w).toNat + 4 ≤ (e.ihluAddress - w).toNat ∧
          ∀ x, (e.ihluAddress - w).toNat ≤ (x - w).toNat → e'.code x = e.code x) := by
  have hstage₀ := scanTriBi_stage hscan
  have hrd : rd ≠ s1 ∧ rd ≠ a0 ∧ rd ≠ a1 := by
    simp only [scanTriBi, Option.bind_eq_bind, Option.bind_eq_some_iff] at hscan
    obtain ⟨_, hguard, -⟩ := hscan
    rcases guard_some hguard with rfl | hcontext
    · exact ⟨by decide, by decide, by decide⟩
    · rwa [isContextReg, decide_eq_false_iff_not, not_or, not_or] at hcontext
  have hshort := short_of_lt hret
  by_cases hfew : calls.length ≤ triBiSlots
  · have hpredictions : predictions calls = calls := if_pos hfew
    rw [hpredictions] at himm ⊢
    rw [decide_eq_true hfew]
    have hstage := hstage₀.insertAll (by rwa [List.length_nil, Nat.zero_add]) hcalls
      (fun p hp => short_of_lt (hguest p hp)) hshort
    rw [List.nil_append] at hstage
    refine ⟨stage_run hstage hfew hnear hrd hreach.2 hjumps ht.shaped heven hmem hclear hrs1 hrdSp himm,
      fun hlt p hp e' hinsert => ?_⟩
    obtain ⟨-, hbound, hframe⟩ := hstage.insert hlt hinsert (short_of_lt hp) hshort
    have hoffset : (e.ihluAddress - w).toNat = lookupOffset := by
      rw [hstage.addresses.2, past, add_sub_cancel_left]
      rfl
    rw [hoffset]
    exact ⟨hbound, hframe⟩
  · have hpredictions : predictions calls = [] := if_neg hfew
    rw [hpredictions] at himm ⊢
    rw [decide_eq_false hfew]
    refine ⟨?_, fun hlt => absurd hlt.le hfew⟩
    have hra' := hra.resolve_left hfew
    have hoff : imm = 0 ∨ rs1 ≠ zero ∧ rs1 ≠ a1 := himm.imp_right fun h => ⟨h.1, h.2.1⟩
    obtain ⟨first, p, rfl⟩ : ∃ first p, calls = first ++ [p] := by
      refine ⟨calls.dropLast, calls.getLast (fun hnil => hfew (by simp [hnil])), ?_⟩
      rw [List.dropLast_append_getLast]
    rw [List.length_append, List.length_singleton] at hlen hfew
    simp only [insertAll, List.foldlM_append, List.foldlM_cons, List.foldlM_nil, Option.bind_eq_bind,
      Option.bind_eq_some_iff, Option.pure_def, Option.some.injEq] at hcalls
    obtain ⟨e₁, hfirst, e₂, hlast, rfl⟩ := hcalls
    have hstage := hstage₀.insertAll (by rw [List.length_nil]; omega) hfirst
      (fun q hq => short_of_lt (hguest q (List.mem_append_left _ hq))) hshort
    rw [List.nil_append] at hstage
    obtain ⟨is, hlookup, hcode⟩ := stage_switched hstage (by omega) hlast
    rw [hcode]
    exact switched_run hlookup hstage.linked.2 hra' hreach.1 ht.shaped heven hmem hclear hrs1 hoff

theorem nearSome : ∀ rd, MissNear 5 false someAddresses.traces ⟨0x400000, 4, 7⟩ rd true := by
  have hall : ∀ rd : Reg, ∀ found ∈ foundCode 5 false ⟨0x400000, 4, 7⟩ rd,
      missOffset 5 false someAddresses.traces true found < 72 := by
    with_unfolding_all decide
  exact fun rd found hfound => hall rd found hfound

/-- A call through t0 from a trace, with one prediction that fits. -/
theorem triBi_follows_predicted : ∃ e₀ e,
    scanTriBi someAddresses ⟨0x400000, 4, 7⟩ 0x10000400 ra 5 0 0 (fun _ => none) = some e₀ ∧
      insertAll someAddresses ⟨0x400000, 4, 7⟩ e₀ [(0x500000, 0x11000100)] = some e ∧
      ∃ t u, Reaches rv (fetch e.code)
          (State.goto ⟨0, fun r => if r = sp then 0x1FFFF000 else 0x500000, layout t 0x20000000⟩ 0x10000400) u ∧
        u.get ra = 0x400004 ∧ u.pc = 0x11000100 := by
  obtain ⟨e₀, hscan⟩ := Option.isSome_iff_exists.mp
    (show (scanTriBi someAddresses ⟨0x400000, 4, 7⟩ 0x10000400 ra 5 0 0 (fun _ => none)).isSome by with_unfolding_all decide)
  have hall : ∀ e₀ ∈ scanTriBi someAddresses ⟨0x400000, 4, 7⟩ 0x10000400 ra 5 0 0 (fun _ => none),
      (insertAll someAddresses ⟨0x400000, 4, 7⟩ e₀ [(0x500000, 0x11000100)]).isSome := by with_unfolding_all decide
  obtain ⟨e, hcalls⟩ := Option.isSome_iff_exists.mp (hall e₀ hscan)
  obtain ⟨t, ht, hempty⟩ := exists_empty
  let s : State := ⟨0, fun r => if r = sp then 0x1FFFF000 else 0x500000, layout t 0x20000000⟩
  obtain ⟨⟨u, hrun, hret, htransfers⟩, -⟩ := triBi_follows (s := s) hscan hcalls (by decide)
    (fun p hp => by
      rw [List.mem_singleton.mp hp]
      decide)
    (by decide) ⟨someAddresses_inReach, by decide, by decide, by decide⟩
    (fun p hp => by
      rw [List.mem_singleton.mp hp]
      exact ⟨by decide, by decide, by decide⟩)
    ht (fun key _ hp => absurd hp (hempty key)) (layout_inMemory t _) (stackClear_below 0x20000000)
    (nearSome ra) (by decide) (by decide) (Or.inl rfl) (Or.inl (by decide))
  refine ⟨e₀, e, hscan, hcalls, t, u, hrun, hret (by decide), ?_⟩
  obtain ⟨p, hp, -, hpc⟩ := htransfers.predicted ⟨(0x500000, 0x11000100), List.mem_singleton_self _, rfl⟩
  rw [hpc, List.mem_singleton.mp hp]

/-- A target whose translation is a trace, without a prediction: the table has it, but
the exit goes to the dispatcher. -/
theorem triBi_trace_unpredicted : ∃ e t s value,
    scanTriBi someAddresses ⟨0x400000, 4, 7⟩ 0x10000400 zero 5 0 0 (fun _ => none) = some e ∧ Reachable 1 t ∧
      EvenValues t ∧ InMemory t someAddresses.entries s.mem ∧ StackClear someAddresses.entries (s.get sp) ∧
      Present t (target s 5 0) ∧ hashLookup 1 t (target s 5 0) = .ok value ∧
      ∀ u, Reaches rv (fetch e.code) (s.goto 0x10000400) u → u.pc ≠ value := by
  obtain ⟨e, hscan⟩ := Option.isSome_iff_exists.mp
    (show (scanTriBi someAddresses ⟨0x400000, 4, 7⟩ 0x10000400 zero 5 0 0 (fun _ => none)).isSome by with_unfolding_all decide)
  have hall : ∀ e ∈ scanTriBi someAddresses ⟨0x400000, 4, 7⟩ 0x10000400 zero 5 0 0 (fun _ => none),
      fetch e.code someAddresses.dispatcherAddr = none ∧ fetch e.code 0x11000100 = none := by with_unfolding_all decide
  obtain ⟨hdispatcher, htrace⟩ := hall e hscan
  obtain ⟨t, ht, hh⟩ := exists_holds 1 (0x500000 : Word) 0x11000100 (by decide)
  let s : State := ⟨0, fun r => if r = sp then 0x1FFFF000 else 0x500000, layout t 0x20000000⟩
  have hlookup : hashLookup 1 t 0x500000 = .ok 0x11000100 :=
    (hh.hashLookup_eq (by decide)).trans (by simp [lastValue])
  have honly : ∀ key, Present t key → key = 0x500000 := by
    rintro key ⟨hkey, i, hi, heq⟩
    rw [← keys_of_lt t hi] at heq
    have hlast := (hh.stored key hkey _).mpr ⟨i, heq, rfl⟩
    have hfirst : 0x500000#64 = key ∧ 0x11000100#64 = (t.entries i).value := by simpa [lastValue] using hlast
    exact hfirst.1.symm
  have hpresent : Present t 0x500000 := by
    obtain ⟨i, hi, -⟩ := (hh.stored 0x500000 (by decide) 0x11000100).mp (by simp [lastValue])
    have hlt : i < slots := by
      by_contra hge
      rw [keys, if_neg hge] at hi
      exact absurd hi (by decide)
    exact ⟨by decide, i, hlt, by rw [← keys_of_lt t hlt, hi]⟩
  have heven : EvenValues t := by
    intro key value hp hvalue
    rw [honly key hp, hlookup] at hvalue
    rw [← Except.ok.inj hvalue]
    decide
  have htarget : target s 5 0 = 0x500000 := target_zero
  obtain ⟨u, hrun, -, htransfers⟩ := stage_run (s := s) (scanTriBi_stage hscan) (by decide) (nearSome zero)
    ⟨by decide, by decide, by decide⟩ ⟨by decide, by decide, by decide⟩ (fun p hp => absurd hp List.not_mem_nil)
    ht.shaped heven (layout_inMemory t _) (stackClear_below 0x20000000) (by decide) (by decide) (Or.inl rfl)
  have hmiss : ¬ Hit t someAddresses.traces true (target s 5 0) := by
    rw [htarget]
    intro hhit
    exact absurd (hhit.2 _ hlookup rfl) (by decide)
  obtain ⟨hpc, -⟩ := htransfers.miss (fun p hp => absurd hp List.not_mem_nil) hmiss
  refine ⟨e, t, s, 0x11000100, hscan, ht, heven, layout_inMemory t _, stackClear_below 0x20000000, htarget ▸ hpresent,
    htarget ▸ hlookup, fun u' hrun' hpc' => ?_⟩
  have hstop : fetch e.code u.pc = none := by rw [hpc, hdispatcher]
  have hstop' : fetch e.code u'.pc = none := by rw [hpc', htrace]
  have hend := Reaches.stop_unique hrun hstop hrun' hstop'
  rw [← hend, hpc] at hpc'
  exact absurd hpc' (by decide)

end Exits

end Mambo.RvTriBiRuns
