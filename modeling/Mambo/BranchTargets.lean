import Mambo.BranchEmitters

namespace Mambo.BranchTargets

open BitPlacement BranchEmitters EmitResults

section Outcomes

variable {w : Nat} {Inst : Type*} {Goes : Inst → Prop} {InRange : Prop} {o : Option (Result Inst)} {i : Inst}
  {size writeP : BitVec w}

/-- A branch emitter returns 0 only for one instruction that goes where it should, and returns -1 and emits nothing
where the target is out of range. -/
structure Branches (Goes : Inst → Prop) (InRange : Prop) (o : Option (Result Inst)) : Prop where
  goes : ∀ r, o = some r → r.ret = 0 → ∃ i, r.code = [i] ∧ Goes i
  far : ¬InRange → o = some .fail

/-- The same with the write pointer, which ends up past the instruction or stays where it is. -/
structure BranchesPast (Goes : Inst → Prop) (InRange : Prop) (writeP past : BitVec w)
    (o : Option (Result Inst × BitVec w)) : Prop where
  goes : ∀ r p, o = some (r, p) → r.ret = 0 → (∃ i, r.code = [i] ∧ Goes i) ∧ p = past
  far : ¬InRange → o = some (.fail, writeP)

theorem advance_fail : advance size writeP (.fail : Result Inst) = (.fail, writeP) := by
  simp [advance, Result.fail]

theorem branchesPast_iff :
    BranchesPast Goes InRange writeP (writeP + size) (o.map (advance size writeP)) ↔ Branches Goes InRange o := by
  constructor
  · intro h
    refine ⟨fun r hr hret => ?_, fun hfar => ?_⟩
    · exact (h.goes r _ (by rw [hr]; rfl) hret).1
    · obtain ⟨r, hr, hadvance⟩ := Option.map_eq_some_iff.mp (h.far hfar)
      rw [hr, show r = .fail from congrArg Prod.fst hadvance]
  · intro h
    refine ⟨fun r p hr hret => ?_, fun hfar => ?_⟩
    · obtain ⟨r', hr', hadvance⟩ := Option.map_eq_some_iff.mp hr
      obtain ⟨rfl, rfl⟩ := Prod.mk.inj hadvance
      exact ⟨h.goes r' hr' hret, if_pos hret⟩
    · rw [h.far hfar, Option.map_some, advance_fail]

theorem branches_fail : Branches Goes InRange (some .fail) := by
  refine ⟨fun r hr hret => ?_, fun _ => rfl⟩
  rw [← Option.some.inj hr] at hret
  exact absurd hret (by decide : (-1 : Int) ≠ 0)

theorem branches_none (h : InRange) : Branches Goes InRange none :=
  ⟨fun _ hr => absurd hr (by simp), fun hfar => absurd h hfar⟩

theorem branches_one : Branches Goes InRange (some (.ok [i])) ↔ Goes i ∧ InRange := by
  constructor
  · intro h
    obtain ⟨j, hj, hgoes⟩ := h.goes _ rfl rfl
    refine ⟨by rwa [(List.cons.inj hj).1], ?_⟩
    by_contra hfar
    exact absurd (congrArg Result.ret (Option.some.inj (h.far hfar))) (by decide : (0 : Int) ≠ -1)
  · intro ⟨hgoes, hin⟩
    refine ⟨fun r hr _ => ?_, fun hfar => absurd hin hfar⟩
    rw [← Option.some.inj hr]
    exact ⟨i, rfl, hgoes⟩

theorem branches_map {f : Inst → Result Inst} {oi : Option Inst} (hf : ∀ i, f i = .ok [i])
    (hin : InRange) (h : ∀ i, oi = some i → Goes i) : Branches Goes InRange (oi.map f) := by
  cases oi with
  | none => exact branches_none hin
  | some i =>
    rw [Option.map_some, hf]
    exact branches_one.mpr ⟨h i rfl, hin⟩

theorem within_of_not_out {reach granule d : Int} (h : ¬(d < -reach ∨ d > reach - granule)) : Within reach granule d := by
  rw [not_or, not_lt, not_lt] at h
  exact h

end Outcomes

namespace A64

open BranchEmitters.A64 A64Plugin Mambo.A64

variable {write target : Word} {cond : Cond} {reg : Reg} {isCbz : Bool}

def Goes (write target : Word) (cond : Cond) (i : A64Plugin.Inst) : Prop :=
  ∀ s : State, A64Plugin.exec i (s.goto write) = if condHolds cond s.flags then s.goto target else s.goto (write + 4)

def GoesCbz (write target : Word) (reg : Reg) (isCbz : Bool) (i : A64Plugin.Inst) : Prop :=
  ∀ s : State, A64Plugin.exec i (s.goto write) = if (s.get reg == 0) == isCbz then s.goto target else s.goto (write + 4)

def Exact (write target : Word) : Prop := (target - write) &&& 3 ≠ 0 ∨ Within 1048576 4 (target - write).toInt

theorem branchHelper_eq : branchHelper write target false = (A64Emit.branchHelper write target).map .core := by
  rw [branchHelper, A64Emit.branchHelper]
  split
  · rfl
  · rfl

theorem condHolds_al (f : Flags) : condHolds AL f = true := rfl

theorem branches :
    Branches (Goes write target cond) (Within (reach cond) 4 (target - write).toInt)
      (emitBranchCondAt write target cond false) := by
  rw [emitBranchCondAt, if_neg (by simp)]
  by_cases hal : cond = AL
  · rw [if_pos hal, reach, if_pos hal]
    split_ifs with hout
    · exact branches_fail
    · refine branches_map (fun _ => rfl) (within_of_not_out hout) fun i hi s => ?_
      rw [branchHelper_eq] at hi
      obtain ⟨j, hj, rfl⟩ := Option.map_eq_some_iff.mp hi
      rw [hal, condHolds_al, if_pos rfl]
      exact A64Emit.branchHelper_exec hj s
  · rw [if_neg hal, reach, if_neg hal]
    split_ifs with hout
    · exact branches_fail
    · cases hhelper : A64Emit.bCondHelper write target (cond.setWidth 64) with
      | none => exact branches_none (within_of_not_out hout)
      | some j =>
        refine branches_one.mpr ⟨fun s => ?_, within_of_not_out hout⟩
        have hexec := A64Emit.bCondHelper_exec hhelper s
        rwa [BitVec.setWidth_setWidth_of_le cond (by decide), BitVec.setWidth_eq] at hexec

theorem branches_cbz_iff :
    Branches (GoesCbz write target reg isCbz) (Within 1048576 4 (target - write).toInt)
      (some (emitBranchCbzCbnzAt write target reg isCbz)) ↔ Exact write target := by
  rw [emitBranchCbzCbnzAt]
  cases hhelper : A64Emit.cbzCbnzHelper write (!isCbz) target 1 reg with
  | none =>
    refine iff_of_true branches_fail (Or.inl fun hlow => ?_)
    rw [A64Emit.cbzCbnzHelper, if_neg (by rw [not_or, not_not]; exact ⟨hlow, by omega⟩)] at hhelper
    exact absurd hhelper (by simp)
  | some i =>
    have hlow : target - write &&& 3 = 0 := by
      by_contra hne
      rw [A64Emit.cbzCbnzHelper, if_pos (Or.inl hne)] at hhelper
      exact absurd hhelper (by simp)
    rw [branches_one, Exact]
    constructor
    · exact fun h => Or.inr h.2
    · rintro (hne | hin)
      · exact absurd hlow hne
      · refine ⟨fun s => ?_, hin⟩
        obtain ⟨hge, hle⟩ := hin
        have hexec := A64Emit.cbzCbnzHelper_exec hhelper (by omega) (by omega) s
        rwa [operand, if_pos rfl, Bool.not_not] at hexec

end A64

namespace T32

open BranchEmitters.T32 T32Plugin
open Mambo.T32 (Word State entry)

variable {write target dest : Word} {cond : Cond} {i : T32Plugin.Inst}

def Goes (write target : Word) (cond : Cond) (i : T32Plugin.Inst) : Prop :=
  ∀ s : State, T32Plugin.exec i (s.goto write) =
    some (if A64.condHolds cond s.flags then s.goto (entry target) else s.goto (write + 4))

def Exact (write target : Word) (cond : Cond) : Prop := cond ≠ ALT ∨ ¬Within (reach cond) 2 (diff write target).toInt

theorem bBlHelper_eq : bBlHelper write dest false false = (T32Emit.b32Helper write dest).map .core := by
  rw [bBlHelper, T32Emit.b32Helper]
  simp only [Bool.false_eq_true, if_false]
  split
  · rfl
  · rfl

theorem entry_entry (a : Word) : entry (entry a) = entry a := by
  apply BitVec.eq_of_toNat_eq
  rw [T32Emit.entry_toNat, T32Emit.entry_toNat]
  omega

theorem entry_thumb (p : Word) : entry (p ||| 1) = entry p := by
  apply BitVec.eq_of_getLsbD_eq
  intro i hi
  rw [T32Emit.getLsbD_entry, T32Emit.getLsbD_entry, BitVec.getLsbD_or]
  by_cases h0 : i = 0
  · simp [h0]
  · have hone : (1 : Word).getLsbD i = false := by
      rw [show (1 : Word) = BitVec.ofNat 32 1 from rfl, BitVec.getLsbD_one]
      simp [h0]
    rw [hone, Bool.or_false]

theorem goes_thumb (p : Word) : Goes write (p ||| 1) cond = Goes write p cond := by
  funext i
  simp only [Goes, entry_thumb]

theorem diff_thumb (p : Word) : diff write (p ||| 1) = diff write p := by
  rw [diff, diff, entry_thumb]

theorem condOffset_eq {d : Word} (hlt : d.toInt < 1024 * 1024) (hge : -(1024 * 1024) ≤ d.toInt) :
    condOffset (d.extractLsb' 31 1) (d.extractLsb' 12 6) (d.extractLsb' 18 1) (d.extractLsb' 19 1)
      (d.extractLsb' 1 11) = entry d := by
  have hback : (d.setWidth 21).signExtend 32 = d := Immediates.signExtend_setWidth (by decide) (by decide) (by omega) (by omega)
  have hsign : d.extractLsb' 31 1 = d.extractLsb' 20 1 := by
    rw [← hback]
    generalize d.setWidth 21 = v
    revert v
    exact Bitwise.ext (by fun_prop) (by fun_prop) (by decide)
  obtain ⟨hlow, hhigh⟩ := T32Emit.entry_toInt d
  have heven : (entry d).toInt % 2 = 0 := by
    rw [BitVec.toInt_eq_toNat_cond, T32Emit.entry_toNat]
    split_ifs <;> omega
  rw [← Immediates.signExtend_setWidth (x := entry d) (n := 21) (by decide) (by decide) (by omega) (by omega), condOffset]
  congr 1
  rw [hsign, entry]
  apply Bitwise.ext ?_ ?_ ?_ d
  · fun_prop
  · fun_prop
  · decide

theorem entry_distance (heven : write.toNat % 2 = 0) : entry (target - write - 4) = diff write target := by
  have hback : (-(write + 4)).toNat % 2 = 0 := by
    rw [BitVec.toNat_neg, BitVec.toNat_add, show (4 : Word).toNat = 4 from rfl]
    omega
  rw [diff, sub_sub, sub_sub, sub_eq_neg_add, sub_eq_neg_add, T32Emit.add_entry hback]

theorem past_distance : write + 4 + diff write target = entry target := by
  rw [diff, sub_sub, add_sub_cancel]

def near (difference : Word) (cond : Cond) : T32Plugin.Inst :=
  .bCond32 (difference.extractLsb' 31 1) cond (difference.extractLsb' 12 6) (difference.extractLsb' 18 1)
    (difference.extractLsb' 19 1) (difference.extractLsb' 1 11)

theorem near_goes (heven : write.toNat % 2 = 0) (hcond : cond.toNat < 14)
    (hin : Within 1048576 2 (diff write target).toInt) :
    Goes write target cond (near (target - write - 4) cond) := by
  intro s
  obtain ⟨hge, hle⟩ := hin
  obtain ⟨hlow, hhigh⟩ := T32Emit.entry_toInt (target - write - 4)
  rw [entry_distance heven] at hlow hhigh
  rw [near, T32Plugin.exec, if_neg (by omega), State.goto_flags, State.goto_pc, condOffset_eq (by omega) (by omega),
    entry_distance heven, past_distance, apply_ite some]
  split
  · rfl
  · rfl

theorem b32CondHelper_near (heven : write.toNat % 2 = 0) (hin : Within 1048576 2 (diff write target).toInt) :
    b32CondHelper write target cond = some [near (target - write - 4) cond] := by
  obtain ⟨hge, hle⟩ := hin
  obtain ⟨hlow, hhigh⟩ := T32Emit.entry_toInt (target - write - 4)
  rw [entry_distance heven] at hlow hhigh
  exact if_neg (by omega)

theorem lt_of_cond (hal : cond ≠ AL) (halt : cond ≠ ALT) : cond.toNat < 14 := by
  have hal' := BitVec.toNat_ne.mp hal
  have halt' := BitVec.toNat_ne.mp halt
  have hlt := cond.isLt
  rw [show AL.toNat = 14 from rfl] at hal'
  rw [show ALT.toNat = 15 from rfl] at halt'
  omega

theorem branches_iff (target : Word) (cond : Cond) (heven : write.toNat % 2 = 0) :
    Branches (Goes write target cond) (Within (reach cond) 2 (diff write target).toInt)
      (emitBranchCondAt write target cond false) ↔ Exact write target cond := by
  rw [emitBranchCondAt, if_neg (by simp)]
  by_cases hal : cond = AL
  · refine iff_of_true ?_ (Or.inl (by rw [hal]; decide))
    rw [if_pos hal, reach, if_pos hal]
    split_ifs with hout
    · exact branches_fail
    · refine branches_map (fun _ => rfl) (within_of_not_out hout) fun i hi s => ?_
      rw [Bool.false_and, bBlHelper_eq] at hi
      obtain ⟨j, hj, rfl⟩ := Option.map_eq_some_iff.mp hi
      rw [hal, A64.condHolds_al, if_pos rfl]
      have hexec := T32Emit.b32Helper_exec (s := s.goto write) hj heven
      rw [T32Plugin.exec, hexec, entry_entry]
      rfl
  · rw [if_neg hal]
    split_ifs with hout
    · refine iff_of_true branches_fail (Or.inr fun hin => ?_)
      rw [reach, if_neg hal] at hin
      obtain ⟨hge, hle⟩ := hin
      omega
    · have hin : Within 1048576 2 (diff write target).toInt := within_of_not_out hout
      have hsize : ([near (target - write - 4) cond].map Inst.size).sum = 4 := rfl
      rw [b32CondHelper_near heven hin, Option.bind_eq_bind, Option.bind_some, if_pos hsize, branches_one, Exact, reach,
        if_neg hal]
      constructor
      · intro ⟨hgoes, _⟩
        refine Or.inl fun halt => ?_
        have hstep := hgoes ⟨0, true, fun _ => 0, ⟨false, false, false, false⟩, 0, fun _ => 0⟩
        rw [halt, near, T32Plugin.exec, if_pos (by decide)] at hstep
        exact absurd hstep (by simp)
      · rintro (halt | hfar)
        · exact ⟨near_goes heven (lt_of_cond hal halt) hin, hin⟩
        · exact absurd hin hfar

end T32

namespace A32

open BranchEmitters.A32 Mambo.A32
open Mambo.T32 (Word State)

variable {write target : Word} {cond : Cond} {i : Mambo.A32.Inst}

def Goes (write target : Word) (cond : Cond) (i : Mambo.A32.Inst) : Prop :=
  ∀ s : State, Mambo.A32.exec i (s.goto write) =
    if A64.condHolds cond s.flags then s.goto target else s.goto (write + 4)

def Exact (write target : Word) (cond : Cond) : Prop :=
  cond ≠ ALT ∨ target &&& 3 ≠ 0 ∨ ¬Within reach 4 (target - write - 8).toInt

theorem branchOffset_eq {d : Word} (hlow : d &&& 3 = 0) (hlt : d.toInt < 2 ^ 25) (hge : -2 ^ 25 ≤ d.toInt) :
    branchOffset ((d >>> 2).setWidth 24) = d := by
  have hback : (d.setWidth 26).signExtend 32 = d := Immediates.signExtend_setWidth (by decide) (by decide) (by omega) (by omega)
  have hbits : ∀ k < 2, d.getLsbD k = false := by
    intro k hk
    have hbit := congrArg (fun x => x.getLsbD k) hlow
    simp only [BitVec.getLsbD_and] at hbit
    interval_cases k
    · simpa using hbit
    · simpa using hbit
  nth_rw 2 [← hback]
  rw [branchOffset]
  congr 1
  apply BitVec.eq_of_getLsbD_eq
  intro k hk
  rw [BitVec.getLsbD_append, BitVec.getLsbD_setWidth]
  by_cases hk2 : k < 2
  · simp [hk2, hbits k hk2]
  · have hsub : 2 + (k - 2) = k := by omega
    simp [hk2, hk, hsub, show k - 2 < 24 by omega]

theorem aligned_iff {x : Word} : x &&& 3 = 0 ↔ x.toNat % 4 = 0 := by
  have hmask : (x &&& 3).toNat = x.toNat % 4 := by
    rw [BitVec.toNat_and]
    exact Nat.and_two_pow_sub_one_eq_mod _ 2
  rw [← hmask]
  exact ⟨congrArg BitVec.toNat, fun h => BitVec.eq_of_toNat_eq h⟩

theorem aligned_sub (hwrite : write &&& 3 = 0) (htarget : target &&& 3 = 0) : target - write - 8 &&& 3 = 0 := by
  rw [aligned_iff] at *
  bv_omega

theorem entry_of_even (h : target.getLsbD 0 = false) : Mambo.T32.entry target = target := by
  have heven : target.toNat % 2 = 0 := by simpa [BitVec.getLsbD, Nat.testBit_zero] using h
  apply BitVec.eq_of_toNat_eq
  rw [T32Emit.entry_toNat]
  omega

theorem not_odd_of_aligned (h : target &&& 3 = 0) : target.getLsbD 0 = false := by
  rw [aligned_iff] at h
  rw [BitVec.getLsbD, Nat.testBit_zero]
  simpa using (by omega : target.toNat % 2 = 0)

theorem b_goes (hcond : cond ≠ ALT) (hwrite : write &&& 3 = 0) (htarget : target &&& 3 = 0)
    (hin : Within reach 4 (target - write - 8).toInt) :
    Goes write target cond (.b cond (((target - write - 8) >>> 2).setWidth 24)) := by
  intro s
  obtain ⟨hge, hle⟩ := hin
  rw [reach] at hge hle
  rw [Mambo.A32.exec, if_neg (show cond ≠ 15 from hcond), branchOffset_eq (aligned_sub hwrite htarget) (by omega) (by omega), State.goto_pc,
    State.goto_flags, sub_sub, add_sub_cancel]
  rfl

/-- In the unconditional space the branch is one to T32 code, which changes the link register. -/
theorem not_goes_alt {offsetBranch : BitVec 24} : ¬Goes write target ALT (.b ALT offsetBranch) := by
  intro h
  have hstep := h ⟨0, false, fun _ => 0, ⟨false, false, false, false⟩, 0, fun _ => 0⟩
  rw [Mambo.A32.exec, if_pos (show ALT = 15 from rfl)] at hstep
  have hthumb := congrArg State.thumb hstep
  rw [blxImm] at hthumb
  split at hthumb
  · exact absurd hthumb (by simp [State.goto])
  · exact absurd hthumb (by simp [State.goto])

theorem branches_iff (haligned : write &&& 3 = 0) :
    Branches (Goes write target cond) (Within reach 4 (target - write - 8).toInt)
      (emitBranchCondAt write target cond false) ↔ Exact write target cond := by
  rw [emitBranchCondAt, if_neg (by simp)]
  split_ifs with hodd hout
  · refine iff_of_true branches_fail (Or.inr (Or.inl fun halign => ?_))
    rw [not_odd_of_aligned halign] at hodd
    exact absurd hodd (by simp)
  · rw [entry_of_even (by simpa using hodd)] at hout
    exact iff_of_true branches_fail (Or.inr (Or.inr fun ⟨hge, hle⟩ => by rw [reach] at hge hle; omega))
  · rw [entry_of_even (by simpa using hodd)] at hout
    have hin : Within reach 4 (target - write - 8).toInt := within_of_not_out hout
    by_cases halign : target &&& 3 = 0
    · rw [branchHelper, if_pos halign]
      simp only [Bool.false_eq_true, if_false, Option.map_some]
      rw [branches_one, Exact]
      constructor
      · rintro ⟨hgoes, -⟩
        refine Or.inl fun halt => ?_
        subst halt
        exact not_goes_alt hgoes
      · rintro (halt | hne | hfar)
        · exact ⟨b_goes halt haligned halign hin, hin⟩
        · exact absurd halign hne
        · exact absurd hin hfar
    · rw [branchHelper, if_neg halign]
      exact iff_of_true (branches_none hin) (Or.inr (Or.inl halign))

end A32

namespace Rv

open BranchEmitters.Rv RvPlugin
open Mambo.Rv (Word)

variable {write target : Word} {cond : BranchEmitters.Rv.Cond} {i : RvPlugin.Inst}

def Goes (write target : Word) (i : RvPlugin.Inst) : Prop := ∀ m : Machine, RvPlugin.exec i (m.goto write) = m.goto target

def Exact (write target : Word) (cond : BranchEmitters.Rv.Cond) : Prop :=
  cond ≠ BranchEmitters.Rv.AL ∨ ¬Within reach 2 (target - write).toInt

theorem not_goes_jal {imm : BitVec 20} : ¬Goes write target (.core (.jal Mambo.Rv.ra imm)) := by
  intro h
  have hstep := congrArg (fun m => m.get Mambo.Rv.ra) (h ⟨⟨0, fun _ => write + 5, fun _ => 0⟩, fun _ => 0⟩)
  have hreturn : write + 4 = write + 5 := hstep
  exact absurd (add_left_cancel hreturn) (by decide)

theorem branches_iff :
    Branches (Goes write target) (Within reach 2 (target - write).toInt)
      (some (emitBranchCondAt write target cond false)) ↔ Exact write target cond := by
  rw [emitBranchCondAt, if_neg (by simp)]
  split_ifs with hal hout
  · exact iff_of_true branches_fail (Or.inr fun ⟨hge, hle⟩ => by rw [reach] at hge hle; omega)
  · have hin : Within reach 2 (target - write).toInt := within_of_not_out hout
    refine iff_of_false (fun h => ?_) fun h => h.elim (fun hne => hne hal) fun hfar => hfar hin
    obtain ⟨i, hcode, hgoes⟩ := h.goes _ rfl rfl
    cases hhelper : RvEmit.jalHelper write target Mambo.Rv.ra with
    | none =>
      rw [hhelper] at hcode
      exact absurd hcode (by simp [Result.ok])
    | some j =>
      rw [hhelper] at hcode
      obtain ⟨rfl, -⟩ := List.cons.inj hcode
      rw [RvEmit.jalHelper] at hhelper
      split_ifs at hhelper
      rw [← Option.some.inj hhelper] at hgoes
      exact not_goes_jal hgoes
  · exact iff_of_true branches_fail (Or.inl hal)

end Rv

section Calls

/-- A call of one of the emitters by a plugin, with the write pointer, the other places that it is about, and what
it asks for. -/
inductive Call
  | a64 (writeP target : Mambo.A64.Word) (cond : Cond)
  | a64Local (loc writeP : Mambo.A64.Word) (cond : Cond)
  | a64Cbz (writeP target : Mambo.A64.Word) (reg : Mambo.A64.Reg) (isCbz : Bool)
  | a64LocalCbz (loc writeP : Mambo.A64.Word) (reg : Mambo.A64.Reg) (isCbz : Bool)
  | t32 (writeP : BranchEmitters.T32.Place) (target : Mambo.T32.Word) (cond : Cond)
  | t32Local (loc writeP : BranchEmitters.T32.Place) (cond : Cond)
  | a32 (writeP : BranchEmitters.A32.Place) (target : Mambo.T32.Word) (cond : Cond)
  | a32Local (loc writeP : BranchEmitters.A32.Place) (cond : Cond)
  | rv (writeP target : Mambo.Rv.Word) (cond : BranchEmitters.Rv.Cond)
  | rvLocal (loc writeP : Mambo.Rv.Word) (cond : BranchEmitters.Rv.Cond)

/-- What a call should do. There is only one condition on RISC-V, which always holds. -/
def Right : Call → Prop
  | .a64 writeP target cond =>
    BranchesPast (A64.Goes writeP target cond) (Within (BranchEmitters.A64.reach cond) 4 (target - writeP).toInt)
      writeP (writeP + 4) (BranchEmitters.A64.emitBranchCond writeP target cond)
  | .a64Local loc writeP cond =>
    Branches (A64.Goes loc writeP cond) (Within (BranchEmitters.A64.reach cond) 4 (writeP - loc).toInt)
      (BranchEmitters.A64.emitLocalBranchCond loc writeP cond)
  | .a64Cbz writeP target reg isCbz =>
    BranchesPast (A64.GoesCbz writeP target reg isCbz) (Within 1048576 4 (target - writeP).toInt)
      writeP (writeP + 4) (some (BranchEmitters.A64.emitBranchCbzCbnz writeP target reg isCbz))
  | .a64LocalCbz loc writeP reg isCbz =>
    Branches (A64.GoesCbz loc writeP reg isCbz) (Within 1048576 4 (writeP - loc).toInt)
      (some (BranchEmitters.A64.emitLocalBranchCbzCbnz loc writeP reg isCbz))
  | .t32 writeP target cond =>
    BranchesPast (T32.Goes writeP target cond)
      (Within (BranchEmitters.T32.reach cond) 2 (BranchEmitters.T32.diff writeP target).toInt)
      writeP.val (writeP.val + 4) (BranchEmitters.T32.emitBranchCond writeP target cond)
  | .t32Local loc writeP cond =>
    Branches (T32.Goes loc writeP cond)
      (Within (BranchEmitters.T32.reach cond) 2 (BranchEmitters.T32.diff loc writeP).toInt)
      (BranchEmitters.T32.emitLocalBranchCond loc writeP cond)
  | .a32 writeP target cond =>
    BranchesPast (A32.Goes writeP target cond) (Within BranchEmitters.A32.reach 4 (target - writeP.val - 8).toInt)
      writeP.val (writeP.val + 4) (BranchEmitters.A32.emitBranchCond writeP target cond)
  | .a32Local loc writeP cond =>
    Branches (A32.Goes loc writeP cond) (Within BranchEmitters.A32.reach 4 (writeP.val - loc.val - 8).toInt)
      (BranchEmitters.A32.emitLocalBranchCond loc writeP cond)
  | .rv writeP target cond =>
    BranchesPast (Rv.Goes writeP target) (Within BranchEmitters.Rv.reach 2 (target - writeP).toInt)
      writeP (writeP + 4) (some (BranchEmitters.Rv.emitBranchCond writeP target cond))
  | .rvLocal loc writeP cond =>
    Branches (Rv.Goes loc writeP) (Within BranchEmitters.Rv.reach 2 (writeP - loc).toInt)
      (some (BranchEmitters.Rv.emitLocalBranchCond loc writeP cond))

def Exact : Call → Prop
  | .a64 .. | .a64Local .. => True
  | .a64Cbz writeP target _ _ => A64.Exact writeP target
  | .a64LocalCbz loc writeP _ _ => A64.Exact loc writeP
  | .t32 writeP target cond => T32.Exact writeP target cond
  | .t32Local loc writeP cond => T32.Exact loc writeP cond
  | .a32 writeP target cond => A32.Exact writeP target cond
  | .a32Local loc writeP cond => A32.Exact loc writeP cond
  | .rv writeP target cond => Rv.Exact writeP target cond
  | .rvLocal loc writeP cond => Rv.Exact loc writeP cond

/-- Which of the calls do what they should: all on AArch64 but for a compare and branch to an aligned target out of
its range, all on AArch32 but for the condition ALT to a target in range, and on RISC-V only those that fail. -/
theorem call_right_iff_exact (c : Call) : Right c ↔ Exact c := by
  cases c with
  | a64 writeP target cond => exact iff_of_true (branchesPast_iff.mpr A64.branches) trivial
  | a64Local loc writeP cond => exact iff_of_true A64.branches trivial
  | a64Cbz writeP target reg isCbz =>
    exact (branchesPast_iff (o := some (BranchEmitters.A64.emitBranchCbzCbnzAt writeP target reg isCbz))).trans
      A64.branches_cbz_iff
  | a64LocalCbz loc writeP reg isCbz => exact A64.branches_cbz_iff
  | t32 writeP target cond => exact branchesPast_iff.trans (T32.branches_iff target cond writeP.property)
  | t32Local loc writeP cond =>
    have h := T32.branches_iff (writeP.val ||| 1) cond loc.property
    rwa [T32.Exact, T32.goes_thumb, T32.diff_thumb] at h
  | a32 writeP target cond => exact branchesPast_iff.trans (A32.branches_iff writeP.property)
  | a32Local loc writeP cond => exact A32.branches_iff loc.property
  | rv writeP target cond =>
    exact (branchesPast_iff (o := some (BranchEmitters.Rv.emitBranchCondAt writeP target cond false))).trans
      Rv.branches_iff
  | rvLocal loc writeP cond => exact Rv.branches_iff

/-- A cbz 2 MiB away on AArch64, and `emit_branch` to the next instruction on RISC-V. -/
theorem far_cbz_wrong :
    ¬Right (.a64Cbz 0x400000 0x600000 0 true) ∧ ¬Right (.rv 0x400000 0x400004 BranchEmitters.Rv.AL) := by
  constructor
  · intro h
    have hret := congrArg (fun o => o.1.ret) (Option.some.inj (h.far (by decide)))
    exact absurd hret (by decide)
  · intro h
    obtain ⟨⟨i, hcode, hgoes⟩, -⟩ := h.goes _ _ rfl (by decide)
    obtain ⟨rfl, -⟩ := List.cons.inj hcode
    exact Rv.not_goes_jal hgoes

end Calls

end Mambo.BranchTargets
