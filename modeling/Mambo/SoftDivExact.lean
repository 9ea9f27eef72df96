import Mambo.SoftDivRuns

namespace Mambo.SoftDivExact

open SafeFcalls SoftDiv SoftDivRuns
open ArmSafeFcalls (reg)
open CallRuns (Machine Routine Goes Puts Sets Saves Links Abides Intact Called InCode)
open SafeFcallRuns (frame)
open T32 (Word Reg Flags State)

section Guarded

variable {ι : Type} {T : Target ι} {d : Divide} {s t : State}

/-- The place and the alignment of code of an instruction set. -/
structure At (T : Target ι) (s : State) : Prop where
  thumb : s.thumb = T.machine.set
  aligned : s.pc.toNat % T.branchSize = 0

theorem At.inCode {rest : BitVec 28} (hT : Lawful T rest) (h : At T s) :
    InCode (withStatus T.machine rest) ((withStatus T.machine rest).place s) := by
  have hplace : (withStatus T.machine rest).place s = (s.pc, s.thumb) := hT.place s
  rw [hplace]
  refine ⟨?_, h.thumb⟩
  have haligned := h.aligned
  rcases hT.grain with heq | heq <;> rw [heq] at haligned
  · exact haligned
  · show s.pc.toNat % 2 = 0
    omega

theorem At.next {rest : BitVec 28} (hT : Lawful T rest) (h : At T s) : At T (s.goto (s.pc + BitVec.ofNat 32 T.branchSize)) where
  thumb := h.thumb
  aligned := by
    have haligned := h.aligned
    rw [State.goto_pc, BitVec.toNat_add, BitVec.toNat_ofNat]
    rcases hT.grain with heq | heq <;> rw [heq] at haligned ⊢ <;> omega

/-- What the code does: nothing where the condition fails, else what the division's code does. -/
theorem guarded_runs (hT : ∀ rest, Lawful T rest) (h : At T s) (idiv uidiv : Word) (count : Nat) :
    ∃ g, softDivPreInst T idiv uidiv d s.pc count = some g ∧ ∀ rest (R : Routine 32 State),
      R.entry = (if d.signed then idiv else uidiv) → Abides (withStatus T.machine rest) R 14 Clobbers frame →
        ∃ t, g.run T rest R s = some t ∧ T.machine.place t = CallRuns.past (T.machine.place s) (g.bytes T) ∧
          (holds d s = false → t = s.goto t.pc) ∧ (holds d s = true → ∃ u, Ran T R d s u t) := by
  obtain ⟨sr, is, js, hchosen⟩ := exists_chosen (hT 0) d
  obtain ⟨g, hg, hcode, hbranch⟩ := softDivPreInst_some (hT 0) hchosen idiv uidiv s.pc count h.aligned
  refine ⟨g, hg, fun rest R hentry habides => ?_⟩
  obtain ⟨-, hpos, hle⟩ := divideCode_bytes (hT rest) hchosen (if d.signed then idiv else uidiv)
  rw [← hcode] at hpos hle
  have hplace (v : State) : T.machine.place v = (v.pc, v.thumb) := (hT 0).place v
  rcases hbranch with ⟨hal, hnone⟩ | ⟨hcond, i, hi, hsize, hexec⟩
  · have hholds : holds d s = true := by rw [holds, hal]; rfl
    obtain ⟨u, t, hcalled, hran⟩ := divideCode_runs (hT rest) hchosen habides (h.inCode (hT rest))
    rw [hentry, ← hcode] at hcalled
    refine ⟨t, ?_, ?_, fun hfalse => absurd hholds (by simp [hfalse]), fun _ => ⟨u, hran⟩⟩
    · rw [Guarded.run, hnone]
      show (CallRuns.run _ R g.code s).map Prod.fst = _
      rw [hcalled.run, Option.map_some]
    · rw [Guarded.bytes, hnone, Option.toList_none, List.map_nil, List.sum_nil, Nat.zero_add]
      exact hcalled.place
  · have hexec := hexec s rfl
    have hbytes : g.bytes T = T.branchSize + CallRuns.bytes (withStatus T.machine rest) g.code := by
      rw [Guarded.bytes, hi, Option.toList_some, List.map_singleton, List.sum_singleton, hsize]
      rfl
    cases hholds : holds d s with
    | false =>
        rw [hholds, if_neg Bool.false_ne_true] at hexec
        have hfar : T.machine.place (s.goto (s.pc + BitVec.ofNat 32 T.branchSize +
            BitVec.ofNat 32 (CallRuns.bytes (withStatus T.machine 0) g.code))) =
              CallRuns.past (T.machine.place s) (T.machine.size i + CallRuns.bytes (withStatus T.machine rest) g.code) := by
          rw [hplace, hplace, CallRuns.past, hsize, BitVec.ofNat_add, ← add_assoc]
          rfl
        refine ⟨s.goto (s.pc + BitVec.ofNat 32 T.branchSize + BitVec.ofNat 32 (CallRuns.bytes (withStatus T.machine 0) g.code)),
          ?_, ?_, fun _ => rfl, fun htrue => absurd htrue Bool.false_ne_true⟩
        · rw [Guarded.run, hi]
          show (T.machine.exec i s).bind _ = _
          rw [hexec, Option.bind_some, if_neg ?_, if_pos hfar]
          rw [hfar, hplace, CallRuns.past, CallRuns.past, BitVec.ofNat_add, ← add_assoc]
          intro heq
          have hzero := congrArg (fun p => (p.1 - (s.pc + BitVec.ofNat 32 (T.machine.size i))).toNat) heq
          simp only [add_sub_cancel_left, sub_self, BitVec.toNat_ofNat] at hzero
          rw [Nat.mod_eq_of_lt (by omega), show (0 : Word).toNat = 0 from rfl] at hzero
          omega
        · rw [hfar, hbytes, hsize]
    | true =>
        rw [hholds, if_pos rfl, add_zero] at hexec
        obtain ⟨u, t, hcalled, hran⟩ := divideCode_runs (hT rest) hchosen habides ((h.next (hT rest)).inCode (hT rest))
        rw [hentry, ← hcode] at hcalled
        have hnear : T.machine.place (s.goto (s.pc + BitVec.ofNat 32 T.branchSize)) =
            CallRuns.past (T.machine.place s) (T.machine.size i) := by
          rw [hplace, hplace, hsize]
          rfl
        refine ⟨t, ?_, ?_, fun hfalse => absurd hfalse (by simp), fun _ => ⟨u, ?_⟩⟩
        · rw [Guarded.run, hi]
          show (T.machine.exec i s).bind _ = _
          rw [hexec, Option.bind_some, if_pos hnear]
          show (CallRuns.run _ R g.code _).map Prod.fst = _
          rw [hcalled.run, Option.map_some]
        · have hbehind : T.machine.place t = CallRuns.past (T.machine.place (s.goto (s.pc + BitVec.ofNat 32 T.branchSize)))
              (CallRuns.bytes (withStatus T.machine rest) g.code) := hcalled.place
          rw [hbehind, hnear, CallRuns.past_past, hbytes, hsize]
        · exact ⟨hran.called, hran.dividend, hran.divisor, hran.result, hran.others, hran.scratch, hran.sp, hran.kept,
            hran.loaded⟩

end Guarded

section Quotients

variable {signed : Bool} {n d : Word}

theorem quotient_zero (signed : Bool) (d : Word) : quotient signed 0 d = 0 := by
  cases signed <;> simp [quotient]

theorem quotient_self (signed : Bool) (h : n ≠ 0) : quotient signed n n = 1 := by
  have hne : ¬n = 0#32 := h
  cases signed with
  | false => simp [quotient, BitVec.udiv_self, hne]
  | true => simp [quotient, BitVec.sdiv_self, hne]

end Quotients

section Exactness

variable {ι : Type} {T : Target ι} {d : Divide} {s t : State} {rest : BitVec 28}

/-- A function that divides, gives 1 for a divisor of zero, and leaves a value in r12. -/
def dividing (entry : Word) (signed : Bool) (x : Word) : Routine 32 State where
  entry := entry
  run u := T32.bxTo (u.r T32.lr) ((u.set 0 (if u.r 1 = 0 then 1 else quotient signed (u.r 0) (u.r 1))).set 12 x)

theorem dividing_regs (entry : Word) (signed : Bool) (x : Word) (u : State) : ((dividing entry signed x).run u).r =
    ((u.set 0 (if u.r 1 = 0 then 1 else quotient signed (u.r 0) (u.r 1))).set 12 x).r := rfl

theorem dividing_r (entry : Word) (signed : Bool) (x : Word) (u : State) {r : Reg} (h0 : r ≠ 0) (h12 : r ≠ 12) :
    ((dividing entry signed x).run u).r r = u.r r := by
  rw [dividing_regs, State.set_r_of_ne h12, State.set_r_of_ne h0]

theorem dividing_scratch (entry : Word) (signed : Bool) (x : Word) (u : State) : ((dividing entry signed x).run u).r 12 = x := by
  rw [dividing_regs, State.set_r_self]

theorem dividing_result (entry : Word) (signed : Bool) (x : Word) (u : State) :
    ((dividing entry signed x).run u).r 0 = if u.r 1 = 0 then 1 else quotient signed (u.r 0) (u.r 1) := by
  rw [dividing_regs, State.set_r_of_ne (by decide), State.set_r_self]

theorem dividing_divides (hT : Lawful T 0) (entry : Word) (signed : Bool) (x : Word) :
    Divides T (dividing entry signed x) signed where
  abides := by
    refine ⟨fun u _ => ?_, fun u r _ hr hclobber => ?_, fun u _ => ⟨?_, fun k _ => ?_⟩⟩
    · have hget : (withStatus T.machine 0).get u 14 = u.r T32.lr := hT.getReg u (by decide)
      rw [hget]
      show T.machine.place _ = T.machine.jump _
      rw [hT.place, hT.jump]
      rfl
    · rw [Clobbers] at hclobber
      by_cases hstatus : r = statusReg
      · exact absurd (Or.inr (Or.inr (Or.inr hstatus))) hclobber
      · have hlt := (hT.general r).mp (hr.resolve_right hstatus)
        rw [hT.getReg _ hstatus, hT.getReg _ hstatus]
        exact dividing_r entry signed x u (ArmSafeFcalls.reg_ne (by omega) (by decide) (by omega : r ≠ 0))
          (ArmSafeFcalls.reg_ne (by omega) (by decide) (by omega : r ≠ 12))
    · show T.machine.sp _ = T.machine.sp u
      rw [hT.sp, hT.sp]
      exact dividing_r entry signed x u (by decide) (by decide)
    · show T.machine.mem _ _ = T.machine.mem u _
      rw [hT.mem]
      rfl
  quotient u _ hne := by
    rw [dividing_result, if_neg hne]

theorem abides_rest {R : Routine 32 State} {room : Nat} (h : Abides (withStatus T.machine 0) R 14 Clobbers room) :
    Abides (withStatus T.machine rest) R 14 Clobbers room :=
  ⟨h.returns, h.keeps, fun u hu => ⟨(h.stack u hu).sp, (h.stack u hu).mem⟩⟩

theorem result_of_divides {R : Routine 32 State} {u : State} (h : Ran T R d s u t) (hR : Divides T R d.signed)
    (hpassed : passed d s ≠ 0) : t.r (reg d.rd) = quotient d.signed (s.r (reg d.rn)) (passed d s) := by
  rw [h.result, hR.quotient u h.called (by rwa [h.divisor]), h.dividend, h.divisor]

theorem passed_value (hnonzero : s.r (reg d.rm) ≠ 0) (h : d.rm = 0 → d.rn = 0 ∨ d.value s = 1) :
    passed d s ≠ 0 ∧ quotient d.signed (s.r (reg d.rn)) (passed d s) = d.value s := by
  rw [passed, Divide.value]
  by_cases hrm : d.rm = 0
  · rw [if_pos hrm]
    rcases h hrm with hrn | hone
    · rw [hrm, ← hrn] at hnonzero ⊢
      exact ⟨hnonzero, rfl⟩
    · have hne : s.r (reg d.rn) ≠ 0 := fun hzero => by
        rw [Divide.value, hzero, quotient_zero] at hone
        exact absurd hone (by decide)
      rw [Divide.value] at hone
      exact ⟨hne, by rw [quotient_self _ hne, hone]⟩
  · rw [if_neg hrm]
    exact ⟨hnonzero, rfl⟩

theorem divided_of_failed (hfalse : holds d s = false) (h : t = s.goto t.pc) : Divided d s t := by
  have hr : t.r = s.r := by rw [h]; rfl
  have hmem : t.mem = s.mem := by rw [h]; rfl
  have hflags : t.flags = s.flags := by rw [h]; rfl
  exact ⟨fun htrue => absurd htrue (by simp [hfalse]), fun r _ _ _ => by rw [hr], by rw [hr], hflags, fun _ => hmem⟩

theorem exact_of_transparent (hT : ∀ rest, Lawful T rest) (h : At T s) (htransparent : Transparent T d s) : Exact T d s := by
  intro hholds
  obtain ⟨g, t, hg, hrun, -, hdivided⟩ := htransparent 0 (dividing 0 true (s.r 12 + 1)) (dividing 0 false (s.r 12 + 1)) 0
    (dividing_divides (hT 0) _ _ _) (dividing_divides (hT 0) _ _ _)
  have hR : (if d.signed then dividing 0 true (s.r 12 + 1) else dividing 0 false (s.r 12 + 1)) =
      dividing 0 d.signed (s.r 12 + 1) := by cases d.signed <;> rfl
  rw [hR] at hrun
  have hdivides := dividing_divides (hT 0) 0 d.signed (s.r 12 + 1)
  obtain ⟨g', hg', hruns⟩ := guarded_runs (d := d) hT h 0 0 0
  obtain rfl := Option.some.inj (hg.symm.trans hg')
  obtain ⟨t', hrun', -, -, hran⟩ := hruns 0 (dividing 0 d.signed (s.r 12 + 1)) (by cases d.signed <;> rfl) hdivides.abides
  obtain rfl := Option.some.inj (hrun.symm.trans hrun')
  obtain ⟨u, hran⟩ := hran hholds
  have hrd : d.rd = 12 := by
    by_contra hne
    have hkept : t.r 12 = s.r 12 := hdivided.others 12 (by decide) (by decide) fun _ => Ne.symm hne
    have hset : t.r 12 = s.r 12 + 1 := (hran.scratch hne).trans (dividing_scratch ..)
    rw [hkept] at hset
    exact absurd (BitVec.self_eq_add_right.mp hset) (by decide)
  have hvalue : (((dividing 0 d.signed (s.r 12 + 1)).run u).r 0) = d.value s := hran.result.symm.trans (hdivided.result hholds)
  refine ⟨hrd, fun hrm => ?_, fun hrescans => ?_⟩
  · by_cases hrn : d.rn = 0
    · exact .inl hrn
    · right
      have hsame : u.r 1 = u.r 0 := by rw [hran.divisor, hran.dividend, passed, if_pos hrm]
      have hone : ((dividing 0 d.signed (s.r 12 + 1)).run u).r 0 = 1 := by
        rw [dividing_result, hsame]
        split
        next => rfl
        next hne => exact quotient_self _ hne
      rw [← hvalue, hone]
  · rw [← hvalue, ← hran.loaded hrescans (by omega), hdivided.flags]

theorem transparent_of_exact (hT : ∀ rest, Lawful T rest) (h : At T s) (hnonzero : s.r (reg d.rm) ≠ 0) (hexact : Exact T d s) :
    Transparent T d s := by
  intro rest idiv uidiv count hidiv huidiv
  obtain ⟨g, hg, hruns⟩ := guarded_runs (d := d) hT h idiv.entry uidiv.entry count
  have hdivides : Divides T (if d.signed then idiv else uidiv) d.signed := by
    cases d.signed with
    | false => exact huidiv
    | true => exact hidiv
  have hentry : (if d.signed then idiv else uidiv).entry = if d.signed then idiv.entry else uidiv.entry := by
    cases d.signed <;> rfl
  obtain ⟨t, hrun, hplace, hfalse, htrue⟩ := hruns rest _ hentry (abides_rest hdivides.abides)
  refine ⟨g, t, hg, hrun, hplace, ?_⟩
  cases hholds : holds d s with
  | false => exact divided_of_failed hholds (hfalse hholds)
  | true =>
      obtain ⟨u, hran⟩ := htrue hholds
      obtain ⟨hrd, hrm, hflags⟩ := hexact hholds
      obtain ⟨hne, hvalue⟩ := passed_value hnonzero hrm
      have hresult := (result_of_divides hran hdivides hne).trans hvalue
      refine ⟨fun _ => hresult, fun r hlt hr hrd' => ?_, hran.sp, ?_, fun hfalse => absurd hfalse (by simp [hholds])⟩
      · have hne := hrd' hholds
        exact hran.others r hlt hr hne (by omega)
      · cases hrescans : T.rescans with
        | false => exact hran.kept hrescans
        | true => rw [hran.loaded hrescans (by omega), ← hran.result, hresult, hflags hrescans]

theorem target_transparent_iff (hT : ∀ rest, Lawful T rest) (h : At T s) (hnonzero : s.r (reg d.rm) ≠ 0) :
    Transparent T d s ↔ Exact T d s :=
  ⟨exact_of_transparent hT h, transparent_of_exact hT h hnonzero⟩

end Exactness

end Mambo.SoftDivExact
