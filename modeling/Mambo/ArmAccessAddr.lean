import Mambo.ArmAccessModes
import Mambo.ArmShifts

namespace Mambo.ArmAccessAddr

open A32 (shiftImm)
open ArmAccessHelpers ArmAccessModes ArmShifts ArmLoadStore EmitResults
open T32 (Word Reg State sp pc)

section Generation

variable {ι : Type*} {H : Helpers ι} {run : List ι → State → Option State} {bound : Int} {is js code : List ι}
  {P Q : State → State → Prop} {reg rn rm : Reg} {d : Word}

theorem bytes_append : bytes H (is ++ js) = bytes H is + bytes H js := by
  rw [bytes, List.map_append, List.sum_append]
  rfl

theorem runs_append (hH : Lawful H run bound) (his : Runs H run is P) (hjs : Runs H run js Q) :
    Runs H run (is ++ js) fun s t => ∃ u, u.flags = s.flags ∧ P s u ∧ Q u t := by
  intro s
  obtain ⟨u, hu, hpc, hflags, hP⟩ := his s
  obtain ⟨t, ht, hpc', hflags', hQ⟩ := hjs u
  refine ⟨t, ?_, ?_, hflags'.trans hflags, u, hflags, hP, hQ⟩
  · rw [hH.append, hu]
    exact ht
  · rw [hpc', hpc, bytes_append, add_assoc, BitVec.ofNat_add]

theorem runs_mono (h : Runs H run code P) (himp : ∀ s t, t.flags = s.flags → P s t → Q s t) : Runs H run code Q := by
  intro s
  obtain ⟨t, ht, hpc, hflags, hP⟩ := h s
  exact ⟨t, ht, hpc, hflags, himp s t hflags hP⟩

def Gives (H : Helpers ι) (run : List ι → State → Option State) (code : List ι) (reg : Reg)
    (f : (Reg → Word) → Bool → Word) : Prop :=
  Runs H run code fun s t => t.r reg = f s.r s.flags.c

variable {f g : (Reg → Word) → Bool → Word}

theorem leaves_gives (h : Leaves H run code reg f) : Gives H run code reg f :=
  runs_mono h fun s t _ ht => by rw [ht, Function.update_self]

theorem leaves_append (hH : Lawful H run bound) (his : Leaves H run is reg f) (hjs : Leaves H run js reg g) :
    Leaves H run (is ++ js) reg fun r c => g (Function.update r reg (f r c)) c := by
  refine runs_mono (runs_append hH his hjs) fun s t _ => ?_
  rintro ⟨u, hflags, hu, ht⟩
  rw [ht, hu, hflags, Function.update_idem]

theorem leaves_nil (hH : Lawful H run bound) : Leaves H run [] reg fun r _ => r reg :=
  fun s => ⟨s, hH.nil s, (BitVec.add_zero _).symm, rfl, (Function.update_eq_self reg s.r).symm⟩

def applied (count : Int) (rn : Reg) : Word := if rn = sp then BitVec.ofInt 32 count * 4 else 0

def Small (d : Word) : Prop := 0 ≤ d.toInt ∧ d.toInt ≤ 0xFFF

variable {readAddress : Word} {count : Int} {add : Bool} {shiftType : BitVec 2} {imm5 : BitVec 5}

theorem constant_invalid : Constant regInvalid := Or.inr (le_refl _)

theorem offset_generated (hH : Lawful H run bound) (hreg : reg ≠ pc) (hrn : rn ≠ pc)
    (hfits : Fits bound (d + applied count rn)) :
    ∃ code, codeFor H readAddress count reg (.offset rn d) = some code ∧
      Leaves H run code reg fun r _ => r rn + (d + applied count rn) := by
  obtain ⟨code, hcode, hleaves⟩ := hH.addSubI hreg hrn hfits
  refine ⟨code, ?_, hleaves⟩
  rw [codeFor, generateAddr, if_neg (by decide), if_neg hrn, generateSum, if_pos constant_invalid]
  rw [applied] at hcode
  rw [hcode]
  rfl

theorem offset_unfit (hH : Lawful H run bound) (hrn : rn ≠ pc) (hfits : ¬Fits bound (d + applied count rn)) :
    codeFor H readAddress count reg (.offset rn d) = some [] := by
  have hfail : H.addSubI reg rn (d + applied count rn) = some .fail := hH.addSubI_fail hfits
  rw [codeFor, generateAddr, if_neg (by decide), if_neg hrn, generateSum, if_pos constant_invalid]
  rw [applied] at hfail
  rw [hfail]
  rfl

theorem index_lt (k : Reg) : ((k.toNat : Int) = signedIndex add rm ↔ k = rm ∧ ¬subtracts add rm) ∧
    ¬Constant (signedIndex add rm) := by
  have hk := k.isLt
  have hrm := rm.isLt
  have hinj : k = rm ↔ k.toNat = rm.toNat := BitVec.toNat_inj.symm
  have hzero : rm ≠ 0 ↔ rm.toNat ≠ 0 := not_congr BitVec.toNat_inj.symm
  rw [hinj, Constant, regInvalid, subtracts, hzero]
  cases add
  · rw [signedIndex, if_neg (by decide)]
    constructor
    · simp only [true_and, not_not]
      omega
    · omega
  · rw [signedIndex, if_pos rfl]
    constructor
    · simp
    · omega

theorem asserted (hrm : rm ≠ pc) :
    (signedIndex add rm = pc.toNat ∨ signedIndex add rm = sp.toNat) ↔ add = true ∧ rm = sp := by
  have hpc := (@index_lt rm add pc).1
  have hsp := (@index_lt rm add sp).1
  rw [@eq_comm _ _ (pc.toNat : Int), hpc, @eq_comm _ _ (sp.toNat : Int), hsp, subtracts]
  constructor
  · rintro (⟨h, -⟩ | ⟨rfl, h⟩)
    · exact absurd h.symm hrm
    · refine ⟨?_, rfl⟩
      cases add
      · exact absurd ⟨rfl, by decide⟩ h
      · rfl
  · rintro ⟨rfl, rfl⟩
    exact .inr ⟨rfl, by simp⟩

theorem index_asserts (hadd : add = true) (hrm : rm = sp) :
    codeFor H readAddress count reg (.index rn add rm shiftType imm5) = none := by
  rw [codeFor, generateAddr, if_pos ((asserted (by rw [hrm]; decide)).mpr ⟨hadd, hrm⟩)]

theorem sum_generated (hH : Lawful H run bound) (hreg : reg ≠ pc) (hrn : rn ≠ pc) (hrm : rm ≠ pc) (hsmall : Small d) :
    ∃ code, generateSum H d reg rn (signedIndex add rm) (shiftOperand shiftType imm5) = some code ∧
      Leaves H run code reg fun r c => r rn + codedIndex add rm shiftType imm5 c (r rm) + d := by
  have hfirst := hH.addSubShift add shiftType imm5 hreg hrn hrm
  rw [generateSum, if_neg (index_lt 0).2]
  dsimp only
  by_cases hzero : d = 0
  · refine ⟨_, if_neg (not_not.mpr hzero), ?_⟩
    simpa only [hzero, add_zero] using hfirst
  · have hpos : d.toInt ≠ 0 := fun h => hzero (BitVec.eq_of_toInt_eq h)
    have hpositive : d.toInt ≤ 0xFFF ∧ d.toInt > 0 := ⟨hsmall.2, lt_of_le_of_ne hsmall.1 hpos.symm⟩
    have hbound := hH.bound_pos
    have hfits : Fits bound d := ⟨by omega, by omega⟩
    obtain ⟨code, hcode, hleaves⟩ := hH.addSubI hreg hreg hfits
    rw [if_pos hzero, if_pos hpositive, hcode]
    refine ⟨_, rfl, ?_⟩
    have hboth := leaves_append hH hfirst hleaves
    simp only [Function.update_self] at hboth
    exact hboth

theorem sum_asserts (hsmall : ¬Small d) :
    generateSum H d reg rn (signedIndex add rm) (shiftOperand shiftType imm5) = none := by
  have hzero : d ≠ 0 := by
    rintro rfl
    exact hsmall ⟨by decide, by decide⟩
  have hrange : ¬(d.toInt ≤ 0xFFF ∧ d.toInt > 0) := fun h => hsmall ⟨h.2.le, h.1⟩
  rw [generateSum, if_neg (index_lt 0).2]
  dsimp only
  rw [if_pos hzero, if_neg hrange]

theorem index_generated (hrn : rn ≠ pc) (hrm : rm ≠ pc) (hindex : ¬(add = true ∧ rm = sp)) :
    codeFor H readAddress count reg (.index rn add rm shiftType imm5) =
      generateSum H (applied count rn) reg rn (signedIndex add rm) (shiftOperand shiftType imm5) := by
  rw [codeFor, generateAddr, if_neg (mt (asserted hrm).mp hindex), if_neg hrn, applied]

theorem literal_generated (hH : Lawful H run bound) (hreg : reg ≠ pc) (hrm : rm ≠ pc)
    (hindex : ¬(add = true ∧ rm = sp)) :
    ∃ code, codeFor H readAddress count reg (.index pc add rm shiftType imm5) = some code ∧
      Gives H run code reg fun r c => readAddrToPc readAddress +
        codedIndex add rm shiftType imm5 c
          (if rm = reg ∧ subtracts add rm then readAddrToPc readAddress else r rm) := by
  have hsmall : Small 0 := ⟨by decide, by decide⟩
  rw [codeFor, generateAddr, if_neg (mt (asserted hrm).mp hindex), if_pos rfl]
  dsimp only
  rw [if_neg (index_lt 0).2, if_neg (index_lt 0).2]
  by_cases hsame : (reg.toNat : Int) = signedIndex add rm
  · obtain ⟨rfl, hsub⟩ := (index_lt reg).1.mp hsame
    obtain ⟨rtmp, hrtmp, hcase, hne⟩ :
        ∃ rtmp : Reg, (if reg = 0 then 1 else 0) = rtmp ∧ (rtmp = 0 ∨ rtmp = 1) ∧ rtmp ≠ reg := by
      refine ⟨_, rfl, ?_⟩
      split
      next h => exact ⟨.inr rfl, by rw [h]; decide⟩
      next h => exact ⟨.inl rfl, Ne.symm h⟩
    have htmp : rtmp ≠ pc := by rcases hcase with rfl | rfl <;> decide
    have hsp : reg ≠ sp := by
      rintro rfl
      cases add
      · exact hsub ⟨rfl, by decide⟩
      · exact hindex ⟨rfl, rfl⟩
    obtain ⟨before, after, hbefore, hafter, hpush, hpop⟩ := hH.saves rtmp hcase
    obtain ⟨sum, hsum, hleaves⟩ := @sum_generated _ _ _ _ reg rtmp reg 0 add shiftType imm5 hH hreg htmp hreg hsmall
    rw [if_pos hsame, hrtmp, hbefore, hsum, hafter]
    refine ⟨_, rfl, ?_⟩
    have hset := hH.setReg (readAddrToPc readAddress) htmp
    refine runs_mono (runs_append hH (runs_append hH (runs_append hH hpush hset) hleaves) hpop) fun s t _ => ?_
    rintro ⟨u, hu, ⟨v, hv, ⟨w, hw, hpushed, hbase⟩, hadded⟩, hpopped⟩
    rw [hpopped reg (not_or.mpr ⟨hsp, hne.symm⟩), hadded, Function.update_self]
    dsimp only
    rw [hbase, Function.update_self, Function.update_of_ne hne.symm, hpushed reg hsp, hv, if_neg fun h => hsub h.2,
      add_zero]
  · have hsum := @sum_generated _ _ _ _ reg reg rm 0 add shiftType imm5 hH hreg hreg hrm hsmall
    obtain ⟨sum, hsum, hleaves⟩ := hsum
    rw [if_neg hsame, hsum]
    refine ⟨_, rfl, leaves_gives ?_⟩
    have hboth := leaves_append hH (hH.setReg (readAddrToPc readAddress) hreg) hleaves
    have hread (r : Reg → Word) : Function.update r reg (readAddrToPc readAddress) rm =
        if rm = reg ∧ subtracts add rm then readAddrToPc readAddress else r rm := by
      rw [Function.update_apply]
      by_cases h : rm = reg
      · have hsub : subtracts add rm := not_not.mp fun hsub => hsame ((index_lt reg).1.mpr ⟨h.symm, hsub⟩)
        rw [if_pos h, if_pos ⟨h, hsub⟩]
      · rw [if_neg h, if_neg fun hand => h hand.1]
    simp only [Function.update_self, hread, add_zero] at hboth
    exact hboth

end Generation

section Addresses

variable {ι : Type*} (H : Helpers ι) (run : List ι → State → Option State) (readAddress : Word) (count : Int)
  (reg : Reg) (pcBase : Word)

/-- What a register holds as the code goes on. -/
def held (s : State) (r : Reg) : Word := if r = pc then s.pc else s.r r

/-- The registers of the program, of which some are pushed. -/
def guest (count : Int) (r : Reg → Word) : Reg → Word := Function.update r sp (r sp + BitVec.ofInt 32 count * 4)

/-- The code that is emitted leaves the address of the mode in the destination. -/
def Right (result : Option (Result ι)) (m : Mode) : Prop :=
  ∃ code, result = some (.ok code) ∧ ∀ s, ∃ t, run code s = some t ∧
    t.pc = s.pc + BitVec.ofNat 32 (bytes H code) ∧ held t reg = m.address pcBase s.flags.c (guest count s.r)

variable {H run readAddress count reg pcBase} {result : Option (Result ι)} {m : Mode} {code : List ι}
  {f : (Reg → Word) → Bool → Word} {bound : Int}

theorem not_right_pc (h : Right H run count pc pcBase result m) : False := by
  obtain ⟨code, -, hcode⟩ := h
  obtain ⟨t, -, hpc, haddr⟩ := hcode ⟨0, false, fun _ => 0, ⟨false, false, false, false⟩, 0, fun _ => 0⟩
  obtain ⟨u, -, hpc', haddr'⟩ := hcode ⟨1, false, fun _ => 0, ⟨false, false, false, false⟩, 0, fun _ => 0⟩
  have hsame : t.pc = u.pc := haddr.trans haddr'.symm
  rw [hpc, hpc', add_left_inj] at hsame
  exact absurd hsame (by decide)

theorem right_iff (hreg : reg ≠ pc) (hresult : result = some (.ok code)) (hgives : Gives H run code reg f) :
    Right H run count reg pcBase result m ↔ ∀ r c, f r c = m.address pcBase c (guest count r) := by
  constructor
  · rintro ⟨code', hresult', hright⟩ r c
    obtain rfl : code = code' := congrArg Result.code (Option.some.inj (hresult.symm.trans hresult'))
    let s : State := ⟨0, false, r, ⟨false, false, c, false⟩, 0, fun _ => 0⟩
    obtain ⟨t, ht, -, -, hvalue⟩ := hgives s
    obtain ⟨u, hu, -, haddr⟩ := hright s
    obtain rfl : t = u := Option.some.inj (ht.symm.trans hu)
    rw [held, if_neg hreg, hvalue] at haddr
    exact haddr
  · intro h
    refine ⟨code, hresult, fun s => ?_⟩
    obtain ⟨t, ht, hpc, -, hvalue⟩ := hgives s
    exact ⟨t, ht, hpc, by rw [held, if_neg hreg, hvalue, h]⟩

theorem offset_right_iff (hH : Lawful H run bound) (hreg : reg ≠ pc) {rn : Reg} {d e : Word} :
    Right H run count reg pcBase ((codeFor H readAddress count reg (.offset rn e)).map .ok) (.offset rn d) ↔
      if rn = pc then readAddrToPc readAddress + e = pcBase + d
      else if Fits bound (e + applied count rn) then e = d else reg = rn ∧ d + applied count rn = 0 := by
  split
  next hrn =>
    subst hrn
    have hset := leaves_gives (hH.setReg (readAddrToPc readAddress + e) hreg)
    rw [right_iff hreg (by rw [literal_code hH]; rfl) hset]
    exact ⟨fun h => h (fun _ => 0) false, fun h r c => h⟩
  next hrn =>
    have hguest (r : Reg → Word) : guest count r rn = r rn + applied count rn := by
      rw [guest, applied, Function.update_apply]
      split
      next hsp => rw [hsp]
      next => rw [add_zero]
    have haddress (r : Reg → Word) (c : Bool) :
        (Mode.offset rn d).address pcBase c (guest count r) = r rn + (d + applied count rn) := by
      rw [Mode.address, if_neg hrn, hguest, add_assoc, add_comm d]
    split
    next hfits =>
      obtain ⟨code, hcode, hleaves⟩ := @offset_generated _ _ _ _ reg rn e readAddress count hH hreg hrn hfits
      rw [right_iff hreg (by rw [hcode]; rfl) (leaves_gives hleaves)]
      simp only [haddress, add_right_inj, add_left_inj]
      exact ⟨fun h => h (fun _ => 0) false, fun h _ _ => h⟩
    next hfits =>
      rw [right_iff hreg (by rw [offset_unfit hH hrn hfits]; rfl) (leaves_gives (leaves_nil hH))]
      simp only [haddress]
      constructor
      · intro h
        have hzero := h (fun _ => 0) false
        rw [zero_add] at hzero
        have hone := h (Function.update (fun _ => 0) reg 1) false
        rw [← hzero, add_zero, Function.update_self, Function.update_apply] at hone
        refine ⟨?_, hzero.symm⟩
        by_contra hne
        rw [if_neg (Ne.symm hne)] at hone
        exact absurd hone (by decide)
      · rintro ⟨rfl, hzero⟩ r c
        rw [hzero, add_zero]

variable {rn rm : Reg} {add : Bool} {shiftType : BitVec 2} {imm5 : BitVec 5}

theorem guest_eq (r : Reg → Word) : guest count r rm = r rm + applied count rm := by
  rw [guest, applied, Function.update_apply]
  split
  next hsp => rw [hsp]
  next => rw [add_zero]

theorem codedIndex_eq (c : Bool) (x : Word) : codedIndex true rm shiftType imm5 c x = shiftImm shiftType imm5 c x :=
  if_neg fun h => Bool.noConfusion h.1

theorem codedIndex_zero (c : Bool) (x : Word) : codedIndex add 0 shiftType imm5 c x = shiftImm shiftType imm5 c x :=
  if_neg fun h => h.2 rfl

theorem codedIndex_neg (hrm : rm ≠ 0) (c : Bool) (x : Word) :
    codedIndex false rm shiftType imm5 c x = -shiftImm shiftType imm5 c x :=
  if_pos ⟨rfl, hrm⟩

/-- An index that is subtracted: what the code adds is right for every value of the register. -/
theorem subtracted_iff :
    (∀ c x, codedIndex false rm shiftType imm5 c x = -shiftImm shiftType imm5 c (x + applied count rm)) ↔
    if rm = 0 then Symmetric shiftType imm5
    else if rm = sp then Carries shiftType imm5 (BitVec.ofInt 32 count * 4) 0 else True := by
  split
  next hrm =>
    subst hrm
    simp only [codedIndex_zero, show applied count 0 = 0 from if_neg (by decide), add_zero]
    exact symmetric_iff
  next hrm =>
    simp only [codedIndex_neg hrm, neg_inj]
    split
    next hsp =>
      rw [hsp, applied, if_pos rfl]
      simp only [Carries, add_zero, eq_comm]
    next hsp => simp only [applied, if_neg hsp, add_zero, implies_true]

theorem index_right_iff (hH : Lawful H run bound) (hreg : reg ≠ pc) (hrm : rm ≠ pc) (hrn : rn ≠ pc) :
    Right H run count reg pcBase ((codeFor H readAddress count reg (.index rn add rm shiftType imm5)).map .ok)
        (.index rn add rm shiftType imm5) ↔
      Small (applied count rn) ∧
        if add then rm ≠ sp
        else if rm = 0 then Symmetric shiftType imm5
        else if rm = sp then Carries shiftType imm5 (BitVec.ofInt 32 count * 4) 0 else True := by
  have hnone (hcode : codeFor H readAddress count reg (.index rn add rm shiftType imm5) = none) :
      ¬Right H run count reg pcBase ((codeFor H readAddress count reg (.index rn add rm shiftType imm5)).map .ok)
        (.index rn add rm shiftType imm5) := by
    rintro ⟨code, hsome, -⟩
    rw [hcode] at hsome
    cases hsome
  by_cases hindex : add = true ∧ rm = sp
  · refine iff_of_false (hnone (index_asserts hindex.1 hindex.2)) ?_
    rintro ⟨-, h⟩
    rw [if_pos hindex.1] at h
    exact h hindex.2
  by_cases hsmall : Small (applied count rn)
  · obtain ⟨code, hcode, hleaves⟩ :=
      @sum_generated _ _ _ _ reg rn rm (applied count rn) add shiftType imm5 hH hreg hrn hrm hsmall
    have hgenerated := (@index_generated _ H reg rn rm readAddress count add shiftType imm5 hrn hrm hindex).trans hcode
    rw [right_iff hreg (by rw [hgenerated]; rfl) (leaves_gives hleaves), and_iff_right hsmall]
    simp only [Mode.address, if_neg hrn, guest_eq, add_right_comm _ _ (applied count rn), add_right_inj]
    have hvalues {f g : Bool → Word → Word} : (∀ (r : Reg → Word) c, f c (r rm) = g c (r rm)) ↔ ∀ c x, f c x = g c x :=
      ⟨fun h c x => h (fun _ => x) c, fun h r c => h c (r rm)⟩
    cases add with
    | true =>
      have hne : rm ≠ sp := fun hsp => hindex ⟨rfl, hsp⟩
      simp only [if_true, codedIndex_eq, show applied count rm = 0 from if_neg hne, add_zero, implies_true, true_iff]
      exact hne
    | false =>
      simp only [Bool.false_eq_true, if_false]
      exact hvalues.trans subtracted_iff
  · refine iff_of_false (hnone ?_) fun h => hsmall h.1
    rw [index_generated hrn hrm hindex, sum_asserts hsmall]

theorem shiftImm_zero_left : ∀ (shiftType : BitVec 2) (imm5 : BitVec 5), shiftImm shiftType imm5 false 0 = 0 := by
  decide

theorem add_neg_eq_iff (a b x y : Word) : a + -x = b + -y ↔ y = x + (b - a) := by
  rw [← sub_eq_add_neg, ← sub_eq_add_neg, sub_eq_sub_iff_add_eq_add, ← add_sub_assoc, eq_sub_iff_add_eq, add_comm y a,
    add_comm x b]

/-- When the code for the counter and an index register is right, where an index is added or the counter read wrong. -/
theorem literal_right_iff (hH : Lawful H run bound) (hreg : reg ≠ pc) (hrm : rm ≠ pc)
    (hbase : add = true ∨ readAddrToPc readAddress ≠ pcBase) :
    Right H run count reg pcBase ((codeFor H readAddress count reg (.index pc add rm shiftType imm5)).map .ok)
        (.index pc add rm shiftType imm5) ↔
      if add then rm ≠ sp ∧ readAddrToPc readAddress = pcBase
      else rm = sp ∧ reg ≠ sp ∧
        Carries shiftType imm5 (BitVec.ofInt 32 count * 4) (pcBase - readAddrToPc readAddress) := by
  by_cases hindex : add = true ∧ rm = sp
  · rw [if_pos hindex.1]
    refine iff_of_false ?_ fun h => h.1 hindex.2
    rintro ⟨code, hsome, -⟩
    rw [index_asserts hindex.1 hindex.2] at hsome
    cases hsome
  obtain ⟨code, hcode, hgives⟩ :=
    @literal_generated _ _ _ _ reg rm readAddress count add shiftType imm5 hH hreg hrm hindex
  rw [right_iff hreg (by rw [hcode]; rfl) hgives]
  simp only [Mode.address, if_true, guest_eq]
  generalize readAddrToPc readAddress = a at hbase
  cases add with
  | true =>
    have hne : rm ≠ sp := fun hsp => hindex ⟨rfl, hsp⟩
    have hadds : ¬subtracts true rm := fun h => Bool.noConfusion h.1
    simp only [if_true, codedIndex_eq, show applied count rm = 0 from if_neg hne, add_zero, hadds, and_false, if_false,
      add_left_inj]
    exact ⟨fun h => ⟨hne, h (fun _ => 0) false⟩, fun h _ _ => h.2⟩
  | false =>
    have hne : a ≠ pcBase := hbase.resolve_left (by decide)
    simp only [Bool.false_eq_true, if_false]
    constructor
    · intro h
      by_cases hzero : rm = 0
      · subst hzero
        have hstart := h (fun _ => 0) false
        have hsub : ¬(0 = reg ∧ subtracts false 0) := fun h => h.2.2 rfl
        rw [codedIndex_zero, if_neg hsub, show applied count 0 = 0 from if_neg (by decide), add_zero (0 : Word),
          shiftImm_zero_left, neg_zero, add_left_inj] at hstart
        exact absurd hstart hne
      have hsub : subtracts false rm := ⟨rfl, hzero⟩
      simp only [codedIndex_neg hzero, hsub, and_true] at h
      by_cases hsp : rm = sp
      · subst hsp
        have hdest : reg ≠ sp := by
          rintro rfl
          have hbelow := h (fun _ => a - applied count sp) false
          rw [if_pos rfl, sub_add_cancel, add_left_inj] at hbelow
          exact hne hbelow
        refine ⟨rfl, hdest, fun c x => ?_⟩
        have hmoved := h (fun _ => x) c
        rwa [if_neg hdest.symm, add_neg_eq_iff, applied, if_pos rfl] at hmoved
      · have hsame := h (fun _ => a) false
        rw [ite_self, show applied count rm = 0 from if_neg hsp, add_zero, add_left_inj] at hsame
        exact absurd hsame hne
    · rintro ⟨rfl, hreg, hmoves⟩ r c
      have hzero : sp ≠ 0 := by decide
      rw [codedIndex_neg hzero, if_neg fun h => hreg h.1.symm, add_neg_eq_iff, applied, if_pos rfl, hmoves]

end Addresses

end Mambo.ArmAccessAddr
