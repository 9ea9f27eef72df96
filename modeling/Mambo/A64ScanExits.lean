import Mambo.A64Scan
import Mathlib.Tactic.SplitIfs

namespace Mambo.A64ScanExits

open A64 A64Scan
open TraceState (BranchType CcType CodeCacheMeta Thread Scanned Stop)

section Exits

def exitFields (m : CodeCacheMeta) : BranchType × List Nat :=
  (m.exitBranchType,
    match m.exitBranchType with
    | .uncondBranchReg => [m.exitBranchAddr]
    | .uncondImmA64 => [m.exitBranchAddr, m.branchTakenAddr]
    | _ => [m.exitBranchAddr, m.branchTakenAddr, m.branchSkippedAddr, m.branchCondition])

theorem exitFields_exitMeta {g : Guest} {type : BranchType} (h : exitType g = some type) (readAddress writeP : Word)
    (m m' : CodeCacheMeta) :
    exitFields (exitMeta g readAddress writeP m') = exitFields (exitMeta g readAddress writeP m) ∧
      (exitMeta g readAddress writeP m).exitBranchType = type := by
  cases g with
  | cbzCbnz | bCond | tbzTbnz | bBl | indirect =>
      obtain rfl := Option.some.inj h
      exact ⟨rfl, rfl⟩
  | svc | mrsMsrReg | ldrLit | adr | other | invalid | unhandled => cases h

theorem exitMeta_none {g : Guest} (h : exitType g = none) (readAddress writeP : Word) (m : CodeCacheMeta) :
    exitMeta g readAddress writeP m = m := by
  cases g with
  | cbzCbnz | bCond | tbzTbnz | bBl | indirect => cases h
  | svc | mrsMsrReg | ldrLit | adr | other | invalid | unhandled => rfl

theorem stops_eq {g : Guest} {first : Bool} (h : stops g first = true) :
    (exitType g).isSome ∨ g = .invalid ∧ first = false := by
  cases g with
  | cbzCbnz | bCond | tbzTbnz | bBl | indirect => exact Or.inl rfl
  | svc | mrsMsrReg | ldrLit | adr | other | unhandled => cases h
  | invalid =>
      cases first with
      | false => exact Or.inr ⟨rfl, rfl⟩
      | true => cases h

theorem exit_stops {g : Guest} {first : Bool} (h : (exitType g).isSome) : stops g first = true := by
  cases g with
  | cbzCbnz | bCond | tbzTbnz | bBl | indirect => rfl
  | svc | mrsMsrReg | ldrLit | adr | other | invalid | unhandled => cases h

end Exits

section Scans

variable {mambo : Addresses} {program : Nat → Guest} {basicBlock : Nat} {st : Scan} {startScan : Nat} {m : CodeCacheMeta}

def withMeta (m : CodeCacheMeta) (st : Scan) : Scan := { st with bbMeta := m }

theorem withMeta_writeAll (out : List Out) : (withMeta m st).writeAll out = withMeta m (st.writeAll out) := by
  induction out generalizing st with
  | nil => rfl
  | cons o out ih => exact @ih (st.write o)

theorem writeAll_same (out : List Out) :
    (st.writeAll out).bbMeta = st.bbMeta ∧ (st.writeAll out).readAddress = st.readAddress ∧
      (st.writeAll out).ending = st.ending := by
  induction out generalizing st with
  | nil => exact ⟨rfl, rfl, rfl⟩
  | cons o out ih => exact ih

theorem withMeta_checkFreeSpace (size : Nat) :
    checkFreeSpace mambo basicBlock size (withMeta m st) = withMeta m (checkFreeSpace mambo basicBlock size st) := by
  obtain ⟨readAddress, writeP, dataP, freeBlock, bbMeta, code, log, ending⟩ := st
  dsimp only [withMeta, checkFreeSpace]
  split_ifs
  · rfl
  · cases A64Emit.branchHelper (BitVec.ofNat 64 writeP) (BitVec.ofNat 64 (blockAddr mambo freeBlock)) <;> rfl
  · rfl
  · rfl

theorem checkFreeSpace_ending (size : Nat) :
    (checkFreeSpace mambo basicBlock size st).readAddress = st.readAddress ∧
      (checkFreeSpace mambo basicBlock size st).bbMeta = st.bbMeta ∧
      ((checkFreeSpace mambo basicBlock size st).ending = st.ending ∨
        (checkFreeSpace mambo basicBlock size st).ending = some .full ∨
        (checkFreeSpace mambo basicBlock size st).ending = some .assertion) := by
  obtain ⟨readAddress, writeP, dataP, freeBlock, bbMeta, code, log, ending⟩ := st
  dsimp only [checkFreeSpace]
  split_ifs
  · exact ⟨rfl, rfl, Or.inr (Or.inl rfl)⟩
  · cases A64Emit.branchHelper (BitVec.ofNat 64 writeP) (BitVec.ofNat 64 (blockAddr mambo freeBlock)) with
    | none => exact ⟨rfl, rfl, Or.inr (Or.inr rfl)⟩
    | some jump => exact ⟨rfl, rfl, Or.inl rfl⟩
  · exact ⟨rfl, rfl, Or.inl rfl⟩
  · exact ⟨rfl, rfl, Or.inl rfl⟩

theorem reserve_withMeta (g : Guest) :
    reserve mambo basicBlock g (withMeta m st) = withMeta m (reserve mambo basicBlock g st) := by
  cases g with
  | indirect inst rn => exact withMeta_checkFreeSpace 88
  | cbzCbnz | bCond | svc | mrsMsrReg | tbzTbnz | bBl | ldrLit | adr | other | invalid | unhandled => rfl

theorem reserve_ending (g : Guest) :
    (reserve mambo basicBlock g st).readAddress = st.readAddress ∧ (reserve mambo basicBlock g st).bbMeta = st.bbMeta ∧
      ((reserve mambo basicBlock g st).ending = st.ending ∨ (reserve mambo basicBlock g st).ending = some .full ∨
        (reserve mambo basicBlock g st).ending = some .assertion) := by
  cases g with
  | indirect inst rn => exact checkFreeSpace_ending 88
  | cbzCbnz | bCond | svc | mrsMsrReg | tbzTbnz | bBl | ldrLit | adr | other | invalid | unhandled =>
      exact ⟨rfl, rfl, Or.inl rfl⟩

/-- What a round that does not end the scan with an exit leaves, and what one that
does. -/
inductive RoundEnd (program : Nat → Guest) (startScan : Nat) (st st' : Scan) : Prop
  | failed (e : Ending) (hending : st'.ending = some e) (he : e ≠ .exit)
      (htype : st'.bbMeta.exitBranchType = st.bbMeta.exitBranchType ∨
        exitType (program st.readAddress) = some st'.bbMeta.exitBranchType)
  | next (hending : st'.ending = none) (hread : st'.readAddress = st.readAddress + 4) (hmeta : st'.bbMeta = st.bbMeta)
      (hexit : exitType (program st.readAddress) = none)
  | exit (hending : st'.ending = some .exit)
      (hexit : exitType (program st.readAddress) = some st'.bbMeta.exitBranchType)
  | deferred (hending : st'.ending = some .exit) (hmeta : st'.bbMeta = st.bbMeta)
      (hinvalid : program st.readAddress = .invalid) (hlater : st.readAddress ≠ startScan)

theorem RoundEnd.check {st' : Scan} (h : st'.ending = some .full ∨ st'.ending = some .assertion)
    (hmeta : st'.bbMeta = st.bbMeta) : RoundEnd program startScan st st' := by
  rcases h with hfull | hassertion
  · exact .failed .full hfull Ending.noConfusion (Or.inl (congrArg CodeCacheMeta.exitBranchType hmeta))
  · exact .failed .assertion hassertion Ending.noConfusion (Or.inl (congrArg CodeCacheMeta.exitBranchType hmeta))

theorem scanRound_end (hending : st.ending = none) :
    RoundEnd program startScan st (scanRound mambo program basicBlock startScan st) := by
  obtain ⟨hread, hmeta, hreserved⟩ := @reserve_ending mambo basicBlock st (program st.readAddress)
  rw [scanRound, scanInst]
  generalize reserve mambo basicBlock (program st.readAddress) st = st₁ at hread hmeta hreserved ⊢
  rw [hending] at hreserved
  rcases hreserved with hnone | hfailed
  · simp only [hnone, hread, Option.isSome_none, Bool.false_eq_true, if_false]
    cases hout : instCode mambo basicBlock (program st.readAddress) (st.readAddress = startScan)
        (BitVec.ofNat 64 st.readAddress) (BitVec.ofNat 64 st₁.writeP) with
    | none =>
        refine .failed _ rfl ?_ (Or.inl (congrArg CodeCacheMeta.exitBranchType hmeta))
        split_ifs <;> exact Ending.noConfusion
    | some out =>
        dsimp only
        generalize hst₂ : (st₁.setMeta (exitMeta (program st.readAddress) (BitVec.ofNat 64 st.readAddress)
          (BitVec.ofNat 64 st₁.writeP))).writeAll out = st₂
        obtain ⟨hmeta₂, hread₂, hending₂⟩ := @writeAll_same (st₁.setMeta (exitMeta (program st.readAddress)
          (BitVec.ofNat 64 st.readAddress) (BitVec.ofNat 64 st₁.writeP))) out
        rw [hst₂] at hmeta₂ hread₂ hending₂
        replace hmeta₂ : st₂.bbMeta = exitMeta (program st.readAddress) (BitVec.ofNat 64 st.readAddress)
            (BitVec.ofNat 64 st₁.writeP) st.bbMeta := by
          rw [hmeta₂, ← hmeta]
          rfl
        replace hread₂ : st₂.readAddress = st.readAddress := hread₂.trans hread
        replace hending₂ : st₂.ending = none := hending₂.trans hnone
        have htype : exitType (program st.readAddress) = none ∧ st₂.bbMeta = st.bbMeta ∨
            exitType (program st.readAddress) = some st₂.bbMeta.exitBranchType := by
          cases htype : exitType (program st.readAddress) with
          | none => exact Or.inl ⟨rfl, hmeta₂.trans (exitMeta_none htype _ _ _)⟩
          | some type =>
              rw [hmeta₂, (exitFields_exitMeta htype _ _ st.bbMeta st.bbMeta).2]
              exact Or.inr rfl
        have hkept : st₂.bbMeta.exitBranchType = st.bbMeta.exitBranchType ∨
            exitType (program st.readAddress) = some st₂.bbMeta.exitBranchType :=
          htype.imp (fun h => congrArg CodeCacheMeta.exitBranchType h.2) id
        split_ifs with hover hstop
        · exact .failed .overrun rfl Ending.noConfusion hkept
        · rcases htype with ⟨hnotype, hsame⟩ | htype
          · rcases stops_eq hstop with hsome | ⟨hinvalid, hfirst⟩
            · rw [hnotype] at hsome
              exact absurd hsome Bool.false_ne_true
            · exact .deferred rfl hsame hinvalid (of_decide_eq_false hfirst)
          · exact .exit rfl htype
        · have hnotype : exitType (program st.readAddress) = none := by
            by_contra hsome
            exact hstop (exit_stops (Option.isSome_iff_ne_none.mpr hsome))
          obtain ⟨hread₃, hmeta₃, hchecked⟩ := @checkFreeSpace_ending mambo basicBlock st₂ minFspace
          rw [hending₂] at hchecked
          rcases htype with ⟨-, hsame⟩ | htype
          · rcases hchecked with hnone₃ | hfailed
            · exact .next hnone₃ (congrArg (· + 4) (hread₃.trans hread₂)) (hmeta₃.trans hsame) hnotype
            · exact RoundEnd.check hfailed (hmeta₃.trans hsame)
          · exact absurd (hnotype.symm.trans htype) (Option.some_ne_none _).symm
  · have hsome : st₁.ending.isSome := by
      rcases hfailed with hfull | hassertion
      · rw [hfull]
        rfl
      · rw [hassertion]
        rfl
    rw [if_pos hsome]
    exact RoundEnd.check hfailed hmeta

theorem scanInst_withMeta (g : Guest) : ∃ m', scanInst mambo basicBlock startScan g (withMeta m st) =
      withMeta m' (scanInst mambo basicBlock startScan g st) ∧
    (st.ending ≠ some .exit → ∀ type, exitType g = some type →
      (scanInst mambo basicBlock startScan g st).ending = some .exit →
      exitFields m' = exitFields (scanInst mambo basicBlock startScan g st).bbMeta) := by
  obtain ⟨readAddress, writeP, dataP, freeBlock, bbMeta, code, log, ending⟩ := st
  dsimp only [withMeta, scanInst]
  by_cases hsome : ending.isSome
  · rw [if_pos hsome, if_pos hsome]
    exact ⟨m, rfl, fun hnone type _ hexit => absurd hexit hnone⟩
  · rw [if_neg hsome, if_neg hsome]
    cases hout : instCode mambo basicBlock g (readAddress = startScan) (BitVec.ofNat 64 readAddress)
        (BitVec.ofNat 64 writeP) with
    | none =>
        refine ⟨m, rfl, ?_⟩
        intro _ type _ hexit
        have hfailed := Option.some.inj hexit
        split_ifs at hfailed
    | some out =>
        dsimp only
        generalize hf : exitMeta g (BitVec.ofNat 64 readAddress) (BitVec.ofNat 64 writeP) = f
        have hwritten := @withMeta_writeAll (Scan.setMeta ⟨readAddress, writeP, dataP, freeBlock, bbMeta, code, log,
          ending⟩ f) (f m) out
        obtain ⟨hmeta, -, -⟩ := @writeAll_same (Scan.setMeta ⟨readAddress, writeP, dataP, freeBlock, bbMeta, code, log,
          ending⟩ f) out
        change (Scan.setMeta ⟨readAddress, writeP, dataP, freeBlock, m, code, log, ending⟩ f).writeAll out = _ at hwritten
        rw [hwritten]
        generalize (Scan.setMeta ⟨readAddress, writeP, dataP, freeBlock, bbMeta, code, log, ending⟩ f).writeAll out = st₂
          at hmeta ⊢
        refine ⟨f m, ?_, ?_⟩
        · change _ = withMeta (f m) (ite _ _ (ite _ _ _))
          rw [withMeta_checkFreeSpace, apply_ite (withMeta (f m)), apply_ite (withMeta (f m))]
          rfl
        · intro _ type htype hexit
          by_cases hover : st₂.dataP ≤ st₂.writeP
          · rw [if_pos hover] at hexit
            cases hexit
          · have hstop : stops g (readAddress = startScan) = true := exit_stops (Option.isSome_iff_exists.mpr ⟨type, htype⟩)
            rw [if_neg hover, if_pos hstop]
            change exitFields (f m) = exitFields st₂.bbMeta
            rw [hmeta, ← hf]
            exact (exitFields_exitMeta htype _ _ bbMeta m).1

theorem scanRound_withMeta : ∃ m', scanRound mambo program basicBlock startScan (withMeta m st) =
      withMeta m' (scanRound mambo program basicBlock startScan st) ∧
    (st.ending = none → ∀ type, exitType (program st.readAddress) = some type →
      (scanRound mambo program basicBlock startScan st).ending = some .exit →
      exitFields m' = exitFields (scanRound mambo program basicBlock startScan st).bbMeta) := by
  obtain ⟨-, -, hreserved⟩ := @reserve_ending mambo basicBlock st (program st.readAddress)
  obtain ⟨m', heq, hfields⟩ := @scanInst_withMeta mambo basicBlock
    (reserve mambo basicBlock (program st.readAddress) st) startScan m (program st.readAddress)
  rw [← reserve_withMeta] at heq
  refine ⟨m', heq, fun hnone => hfields ?_⟩
  intro hexit
  rw [hexit, hnone] at hreserved
  rcases hreserved with h | h | h <;> cases h

end Scans

section Fragments

variable (program : Nat → Guest)

def Clear (a : Nat) : Prop := ∀ k, (∀ j, j < k → exitType (program (a + 4 * j)) = none) → program (a + 4 * k) ≠ .invalid

def Known (a : Nat) : Prop := exitType (program a) = none → Clear program (a + 4)

variable {program} {mambo : Addresses} {basicBlock startScan n a : Nat} {st : Scan}

theorem Clear.next (h : Clear program a) (hexit : exitType (program a) = none) : Clear program (a + 4) := by
  intro k hk
  have hnext : a + 4 + 4 * k = a + 4 * (k + 1) := by omega
  rw [hnext]
  refine h (k + 1) fun j hj => ?_
  cases j with
  | zero => exact hexit
  | succ j =>
      have hj' := hk j (Nat.lt_of_succ_lt_succ hj)
      rwa [show a + 4 + 4 * j = a + 4 * (j + 1) by omega] at hj'

structure Ahead (program : Nat → Guest) (startScan a : Nat) : Prop where
  here : a ≠ startScan → program a ≠ .invalid
  known : Known program a

theorem Clear.ahead (h : Clear program a) : Ahead program startScan a := by
  refine ⟨fun _ => ?_, fun hexit => h.next hexit⟩
  exact h 0 fun j hj => absurd hj (Nat.not_lt_zero j)

theorem scanLoop_exit (hahead : Ahead program startScan st.readAddress) (hending : st.ending = none)
    (hexit : (scanLoop mambo program basicBlock startScan n st).ending = some .exit) :
    (∃ r, exitType (program r) = some (scanLoop mambo program basicBlock startScan n st).bbMeta.exitBranchType) ∧
      ∀ m, (scanLoop mambo program basicBlock startScan n (withMeta m st)).ending = some .exit ∧
        exitFields (scanLoop mambo program basicBlock startScan n (withMeta m st)).bbMeta =
          exitFields (scanLoop mambo program basicBlock startScan n st).bbMeta := by
  induction n generalizing st with
  | zero =>
      rw [scanLoop, hending] at hexit
      cases hexit
  | succ n ih =>
      have hone : ∀ m, scanLoop mambo program basicBlock startScan (n + 1) (withMeta m st) =
          scanLoop mambo program basicBlock startScan n (scanRound mambo program basicBlock startScan (withMeta m st)) := by
        intro m
        rw [scanLoop, withMeta, hending]
        rfl
      have hst : withMeta st.bbMeta st = st := rfl
      have hself := hone st.bbMeta
      rw [hst] at hself
      rw [hself] at hexit ⊢
      cases @scanRound_end mambo program basicBlock st startScan hending with
      | failed e hfailed he =>
          rw [scanLoop_ended _ _ _ (by rw [hfailed]; rfl), hfailed] at hexit
          exact absurd (Option.some.inj hexit) he
      | deferred _ _ hinvalid hlater => exact absurd hinvalid (hahead.here hlater)
      | next hnone hread hmeta hnotype =>
          have hnext : Ahead program startScan (scanRound mambo program basicBlock startScan st).readAddress := by
            rw [hread]
            exact Clear.ahead (hahead.known hnotype)
          obtain ⟨htype, hall⟩ := ih hnext hnone hexit
          refine ⟨htype, fun m => ?_⟩
          obtain ⟨m', heq, -⟩ := @scanRound_withMeta mambo program basicBlock st startScan m
          rw [hone, heq]
          exact hall m'
      | exit hended htype =>
          rw [scanLoop_ended _ _ _ (by rw [hended]; rfl)]
          refine ⟨⟨_, htype⟩, fun m => ?_⟩
          obtain ⟨m', heq, hfields⟩ := @scanRound_withMeta mambo program basicBlock st startScan m
          rw [hone, heq, scanLoop_ended _ _ _ (by rw [withMeta, hended]; rfl)]
          exact ⟨hended, hfields hending _ htype hended⟩

theorem pass1_exit {type : BranchType} (h : exitType (program a) = some type) (fuel : Nat) :
    pass1 program (fuel + 1) a = type := by
  rw [pass1, h]

theorem pass1_next (h : exitType (program a) = none) (hvalid : program a ≠ .invalid) (fuel : Nat) :
    pass1 program (fuel + 1) a = pass1 program fuel (a + 4) := by
  rw [pass1, h]
  exact if_neg hvalid

theorem pass1_valid {fuel : Nat} (h : pass1 program fuel a ≠ .unknown) : program a ≠ .invalid := by
  cases fuel with
  | zero => exact absurd rfl h
  | succ fuel =>
      intro hinvalid
      have htype : exitType (program a) = none := by rw [hinvalid]; rfl
      rw [pass1, htype] at h
      exact h (if_pos hinvalid)

theorem pass1_some {fuel : Nat} (h : pass1 program fuel a ≠ .unknown) :
    ∃ r, exitType (program r) = some (pass1 program fuel a) := by
  induction fuel generalizing a with
  | zero => exact absurd rfl h
  | succ fuel ih =>
      cases htype : exitType (program a) with
      | none =>
          have hnext := pass1_next htype (pass1_valid h) fuel
          rw [hnext] at h ⊢
          exact ih h
      | some type =>
          rw [pass1_exit htype]
          exact ⟨a, htype⟩

theorem pass1_clear {fuel : Nat} (h : pass1 program fuel a ≠ .unknown) : Clear program a := by
  induction fuel generalizing a with
  | zero => exact absurd rfl h
  | succ fuel ih =>
      intro k hk
      cases k with
      | zero => exact pass1_valid h
      | succ k =>
          have hnotype : exitType (program a) = none := hk 0 (Nat.succ_pos k)
          rw [pass1_next hnotype (pass1_valid h) _] at h
          have hlater := ih h k fun j hj => by
            rw [show a + 4 + 4 * j = a + 4 * (j + 1) by omega]
            exact hk (j + 1) (Nat.succ_lt_succ hj)
          rwa [show a + 4 * (k + 1) = a + 4 + 4 * k by omega]

theorem scanLoop_pass1 {fuel : Nat} (h : pass1 program fuel st.readAddress ≠ .unknown) (hending : st.ending = none)
    (hexit : (scanLoop mambo program basicBlock startScan n st).ending = some .exit) :
    (scanLoop mambo program basicBlock startScan n st).bbMeta.exitBranchType = pass1 program fuel st.readAddress := by
  induction n generalizing st fuel with
  | zero =>
      rw [scanLoop, hending] at hexit
      cases hexit
  | succ n ih =>
      rw [scanLoop, hending] at hexit ⊢
      rw [Option.isSome_none, if_neg Bool.false_ne_true] at hexit ⊢
      obtain ⟨fuel, rfl⟩ := Nat.exists_eq_succ_of_ne_zero fun hzero : fuel = 0 => h (by rw [hzero]; rfl)
      cases @scanRound_end mambo program basicBlock st startScan hending with
      | failed e hfailed he =>
          rw [scanLoop_ended _ _ _ (by rw [hfailed]; rfl), hfailed] at hexit
          exact absurd (Option.some.inj hexit) he
      | deferred _ _ hinvalid _ => exact absurd hinvalid (pass1_valid h)
      | next hnone hread _ hnotype =>
          have hpass := pass1_next hnotype (pass1_valid h) fuel
          rw [hpass, ← hread] at h ⊢
          exact ih h hnone hexit
      | exit hended htype =>
          rw [scanLoop_ended _ _ _ (by rw [hended]; rfl)]
          exact (pass1_exit htype fuel).symm

theorem scanLoop_type (hending : st.ending = none) :
    (scanLoop mambo program basicBlock startScan n st).bbMeta.exitBranchType = st.bbMeta.exitBranchType ∨
      ∃ r, exitType (program r) = some (scanLoop mambo program basicBlock startScan n st).bbMeta.exitBranchType := by
  induction n generalizing st with
  | zero => exact Or.inl rfl
  | succ n ih =>
      rw [scanLoop, hending, Option.isSome_none, if_neg Bool.false_ne_true]
      cases @scanRound_end mambo program basicBlock st startScan hending with
      | failed e hfailed he htype =>
          rw [scanLoop_ended _ _ _ (by rw [hfailed]; rfl)]
          exact htype.imp id fun h => ⟨_, h⟩
      | deferred hended hmeta _ _ =>
          rw [scanLoop_ended _ _ _ (by rw [hended]; rfl), hmeta]
          exact Or.inl rfl
      | next hnone _ hmeta _ =>
          rw [← hmeta]
          exact ih hnone
      | exit hended htype =>
          rw [scanLoop_ended _ _ _ (by rw [hended]; rfl)]
          exact Or.inr ⟨_, htype⟩

end Fragments

section Scanner

variable (mambo : Addresses) (program : Nat → Guest) (fuel n : Nat)

/-- The scanner for the traces, with a bound on the rounds. A scan that fails itself
is a failed assertion. -/
def scannerA64 {T : Type} (t : Thread T) (type : CcType) (address id writeP : Nat) : Except Stop Scanned :=
  let st := scanA64 mambo program id fuel type address writeP t.freeBlock (t.codeCacheMeta id) (fun _ => none) n
  if st.ending = some .exit then
    .ok ⟨st.bbMeta.exitBranchType, st.bbMeta.exitBranchAddr, st.bbMeta.branchTakenAddr, st.bbMeta.branchSkippedAddr,
      st.bbMeta.branchCondition, st.writeP - writeP + 4, st.freeBlock - t.freeBlock⟩
  else .error .assertion

/-- The exit of a fragment is the one that the scan of the fragment writes, whatever
was there before. -/
def WrittenByScan (id : Nat) (m : CodeCacheMeta) : Prop :=
  ∃ type freeBlock, type ≠ .bb ∧ ∀ before,
    let st := scanA64 mambo program id fuel type m.sourceAddr m.tpc freeBlock before (fun _ => none) n
    st.ending = some .exit ∧ exitFields st.bbMeta = exitFields m

variable {mambo : Addresses} {program : Nat → Guest} {fuel n address id writeP freeBlock : Nat} {type : CcType}
  {before : CodeCacheMeta} {T : Type} {t : Thread T} {s : Scanned}

theorem scanStart_some {entry : List Out} (m : CodeCacheMeta)
    (hentry : entryCode mambo program id fuel type address (BitVec.ofNat 64 writeP) = some entry) :
    scanStart mambo program id fuel type address writeP freeBlock m (fun _ => none) =
      (emptyScan mambo type address writeP freeBlock m (fun _ => none)).writeAll entry := by
  rw [scanStart, hentry]

theorem emptyScan_withMeta (m : CodeCacheMeta) : ∃ m', emptyScan mambo type address writeP freeBlock m (fun _ => none) =
    withMeta m' (emptyScan mambo type address writeP freeBlock before (fun _ => none)) := ⟨_, rfl⟩

theorem emptyScan_type : (emptyScan mambo type address writeP freeBlock before (fun _ => none)).bbMeta.exitBranchType =
    before.exitBranchType := by
  rw [emptyScan]
  dsimp only
  split_ifs <;> rfl

theorem scan_started (h : (scanA64 mambo program id fuel type address writeP freeBlock before (fun _ => none) n).ending =
    some .exit) : ∃ entry, entryCode mambo program id fuel type address (BitVec.ofNat 64 writeP) = some entry := by
  cases hentry : entryCode mambo program id fuel type address (BitVec.ofNat 64 writeP) with
  | none =>
      rw [scanA64, scanStart, hentry, scanLoop_ended _ _ _ (by rfl)] at h
      cases h
  | some entry => exact ⟨entry, rfl⟩

theorem scan_written (htype : type ≠ .bb) (hknown : Known program address)
    (h : (scanA64 mambo program id fuel type address writeP freeBlock before (fun _ => none) n).ending = some .exit) :
    (∃ r, exitType (program r) = some (scanA64 mambo program id fuel type address writeP freeBlock before
        (fun _ => none) n).bbMeta.exitBranchType) ∧
      ∀ m, m.sourceAddr = address → m.tpc = writeP → exitFields m = exitFields (scanA64 mambo program id fuel type
        address writeP freeBlock before (fun _ => none) n).bbMeta → WrittenByScan mambo program fuel n id m := by
  obtain ⟨entry, hentry⟩ := scan_started h
  rw [scanA64, scanStart_some before hentry] at h ⊢
  generalize hst : (emptyScan mambo type address writeP freeBlock before (fun _ => none)).writeAll entry = st at h ⊢
  obtain ⟨-, hread, hending⟩ := @writeAll_same (emptyScan mambo type address writeP freeBlock before (fun _ => none)) entry
  rw [hst] at hread hending
  have hahead : Ahead program address st.readAddress := by
    rw [hread]
    exact ⟨fun hne => absurd rfl hne, hknown⟩
  obtain ⟨hexit, hall⟩ := scanLoop_exit hahead hending h
  refine ⟨hexit, ?_⟩
  rintro m rfl rfl hfields
  refine ⟨type, freeBlock, htype, fun m₀ => ?_⟩
  obtain ⟨m', heq⟩ := @emptyScan_withMeta mambo m.sourceAddr m.tpc freeBlock type before m₀
  rw [scanA64, scanStart_some m₀ hentry, heq, withMeta_writeAll, hst, hfields]
  exact hall m'

theorem scan_pass1 {rounds : Nat} (hpass : pass1 program rounds address ≠ .unknown)
    (h : (scanA64 mambo program id fuel type address writeP freeBlock before (fun _ => none) n).ending = some .exit) :
    (scanA64 mambo program id fuel type address writeP freeBlock before (fun _ => none) n).bbMeta.exitBranchType =
      pass1 program rounds address := by
  obtain ⟨entry, hentry⟩ := scan_started h
  rw [scanA64, scanStart_some before hentry] at h ⊢
  obtain ⟨-, hread, hending⟩ := @writeAll_same (emptyScan mambo type address writeP freeBlock before (fun _ => none)) entry
  generalize (emptyScan mambo type address writeP freeBlock before (fun _ => none)).writeAll entry = st
    at h hread hending ⊢
  replace hread : st.readAddress = address := hread
  have hpass' : pass1 program rounds st.readAddress ≠ .unknown := by rwa [hread]
  rw [← hread, scanLoop_pass1 hpass' hending (hread ▸ h)]

theorem scan_type
    (h : (scanA64 mambo program id fuel type address writeP freeBlock before (fun _ => none) n).ending = some .exit) :
    (scanA64 mambo program id fuel type address writeP freeBlock before (fun _ => none) n).bbMeta.exitBranchType =
        before.exitBranchType ∨
      ∃ r, exitType (program r) = some (scanA64 mambo program id fuel type address writeP freeBlock before
        (fun _ => none) n).bbMeta.exitBranchType := by
  obtain ⟨entry, hentry⟩ := scan_started h
  rw [scanA64, scanStart_some before hentry] at h ⊢
  obtain ⟨hmeta, -, hending⟩ := @writeAll_same (emptyScan mambo type address writeP freeBlock before (fun _ => none)) entry
  have hbefore := @emptyScan_type mambo address writeP freeBlock type before
  rw [← hbefore, ← hmeta]
  exact scanLoop_type hending

theorem scannerA64_ok (h : scannerA64 mambo program fuel n t type address id writeP = .ok s) :
    let st := scanA64 mambo program id fuel type address writeP t.freeBlock (t.codeCacheMeta id) (fun _ => none) n
    st.ending = some .exit ∧ s.exitBranchType = st.bbMeta.exitBranchType ∧
      ∀ m : CodeCacheMeta, exitFields { m with
        exitBranchType := s.exitBranchType
        exitBranchAddr := s.exitBranchAddr
        branchTakenAddr := s.branchTakenAddr
        branchSkippedAddr := s.branchSkippedAddr
        branchCondition := s.branchCondition } = exitFields st.bbMeta := by
  rw [scannerA64] at h
  split_ifs at h with hexit
  obtain rfl := Except.ok.inj h
  exact ⟨hexit, rfl, fun _ => rfl⟩

end Scanner

end Mambo.A64ScanExits
