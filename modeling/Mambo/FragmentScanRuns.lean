import Mambo.FragmentEntries

namespace Mambo.FragmentScanRuns

open CodeCacheHash HashRefines FragmentScans FragmentEntries
open TraceLog (bind_ok)
open TraceState (codeCacheSize codeCacheOverp blockBytes)

variable {w : Nat} {c : Cache w}

section Throughout

variable {t t' : Thread w} {id : Nat} {p : Scan w} {P Q : Thread w → Scan w → Prop}

theorem Throughout.imp (himp : ∀ t q, P t q → Q t q) (h : Throughout c id P p t) : Throughout c id Q p t := by
  induction p generalizing t with
  | done => exact himp t _ h
  | emit k ih => exact ⟨himp t _ h.1, ih h.2⟩
  | setExit type k ih => exact ⟨himp t _ h.1, ih h.2⟩
  | overflow k ih => exact ⟨himp t _ h.1, fun r hr => ih r.2 (h.2 r hr)⟩
  | lookupOrStub target k ih => exact ⟨himp t _ h.1, fun r hr => ih r.2 (h.2 r hr)⟩

theorem Throughout.and (hP : Throughout c id P p t) (hQ : Throughout c id Q p t) :
    Throughout c id (fun t q => P t q ∧ Q t q) p t := by
  induction p generalizing t with
  | done => exact ⟨hP, hQ⟩
  | emit k ih => exact ⟨⟨hP.1, hQ.1⟩, ih hP.2 hQ.2⟩
  | setExit type k ih => exact ⟨⟨hP.1, hQ.1⟩, ih hP.2 hQ.2⟩
  | overflow k ih => exact ⟨⟨hP.1, hQ.1⟩, fun r hr => ih r.2 (hP.2 r hr) (hQ.2 r hr)⟩
  | lookupOrStub target k ih => exact ⟨⟨hP.1, hQ.1⟩, fun r hr => ih r.2 (hP.2 r hr) (hQ.2 r hr)⟩

theorem Throughout.head (h : Throughout c id P p t) : P t p := by
  cases p with
  | done => exact h
  | emit k => exact h.1
  | setExit type k => exact h.1
  | overflow k => exact h.1
  | lookupOrStub target k => exact h.1

theorem Throughout.result (h : Throughout c id P p t) (hrun : runScan c id p t = .ok t') : P t' .done := by
  induction p generalizing t with
  | done =>
      obtain rfl := Except.ok.inj hrun
      exact h
  | emit k ih => exact ih h.2 hrun
  | setExit type k ih => exact ih h.2 hrun
  | overflow k ih =>
      obtain ⟨r, hr, hrun⟩ := bind_ok hrun
      exact ih r.2 (h.2 r hr) hrun
  | lookupOrStub target k ih =>
      obtain ⟨r, hr, hrun⟩ := bind_ok hrun
      exact ih r.2 (h.2 r hr) hrun

/-- The invariant of a scan: as long as there is room for the blocks that the fragment may still take, nothing that it
relies on changes. -/
theorem scan_throughout {reserved : Bool} {n : Nat} {t₀ : Thread w} (h : Inv c t) (hgrows : Grows c t₀ t)
    (hspans : Spans n p) (hreserve : n < codeCacheOverp) (hroom : reserved = true → t.freeBlock + n ≤ codeCacheSize)
    (hfits : Throughout c id (Roomy c reserved) p t) :
    Throughout c id (fun t' q => Inv c t' ∧ Grows c t₀ t' ∧ ((∃ k, q = .overflow k) → t'.freeBlock < codeCacheSize))
      p t := by
  induction p generalizing t n with
  | done => exact ⟨h, hgrows, by rintro ⟨_, ⟨⟩⟩⟩
  | emit k ih =>
      exact ⟨⟨h, hgrows, by rintro ⟨_, ⟨⟩⟩⟩, ih h hgrows hspans hreserve hroom hfits.2⟩
  | setExit type k ih =>
      have hinv : Inv c (setExit t id type) := h.setMeta id _
      have hgrows' := hgrows.trans (setExit_grows c t id type)
      exact ⟨⟨h, hgrows, by rintro ⟨_, ⟨⟩⟩⟩, ih hinv hgrows' hspans hreserve hroom hfits.2⟩
  | overflow k ih =>
      obtain ⟨m, rfl⟩ : ∃ m, n = m + 1 := by
        cases n with
        | zero => exact hspans.elim
        | succ m => exact ⟨m, rfl⟩
      have hlt : t.freeBlock < codeCacheSize := by
        cases hres : reserved with
        | false => exact hfits.1 hres
        | true =>
            have := hroom hres
            omega
      refine ⟨⟨h, hgrows, fun _ => hlt⟩, fun r hr => ?_⟩
      obtain ⟨-, rfl⟩ := allocateBbOverflow_ok hr
      have hinv : Inv c (setActualId t.take t.freeBlock id) := (h.take hlt).setMeta _ _
      have hgrows' := hgrows.trans ((take_grows c t).trans (setActualId_grows c t.take t.freeBlock id))
      have hroom' : reserved = true → t.freeBlock + 1 + m ≤ codeCacheSize := fun hres => by
        have := hroom hres
        omega
      exact ih _ hinv hgrows' (hspans _) (by omega) hroom' (hfits.2 _ hr)
  | lookupOrStub target k ih =>
      refine ⟨⟨h, hgrows, by rintro ⟨_, ⟨⟩⟩⟩, fun r hr => ?_⟩
      obtain ⟨hinv, hstep, -, hfree⟩ := lookupOrStub_spec h hfits.1 hr
      have hgrows' := hgrows.trans hstep
      have hroom' : reserved = true → r.1.freeBlock + n ≤ codeCacheSize := fun hres => by
        have hbefore := hroom hres
        have hoverp : codeCacheOverp ≤ codeCacheSize := by decide
        rcases hfree with hsame | hle
        · rw [hsame]
          exact hbefore
        · omega
      exact ih _ hinv hgrows' (hspans _) hreserve hroom' (hfits.2 _ hr)

theorem runScan_exit {reserved : Bool} (hid : id < t.freeBlock)
    (hfits : Throughout c id (fun t q => Inv c t ∧ Roomy c reserved t q) p t) (hrun : runScan c id p t = .ok t') :
    (t'.codeCacheMeta id).exitBranchType = lastExit c id p t (t.codeCacheMeta id).exitBranchType := by
  induction p generalizing t with
  | done =>
      obtain rfl := Except.ok.inj hrun
      rfl
  | emit k ih => exact ih hid hfits.2 hrun
  | setExit type k ih =>
      have hkept := ih (t := setExit t id type) hid hfits.2 hrun
      rw [FragmentScans.setExit, setMeta_self] at hkept
      exact hkept
  | overflow k ih =>
      obtain ⟨r, hr, hrun⟩ := bind_ok hrun
      have hkept := ih r.2 ?_ (hfits.2 r hr) hrun
      · rw [lastExit, hr, hkept]
        obtain ⟨-, rfl⟩ := allocateBbOverflow_ok hr
        have hsame : (setActualId t.take t.freeBlock id).codeCacheMeta id = t.codeCacheMeta id :=
          setMeta_of_ne t.take hid.ne _
        simp only [hsame]
      · obtain ⟨-, rfl⟩ := allocateBbOverflow_ok hr
        exact hid.trans (Nat.lt_succ_self _)
  | lookupOrStub target k ih =>
      obtain ⟨r, hr, hrun⟩ := bind_ok hrun
      obtain ⟨-, hgrows, htypes, -⟩ := lookupOrStub_spec hfits.1.1 hfits.1.2 hr
      rw [lastExit, hr, ih r.2 (hid.trans_le hgrows.le) (hfits.2 r hr) hrun, htypes id hid]

end Throughout

section Steps

variable {t t' t₁ : Thread w} {id : Nat} {reserved : Bool} {address target addr : BitVec w} {basicBlock : Option Nat}
  {op : Op w}

/-- The fragment that a basic block's scan is called for. -/
structure Enters (c : Cache w) (t₁ : Thread w) (id : Nat) (address : BitVec w) : Prop where
  lt : id < t₁.freeBlock
  found : hashLookup c.htShift t₁.entryAddress address = .ok (c.block id ||| c.thumb address)
  source : (t₁.codeCacheMeta id).sourceAddr = address
  tpc : (t₁.codeCacheMeta id).tpc = c.block id

theorem enter_spec (h : Inv c t) (haddress : address ≠ 0)
    (hstub : ∀ i, basicBlock = some i → i < t.freeBlock ∧
      hashLookup c.htShift t.entryAddress address = .ok (c.block i ||| c.thumb address))
    (henter : enter c t address basicBlock = .ok (t₁, id)) :
    Inv c t₁ ∧ (basicBlock.isNone = true → t₁.freeBlock ≤ codeCacheSize - codeCacheOverp) ∧ Enters c t₁ id address := by
  cases basicBlock with
  | none =>
      obtain ⟨⟨t₂, i⟩, halloc, henter⟩ := bind_ok henter
      obtain ⟨t₃, hadd, henter⟩ := bind_ok henter
      obtain ⟨rfl, rfl⟩ := Prod.mk.inj (Except.ok.inj henter)
      obtain ⟨hinv, hlt, hle⟩ := allocateBb_spec h halloc
      have hentry : Entry c (t₂.setMeta i fun m => { m with sourceAddr := address, tpc := c.block i }) address
          (c.block i ||| c.thumb address) := Or.inl ⟨i, hlt, rfl⟩
      obtain ⟨hinv', table, rfl, hfound, -⟩ := addEntry_spec (hinv.setMeta i _) hentry hadd
      have hmeta := setMeta_self t₂ i fun m => { m with sourceAddr := address, tpc := c.block i }
      exact ⟨hinv', fun _ => hle, hlt, hfound haddress, congrArg CodeCacheMeta.sourceAddr hmeta,
        congrArg CodeCacheMeta.tpc hmeta⟩
  | some i =>
      obtain ⟨rfl, rfl⟩ := Prod.mk.inj (Except.ok.inj henter)
      obtain ⟨hlt, hfound⟩ := hstub i rfl
      have hmeta := setMeta_self t i fun m => { m with sourceAddr := address, tpc := c.block i }
      exact ⟨h.setMeta i _, fun hnone => absurd hnone Bool.false_ne_true, hlt, hfound,
        congrArg CodeCacheMeta.sourceAddr hmeta, congrArg CodeCacheMeta.tpc hmeta⟩

theorem lookupBb_spec (h : Inv c t) (htarget : target ≠ 0) {i : Nat}
    (hlookup : lookupBb c t target = .ok (addr, some i)) : i < t.freeBlock ∧
      hashLookup c.htShift t.entryAddress target = .ok (c.block i ||| c.thumb target) := by
  obtain ⟨m, hm, hentries⟩ := h.table
  obtain ⟨addr', hcc, hlookup⟩ := bind_ok hlookup
  rw [ccLookup, hm.hashLookup htarget] at hcc
  obtain rfl := Except.ok.inj hcc
  split at hlookup
  · rename_i hblock
    cases hvalue : m target with
    | none =>
        rw [hvalue] at hblock
        exact absurd (if_neg fun hne => hne.2 rfl) hblock.1
    | some v =>
        rw [hvalue, Option.getD_some] at hlookup hblock
        rcases hentries target v htarget hvalue with ⟨j, hj, rfl⟩ | htrace
        · split at hlookup
          · cases hlookup
          · rename_i k hk
            rw [addrToBbId_adjust (hj.trans_le h.le_size)] at hk
            have hkj : k = j := (Option.some.inj hk).symm
            have hki : k = i := by
              split at hlookup
              · exact Option.some.inj (Prod.mk.inj (Except.ok.inj hlookup)).2
              · exact Option.some.inj (Prod.mk.inj (Except.ok.inj hlookup)).2
            obtain rfl : i = j := hki.symm.trans hkj
            exact ⟨hj, by rw [hm.hashLookup htarget, hvalue, Option.getD_some]⟩
        · rw [addrToBbId_trace htrace hblock.2] at hlookup
          cases hlookup
  · cases (Prod.mk.inj (Except.ok.inj hlookup)).2

theorem entered_spec (h : Inv c t) (hvalid : op.Valid c) (hentered : entered c t op = .ok (some (t₁, id, reserved))) :
    Inv c t₁ ∧ (reserved = true → t₁.freeBlock ≤ codeCacheSize - codeCacheOverp) ∧
      ∀ address, op.address = some address → Enters c t₁ id address := by
  have hsame : ∀ {a : BitVec w} {P : BitVec w → Prop}, P a → ∀ b, some a = some b → P b := by
    rintro a P hP b heq
    exact Option.some.inj heq ▸ hP
  cases op with
  | lookupOrScan target p =>
      obtain ⟨⟨addr, basicBlock⟩, hlookup, hentered⟩ := bind_ok hentered
      simp only at hentered
      split at hentered
      · cases hentered
      · obtain ⟨⟨t₂, i⟩, henter, hentered⟩ := bind_ok hentered
        cases hentered
        have htarget : target ≠ 0 := hvalid.mapped target rfl
        obtain ⟨hinv, hle, henters⟩ := enter_spec h htarget (fun i hi => lookupBb_spec h htarget (hi ▸ hlookup)) henter
        exact ⟨hinv, hle, hsame henters⟩
  | scan address p =>
      obtain ⟨⟨t₂, i⟩, henter, hentered⟩ := bind_ok hentered
      cases hentered
      obtain ⟨hinv, hle, henters⟩ := enter_spec h (hvalid.mapped address rfl)
        (fun i hi => absurd hi (Option.some_ne_none i).symm) henter
      exact ⟨hinv, fun _ => hle rfl, hsame henters⟩
  | scanTrace address writeP p =>
      obtain ⟨⟨t₂, i⟩, henter, hentered⟩ := bind_ok hentered
      cases hentered
      obtain ⟨⟨t₃, j⟩, halloc, henter⟩ := bind_ok henter
      cases henter
      rw [allocateTraceFragment] at halloc
      split at halloc
      · cases halloc
        have hinv : Inv c { t with activeTraceId := t.activeTraceId + 1 } :=
          ⟨h.le_size, h.nodup, h.lt, h.traceId, h.activeTraceId.trans (Nat.le_succ _), h.table⟩
        exact ⟨hinv.setMeta _ _, fun hres => absurd hres Bool.false_ne_true, fun _ hnone => by cases hnone⟩
      · cases halloc
  | createTrace => cases hentered
  | installTrace spc tpc => cases hentered
  | flush => cases hentered

theorem entered_throughout (h : Inv c t) (hvalid : op.Valid c) (hfits : Fits c t op)
    (hentered : entered c t op = .ok (some (t₁, id, reserved))) :
    Throughout c id (fun t' q => Inv c t' ∧ Grows c t₁ t' ∧ ((∃ k, q = .overflow k) → t'.freeBlock < codeCacheSize))
      (op.program id) t₁ := by
  obtain ⟨hinv, hle, -⟩ := entered_spec h hvalid hentered
  have hoverp : codeCacheOverp - 1 + (codeCacheSize - codeCacheOverp) < codeCacheSize := by decide
  have hroom : reserved = true → t₁.freeBlock + (codeCacheOverp - 1) ≤ codeCacheSize := fun hres => by
    have := hle hres
    omega
  exact scan_throughout hinv (Grows.refl c t₁) (hvalid.spans id) (by decide) hroom (hfits t₁ id reserved hentered)

theorem entered_lookup {p : Nat → Scan w} (hlookup : lookupBb c t target = .ok (addr, basicBlock))
    (hmissing : ¬addr ≠ uintMax) (henter : enter c t target basicBlock = .ok (t₁, id)) :
    entered c t (.lookupOrScan target p) = .ok (some (t₁, id, basicBlock.isNone)) := by
  rw [entered, hlookup]
  refine (if_neg hmissing).trans ?_
  rw [henter]
  rfl

theorem step_of_entered (hentered : entered c t op = .ok (some (t₁, id, reserved))) :
    step c t op = runScan c id (op.program id) t₁ := by
  have hend : ∀ {α : Type} (x : Except Stop (Thread w)) (a : α),
      ((x >>= fun t => .ok (t, a)) >>= fun r => .ok r.1) = x := by
    intro α x a
    cases x <;> rfl
  cases op with
  | lookupOrScan target p =>
      obtain ⟨⟨addr, basicBlock⟩, hlookup, hentered⟩ := bind_ok hentered
      simp only at hentered
      split at hentered
      · cases hentered
      · rename_i hmissing
        obtain ⟨⟨t₂, i⟩, henter, hentered⟩ := bind_ok hentered
        cases hentered
        have hscan : lookupOrScan c t target p = scan c t target basicBlock p := by
          rw [lookupOrScan, hlookup]
          exact if_neg hmissing
        rw [step, hscan, scan, henter]
        exact hend _ _
  | scan address p =>
      obtain ⟨⟨t₂, i⟩, henter, hentered⟩ := bind_ok hentered
      cases hentered
      rw [step, scan, henter]
      exact hend _ _
  | scanTrace address writeP p =>
      obtain ⟨⟨t₂, i⟩, henter, hentered⟩ := bind_ok hentered
      cases hentered
      rw [step, scanTrace, henter]
      rfl
  | createTrace => cases hentered
  | installTrace spc tpc => cases hentered
  | flush => cases hentered

theorem step_inv (h : Inv c t) (hvalid : op.Valid c) (hfits : Fits c t op) (hstep : step c t op = .ok t') :
    Inv c t' := by
  have hscanned : ∀ {t₁ : Thread w} {id : Nat} {reserved : Bool}, entered c t op = .ok (some (t₁, id, reserved)) →
      runScan c id (op.program id) t₁ = .ok t' → Inv c t' := fun hentered hrun =>
    (Throughout.result (entered_throughout h hvalid hfits hentered) hrun).1
  cases op with
  | lookupOrScan target p =>
      obtain ⟨⟨t₂, addr₂⟩, hscan, hstep⟩ := bind_ok hstep
      cases hstep
      obtain ⟨⟨addr, basicBlock⟩, hlookup, hscan⟩ := bind_ok hscan
      simp only at hscan
      split at hscan
      · cases hscan
        exact h
      · rename_i hmissing
        obtain ⟨⟨t₁, i⟩, henter, hscan⟩ := bind_ok hscan
        obtain ⟨t₃, hrun, hscan⟩ := bind_ok hscan
        cases hscan
        exact hscanned (entered_lookup hlookup hmissing henter) hrun
  | scan address p =>
      obtain ⟨⟨t₂, addr₂⟩, hscan, hstep⟩ := bind_ok hstep
      cases hstep
      obtain ⟨⟨t₁, i⟩, henter, hscan⟩ := bind_ok hscan
      obtain ⟨t₃, hrun, hscan⟩ := bind_ok hscan
      cases hscan
      have hentered : entered c t (.scan address p) = .ok (some (t₁, i, true)) := by
        rw [entered, henter]
        rfl
      exact hscanned hentered hrun
  | scanTrace address writeP p =>
      obtain ⟨⟨t₁, i⟩, henter, hrun⟩ := bind_ok hstep
      have hentered : entered c t (.scanTrace address writeP p) = .ok (some (t₁, i, false)) := by
        rw [entered, henter]
        rfl
      exact hscanned hentered hrun
  | createTrace =>
      cases hstep
      exact ⟨h.le_size, h.nodup, h.lt, h.traceId, h.traceId, h.table⟩
  | installTrace spc tpc =>
      obtain ⟨t₂, hadd, hstep⟩ := bind_ok hstep
      cases hstep
      obtain ⟨hinv, -⟩ := addEntry_spec h (Or.inr (hvalid.traces spc tpc rfl)) hadd
      exact ⟨hinv.le_size, hinv.nodup, hinv.lt, hinv.activeTraceId, hinv.activeTraceId, hinv.table⟩
  | flush => exact (flush_inv hstep).1

theorem stepOk (h : Inv c t) (hvalid : op.Valid c) (hfits : Fits c t op) : StepOk c t op where
  whole t₁ id reserved hentered := by
    have hscan := entered_throughout h hvalid hfits hentered
    exact ⟨Throughout.imp (fun _ _ hpoint => hpoint.2.1.flushes) hscan,
      Throughout.imp (fun _ _ hpoint => hpoint.2.2) hscan, Throughout.imp (fun _ _ hpoint => hpoint.1.distinct) hscan⟩
  described t₁ id reserved hentered address haddress t' hrun := by
    obtain ⟨-, -, henters⟩ := entered_spec h hvalid hentered
    have hscan := entered_throughout h hvalid hfits hentered
    obtain ⟨hlt, hfound, hsource, htpc⟩ := henters address haddress
    have hpoints := Throughout.and hscan (hfits t₁ id reserved hentered)
    have hsize : id < codeCacheSize := hlt.trans_le (Throughout.head hscan).1.le_size
    have hgrows := (Throughout.result hscan hrun).2.1
    refine ⟨hgrows.found address id (hvalid.mapped address haddress) hsize hfound, ?_, ?_, ?_⟩
    · rw [hgrows.source id hlt, hsource]
    · rw [hgrows.tpc id hlt, htpc]
    · exact runScan_exit hlt (Throughout.imp (fun _ _ hpoint => ⟨hpoint.1.1, hpoint.2⟩) hpoints) hrun
  distinct t' hstep := (step_inv h hvalid hfits hstep).distinct

theorem Inv.of_initial (h : Initial c t) : Inv c t := by
  obtain ⟨raw, hinit⟩ := h.table
  obtain ⟨table, hinit', hm⟩ := @hashInit_maps w c.htShift raw
  obtain rfl := Except.ok.inj (hinit'.symm.trans hinit)
  have htrampolines : c.trampolinesSizeBbs ≤ codeCacheSize := (c.trampolines.trans_le (Nat.sub_le _ _)).le
  refine ⟨h.freeBlock.trans_le htrampolines, ?_, ?_, h.traceId.ge, h.activeTraceId.ge, _, hm, ?_⟩
  · rw [h.allocated]
    exact List.nodup_nil
  · rw [h.allocated]
    exact fun i hi => absurd hi List.not_mem_nil
  · exact fun k v _ hv => by cases hv

theorem runOk {ops : List (Op w)} (h : Inv c t) (hvalid : ∀ op ∈ ops, op.Valid c) (hfits : RunFits c t ops) :
    RunOk c t ops := by
  induction ops generalizing t with
  | nil => trivial
  | cons op ops ih =>
      have hop := hvalid op List.mem_cons_self
      refine ⟨stepOk h hop hfits.1, fun t' hstep => ?_⟩
      exact ih (step_inv h hop hfits.1 hstep) (fun o ho => hvalid o (List.mem_cons_of_mem op ho)) (hfits.2 t' hstep)

/-- A run in which every stub is allocated in front of the reserve never splits a fragment. -/
theorem fragments_whole (c : Cache w) (t : Thread w) (ops : List (Op w)) (hinit : Initial c t)
    (hvalid : ∀ op ∈ ops, op.Valid c) (hfits : RunFits c t ops) : RunOk c t ops :=
  runOk (Inv.of_initial hinit) hvalid hfits

end Steps

section Conditional

def armCache : Cache 32 where
  arch := .aarch32
  codeCache := 0x50000000
  trampolinesSizeBbs := 2
  htShift := 0
  aligned := by decide
  room := by decide
  trampolines := by decide

def emptyTable : HashTable 32 := ⟨slots, 0, 0, fun _ => ⟨0, 0⟩⟩

def freshThread : Thread 32 := ⟨2, fun _ => ⟨0, 0, .unknown, 0⟩, emptyTable, codeCacheSize, codeCacheSize, [], 0⟩

def bxAddress (i : Nat) : BitVec 32 := BitVec.ofNat 32 (0x10000 + 4 * i)

/-- The i-th of many BXEQ instructions in a row that are all skipped. -/
def bxOp (i : Nat) : Op 32 := .lookupOrScan (bxAddress i) fun _ => scanBxArm (bxAddress i) true

def bxOps : Nat → Nat → List (Op 32)
  | _, 0 => []
  | i, n + 1 => bxOp i :: bxOps (i + 1) n

def bxCount : Nat := 54486

variable {table : HashTable 32} {i : Nat} {key value : BitVec 32} {t t' : Thread 32}

theorem bxAddress_toNat (hi : i ≤ bxCount) : (bxAddress i).toNat = 0x10000 + 4 * i := by
  rw [bxAddress, BitVec.toNat_ofNat]
  rw [bxCount] at hi
  omega

theorem bxAddress_ne (hi : i ≤ bxCount) : bxAddress i ≠ 0 := by
  intro heq
  have := bxAddress_toNat hi
  rw [heq] at this
  exact absurd this (by simp; omega)

theorem bx_index (hsize : table.size = slots) (hi : i ≤ bxCount) :
    getIndex 0 table (bxAddress i) = 0x10000 + 4 * i := by
  have hmask : (BitVec.ofNat 32 (slots - codeCacheHashOverp)).toNat = 2 ^ 19 - 1 := by decide
  have htoNat := bxAddress_toNat hi
  rw [getIndex, hsize, BitVec.toNat_and, hmask, Nat.and_two_pow_sub_one_eq_mod, BitVec.ushiftRight_zero, htoNat]
  rw [bxCount] at hi
  omega

theorem bx_slot (hi : i ≤ bxCount) : 0x10000 + 4 * i < slots := by
  have hslots : slots = 524297 := by decide
  rw [bxCount] at hi
  omega

theorem hashLookup_hit (hsize : table.size = slots) (hi : i ≤ bxCount)
    (hentry : table.entries (0x10000 + 4 * i) = ⟨bxAddress i, value⟩) : hashLookup 0 table (bxAddress i) = .ok value := by
  rw [hashLookup, bx_index hsize hi, lookupLoop, if_pos (bx_slot hi), hentry]
  exact if_pos rfl

theorem hashLookup_miss (hsize : table.size = slots) (hi : i ≤ bxCount)
    (hentry : (table.entries (0x10000 + 4 * i)).key = 0) : hashLookup 0 table (bxAddress i) = .ok uintMax := by
  rw [hashLookup, bx_index hsize hi, lookupLoop, if_pos (bx_slot hi)]
  simp only [hentry]
  rw [if_neg (bxAddress_ne hi).symm]
  exact if_neg fun hnext => hnext.2 rfl

theorem hashAdd_empty (hsize : table.size = slots) (hi : i ≤ bxCount)
    (hentry : (table.entries (0x10000 + 4 * i)).key = 0) :
    hashAdd 0 table (bxAddress i) value = .ok (true, store table (bxAddress i) value (0x10000 + 4 * i)) := by
  rw [hashAdd, bx_index hsize hi, addLoop, if_pos (bx_slot hi)]
  exact if_pos (Or.inl hentry)

theorem bxAddress_next (i : Nat) : bxAddress i + 4 = bxAddress (i + 1) := by
  have hsum : 0x10000 + 4 * (i + 1) = 0x10000 + 4 * i + 4 := by omega
  rw [bxAddress, bxAddress, hsum, BitVec.ofNat_add _ 4]
  rfl

/-- The scanner has been called for instruction i, and no later one is in the table. -/
structure Called (i : Nat) (t : Thread 32) : Prop where
  free : t.freeBlock = i + 3
  size : t.entryAddress.size = slots
  rest : ∀ j, i < j → (t.entryAddress.entries (0x10000 + 4 * j)).key = 0

structure Chain (i : Nat) (t : Thread 32) : Prop extends Called i t where
  entry : t.entryAddress.entries (0x10000 + 4 * i) =
    ⟨bxAddress i, armCache.block (i + 2) ||| armCache.thumb (bxAddress i)⟩
  stub : (t.codeCacheMeta (i + 2)).exitBranchType = .stub

def Calls (i : Nat) (t t₁ : Thread 32) : Prop :=
  ∃ reserved, entered armCache t (bxOp i) = .ok (some (t₁, i + 2, reserved))

theorem store_rest (hrest : ∀ j, i < j → (t.entryAddress.entries (0x10000 + 4 * j)).key = 0) :
    ∀ j, i < j → ((store t.entryAddress key value (0x10000 + 4 * i)).entries (0x10000 + 4 * j)).key = 0 := by
  intro j hj
  have hne : 0x10000 + 4 * j ≠ 0x10000 + 4 * i := by omega
  have hkept : Function.update t.entryAddress.entries (0x10000 + 4 * i) ⟨key, value⟩ (0x10000 + 4 * j) = _ :=
    Function.update_of_ne hne ..
  exact (congrArg HashEntry.key hkept).trans (hrest j hj)

theorem addEntry_empty (hsize : t.entryAddress.size = slots) (hi : i ≤ bxCount)
    (hentry : (t.entryAddress.entries (0x10000 + 4 * i)).key = 0) :
    addEntry armCache t (bxAddress i) value =
      .ok (t.setTable (store t.entryAddress (bxAddress i) value (0x10000 + 4 * i))) := by
  have hadd : hashAdd armCache.htShift t.entryAddress (bxAddress i) value = _ := hashAdd_empty hsize hi hentry
  rw [addEntry, hadd]
  rfl

theorem missing (hsize : t.entryAddress.size = slots) (hi : i ≤ bxCount)
    (hentry : (t.entryAddress.entries (0x10000 + 4 * i)).key = 0) : ccLookup armCache t (bxAddress i) = .ok uintMax := by
  have hlookup : hashLookup armCache.htShift t.entryAddress (bxAddress i) = _ := hashLookup_miss hsize hi hentry
  have hadjust : adjustCcEntry armCache uintMax = uintMax := if_neg fun hne => hne.2 rfl
  rw [ccLookup, hlookup]
  exact congrArg Except.ok hadjust

def firstThread : Thread 32 :=
  let t := freshThread.take.setMeta 2 fun m => { m with sourceAddr := bxAddress 0, tpc := armCache.block 2 }
  t.setTable (store emptyTable (bxAddress 0) (armCache.block 2 ||| armCache.thumb (bxAddress 0)) 0x10000)

theorem fresh_calls : Calls 0 freshThread firstThread := by
  have hmissing : ccLookup armCache freshThread (bxAddress 0) = .ok uintMax := missing rfl (by decide) rfl
  have hlookup : lookupBb armCache freshThread (bxAddress 0) = .ok (uintMax, none) := by
    rw [lookupBb, hmissing]
    rfl
  have hadd : addEntry armCache (freshThread.take.setMeta 2 fun m =>
      { m with sourceAddr := bxAddress 0, tpc := armCache.block 2 }) (bxAddress 0)
      (armCache.block 2 ||| armCache.thumb (bxAddress 0)) = .ok firstThread := addEntry_empty rfl (by decide) rfl
  have henter : enter armCache freshThread (bxAddress 0) none = .ok (firstThread, 2) := by
    rw [enter, allocateBb_roomy (by decide)]
    refine Eq.trans ?_ (congrArg (fun x => x >>= fun t => Except.ok (t, 2)) hadd)
    rfl
  exact ⟨true, entered_lookup hlookup (not_not.mpr rfl) henter⟩

theorem first_called : Called 0 firstThread :=
  ⟨rfl, rfl, store_rest (t := freshThread) fun _ _ => rfl⟩

theorem lookupOrStub_missing {t₁ t₂ : Thread 32} {id : Nat} (hmissing : ccLookup armCache t key = .ok uintMax)
    (halloc : allocateBb armCache t = .ok (t₁, id))
    (hadd : addEntry armCache (t₁.setMeta id fun m => { m with exitBranchType := .stub }) key
      (armCache.block id + armCache.thumb key) = .ok t₂) :
    lookupOrStub armCache t key = .ok (t₂, adjustCcEntry armCache (armCache.block id + armCache.thumb key)) := by
  rw [lookupOrStub, hmissing]
  show (if (uintMax : BitVec 32) = uintMax then stubBb armCache t key else .ok (t, uintMax)) = _
  rw [if_pos rfl, stubBb, halloc]
  show (addEntry armCache (t₁.setMeta id fun m => { m with exitBranchType := .stub }) key
      (armCache.block id + armCache.thumb key) >>= fun t => if armCache.arch = .aarch64 then .error .assertion
    else .ok (t, adjustCcEntry armCache (armCache.block id + armCache.thumb key))) = _
  rw [hadd]
  rfl

theorem chain_calls (hi : i < bxCount) (h : Chain i t) : ∃ t₁, Calls i t t₁ ∧ Called i t₁ := by
  have hid : i + 2 < codeCacheSize := by
    rw [bxCount] at hi
    rw [codeCacheSize]
    omega
  have hfound : ccLookup armCache t (bxAddress i) =
      .ok (adjustCcEntry armCache (armCache.block (i + 2) ||| armCache.thumb (bxAddress i))) := by
    have hlookup : hashLookup armCache.htShift t.entryAddress (bxAddress i) = _ := hashLookup_hit h.size hi.le h.entry
    rw [ccLookup, hlookup]
    rfl
  have hlookup : lookupBb armCache t (bxAddress i) = .ok (uintMax, some (i + 2)) := by
    rw [lookupBb, hfound]
    refine (if_pos ⟨adjust_ne hid, isTrace_adjust hid⟩).trans ?_
    rw [addrToBbId_adjust hid]
    exact if_pos h.stub
  exact ⟨_, ⟨false, entered_lookup hlookup (not_not.mpr rfl) rfl⟩, h.free, h.size, h.rest⟩

theorem called_next (hi : i + 1 < bxCount) (h : Called i t) :
    ∃ t', runScan armCache (i + 2) (scanBxArm (bxAddress i) true) t = .ok t' ∧ Chain (i + 1) t' := by
  have hlt : t.freeBlock < codeCacheSize - codeCacheOverp := by
    have hlimit : codeCacheSize - codeCacheOverp = 54488 := by decide
    rw [bxCount] at hi
    rw [h.free]
    omega
  have hmissing : ccLookup armCache t (bxAddress (i + 1)) = .ok uintMax :=
    missing h.size hi.le (h.rest _ (Nat.lt_succ_self i))
  have hadd := @addEntry_empty (i + 1) (armCache.block t.freeBlock + armCache.thumb (bxAddress (i + 1)))
    (t.take.setMeta t.freeBlock fun m => { m with exitBranchType := .stub }) h.size hi.le
    (h.rest _ (Nat.lt_succ_self i))
  have hstub := lookupOrStub_missing hmissing (allocateBb_roomy hlt) hadd
  rw [scanBxArm, linkBxAlt, if_pos rfl, runScan, runScan, bxAddress_next, hstub]
  have hblock : t.freeBlock = i + 1 + 2 := h.free
  have hentry : armCache.block t.freeBlock + armCache.thumb (bxAddress (i + 1)) =
      armCache.block (i + 1 + 2) ||| armCache.thumb (bxAddress (i + 1)) := by
    rw [hblock]
    refine entry_add ?_
    rw [bxCount] at hi
    rw [codeCacheSize]
    omega
  refine ⟨_, rfl, ⟨congrArg (· + 1) h.free, h.size, ?_⟩, ?_, ?_⟩
  · exact store_rest (t := t) fun j hj => h.rest j (Nat.lt_of_succ_lt hj)
  · rw [hentry]
    exact Function.update_self ..
  · have hne : i + 1 + 2 ≠ i + 2 := by omega
    refine (congrArg CodeCacheMeta.exitBranchType (setMeta_of_ne _ hne _)).trans ?_
    rw [hblock]
    have hstubMeta := setMeta_self t.take (i + 1 + 2) fun m => { m with exitBranchType := .stub }
    exact congrArg CodeCacheMeta.exitBranchType hstubMeta

theorem called_split (hi : i + 1 = bxCount) (h : Called i t) :
    ∃ r, lookupOrStub armCache t (bxAddress (i + 1)) = .ok r ∧ r.1.flushes = t.flushes + 1 := by
  have hfull : t.freeBlock ≥ codeCacheSize - codeCacheOverp := by
    have hlimit : codeCacheSize - codeCacheOverp = 54488 := by decide
    rw [bxCount] at hi
    rw [h.free]
    omega
  have hmissing : ccLookup armCache t (bxAddress (i + 1)) = .ok uintMax :=
    missing h.size hi.le (h.rest _ (Nat.lt_succ_self i))
  obtain ⟨table, hinit, hm⟩ := @hashInit_maps 32 0 t.entryAddress
  have hempty : (table.entries (0x10000 + 4 * (i + 1))).key = 0 := by
    by_contra hne
    have hsome := (hm.stored _ hne _).mpr ⟨_, keys_of_lt table (bx_slot hi.le), rfl⟩
    cases hsome
  obtain ⟨t₁, hflush, hsame⟩ : ∃ t₁, flushCodeCache armCache t = .ok t₁ ∧ t₁.entryAddress = table ∧
      t₁.flushes = t.flushes + 1 := by
    rw [flushCodeCache, hinit]
    exact ⟨_, rfl, rfl, rfl⟩
  have halloc : allocateBb armCache t = .ok (t₁.take, t₁.freeBlock) := by
    rw [allocateBb, if_pos hfull, hflush]
    rfl
  have hadd := @addEntry_empty (i + 1) (armCache.block t₁.freeBlock + armCache.thumb (bxAddress (i + 1)))
    (t₁.take.setMeta t₁.freeBlock fun m => { m with exitBranchType := .stub }) (hsame.1 ▸ hm.shaped.size_eq) hi.le
    (hsame.1 ▸ hempty)
  exact ⟨_, lookupOrStub_missing hmissing halloc hadd, hsame.2⟩

theorem initLoop_empty (n : Nat) (hn : n ≤ slots) : initLoop n emptyTable = .ok emptyTable := by
  have hsame : ∀ n, { emptyTable with entries := Function.update emptyTable.entries n ⟨0, (emptyTable.entries n).value⟩ } =
      emptyTable := fun n => by
    rw [show (⟨0, (emptyTable.entries n).value⟩ : HashEntry 32) = emptyTable.entries n from rfl, Function.update_eq_self]
  induction n with
  | zero => rfl
  | succ n ih => rw [initLoop, if_pos (Nat.lt_of_succ_le hn), hsame, ih (Nat.le_of_succ_le hn)]

theorem not_runOk {n : Nat} {t₁ : Thread 32} (hi : i + n + 1 = bxCount) (hcalls : Calls i t t₁) (h : Called i t₁) :
    ¬RunOk armCache t (bxOps i (n + 1)) := by
  induction n generalizing i t t₁ with
  | zero =>
      intro hrun
      obtain ⟨reserved, hentered⟩ := hcalls
      obtain ⟨r, hstub, hflushes⟩ := called_split hi h
      have hwhole := (hrun.1.whole t₁ (i + 2) reserved hentered).unsplit
      have hsame := Throughout.head (hwhole.2.2 r ((congrArg _ (bxAddress_next i)).trans hstub))
      omega
  | succ n ih =>
      intro hrun
      obtain ⟨reserved, hentered⟩ := hcalls
      obtain ⟨t', hscan, hchain⟩ := called_next (by omega) h
      obtain ⟨t₂, hcalls', hcalled'⟩ := chain_calls (by omega) hchain
      refine ih (by omega) hcalls' hcalled' (hrun.2 t' ?_)
      rw [step_of_entered hentered]
      exact hscan

theorem bxOps_valid (i n : Nat) (hi : i + n ≤ bxCount) : ∀ op ∈ bxOps i n, op.Valid armCache := by
  induction n generalizing i with
  | zero => exact fun op hop => absurd hop List.not_mem_nil
  | succ n ih =>
      intro op hop
      rcases List.mem_cons.mp hop with rfl | hop
      · refine ⟨fun _ _ => trivial, fun harch => absurd rfl harch, ?_, fun _ _ heq => by cases heq⟩
        intro address heq
        obtain rfl := Option.some.inj heq
        exact bxAddress_ne (by omega)
      · exact ih (i + 1) (by omega) op hop

/-- The last of the instructions is translated while the cache is flushed. -/
theorem fragments_split : Initial armCache freshThread ∧ (∀ op ∈ bxOps 0 bxCount, op.Valid armCache) ∧
    ¬RunOk armCache freshThread (bxOps 0 bxCount) := by
  refine ⟨⟨rfl, ?_, rfl, rfl, rfl⟩, bxOps_valid 0 bxCount (by decide), ?_⟩
  · exact ⟨emptyTable, initLoop_empty slots le_rfl⟩
  · exact not_runOk (n := 54485) (by decide) fresh_calls first_called

theorem called_fits {n : Nat} {t₁ : Thread 32} (hi : i + n < bxCount) (hcalls : Calls i t t₁) (h : Called i t₁) :
    RunFits armCache t (bxOps i n) := by
  induction n generalizing i t t₁ with
  | zero => trivial
  | succ n ih =>
      obtain ⟨reserved, hentered⟩ := hcalls
      have hroom : t₁.freeBlock < codeCacheSize - codeCacheOverp := by
        have hlimit : codeCacheSize - codeCacheOverp = 54488 := by decide
        rw [bxCount] at hi
        rw [h.free]
        omega
      refine ⟨fun t₂ id reserved' hentered' => ?_, fun t' hstep => ?_⟩
      · obtain ⟨rfl, -⟩ := Prod.mk.inj (Option.some.inj (Except.ok.inj (hentered.symm.trans hentered')))
        exact ⟨trivial, fun _ => hroom, fun r _ => ⟨trivial, trivial, trivial, trivial⟩⟩
      · obtain ⟨t'', hscan, hchain⟩ := called_next (by omega) h
        rw [step_of_entered hentered] at hstep
        obtain rfl := Except.ok.inj (hscan.symm.trans hstep)
        obtain ⟨t₂, hcalls', hcalled'⟩ := chain_calls (by omega) hchain
        exact ih (by omega) hcalls' hcalled'

/-- All of them but the last leave room for their stubs. -/
theorem fragments_whole_short : RunOk armCache freshThread (bxOps 0 (bxCount - 1)) :=
  fragments_whole armCache freshThread _ ⟨rfl, ⟨emptyTable, initLoop_empty slots le_rfl⟩, rfl, rfl, rfl⟩
    (bxOps_valid 0 _ (by decide)) (called_fits (by decide) fresh_calls first_called)

end Conditional

end Mambo.FragmentScanRuns
