import Mambo.RvLookupRuns

namespace Mambo.RvTriBi

open CodeRuns Rv RvCode RvEmit RvExits RvCodeRoom RvLookup RvLookupRuns

section Insertion

def triBiJumpTo (writeP target : Word) : Option (List Inst) :=
  match jalHelper writeP target zero with
  | some jal => some [jal]
  | none => jalrHelper writeP target zero a0

def predictionReg (rs1 : Reg) : Reg := if rs1 = a0 then a1 else a0

/-- A prediction without the jump behind it. The source does not check that the branch
over it is in range; none if it were not. -/
def predictionCode (site : Site) (rd rs1 : Reg) (slot target tpc : Word) : Option (List Inst) := do
  let load := copyToReg (predictionReg rs1) target
  let link := linkCode site rd
  let jump ← triBiJumpTo (past slot (bytes load + (4 + bytes link))) tpc
  let next := past slot (bytes load + (4 + (bytes link + bytes jump)))
  let branch ← branchHelper (past slot (bytes load)) next rs1 (predictionReg rs1) bne
  return load ++ branch :: (link ++ jump)

/-- The exit of a trace fragment at an indirect jump: its metadata and the code. -/
structure TriBi where
  exitBranchAddr : Word
  ihluAddress : Word
  rd : Reg
  rs1 : Reg
  imm : BitVec 12
  link : Bool
  branchSkippedAddr : Word
  nextPredictionSlot : Word
  numberOfPredictions : Nat
  code : Code

variable (mambo : Addresses) (site : Site)

/-- The exit as the scanner writes it; the last two arguments are what was there before. -/
def scanTriBi (writeP : Word) (rd rs1 : Reg) (imm : BitVec 12) (skippedAddr : Word) (code : Code) : Option TriBi := do
  guard (rd = zero ∨ isContextReg rd = false)
  let header ← insertTriBiHeader mambo site writeP rd rs1 imm
  let slot := past writeP (bytes header.saved)
  let ihluAddress := past slot (4 + header.room)
  return {
    exitBranchAddr := writeP
    ihluAddress := ihluAddress
    rd := rd
    rs1 := rs1
    imm := imm
    link := rd = ra
    branchSkippedAddr := if rd = ra then site.readAddress else skippedAddr
    nextPredictionSlot := slot
    numberOfPredictions := 0
    code := emit ihluAddress header.lookup (emit writeP (header.saved ++ [header.jal]) code) }

/-- The address of the trace is looked up by the caller. The source does not check that
the jump behind the prediction is in range; none if it were not. -/
def insertTriBiPrediction (e : TriBi) (target tpc : Word) : Option TriBi := do
  guard (e.rd = zero ∨ isContextReg e.rd = false)
  if e.numberOfPredictions < triBiSlots then
    let slot := e.nextPredictionSlot
    let prediction ← predictionCode site e.rd e.rs1 slot target tpc
    let next := past slot (bytes prediction)
    let jal ← jalHelper next e.ihluAddress zero
    return {
      e with
      nextPredictionSlot := next
      numberOfPredictions := e.numberOfPredictions + 1
      code := emit slot (prediction ++ [jal]) e.code }
  else
    let lookup ← inlineHashLookup e.rs1 e.imm e.link mambo { site with readAddress := e.branchSkippedAddr } e.rd
      e.exitBranchAddr false
    return { e with rs1 := regSpc e.rs1 e.link, code := emit e.exitBranchAddr lookup e.code }

def insertAll (e : TriBi) (calls : List (Word × Word)) : Option TriBi :=
  calls.foldlM (fun e call => insertTriBiPrediction mambo site e call.1 call.2) e

end Insertion

section Frames

variable {code : Code} {w : Word} {is js : List Inst} {m n : Nat}

theorem codeAt_emit (hcode : CodeAt rv (fetch code) (past w n) js) (hapart : n + bytes js ≤ m ∨ m + bytes is ≤ n)
    (hn : n + bytes js < 2 ^ 32) (hm : m + bytes is < 2 ^ 32) :
    CodeAt rv (fetch (emit (past w m) is code)) (past w n) js := by
  refine codeAt_congr (fun k hk => ?_) hcode
  rw [emit_outside]
  intro j hj heq
  rw [past_past, past_past] at heq
  have hsum := past_inj (by omega) (by omega) heq
  omega

theorem codeAt_emit_self (hm : bytes is < 2 ^ 32) : CodeAt rv (fetch (emit (past w m) is code)) (past w m) is :=
  emit_codeAt (by omega)

end Frames

section Predictions

variable {code : Code} {site : Site} {rd rs1 : Reg} {w slot target tpc : Word} {is : List Inst} {m n : Nat}
  {ps : List (Word × Word)}

theorem bytes_triBiJumpTo (h : triBiJumpTo slot target = some is) : bytes is ≤ 8 := by
  rw [triBiJumpTo] at h
  split at h
  · rename_i jal hjal
    obtain rfl := Option.some.inj h
    rw [bytes, bytes, size_jalHelper hjal]
    decide
  · exact (bytes_jalrHelper h).le

theorem bytes_predictionCode (h : predictionCode site rd rs1 slot target tpc = some is) (htarget : Short target)
    (hret : Short site.retAddr) : bytes is ≤ predictionFspace * 4 := by
  simp only [predictionCode, Option.bind_eq_bind, Option.bind_eq_some_iff, Option.pure_def, Option.some.injEq] at h
  obtain ⟨jump, hjump, branch, hbranch, rfl⟩ := h
  have hload := bytes_copyToReg_short (predictionReg rs1) htarget
  have hlink : bytes (linkCode site rd) ≤ 20 := by
    rw [linkCode]
    split
    · exact bytes_copyToReg_short rd hret
    · exact Nat.zero_le _
  have hlen := bytes_triBiJumpTo hjump
  rw [bytes_append, bytes, bytes_append, size_branchHelper hbranch, predictionFspace]
  omega

/-- The predictions one after the other, from an offset to another. -/
def Chain (code : Code) (site : Site) (rd rs1 : Reg) (w : Word) : Nat → List (Word × Word) → Nat → Prop
  | n, [], m => n = m
  | n, p :: ps, m => ∃ is, predictionCode site rd rs1 (past w n) p.1 p.2 = some is ∧
      CodeAt rv (fetch code) (past w n) is ∧ Chain code site rd rs1 w (n + bytes is) ps m

theorem Chain.le (h : Chain code site rd rs1 w n ps m) : n ≤ m := by
  induction ps generalizing n with
  | nil => exact h.le
  | cons p ps ih =>
      obtain ⟨is, -, -, hrest⟩ := h
      exact (Nat.le_add_right n _).trans (ih hrest)

theorem Chain.emit (h : Chain code site rd rs1 w n ps m) {k : Nat} (hk : m ≤ k) (hlen : k + bytes is < 2 ^ 32) :
    Chain (emit (past w k) is code) site rd rs1 w n ps m := by
  induction ps generalizing n with
  | nil => exact h
  | cons p ps ih =>
      obtain ⟨js, hjs, hcode, hrest⟩ := h
      have hle := hrest.le
      exact ⟨js, hjs, codeAt_emit hcode (Or.inl (by omega)) (by omega) hlen, ih hrest⟩

theorem Chain.concat (h : Chain code site rd rs1 w n ps m) {p : Word × Word}
    (hp : predictionCode site rd rs1 (past w m) p.1 p.2 = some is) (hcode : CodeAt rv (fetch code) (past w m) is) :
    Chain code site rd rs1 w n (ps ++ [p]) (m + bytes is) := by
  induction ps generalizing n with
  | nil =>
      obtain rfl : n = m := h
      exact ⟨is, hp, hcode, rfl⟩
  | cons q ps ih =>
      obtain ⟨js, hjs, hjsCode, hrest⟩ := h
      exact ⟨js, hjs, hjsCode, ih hrest⟩

end Predictions

section Stages

variable {mambo : Addresses} {site : Site} {w writeP skippedAddr : Word} {rd rs1 : Reg} {imm : BitVec 12} {e e' : TriBi}
  {code : Code} {ps calls : List (Word × Word)} {p : Word × Word}

/-- The offset of the lookup behind the room for the predictions. -/
def lookupOffset : Nat := 12 + (4 + predictionFspace * 2 * triBiSlots * 2)

/-- An exit with its predictions, before the switch to the plain lookup. -/
structure Stage (mambo : Addresses) (site : Site) (w : Word) (rd rs1 : Reg) (imm : BitVec 12) (ps : List (Word × Word))
    (e : TriBi) : Prop where
  addresses : e.exitBranchAddr = w ∧ e.ihluAddress = past w lookupOffset
  registers : e.rd = rd ∧ e.rs1 = rs1 ∧ e.imm = imm
  linked : e.link = decide (rd = ra) ∧ (rd = ra → e.branchSkippedAddr = site.readAddress)
  count : e.numberOfPredictions = ps.length
  saved : CodeAt rv (fetch e.code) (past w 0) (push [a0, a1])
  chain : ∃ m jal, e.nextPredictionSlot = past w m ∧ m ≤ 12 + predictionFspace * 4 * ps.length ∧
    Chain e.code site rd rs1 w 12 ps m ∧ jalHelper (past w m) (past w lookupOffset) zero = some jal ∧
    CodeAt rv (fetch e.code) (past w m) [jal]
  lookup : ∃ is, inlineHashLookup rs1 imm false mambo site rd (past w lookupOffset) true = some is ∧
    CodeAt rv (fetch e.code) (past w lookupOffset) is

theorem lookupOffset_eq : lookupOffset = 224 := rfl

theorem guard_some {P : Prop} [Decidable P] {u : Unit} (h : (guard P : Option Unit) = some u) : P := by
  by_contra hno
  simp [guard, hno] at h

theorem scanTriBi_stage (h : scanTriBi mambo site writeP rd rs1 imm skippedAddr code = some e) :
    Stage mambo site writeP rd rs1 imm [] e := by
  simp only [scanTriBi, insertTriBiHeader, Option.bind_eq_bind, Option.bind_eq_some_iff, Option.pure_def,
    Option.some.injEq] at h
  obtain ⟨-, -, header, ⟨lookup, hlookup, jal, hjal, rfl⟩, rfl⟩ := h
  have hpush : bytes (push [a0, a1]) = 12 := rfl
  have hjalSize : bytes (push [a0, a1] ++ [jal]) = 16 := by
    rw [bytes_append, bytes, bytes, size_jalHelper hjal, hpush]
  have hoffset : past (past writeP (bytes (push [a0, a1]))) (4 + predictionFspace * 2 * triBiSlots * 2) =
      past writeP lookupOffset := past_past _ _ _
  rw [hoffset] at hlookup hjal
  rw [hpush] at hjal
  have hlen := bytes_inlineHashLookup_le hlookup
  have hat := lookupOffset_eq
  have hfirst : CodeAt rv (fetch (emit writeP (push [a0, a1] ++ [jal]) code)) writeP (push [a0, a1] ++ [jal]) :=
    emit_codeAt (by rw [hjalSize]; decide)
  rw [codeAt_append_past, hpush] at hfirst
  have hsaved := @codeAt_emit _ writeP lookup (push [a0, a1]) lookupOffset 0 (by rw [past_zero]; exact hfirst.1)
    (Or.inl (by rw [hpush]; decide)) (by rw [hpush]; decide) (by omega)
  have hjump := @codeAt_emit _ writeP lookup [jal] lookupOffset 12 hfirst.2
    (Or.inl (by rw [bytes, bytes, size_jalHelper hjal]; decide)) (by rw [bytes, bytes, size_jalHelper hjal]; decide) (by omega)
  refine ⟨⟨rfl, hoffset⟩, ⟨rfl, rfl, rfl⟩, ⟨rfl, fun hra => if_pos hra⟩, rfl, ?_, ⟨12, jal, rfl, le_rfl, rfl, hjal, ?_⟩,
    lookup, hlookup, ?_⟩
  · rw [hoffset]
    exact hsaved
  · rw [hoffset]
    exact hjump
  · rw [hoffset]
    exact codeAt_emit_self (lt_of_le_of_lt hlen (by decide))

theorem Stage.insert (h : Stage mambo site w rd rs1 imm ps e) (hroom : ps.length < triBiSlots)
    (hinsert : insertTriBiPrediction mambo site e p.1 p.2 = some e') (htarget : Short p.1) (hret : Short site.retAddr) :
    Stage mambo site w rd rs1 imm (ps ++ [p]) e' ∧ (e'.nextPredictionSlot - w).toNat + 4 ≤ lookupOffset ∧
      ∀ x, lookupOffset ≤ (x - w).toNat → e'.code x = e.code x := by
  obtain ⟨hexit, hihlu⟩ := h.addresses
  obtain ⟨hrd, hrs1, himm⟩ := h.registers
  obtain ⟨m, jal, hslot, hm, hchain, -, -⟩ := h.chain
  obtain ⟨is, hlookup, hlookupCode⟩ := h.lookup
  have hlen := bytes_inlineHashLookup_le hlookup
  have hat := lookupOffset_eq
  have hcount : e.numberOfPredictions < triBiSlots := h.count ▸ hroom
  simp only [insertTriBiPrediction, hrd, hrs1, hslot, hihlu, if_pos hcount, Option.bind_eq_bind, Option.bind_eq_some_iff,
    Option.pure_def, Option.some.injEq] at hinsert
  obtain ⟨-, -, prediction, hprediction, jal', hjal', rfl⟩ := hinsert
  have hsize := bytes_predictionCode hprediction htarget hret
  have hjalSize : bytes [jal'] = 4 := by rw [bytes, bytes, size_jalHelper hjal']
  have hspace : predictionFspace = 13 := rfl
  have hslots : triBiSlots = 4 := rfl
  rw [hspace] at hsize hm
  rw [hslots] at hroom
  have hbound : m + bytes prediction + 4 ≤ lookupOffset := by omega
  have hwrite : bytes (prediction ++ [jal']) = bytes prediction + 4 := by rw [bytes_append, hjalSize]
  have hnew := @codeAt_emit_self e.code w (prediction ++ [jal']) m (by omega)
  rw [codeAt_append_past, past_past] at hnew
  refine ⟨⟨⟨hexit, rfl⟩, ⟨rfl, rfl, himm⟩, h.linked, ?_, ?_, ⟨m + bytes prediction, jal', past_past _ _ _, ?_, ?_, ?_, ?_⟩,
    is, hlookup, ?_⟩, ?_, fun x hx => ?_⟩
  · rw [List.length_append, List.length_singleton, h.count]
  · have hpush : bytes (push [a0, a1]) = 12 := rfl
    have hle := hchain.le
    exact codeAt_emit h.saved (Or.inl (by rw [hpush]; omega)) (by rw [hpush]; decide) (by omega)
  · rw [List.length_append, List.length_singleton, hspace]
    omega
  · exact (hchain.emit le_rfl (by omega)).concat hprediction hnew.1
  · rwa [past_past] at hjal'
  · exact hnew.2
  · exact codeAt_emit hlookupCode (Or.inr (by omega)) (by omega) (by omega)
  · show (past (past w m) (bytes prediction) - w).toNat + 4 ≤ lookupOffset
    rw [past_past, past, add_sub_cancel_left, BitVec.toNat_ofNat, Nat.mod_eq_of_lt (by omega)]
    exact hbound
  · refine emit_outside fun k hk heq => ?_
    rw [heq, past_past, past, add_sub_cancel_left, BitVec.toNat_ofNat, Nat.mod_eq_of_lt (by omega)] at hx
    omega

theorem Stage.insertAll (h : Stage mambo site w rd rs1 imm ps e) (hroom : ps.length + calls.length ≤ triBiSlots)
    (hinsert : insertAll mambo site e calls = some e') (htargets : ∀ p ∈ calls, Short p.1) (hret : Short site.retAddr) :
    Stage mambo site w rd rs1 imm (ps ++ calls) e' := by
  induction calls generalizing ps e with
  | nil =>
      obtain rfl := Option.some.inj hinsert
      rwa [List.append_nil]
  | cons p calls ih =>
      simp only [RvTriBi.insertAll, List.foldlM_cons, Option.bind_eq_bind, Option.bind_eq_some_iff] at hinsert
      obtain ⟨e₁, hfirst, hrest⟩ := hinsert
      rw [List.length_cons] at hroom
      have hstage := (h.insert (by omega) hfirst (htargets p List.mem_cons_self) hret).1
      have hall := ih hstage (by rw [List.length_append, List.length_singleton]; omega) hrest
        fun q hq => htargets q (List.mem_cons_of_mem _ hq)
      rwa [List.append_assoc, List.singleton_append] at hall

end Stages

end Mambo.RvTriBi
