import Mambo.A64ExitRuns
import Mambo.IntShifts

namespace Mambo.A64SignalExits

open CodeRuns A64 A64Emit A64Exits A64ExitLinks A64ExitRuns IntShifts

/-- What `signal_dispatcher` reads of a `ucontext_t`. -/
structure UContext where
  regs : Reg → Word
  pstate : Word

def flag (b : Bool) (bit : Nat) : Word := if b then BitVec.twoPow 64 bit else 0

def pstate (other : Word) (f : Flags) : Word :=
  other &&& 0xFFFFFFFF0FFFFFFF ||| flag f.n 31 ||| flag f.z 30 ||| flag f.c 29 ||| flag f.v 28

/-- The context of an interrupted thread. The field after `regs[30]` is `sp`. -/
def ucontext (other : Word) (s : State) : UContext :=
  ⟨fun r => if r = xzr then s.sp else s.x r, pstate other s.flags⟩

section Source

def pstateN : BitVec 32 := (1 : BitVec 32) <<< 31

def pstateZ : BitVec 32 := (1 : BitVec 32) <<< 30

def pstateC : BitVec 32 := (1 : BitVec 32) <<< 29

def pstateV : BitVec 32 := (1 : BitVec 32) <<< 28

/-- None where the assertion fails. -/
def interpretCondition (pstate : BitVec 32) (cond : Word) : Option Bool :=
  if cond.toNat ≤ 0xF then
    let n := pstate &&& pstateN != 0
    let z := pstate &&& pstateZ != 0
    let c := pstate &&& pstateC != 0
    let v := pstate &&& pstateV != 0
    let state := match cond.toNat / 2 with
      | 0 => z
      | 1 => c
      | 2 => n
      | 3 => v
      | 4 => c && !z
      | 5 => n == v
      | 6 => n == v && !z
      | _ => true
    some (if cond.toNat < 14 ∧ cond.toNat % 2 = 1 then !state else state)
  else none

def interpretCbz (cont : UContext) (bbMeta : CodeCacheMeta) : Bool :=
  let val := cont.regs ((bbMeta.rn &&& 0x1F).setWidth 5)
  let val := if bbMeta.rn &&& (1 : BitVec 32) <<< 5 ≠ 0 then val &&& 0xFFFFFFFF else val
  (if val = 0 then 1 else 0) ^^^ bbMeta.branchCondition != 0

def interpretTbz (undefined : Nat → BitVec 32) (cont : UContext) (bbMeta : CodeCacheMeta) : Bool :=
  let bit := (bbMeta.rn >>> 5).toNat
  let isTaken := !maskBit undefined (cont.regs ((bbMeta.rn &&& 0x1F).setWidth 5)) bit
  (if isTaken then 1 else 0) ^^^ bbMeta.branchCondition != 0

/-- The target that `signal_dispatcher` gives to `sigret_dispatcher_call` for a trap in a direct branch; none for
the branch types on which it loops for ever. -/
def exitSuccessor (undefined : Nat → BitVec 32) (bbMeta : CodeCacheMeta) (cont : UContext) : Option Word := do
  let isTaken ← match bbMeta.exitBranchType with
    | .uncondImmA64 => some true
    | .condImmA64 => interpretCondition (cont.pstate.setWidth 32) bbMeta.branchCondition
    | .cbzA64 => some (interpretCbz cont bbMeta)
    | .tbzA64 => some (interpretTbz undefined cont bbMeta)
    | _ => none
  return if isTaken then bbMeta.branchTakenAddr else bbMeta.branchSkippedAddr

end Source

section Interpreters

variable {undefined : Nat → BitVec 32} {other : Word} {s : State}

theorem flag_getLsbD (b : Bool) {bit i : Nat} (h : bit < 64) : (flag b bit).getLsbD i = (b && decide (bit = i)) := by
  cases b with
  | false => simp [flag]
  | true => simp [flag, BitVec.getLsbD_twoPow, h]

theorem pstate_bits (other : Word) (f : Flags) : (pstate other f).getLsbD 31 = f.n ∧
    (pstate other f).getLsbD 30 = f.z ∧ (pstate other f).getLsbD 29 = f.c ∧ (pstate other f).getLsbD 28 = f.v := by
  have hmask : ∀ i < 32, 28 ≤ i → (0xFFFFFFFF0FFFFFFF : Word).getLsbD i = false := by decide
  simp only [pstate, BitVec.getLsbD_or, BitVec.getLsbD_and]
  rw [hmask 31 (by decide) (by decide), hmask 30 (by decide) (by decide), hmask 29 (by decide) (by decide),
    hmask 28 (by decide) (by decide)]
  simp only [flag_getLsbD _ (show 31 < 64 by decide), flag_getLsbD _ (show 30 < 64 by decide),
    flag_getLsbD _ (show 29 < 64 by decide), flag_getLsbD _ (show 28 < 64 by decide)]
  simp

theorem interpretCondition_eq (cond : BitVec 4) :
    interpretCondition ((pstate other s.flags).setWidth 32) (cond.setWidth 64) = some (condHolds cond s.flags) := by
  obtain ⟨hn, hz, hc, hv⟩ := pstate_bits other s.flags
  have hbit : ∀ {bit : Nat}, bit < 32 →
      ((pstate other s.flags).setWidth 32 &&& (1 : BitVec 32) <<< bit != 0) = (pstate other s.flags).getLsbD bit := by
    intro bit hlt
    change ((pstate other s.flags).setWidth 32 &&& BitVec.twoPow 32 bit != 0) = _
    rw [and_twoPow_ne_zero hlt, BitVec.getLsbD_setWidth]
    simp [hlt]
  simp only [interpretCondition, pstateN, pstateZ, pstateC, pstateV]
  rw [hbit (by decide), hbit (by decide), hbit (by decide), hbit (by decide), hn, hz, hc, hv]
  rcases s.flags with ⟨n, z, c, v⟩
  revert cond n z c v
  decide

theorem size_field (sf : BitVec 1) (rt : Reg) :
    ((sf.setWidth 32 <<< 5) ||| rt.setWidth 32) &&& (1 : BitVec 32) <<< 5 ≠ 0 ↔ sf = 1 := by
  revert sf rt
  decide

theorem shifted_field {n : Nat} (hn : n ≤ 27) (high : BitVec n) (rt : Reg) :
    ((high.setWidth 32 <<< 5) ||| rt.setWidth 32) >>> 5 = high.setWidth 32 := by
  apply BitVec.eq_of_getLsbD_eq
  intro i hi
  by_cases hlow : 5 + i < 32
  · simp [hi, hlow]
  · have hhigh : high.getLsbD i = false := BitVec.getLsbD_of_ge high i (by omega)
    simp [hi, hlow, hhigh]

/-- The parity of the two bits decides a compare branch: it is taken on zero, or on not zero. -/
theorem parity (zero : Bool) (op : BitVec 1) :
    ((if zero then 1 else 0) ^^^ op.setWidth 64 != (0 : Word)) = (zero == (op == 0)) := by
  revert zero op
  decide

theorem interpretCbz_eq (sf op : BitVec 1) (rt : Reg) {bbMeta : CodeCacheMeta}
    (hrn : bbMeta.rn = (sf.setWidth 32 <<< 5) ||| rt.setWidth 32) (hop : bbMeta.branchCondition = op.setWidth 64) :
    interpretCbz (ucontext other s) bbMeta =
      ((operand (sf ^^^ 1) (if rt = xzr then s.sp else s.x rt) == 0) == (op == 0)) := by
  have hsf : sf ^^^ 1 = 1 ↔ ¬sf = 1 := (by decide : ∀ x : BitVec 1, x ^^^ 1 = 1 ↔ ¬x = 1) sf
  rw [interpretCbz, hrn, hop, low_field, ← parity, operand, ucontext]
  simp only [size_field, hsf, beq_iff_eq]
  by_cases hwide : sf = 1
  · rw [if_pos hwide, if_neg (not_not.mpr hwide)]
  · rw [if_neg hwide, if_pos hwide]

theorem interpretTbz_eq (b5 op : BitVec 1) (b40 : BitVec 5) (rt : Reg) {bbMeta : CodeCacheMeta}
    (hrn : bbMeta.rn = (((b5.setWidth 32 <<< 5) ||| b40.setWidth 32 : BitVec 32) <<< 5) ||| rt.setWidth 32)
    (hop : bbMeta.branchCondition = op.setWidth 64) :
    interpretTbz undefined (ucontext other s) bbMeta =
      (maskBit undefined (if rt = xzr then s.sp else s.x rt) (b5.toNat * 32 + b40.toNat) == (op == 1)) := by
  have hflip : ∀ bit : Bool, ((!bit) == (op == 0)) = (bit == (op == 1)) := by
    exact (by decide : ∀ (op : BitVec 1) (bit : Bool), ((!bit) == (op == 0)) = (bit == (op == 1))) op
  have hbit : ((((b5.setWidth 32 <<< 5) ||| b40.setWidth 32 : BitVec 32).setWidth 6).setWidth 32).toNat =
      b5.toNat * 32 + b40.toNat := by
    rw [← bit_number, BitVec.toNat_setWidth_of_le (by decide)]
  rw [bit_field] at hrn
  rw [interpretTbz, hrn, hop, low_field, shifted_field (by decide), hbit, ← hflip, ← parity, ucontext]

/-- What the interpreters make of a branch of the guest: a compare in the other width, a test of the bits of an
`int`, and `sp` for the zero register. -/
def interpreted (undefined : Nat → BitVec 32) : Inst → State → Bool
  | .bCond _ cond, s => condHolds cond s.flags
  | .cbzCbnz sf op _ rt, s => (operand (sf ^^^ 1) (if rt = xzr then s.sp else s.x rt) == 0) == (op == 0)
  | .tbzTbnz b5 op b40 _ rt, s =>
      maskBit undefined (if rt = xzr then s.sp else s.x rt) (b5.toNat * 32 + b40.toNat) == (op == 1)
  | _, _ => false

/-- The linker changes nothing of the metadata but the status. -/
theorem successor_eq {d guest readAddress w basicBlock : _} {m : CodeCacheMeta} {stub : List Inst}
    (h : scanCondExit d guest readAddress w basicBlock = some (m, stub)) (status : Word) :
    exitSuccessor undefined { m with branchCacheStatus := status } (ucontext other s) =
      some (if interpreted undefined guest s then m.branchTakenAddr else m.branchSkippedAddr) := by
  cases guest with
  | bCond imm19 cond =>
      obtain ⟨stub', -, heq⟩ := Option.map_eq_some_iff.mp h
      obtain ⟨rfl, -⟩ := Prod.mk.inj heq
      simp only [exitSuccessor, ucontext, interpretCondition_eq, interpreted]
      rfl
  | cbzCbnz sf op imm19 rt =>
      obtain ⟨stub', -, heq⟩ := Option.map_eq_some_iff.mp h
      obtain ⟨rfl, -⟩ := Prod.mk.inj heq
      simp only [exitSuccessor, interpreted]
      rw [interpretCbz_eq sf op rt rfl rfl]
      rfl
  | tbzTbnz b5 op b40 imm14 rt =>
      obtain ⟨stub', -, heq⟩ := Option.map_eq_some_iff.mp h
      obtain ⟨rfl, -⟩ := Prod.mk.inj heq
      simp only [exitSuccessor, interpreted]
      rw [interpretTbz_eq b5 op b40 rt rfl rfl]
      rfl
  | _ => exact absurd h (by simp [scanCondExit])

end Interpreters

section Exits

variable {site : Site} {undefined : Nat → BitVec 32} {other : Word} {s : State}

theorem dispatcher_meta {lookup : Word → Word} {target block : Word} {m m' : CodeCacheMeta} {code code' : Code}
    {exitType : BranchType} (h : dispatcherAarch64 lookup target block m code exitType = some (m', code')) :
    ∃ status, m' = { m with branchCacheStatus := status } := by
  have hfirst : ∀ {r : CodeCacheMeta × Code}, linkFirst lookup target block m code = some r →
      ∃ status, r.1 = { m with branchCacheStatus := status } := by
    intro r hr
    simp only [linkFirst, Option.bind_eq_bind, Option.bind_eq_some_iff] at hr
    obtain ⟨condBranch, -, jump, -, hr⟩ := hr
    generalize lookup _ = otherTarget at hr
    by_cases hfound : otherTarget ≠ uintMax
    · rw [if_pos hfound, Option.bind_eq_some_iff] at hr
      obtain ⟨otherJump, -, hr⟩ := hr
      cases hr
      exact ⟨_, rfl⟩
    · rw [if_neg hfound] at hr
      cases hr
      exact ⟨_, rfl⟩
  have hsecond : ∀ {r : CodeCacheMeta × Code}, linkSecond block m code = some r →
      ∃ status, r.1 = { m with branchCacheStatus := status } := by
    intro r hr
    simp only [linkSecond, Option.bind_eq_bind, Option.bind_eq_some_iff] at hr
    obtain ⟨jump, -, hr⟩ := hr
    cases hr
    exact ⟨_, rfl⟩
  have hcond : ∀ {r : CodeCacheMeta × Code}, (if m.branchCacheStatus = 0 then
      linkFirst lookup target block m code else linkSecond block m code) = some r →
      ∃ status, r.1 = { m with branchCacheStatus := status } := by
    intro r hr
    split at hr
    · exact hfirst hr
    · exact hsecond hr
  cases exitType with
  | uncondImmA64 =>
      simp only [dispatcherAarch64, Option.bind_eq_bind, Option.bind_eq_some_iff] at h
      obtain ⟨jump, -, h⟩ := h
      cases h
      exact ⟨_, rfl⟩
  | condImmA64 => exact hcond h
  | cbzA64 => exact hcond h
  | tbzA64 => exact hcond h
  | _ =>
      cases h
      exact ⟨_, rfl⟩

theorem linked_meta {sides : List Word} {bbMeta : CodeCacheMeta} {code : Code} (h : site.Linked sides bbMeta code) :
    ∃ status, bbMeta = { site.bbMeta with branchCacheStatus := status } := by
  induction h with
  | start => exact ⟨_, rfl⟩
  | link _ _ _ _ _ _ hlink ih =>
      obtain ⟨status, heq⟩ := ih
      obtain ⟨status', heq'⟩ := dispatcher_meta hlink
      exact ⟨status', by rw [heq', heq]⟩

/-- Where the interpreters see what the processor sees and the exit can be inverted. -/
def Reads (undefined : Nat → BitVec 32) (s : State) : Inst → Prop
  | .bCond _ cond => cond.toNat < 14
  | .cbzCbnz sf _ _ rt =>
      if rt = xzr then operand (sf ^^^ 1) s.sp = 0 else s.x rt &&& 0xFFFFFFFF = 0 → s.x rt = 0
  | .tbzTbnz b5 _ b40 _ rt =>
      let bit := b5.toNat * 32 + b40.toNat
      if rt = xzr then maskBit undefined s.sp bit = false
      else if bit < 31 then True
      else if bit = 31 then (s.x rt).getLsbD 31 = false → s.x rt >>> 31 = 0
      else maskBit undefined (s.x rt) bit = (s.x rt).getLsbD bit
  | _ => True

theorem beq_right_inj (a b c : Bool) : (a == c) = (b == c) ↔ a = b := by
  revert a b c
  decide

theorem reads_cbz {sf op : BitVec 1} {imm19 : BitVec 19} {rt : Reg} :
    interpreted undefined (.cbzCbnz sf op imm19 rt) s = taken (.cbzCbnz sf op imm19 rt) s ↔
      Reads undefined s (.cbzCbnz sf op imm19 rt) := by
  have hzero : ∀ sf : BitVec 1, operand sf 0 = 0 := fun sf => by
    rw [operand]
    split <;> rfl
  rw [interpreted, taken, Reads, beq_right_inj, State.get]
  by_cases hrt : rt = xzr
  · rw [if_pos hrt, if_pos hrt, if_pos hrt, hzero sf, beq_self_eq_true, beq_iff_eq]
  · rw [if_neg hrt, if_neg hrt, if_neg hrt, Bool.eq_iff_iff, beq_iff_eq, beq_iff_eq]
    have hlow : s.x rt = 0 → s.x rt &&& 0xFFFFFFFF = 0 := fun h => by rw [h]; rfl
    rcases (by decide : ∀ x : BitVec 1, x = 0 ∨ x = 1) sf with rfl | rfl
    · exact ⟨fun h => h.mpr, fun h => ⟨hlow, h⟩⟩
    · exact ⟨fun h => h.mp, fun h => ⟨h, hlow⟩⟩

theorem reads_tbz {b5 op : BitVec 1} {b40 : BitVec 5} {imm14 : BitVec 14} {rt : Reg} :
    interpreted undefined (.tbzTbnz b5 op b40 imm14 rt) s = taken (.tbzTbnz b5 op b40 imm14 rt) s ↔
      Reads undefined s (.tbzTbnz b5 op b40 imm14 rt) := by
  rw [interpreted, taken, Reads, beq_right_inj, State.get]
  generalize b5.toNat * 32 + b40.toNat = bit
  by_cases hrt : rt = xzr
  · rw [if_pos hrt, if_pos hrt, if_pos hrt, show (0 : Word).getLsbD bit = false from BitVec.getLsbD_zero]
  · simp only [if_neg hrt]
    by_cases hlow : bit < 31
    · rw [if_pos hlow, maskBit_of_lt hlow]
      exact iff_of_true rfl trivial
    · rw [if_neg hlow]
      by_cases hsign : bit = 31
      · subst hsign
        have hbit : (s.x rt).getLsbD 31 = true → s.x rt >>> 31 ≠ 0 := fun hset heq => by
          have h := congrArg (fun v : Word => v.getLsbD 0) heq
          simp only [BitVec.getLsbD_ushiftRight, Nat.add_zero, hset] at h
          exact absurd h (by decide)
        rw [if_pos rfl, maskBit_sign]
        cases hset : (s.x rt).getLsbD 31 with
        | true => simpa using hbit hset
        | false => simp
      · rw [if_neg hsign]

/-- The successor of an exit that was interrupted is the guest's, and the one that its code gives to the
dispatcher. -/
def Agrees (site : Site) (undefined : Nat → BitVec 32) (other : Word) (s : State) (bbMeta : CodeCacheMeta) : Prop :=
  ∃ t, exitSuccessor undefined bbMeta (ucontext other s) = some t ∧
    t = (if taken site.guest s then bbMeta.branchTakenAddr else bbMeta.branchSkippedAddr) ∧
    Reaches a64 (emit site.writeP site.stub fun _ => none) (s.goto site.writeP) (site.call s t)

/-- The exit code gives the dispatcher the side to which its inverted branch does not lead. -/
theorem exit_gives (site : Site) (s : State) :
    Reaches a64 (emit site.writeP site.stub fun _ => none) (s.goto site.writeP)
      (site.call s (site.side !taken (invert site.guest) s)) :=
  (Site.unlinked_runs (emit_codeAt (by have hlen := (scan_length site.scanned).2; omega)) s).to_reflTransGen

theorem exit_gives_iff {g : Word} :
    Reaches a64 (emit site.writeP site.stub fun _ => none) (s.goto site.writeP) (site.call s g) ↔
      g = site.side !taken (invert site.guest) s := by
  constructor
  · intro hrun
    exact Site.call_unique site.only_start (exit_gives site s) hrun rfl
  · rintro rfl
    exact exit_gives site s

theorem agrees_iff (status : Word) :
    Agrees site undefined other s { site.bbMeta with branchCacheStatus := status } ↔
      site.side (interpreted undefined site.guest s) = site.side (taken site.guest s) ∧
        site.side (interpreted undefined site.guest s) = site.side !taken (invert site.guest) s := by
  obtain ⟨-, htaken, hskipped, -⟩ := scan_meta site.scanned
  have hside : ∀ b : Bool, (if b then site.bbMeta.branchTakenAddr else site.bbMeta.branchSkippedAddr) = site.side b := by
    intro b
    rw [htaken, hskipped]
    rfl
  simp only [Agrees, successor_eq site.scanned, hside, exit_gives_iff, Option.some.injEq]
  constructor
  · rintro ⟨t, rfl, hguest, hcode⟩
    exact ⟨hguest, hcode⟩
  · rintro ⟨hguest, hcode⟩
    exact ⟨_, rfl, hguest, hcode⟩

/-- An interpreted branch agrees with the guest and with the inverted branch exactly where it reads the right
bits. -/
theorem reads_iff {d readAddress w basicBlock : Word} {guest : Inst} {m : CodeCacheMeta} {stub : List Inst}
    (h : scanCondExit d guest readAddress w basicBlock = some (m, stub)) :
    interpreted undefined guest s = taken guest s ∧ (interpreted undefined guest s = !taken (invert guest) s) ↔
      Reads undefined s guest := by
  have hop : ∀ op : BitVec 1, (op ^^^ 1 == 1) = !(op == 1) := by decide
  cases guest with
  | bCond imm19 cond =>
      have hinv : condHolds (cond ^^^ 1) s.flags = if cond.toNat < 14 then !condHolds cond s.flags else true :=
        condHolds_invert cond s.flags.n s.flags.z s.flags.c s.flags.v
      rw [interpreted, invert, taken, taken, hinv, Reads]
      by_cases hlt : cond.toNat < 14
      · simp [hlt]
      · simp [hlt, condHolds_always cond s.flags hlt]
  | cbzCbnz sf op imm19 rt =>
      have hinv : (!taken (.cbzCbnz sf (op ^^^ 1) imm19 rt) s) = taken (.cbzCbnz sf op imm19 rt) s := by
        rw [taken_cbz, taken_cbz, hop]
        cases (operand sf (s.get rt) == 0) <;> cases (op == 1) <;> rfl
      rw [invert, hinv, and_self, reads_cbz]
  | tbzTbnz b5 op b40 imm14 rt =>
      have hinv : (!taken (.tbzTbnz b5 (op ^^^ 1) b40 imm14 rt) s) = taken (.tbzTbnz b5 op b40 imm14 rt) s := by
        rw [taken, taken, hop]
        cases (s.get rt).getLsbD (b5.toNat * 32 + b40.toNat) <;> cases (op == 1) <;> rfl
      rw [invert, hinv, and_self, reads_tbz]
  | _ => exact absurd h (by simp [scanCondExit])

/-- The successor of an interrupted exit is right in every state of its links exactly where the interpreters read
the right bits, or where both sides are the same. -/
theorem interruptedExit_agrees_iff (site : Site) (undefined : Nat → BitVec 32) (other : Word) (s : State) :
    (∀ sides bbMeta code, site.Linked sides bbMeta code → Agrees site undefined other s bbMeta) ↔
      distance site.guest = 4 ∨ Reads undefined s site.guest := by
  have hside : site.side true = site.side false ↔ distance site.guest = 4 := by
    simp only [Site.side, if_true, Bool.false_eq_true, if_false]
    exact add_right_inj _
  have hall : (∀ sides bbMeta code, site.Linked sides bbMeta code → Agrees site undefined other s bbMeta) ↔
      Agrees site undefined other s site.bbMeta := by
    constructor
    · exact fun h => h _ _ _ Site.Linked.start
    · rintro h sides bbMeta code hlinked
      obtain ⟨status, rfl⟩ := linked_meta hlinked
      exact (agrees_iff status).mpr ((agrees_iff site.bbMeta.branchCacheStatus).mp h)
  rw [hall, ← hside, ← reads_iff site.scanned]
  refine (agrees_iff site.bbMeta.branchCacheStatus).trans ?_
  by_cases hsame : site.side true = site.side false
  · have hany : ∀ b b' : Bool, site.side b = site.side b' := by
      intro b b'
      cases b <;> cases b' <;> simp [hsame]
    exact iff_of_true ⟨hany _ _, hany _ _⟩ (Or.inl hsame)
  · have hinj : ∀ b b' : Bool, site.side b = site.side b' ↔ b = b' := by
      intro b b'
      cases b <;> cases b' <;> simp [hsame, Ne.symm hsame]
    rw [hinj, hinj, or_iff_right hsame]

end Exits

def compareSite : Site where
  guest := .cbzCbnz 1 0 2 2
  readAddress := 0x10000
  writeP := 0x400104
  basicBlock := 1
  dispatcherAddr := 0x400010
  bbMeta := ⟨.cbzA64, 0x400104, 0x10008, 0x10004, 0, 0, 0x22⟩
  stub := [.nop, .nop, pushPairReg 0 1, .cbzCbnz 1 1 5 2, .movz 0 8 0, .movk 1 1 0, .movz 0 1 1, .b 0x3FFFFBC,
    .movz 0 4 0, .movk 1 1 0, .movz 0 1 1, .b 0x3FFFFB8]
  translates g b := g = 0x10008 ∧ b = 0x400200
  scanned := by rfl
  dispatcher_outside := by decide
  entry_outside := by
    rintro g b ⟨-, rfl⟩
    exact Or.inr (by decide)
  entry_ne := alwaysSite.entry_ne
  entry_aligned := alwaysSite.entry_aligned

/-- X2 is not zero, but its low half is: the guest does not branch, and the interpreter does. -/
def wideState : State := ⟨0x400104, fun _ => 0x100000000, 0x7FFF0000, ⟨false, false, false, false⟩, fun _ => 0⟩

theorem interruptedExit_narrow :
    ¬∀ sides bbMeta code, compareSite.Linked sides bbMeta code →
      Agrees compareSite oneShlWord 0 wideState bbMeta := by
  intro hall
  have hagrees := (agrees_iff compareSite.bbMeta.branchCacheStatus).mp (hall _ _ _ Site.Linked.start)
  exact absurd hagrees.1 (by decide)

end Mambo.A64SignalExits
