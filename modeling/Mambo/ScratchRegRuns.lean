import Mambo.ScratchRegs

namespace Mambo.ScratchRegRuns

open RegLists ScratchRegs

section Machines

variable {isa : Isa} {s u v : (machine isa).State} {regs new : BitVec 32} {floor n : Nat}

/-- The registers from `floor` up to x7. -/
structure From (floor : Nat) (regs : BitVec 32) : Prop where
  le : floor ≤ 8
  bit : ∀ i, regs.getLsbD i = true ↔ floor ≤ i ∧ i < 8

theorem saved_zero_a64 {s u : A64.State} : A64Stack.Kept s (members 0) u ∧ A64Stack.Saveable (members 0) ↔
    u.sp = s.sp ∧ ∀ r, u.get r = s.get r := by
  rw [members_zero, A64Stack.kept_nil_iff]
  exact and_iff_left fun k hk => nomatch hk

theorem saved_zero : (machine isa).Saved s 0 u ↔ (machine isa).Same s u := by
  cases isa with
  | a64 =>
    exact saved_zero_a64
  | riscv =>
    change RvStack.Kept s 0 u ↔ ∀ r, u.get r = s.get r
    constructor
    · intro h r
      by_cases hr : r = Rv.sp
      · rw [hr, h.stack, members_zero]
        exact BitVec.sub_zero _
      · exact h.others r hr (by simp)
    · intro h
      refine ⟨⟨by simp, by simp⟩, ?_, fun i r hi => ?_, fun r _ _ => h r⟩
      · rw [h, members_zero]
        exact (BitVec.sub_zero _).symm
      · rw [RvStack.regList_zero] at hi
        exact nomatch hi

theorem saved_unreserved (h : (machine isa).Saved s regs u) {k : Nat} (hk : regs.getLsbD k = true) :
    ¬ (machine isa).Reserved k := by
  cases isa with
  | a64 =>
    have hlt : k < 31 := h.2 k (mem_members.mpr hk)
    exact fun heq => absurd hlt (by rw [show k = 31 from heq]; exact lt_irrefl _)
  | riscv =>
    rintro (rfl | rfl)
    · exact absurd hk (by rw [h.bits.1]; decide)
    · exact absurd hk (by rw [h.bits.2]; decide)

theorem saved_loses (h : (machine isa).Saved s regs u) (hv : (machine isa).Loses regs u v) :
    (machine isa).Saved s regs v := by
  cases isa with
  | a64 => exact ⟨h.1.clobbered members_length_le hv, h.2⟩
  | riscv => exact h.clobbered hv

theorem saved_pop (h : (machine isa).Saved s regs u) :
    ∃ is, (machine isa).pop regs = some is ∧ (machine isa).Same s ((machine isa).execAll is u) := by
  cases isa with
  | a64 => exact ⟨_, rfl, A64Stack.kept_nil_iff.mp (A64Stack.emitA64Pop_spec h.1 h.2)⟩
  | riscv =>
    obtain ⟨is, his⟩ := Option.isSome_iff_exists.mp (@RvStack.riscvPop_isSome regs)
    exact ⟨is, his, h.pop his⟩

theorem members_range (hle : n ≤ floor) (hnew : ∀ i, new.getLsbD i = true ↔ floor - n ≤ i ∧ i < floor) :
    members new = List.range' (floor - n) n := by
  refine members_eq List.pairwise_lt_range' fun k => ?_
  rw [hnew, List.mem_range'_1]
  omega

theorem saved_push {code : Code} (h : (machine isa).Saved s code.pushedRegs u) (hregs : From floor code.pushedRegs)
    (hlow : minPushedReg code = floor) (hn : 0 < n) (hle : n ≤ floor)
    (hnew : ∀ i, new.getLsbD i = true ↔ floor - n ≤ i ∧ i < floor) (hroom : Room isa code n) :
    ∃ is, (machine isa).push new = some is ∧
      (machine isa).Saved s (code.pushedRegs ||| new) ((machine isa).execAll is u) := by
  have hbelow : ∀ j k, new.getLsbD j = true → code.pushedRegs.getLsbD k = true → j < k := by
    intro j k hj hk
    have hj := (hnew j).mp hj
    have hk := (hregs.bit k).mp hk
    omega
  have hmembers := members_range hle hnew
  cases isa with
  | a64 =>
    obtain ⟨hkept, hsave⟩ := h
    have hsave' : A64Stack.Saveable (members new) := by
      intro k hk
      have hbit := (hnew k).mp (mem_members.mp hk)
      have hle8 := hregs.le
      omega
    have hor := members_or hbelow
    have hroom : code.pushedRegs = 0 ∨ n % 2 = 0 := hroom
    obtain ⟨is, his, hkept'⟩ := A64Stack.emitA64Push_spec hkept rfl
      (hroom.imp (fun hzero => by rw [hzero, members_zero]) fun heven => by
        rw [hmembers, List.length_range']
        exact heven)
      hsave' (fun j hj k hk => hbelow j k (mem_members.mp hj) (mem_members.mp hk))
      (by rw [← hor]; exact members_length_le)
    refine ⟨is, his, ?_, ?_⟩
    · rw [← hor] at hkept'
      exact hkept'
    · rw [hor]
      intro k hk
      rcases List.mem_append.mp hk with hk | hk
      exacts [hsave' k hk, hsave k hk]
  | riscv =>
    have hroom : n + 3 ≤ floor := hlow ▸ hroom
    have hfalse : ∀ i, i < 3 → new.getLsbD i = false := by
      intro i hi
      by_contra hbit
      have hbit := (hnew i).mp (by simpa using hbit)
      omega
    have hsave : RvStack.Saveable new := by
      refine ⟨?_, hfalse 0 (by decide), hfalse 2 (by decide)⟩
      rintro rfl
      have hbit := (hnew (floor - n)).mpr (by omega)
      exact absurd hbit (by simp)
    exact ⟨_, RvStack.riscvPush_eq, h.push hsave hbelow RvStack.riscvPush_eq⟩

end Machines

section Loop

variable {avail toPush : BitVec 32} {count low k : Nat} {regs : List Nat}

/-- The registers right below `low`, at most as many as asked for. -/
def fresh : Nat → Nat → List Nat
  | 0, _ => []
  | _, 0 => []
  | count + 1, low + 1 => low :: fresh count low

theorem mem_fresh : k ∈ fresh count low ↔ low - count ≤ k ∧ k < low := by
  induction count generalizing low with
  | zero =>
    rw [fresh]
    simp only [List.not_mem_nil, false_iff, not_and]
    omega
  | succ count ih =>
    cases low with
    | zero => simp [fresh]
    | succ low =>
      rw [fresh, List.mem_cons, ih]
      omega

theorem fresh_nodup : (fresh count low).Nodup := by
  induction count generalizing low with
  | zero => cases low <;> exact List.nodup_nil
  | succ count ih =>
    cases low with
    | zero => exact List.nodup_nil
    | succ low =>
      refine List.nodup_cons.mpr ⟨fun hmem => ?_, ih⟩
      exact absurd (mem_fresh.mp hmem).2 (lt_irrefl _)

theorem getLoop_empty (hlow : low ≤ 8) :
    ∃ toPush', getLoop count 0 low toPush regs = (0, toPush', regs ++ fresh count low) ∧
      ∀ i, toPush'.getLsbD i = true ↔ toPush.getLsbD i = true ∨ low - count ≤ i ∧ i < low := by
  induction count generalizing low toPush regs with
  | zero =>
    refine ⟨toPush, by rw [getLoop, fresh, List.append_nil], fun i => (or_iff_left ?_).symm⟩
    omega
  | succ count ih =>
    have hnext : nextRegInList 0 0 = regInvalid := nextRegInList_none fun j _ => by simp
    simp only [getLoop, hnext, ne_eq, not_true_eq_false, if_false]
    cases low with
    | zero =>
      refine ⟨toPush, by simp [fresh], fun i => (or_iff_left ?_).symm⟩
      omega
    | succ low =>
      obtain ⟨toPush', hloop, hbits⟩ := @ih (toPush ||| (1 : BitVec 32) <<< low) low (regs ++ [low]) (by omega)
      refine ⟨toPush', ?_, fun i => ?_⟩
      · dsimp only
        rw [hloop, fresh, List.append_assoc]
        rfl
      · have hone : ((1 : BitVec 32) <<< low).getLsbD i = true ↔ i = low := by
          simp only [BitVec.getLsbD_shiftLeft]
          simp
          omega
        rw [hbits, BitVec.getLsbD_or, Bool.or_eq_true, hone, or_assoc]
        refine or_congr_right ?_
        omega

/-- The registers available are handed out first, then those right below `low`. -/
theorem getLoop_spec (hlow : low ≤ 8) :
    ∃ avail' toPush', getLoop count avail low toPush regs =
        (avail', toPush', regs ++ (members avail).take count ++ fresh (count - (members avail).length) low) ∧
      members avail' = (members avail).drop count ∧
      ∀ i, toPush'.getLsbD i = true ↔
        toPush.getLsbD i = true ∨ low - (count - (members avail).length) ≤ i ∧ i < low := by
  induction count generalizing avail regs with
  | zero =>
    refine ⟨avail, toPush, ?_, rfl, fun i => (or_iff_left ?_).symm⟩
    · rw [getLoop, Nat.zero_sub, fresh, List.take_zero, List.append_nil, List.append_nil]
    · omega
  | succ count ih =>
    by_cases hzero : avail = 0
    · subst hzero
      obtain ⟨toPush', hloop, hbits⟩ := @getLoop_empty toPush (count + 1) low regs hlow
      refine ⟨0, toPush', ?_, ?_, ?_⟩
      · rw [hloop, members_zero, List.take_nil, List.append_nil]
        rfl
      · rw [members_zero, List.drop_nil]
      · rw [members_zero]
        exact hbits
    · obtain ⟨k, hk⟩ := exists_lowest hzero
      have hvalid : k ≠ regInvalid := (lt_of_bit hk.bit).ne
      obtain ⟨avail', toPush', hloop, hmembers, hbits⟩ := @ih (clear avail k) (regs ++ [k])
      have hlen : (members avail).length = (members (clear avail k)).length + 1 := by rw [hk.members]; rfl
      refine ⟨avail', toPush', ?_, ?_, ?_⟩
      · simp only [getLoop, hk.next, ne_eq, hvalid, not_false_eq_true, if_true]
        rw [hloop, hlen, hk.members, List.take_succ_cons, Nat.add_sub_add_right, List.append_assoc regs]
        rfl
      · rw [hmembers, hk.members, List.drop_succ_cons]
      · rw [hlen, Nat.add_sub_add_right]
        exact hbits

end Loop

section Requests

variable {code : Code} {regs avail : BitVec 32} {floor n : Nat}

theorem From.eight : From 8 0 := ⟨le_rfl, fun i => by simp⟩

theorem From.zero_iff (h : From floor regs) : regs = 0 ↔ floor = 8 := by
  constructor
  · rintro rfl
    have hle := h.le
    by_contra hne
    have hbit := (h.bit floor).mpr (by omega)
    exact absurd hbit (by simp)
  · rintro rfl
    by_contra hne
    obtain ⟨k, hk⟩ := exists_bit hne
    have hbit := (h.bit k).mp hk
    omega

theorem From.members (h : From floor regs) : members regs = List.range' floor (8 - floor) := by
  refine members_eq List.pairwise_lt_range' fun k => ?_
  have hle := h.le
  rw [h.bit, List.mem_range'_1]
  omega

theorem From.countBits (h : From floor regs) : countBits regs = 8 - floor := by
  rw [countBits_eq, h.members, List.length_range']

theorem From.minPushedReg (h : From floor code.pushedRegs) : minPushedReg code = floor := by
  unfold ScratchRegs.minPushedReg
  split
  case isTrue hne =>
    have hfloor : floor < 8 := lt_of_le_of_ne h.le fun heq => hne (h.zero_iff.mpr heq)
    refine Lowest.next ⟨(h.bit floor).mpr ⟨le_rfl, hfloor⟩, fun j hj => ?_⟩
    by_contra hbit
    have hbit := (h.bit j).mp (by simpa using hbit)
    omega
  case isFalse heq => exact (h.zero_iff.mp (not_not.mp heq)).symm

theorem From.below (h : From floor regs) (hle : n ≤ floor) {new : BitVec 32}
    (hnew : ∀ i, new.getLsbD i = true ↔ floor - n ≤ i ∧ i < floor) : From (floor - n) (regs ||| new) := by
  have hle8 := h.le
  refine ⟨by omega, fun i => ?_⟩
  rw [BitVec.getLsbD_or, Bool.or_eq_true, h.bit, hnew]
  omega

end Requests

section Invariant

variable {isa : Isa} {allowWrite : Bool} {s : (machine isa).State} {d : Delivery (machine isa)}
  {floor depth : Nat}

/-- While a callback runs, the registers from `floor` up are on the stack. -/
structure Inside (allowWrite : Bool) (s : (machine isa).State) (d : Delivery (machine isa)) (floor : Nat) : Prop where
  range : From floor d.code.pushedRegs
  avail : ∀ k, d.code.availableRegs.getLsbD k = true → d.code.pushedRegs.getLsbD k = true
  nodup : d.held.Nodup
  held : ∀ k, k ∈ d.held ↔ d.code.pushedRegs.getLsbD k = true ∧ ¬ d.code.availableRegs.getLsbD k = true
  count : d.code.pluginPushedRegCount = (8 - floor : Nat)
  saved : (machine isa).Saved s d.code.pushedRegs d.out
  silent : allowWrite = false → d.code.pushedRegs = 0 ∧ d.wrote = false

structure Outside (s : (machine isa).State) (d : Delivery (machine isa)) : Prop where
  same : (machine isa).Same s d.out
  count : d.code.pluginPushedRegCount = 0

theorem Outside.enter (h : Outside s d) (hpushed : d.code.pushedRegs = 0) :
    ∃ d', next allowWrite depth d .enter = some d' ∧ d'.inside = true ∧ Inside allowWrite s d' 8 := by
  refine ⟨_, rfl, rfl, ?_⟩
  constructor
  case range => rw [hpushed]; exact From.eight
  case avail => exact fun _ hk => hk
  case nodup => exact List.nodup_nil
  case held => intro k; simp
  case count => exact h.count
  case saved => rw [hpushed]; exact saved_zero.mpr h.same
  case silent => exact fun _ => ⟨hpushed, rfl⟩

theorem Inside.leave (h : Inside allowWrite s d floor) :
    ∃ d', next allowWrite depth d .leave = some d' ∧ d'.inside = false ∧ Outside s d' := by
  have hbits := h.range.countBits
  by_cases hwrite : allowWrite = true
  · have hassert : (countBits d.code.pushedRegs : Int) = d.code.pluginPushedRegCount := by rw [hbits, h.count]
    by_cases hpushed : d.code.pushedRegs = 0
    · refine ⟨{ d with inside := false }, ?_, rfl, ?_, ?_⟩
      · rw [next, if_pos hwrite, if_pos hassert, if_neg (not_not.mpr hpushed)]
      · have hsaved := h.saved
        rw [hpushed] at hsaved
        exact saved_zero.mp hsaved
      · show d.code.pluginPushedRegCount = 0
        rw [h.count, h.range.zero_iff.mp hpushed]
        rfl
    · obtain ⟨is, hpop, hsame⟩ := saved_pop h.saved
      have hcount : 0 ≤ d.code.pluginPushedRegCount ∧
          0 ≤ d.code.pluginPushedRegCount - (countBits d.code.pushedRegs : Int) := by omega
      have hnext : next allowWrite depth d .leave = some { d with
          code :=
            { d.code with pluginPushedRegCount := d.code.pluginPushedRegCount - (countBits d.code.pushedRegs : Int) }
          out := (machine isa).execAll is d.out
          inside := false } := by
        rw [next, if_pos hwrite, if_pos hassert, if_pos hpushed, emitPop, if_pos hcount, hpop]
        rfl
      refine ⟨_, hnext, rfl, hsame, ?_⟩
      · show d.code.pluginPushedRegCount - (countBits d.code.pushedRegs : Int) = 0
        omega
  · obtain ⟨hpushed, hwrote⟩ := h.silent (by simpa using hwrite)
    have hsaved := h.saved
    rw [hpushed] at hsaved
    refine ⟨{ d with inside := false }, ?_, rfl, saved_zero.mp hsaved, ?_⟩
    · rw [next, if_neg hwrite, hwrote, if_neg (by decide)]
    · show d.code.pluginPushedRegCount = 0
      rw [h.count, h.range.zero_iff.mp hpushed]
      rfl

theorem take_iff {avail avail' : BitVec 32} {count k : Nat} (h : members avail' = (members avail).drop count) :
    k ∈ (members avail).take count ↔ avail.getLsbD k = true ∧ ¬ avail'.getLsbD k = true := by
  have hdisjoint : ((members avail).take count).Disjoint ((members avail).drop count) :=
    List.disjoint_take_drop members_sorted.nodup le_rfl
  rw [← mem_members, ← mem_members, h]
  constructor
  · exact fun hk => ⟨List.mem_of_mem_take hk, hdisjoint hk⟩
  · rintro ⟨hk, hnot⟩
    rw [← List.take_append_drop count (members avail)] at hk
    exact (List.mem_append.mp hk).resolve_right hnot

theorem getScratchRegs_none {m : Machine} {code : Code} {out : m.State} {count : Int} {avail' toPush : BitVec 32}
    {regs : List Nat}
    (hloop : getLoop count.toNat code.availableRegs (minPushedReg code) 0 [] = (avail', toPush, regs))
    (hzero : toPush = 0) : mamboGetScratchRegs m code out count =
      some ({ code with availableRegs := avail', pushedRegs := code.pushedRegs ||| toPush }, out, regs) := by
  unfold mamboGetScratchRegs
  rw [hloop]
  exact if_neg (not_not.mpr hzero)

theorem getScratchRegs_some {m : Machine} {code : Code} {out : m.State} {count : Int} {avail' toPush : BitVec 32}
    {regs : List Nat} {is : List m.Inst}
    (hloop : getLoop count.toNat code.availableRegs (minPushedReg code) 0 [] = (avail', toPush, regs))
    (hne : toPush ≠ 0) (hpush : m.push toPush = some is) : mamboGetScratchRegs m code out count =
      some (⟨code.pushedRegs ||| toPush, avail', code.pluginPushedRegCount + countBits toPush⟩, m.execAll is out,
        regs) := by
  unfold mamboGetScratchRegs
  rw [hloop]
  dsimp only
  rw [if_pos hne, emitPush, hpush]
  rfl

/-- The registers handed out were available, or are pushed right below those on the stack. -/
theorem Inside.handed (h : Inside allowWrite s d floor) {avail' toPush : BitVec 32} {count more n : Nat}
    (hle : n ≤ floor) (hn : n = min more floor)
    (hmembers : members avail' = (members d.code.availableRegs).drop count)
    (hnew : ∀ i, toPush.getLsbD i = true ↔ floor - n ≤ i ∧ i < floor) {code : Code} {out : (machine isa).State}
    (havail : code.availableRegs = avail') (hpushed : code.pushedRegs = d.code.pushedRegs ||| toPush)
    (hcount : code.pluginPushedRegCount = (8 - (floor - n) : Nat))
    (hsaved : (machine isa).Saved s (d.code.pushedRegs ||| toPush) out)
    (hsilent : allowWrite = false → toPush = 0) :
    Inside allowWrite s
      { d with
        code := code
        out := out
        held := d.held ++ ((members d.code.availableRegs).take count ++ fresh more floor)
        wrote := d.wrote || d.code.pushedRegs != code.pushedRegs } (floor - n) := by
  have hfresh : ∀ k, k ∈ fresh more floor ↔ toPush.getLsbD k = true := by
    intro k
    rw [mem_fresh, hnew]
    omega
  have hless : ∀ k, avail'.getLsbD k = true → d.code.availableRegs.getLsbD k = true := by
    intro k hk
    rw [← mem_members, hmembers] at hk
    exact mem_members.mp (List.mem_of_mem_drop hk)
  have hapart : ∀ k, toPush.getLsbD k = true → ¬ d.code.pushedRegs.getLsbD k = true := by
    intro k hk hpushed
    have hk := (hnew k).mp hk
    have hpushed := (h.range.bit k).mp hpushed
    omega
  constructor
  case range =>
    rw [hpushed]
    exact h.range.below hle hnew
  case avail =>
    intro k hk
    rw [havail] at hk
    rw [hpushed, BitVec.getLsbD_or, Bool.or_eq_true]
    exact Or.inl (h.avail k (hless k hk))
  case nodup =>
    refine h.nodup.append ((members_sorted.nodup.sublist (List.take_sublist _ _)).append fresh_nodup ?_) ?_
    · intro k hk hmem
      exact hapart k ((hfresh k).mp hmem) (h.avail k ((take_iff hmembers).mp hk).1)
    · intro k hk hmem
      have hk := (h.held k).mp hk
      rcases List.mem_append.mp hmem with hmem | hmem
      · exact hk.2 ((take_iff hmembers).mp hmem).1
      · exact hapart k ((hfresh k).mp hmem) hk.1
  case held =>
    intro k
    have hless := hless k
    have hsub := h.avail k
    have hapart := hapart k
    rw [List.mem_append, List.mem_append, h.held, take_iff hmembers, hfresh, hpushed, havail, BitVec.getLsbD_or,
      Bool.or_eq_true]
    tauto
  case count => exact hcount
  case saved =>
    rw [hpushed]
    exact hsaved
  case silent =>
    intro hfalse
    obtain ⟨hzero, hwrote⟩ := h.silent hfalse
    have hsame : code.pushedRegs = 0 := by
      rw [hpushed, hzero, hsilent hfalse]
      exact BitVec.or_zero
    refine ⟨hsame, ?_⟩
    show (d.wrote || d.code.pushedRegs != code.pushedRegs) = false
    rw [hwrote, hzero, hsame]
    rfl

theorem Inside.get (h : Inside allowWrite s d floor) {count : Int}
    (hmeets : shortfall d.code count = 0 ∨ allowWrite = true ∧ Room isa d.code (shortfall d.code count)) :
    ∃ code out regs, mamboGetScratchRegs (machine isa) d.code d.out count = some (code, out, regs) ∧
      Inside allowWrite s
        { d with
          code := code
          out := out
          held := d.held ++ regs
          wrote := d.wrote || d.code.pushedRegs != code.pushedRegs }
        (floor - shortfall d.code count) := by
  have hlow := h.range.minPushedReg
  obtain ⟨avail', toPush, hloop, hmembers, hbits⟩ :=
    @getLoop_spec d.code.availableRegs 0 count.toNat floor [] h.range.le
  generalize hn : shortfall d.code count = n at *
  rw [shortfall, hlow, countBits_eq] at hn
  have hle : n ≤ floor := by omega
  have hnew : ∀ i, toPush.getLsbD i = true ↔ floor - n ≤ i ∧ i < floor := by
    intro i
    rw [hbits, or_iff_right (by simp)]
    omega
  have hle8 := h.range.le
  have hcount := h.count
  have hloop' : getLoop count.toNat d.code.availableRegs (minPushedReg d.code) 0 [] =
      (avail', toPush, (members d.code.availableRegs).take count.toNat ++
        fresh (count.toNat - (members d.code.availableRegs).length) floor) := by
    rw [hlow, hloop, List.nil_append]
  by_cases hzero : toPush = 0
  · have hnone : n = 0 := by
      by_contra hne
      have hbit := (hnew (floor - n)).mpr (by omega)
      rw [hzero] at hbit
      exact absurd hbit (by simp)
    refine ⟨_, _, _, getScratchRegs_none hloop' hzero, ?_⟩
    refine h.handed hle hn.symm hmembers hnew rfl rfl ?_ ?_ fun _ => hzero
    · rw [hnone]
      exact hcount
    · rw [hzero]
      exact (BitVec.or_zero (x := d.code.pushedRegs)).symm ▸ h.saved
  · have hn0 : n ≠ 0 := by
      rintro rfl
      obtain ⟨k, hk⟩ := exists_bit hzero
      have hk := (hnew k).mp hk
      omega
    obtain ⟨hwrite, hroom⟩ := hmeets.resolve_left hn0
    obtain ⟨is, hpush, hsaved⟩ := saved_push h.saved h.range hlow (Nat.pos_of_ne_zero hn0) hle hnew hroom
    refine ⟨_, _, _, getScratchRegs_some hloop' hzero hpush, ?_⟩
    refine h.handed hle hn.symm hmembers hnew rfl rfl ?_ hsaved fun hfalse => ?_
    · show d.code.pluginPushedRegCount + (countBits toPush : Int) = _
      rw [hcount, countBits_eq, members_range hle hnew, List.length_range']
      omega
    · rw [hwrite] at hfalse
      exact nomatch hfalse

theorem Inside.free (h : Inside allowWrite s d floor) (regs : BitVec 32) :
    Inside allowWrite s
      { d with
        code := (mamboFreeScratchRegs d.code regs).1
        held := stillHeld d.held regs (mamboFreeScratchRegs d.code regs).2 } floor := by
  unfold mamboFreeScratchRegs
  split
  case isTrue => exact h
  case isFalse hsub =>
    have hsub : ∀ k, regs.getLsbD k = true → d.code.pushedRegs.getLsbD k = true := by
      intro k hk
      rw [← not_not.mp hsub, BitVec.getLsbD_and, Bool.and_eq_true] at hk
      exact hk.2
    have heq : stillHeld d.held regs 0 = d.held.filter fun k => !regs.getLsbD k := if_pos rfl
    constructor
    case range => exact h.range
    case avail =>
      intro k hk
      rw [BitVec.getLsbD_or, Bool.or_eq_true] at hk
      exact hk.elim (h.avail k) (hsub k)
    case nodup =>
      rw [heq]
      exact h.nodup.filter _
    case held =>
      intro k
      rw [heq, List.mem_filter, h.held, BitVec.getLsbD_or]
      simp [and_assoc]
    case count => exact h.count
    case saved => exact h.saved
    case silent => exact h.silent

theorem Inside.own (h : Inside allowWrite s d floor) (hwrite : allowWrite = true) {out : (machine isa).State}
    (hloses : (machine isa).Loses d.code.pushedRegs d.out out) :
    Inside allowWrite s { d with out := out, wrote := true } floor :=
  ⟨h.range, h.avail, h.nodup, h.held, h.count, saved_loses h.saved hloses, fun hfalse => by
    rw [hwrite] at hfalse
    exact nomatch hfalse⟩

structure Kept (allowWrite : Bool) (s : (machine isa).State) (d : Delivery (machine isa)) : Prop where
  inside : d.inside = true → ∃ floor, Inside allowWrite s d floor
  outside : d.inside = false → Outside s d

theorem kept_start : Kept allowWrite s (deliveryStart s) := by
  refine ⟨fun h => absurd h Bool.false_ne_true, fun _ => ⟨?_, rfl⟩⟩
  cases isa with
  | a64 => exact ⟨rfl, fun _ => rfl⟩
  | riscv => exact fun _ => rfl

theorem Inside.kept {d' : Delivery (machine isa)} (h : Inside allowWrite s d' floor) (hinside : d'.inside = true) :
    Kept allowWrite s d' :=
  ⟨fun _ => ⟨floor, h⟩, fun hfalse => by
    rw [hinside] at hfalse
    exact nomatch hfalse⟩

theorem freeReg_none (code : Code) (reg : BitVec 32) : mamboFreeScratchReg depth code reg = none := by
  induction depth generalizing reg with
  | zero => rfl
  | succ depth ih => exact ih _

theorem kept_next {e : Event (machine isa)} (depth : Nat) (h : Kept allowWrite s d) (proper : Proper d e)
    (meets : Meets isa allowWrite d e) : ∃ d', next allowWrite depth d e = some d' ∧ Kept allowWrite s d' := by
  cases e with
  | enter =>
    obtain ⟨d', hnext, hinside, h'⟩ := (h.outside proper).enter meets
    exact ⟨d', hnext, h'.kept hinside⟩
  | leave =>
    obtain ⟨floor, hin⟩ := h.inside proper
    obtain ⟨d', hnext, hinside, h'⟩ := hin.leave
    refine ⟨d', hnext, fun htrue => ?_, fun _ => h'⟩
    rw [hinside] at htrue
    exact nomatch htrue
  | own out =>
    obtain ⟨hinside, hloses⟩ := proper
    obtain ⟨floor, hin⟩ := h.inside hinside
    exact ⟨_, rfl, (hin.own meets hloses).kept hinside⟩
  | call c =>
    obtain ⟨floor, hin⟩ := h.inside proper
    cases c with
    | getRegs count =>
      obtain ⟨code, out, regs, hget, h'⟩ := hin.get (show
        shortfall d.code count = 0 ∨ allowWrite = true ∧ Room isa d.code (shortfall d.code count) from meets)
      exact ⟨_, by rw [next, call, hget]; rfl, h'.kept proper⟩
    | getReg =>
      obtain ⟨code, out, regs, hget, h'⟩ := hin.get (show
        shortfall d.code 1 = 0 ∨ allowWrite = true ∧ Room isa d.code (shortfall d.code 1) from meets)
      exact ⟨_, by rw [next, call, mamboGetScratchReg, hget]; rfl, h'.kept proper⟩
    | freeRegs regs => exact ⟨_, rfl, (hin.free regs).kept proper⟩
    | freeReg reg => exact meets.elim

theorem kept_reaches (h : Reaches isa allowWrite s d) : Kept allowWrite s d := by
  induction h with
  | start => exact kept_start
  | @step d d' e depth before proper meets hnext ih =>
    obtain ⟨d'', hnext', h'⟩ := kept_next depth ih proper meets
    rw [hnext] at hnext'
    rwa [Option.some.inj hnext']

end Invariant

section Claims

variable {isa : Isa} {allowWrite : Bool}

def deliver {m : Machine} (allowWrite : Bool) (depth : Nat) : Delivery m → List (Event m) → Option (Delivery m)
  | d, [] => some d
  | d, e :: es => (next allowWrite depth d e).bind fun d => deliver allowWrite depth d es

abbrev startOf (isa : Isa) (s : (machine isa).State) : Delivery (machine isa) := deliveryStart s

def a64Start : A64.State := ⟨0, fun k => k.setWidth 64, 0x1000, ⟨false, false, false, false⟩, fun _ => 0⟩

def riscvStart : Rv.State := ⟨0, fun k => k.setWidth 64, fun _ => 0⟩

/-- Scratch registers in a delivery of callbacks whose steps meet the conditions: the calls
return, what is held is distinct and not reserved, exactly `pushed_regs` is on the stack, and
outside the callbacks the application's registers are as they were. -/
theorem scratch_run {s : (machine isa).State} {d : Delivery (machine isa)} (h : Reaches isa allowWrite s d) :
    (d.inside = true →
      d.held.Nodup ∧ (∀ k ∈ d.held, ¬ (machine isa).Reserved k) ∧ (machine isa).Saved s d.code.pushedRegs d.out) ∧
    (d.inside = false → (machine isa).Same s d.out) ∧
    ∀ e depth, Proper d e → Meets isa allowWrite d e → ∃ d', next allowWrite depth d e = some d' := by
  have hkept := kept_reaches h
  refine ⟨fun hinside => ?_, fun hout => (hkept.outside hout).same, fun e depth proper meets => ?_⟩
  · obtain ⟨floor, hin⟩ := hkept.inside hinside
    exact ⟨hin.nodup, fun k hk => saved_unreserved hin.saved ((hin.held k).mp hk).1, hin.saved⟩
  · obtain ⟨d', hnext, _⟩ := kept_next depth hkept proper meets
    exact ⟨d', hnext⟩

theorem scratch_run_pair :
    ∃ d, deliver true 0 (startOf .a64 a64Start) [.enter, .call (.getRegs 2), .leave] = some d ∧
      (machine .a64).Same a64Start d.out := by
  have henter : next true 0 (startOf .a64 a64Start) .enter =
      some ⟨setMamboContextCode, a64Start, [], true, false⟩ := rfl
  have h₁ := (@Reaches.start .a64 true a64Start).step (e := .enter) rfl rfl henter
  have hget : (next true 0 (⟨setMamboContextCode, a64Start, [], true, false⟩ : Delivery (machine .a64))
      (.call (.getRegs 2))).map (fun d => d.inside) = some true := by with_unfolding_all decide
  obtain ⟨d₂, hget, hinside⟩ := Option.map_eq_some_iff.mp hget
  have h₂ := h₁.step (e := .call (.getRegs 2)) rfl (Or.inr ⟨rfl, Or.inl rfl⟩) hget
  obtain ⟨d₃, hleave⟩ := (scratch_run h₂).2.2 .leave 0 hinside trivial
  have h₃ := h₂.step (e := .leave) hinside trivial hleave
  have hrun : deliver true 0 (startOf .a64 a64Start) [.enter, .call (.getRegs 2), .leave] = some d₃ := by
    rw [deliver, henter, Option.bind_some, deliver, hget, Option.bind_some, deliver, hleave]
    rfl
  have hout : (deliver true 0 (startOf .a64 a64Start) [.enter, .call (.getRegs 2), .leave]).map (fun d => d.inside) =
      some false := by with_unfolding_all decide
  rw [hrun] at hout
  exact ⟨d₃, hrun, (scratch_run h₃).2.1 (Option.some.inj hout)⟩

/-- RISC-V hands out x2 as the sixth register, A64 pops two registers pushed one by one as a
pair, the plugin after one that pushed registers fails an assertion, and freeing one register
does not return. -/
theorem scratch_breaks :
    (∃ d, deliver true 0 (startOf .riscv riscvStart) [.enter, .call (.getRegs 6)] = some d ∧
      2 ∈ d.held ∧ (machine .riscv).Reserved 2) ∧
    (∃ d, deliver true 0 (startOf .a64 a64Start) [.enter, .call .getReg, .call .getReg, .leave] = some d ∧
      d.inside = false ∧ ¬ (machine .a64).Same a64Start d.out) ∧
    deliver true 0 (startOf .a64 a64Start) [.enter, .call .getReg, .leave, .enter, .leave] = none ∧
    ∀ depth, next true depth (⟨setMamboContextCode, a64Start, [], true, false⟩ : Delivery (machine .a64))
      (.call (.freeReg 7)) = none := by
  refine ⟨?_, ?_, ?_, fun depth => ?_⟩
  · have hrun : (deliver true 0 (startOf .riscv riscvStart) [.enter, .call (.getRegs 6)]).map (fun d => d.held) =
        some [7, 6, 5, 4, 3, 2] := by with_unfolding_all decide
    obtain ⟨d, hrun, hheld⟩ := Option.map_eq_some_iff.mp hrun
    exact ⟨d, hrun, by rw [hheld]; decide, Or.inr rfl⟩
  · have hrun : (deliver true 0 (startOf .a64 a64Start) [.enter, .call .getReg, .call .getReg, .leave]).map
        (fun d => (d.inside, (d.out : A64.State).sp)) = some (false, 0xff0) := by with_unfolding_all decide
    obtain ⟨d, hrun, hout⟩ := Option.map_eq_some_iff.mp hrun
    have hinside : d.inside = false := congrArg Prod.fst hout
    have hsp : (d.out : A64.State).sp = 0xff0 := congrArg Prod.snd hout
    refine ⟨d, hrun, hinside, fun hsame => ?_⟩
    have heq : (d.out : A64.State).sp = a64Start.sp := hsame.1
    rw [hsp] at heq
    exact absurd heq (by decide)
  · exact Option.isNone_iff_eq_none.mp (by with_unfolding_all decide)
  · rw [next, call, freeReg_none]
    rfl

end Claims

end Mambo.ScratchRegRuns
