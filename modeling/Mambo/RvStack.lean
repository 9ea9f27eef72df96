import Mambo.RegLists
import Mambo.RvEmit

namespace Mambo.RvStack

open ByteMemory CodeRuns Rv RvCode RvEmit RegLists

section Loops

def storeLoop (regs : BitVec 32) (o : Nat) : List Inst :=
  if regs = 0 then []
  else
    let reg := nextRegInList regs 0
    .sd (BitVec.ofNat 5 reg) sp (BitVec.ofNat 7 (o >>> 5)) (BitVec.ofNat 5 o) :: storeLoop (clear regs reg) (o + 8)
termination_by regs.toNat
decreasing_by
  rename_i h
  exact clear_lt (next_bit h)

/-- None where an assertion fails. -/
def riscvPushOffset (regs : BitVec 32) (off : Nat) : Option (List Inst) := do
  let offset := (countBits regs + off) * 8
  guard (offset ≤ 0x7FF)
  return .addi sp sp (-BitVec.ofNat 12 offset) :: storeLoop regs 0

def riscvPush (regs : BitVec 32) : Option (List Inst) := riscvPushOffset regs 0

def loadLoop (regs : BitVec 32) (o : Nat) : Option (List Inst × Nat) :=
  if regs = 0 then some ([], o)
  else do
    let reg := nextRegInList regs 0
    let pair ← createCldspImmPair (BitVec.ofNat 32 o)
    let rest ← loadLoop (clear regs reg) (o + 8)
    return (.cLdsp (BitVec.ofNat 5 reg) pair.1 pair.2 :: rest.1, rest.2)
termination_by regs.toNat
decreasing_by
  rename_i h
  exact clear_lt (next_bit h)

def riscvPop (regs : BitVec 32) : Option (List Inst) := do
  let loop ← loadLoop regs 0
  match createCAddi16spPair (BitVec.ofNat 32 loop.2) with
  | some pair => return loop.1 ++ [.cAddi16sp pair.1 pair.2]
  | none =>
    guard (loop.2 ≤ 0x7FF)
    return loop.1 ++ [.addi sp sp (BitVec.ofNat 12 loop.2)]

def regList (regs : BitVec 32) : List Reg := (members regs).map (BitVec.ofNat 5)

variable {regs : BitVec 32} {k : Nat}

theorem regList_zero : regList 0 = [] := by
  rw [regList, members_zero, List.map_nil]

theorem regList_lowest (h : Lowest regs k) : regList regs = BitVec.ofNat 5 k :: regList (clear regs k) := by
  rw [regList, h.members, List.map_cons, regList]

theorem regList_length : (regList regs).length = (members regs).length := List.length_map _

theorem storeLoop_eq (o : Nat) : storeLoop regs o = stores (regList regs) o := by
  induction regs using lowest_induction generalizing o with
  | zero => rw [storeLoop, if_pos rfl, regList_zero, stores]
  | step regs k hk ih =>
      rw [storeLoop, if_neg hk.ne_zero, hk.next]
      dsimp only
      rw [ih, regList_lowest hk, stores]

theorem loadLoop_eq (o : Nat) :
    loadLoop regs o = (loads (regList regs) o).map fun is => (is, o + 8 * (regList regs).length) := by
  induction regs using lowest_induction generalizing o with
  | zero => rw [loadLoop, if_pos rfl, regList_zero, loads, Option.map_some, List.length_nil, Nat.mul_zero, Nat.add_zero]
  | step regs k hk ih =>
      rw [loadLoop, if_neg hk.ne_zero, hk.next]
      dsimp only
      rw [ih, regList_lowest hk, loads, List.length_cons]
      cases createCldspImmPair (BitVec.ofNat 32 o) with
      | none => rfl
      | some pair =>
          cases loads (regList (clear regs k)) (o + 8) with
          | none => rfl
          | some is =>
              show some (_, _) = some (_, _)
              rw [show o + 8 + 8 * (regList (clear regs k)).length = o + 8 * ((regList (clear regs k)).length + 1) by omega]

theorem riscvPush_eq : riscvPush regs = some (push (regList regs)) := by
  have hlen : (members regs).length ≤ 32 := members_length_le
  rw [riscvPush, riscvPushOffset, storeLoop_eq, countBits_eq, ← regList_length, Nat.add_zero, push, Nat.mul_comm]
  rw [← regList_length] at hlen
  simp [guard, show 8 * (regList regs).length ≤ 0x7FF by omega]

theorem loads_isSome {rs : List Reg} {o : Nat} (ho : o + rs.length ≤ 64) : (loads rs (8 * o)).isSome := by
  induction rs generalizing o with
  | nil => rfl
  | cons r rs ih =>
      rw [List.length_cons] at ho
      obtain ⟨is, his⟩ := Option.isSome_iff_exists.mp (@ih (o + 1) (by omega))
      have hall : ∀ k : BitVec 6, (createCldspImmPair (BitVec.ofNat 32 (8 * k.toNat))).isSome := by decide
      have hpair := hall (BitVec.ofNat 6 o)
      rw [BitVec.toNat_ofNat, Nat.mod_eq_of_lt (by omega)] at hpair
      obtain ⟨pair, hpair⟩ := Option.isSome_iff_exists.mp hpair
      rw [loads, hpair, show 8 * o + 8 = 8 * (o + 1) by omega, his]
      rfl

theorem riscvPop_eq : riscvPop regs = pop (regList regs) := by
  have hlen : (regList regs).length ≤ 32 := regList_length.le.trans members_length_le
  rw [riscvPop, loadLoop_eq, pop]
  obtain ⟨is, his⟩ := Option.isSome_iff_exists.mp (@loads_isSome (regList regs) 0 (by omega))
  rw [show loads (regList regs) 0 = some is from his, Nat.zero_add]
  simp only [Option.map_some, Option.bind_eq_bind, Option.bind_some]
  cases createCAddi16spPair (BitVec.ofNat 32 (8 * (regList regs).length)) with
  | some pair => rfl
  | none => simp [guard, show 8 * (regList regs).length ≤ 0x7FF by omega]

theorem riscvPop_isSome : (riscvPop regs).isSome := by
  have hlen : (regList regs).length ≤ 32 := regList_length.le.trans members_length_le
  obtain ⟨is, his⟩ := Option.isSome_iff_exists.mp (@loads_isSome (regList regs) 0 (by omega))
  rw [riscvPop_eq, pop, show loads (regList regs) 0 = some is from his]
  rfl

end Loops

section Chains

variable {regs new : BitVec 32} {k : Nat} {s t u v : State} {r : Reg}

/-- A set of registers that can be on the stack. -/
structure Saveable (regs : BitVec 32) : Prop where
  nonempty : regs ≠ 0
  zero : regs.getLsbD 0 = false
  sp : regs.getLsbD 2 = false

/-- Some code has run that may lose the registers of a set, but neither the stack
pointer nor what the set has above it. -/
structure Clobbered (regs : BitVec 32) (u v : State) : Prop where
  stack : v.get sp = u.get sp
  saved : ∀ x, (x - u.get sp).toNat < 8 * (members regs).length → v.mem x = u.mem x
  others : ∀ r : Reg, regs.getLsbD r.toNat = false → v.get r = u.get r

/-- The states in which the registers of a set are on the stack, by pushes with the
later ones below, from a state on. -/
inductive Saved (s : State) : BitVec 32 → State → Prop
  | start : Saved s 0 s
  | push {regs new t is u} : Saved s regs t → Saveable new →
      (∀ j k, new.getLsbD j = true → regs.getLsbD k = true → j < k) → riscvPush new = some is →
      Clobbered (regs ||| new) (execAll is t) u → Saved s (regs ||| new) u

structure Kept (s : State) (regs : BitVec 32) (u : State) : Prop where
  bits : regs.getLsbD 0 = false ∧ regs.getLsbD 2 = false
  stack : u.get sp = s.get sp - BitVec.ofNat 64 (8 * (members regs).length)
  saved : ∀ i r, (regList regs)[i]? = some r → load64 u.mem (past (u.get sp) (8 * i)) = s.get r
  others : ∀ r : Reg, r ≠ sp → regs.getLsbD r.toNat = false → u.get r = s.get r

theorem mem_regList : r ∈ regList regs ↔ regs.getLsbD r.toNat = true := by
  rw [regList, List.mem_map]
  constructor
  · rintro ⟨k, hk, rfl⟩
    rw [mem_members] at hk
    rwa [BitVec.toNat_ofNat, Nat.mod_eq_of_lt (lt_of_bit hk)]
  · exact fun h => ⟨r.toNat, mem_members.mpr h, BitVec.ofNat_toNat .. ▸ BitVec.setWidth_eq r⟩

theorem sp_notMem (h : regs.getLsbD 2 = false) : sp ∉ regList regs := by
  rw [mem_regList, show sp.toNat = 2 from rfl, h]
  decide

theorem regList_or (hbelow : ∀ j k, new.getLsbD j = true → regs.getLsbD k = true → j < k) :
    regList (regs ||| new) = regList new ++ regList regs := by
  rw [regList, members_or hbelow, List.map_append, regList, regList]

theorem execAll_push {is : List Inst} (hsp : new.getLsbD 2 = false) (his : riscvPush new = some is) :
    execAll is t = (pushed (regList new) t).goto (past t.pc (bytes is)) := by
  rw [riscvPush_eq, Option.some.injEq] at his
  rw [← his]
  exact push_exec (sp_notMem hsp) (regList_length.le.trans members_length_le)

theorem Kept.push {is : List Inst} (h : Kept s regs t) (hnew : Saveable new)
    (hbelow : ∀ j k, new.getLsbD j = true → regs.getLsbD k = true → j < k) (his : riscvPush new = some is) :
    Kept s (regs ||| new) (execAll is t) := by
  have hlen : (regList new).length ≤ 32 := regList_length.le.trans members_length_le
  have hlen' : (regList regs).length ≤ 32 := regList_length.le.trans members_length_le
  have hgetsp : (execAll is t).get sp = t.get sp - BitVec.ofNat 64 (8 * (regList new).length) := by
    rw [execAll_push hnew.sp his, State.get_goto, pushed_sp]
  have hmem : (execAll is t).mem = storeAll t.mem (t.get sp - BitVec.ofNat 64 (8 * (regList new).length))
      ((regList new).map t.get) := by
    rw [execAll_push hnew.sp his]
    exact pushed_mem
  refine ⟨⟨?_, ?_⟩, ?_, fun i r hi => ?_, fun r hr hbit => ?_⟩
  · rw [BitVec.getLsbD_or, h.bits.1, hnew.zero, Bool.or_self]
  · rw [BitVec.getLsbD_or, h.bits.2, hnew.sp, Bool.or_self]
  · rw [hgetsp, h.stack, members_or hbelow, List.length_append, regList_length, Nat.mul_add, BitVec.ofNat_add, sub_sub,
      add_comm]
  · rw [regList_or hbelow] at hi
    rw [hmem, hgetsp]
    by_cases hlt : i < (regList new).length
    · rw [List.getElem?_append_left hlt] at hi
      have hr := mem_regList.mp (List.mem_of_getElem? hi)
      have hne : r ≠ sp := fun heq => absurd (heq ▸ hr) (by rw [show sp.toNat = 2 from rfl, hnew.sp]; decide)
      have hout : regs.getLsbD r.toNat = false := by
        by_contra hbit
        exact lt_irrefl _ (hbelow _ _ hr (by simpa using hbit))
      rw [← h.others r hne hout]
      refine load64_storeAll (by rw [List.length_map]; omega) ?_
      rw [List.getElem?_map, hi, Option.map_some]
    · rw [List.getElem?_append_right (by omega)] at hi
      have hsaved := h.saved _ r hi
      obtain ⟨hlt', -⟩ := List.getElem?_eq_some_iff.mp hi
      have haddr : past (t.get sp - BitVec.ofNat 64 (8 * (regList new).length)) (8 * i) =
          past (t.get sp) (8 * (i - (regList new).length)) := by
        rw [past, past, show 8 * i = 8 * (regList new).length + 8 * (i - (regList new).length) by omega, BitVec.ofNat_add,
          ← add_assoc, sub_add_cancel]
      rw [load64_storeAll_apart, haddr, hsaved]
      intro j hj
      rw [List.length_map] at hj
      have hfar : past (t.get sp - BitVec.ofNat 64 (8 * (regList new).length)) (8 * i) =
          t.get sp - BitVec.ofNat 64 (8 * (regList new).length) + BitVec.ofNat 64 (8 * j) + BitVec.ofNat 64 (8 * (i - j)) := by
        rw [past, add_assoc, ← BitVec.ofNat_add, show 8 * j + 8 * (i - j) = 8 * i by omega]
      rw [hfar]
      exact apart_add _ (by omega) (by omega)
  · rw [BitVec.getLsbD_or, Bool.or_eq_false_iff] at hbit
    rw [execAll_push hnew.sp his, State.get_goto, pushed_get hr, h.others r hr hbit.1]

theorem Kept.clobbered (h : Kept s regs u) (hv : Clobbered regs u v) : Kept s regs v := by
  refine ⟨h.bits, hv.stack.trans h.stack, fun i r hi => ?_, fun r hr hbit => (hv.others r hbit).trans (h.others r hr hbit)⟩
  rw [← h.saved i r hi, hv.stack]
  refine load64_congr fun j hj => hv.saved _ ?_
  obtain ⟨hlt, -⟩ := List.getElem?_eq_some_iff.mp hi
  have hlen : (members regs).length ≤ 32 := members_length_le
  rw [regList_length] at hlt
  rw [past, add_assoc, ← BitVec.ofNat_add, add_sub_cancel_left, BitVec.toNat_ofNat, Nat.mod_eq_of_lt (by omega)]
  omega

theorem Saved.kept (h : Saved s regs u) : Kept s regs u := by
  induction h with
  | start =>
      refine ⟨⟨by decide, by decide⟩, ?_, fun i r hi => ?_, fun _ _ _ => rfl⟩
      · rw [members_zero, List.length_nil, Nat.mul_zero]
        exact (BitVec.sub_zero _).symm
      · rw [regList_zero] at hi
        exact absurd hi (by simp)
  | push _ hnew hbelow his hclobbered ih => exact (ih.push hnew hbelow his).clobbered hclobbered

theorem loaded_of_mem {rs : List Reg} {o i : Nat} (hnodup : rs.Nodup) (hzero : Rv.zero ∉ rs) (hsp : Rv.sp ∉ rs)
    (hi : rs[i]? = some r) : (loaded rs o u).get r = load64 u.mem (past (u.get sp) (o + 8 * i)) := by
  induction rs generalizing u o i with
  | nil => exact absurd hi (by simp)
  | cons r' rs ih =>
      obtain ⟨hout, hnodup⟩ := List.nodup_cons.mp hnodup
      obtain ⟨hzero', hzero⟩ := not_or.mp (List.mem_cons.not.mp hzero)
      obtain ⟨hsp', hsp⟩ := not_or.mp (List.mem_cons.not.mp hsp)
      rw [loaded]
      cases i with
      | zero =>
          obtain rfl : r' = r := Option.some.inj hi
          rw [loaded_get hout, State.get_set_self (Ne.symm hzero'), Nat.mul_zero, Nat.add_zero]
      | succ i =>
          rw [ih hnodup hzero hsp hi, State.set_mem, State.get_set_of_ne hsp', Nat.mul_succ, Nat.add_comm (8 * i) 8,
            Nat.add_assoc]

theorem regList_nodup : (regList regs).Nodup := by
  have hnodup : (members regs).Nodup := members_sorted.imp fun hlt => hlt.ne
  refine List.Nodup.map_on (fun j hj k hk heq => ?_) hnodup
  have hnat := congrArg BitVec.toNat heq
  rwa [BitVec.toNat_ofNat, BitVec.toNat_ofNat, Nat.mod_eq_of_lt (lt_of_bit (mem_members.mp hj)),
    Nat.mod_eq_of_lt (lt_of_bit (mem_members.mp hk))] at hnat

theorem Kept.pop {is : List Inst} (h : Kept s regs u) (his : riscvPop regs = some is) (r : Reg) :
    (execAll is u).get r = s.get r := by
  have hlen : (regList regs).length ≤ 32 := regList_length.le.trans members_length_le
  have hsp : Rv.sp ∉ regList regs := sp_notMem h.bits.2
  have hzero : Rv.zero ∉ regList regs := by
    rw [mem_regList, show Rv.zero.toNat = 0 from rfl, h.bits.1]
    decide
  rw [riscvPop_eq] at his
  have hrun : execAll is u = _ := pop_exec (s := u) (a := u.pc) his hsp hlen
  rw [hrun, State.get_goto, popped]
  by_cases hr : r = Rv.sp
  · rw [hr, State.get_set_self (by decide), h.stack, regList_length, sub_add_cancel]
  · rw [State.get_set_of_ne hr]
    by_cases hmem : r ∈ regList regs
    · obtain ⟨i, hi⟩ := List.getElem?_of_mem hmem
      rw [loaded_of_mem regList_nodup hzero hsp hi, Nat.zero_add, h.saved i r hi]
    · rw [loaded_get hmem, h.others r hr]
      rwa [mem_regList, Bool.not_eq_true] at hmem

/-- A pop of the union gives back what a chain of pushes has saved, and no assertion
fails for any set. -/
theorem push_pop_inverse :
    (∀ regs, Saveable regs → (riscvPush regs).isSome ∧ (riscvPop regs).isSome) ∧
    (∀ s u regs is js, Saveable regs → riscvPush regs = some is → riscvPop regs = some js →
      Clobbered regs (execAll is s) u → ∀ r, (execAll js u).get r = s.get r) ∧
    ∀ s u regs, Saved s regs u → regs ≠ 0 → ∃ js, riscvPop regs = some js ∧ ∀ r, (execAll js u).get r = s.get r := by
  refine ⟨fun regs _ => ⟨?_, riscvPop_isSome⟩, fun s u regs is js hregs his hjs hu r => ?_, fun s u regs h _ => ?_⟩
  · rw [riscvPush_eq]
    rfl
  · have hzero : (0 : BitVec 32) ||| regs = regs := BitVec.zero_or
    have hsaved : Saved s (0 ||| regs) u :=
      Saved.start.push hregs (fun j k _ hk => absurd hk (by simp)) his (hzero.symm ▸ hu)
    exact (hzero ▸ hsaved.kept).pop hjs r
  · obtain ⟨js, hjs⟩ := Option.isSome_iff_exists.mp (@riscvPop_isSome regs)
    exact ⟨js, hjs, h.kept.pop hjs⟩

theorem Clobbered.set {x : Reg} (hsp : x ≠ sp) (hx : regs.getLsbD x.toNat = true) (value : BitVec 64) :
    Clobbered regs u (u.set x value) := by
  refine ⟨State.get_set_of_ne hsp.symm, fun y _ => by rw [State.set_mem], fun r hr => State.get_set_of_ne ?_⟩
  rintro rfl
  rw [hx] at hr
  cases hr

/-- Two pushes, with a register lost after each: one pop brings both back. -/
theorem push_pop_inverse_s1 : ∃ is is' js u, riscvPush 0x400 = some is ∧ riscvPush 0x200 = some is' ∧
    riscvPop 0x600 = some js ∧
    u = (execAll is' ((execAll is ⟨0, fun r => r.setWidth 64, fun _ => 0⟩).set a0 5)).set s1 7 ∧
    (execAll js u).get s1 = 9 ∧ (execAll js u).get a0 = 10 := by
  obtain ⟨hnone, -, hchain⟩ := push_pop_inverse
  have hfirst : Saveable 0x400 := ⟨by decide, by decide, by decide⟩
  have hsecond : Saveable 0x200 := ⟨by decide, by decide, by decide⟩
  obtain ⟨is, his⟩ := Option.isSome_iff_exists.mp (hnone _ hfirst).1
  obtain ⟨is', his'⟩ := Option.isSome_iff_exists.mp (hnone _ hsecond).1
  have hbelow : ∀ j k, (0x200 : BitVec 32).getLsbD j = true → (0 ||| 0x400 : BitVec 32).getLsbD k = true → j < k := by
    intro j k hj hk
    have hall : ∀ j < 32, ∀ k < 32, (0x200 : BitVec 32).getLsbD j = true →
        (0 ||| 0x400 : BitVec 32).getLsbD k = true → j < k := by decide
    exact hall j (BitVec.lt_of_getLsbD hj) k (BitVec.lt_of_getLsbD hk) hj hk
  have hsaved := (Saved.start (s := ⟨0, fun r => r.setWidth 64, fun _ => 0⟩)).push hfirst
    (fun j k _ hk => absurd hk (by simp)) his (.set (x := a0) (by decide) (by decide) 5)
  obtain ⟨js, hjs, hget⟩ := hchain _ _ _ (hsaved.push hsecond hbelow his' (.set (x := s1) (by decide) (by decide) 7)) (by decide)
  exact ⟨is, is', js, _, his, his', hjs, rfl, by rw [hget]; decide, by rw [hget]; decide⟩

end Chains

end Mambo.RvStack
