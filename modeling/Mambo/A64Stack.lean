import Mambo.A64Emit
import Mambo.RegLists

namespace Mambo.A64Stack

open ByteMemory A64 A64Emit RegLists

section Code

def popPair (rt rt2 : Reg) : Inst := .ldpPost 2 rt2 xzr rt

def lastRegInList (reglist : BitVec 32) : Nat → Option Nat
  | 0 => if reglist.getLsbD 0 then some 0 else none
  | start + 1 => if reglist.getLsbD (start + 1) then some (start + 1) else lastRegInList reglist start

def highestTwo (regs : BitVec 32) : Option (Nat × Nat) :=
  (lastRegInList regs 31).bind fun first =>
    match first with
    | 0 => none
    | before + 1 => (lastRegInList regs before).map fun second => (before + 1, second)

def reg (k : Nat) : Reg := BitVec.ofNat 5 k

/-- The loop over pairs; each round takes two of at most 32 registers. -/
def pushPairs : Nat → BitVec 32 → Option (List Inst)
  | 0, regs => if regs = 0 then some [] else none
  | rounds + 1, regs =>
    if regs = 0 then some []
    else
      (highestTwo regs).bind fun top =>
        (pushPairs rounds (clear (clear regs top.1) top.2)).map (pushPairReg (reg top.2) (reg top.1) :: ·)

def emitA64Push (regs : BitVec 32) : Option (List Inst) :=
  if countBits regs % 2 = 1 then
    (lastRegInList regs 31).bind fun first =>
      (pushPairs 16 (clear regs first)).map (pushReg (reg first) :: ·)
  else pushPairs 16 regs

def emitA64Pop (regs : BitVec 32) : List Inst :=
  if regs = 0 then []
  else
    let first := nextRegInList regs 0
    let second := nextRegInList regs (first + 1)
    if second < regInvalid then popPair (reg first) (reg second) :: emitA64Pop (clear (clear regs first) second)
    else popReg (reg first) :: emitA64Pop (clear regs first)
termination_by regs.toNat
decreasing_by
  · rename_i h _
    exact Nat.lt_of_le_of_lt (by rw [clear, BitVec.toNat_and]; exact Nat.and_le_left) (clear_lt (next_bit h))
  · rename_i h _
    exact clear_lt (next_bit h)

def execAll (is : List Inst) (s : State) : State := is.foldl (fun s i => exec i s) s

end Code

section Instructions

variable {s u v : State} {r a b : Reg}

theorem pushPair_exec (a b : Reg) (u : State) : exec (pushPairReg a b) u =
    { u with pc := u.pc + 4, sp := u.sp - BitVec.ofNat 64 16,
             mem := store64 (store64 u.mem (u.sp - BitVec.ofNat 64 16) (u.get a)) (u.sp - BitVec.ofNat 64 8) (u.get b) } := by
  have himm : (-2 : BitVec 7).signExtend 64 <<< 3 = -BitVec.ofNat 64 16 := by decide
  have hsecond : u.sp + -BitVec.ofNat 64 16 + 8 = u.sp - BitVec.ofNat 64 8 := by
    rw [add_assoc, sub_eq_add_neg]
    rfl
  rw [pushPairReg, exec, State.getBase, if_pos rfl, himm, hsecond, ← sub_eq_add_neg]
  rfl

theorem pushReg_exec (a : Reg) (u : State) : exec (pushReg a) u =
    { u with pc := u.pc + 4, sp := u.sp - BitVec.ofNat 64 16, mem := store64 u.mem (u.sp - BitVec.ofNat 64 16) (u.get a) } := by
  have himm : (-16 : BitVec 9).signExtend 64 = -BitVec.ofNat 64 16 := by decide
  rw [pushReg, exec, State.getBase, if_pos rfl, himm, ← sub_eq_add_neg]
  rfl

theorem popPair_exec (a b : Reg) (u : State) : exec (popPair a b) u =
    { (u.set a (load64 u.mem u.sp)).set b (load64 u.mem (u.sp + 8)) with pc := u.pc + 4, sp := u.sp + 16 } := by
  have himm : (2 : BitVec 7).signExtend 64 <<< 3 = (16 : Word) := by decide
  rw [popPair, exec, State.getBase, if_pos rfl, himm]
  rw [State.setBase, if_pos rfl, State.next]
  simp only [State.goto, State.set_pc]

theorem popReg_exec (a : Reg) (u : State) : exec (popReg a) u =
    { u.set a (load64 u.mem u.sp) with pc := u.pc + 4, sp := u.sp + 16 } := by
  have himm : (16 : BitVec 9).signExtend 64 = (16 : Word) := by decide
  rw [popReg, exec, State.getBase, if_pos rfl, himm]
  rw [State.setBase, if_pos rfl, State.next]
  simp only [State.goto, State.set_pc]

end Instructions

section Lists

variable {regs : BitVec 32} {k : Nat}

theorem lastRegInList_eq {start : Nat} (hbit : regs.getLsbD k = true) (hle : k ≤ start)
    (hnone : ∀ j, k < j → j ≤ start → regs.getLsbD j = false) : lastRegInList regs start = some k := by
  induction start with
  | zero =>
    obtain rfl := Nat.le_zero.mp hle
    rw [lastRegInList, if_pos hbit]
  | succ start ih =>
    rw [lastRegInList]
    rcases Nat.lt_or_eq_of_le hle with hlt | rfl
    · rw [if_neg (by rw [hnone _ hlt (Nat.le_refl _)]; decide)]
      exact ih (by omega) fun j hj hjs => hnone j hj (by omega)
    · rw [if_pos hbit]

theorem highest_last (h : Highest regs k) : lastRegInList regs 31 = some k :=
  lastRegInList_eq h.bit (Nat.le_of_lt_succ (lt_of_bit h.bit)) fun j hj _ => h.above j hj

theorem highest_of_members {ms : List Nat} (h : members regs = ms ++ [k]) : Highest regs k := by
  have hsorted : (members regs).Pairwise (· < ·) := members_sorted
  rw [h] at hsorted
  refine ⟨mem_members.mp (by rw [h]; simp), fun j hj => ?_⟩
  by_contra hbit
  have hmem : j ∈ members regs := mem_members.mpr (by simpa using hbit)
  rw [h, List.mem_append, List.mem_singleton] at hmem
  rcases hmem with hmem | rfl
  · exact absurd ((List.pairwise_append.mp hsorted).2.2 j hmem k (List.mem_singleton_self k)) (by omega)
  · exact absurd hj (lt_irrefl _)

theorem members_clear_last {ms : List Nat} (h : members regs = ms ++ [k]) : members (clear regs k) = ms := by
  have hlast := (highest_of_members h).members
  rw [h] at hlast
  exact (List.append_cancel_right hlast).symm

theorem highestTwo_eq {ms : List Nat} {j : Nat} (h : members regs = ms ++ [j, k]) : highestTwo regs = some (k, j) := by
  have hk : members regs = (ms ++ [j]) ++ [k] := by rw [h]; simp
  have hhigh := highest_of_members hk
  have hj := highest_of_members (members_clear_last hk)
  have hjk : j < k := by
    have hsorted : (members regs).Pairwise (· < ·) := members_sorted
    rw [hk] at hsorted
    exact (List.pairwise_append.mp hsorted).2.2 j (by simp) k (by simp)
  obtain ⟨before, rfl⟩ : ∃ before, k = before + 1 := ⟨k - 1, by omega⟩
  have hbit := hj.bit
  rw [getLsbD_clear, Bool.and_eq_true] at hbit
  have hsecond : lastRegInList regs before = some j := by
    refine lastRegInList_eq hbit.1 (by omega) fun i hi hib => ?_
    have habove := hj.above i hi
    rwa [getLsbD_clear, decide_eq_true (by omega : i ≠ before + 1), Bool.and_true] at habove
  rw [highestTwo, highest_last hhigh, Option.bind_some]
  dsimp only
  rw [hsecond, Option.map_some]

theorem members_lowest {ms : List Nat} (h : members regs = k :: ms) : Lowest regs k := by
  have hsorted : (members regs).Pairwise (· < ·) := members_sorted
  rw [h] at hsorted
  refine ⟨mem_members.mp (by rw [h]; exact List.mem_cons_self), fun j hj => ?_⟩
  by_contra hbit
  have hmem : j ∈ members regs := mem_members.mpr (by simpa using hbit)
  rw [h] at hmem
  rcases List.mem_cons.mp hmem with rfl | hmem
  · exact lt_irrefl _ hj
  · exact absurd ((List.pairwise_cons.mp hsorted).1 j hmem) (by omega)

theorem members_clear_first {ms : List Nat} (h : members regs = k :: ms) : members (clear regs k) = ms := by
  have hfirst := (members_lowest h).members
  rw [h] at hfirst
  exact (List.cons.inj hfirst).2.symm

theorem next_second {ms : List Nat} {j : Nat} (h : members regs = k :: j :: ms) : nextRegInList regs (k + 1) = j := by
  have hj := members_lowest (members_clear_first h)
  have hbit := hj.bit
  rw [getLsbD_clear, Bool.and_eq_true, decide_eq_true_eq] at hbit
  have hkj : k < j := by
    have hsorted : (members regs).Pairwise (· < ·) := members_sorted
    rw [h] at hsorted
    exact (List.pairwise_cons.mp hsorted).1 j List.mem_cons_self
  refine nextRegInList_eq hbit.1 hkj fun i hi hij => ?_
  have hbelow := hj.below i hij
  rwa [getLsbD_clear, decide_eq_true (by omega : i ≠ k), Bool.and_true] at hbelow

theorem next_none (h : members regs = [k]) : nextRegInList regs (k + 1) = regInvalid := by
  refine nextRegInList_none fun i hi => ?_
  by_contra hbit
  have hmem : i ∈ members regs := mem_members.mpr (by simpa using hbit)
  rw [h, List.mem_singleton] at hmem
  omega

end Lists

section Slots

variable {s u v : State} {ms : List Nat} {a b k : Nat}

/-- Pairs of registers from an offset on, the last one alone if there is no other. -/
def SlotsAt (s u : State) : Nat → List Nat → Prop
  | _, [] => True
  | o, [a] => load64 u.mem (u.sp + BitVec.ofNat 64 o) = s.get (reg a)
  | o, a :: b :: ms =>
    load64 u.mem (u.sp + BitVec.ofNat 64 o) = s.get (reg a) ∧
      load64 u.mem (u.sp + BitVec.ofNat 64 (o + 8)) = s.get (reg b) ∧ SlotsAt s u (o + 16) ms

def depth (ms : List Nat) : Nat := 16 * ((ms.length + 1) / 2)

theorem depth_singleton : depth [k] = 16 := by rw [depth, List.length_singleton]

theorem depth_cons_cons : depth (a :: b :: ms) = 16 + depth ms := by
  rw [depth, depth, List.length_cons, List.length_cons]
  omega

theorem SlotsAt.congr {o o' : Nat} (h : SlotsAt s u o ms)
    (hsame : ∀ d, d + 8 ≤ depth ms →
      load64 v.mem (v.sp + BitVec.ofNat 64 (o' + d)) = load64 u.mem (u.sp + BitVec.ofNat 64 (o + d))) :
    SlotsAt s v o' ms := by
  induction o, ms using SlotsAt.induct generalizing o' with
  | case1 o => trivial
  | case2 o a => exact (hsame 0 (by rw [depth, List.length_singleton]; decide)).trans h
  | case3 o a b ms ih =>
    rw [depth_cons_cons] at hsame
    obtain ⟨ha, hb, hrest⟩ := h
    refine ⟨(hsame 0 (by omega)).trans ha, (hsame 8 (by omega)).trans hb, ih hrest fun d hd => ?_⟩
    rw [Nat.add_assoc o', Nat.add_assoc o]
    exact hsame (16 + d) (by omega)

/-- Registers that are saved on the stack below the stack pointer of `s`, every other one
as in `s`. -/
structure Kept (s : State) (ms : List Nat) (u : State) : Prop where
  stack : u.sp = s.sp - BitVec.ofNat 64 (depth ms)
  slots : SlotsAt s u 0 ms
  others : ∀ r : Reg, r.toNat ∉ ms → u.get r = s.get r

theorem reg_toNat (hk : k < 32) : (reg k).toNat = k := by
  rw [reg, BitVec.toNat_ofNat, Nat.mod_eq_of_lt hk]

theorem sub_add_ofNat (p : Word) (n d : Nat) : p - BitVec.ofNat 64 n + BitVec.ofNat 64 (n + d) = p + BitVec.ofNat 64 d := by
  rw [BitVec.ofNat_add, ← add_assoc, sub_add_cancel]

theorem add_ofNat_assoc (p : Word) (n d : Nat) : p + BitVec.ofNat 64 n + BitVec.ofNat 64 d = p + BitVec.ofNat 64 (n + d) := by
  rw [BitVec.ofNat_add, add_assoc]

theorem load_below {m : Word → Bytes.Byte} {p w : Word} {n d : Nat} (hn : 8 ≤ n) (hd : n + d + 8 ≤ 2 ^ 64) :
    load64 (store64 m (p - BitVec.ofNat 64 n) w) (p + BitVec.ofNat 64 d) = load64 m (p + BitVec.ofNat 64 d) := by
  rw [← sub_add_ofNat p n d]
  exact load64_store64_apart (apart_add _ (by omega) (by omega)) w

theorem depth_le (hlen : ms.length ≤ 32) : depth ms ≤ 512 := by
  rw [depth]
  omega

theorem get_outside (h : Kept s ms u) (ha : a < 31) (hams : a ∉ ms) : u.get (reg a) = s.get (reg a) :=
  h.others _ (by rwa [reg_toNat (by omega)])

theorem Kept.pushPair (h : Kept s ms u) (ha : a < 31) (hb : b < 31) (hams : a ∉ ms) (hbms : b ∉ ms)
    (hlen : ms.length ≤ 32) : Kept s (a :: b :: ms) (exec (pushPairReg (reg a) (reg b)) u) := by
  have hdepth := depth_le hlen
  have hsecond : u.sp - BitVec.ofNat 64 16 + BitVec.ofNat 64 8 = u.sp - BitVec.ofNat 64 8 := by
    have hsplit : BitVec.ofNat 64 16 = BitVec.ofNat 64 8 + BitVec.ofNat 64 8 := rfl
    rw [hsplit, ← sub_sub, sub_add_cancel]
  rw [pushPair_exec]
  refine ⟨?_, ⟨?_, ?_, ?_⟩, fun r hr => ?_⟩
  · dsimp only
    rw [h.stack, depth_cons_cons, BitVec.ofNat_add, sub_sub, add_comm]
  · dsimp only
    have hapart : Apart (u.sp - BitVec.ofNat 64 16) (u.sp - BitVec.ofNat 64 16 + BitVec.ofNat 64 8) :=
      apart_add _ (by decide) (by decide)
    rw [← get_outside h ha hams, ← hsecond, BitVec.add_zero, load64_store64_apart hapart.symm,
      load64_store64 (by decide)]
  · dsimp only
    rw [← get_outside h hb hbms, Nat.zero_add, hsecond, load64_store64 (by decide)]
  · refine h.slots.congr fun d hd => ?_
    dsimp only
    rw [Nat.zero_add, Nat.zero_add, sub_add_ofNat, load_below (by decide) (by omega), load_below (by decide) (by omega)]
  · rw [List.mem_cons, List.mem_cons, not_or, not_or] at hr
    exact h.others r hr.2.2

theorem Kept.pushReg (h : Kept s [] u) (hk : k < 31) : Kept s [k] (exec (A64Emit.pushReg (reg k)) u) := by
  have hsp : u.sp = s.sp := h.stack.trans (BitVec.sub_zero _)
  rw [pushReg_exec]
  refine ⟨?_, ?_, fun r hr => h.others r List.not_mem_nil⟩
  · dsimp only
    rw [hsp, depth_singleton]
  · have hvalue := get_outside h hk List.not_mem_nil
    rw [SlotsAt, ← hvalue]
    dsimp only
    rw [BitVec.add_zero, load64_store64 (by decide)]

theorem reg_ne (hk : k < 31) : reg k ≠ xzr := by
  intro heq
  have hnat := congrArg BitVec.toNat heq
  rw [reg_toNat (by omega)] at hnat
  exact absurd hnat (by change k ≠ 31; omega)

theorem Kept.popPair (h : Kept s (a :: b :: ms) u) (ha : a < 31) (hb : b < 31) (hab : a ≠ b) :
    Kept s ms (exec (A64Stack.popPair (reg a) (reg b)) u) := by
  have hne : reg a ≠ reg b := by
    intro heq
    have hnat := congrArg BitVec.toNat heq
    rw [reg_toNat (by omega), reg_toNat (by omega)] at hnat
    exact hab hnat
  obtain ⟨hslot, hslot', hrest⟩ := h.slots
  rw [popPair_exec]
  refine ⟨?_, ?_, fun r hr => ?_⟩
  · dsimp only
    rw [h.stack, depth_cons_cons, Nat.add_comm, BitVec.ofNat_add, ← sub_sub]
    exact sub_add_cancel _ _
  · refine hrest.congr fun d hd => ?_
    simp only [State.set_mem, Nat.zero_add]
    exact congrArg _ (add_ofNat_assoc u.sp 16 d)
  · change ((u.set (reg a) (load64 u.mem u.sp)).set (reg b) (load64 u.mem (u.sp + 8))).get r = s.get r
    by_cases hrb : r = reg b
    · rw [hrb, State.get_set_self (reg_ne hb)]
      exact hslot'
    · rw [State.get_set_of_ne hrb]
      by_cases hra : r = reg a
      · rw [hra, State.get_set_self (reg_ne ha)]
        exact (congrArg _ (BitVec.add_zero _).symm).trans hslot
      · rw [State.get_set_of_ne hra]
        refine h.others r ?_
        rw [List.mem_cons, List.mem_cons, not_or, not_or]
        refine ⟨fun heq => hra ?_, fun heq => hrb ?_, hr⟩
        · exact BitVec.eq_of_toNat_eq (by rw [heq, reg_toNat (by omega)])
        · exact BitVec.eq_of_toNat_eq (by rw [heq, reg_toNat (by omega)])

theorem Kept.popReg (h : Kept s [k] u) (hk : k < 31) : Kept s [] (exec (A64Emit.popReg (reg k)) u) := by
  have hslot : load64 u.mem (u.sp + BitVec.ofNat 64 0) = s.get (reg k) := h.slots
  rw [popReg_exec]
  refine ⟨?_, trivial, fun r _ => ?_⟩
  · dsimp only
    rw [h.stack, depth_singleton]
    exact (sub_add_cancel s.sp (BitVec.ofNat 64 16)).trans (BitVec.sub_zero s.sp).symm
  · change (u.set (reg k) (load64 u.mem u.sp)).get r = s.get r
    by_cases hr : r = reg k
    · rw [hr, State.get_set_self (reg_ne hk)]
      exact (congrArg _ (BitVec.add_zero _).symm).trans hslot
    · rw [State.get_set_of_ne hr]
      refine h.others r ?_
      rw [List.mem_singleton]
      exact fun heq => hr (BitVec.eq_of_toNat_eq (by rw [heq, reg_toNat (by omega)]))

end Slots

section Emission

variable {s u : State} {ms ns : List Nat} {regs new : BitVec 32}

theorem eq_zero_of_members (h : members regs = []) : regs = 0 := by
  by_contra hne
  obtain ⟨k, hk⟩ := exists_bit hne
  have hmem := mem_members.mpr hk
  rw [h] at hmem
  exact absurd hmem List.not_mem_nil

theorem execAll_cons (i : Inst) (is : List Inst) (s : State) : execAll (i :: is) s = execAll is (exec i s) := rfl

/-- Registers that can be saved: none is the stack pointer. -/
def Saveable (ns : List Nat) : Prop := ∀ k ∈ ns, k < 31

theorem pushPairs_spec {rounds : Nat} (h : Kept s ms u) (hnew : members new = ns) (heven : ns.length % 2 = 0)
    (hrounds : ns.length ≤ 2 * rounds) (hsave : Saveable ns) (hbelow : ∀ j ∈ ns, ∀ k ∈ ms, j < k)
    (hlen : (ns ++ ms).length ≤ 32) :
    ∃ is, pushPairs rounds new = some is ∧ Kept s (ns ++ ms) (execAll is u) := by
  induction rounds generalizing u ms ns new with
  | zero =>
    obtain rfl := List.length_eq_zero_iff.mp (by omega : ns.length = 0)
    exact ⟨[], by rw [pushPairs, if_pos (eq_zero_of_members hnew)], h⟩
  | succ rounds ih =>
    rcases List.eq_nil_or_concat' ns with rfl | ⟨front, k, rfl⟩
    · exact ⟨[], by rw [pushPairs, if_pos (eq_zero_of_members hnew)], h⟩
    rcases List.eq_nil_or_concat' front with rfl | ⟨front, j, rfl⟩
    · exact absurd heven (by simp)
    have hnew' : members new = front ++ [j, k] := by rw [hnew, List.append_assoc]; rfl
    have hne : new ≠ 0 := by
      rintro rfl
      exact absurd (hnew'.symm.trans members_zero) (by simp)
    have hsorted : (members new).Pairwise (· < ·) := members_sorted
    rw [hnew] at hsorted
    have hrest : members (clear (clear new k) j) = front := members_clear_last (members_clear_last hnew)
    have hj : j ∈ front ++ [j] ++ [k] := by simp
    have hk : k ∈ front ++ [j] ++ [k] := by simp
    have hjms : j ∉ ms := fun hmem => lt_irrefl _ (hbelow j hj j hmem)
    have hkms : k ∉ ms := fun hmem => lt_irrefl _ (hbelow k hk k hmem)
    simp only [List.length_append, List.length_singleton] at heven hrounds hlen
    have hpair := h.pushPair (hsave j hj) (hsave k hk) hjms hkms (by omega)
    obtain ⟨is, his, hkept⟩ := ih hpair hrest (by omega) (by omega)
      (fun i hi => hsave i (by simp [hi]))
      (fun i hi l hl => by
        rcases List.mem_cons.mp hl with rfl | hl
        · exact (List.pairwise_append.mp (List.pairwise_append.mp hsorted).1).2.2 i hi l (by simp)
        · rcases List.mem_cons.mp hl with rfl | hl
          · exact (List.pairwise_append.mp hsorted).2.2 i (by simp [hi]) l (by simp)
          · exact hbelow i (by simp [hi]) l hl)
      (by simp only [List.length_append, List.length_cons]; omega)
    refine ⟨pushPairReg (reg j) (reg k) :: is, ?_, ?_⟩
    · rw [pushPairs, if_neg hne, highestTwo_eq hnew', Option.bind_some]
      dsimp only
      rw [his, Option.map_some]
    · rw [execAll_cons, List.append_assoc, List.append_assoc]
      exact hkept

/-- A push saves its registers below those on the stack if there are none yet or if their
number is even. -/
theorem emitA64Push_spec (h : Kept s ms u) (hnew : members new = ns) (hfirst : ms = [] ∨ ns.length % 2 = 0)
    (hsave : Saveable ns) (hbelow : ∀ j ∈ ns, ∀ k ∈ ms, j < k) (hlen : (ns ++ ms).length ≤ 32) :
    ∃ is, emitA64Push new = some is ∧ Kept s (ns ++ ms) (execAll is u) := by
  have hle := hlen
  rw [List.length_append] at hle
  rw [emitA64Push, countBits_eq, hnew]
  split_ifs with hodd
  · obtain rfl := hfirst.resolve_right (by omega)
    rcases List.eq_nil_or_concat' ns with rfl | ⟨front, k, rfl⟩
    · exact absurd hodd (by decide)
    have hsorted : (members new).Pairwise (· < ·) := members_sorted
    rw [hnew] at hsorted
    have hk : k < 31 := hsave k (by simp)
    simp only [List.length_append, List.length_singleton] at hodd hle
    obtain ⟨is, his, hkept⟩ := pushPairs_spec (h.pushReg hk) (members_clear_last hnew) (by omega)
      (by omega : front.length ≤ 2 * 16)
      (fun i hi => hsave i (by simp [hi])) (List.pairwise_append.mp hsorted).2.2
      (by simp only [List.length_append, List.length_singleton]; omega)
    refine ⟨A64Emit.pushReg (reg k) :: is, ?_, ?_⟩
    · rw [highest_last (highest_of_members hnew), Option.bind_some, his, Option.map_some]
    · rw [execAll_cons, List.append_nil]
      exact hkept
  · exact pushPairs_spec h hnew (by omega) (by omega) hsave hbelow hlen

theorem emitA64Pop_spec (h : Kept s (members regs) u) (hsave : Saveable (members regs)) :
    Kept s [] (execAll (emitA64Pop regs) u) := by
  fun_induction emitA64Pop regs generalizing u with
  | case1 =>
    rw [members_zero] at h
    exact h
  | case2 regs hne first second hsecond =>
    rename_i ih
    rcases hmembers : members regs with _ | ⟨a, _ | ⟨b, rest⟩⟩
    · exact absurd (eq_zero_of_members hmembers) hne
    · have hfirst : first = a := (members_lowest hmembers).next
      have hnone : second = regInvalid := by
        rw [← next_none hmembers, ← hfirst]
      exact absurd hsecond (by rw [hnone]; exact lt_irrefl _)
    · have hfirst : first = a := (members_lowest hmembers).next
      have hnext : second = b := by
        rw [← next_second hmembers, ← hfirst]
      have hrest : members (clear (clear regs first) second) = rest := by
        rw [hfirst, hnext]
        exact members_clear_first (members_clear_first hmembers)
      have hsorted : (members regs).Pairwise (· < ·) := members_sorted
      rw [hmembers] at h hsave hsorted
      have hab := (List.pairwise_cons.mp hsorted).1 b List.mem_cons_self
      have ha := hsave a List.mem_cons_self
      have hb := hsave b (List.mem_cons_of_mem _ List.mem_cons_self)
      rw [execAll_cons, hfirst, hnext]
      rw [hrest, hfirst, hnext] at ih
      exact ih (h.popPair ha hb (by omega))
        fun k hk => hsave k (List.mem_cons_of_mem _ (List.mem_cons_of_mem _ hk))
  | case3 regs hne first second hsecond =>
    rename_i ih
    rcases hmembers : members regs with _ | ⟨a, _ | ⟨b, rest⟩⟩
    · exact absurd (eq_zero_of_members hmembers) hne
    · have hfirst : first = a := (members_lowest hmembers).next
      have hrest : members (clear regs first) = [] := by
        rw [hfirst]
        exact members_clear_first hmembers
      rw [hmembers] at h hsave
      rw [execAll_cons, hfirst]
      rw [hrest, hfirst] at ih
      exact ih (h.popReg (hsave a List.mem_cons_self)) fun k hk => nomatch hk
    · have hfirst : first = a := (members_lowest hmembers).next
      have hnext : second = b := by
        rw [← next_second hmembers, ← hfirst]
      have hb : b < 32 := lt_of_bit (mem_members.mp (by rw [hmembers]; simp))
      exact absurd (by rw [hnext]; exact hb) hsecond

/-- Some code has run that may lose registers that are saved, but neither the stack pointer
nor what lies above it. -/
structure Clobbered (ms : List Nat) (u v : State) : Prop where
  stack : v.sp = u.sp
  saved : ∀ x, (x - u.sp).toNat < depth ms → v.mem x = u.mem x
  others : ∀ r : Reg, r.toNat ∉ ms → v.get r = u.get r

theorem Kept.clobbered {v : State} (h : Kept s ms u) (hlen : ms.length ≤ 32) (hv : Clobbered ms u v) : Kept s ms v := by
  have hdepth := depth_le hlen
  refine ⟨hv.stack.trans h.stack, h.slots.congr fun d hd => ?_, fun r hr => (hv.others r hr).trans (h.others r hr)⟩
  rw [hv.stack]
  refine load64_congr fun i hi => hv.saved _ ?_
  rw [add_ofNat_assoc, add_sub_cancel_left, BitVec.toNat_ofNat, Nat.mod_eq_of_lt (by omega)]
  omega

theorem kept_nil_iff : Kept s [] u ↔ u.sp = s.sp ∧ ∀ r, u.get r = s.get r := by
  constructor
  · exact fun h => ⟨h.stack.trans (BitVec.sub_zero _), fun r => h.others r List.not_mem_nil⟩
  · exact fun h => ⟨h.1.trans (BitVec.sub_zero _).symm, trivial, fun r _ => h.2 r⟩

end Emission

end Mambo.A64Stack
