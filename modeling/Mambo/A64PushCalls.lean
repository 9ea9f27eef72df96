import Mambo.A64SafeFcalls

namespace Mambo.A64PushCalls

open ByteMemory RegLists A64Plugin SafeFcalls
open A64 (Word Reg State)
open A64Emit (pushPairReg pushReg popReg)
open A64Stack (reg emitA64Push emitA64Pop pushPairs popPair lastRegInList highestTwo)
open A64SafeFcalls (Pushes Pops pushes_lowered emitA64Push_pushes emitA64Pop_pops)

section Calls

inductive Call
  | push (regs : BitVec 32)
  | pop (regs : BitVec 32)

def Call.emit : Call → Emitted 64 Inst → Option (Emitted 64 Inst)
  | .push regs => emitPush a64 regs
  | .pop regs => emitPop a64 regs

/-- A plugin calls one after the other; none where an assertion fails. -/
def emitCalls : List Call → Emitted 64 Inst → Option (Emitted 64 Inst)
  | [], e => some e
  | call :: calls, e => (call.emit e).bind (emitCalls calls)

/-- The bytes that registers take up on the stack, 16 for every two of them. -/
def room (regs : BitVec 32) : Nat := 16 * ((countBits regs + 1) / 2)

def Call.bytes : Call → Int
  | .push regs => room regs
  | .pop regs => -room regs

/-- How far below its first value the stack pointer is after some calls. -/
def bytes (calls : List Call) : Int := (calls.map Call.bytes).sum

def Call.count : Call → Int
  | .push regs => countBits regs
  | .pop regs => -countBits regs

/-- A call with an odd number of registers moves the stack pointer by one more. -/
def Call.odd : Call → Int
  | .push regs => (countBits regs % 2 : Nat)
  | .pop regs => -(countBits regs % 2 : Nat)

/-- How many calls of `emit_push` had an odd number of registers, less those of `emit_pop`. -/
def odd (calls : List Call) : Int := (calls.map Call.odd).sum

end Calls

section Lengths

variable {regs : BitVec 32} {is : List A64.Inst} {k : Nat}

theorem countBits_clear (h : regs.getLsbD k = true) : countBits (clear regs k) + 1 = countBits regs := by
  have hperm : (members regs).Perm (k :: members (clear regs k)) := by
    refine (List.perm_ext_iff_of_nodup members_sorted.nodup (List.nodup_cons.mpr ⟨?_, members_sorted.nodup⟩)).mpr fun j => ?_
    · simp [mem_members, getLsbD_clear]
    · by_cases hj : j = k
      · simp [hj, mem_members, h]
      · simp [hj, mem_members, getLsbD_clear]
  rw [countBits_eq, countBits_eq, hperm.length_eq, List.length_cons]

theorem lastRegInList_bit {start : Nat} (h : lastRegInList regs start = some k) :
    regs.getLsbD k = true ∧ k ≤ start := by
  induction start with
  | zero =>
      rw [lastRegInList] at h
      split at h
      next hbit => exact Option.some.inj h ▸ ⟨hbit, le_refl 0⟩
      next => exact absurd h (by simp)
  | succ start ih =>
      rw [lastRegInList] at h
      split at h
      next hbit => exact Option.some.inj h ▸ ⟨hbit, le_refl _⟩
      next =>
        obtain ⟨hbit, hle⟩ := ih h
        exact ⟨hbit, by omega⟩

theorem highestTwo_bits {top : Nat × Nat} (h : highestTwo regs = some top) :
    regs.getLsbD top.1 = true ∧ (clear regs top.1).getLsbD top.2 = true := by
  rw [highestTwo] at h
  obtain ⟨first, hfirst, hrest⟩ := Option.bind_eq_some_iff.mp h
  cases first with
  | zero => exact absurd hrest (by simp)
  | succ before =>
      obtain ⟨second, hsecond, rfl⟩ := Option.map_eq_some_iff.mp hrest
      obtain ⟨hbit, hle⟩ := lastRegInList_bit hsecond
      refine ⟨(lastRegInList_bit hfirst).1, ?_⟩
      rw [getLsbD_clear, hbit, decide_eq_true (by omega : second ≠ before + 1), Bool.and_true]

theorem countBits_zero : countBits 0 = 0 := by rw [countBits, if_pos rfl]

theorem pushPairs_count {rounds : Nat} (his : pushPairs rounds regs = some is) : 2 * is.length = countBits regs := by
  induction rounds generalizing regs is with
  | zero =>
      rw [pushPairs] at his
      split at his
      next hzero => rw [hzero, countBits_zero, ← Option.some.inj his, List.length_nil]
      next => exact absurd his (by simp)
  | succ rounds ih =>
      rw [pushPairs] at his
      split at his
      next hzero => rw [hzero, countBits_zero, ← Option.some.inj his, List.length_nil]
      next =>
        obtain ⟨top, htop, hrest⟩ := Option.bind_eq_some_iff.mp his
        obtain ⟨js, hjs, rfl⟩ := Option.map_eq_some_iff.mp hrest
        obtain ⟨hfirst, hsecond⟩ := highestTwo_bits htop
        have hone := countBits_clear hfirst
        have htwo := countBits_clear hsecond
        have hcount := ih hjs
        rw [List.length_cons]
        omega

theorem emitA64Push_count (his : emitA64Push regs = some is) : 16 * is.length = room regs := by
  rw [room]
  rw [emitA64Push] at his
  split at his
  next hodd =>
    obtain ⟨first, hfirst, hrest⟩ := Option.bind_eq_some_iff.mp his
    obtain ⟨js, hjs, rfl⟩ := Option.map_eq_some_iff.mp hrest
    have hone := countBits_clear (lastRegInList_bit hfirst).1
    have hcount := pushPairs_count hjs
    rw [List.length_cons]
    omega
  next heven =>
    have hcount := pushPairs_count his
    omega

theorem nextRegInList_bit {start : Nat} (h : nextRegInList regs start < regInvalid) :
    regs.getLsbD (nextRegInList regs start) = true ∧ start ≤ nextRegInList regs start := by
  fun_induction nextRegInList regs start with
  | case1 start hle hbit => exact ⟨hbit, le_refl start⟩
  | case2 start hle hbit ih =>
      obtain ⟨hnext, hlt⟩ := ih h
      exact ⟨hnext, by omega⟩
  | case3 start hgt => exact absurd h (lt_irrefl _)

theorem clear_next (hne : regs ≠ 0) (hlast : ¬nextRegInList regs (nextRegInList regs 0 + 1) < regInvalid) :
    clear regs (nextRegInList regs 0) = 0 := by
  obtain ⟨k, hk⟩ := exists_lowest hne
  rw [hk.next] at hlast ⊢
  by_contra hrest
  obtain ⟨j, hj⟩ := exists_lowest hrest
  have hbit := hj.bit
  rw [getLsbD_clear, Bool.and_eq_true, decide_eq_true_eq] at hbit
  have hkj : k < j := by
    by_contra hle
    have hbelow := hk.below j (by omega)
    rw [hbit.1] at hbelow
    exact absurd hbelow (by decide)
  have hnext : nextRegInList regs (k + 1) = j := by
    refine nextRegInList_eq hbit.1 hkj fun i hi hij => ?_
    have hbelow := hj.below i hij
    rwa [getLsbD_clear, decide_eq_true (by omega : i ≠ k), Bool.and_true] at hbelow
  rw [hnext] at hlast
  exact hlast (lt_of_bit hbit.1)

theorem emitA64Pop_count : 16 * (emitA64Pop regs).length = room regs := by
  rw [room]
  fun_induction emitA64Pop regs with
  | case1 => rw [countBits_zero, List.length_nil]
  | case2 regs hne first second hsecond ih =>
      have hone : countBits (clear regs first) + 1 = countBits regs := countBits_clear (next_bit hne)
      obtain ⟨hbit, hle⟩ : regs.getLsbD second = true ∧ first + 1 ≤ second := nextRegInList_bit hsecond
      have htwo : countBits (clear (clear regs first) second) + 1 = countBits (clear regs first) := by
        apply countBits_clear
        rw [getLsbD_clear, hbit, decide_eq_true (by omega : second ≠ first), Bool.and_true]
      rw [List.length_cons]
      omega
  | case3 regs hne first second hsecond ih =>
      have hone : countBits (clear regs first) + 1 = countBits regs := countBits_clear (next_bit hne)
      have hlast : clear regs first = 0 := clear_next hne hsecond
      rw [hlast, countBits_zero] at ih hone
      rw [List.length_cons, hlast]
      omega

end Lengths

section Runs

variable {is js : List Inst} {s t : State} {regs : BitVec 32} {m n : Int}

/-- A state in which every register but the stack pointer and the pc is zero, and all of the memory. -/
structure Blank (s : State) : Prop where
  x : ∀ r, s.x r = 0
  mem : s.mem = fun _ => 0

/-- What code made of pushes and pops does in any state. -/
structure Moves (is : List Inst) (m : Int) : Prop where
  pc : ∀ s, (execAll is s).pc = s.pc + BitVec.ofNat 64 (4 * is.length)
  sp : ∀ s, (execAll is s).sp = s.sp - BitVec.ofInt 64 m
  blank : ∀ s, Blank s → Blank (execAll is s)

theorem Moves.nil : Moves [] 0 where
  pc _ := (add_zero _).symm
  sp _ := (sub_zero _).symm
  blank _ h := h

theorem Moves.append (h : Moves is m) (h' : Moves js n) : Moves (is ++ js) (m + n) where
  pc s := by rw [execAll_append, h'.pc, h.pc, A64Stack.add_ofNat_assoc, List.length_append, Nat.mul_add]
  sp s := by rw [execAll_append, h'.sp, h.sp, sub_sub, BitVec.ofInt_add]
  blank s hs := by
    rw [execAll_append]
    exact h'.blank _ (h.blank s hs)

theorem Blank.get (h : Blank s) (r : Reg) : s.get r = 0 := by
  rw [State.get]
  split
  · rfl
  · exact h.x r

theorem Blank.set (h : Blank s) (r : Reg) : Blank (s.set r 0) := by
  rw [State.set]
  split
  · exact h
  · refine ⟨fun r' => ?_, h.mem⟩
    show Function.update s.x r 0 r' = 0
    rw [Function.update_apply]
    split
    · rfl
    · exact h.x r'

theorem Blank.store (h : Blank s) (a : Word) : store64 s.mem a 0 = fun _ => 0 := by
  have hzeros : Bytes.toBytes 8 (0 : Word).toNat = List.replicate 8 0 := by decide
  funext b
  rw [store64, hzeros, h.mem, List.getD_eq_getElem?_getD, List.getElem?_replicate]
  split <;> rfl

theorem Blank.load (h : Blank s) (a : Word) : load64 s.mem a = 0 := by
  have hzeros : (List.range 8).map (fun _ => (0 : Bytes.Byte)) = [] ++ List.replicate 8 0 := by decide
  rw [h.mem, load64, hzeros, Bytes.ofBytes_zeros]
  rfl

theorem push_blank {i : A64.Inst} (hi : Pushes i) (h : Blank s) : Blank (A64.exec i s) := by
  cases hi with
  | pair a b =>
      rw [A64Stack.pushPair_exec, h.get, h.get]
      have hfirst : Blank { s with mem := store64 s.mem (s.sp - BitVec.ofNat 64 16) 0 } := ⟨h.x, h.store _⟩
      exact ⟨h.x, hfirst.store _⟩
  | one a =>
      rw [A64Stack.pushReg_exec, h.get]
      exact ⟨h.x, h.store _⟩

theorem pop_blank {i : A64.Inst} (hi : Pops i) (h : Blank s) : Blank (A64.exec i s) := by
  cases hi with
  | pair a b =>
      rw [A64Stack.popPair_exec, h.load, h.load]
      exact ⟨((h.set a).set b).x, ((h.set a).set b).mem⟩
  | one a =>
      rw [A64Stack.popReg_exec, h.load]
      exact ⟨(h.set a).x, (h.set a).mem⟩

theorem pop_sp {i : A64.Inst} (hi : Pops i) : (A64.exec i s).sp = s.sp + 16 := by
  cases hi with
  | pair a b => rw [A64Stack.popPair_exec]
  | one a => rw [A64Stack.popReg_exec]

theorem execAll_core (is : List A64.Inst) (s : State) : execAll (is.map .core) s = A64Stack.execAll is s := by
  induction is generalizing s with
  | nil => rfl
  | cons i is ih => exact ih (A64.exec i s)

theorem execAll_blank {is : List A64.Inst} (his : ∀ i ∈ is, ∀ s, Blank s → Blank (A64.exec i s)) (h : Blank s) :
    Blank (A64Stack.execAll is s) := by
  induction is generalizing s with
  | nil => exact h
  | cons i is ih =>
      rw [A64Stack.execAll_cons]
      exact ih (fun j hj => his j (List.mem_cons_of_mem i hj)) (his i List.mem_cons_self s h)

theorem moves_push {is : List A64.Inst} (his : emitA64Push regs = some is) : Moves (is.map .core) (room regs) where
  pc s := by rw [execAll_core, (pushes_lowered (emitA64Push_pushes his) s).pc, List.length_map]
  sp s := by
    rw [execAll_core, (pushes_lowered (emitA64Push_pushes his) s).sp, emitA64Push_count his]
    rfl
  blank s h := by
    rw [execAll_core]
    exact execAll_blank (fun i hi _ => push_blank (emitA64Push_pushes his i hi)) h

theorem pops_sp {is : List A64.Inst} (his : ∀ i ∈ is, Pops i) :
    (A64Stack.execAll is s).sp = s.sp + BitVec.ofNat 64 (16 * is.length) := by
  induction is generalizing s with
  | nil => exact (add_zero _).symm
  | cons i is ih =>
      rw [A64Stack.execAll_cons, ih fun j hj => his j (List.mem_cons_of_mem i hj), pop_sp (his i List.mem_cons_self),
        List.length_cons, Nat.mul_succ, Nat.add_comm]
      exact A64Stack.add_ofNat_assoc s.sp 16 (16 * is.length)

theorem moves_pop : Moves ((emitA64Pop regs).map .core) (-room regs) where
  pc s := by
    rw [execAll_core, A64SafeFcalls.execAll_pc fun i hi => (emitA64Pop_pops i hi).pc, List.length_map]
  sp s := by
    rw [execAll_core, pops_sp emitA64Pop_pops, emitA64Pop_count, BitVec.ofInt_neg, sub_neg_eq_add]
    rfl
  blank s h := by
    rw [execAll_core]
    exact execAll_blank (fun i hi _ => pop_blank (emitA64Pop_pops i hi)) h

end Runs

section Histories

variable {call : Call} {calls : List Call} {e e' : Emitted 64 Inst}

theorem emit_moves (h : call.emit e = some e') : ∃ is, e'.code = e.code ++ is ∧ Moves is call.bytes := by
  cases call with
  | push regs =>
      obtain ⟨is, his, rfl⟩ := Option.map_eq_some_iff.mp h
      obtain ⟨js, hjs, rfl⟩ := Option.map_eq_some_iff.mp his
      exact ⟨_, rfl, moves_push hjs⟩
  | pop regs =>
      rw [Call.emit, emitPop] at h
      split at h
      · obtain ⟨is, his, rfl⟩ := Option.map_eq_some_iff.mp h
        exact ⟨is, rfl, Option.some.inj his ▸ moves_pop⟩
      · exact absurd h (by simp)

/-- What a list of calls emits moves the stack pointer by the bytes of all of them. -/
theorem emitCalls_moves (h : emitCalls calls e = some e') : ∃ is, e'.code = e.code ++ is ∧ Moves is (bytes calls) := by
  induction calls generalizing e with
  | nil =>
      obtain rfl := Option.some.inj h
      exact ⟨[], (List.append_nil _).symm, Moves.nil⟩
  | cons call calls ih =>
      obtain ⟨first, hfirst, hrest⟩ := Option.bind_eq_some_iff.mp h
      obtain ⟨is, his, hmoves⟩ := emit_moves hfirst
      obtain ⟨js, hjs, hmoves'⟩ := ih hrest
      exact ⟨is ++ js, by rw [hjs, his, List.append_assoc], hmoves.append hmoves'⟩

theorem emit_count (h : call.emit e = some e') : e'.pluginPushedRegCount = e.pluginPushedRegCount + call.count := by
  cases call with
  | push regs =>
      obtain ⟨is, his, rfl⟩ := Option.map_eq_some_iff.mp h
      rfl
  | pop regs =>
      rw [Call.emit, emitPop] at h
      split at h
      · obtain ⟨is, his, rfl⟩ := Option.map_eq_some_iff.mp h
        rfl
      · exact absurd h (by simp)

theorem Call.bytes_eq (call : Call) : call.bytes = 8 * (call.count + call.odd) := by
  cases call with
  | push regs =>
      rw [Call.bytes, Call.count, Call.odd, room]
      omega
  | pop regs =>
      rw [Call.bytes, Call.count, Call.odd, room]
      omega

/-- The counter tells the bytes if as many registers were pushed in odd numbers as were popped. -/
theorem emitCalls_bytes (h : emitCalls calls e = some e') :
    8 * (e'.pluginPushedRegCount - e.pluginPushedRegCount) + 8 * odd calls = bytes calls := by
  induction calls generalizing e with
  | nil =>
      obtain rfl := Option.some.inj h
      rw [sub_self]
      rfl
  | cons call calls ih =>
      obtain ⟨first, hfirst, hrest⟩ := Option.bind_eq_some_iff.mp h
      have hcount := emit_count hfirst
      have hbytes := call.bytes_eq
      have hcalls := ih hrest
      rw [bytes, odd, List.map_cons, List.map_cons, List.sum_cons, List.sum_cons, ← bytes, ← odd]
      omega

theorem emitCalls_nonneg (h : emitCalls calls e = some e') (he : 0 ≤ e.pluginPushedRegCount) :
    0 ≤ e'.pluginPushedRegCount := by
  induction calls generalizing e with
  | nil => exact Option.some.inj h ▸ he
  | cons call calls ih =>
      obtain ⟨first, hfirst, hrest⟩ := Option.bind_eq_some_iff.mp h
      refine ih hrest ?_
      cases call with
      | push regs =>
          rw [emit_count hfirst, Call.count]
          omega
      | pop regs =>
          rw [Call.emit, emitPop] at hfirst
          split at hfirst
          next hcount =>
            obtain ⟨is, his, rfl⟩ := Option.map_eq_some_iff.mp hfirst
            exact hcount.2
          next => exact absurd hfirst (by simp)

theorem odd_le (calls : List Call) : -calls.length ≤ odd calls ∧ odd calls ≤ calls.length := by
  induction calls with
  | nil => exact ⟨le_refl _, le_refl _⟩
  | cons call calls ih =>
      have hcall : -1 ≤ call.odd ∧ call.odd ≤ 1 := by
        cases call with
        | push regs | pop regs =>
            rw [Call.odd]
            omega
      rw [odd, List.map_cons, List.sum_cons, ← odd, List.length_cons]
      push_cast
      omega

end Histories

end Mambo.A64PushCalls
