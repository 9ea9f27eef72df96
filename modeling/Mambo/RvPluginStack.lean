import Mambo.RvPlugin
import Mambo.RvStack

namespace Mambo.RvPluginStack

open Bytes ByteMemory RegLists RvEmit RvStack
open Rv (Reg Word State zero sp)
open RvPlugin

/-- `emit_riscv_push`; none where an assertion fails. -/
def emitRiscvPush (regs : BitVec 32) : Option (List Inst) := (riscvPush regs).map fun is => is.map .core

/-- `emit_riscv_pop`, but for the assertion on the registers counted. -/
def emitRiscvPop (regs : BitVec 32) : Option (List Inst) := (riscvPop regs).map fun is => is.map .core

variable {regs : BitVec 32} {is js : List Inst} {m u : Machine} {r : Reg} {v : Word}

def room (regs : BitVec 32) : Word := BitVec.ofNat 64 (8 * (regList regs).length)

theorem length_regList_le : (regList regs).length ≤ 32 := regList_length.le.trans members_length_le

theorem emitRiscvPush_isSome : (emitRiscvPush regs).isSome := by
  rw [emitRiscvPush, riscvPush_eq]
  rfl

theorem emitRiscvPop_isSome : (emitRiscvPop regs).isSome := by
  obtain ⟨is, his⟩ := Option.isSome_iff_exists.mp (@riscvPop_isSome regs)
  rw [emitRiscvPop, his]
  rfl

theorem execAll_emitRiscvPush (his : emitRiscvPush regs = some is) :
    ∃ p, (execAll is m).core =
        { m.core.set sp (m.get sp - room regs) with
          mem := storeAll m.core.mem (m.get sp - room regs)
            ((regList regs).map (m.core.set sp (m.get sp - room regs)).get) }.goto p ∧
      (execAll is m).csr = m.csr := by
  have hlen := @length_regList_le regs
  rw [emitRiscvPush, riscvPush_eq, Option.map_some, Option.some.injEq] at his
  have haddi : Rv.exec (.addi sp sp (-BitVec.ofNat 12 (8 * (regList regs).length))) m.core =
      (m.core.set sp (m.get sp - room regs)).goto (m.core.pc + 4) := by
    rw [Rv.exec, negate_room hlen, ← sub_eq_add_neg]
    rfl
  have hstores := @stores_exec (m.core.pc + 4) (m.core.set sp (m.get sp - room regs)) (regList regs) 0 (by omega)
  rw [State.get_set_self (by decide), State.set_mem, RvCode.past_zero] at hstores
  rw [← his, execAll_core, push, RvCode.execAll_cons, haddi]
  exact ⟨_, hstores, rfl⟩

theorem push_get (his : emitRiscvPush regs = some is) :
    (execAll is m).get r = if r = sp then m.get sp - room regs else m.get r := by
  obtain ⟨p, hcore, -⟩ := execAll_emitRiscvPush (m := m) his
  rw [Machine.get, hcore]
  show (m.core.set sp (m.get sp - room regs)).get r = _
  split
  next hr => rw [hr, State.get_set_self (by decide)]
  next hr => exact State.get_set_of_ne hr

theorem push_mem (his : emitRiscvPush regs = some is) :
    (execAll is m).core.mem = storeAll m.core.mem (m.get sp - room regs)
      ((regList regs).map (m.core.set sp (m.get sp - room regs)).get) := by
  obtain ⟨p, hcore, -⟩ := execAll_emitRiscvPush (m := m) his
  rw [hcore]
  rfl

theorem execAll_emitRiscvPop (his : emitRiscvPop regs = some is) :
    ∃ p, (execAll is m).core = ((loaded (regList regs) 0 m.core).set sp
        ((loaded (regList regs) 0 m.core).get sp + room regs)).goto p ∧ (execAll is m).csr = m.csr := by
  obtain ⟨js, hjs, rfl⟩ := Option.map_eq_some_iff.mp his
  rw [riscvPop_eq] at hjs
  rw [execAll_core]
  exact ⟨_, pop_exec_loaded (s := m.core) (a := m.core.pc) hjs length_regList_le, rfl⟩

theorem pop_get (his : emitRiscvPop regs = some is) (hr : r ∉ regList regs) (hsp : r ≠ sp) :
    (execAll is m).get r = m.get r := by
  obtain ⟨p, hcore, -⟩ := execAll_emitRiscvPop (m := m) his
  rw [Machine.get, hcore, State.get_goto, State.get_set_of_ne hsp, loaded_get hr]
  rfl

theorem pop_sp (his : emitRiscvPop regs = some is) (hsp : sp ∉ regList regs) :
    (execAll is m).get sp = m.get sp + room regs := by
  obtain ⟨p, hcore, -⟩ := execAll_emitRiscvPop (m := m) his
  rw [Machine.get, hcore, State.get_goto, State.get_set_self (by decide), loaded_get hsp]
  rfl

/-- What runs between a push and the pop of the same set may use its registers, and set one more. -/
theorem pop_push_get (hregs : Saveable regs) (his : emitRiscvPush regs = some is) (hjs : emitRiscvPop regs = some js)
    {rd : Reg} (hrd : rd ≠ sp) (hout : rd ∉ regList regs) (hstack : u.get sp = (execAll is m).get sp)
    (hmem : u.core.mem = (execAll is m).core.mem) (hset : u.get rd = (m.set rd v).get rd)
    (hothers : ∀ r, r ≠ rd → r ∉ regList regs → u.get r = (execAll is m).get r) :
    (execAll js u).get r = (m.set rd v).get r := by
  have hlen := @length_regList_le regs
  have hspout : sp ∉ regList regs := sp_notMem hregs.sp
  have hsp : u.get sp = m.get sp - room regs := by rw [hstack, push_get his, if_pos rfl]
  have hkept : Kept (m.core.set rd v) regs u.core := by
    refine ⟨⟨hregs.zero, hregs.sp⟩, ?_, fun i r hi => ?_, fun r hr hbit => ?_⟩
    · rw [State.get_set_of_ne (Ne.symm hrd), ← regList_length]
      exact hsp
    · have hmemr : r ∈ regList regs := List.mem_of_getElem? hi
      have hrsp : r ≠ sp := fun heq => hspout (heq ▸ hmemr)
      have hrrd : r ≠ rd := fun heq => hout (heq ▸ hmemr)
      show load64 u.core.mem (RvCode.past (u.get sp) (8 * i)) = _
      rw [hmem, push_mem his, hsp, State.get_set_of_ne hrrd, ← State.get_set_of_ne hrsp]
      refine load64_storeAll (by rw [List.length_map]; omega) ?_
      rw [List.getElem?_map, hi, Option.map_some]
    · have hnot : r ∉ regList regs := by rwa [mem_regList, Bool.not_eq_true]
      by_cases hrrd : r = rd
      · rw [hrrd]
        exact hset
      · refine (hothers r hrrd hnot).trans ?_
        rw [push_get his, if_neg hr]
        exact (State.get_set_of_ne hrrd).symm
  obtain ⟨js, hpop, rfl⟩ := Option.map_eq_some_iff.mp hjs
  rw [Machine.get, execAll_core]
  exact hkept.pop hpop r

end Mambo.RvPluginStack
