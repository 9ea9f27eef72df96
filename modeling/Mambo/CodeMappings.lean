import Mambo.IntervalSpec
import Mathlib.Data.BitVec
import Mathlib.Data.Set.Lattice
import Mathlib.Order.CompletePartialOrder

namespace Mambo.CodeMappings

open Intervals IntervalAdd IntervalDelete IntervalSpec

variable {w : Nat}

section Source

def protRead : BitVec w := 1

def protExec : BitVec w := 4

def mapFixed : BitVec w := 16

def alignLower (address alignment : BitVec w) : BitVec w := address / alignment * alignment

def alignHigher (address alignment : BitVec w) : BitVec w :=
  let aligned := alignLower address alignment
  if aligned ≠ address then aligned + alignment else aligned

inductive VmOp
  | vmMap
  | vmUnmap
  | vmProt

/-- The map of executable memory, and how often the code cache of the thread was flushed. -/
structure Tracker where
  execAllocs : IntervalMap
  flushes : Nat

variable (dup : Int → Int)

def trackExec (addr size prot : BitVec w) (fd : Int) (s : Tracker) : Option Tracker :=
  if prot &&& protExec ≠ 0 then
    (intervalMapAdd dup s.execAllocs addr.toNat (addr + size).toNat fd).bind fun r =>
      if r.1 = 0 then some { s with execAllocs := r.2 } else none
  else some s

/-- None where an assertion fails. -/
def notifyVmOp (op : VmOp) (addr size prot : BitVec w) (fd : Int) (s : Tracker) : Option Tracker :=
  match op with
  | .vmMap => trackExec dup addr size prot fd s
  | .vmUnmap =>
      (intervalMapDelete dup s.execAllocs addr.toNat (addr + size).toNat).bind fun r =>
        if r.1 ≥ 0 then some ⟨r.2, if r.1 ≥ 1 then s.flushes + 1 else s.flushes⟩ else none
  | .vmProt => trackExec dup addr size prot fd s

/-- The permissions that the kernel gets: readable in place of executable. -/
def kernelProt (prot : BitVec w) : BitVec w :=
  if prot &&& protExec ≠ 0 then (if prot &&& protRead = 0 then prot ||| protRead else prot) &&& ~~~protExec
  else prot

/-- A system call of the guest that succeeded, with what mmap returned. -/
inductive Syscall (w : Nat)
  | mmap (len prot flags ret : BitVec w) (addr : BitVec w)
  | mprotect (addr len prot : BitVec w)
  | munmap (addr len : BitVec w)

variable (pageSize : BitVec w)

/-- What `syscall_handler_pre` does once the kernel has returned. -/
def syscallHandlerPre (c : Syscall w) (s : Tracker) : Option Tracker :=
  match c with
  | .mmap len prot _ ret _ =>
      if ret ≤ -34 then
        let start := alignLower ret pageSize
        let stop := alignHigher (ret + len) pageSize
        notifyVmOp dup .vmMap start (stop - start) prot (-1) s
      else some s
  | .mprotect addr len prot =>
      let start := alignLower addr pageSize
      let stop := alignHigher (addr + len) pageSize
      notifyVmOp dup .vmProt start (stop - start) (kernelProt prot) (-1) s
  | .munmap addr len =>
      let start := alignLower addr pageSize
      let stop := alignHigher (addr + len) pageSize
      notifyVmOp dup .vmUnmap start (stop - start) (0 : BitVec w) (-1) s

end Source

section Guest

/-- The memory that is mapped, and the part that the guest has made executable and not unmapped since. -/
structure Memory where
  mapped : Set Nat
  exec : Set Nat

def roundUp (n page : Nat) : Nat :=
  if n / page * page = n then n else n / page * page + page

def pages (pageSize addr len : BitVec w) : Set Nat :=
  { a | addr.toNat ≤ a ∧ a < roundUp (addr.toNat + len.toNat) pageSize.toNat }

def isExec (prot : BitVec w) : Bool := prot &&& protExec != 0

variable (pageSize : BitVec w)

def Syscall.replaced : Syscall w → Set Nat
  | .mmap len _ _ ret _ => pages pageSize ret len
  | .mprotect _ _ _ => ∅
  | .munmap addr len => pages pageSize addr len

def Memory.next (mem : Memory) : Syscall w → Memory
  | .mmap len prot _ ret _ =>
      ⟨mem.mapped ∪ pages pageSize ret len,
        if isExec prot then mem.exec ∪ pages pageSize ret len else mem.exec \ pages pageSize ret len⟩
  | .mprotect addr len prot =>
      ⟨mem.mapped, if isExec prot then mem.exec ∪ pages pageSize addr len else mem.exec⟩
  | .munmap addr len => ⟨mem.mapped \ pages pageSize addr len, mem.exec \ pages pageSize addr len⟩

def InSpace (addr len : BitVec w) : Prop :=
  0 < pageSize.toNat ∧ addr.toNat % pageSize.toNat = 0 ∧ addr.toNat + len.toNat + pageSize.toNat + 34 ≤ 2 ^ w

def Documented (mem : Memory) : Syscall w → Prop
  | .mmap len _ flags ret addr =>
      InSpace pageSize ret len ∧ 0 < len.toNat ∧
        if flags &&& mapFixed ≠ 0 then ret = addr else Disjoint (pages pageSize ret len) mem.mapped
  | .mprotect addr len _ => InSpace pageSize addr len ∧ pages pageSize addr len ⊆ mem.mapped
  | .munmap addr len => InSpace pageSize addr len ∧ 0 < len.toNat

def AllDocumented (mem : Memory) : List (Syscall w) → Prop
  | [] => True
  | c :: cs => Documented pageSize mem c ∧ AllDocumented (mem.next pageSize c) cs

variable (dup : Int → Int)

/-- No assertion fails, and a call that unmaps or replaces memory that the guest made executable flushes. -/
def RunOk (mem : Memory) (s : Tracker) : List (Syscall w) → Prop
  | [] => True
  | c :: cs => ∃ s', syscallHandlerPre dup pageSize c s = some s' ∧
      ((c.replaced pageSize ∩ mem.exec).Nonempty → s.flushes < s'.flushes) ∧ RunOk (mem.next pageSize c) s' cs

/-- The calls that are tracked. No MAP_FIXED mapping replaces memory that was made executable; an executable one
finds a free slot or merges with all that it overlaps; mprotect makes executable only what is recorded; munmap cuts
no recorded range on one side only, and finds a free slot if it splits one. -/
def Fits (mem : Memory) (s : Tracker) : Syscall w → Prop
  | .mmap len prot flags ret _ =>
      let op := Op.add ret.toNat (roundUp (ret.toNat + len.toNat) pageSize.toNat) (-1)
      (flags &&& mapFixed ≠ 0 → Disjoint (pages pageSize ret len) mem.exec) ∧
        (isExec prot → Handled s.execAllocs op ∧
          (NeedsSlot s.execAllocs op → s.execAllocs.entries.length < s.execAllocs.memSize))
  | .mprotect addr len prot => isExec prot → pages pageSize addr len ⊆ covered s.execAllocs
  | .munmap addr len =>
      let op := Op.delete addr.toNat (roundUp (addr.toNat + len.toNat) pageSize.toNat)
      Handled s.execAllocs op ∧ (NeedsSlot s.execAllocs op → s.execAllocs.entries.length < s.execAllocs.memSize)

def AllFit (mem : Memory) (s : Tracker) : List (Syscall w) → Prop
  | [] => True
  | c :: cs => Fits pageSize mem s c ∧
      ∀ s', syscallHandlerPre dup pageSize c s = some s' → AllFit (mem.next pageSize c) s' cs

end Guest

section Pages

variable {a b p : BitVec w}

theorem alignLower_toNat : (alignLower a p).toNat = a.toNat / p.toNat * p.toNat := by
  rw [alignLower, BitVec.toNat_mul, BitVec.toNat_udiv]
  exact Nat.mod_eq_of_lt ((Nat.div_mul_le_self _ _).trans_lt a.isLt)

theorem alignLower_aligned (h : a.toNat % p.toNat = 0) : alignLower a p = a := by
  apply BitVec.eq_of_toNat_eq
  rw [alignLower_toNat]
  exact Nat.div_mul_cancel (Nat.dvd_of_mod_eq_zero h)

theorem alignHigher_toNat (h : a.toNat + p.toNat < 2 ^ w) : (alignHigher a p).toNat = roundUp a.toNat p.toNat := by
  have hle := Nat.div_mul_le_self a.toNat p.toNat
  have hiff : alignLower a p = a ↔ a.toNat / p.toNat * p.toNat = a.toNat := by
    rw [← BitVec.toNat_inj, alignLower_toNat]
  rw [alignHigher, roundUp]
  by_cases heq : a.toNat / p.toNat * p.toNat = a.toNat
  · rw [if_neg (not_not.mpr (hiff.mpr heq)), if_pos heq, hiff.mpr heq]
  · rw [if_pos (fun h => heq (hiff.mp h)), if_neg heq, BitVec.toNat_add, alignLower_toNat]
    exact Nat.mod_eq_of_lt (by omega)

theorem InSpace.bounds (h : InSpace p a b) : alignLower a p = a ∧
    (alignLower a p + (alignHigher (a + b) p - alignLower a p)).toNat = roundUp (a.toNat + b.toNat) p.toNat := by
  obtain ⟨-, haligned, hspace⟩ := h
  have hadd : (a + b).toNat = a.toNat + b.toNat := by
    rw [BitVec.toNat_add]
    exact Nat.mod_eq_of_lt (by omega)
  refine ⟨alignLower_aligned haligned, ?_⟩
  rw [add_sub_cancel, alignHigher_toNat (by omega), hadd]

theorem InSpace.lt_stop (h : InSpace p a b) (hlen : 0 < b.toNat) :
    a.toNat < roundUp (a.toNat + b.toNat) p.toNat := by
  rw [roundUp]
  split
  · omega
  · have hdiv := Nat.div_add_mod' (a.toNat + b.toNat) p.toNat
    have hmod := Nat.mod_lt (a.toNat + b.toNat) h.1
    omega

/-- A result of mmap is not one of its error codes. -/
theorem InSpace.le_error (h : InSpace p a b) : a ≤ -34 := by
  obtain ⟨-, -, hspace⟩ := h
  rw [BitVec.le_def, BitVec.toNat_neg, show (34 : BitVec w).toNat = 34 % 2 ^ w from BitVec.toNat_ofNat _ _]
  rcases Nat.lt_or_ge 34 (2 ^ w) with hlt | hge
  · rw [Nat.mod_eq_of_lt hlt, Nat.mod_eq_of_lt (by omega)]
    omega
  · omega

end Pages

section Invariant

variable {dup : Int → Int} {pageSize : BitVec w} {mem : Memory} {s : Tracker} {c : Syscall w}

/-- The map is in shape and records all that the guest made executable, which is mapped. -/
structure Tracked (mem : Memory) (s : Tracker) : Prop where
  valid : Valid s.execAllocs
  anonymous : Anonymous s.execAllocs
  recorded : mem.exec ⊆ covered s.execAllocs
  mapped : mem.exec ⊆ mem.mapped

theorem kernelProt_exec (prot : BitVec w) : kernelProt prot &&& protExec = 0 := by
  rw [kernelProt]
  split
  · rw [BitVec.and_assoc]
    simp
  · simp_all

theorem isExec_iff {prot : BitVec w} : isExec prot = true ↔ prot &&& protExec ≠ 0 := by
  rw [isExec, bne_iff_ne]

theorem intervalMapAdd_zero {m : IntervalMap} {start stop : Nat} {fd : Int} {r : Int × IntervalMap}
    (hfd : fd < 0) (hlt : start < stop) (h : intervalMapAdd dup m start stop fd = some r) : r.1 = 0 := by
  rw [intervalMapAdd_eq dup hfd hlt] at h
  obtain ⟨st, -, hfinish⟩ := Option.bind_eq_some_iff.mp h
  rw [addFinish] at hfinish
  split at hfinish
  · simp only at hfinish
    split at hfinish
    · cases hfinish
      rfl
    · cases hfinish
  · cases hfinish
    rfl

theorem deleteLoop_count {start stop i : Nat} {st r : Int × IntervalMap} (h : deleteLoop dup start stop i st = some r) :
    st.1 ≤ r.1 ∧ (r.1 = st.1 → r.2 = st.2) := by
  induction i generalizing st with
  | zero =>
      cases h
      exact ⟨le_rfl, fun _ => rfl⟩
  | succ i ih =>
      rw [deleteLoop] at h
      obtain ⟨st', hbody, hrest⟩ := Option.bind_eq_some_iff.mp h
      obtain ⟨hle, hsame⟩ := ih hrest
      rw [deleteBody] at hbody
      split at hbody
      · obtain ⟨m, -, rfl⟩ := Option.map_eq_some_iff.mp hbody
        exact ⟨by simp only at hle; omega, fun heq => by simp only at hle; omega⟩
      · cases hbody
        exact ⟨hle, hsame⟩

theorem Tracked.trackExec (h : Tracked mem s) {addr size prot : BitVec w} {stop : Nat}
    (hstop : (addr + size).toNat = stop) (hlt : addr.toNat < stop) (hexec : isExec prot = true)
    (hhandled : Handled s.execAllocs (.add addr.toNat stop (-1)))
    (hroom : NeedsSlot s.execAllocs (.add addr.toNat stop (-1)) →
      s.execAllocs.entries.length < s.execAllocs.memSize) :
    ∃ m, CodeMappings.trackExec dup addr size prot (-1) s = some { s with execAllocs := m } ∧ Valid m ∧ Anonymous m ∧
      covered m = covered s.execAllocs ∪ { a | addr.toNat ≤ a ∧ a < stop } := by
  obtain ⟨r, ⟨hstep, hvalid, hcovered, -⟩, hanon⟩ :=
    @addStep_handled dup _ _ _ _ h.valid h.anonymous (by decide) hroom hhandled
  have hzero : r.1 = 0 := intervalMapAdd_zero (by decide) hlt hstep
  refine ⟨r.2, ?_, hvalid, hanon, hcovered⟩
  rw [CodeMappings.trackExec, if_pos (isExec_iff.mp hexec), hstop]
  exact Option.bind_eq_some_iff.mpr ⟨r, hstep, if_pos hzero⟩

/-- A delete that is handled and finds its slot; it flushes when it takes away anything. -/
theorem Tracked.unmap (h : Tracked mem s) {addr size : BitVec w} {stop : Nat} (hstop : (addr + size).toNat = stop)
    (hlt : addr.toNat < stop) (hhandled : Handled s.execAllocs (.delete addr.toNat stop))
    (hroom : NeedsSlot s.execAllocs (.delete addr.toNat stop) →
      s.execAllocs.entries.length < s.execAllocs.memSize) :
    ∃ s', notifyVmOp dup .vmUnmap addr size (0 : BitVec w) (-1) s = some s' ∧ Valid s'.execAllocs ∧
      Anonymous s'.execAllocs ∧ covered s'.execAllocs = covered s.execAllocs \ { a | addr.toNat ≤ a ∧ a < stop } ∧
      (({ a | addr.toNat ≤ a ∧ a < stop } ∩ covered s.execAllocs).Nonempty → s.flushes < s'.flushes) := by
  obtain ⟨r, ⟨hstep, hvalid, hcovered, -⟩, hanon⟩ :=
    @deleteStep_handled dup _ _ _ h.valid h.anonymous hroom hhandled
  have hloop := hstep
  rw [IntervalSpec.step, delete_eq hlt] at hloop
  obtain ⟨hle, hsame⟩ := deleteLoop_count hloop
  refine ⟨⟨r.2, if r.1 ≥ 1 then s.flushes + 1 else s.flushes⟩, ?_, hvalid, hanon, hcovered, ?_⟩
  · rw [notifyVmOp, hstop]
    exact Option.bind_eq_some_iff.mpr ⟨r, hstep, if_pos hle⟩
  · rintro ⟨a, harange, hacovered⟩
    have hhit : r.1 ≥ 1 := by
      by_contra hnot
      have hmap := hsame (by simp only at hle ⊢; omega)
      rw [List.take_length, List.append_nil] at hmap
      rw [hmap] at hcovered
      have hout : a ∉ covered s.execAllocs := by
        rw [show covered s.execAllocs = _ from hcovered]
        exact fun hin => hin.2 harange
      exact hout hacovered
    simp only [if_pos hhit]
    exact Nat.lt_succ_self _

/-- One documented call that fits is handled, flushes when it must and leaves the map tracked. -/
theorem Tracked.step (h : Tracked mem s) (hdoc : Documented pageSize mem c) (hfits : Fits pageSize mem s c) :
    ∃ s', syscallHandlerPre dup pageSize c s = some s' ∧
      ((c.replaced pageSize ∩ mem.exec).Nonempty → s.flushes < s'.flushes) ∧ Tracked (mem.next pageSize c) s' := by
  cases c with
  | mmap len prot flags ret addr =>
      obtain ⟨hspace, hlen, hkernel⟩ := hdoc
      obtain ⟨hstart, hstop⟩ := hspace.bounds
      have hpages : { a | (alignLower ret pageSize).toNat ≤ a ∧ a < roundUp (ret.toNat + len.toNat) pageSize.toNat } =
          pages pageSize ret len := by
        rw [hstart]
        rfl
      have hdisjoint : Disjoint (pages pageSize ret len) mem.exec := by
        split at hkernel
        · exact hfits.1 ‹_›
        · exact hkernel.mono_right h.mapped
      have hnone : ¬((Syscall.mmap len prot flags ret addr).replaced pageSize ∩ mem.exec).Nonempty := by
        rw [Set.not_nonempty_iff_eq_empty]
        exact hdisjoint.inter_eq
      simp only [syscallHandlerPre, if_pos hspace.le_error, notifyVmOp]
      cases hexec : isExec prot with
      | false =>
          refine ⟨s, ?_, fun hsome => absurd hsome hnone, h.valid, h.anonymous, ?_, ?_⟩
          · rw [CodeMappings.trackExec, if_neg (fun hyes => by simp [isExec_iff.mpr hyes] at hexec)]
          · simp only [Memory.next, hexec, Bool.false_eq_true, if_false]
            exact Set.sdiff_subset.trans h.recorded
          · simp only [Memory.next, hexec, Bool.false_eq_true, if_false]
            exact (Set.sdiff_subset.trans h.mapped).trans Set.subset_union_left
      | true =>
          obtain ⟨hhandled, hroom⟩ := hfits.2 hexec
          have hlt : (alignLower ret pageSize).toNat < roundUp (ret.toNat + len.toNat) pageSize.toNat :=
            (congrArg BitVec.toNat hstart).trans_lt (hspace.lt_stop hlen)
          obtain ⟨m, hadd, hvalid, hanon, hcovered⟩ := @Tracked.trackExec w dup mem s h _ _ prot _ hstop hlt hexec
            (hstart.symm ▸ hhandled) (hstart.symm ▸ hroom)
          rw [hpages] at hcovered
          refine ⟨_, hadd, fun hsome => absurd hsome hnone, hvalid, hanon, ?_, ?_⟩
          · simp only [Memory.next, hexec, if_true]
            rw [hcovered]
            exact Set.union_subset_union_left _ h.recorded
          · simp only [Memory.next, hexec, if_true]
            exact Set.union_subset_union_left _ h.mapped
  | mprotect addr len prot =>
      obtain ⟨hspace, hmapped⟩ := hdoc
      refine ⟨s, ?_, fun hsome => absurd hsome (by simp [Syscall.replaced]), h.valid, h.anonymous, ?_, ?_⟩
      · simp only [syscallHandlerPre, notifyVmOp, CodeMappings.trackExec]
        rw [if_neg (not_not.mpr (kernelProt_exec prot))]
      · simp only [Memory.next]
        split
        · exact Set.union_subset h.recorded (hfits ‹_›)
        · exact h.recorded
      · simp only [Memory.next]
        split
        · exact Set.union_subset h.mapped hmapped
        · exact h.mapped
  | munmap addr len =>
      obtain ⟨hspace, hlen⟩ := hdoc
      obtain ⟨hstart, hstop⟩ := hspace.bounds
      obtain ⟨hhandled, hroom⟩ := hfits
      have hpages : { a | (alignLower addr pageSize).toNat ≤ a ∧
          a < roundUp (addr.toNat + len.toNat) pageSize.toNat } = pages pageSize addr len := by
        rw [hstart]
        rfl
      have hlt : (alignLower addr pageSize).toNat < roundUp (addr.toNat + len.toNat) pageSize.toNat :=
        (congrArg BitVec.toNat hstart).trans_lt (hspace.lt_stop hlen)
      obtain ⟨s', hunmap, hvalid, hanon, hcovered, hflush⟩ := @Tracked.unmap w dup mem s h _ _ _ hstop hlt
        (hstart.symm ▸ hhandled) (hstart.symm ▸ hroom)
      rw [hpages] at hcovered hflush
      refine ⟨s', hunmap, fun hsome => hflush (hsome.mono (Set.inter_subset_inter_right _ h.recorded)), hvalid,
        hanon, ?_, ?_⟩
      · rw [hcovered]
        exact Set.sdiff_subset_sdiff_left h.recorded
      · exact Set.sdiff_subset_sdiff_left h.mapped

theorem Tracked.run {cs : List (Syscall w)} (h : Tracked mem s) (hdoc : AllDocumented pageSize mem cs)
    (hfit : AllFit pageSize dup mem s cs) : RunOk pageSize dup mem s cs := by
  induction cs generalizing mem s with
  | nil => trivial
  | cons c cs ih =>
      obtain ⟨s', hstep, hflush, htracked⟩ := Tracked.step h hdoc.1 hfit.1
      exact ⟨s', hstep, hflush, ih htracked hdoc.2 (hfit.2 s' hstep)⟩

/-- From a map in shape, such as the empty one, a run of documented calls that fit is tracked. -/
theorem codeMappings_run (dup : Int → Int) (pageSize : BitVec w) (m : IntervalMap) (mapped : Set Nat) (flushes : Nat)
    (cs : List (Syscall w)) (hvalid : Valid m) (hanon : Anonymous m)
    (hdoc : AllDocumented pageSize ⟨mapped, ∅⟩ cs) (hfit : AllFit pageSize dup ⟨mapped, ∅⟩ ⟨m, flushes⟩ cs) :
    RunOk pageSize dup ⟨mapped, ∅⟩ ⟨m, flushes⟩ cs :=
  Tracked.run ⟨hvalid, hanon, Set.empty_subset _, Set.empty_subset _⟩ hdoc hfit

end Invariant

section Example

theorem valid_init (size : Nat) : Valid (intervalMapInit size) ∧ Anonymous (intervalMapInit size) :=
  ⟨⟨fun _ he => absurd he List.not_mem_nil, List.Pairwise.nil⟩, fun _ he => absurd he List.not_mem_nil⟩

/-- An executable page is mapped and unmapped. -/
theorem codeMappings_run_unmap :
    RunOk (0x1000 : BitVec 64) id ⟨∅, ∅⟩ ⟨intervalMapInit 512, 0⟩
      [.mmap 0x1000 5 0x22 0x10000 0, .munmap 0x10000 0x1000] := by
  have hmap : syscallHandlerPre id (0x1000 : BitVec 64) (.mmap 0x1000 5 0x22 0x10000 0) ⟨intervalMapInit 512, 0⟩ =
      some ⟨⟨512, [⟨0x10000, 0x11000, -1⟩]⟩, 0⟩ := by rfl
  have hspace : InSpace (0x1000 : BitVec 64) 0x10000 0x1000 := ⟨by decide, by decide, by decide⟩
  apply codeMappings_run id _ _ _ _ _ (valid_init 512).1 (valid_init 512).2
  · refine ⟨⟨hspace, by decide, ?_⟩, ⟨hspace, by decide⟩, trivial⟩
    rw [if_neg (by decide)]
    exact Set.disjoint_empty _
  · refine ⟨⟨fun hfixed => absurd hfixed (by decide), fun _ => ⟨?_, fun _ => by decide⟩⟩, fun s hs => ?_⟩
    · exact fun _ e he => absurd he (by simp [Lost, hitsOf, intervalMapInit])
    · obtain rfl := Option.some.inj (hmap.symm.trans hs)
      refine ⟨⟨fun _ e he => ?_, fun _ => by decide⟩, fun _ _ => trivial⟩
      obtain rfl := List.mem_singleton.mp he
      exact clean_iff.mpr ⟨by simp [CutsLeft, roundUp], by simp [CutsRight, roundUp]⟩

/-- A page that mprotect makes executable is not recorded, and unmapping it flushes nothing. -/
theorem codeMappings_run_mprotect :
    AllDocumented (0x1000 : BitVec 64) ⟨∅, ∅⟩
        [.mmap 0x1000 3 0x22 0x10000 0, .mprotect 0x10000 0x1000 5, .munmap 0x10000 0x1000] ∧
      ¬RunOk (0x1000 : BitVec 64) id ⟨∅, ∅⟩ ⟨intervalMapInit 512, 0⟩
        [.mmap 0x1000 3 0x22 0x10000 0, .mprotect 0x10000 0x1000 5, .munmap 0x10000 0x1000] := by
  have hspace : InSpace (0x1000 : BitVec 64) 0x10000 0x1000 := ⟨by decide, by decide, by decide⟩
  refine ⟨⟨⟨hspace, by decide, ?_⟩, ⟨hspace, ?_⟩, ⟨hspace, by decide⟩, trivial⟩, ?_⟩
  · rw [if_neg (by decide)]
    exact Set.disjoint_empty _
  · exact Set.subset_union_right
  · rintro ⟨s₁, h₁, -, s₂, h₂, -, s₃, h₃, hflush, -⟩
    have hkeep₁ : syscallHandlerPre id (0x1000 : BitVec 64) (.mmap 0x1000 3 0x22 0x10000 0) ⟨intervalMapInit 512, 0⟩ =
        some ⟨intervalMapInit 512, 0⟩ := by rfl
    have hkeep₂ : syscallHandlerPre id (0x1000 : BitVec 64) (.mprotect 0x10000 0x1000 5) ⟨intervalMapInit 512, 0⟩ =
        some ⟨intervalMapInit 512, 0⟩ := by rfl
    have hkeep₃ : syscallHandlerPre id (0x1000 : BitVec 64) (.munmap 0x10000 0x1000) ⟨intervalMapInit 512, 0⟩ =
        some ⟨intervalMapInit 512, 0⟩ := by rfl
    obtain rfl := Option.some.inj (hkeep₁.symm.trans h₁)
    obtain rfl := Option.some.inj (hkeep₂.symm.trans h₂)
    obtain rfl := Option.some.inj (hkeep₃.symm.trans h₃)
    have hin : 0x10000 ∈ pages (0x1000 : BitVec 64) 0x10000 0x1000 := by
      simp only [pages]
      decide
    exact absurd (hflush ⟨0x10000, hin, Or.inr hin⟩) (Nat.lt_irrefl 0)

end Example

end Mambo.CodeMappings
