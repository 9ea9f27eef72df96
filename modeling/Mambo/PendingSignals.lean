import Mambo.IntShifts
import Mathlib.Algebra.BigOperators.Group.Finset.Piecewise
import Mathlib.Algebra.Order.BigOperators.Group.Finset
import Mathlib.Data.Int.Basic
import Mathlib.Data.Nat.Find
import Mathlib.Logic.Function.Basic
import Mathlib.Order.Basic

namespace Mambo.PendingSignals

open IntShifts

/-- `_NSIG` of the C library. -/
def nsig : Nat := 65

abbrev Signo := { i : Nat // 0 < i ∧ i < nsig }

/-- The counters of `dbm_thread`: an `int` for each signal and a `uint32_t` for all of them. -/
structure Signals where
  pendingSignals : Nat → BitVec 32
  isSignalPending : BitVec 32

structure SelfSignal where
  pid : Nat
  tid : Nat
  signo : Nat
deriving DecidableEq

/-- `SIGSEGV`, `SIGBUS`, `SIGFPE`, `SIGTRAP`, `SIGILL` and `SIGSYS`, whose handlers run immediately. -/
def isSynchronous (i : Nat) : Bool :=
  i == 11 || i == 7 || i == 8 || i == 5 || i == 4 || i == 31

/-- The tail of `signal_dispatcher`: both counters move. -/
def signalDispatcher (i : Nat) (s : Signals) : Signals :=
  if isSynchronous i then s
  else
    { pendingSignals := Function.update s.pendingSignals i (s.pendingSignals i + 1)
      isSignalPending := s.isSignalPending + 1 }

/-- `atomic_decrement_if_positive_i32`: the value it returns and the value it leaves behind. -/
def atomicDecrementIfPositive (v dec : BitVec 32) : BitVec 32 × BitVec 32 :=
  if v.slt dec then (-1, v) else (v - dec, v - dec)

/-- The loop of `deliver_signals` over the signal numbers that are left. -/
def deliverLoop (undefined : Nat → BitVec 32) (sigmask : BitVec 64) (getpid gettid : Nat) :
    List Nat → Signals → Option SelfSignal × Signals
  | [], s => (none, s)
  | i :: is, s =>
      if maskBit undefined sigmask i then deliverLoop undefined sigmask getpid gettid is s
      else
        let (ret, left) := atomicDecrementIfPositive (s.pendingSignals i) 1
        let s' := { s with pendingSignals := Function.update s.pendingSignals i left }
        if ret.slt 0 then deliverLoop undefined sigmask getpid gettid is s'
        else (some ⟨getpid, gettid, i⟩, { s' with isSignalPending := s'.isSignalPending + (-1) })

/-- `deliver_signals` outside `exit_group`; it returns 1 with the signal, or 0. -/
def deliverSignals (undefined : Nat → BitVec 32) (sigmask : BitVec 64) (getpid gettid : Nat) (s : Signals) :
    Option SelfSignal × Signals :=
  deliverLoop undefined sigmask getpid gettid (List.range nsig) s

section Run

/-- The thread's counters and kernel mask; how often each signal was queued and delivered is kept beside them. -/
structure Thread where
  signals : Signals
  sigmask : BitVec 64
  queued : Nat → Nat
  delivered : Nat → Nat

/-- A thread on which no signal has arrived. -/
def Thread.start (sigmask : BitVec 64) : Thread :=
  ⟨⟨fun _ => 0, 0⟩, sigmask, fun _ => 0, fun _ => 0⟩

inductive Action where
  | arrive (i : Signo)
  | setMask (sigmask : BitVec 64)
  | deliver

variable (undefined : Nat → BitVec 32) (getpid gettid : Nat)

/-- What `deliver_signals` returns in this state. -/
def delivery (t : Thread) : Option SelfSignal × Signals :=
  deliverSignals undefined t.sigmask getpid gettid t.signals

def step (t : Thread) : Action → Thread
  | .arrive i =>
      { t with
        signals := signalDispatcher i t.signals
        queued := if isSynchronous i then t.queued else Function.update t.queued i (t.queued i + 1) }
  | .setMask m => { t with sigmask := m }
  | .deliver =>
      match delivery undefined getpid gettid t with
      | (none, s) => { t with signals := s }
      | (some sig, s) =>
          { t with
            signals := s
            delivered := Function.update t.delivered sig.signo (t.delivered sig.signo + 1) }

def Pending (t : Thread) (i : Nat) : Prop :=
  t.delivered i < t.queued i

/-- The kernel's mask has signal `i` at bit `i - 1`. -/
def Blocked (t : Thread) (i : Nat) : Prop :=
  t.sigmask.getLsbD (i - 1) = true

/-- Every queued signal is delivered or still counted, once, and the total is the sum of the counters. -/
structure Accounts (t : Thread) : Prop where
  delivered_le : ∀ i, t.delivered i ≤ t.queued i
  zero : t.queued 0 = 0
  pending : ∀ i < nsig, (t.signals.pendingSignals i).toInt = (t.queued i - t.delivered i : Nat)
  total : (t.signals.isSignalPending.toNat : Int) =
    ∑ i ∈ Finset.range nsig, (t.signals.pendingSignals i).toInt

/-- What the next action promises: a delivered signal is pending and not blocked, and none is delivered only if
every pending one is blocked. -/
def Delivers (t : Thread) : Action → Prop
  | .deliver =>
      match (delivery undefined getpid gettid t).1 with
      | some sig => sig.pid = getpid ∧ sig.tid = gettid ∧ Pending t sig.signo ∧ ¬Blocked t sig.signo
      | none => ∀ i < nsig, Pending t i → Blocked t i
  | _ => True

def RunOk (t : Thread) : List Action → Prop
  | [] => Accounts t
  | a :: as => Accounts t ∧ Delivers undefined getpid gettid t a ∧ RunOk (step undefined getpid gettid t a) as

/-- When an action keeps the promise: the counters do not overflow, and the bits that `deliver_signals` tests
lead to a signal that is not blocked, or none is deliverable by either. -/
def Fits (t : Thread) : Action → Prop
  | .arrive i =>
      isSynchronous i = false →
        t.queued i - t.delivered i + 1 < 2 ^ 31 ∧ t.signals.isSignalPending.toNat + 1 < 2 ^ 32
  | .setMask _ => True
  | .deliver =>
      (∃ i < nsig, Pending t i ∧ ¬Blocked t i ∧ maskBit undefined t.sigmask i = false ∧
          ∀ j < i, Pending t j → maskBit undefined t.sigmask j = true) ∨
        ∀ i < nsig, Pending t i → Blocked t i ∧ maskBit undefined t.sigmask i = true

def AllFit (t : Thread) : List Action → Prop
  | [] => True
  | a :: as => Fits undefined t a ∧ AllFit (step undefined getpid gettid t a) as

end Run

section Counters

variable {undefined : Nat → BitVec 32} {sigmask : BitVec 64} {getpid gettid : Nat} {s : Signals} {is : List Nat}
  {v : BitVec 32} {n : Nat}

theorem slt_one : v.slt 1 = true ↔ v.toInt ≤ 0 := by
  rw [BitVec.slt_iff_toInt_lt]
  have h : (1 : BitVec 32).toInt = 1 := rfl
  omega

theorem toInt_sub_one (h : 0 < v.toInt) : (v - 1).toInt = v.toInt - 1 := by
  have hlt := @BitVec.toInt_lt 32 v
  rw [BitVec.toInt_sub, show (1 : BitVec 32).toInt = 1 from rfl]
  exact Int.bmod_eq_of_le (by omega) (by omega)

theorem toInt_add_one (h : v.toInt = n) : (v + 1).toInt = (n + 1 : Nat) ↔ n + 1 < 2 ^ 31 := by
  have hlt := @BitVec.toInt_lt 32 v
  rw [BitVec.toInt_add, show (1 : BitVec 32).toInt = 1 from rfl, h]
  constructor
  · intro heq
    have hbound := @Int.bmod_lt (n + 1) (2 ^ 32) (by decide)
    omega
  · intro hfit
    rw [Int.bmod_eq_of_le (by omega) (by omega)]
    rfl

theorem atomicDecrementIfPositive_pos (h : 0 < v.toInt) : atomicDecrementIfPositive v 1 = (v - 1, v - 1) := by
  rw [atomicDecrementIfPositive, if_neg (fun hlt => absurd (slt_one.mp hlt) (by omega))]

theorem atomicDecrementIfPositive_neg (h : v.toInt ≤ 0) : atomicDecrementIfPositive v 1 = (-1, v) := by
  rw [atomicDecrementIfPositive, if_pos (slt_one.mpr h)]

/-- The signal that `deliver_signals` takes, both counters one lower. -/
def taken (getpid gettid : Nat) (s : Signals) (i : Nat) : Option SelfSignal × Signals :=
  (some ⟨getpid, gettid, i⟩,
    { pendingSignals := Function.update s.pendingSignals i (s.pendingSignals i - 1)
      isSignalPending := s.isSignalPending + (-1) })

theorem deliverLoop_masked {i : Nat} (h : maskBit undefined sigmask i = true) :
    deliverLoop undefined sigmask getpid gettid (i :: is) s = deliverLoop undefined sigmask getpid gettid is s := by
  rw [deliverLoop, if_pos h]

theorem deliverLoop_idle {i : Nat} (h : (s.pendingSignals i).toInt ≤ 0) :
    deliverLoop undefined sigmask getpid gettid (i :: is) s = deliverLoop undefined sigmask getpid gettid is s := by
  rw [deliverLoop]
  split
  · rfl
  · simp only [atomicDecrementIfPositive_neg h, Function.update_eq_self]
    rfl

theorem deliverLoop_taken {i : Nat} (hmask : maskBit undefined sigmask i = false)
    (h : 0 < (s.pendingSignals i).toInt) :
    deliverLoop undefined sigmask getpid gettid (i :: is) s = taken getpid gettid s i := by
  have hret : ((s.pendingSignals i - 1).slt 0) = false := by
    have hsub := toInt_sub_one h
    rw [BitVec.slt_eq_decide, hsub]
    simp
    omega
  simp only [deliverLoop, hmask, atomicDecrementIfPositive_pos h, hret, taken]
  rfl

def Skipped (undefined : Nat → BitVec 32) (sigmask : BitVec 64) (s : Signals) (i : Nat) : Prop :=
  0 < (s.pendingSignals i).toInt → maskBit undefined sigmask i = true

theorem deliverLoop_skip {i : Nat} (h : Skipped undefined sigmask s i) :
    deliverLoop undefined sigmask getpid gettid (i :: is) s = deliverLoop undefined sigmask getpid gettid is s := by
  by_cases hpos : 0 < (s.pendingSignals i).toInt
  · exact deliverLoop_masked (h hpos)
  · exact deliverLoop_idle (by omega)

theorem deliverLoop_none (h : ∀ i ∈ is, Skipped undefined sigmask s i) :
    deliverLoop undefined sigmask getpid gettid is s = (none, s) := by
  induction is with
  | nil => rfl
  | cons i is ih =>
      rw [deliverLoop_skip (h i List.mem_cons_self)]
      exact ih (fun j hj => h j (List.mem_cons_of_mem i hj))

theorem deliverLoop_first {pre post : List Nat} {i : Nat} (hpre : ∀ j ∈ pre, Skipped undefined sigmask s j)
    (hmask : maskBit undefined sigmask i = false) (h : 0 < (s.pendingSignals i).toInt) :
    deliverLoop undefined sigmask getpid gettid (pre ++ i :: post) s = taken getpid gettid s i := by
  induction pre with
  | nil => exact deliverLoop_taken hmask h
  | cons j pre ih =>
      rw [List.cons_append, deliverLoop_skip (hpre j List.mem_cons_self)]
      exact ih (fun k hk => hpre k (List.mem_cons_of_mem j hk))

theorem range_split {i n : Nat} (h : i < n) :
    ∃ post, List.range n = List.range i ++ i :: post := by
  obtain ⟨k, rfl⟩ := Nat.exists_eq_add_of_lt h
  refine ⟨(List.range k).map (i + 1 + ·), ?_⟩
  rw [show i + k + 1 = i + 1 + k by omega, List.range_add, List.range_succ, List.append_assoc]
  rfl

/-- The lowest pending signal whose tested bit is clear is the one that `deliver_signals` takes. -/
theorem deliverSignals_cases (undefined : Nat → BitVec 32) (sigmask : BitVec 64) (getpid gettid : Nat)
    (s : Signals) :
    (∃ i < nsig, 0 < (s.pendingSignals i).toInt ∧ maskBit undefined sigmask i = false ∧
      (∀ j < i, Skipped undefined sigmask s j) ∧
      deliverSignals undefined sigmask getpid gettid s = taken getpid gettid s i) ∨
    ((∀ i < nsig, Skipped undefined sigmask s i) ∧
      deliverSignals undefined sigmask getpid gettid s = (none, s)) := by
  classical
  by_cases hex : ∃ i, i < nsig ∧ ¬Skipped undefined sigmask s i
  · obtain ⟨hlt, hnot⟩ := Nat.find_spec hex
    have hlow : ∀ j < Nat.find hex, Skipped undefined sigmask s j := fun j hj => by
      have hmin := Nat.find_min hex hj
      exact not_not.mp fun hskip => hmin ⟨hj.trans hlt, hskip⟩
    rw [Skipped, Classical.not_imp, Bool.not_eq_true] at hnot
    obtain ⟨post, hrange⟩ := range_split hlt
    refine Or.inl ⟨Nat.find hex, hlt, hnot.1, hnot.2, hlow, ?_⟩
    rw [deliverSignals, hrange]
    exact deliverLoop_first (fun j hj => hlow j (List.mem_range.mp hj)) hnot.2 hnot.1
  · have hall : ∀ i < nsig, Skipped undefined sigmask s i := fun i hi =>
      not_not.mp fun hskip => hex ⟨i, hi, hskip⟩
    exact Or.inr ⟨hall, deliverLoop_none (fun i hi => hall i (List.mem_range.mp hi))⟩

end Counters

section Steps

variable {undefined : Nat → BitVec 32} {getpid gettid : Nat} {t : Thread} {i : Nat}

theorem sum_shift {f g : Nat → Int} {n : Nat} {d : Int} (hi : i < n) (hat : g i = f i + d)
    (hother : ∀ j, j ≠ i → g j = f j) :
    ∑ j ∈ Finset.range n, g j = ∑ j ∈ Finset.range n, f j + d := by
  have hsplit : ∀ j ∈ Finset.range n, g j = f j + if j = i then d else 0 := fun j _ => by
    by_cases hj : j = i
    · rw [if_pos hj, hj, hat]
    · rw [if_neg hj, hother j hj, add_zero]
  rw [Finset.sum_congr rfl hsplit, Finset.sum_add_distrib, Finset.sum_ite_eq', if_pos (Finset.mem_range.mpr hi)]

theorem Accounts.counted (h : Accounts t) (hi : i < nsig) :
    0 < (t.signals.pendingSignals i).toInt ↔ Pending t i := by
  rw [h.pending i hi, Pending]
  omega

theorem Accounts.positive (h : Accounts t) (hi : Pending t i) : 0 < i :=
  Nat.pos_of_ne_zero fun hzero => by
    rw [Pending, hzero, h.zero] at hi
    exact absurd hi (Nat.not_lt_zero _)

theorem Accounts.skipped (h : Accounts t) (hi : i < nsig) :
    Skipped undefined t.sigmask t.signals i ↔ (Pending t i → maskBit undefined t.sigmask i = true) := by
  rw [Skipped, h.counted hi]

theorem Accounts.start (sigmask : BitVec 64) : Accounts (Thread.start sigmask) where
  delivered_le _ := Nat.le_refl 0
  zero := rfl
  pending _ _ := rfl
  total := by simp [Thread.start]

/-- The counters move together as long as neither overflows. -/
theorem Accounts.arrive (h : Accounts t) (i : Signo) :
    Accounts (step undefined getpid gettid t (.arrive i)) ↔ Fits undefined t (.arrive i) := by
  obtain ⟨i, hpos, hlt⟩ := i
  cases hsync : isSynchronous i with
  | true =>
      have hstep : step undefined getpid gettid t (.arrive ⟨i, hpos, hlt⟩) = t := by
        simp [step, signalDispatcher, hsync]
      simp [hstep, Fits, hsync, h]
  | false =>
      have hle := h.delivered_le i
      have hadd := toInt_add_one (h.pending i hlt)
      have htotal : (t.signals.isSignalPending + 1).toNat = t.signals.isSignalPending.toNat + 1 ↔
          t.signals.isSignalPending.toNat + 1 < 2 ^ 32 := by bv_omega
      simp only [Fits, hsync, forall_const]
      constructor
      · intro hnext
        have hfit : t.queued i - t.delivered i + 1 < 2 ^ 31 := by
          have hpending := hnext.pending i hlt
          simp only [step, signalDispatcher, hsync, Bool.false_eq_true, if_false, Function.update_self] at hpending
          rw [← hadd, hpending]
          omega
        refine ⟨hfit, htotal.mp ?_⟩
        have hsum := hnext.total
        simp only [step, signalDispatcher, hsync, Bool.false_eq_true, if_false] at hsum
        rw [sum_shift (f := fun j => (t.signals.pendingSignals j).toInt) (d := 1) hlt ?_ ?_, ← h.total] at hsum
        · omega
        · simp only [Function.update_self]
          rw [hadd.mpr hfit, h.pending i hlt]
          rfl
        · intro j hj
          rw [Function.update_of_ne hj]
      · rintro ⟨hfit, hfits⟩
        refine ⟨fun j => ?_, ?_, fun j hj => ?_, ?_⟩
        · simp only [step, hsync, Bool.false_eq_true, if_false]
          by_cases hji : j = i
          · rw [hji, Function.update_self]
            omega
          · rw [Function.update_of_ne hji]
            exact h.delivered_le j
        · simp only [step, hsync, Bool.false_eq_true, if_false]
          rw [Function.update_of_ne hpos.ne]
          exact h.zero
        · simp only [step, signalDispatcher, hsync, Bool.false_eq_true, if_false]
          by_cases hji : j = i
          · rw [hji, Function.update_self, Function.update_self, hadd.mpr hfit]
            omega
          · rw [Function.update_of_ne hji, Function.update_of_ne hji]
            exact h.pending j hj
        · simp only [step, signalDispatcher, hsync, Bool.false_eq_true, if_false]
          rw [sum_shift (f := fun j => (t.signals.pendingSignals j).toInt) (d := 1) hlt ?_ ?_, ← h.total,
            htotal.mpr hfits]
          · rfl
          · simp only [Function.update_self]
            rw [hadd.mpr hfit, h.pending i hlt]
            rfl
          · intro j hj
            rw [Function.update_of_ne hj]

theorem Accounts.setMask (h : Accounts t) (m : BitVec 64) :
    Accounts (step undefined getpid gettid t (.setMask m)) :=
  ⟨h.delivered_le, h.zero, h.pending, h.total⟩

theorem Accounts.total_pos (h : Accounts t) (hi : i < nsig) (hpending : 0 < (t.signals.pendingSignals i).toInt) :
    0 < t.signals.isSignalPending.toNat := by
  have hnonneg : ∀ j ∈ Finset.range nsig, 0 ≤ (t.signals.pendingSignals j).toInt := fun j hj => by
    rw [h.pending j (Finset.mem_range.mp hj)]
    exact Int.natCast_nonneg _
  have hle := Finset.single_le_sum hnonneg (Finset.mem_range.mpr hi)
  have htotal := h.total
  omega

theorem Accounts.deliver (h : Accounts t) : Accounts (step undefined getpid gettid t .deliver) := by
  rcases deliverSignals_cases undefined t.sigmask getpid gettid t.signals with
    ⟨i, hi, hpos, -, -, hrun⟩ | ⟨-, hrun⟩
  · have hpending : Pending t i := (h.counted hi).mp hpos
    have htotal := h.total_pos hi hpos
    have hsub := toInt_sub_one hpos
    simp only [step, delivery, hrun, taken]
    refine ⟨fun j => ?_, h.zero, fun j hj => ?_, ?_⟩
    · show Function.update t.delivered i (t.delivered i + 1) j ≤ t.queued j
      by_cases hji : j = i
      · rw [hji, Function.update_self]
        exact hpending
      · rw [Function.update_of_ne hji]
        exact h.delivered_le j
    · show (Function.update t.signals.pendingSignals i (t.signals.pendingSignals i - 1) j).toInt =
        (t.queued j - Function.update t.delivered i (t.delivered i + 1) j : Nat)
      by_cases hji : j = i
      · rw [hji, Function.update_self, Function.update_self, hsub, h.pending i hi]
        rw [Pending] at hpending
        omega
      · rw [Function.update_of_ne hji, Function.update_of_ne hji]
        exact h.pending j hj
    · rw [sum_shift (f := fun j => (t.signals.pendingSignals j).toInt) (d := -1) hi ?_ ?_, ← h.total]
      · bv_omega
      · simp only [Function.update_self]
        rw [hsub]
        rfl
      · intro j hj
        simp only [Function.update_of_ne hj]
  · simp only [step, delivery, hrun]
    exact ⟨h.delivered_le, h.zero, h.pending, h.total⟩

/-- `deliver_signals` keeps its promise exactly when the bits it tests agree with the mask on the signal found. -/
theorem Accounts.delivers_iff (h : Accounts t) :
    Delivers undefined getpid gettid t .deliver ↔ Fits undefined t .deliver := by
  rcases deliverSignals_cases undefined t.sigmask getpid gettid t.signals with
    ⟨i, hi, hpos, hmask, hlow, hrun⟩ | ⟨hall, hrun⟩
  · have hpending : Pending t i := (h.counted hi).mp hpos
    simp only [Delivers, Fits, delivery, hrun, taken, true_and]
    constructor
    · rintro ⟨-, hfree⟩
      exact Or.inl ⟨i, hi, hpending, hfree, hmask, fun j hj => (h.skipped (hj.trans hi)).mp (hlow j hj)⟩
    · rintro (⟨k, hk, hkpending, hkfree, hkmask, hklow⟩ | hblocked)
      · have heq : k = i := by
          rcases lt_trichotomy k i with hlt | heq | hgt
          · exact absurd ((h.skipped hk).mp (hlow k hlt) hkpending) (by simp [hkmask])
          · exact heq
          · exact absurd (hklow i hgt hpending) (by simp [hmask])
        rw [heq] at hkfree
        exact ⟨hpending, hkfree⟩
      · exact absurd (hblocked i hi hpending).2 (by simp [hmask])
  · simp only [Delivers, Fits, delivery, hrun]
    constructor
    · intro hblocked
      exact Or.inr fun i hi hpending => ⟨hblocked i hi hpending, (h.skipped hi).mp (hall i hi) hpending⟩
    · rintro (⟨k, hk, hkpending, -, hkmask, -⟩ | hblocked)
      · exact absurd ((h.skipped hk).mp (hall k hk) hkpending) (by simp [hkmask])
      · exact fun i hi hpending => (hblocked i hi hpending).1

theorem Accounts.step_iff (h : Accounts t) (a : Action) :
    Delivers undefined getpid gettid t a ∧ Accounts (step undefined getpid gettid t a) ↔ Fits undefined t a := by
  cases a with
  | arrive i => exact ⟨fun hstep => (h.arrive i).mp hstep.2, fun hfits => ⟨trivial, (h.arrive i).mpr hfits⟩⟩
  | setMask m => exact ⟨fun _ => trivial, fun _ => ⟨trivial, h.setMask m⟩⟩
  | deliver => rw [h.delivers_iff, and_iff_left h.deliver]

theorem RunOk.accounts {as : List Action} (h : RunOk undefined getpid gettid t as) : Accounts t := by
  cases as with
  | nil => exact h
  | cons a as => exact h.1

theorem Accounts.run_iff (h : Accounts t) (as : List Action) :
    RunOk undefined getpid gettid t as ↔ AllFit undefined getpid gettid t as := by
  induction as generalizing t with
  | nil => exact ⟨fun _ => trivial, fun _ => h⟩
  | cons a as ih =>
      constructor
      · rintro ⟨-, hdelivers, hrest⟩
        exact ⟨(h.step_iff a).mp ⟨hdelivers, hrest.accounts⟩, (ih hrest.accounts).mp hrest⟩
      · rintro ⟨hfits, hrest⟩
        have hstep := (@Accounts.step_iff undefined getpid gettid t h a).mpr hfits
        exact ⟨h, hstep.1, (ih hstep.2).mpr hrest⟩

/-- From a thread without signals, the counters agree and every delivery is right in every state of a run exactly
when each action of the run fits. -/
theorem deferredSignals_run (undefined : Nat → BitVec 32) (getpid gettid : Nat) (sigmask : BitVec 64)
    (as : List Action) :
    RunOk undefined getpid gettid (Thread.start sigmask) as ↔
      AllFit undefined getpid gettid (Thread.start sigmask) as :=
  (Accounts.start sigmask).run_iff as

/-- `SIGUSR1` is blocked by bit 9 of the mask, but `deliver_signals` tests bit 10 and delivers it. -/
theorem deferredSignals_blocked :
    ¬RunOk oneShlWord 1 1 (Thread.start 0x200) [.arrive ⟨10, by decide⟩, .deliver] := by
  rintro ⟨-, -, haccounts, hdelivers, -⟩
  rcases haccounts.delivers_iff.mp hdelivers with ⟨i, -, hpending, hfree, -⟩ | hall
  · have hten : i = 10 := by
      by_contra hne
      simp [Pending, step, Thread.start, isSynchronous, Function.update_of_ne hne] at hpending
    rw [hten] at hfree
    exact hfree (show (0x200 : BitVec 64).getLsbD 9 = true by decide)
  · have hpending : Pending (step oneShlWord 1 1 (Thread.start 0x200) (.arrive ⟨10, by decide⟩)) 10 := by
      simp [Pending, step, Thread.start, isSynchronous]
    have hclear : maskBit oneShlWord 0x200 10 = false := by decide
    exact absurd (hall 10 (by decide) hpending).2 (Bool.eq_false_iff.mp hclear)

end Steps

end Mambo.PendingSignals
