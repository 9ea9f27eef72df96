import Mathlib.Data.BitVec
import Mathlib.Logic.Function.Basic
import Mathlib.Order.Basic

namespace Mambo.SignalHandlers

inductive Arch
  | aarch32
  | aarch64

abbrev Arch.bits : Arch → Nat
  | .aarch32 => 32
  | .aarch64 => 64

abbrev Word (arch : Arch) := BitVec arch.bits

/-- `struct kernel_sigaction`, with the part of the mask that the kernel reads. -/
@[ext]
structure KernelSigaction (arch : Arch) where
  kSaHandler : Word arch
  saFlags : Word arch
  saRestorer : Word arch
  saMask : BitVec 64
deriving DecidableEq

section Constants

variable {arch : Arch}

def sigDfl : Word arch := 0

def sigIgn : Word arch := 1

def saSiginfo : Word arch := 4

def einval : Word arch := -22

def efault : Word arch := -14

def unlinkSignal : Nat := 4

def sigkill : Nat := 9

def sigstop : Nat := 19

def nsig : Nat := 65

end Constants

/-- A guest pointer to a `kernel_sigaction`, or NULL. -/
abbrev Pointer (α : Type) := Option α

/-- What a call of rt_sigaction can read and write, and the flags that the kernel knows. -/
structure Kernel (arch : Arch) (α : Type) where
  readable : α → Bool
  writable : α → Bool
  supported : Word arch
  siginfo : saSiginfo &&& supported = saSiginfo

structure Call (arch : Arch) (α : Type) where
  sig : Word arch
  act : Pointer α
  oldact : Pointer α
  sigsetsize : Word arch

/-- The actions of the kernel and the memory of the guest. -/
structure Native (arch : Arch) (α : Type) where
  actions : Nat → KernelSigaction arch
  mem : α → KernelSigaction arch

section Kernel

variable {arch : Arch} {α : Type} [DecidableEq α] (k : Kernel arch α)

def Kernel.keep (a : KernelSigaction arch) : KernelSigaction arch :=
  { a with
    saFlags := a.saFlags &&& k.supported
    saMask := a.saMask &&& ~~~(BitVec.twoPow 64 (sigkill - 1) ||| BitVec.twoPow 64 (sigstop - 1)) }

/-- The kernel takes the signal number as an `int`. -/
def Call.signo (c : Call arch α) : Nat := (c.sig.setWidth 32).toNat

def Call.valid (c : Call arch α) : Bool :=
  1 ≤ c.signo && c.signo < nsig && (c.act.isNone || c.signo != sigkill && c.signo != sigstop)

def Kernel.install (c : Call arch α) (s : Native arch α) : Nat → KernelSigaction arch :=
  match c.act with
  | none => s.actions
  | some p => Function.update s.actions c.signo (k.keep (s.mem p))

/-- `rt_sigaction` of the kernel. An `oldact` that cannot be written is found out after the action is installed. -/
def rtSigaction (c : Call arch α) (s : Native arch α) : Word arch × Native arch α :=
  if c.sigsetsize ≠ 8 then (einval, s)
  else if c.act.any (fun p => !k.readable p) then (efault, s)
  else if !c.valid then (einval, s)
  else
    match c.oldact with
    | none => (0, { s with actions := k.install c s })
    | some q =>
        if k.writable q then (0, ⟨k.install c s, Function.update s.mem q (s.actions c.signo)⟩)
        else (efault, { s with actions := k.install c s })

end Kernel

section Emulation

variable {arch : Arch} {α : Type} [DecidableEq α] (k : Kernel arch α)

/-- The address of `signal_trampoline`. -/
abbrev Trampoline (arch : Arch) := { a : Word arch // a ≠ sigIgn ∧ a ≠ sigDfl }

/-- The same with the table of the guest's handlers. -/
structure Emulated (arch : Arch) (α : Type) where
  native : Native arch α
  signalHandlers : Nat → Word arch

def isSpecial (handler : Word arch) : Bool :=
  handler == sigIgn || handler == sigDfl

/-- Whether the handler is replaced in the structure of the guest. -/
def redirects (sig : Nat) (a : KernelSigaction arch) : Bool :=
  sig == unlinkSignal || !isSpecial a.kSaHandler

def redirect (trampoline : Trampoline arch) (a : KernelSigaction arch) : KernelSigaction arch :=
  { a with kSaHandler := trampoline, saFlags := a.saFlags ||| saSiginfo }

/-- What becomes of `act` before the system call; none where it faults. -/
def redirectAct (trampoline : Trampoline arch) (c : Call arch α) (mem : α → KernelSigaction arch) :
    Option (α → KernelSigaction arch) :=
  match c.act with
  | none => some mem
  | some p =>
      if !k.readable p then none
      else if redirects c.sig.toNat (mem p) then
        if k.writable p then some (Function.update mem p (redirect trampoline (mem p))) else none
      else some mem

/-- What becomes of `oldact` after it. -/
def restoreOldact (c : Call arch α) (handlers : Nat → Word arch) (mem : α → KernelSigaction arch) :
    α → KernelSigaction arch :=
  match c.oldact with
  | none => mem
  | some q =>
      if isSpecial (mem q).kSaHandler then mem
      else Function.update mem q { mem q with kSaHandler := handlers c.sig.toNat }

def recordHandler (c : Call arch α) (mem : α → KernelSigaction arch) (handlers : Nat → Word arch) :
    Nat → Word arch :=
  match c.act with
  | none => handlers
  | some p => Function.update handlers c.sig.toNat (mem p).kSaHandler

/-- The case `__NR_rt_sigaction` of `syscall_handler_pre`: none where the assertion fails or a pointer of the guest
faults. -/
def syscallHandlerPre (trampoline : Trampoline arch) (c : Call arch α) (s : Emulated arch α) :
    Option (Word arch × Emulated arch α) :=
  if c.sigsetsize = 8 ∧ c.sig.toNat < nsig then
    (redirectAct k trampoline c s.native.mem).map fun mem =>
      let (ret, native) := rtSigaction k c { s.native with mem := mem }
      if ret = 0 then
        (ret, { native := { native with mem := restoreOldact c s.signalHandlers native.mem }
                signalHandlers := recordHandler c s.native.mem s.signalHandlers })
      else (ret, { native := native, signalHandlers := s.signalHandlers })
  else none

end Emulation

section Run

variable {arch : Arch} {α : Type} [DecidableEq α]

/-- The actions that a program starts with: the default, or ignored. -/
def Native.start (ignored : Nat → Bool) (mem : α → KernelSigaction arch) : Native arch α :=
  ⟨fun sig => ⟨if ignored sig then sigIgn else sigDfl, 0, 0, 0⟩, mem⟩

/-- The same after `install_system_sig_handlers`, with the flags and the restorer that the C library adds. -/
def Emulated.start (trampoline : Trampoline arch) (libcFlags restorer : Word arch) (ignored : Nat → Bool)
    (mem : α → KernelSigaction arch) : Emulated arch α where
  native :=
    { Native.start ignored mem with
      actions := Function.update (Native.start ignored mem).actions unlinkSignal
        ⟨trampoline, saSiginfo ||| libcFlags, restorer, 0⟩ }
  signalHandlers _ := 0

/-- What the guest does: it writes one of its structures, or calls rt_sigaction. -/
inductive Event (arch : Arch) (α : Type)
  | store (p : α) (a : KernelSigaction arch)
  | call (c : Call arch α)

variable (k : Kernel arch α) (trampoline : Trampoline arch)

def Native.store (s : Native arch α) (p : α) (a : KernelSigaction arch) : Native arch α :=
  { s with mem := Function.update s.mem p a }

/-- Each call returns what it returns without MAMBO, and leaves the same in the structures of the guest. -/
def RunOk (n : Native arch α) (e : Emulated arch α) : List (Event arch α) → Prop
  | [] => True
  | .store p a :: es => RunOk (n.store p a) { e with native := e.native.store p a } es
  | .call c :: es => ∃ e', syscallHandlerPre k trampoline c e = some ((rtSigaction k c n).1, e') ∧
      e'.native.mem = (rtSigaction k c n).2.mem ∧ RunOk (rtSigaction k c n).2 e' es

/-- The calls that succeed, of those that pass the assertion and can read their action. -/
def Call.succeeds (c : Call arch α) : Bool :=
  c.valid && c.oldact.all k.writable

/-- The calls that are transparent: one that has its handler replaced succeeds and gets the old action in the same
structure (or has the replaced form already), and the old action is one that was not replaced, or has `SA_SIGINFO`. -/
structure Fits (c : Call arch α) (n : Native arch α) : Prop where
  size : c.sigsetsize = 8
  sig_lt : c.sig.toNat < nsig
  readable : ∀ p, c.act = some p → k.readable p = true
  hidden : ∀ p, c.act = some p → redirects c.sig.toNat (n.mem p) = true → k.writable p = true ∧
    (c.succeeds k = true ∧ c.oldact = some p ∨
      redirect trampoline (n.mem p) = n.mem p ∧ (c.valid = true → c.succeeds k = true))
  siginfo : ∀ q, c.oldact = some q → c.succeeds k = true →
    redirects c.sig.toNat (n.actions c.sig.toNat) = true →
      saSiginfo &&& (n.actions c.sig.toNat).saFlags = saSiginfo

def AllFit (n : Native arch α) : List (Event arch α) → Prop
  | [] => True
  | .store p a :: es => AllFit (n.store p a) es
  | .call c :: es => Fits k trampoline c n ∧ AllFit (rtSigaction k c n).2 es

end Run

section Related

variable {arch : Arch} {α : Type} [DecidableEq α] {k : Kernel arch α} {trampoline : Trampoline arch}
  {n : Native arch α} {e : Emulated arch α} {c : Call arch α} {a : KernelSigaction arch} {sig : Nat}

/-- An action with the trampoline for its handler. Where the guest asked for `SA_SIGINFO` itself, the rest of it is
the guest's and the table has its handler. -/
structure Redirected (trampoline : Trampoline arch) (a a' : KernelSigaction arch) (handler : Word arch) : Prop where
  handler_eq : a'.kSaHandler = trampoline
  rest : saSiginfo &&& a.saFlags = saSiginfo → a' = { a with kSaHandler := trampoline } ∧ handler = a.kSaHandler

structure Related (trampoline : Trampoline arch) (n : Native arch α) (e : Emulated arch α) : Prop where
  mem : e.native.mem = n.mem
  actions : ∀ sig, if redirects sig (n.actions sig)
    then Redirected trampoline (n.actions sig) (e.native.actions sig) (e.signalHandlers sig)
    else e.native.actions sig = n.actions sig

theorem isSpecial_trampoline (t : Trampoline arch) : isSpecial t.val = false := by
  simp [isSpecial, t.2.1, t.2.2]

theorem einval_ne : (einval : Word arch) ≠ 0 := by
  cases arch <;> decide

theorem efault_ne : (efault : Word arch) ≠ 0 := by
  cases arch <;> decide

omit [DecidableEq α] in
theorem signo_eq (h : c.sig.toNat < nsig) : c.signo = c.sig.toNat := by
  rw [Call.signo, BitVec.toNat_setWidth]
  exact Nat.mod_eq_of_lt (h.trans (by decide))

/-- The three outcomes of a call that passes the assertion. -/
theorem rtSigaction_invalid (hsize : c.sigsetsize = 8) (hread : ∀ p, c.act = some p → k.readable p = true)
    (h : c.valid = false) : rtSigaction k c n = (einval, n) := by
  have hany : c.act.any (fun p => !k.readable p) = false := by
    cases hact : c.act with
    | none => rfl
    | some p => simp [hread p hact]
  rw [rtSigaction, if_neg (not_not.mpr hsize), hany, h]
  rfl

theorem rtSigaction_valid (hsize : c.sigsetsize = 8) (hread : ∀ p, c.act = some p → k.readable p = true)
    (h : c.valid = true) : rtSigaction k c n = if c.oldact.all k.writable then
      (0, ⟨k.install c n, c.oldact.elim n.mem fun q => Function.update n.mem q (n.actions c.signo)⟩)
    else (efault, { n with actions := k.install c n }) := by
  have hany : c.act.any (fun p => !k.readable p) = false := by
    cases hact : c.act with
    | none => rfl
    | some p => simp [hread p hact]
  rw [rtSigaction, if_neg (not_not.mpr hsize), hany, h]
  cases c.oldact <;> rfl

def redirectedMem (trampoline : Trampoline arch) (c : Call arch α) (mem : α → KernelSigaction arch) :
    α → KernelSigaction arch :=
  c.act.elim mem fun p =>
    if redirects c.sig.toNat (mem p) then Function.update mem p (redirect trampoline (mem p)) else mem

theorem Fits.redirectAct (h : Fits k trampoline c n) :
    redirectAct k trampoline c n.mem = some (redirectedMem trampoline c n.mem) := by
  cases hact : c.act with
  | none => simp only [SignalHandlers.redirectAct, redirectedMem, hact, Option.elim]
  | some p =>
      simp only [SignalHandlers.redirectAct, redirectedMem, hact, Option.elim, h.readable p hact]
      by_cases hred : redirects c.sig.toNat (n.mem p) = true
      · simp [hred, (h.hidden p hact hred).1]
      · simp [hred]

/-- A call that does not get its old action into the structure that was changed has not changed it. -/
theorem Fits.redirectedMem_eq (h : Fits k trampoline c n)
    (hne : c.succeeds k = true → ∀ p, c.act = some p → c.oldact ≠ some p) :
    redirectedMem trampoline c n.mem = n.mem := by
  cases hact : c.act with
  | none => simp only [redirectedMem, hact, Option.elim]
  | some p =>
      simp only [redirectedMem, hact, Option.elim]
      by_cases hred : redirects c.sig.toNat (n.mem p) = true
      · rw [if_pos hred]
        rcases (h.hidden p hact hred).2 with ⟨hok, hsame⟩ | ⟨hself, -⟩
        · exact absurd hsame (hne hok p hact)
        · rw [hself, Function.update_eq_self]
      · rw [if_neg hred]

theorem redirectedMem_of_ne {q : α} (h : ∀ p, c.act = some p → p ≠ q) :
    redirectedMem trampoline c n.mem q = n.mem q := by
  cases hact : c.act with
  | none => simp only [redirectedMem, hact, Option.elim]
  | some p =>
      simp only [redirectedMem, hact, Option.elim]
      split
      · rw [Function.update_of_ne (h p hact).symm]
      · rfl

theorem or_eq_of_and_eq {w : Nat} {x y : BitVec w} (h : y &&& x = y) : x ||| y = x := by
  rw [← h]
  ext i hi
  simp only [BitVec.getElem_or, BitVec.getElem_and]
  cases x[i] <;> simp

omit [DecidableEq α] in
theorem keep_redirect {handler : Word arch} (h : handler = a.kSaHandler) :
    Redirected trampoline (k.keep a) (k.keep (redirect trampoline a)) handler := by
  refine ⟨rfl, fun hflags => ⟨?_, h⟩⟩
  have hor : (a.saFlags ||| saSiginfo) &&& k.supported = a.saFlags &&& k.supported := by
    rw [BitVec.and_or_distrib_right, k.siginfo]
    exact or_eq_of_and_eq hflags
  simp only [Kernel.keep, redirect, hor]

/-- An installed action stays related, when the table has the handler of one that is replaced. -/
theorem Related.install (h : Related trampoline n e) (hsig : c.sig.toNat < nsig) {handlers : Nat → Word arch}
    (hother : ∀ sig, (∀ p, c.act = some p → sig ≠ c.sig.toNat) → handlers sig = e.signalHandlers sig)
    (hat : ∀ p, c.act = some p → redirects c.sig.toNat (n.mem p) = true →
      handlers c.sig.toNat = (n.mem p).kSaHandler) (sig : Nat) :
    if redirects sig (k.install c n sig)
    then Redirected trampoline (k.install c n sig)
      (k.install c { e.native with mem := redirectedMem trampoline c n.mem } sig) (handlers sig)
    else k.install c { e.native with mem := redirectedMem trampoline c n.mem } sig = k.install c n sig := by
  cases hact : c.act with
  | none =>
      have hsame := h.actions sig
      simp only [Kernel.install, hact]
      rw [hother sig (by simp [hact])]
      exact hsame
  | some p =>
      simp only [Kernel.install, hact, signo_eq hsig]
      by_cases heq : sig = c.sig.toNat
      · subst heq
        rw [Function.update_self, Function.update_self]
        have hkeep : redirects c.sig.toNat (k.keep (n.mem p)) = redirects c.sig.toNat (n.mem p) := rfl
        rw [hkeep]
        simp only [redirectedMem, hact, Option.elim]
        by_cases hred : redirects c.sig.toNat (n.mem p) = true
        · rw [if_pos hred, if_pos hred, Function.update_self]
          exact keep_redirect (hat p hact hred)
        · rw [if_neg hred, if_neg hred]
      · rw [Function.update_of_ne heq, Function.update_of_ne heq, hother sig (fun _ _ => heq)]
        exact h.actions sig

omit [DecidableEq α] in
/-- The old action of a call that fits is the guest's once its handler is restored. -/
theorem Related.restored (h : Related trampoline n e)
    (hflags : redirects sig (n.actions sig) = true → saSiginfo &&& (n.actions sig).saFlags = saSiginfo) :
    (if isSpecial (e.native.actions sig).kSaHandler then e.native.actions sig
      else { e.native.actions sig with kSaHandler := e.signalHandlers sig }) = n.actions sig := by
  have hsig := h.actions sig
  by_cases hred : redirects sig (n.actions sig) = true
  · rw [if_pos hred] at hsig
    obtain ⟨hrest, hhandler⟩ := hsig.rest (hflags hred)
    rw [hrest, hhandler, if_neg (by simp [isSpecial_trampoline])]
  · rw [if_neg hred] at hsig
    rw [hsig, if_pos]
    simp only [redirects, Bool.or_eq_true, not_or, Bool.not_eq_true, Bool.not_eq_false'] at hred
    exact hred.2

theorem restoreOldact_update {handlers : Nat → Word arch} {mem : α → KernelSigaction arch} {q : α}
    (hold : c.oldact = some q) : restoreOldact c handlers (Function.update mem q a) =
      Function.update mem q (if isSpecial a.kSaHandler then a else { a with kSaHandler := handlers c.sig.toNat }) := by
  simp only [restoreOldact, hold, Function.update_self]
  split
  · rfl
  · rw [Function.update_idem]

/-- One call that fits returns the same, leaves the same memory and keeps the actions related. -/
theorem Related.step (h : Related trampoline n e) (hfits : Fits k trampoline c n) :
    ∃ e', syscallHandlerPre k trampoline c e = some ((rtSigaction k c n).1, e') ∧
      Related trampoline (rtSigaction k c n).2 e' := by
  rw [syscallHandlerPre, if_pos ⟨hfits.size, hfits.sig_lt⟩, h.mem, hfits.redirectAct, Option.map_some]
  cases hvalid : c.valid with
  | false =>
      have hfail : c.succeeds k = false := by rw [Call.succeeds, hvalid, Bool.false_and]
      have hmem := hfits.redirectedMem_eq (by simp [hfail])
      rw [rtSigaction_invalid hfits.size hfits.readable hvalid, rtSigaction_invalid hfits.size hfits.readable hvalid]
      simp only [if_neg einval_ne]
      exact ⟨_, rfl, hmem, h.actions⟩
  | true =>
      rw [rtSigaction_valid hfits.size hfits.readable hvalid, rtSigaction_valid hfits.size hfits.readable hvalid]
      have hsucceeds : c.succeeds k = c.oldact.all k.writable := by rw [Call.succeeds, hvalid, Bool.true_and]
      cases hwritable : c.oldact.all k.writable with
      | false =>
          have hfail : c.succeeds k = false := by rw [hsucceeds, hwritable]
          have hmem := hfits.redirectedMem_eq (by simp [hfail])
          simp only [Bool.false_eq_true, if_false, if_neg efault_ne]
          refine ⟨_, rfl, hmem, h.install hfits.sig_lt (fun _ _ => rfl) fun p hact hred => ?_⟩
          rcases (hfits.hidden p hact hred).2 with ⟨hok, -⟩ | ⟨-, hok⟩
          · exact absurd hok (by simp [hfail])
          · exact absurd (hok hvalid) (by simp [hfail])
      | true =>
          have hok : c.succeeds k = true := by rw [hsucceeds, hwritable]
          simp only [if_true]
          refine ⟨_, rfl, ?_, h.install hfits.sig_lt (fun sig hne => ?_) fun p hact _ => ?_⟩
          · cases hold : c.oldact with
            | none =>
                simp only [Option.elim, restoreOldact, hold]
                exact hfits.redirectedMem_eq (by simp [hold])
            | some q =>
                simp only [Option.elim]
                rw [restoreOldact_update hold, signo_eq hfits.sig_lt, h.restored (hfits.siginfo q hold hok)]
                funext r
                by_cases hr : r = q
                · rw [hr, Function.update_self, Function.update_self]
                · rw [Function.update_of_ne hr, Function.update_of_ne hr]
                  by_cases hact : c.act = some r
                  · have hmem := hfits.redirectedMem_eq fun _ p hp => by
                      rw [hact, Option.some.injEq] at hp
                      rw [hold, ← hp, ne_eq, Option.some.injEq]
                      exact Ne.symm hr
                    rw [hmem]
                  · exact redirectedMem_of_ne fun p hp heq => hact (heq ▸ hp)
          · cases hact : c.act with
            | none => simp only [recordHandler, hact]
            | some p =>
                simp only [recordHandler, hact]
                exact Function.update_of_ne (hne p hact) _ _
          · simp only [recordHandler, hact, Function.update_self]

theorem Related.store (h : Related trampoline n e) (p : α) (a : KernelSigaction arch) :
    Related trampoline (n.store p a) { e with native := e.native.store p a } :=
  ⟨by simp only [Native.store, h.mem], h.actions⟩

theorem Related.run (h : Related trampoline n e) {es : List (Event arch α)} (hfit : AllFit k trampoline n es) :
    RunOk k trampoline n e es := by
  induction es generalizing n e with
  | nil => trivial
  | cons event es ih =>
      cases event with
      | store p a => exact ih (h.store p a) hfit
      | call c =>
          obtain ⟨e', hrun, hrelated⟩ := h.step hfit.1
          exact ⟨e', hrun, hrelated.mem, ih hrelated hfit.2⟩

omit [DecidableEq α] in
theorem Related.start (trampoline : Trampoline arch) (libcFlags restorer : Word arch) (ignored : Nat → Bool)
    (mem : α → KernelSigaction arch) :
    Related trampoline (Native.start ignored mem) (Emulated.start trampoline libcFlags restorer ignored mem) := by
  refine ⟨rfl, fun sig => ?_⟩
  have hspecial : isSpecial ((Native.start ignored mem).actions sig).kSaHandler = true := by
    simp only [Native.start, isSpecial]
    cases ignored sig <;> simp
  by_cases hsig : sig = unlinkSignal
  · subst hsig
    rw [if_pos (by simp [redirects])]
    refine ⟨by simp only [Emulated.start, Function.update_self], fun hflags => absurd hflags ?_⟩
    have hflag : (saSiginfo : Word arch) &&& 0 ≠ saSiginfo := by cases arch <;> decide
    exact hflag
  · rw [if_neg (by simp [redirects, hsig, hspecial])]
    simp only [Emulated.start, Function.update_of_ne hsig]

/-- A run of the guest sees nothing of MAMBO when each of its calls fits. -/
theorem rtSigaction_run (k : Kernel arch α) (trampoline : Trampoline arch) (libcFlags restorer : Word arch)
    (ignored : Nat → Bool) (mem : α → KernelSigaction arch) (es : List (Event arch α))
    (hfit : AllFit k trampoline (Native.start ignored mem) es) :
    RunOk k trampoline (Native.start ignored mem) (Emulated.start trampoline libcFlags restorer ignored mem) es :=
  (Related.start trampoline libcFlags restorer ignored mem).run hfit

end Related

section Example

/-- Structures at two addresses, which the kernel can read and write. -/
def openKernel : Kernel .aarch64 Bool := ⟨fun _ => true, fun _ => true, -1, by decide⟩

def someTrampoline : Trampoline .aarch64 := ⟨0x5000, by decide⟩

def handlerMem (flags : BitVec 64) : Bool → KernelSigaction .aarch64 := fun _ => ⟨0x10000, flags, 0, 0⟩

/-- A handler that asks for `SA_SIGINFO`, installed over its own structure and asked for again. -/
theorem rtSigaction_run_siginfo :
    RunOk openKernel someTrampoline (Native.start (fun _ => false) (handlerMem 4))
      (Emulated.start someTrampoline 0 0 (fun _ => false) (handlerMem 4))
      [.call ⟨10, some false, some false, 8⟩, .call ⟨10, none, some true, 8⟩] := by
  apply rtSigaction_run
  refine ⟨⟨by decide, by decide, fun _ _ => rfl, ?_, fun _ _ _ hred => absurd hred (by decide)⟩,
    ⟨by decide, by decide, fun _ hp => absurd hp nofun, fun _ hp => absurd hp nofun, fun _ _ _ _ => by decide⟩, trivial⟩
  rintro p hp -
  exact ⟨rfl, Or.inl ⟨rfl, hp⟩⟩

/-- A handler installed from a structure of its own: the structure then holds the trampoline. -/
theorem rtSigaction_run_act :
    ¬RunOk openKernel someTrampoline (Native.start (fun _ => false) (handlerMem 0))
      (Emulated.start someTrampoline 0 0 (fun _ => false) (handlerMem 0)) [.call ⟨10, some false, none, 8⟩] := by
  rintro ⟨e', hrun, hmem, -⟩
  have hact : (syscallHandlerPre openKernel someTrampoline ⟨10, some false, none, 8⟩
      (Emulated.start someTrampoline 0 0 (fun _ => false) (handlerMem 0))).map (fun r => r.2.native.mem false) =
      some ⟨0x5000, 4, 0, 0⟩ := by decide
  rw [hrun, Option.map_some, Option.some.injEq, hmem] at hact
  exact absurd hact (by decide)

end Example

end Mambo.SignalHandlers
