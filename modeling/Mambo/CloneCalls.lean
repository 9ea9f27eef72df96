import Mambo.ByteMemory

namespace Mambo.CloneCalls

open Bytes ByteMemory

inductive Isa
  | arm
  | aarch64
  | riscv
  deriving DecidableEq

def wordBytes : Isa → Nat
  | .arm => 4
  | .aarch64 => 8
  | .riscv => 8

abbrev Word (isa : Isa) : Type := BitVec (8 * wordBytes isa)

abbrev Memory (isa : Isa) : Type := Word isa → Byte

/-- `SYSCALL_WRAPPER_STACK_OFFSET`, in registers. -/
def syscallWrapperStackOffset : Isa → Nat
  | .arm => 2 + 14
  | .aarch64 => 2 + 2 + 22
  | .riscv => 3 + 2 + 27

/-- `SYSCALL_WRAPPER_FRAME_SIZE`, in registers. -/
def syscallWrapperFrameSize : Isa → Nat
  | .arm => syscallWrapperStackOffset .arm
  | .aarch64 => syscallWrapperStackOffset .aarch64 + 2 * 32
  | .riscv => syscallWrapperStackOffset .riscv + 32

/-- `CSIGNAL`, the bits of clone's flags that hold the exit signal. -/
def csignal : Nat := 0xff
def cloneVm : Nat := 0x100
def cloneVfork : Nat := 0x4000
def cloneThread : Nat := 0x10000
def cloneSettls : Nat := 0x80000
def cloneParentSettid : Nat := 0x100000
def cloneChildCleartid : Nat := 0x200000
def cloneChildSettid : Nat := 0x1000000

def has {w : Nat} (flags : BitVec w) (mask : Nat) : Bool := flags &&& BitVec.ofNat w mask != 0

structure SysCloneArgs (isa : Isa) where
  flags : Word isa
  childStack : Word isa
  ptid : Word isa
  tls : Word isa
  ctid : Word isa
  deriving DecidableEq

/-- The fields of the kernel's `struct clone_args` that clone can express. -/
structure CloneArgs where
  flags : BitVec 64
  childTid : BitVec 64
  parentTid : BitVec 64
  exitSignal : BitVec 64
  stack : BitVec 64
  stackSize : BitVec 64
  tls : BitVec 64
  deriving DecidableEq

inductive Status
  | running
  | syscall
  deriving DecidableEq

/-- The fields of `dbm_thread` that the two calls read or write. -/
structure Thread (isa : Isa) where
  status : Status
  tls : Word isa
  childTls : Word isa
  tid : BitVec 32
  cloneVm : Bool
  protectStdFds : Bool
  deriving DecidableEq

section Memory

variable {isa : Isa}

def argAt (args : Word isa) (i : Nat) : Word isa := args + BitVec.ofNat _ (wordBytes isa * i)

def loadWord (m : Memory isa) (a : Word isa) : Word isa := BitVec.ofNat _ (loadBytes m a (wordBytes isa))

def storeWord (m : Memory isa) (a v : Word isa) : Memory isa := storeBytes m a (wordBytes isa) v.toNat

/-- The saved registers read as a `sys_clone_args`. -/
def loadSysCloneArgs (m : Memory isa) (args : Word isa) : SysCloneArgs isa where
  flags := loadWord m (argAt args 0)
  childStack := loadWord m (argAt args 1)
  ptid := loadWord m (argAt args 2)
  tls := loadWord m (argAt args 3)
  ctid := loadWord m (argAt args 4)

def storeSysCloneArgs (m : Memory isa) (args : Word isa) (c : SysCloneArgs isa) : Memory isa :=
  let m := storeWord m (argAt args 0) c.flags
  let m := storeWord m (argAt args 1) c.childStack
  let m := storeWord m (argAt args 2) c.ptid
  let m := storeWord m (argAt args 3) c.tls
  storeWord m (argAt args 4) c.ctid

def loadCloneArgs (m : Memory isa) (a : Word isa) : CloneArgs where
  flags := load64 m a
  childTid := load64 m (a + BitVec.ofNat _ 16)
  parentTid := load64 m (a + BitVec.ofNat _ 24)
  exitSignal := load64 m (a + BitVec.ofNat _ 32)
  stack := load64 m (a + BitVec.ofNat _ 40)
  stackSize := load64 m (a + BitVec.ofNat _ 48)
  tls := load64 m (a + BitVec.ofNat _ 56)

def mamboMemcpy (m : Memory isa) (dst src : Word isa) (l : Nat) : Memory isa :=
  (List.range l).foldl
    (fun m i => Function.update m (dst + BitVec.ofNat _ i) (m (src + BitVec.ofNat _ i))) m

end Memory

section NewThreads

variable {isa : Isa}

/-- What a new thread is started with, and what it does before it enters the guest's code. -/
structure NewThread (isa : Isa) where
  cloneRetAddr : Word isa
  parentTid : BitVec 32
  protectStdFds : Bool
  tid : BitVec 32
  /-- Where the thread's id is stored. -/
  tidStores : List (Word isa)
  setTidAddress : Option (Word isa)
  tls : Word isa
  /-- Where the parent's saved registers are copied to. -/
  frame : Word isa
  /-- The stack pointer it enters with. -/
  stack : Word isa
  deriving DecidableEq

/-- The words below the child's stack that hold the copied registers. -/
def copiedWords : Isa → Nat
  | .arm => 15
  | .aarch64 => 34
  | .riscv => 32

/-- The words at the bottom of the copy that `th_enter` does not take. -/
def droppedWords : Isa → Nat
  | .arm => 0
  | .aarch64 => 2
  | .riscv => 2

/-- `dbm_create_thread` followed by `dbm_start_thread_pth`; none where the assertion fails. -/
def dbmCreateThread (nextInst : Word isa) (tid : BitVec 32) (t : Thread isa) (c : SysCloneArgs isa) :
    Option (NewThread isa) :=
  if c.childStack = 0 then none
  else
    let frame := c.childStack - BitVec.ofNat _ (wordBytes isa * copiedWords isa)
    some
      { cloneRetAddr := nextInst
        parentTid := t.tid
        protectStdFds := t.protectStdFds
        tid := tid
        tidStores :=
          (if has c.flags cloneParentSettid then [c.ptid] else []) ++
            (if has c.flags cloneChildSettid then [c.ctid] else [])
        setTidAddress := if has c.flags cloneChildCleartid then some c.ctid else none
        tls := c.tls
        frame := frame
        stack := frame + BitVec.ofNat _ (wordBytes isa * droppedWords isa) }

end NewThreads

section Handlers

variable {isa : Isa}

/-- How `syscall_handler_pre` ends: with a thread of its own, or with a call left to the kernel. -/
inductive Pre (isa : Isa)
  | created (n : NewThread isa) (t : Thread isa) (m : Memory isa)
  | doSyscall (t : Thread isa) (m : Memory isa)

/-- The tls that a thread without CLONE_SETTLS takes from its parent. -/
def threadTls (t : Thread isa) (c : SysCloneArgs isa) : SysCloneArgs isa :=
  if has c.flags cloneSettls then c else { c with tls := t.tls }

/-- The flags with which a process is created; none where CLONE_VM is left. -/
def processFlags (flags : Word isa) : Option (Word isa) :=
  let flags := if has flags cloneVfork then flags &&& ~~~BitVec.ofNat _ cloneVm else flags
  if has flags cloneVm then none else some flags

def processThread (t : Thread isa) (c : SysCloneArgs isa) : Thread isa :=
  { t with
    status := .syscall
    cloneVm := false
    childTls := if has c.flags cloneSettls then c.tls else t.tls }

def copySize (isa : Isa) : Nat := syscallWrapperFrameSize isa * wordBytes isa

/-- The child's stack with room for the frame of the wrapper; NULL for the stack of the parent. -/
def adjustedStack (args : Word isa) (stack : Word isa) : Word isa :=
  if stack = 0 then 0
  else if stack = argAt args (syscallWrapperStackOffset isa) then 0
  else stack - BitVec.ofNat _ (copySize isa)

/-- The copy of the wrapper's frame onto a stack of the child's own. -/
def copyFrame (m : Memory isa) (args stack : Word isa) : Memory isa :=
  if stack = 0 ∨ stack = argAt args (syscallWrapperStackOffset isa) then m
  else
    mamboMemcpy m (adjustedStack args stack)
      (argAt args (syscallWrapperStackOffset isa) - BitVec.ofNat _ (copySize isa)) (copySize isa)

/-- The `sys_clone_args` that clone3 fills on its own stack. -/
def localArgs (cl : CloneArgs) : SysCloneArgs isa where
  flags := cl.flags.setWidth _
  childStack := cl.stack.setWidth _ + cl.stackSize.setWidth _
  ptid := cl.parentTid.setWidth _
  tls := cl.tls.setWidth _
  ctid := cl.childTid.setWidth _

/-- `case __NR_clone3` of `syscall_handler_pre`, on a local copy of the guest's structure. -/
def preClone3 (nextInst : Word isa) (tid : BitVec 32) (t : Thread isa) (args : Word isa) (m : Memory isa) :
    Option (Pre isa) :=
  let c : SysCloneArgs isa := localArgs (loadCloneArgs m (loadWord m (argAt args 0)))
  if has c.flags cloneThread then
    if has c.flags cloneVm then
      (dbmCreateThread nextInst tid t (threadTls t c)).map fun n =>
        .created n { t with cloneVm := true } (storeWord m (argAt args 0) (tid.signExtend _))
    else none
  else
    (processFlags c.flags).map fun _ => .doSyscall (processThread t c) (copyFrame m args c.childStack)

/-- `case __NR_clone` of `syscall_handler_pre`, on the saved registers in place. -/
def preClone (nextInst : Word isa) (tid : BitVec 32) (t : Thread isa) (args : Word isa) (m : Memory isa) :
    Option (Pre isa) :=
  let c := loadSysCloneArgs m args
  if has c.flags cloneThread then
    if has c.flags cloneVm then
      (dbmCreateThread nextInst tid t (threadTls t c)).map fun n =>
        .created n { t with cloneVm := true }
          (storeWord (storeSysCloneArgs m args (threadTls t c)) (argAt args 0) (tid.signExtend _))
    else none
  else
    (processFlags c.flags).map fun flags =>
      let adjusted : SysCloneArgs isa :=
        { c with
          flags := flags &&& ~~~BitVec.ofNat _ cloneSettls
          childStack := adjustedStack args c.childStack }
      .doSyscall (processThread t c) (copyFrame (storeSysCloneArgs m args adjusted) args c.childStack)

inductive Call
  | clone
  | clone3
  deriving DecidableEq

def syscallHandlerPre (call : Call) : Word isa → BitVec 32 → Thread isa → Word isa → Memory isa → Option (Pre isa) :=
  match call with
  | .clone => preClone
  | .clone3 => preClone3

/-- What `reset_process` does outside the thread's own structure. -/
inductive Effect
  | initThreadListMutex
  | setCurrentThread
  | freeAllOtherThreads
  | reopenStdStreams
  | preThreadCallbacks
  deriving DecidableEq

def resetProcess (tid : BitVec 32) (t : Thread isa) : Thread isa × List Effect :=
  ({ t with tid := tid, protectStdFds := false },
    [.initThreadListMutex, .setCurrentThread, .freeAllOtherThreads, .reopenStdStreams, .preThreadCallbacks])

/-- `syscall_handler_post` after a call that returned `ret`; none where the assertion fails. -/
def syscallHandlerPost (call : Call) (ret : Word isa) (tid : BitVec 32) (t : Thread isa) :
    Option (Thread isa × List Effect) :=
  let t := { t with status := .running }
  match call with
  | .clone =>
      if ret = 0 then
        if t.cloneVm then none else some (resetProcess tid { t with tls := t.childTls })
      else some (t, [])
  | .clone3 => some (t, [])

end Handlers

section Outcomes

variable {isa : Isa}

/-- What the kernel is asked for, in the terms of both calls. -/
structure Request (isa : Isa) where
  flags : BitVec 64
  exitSignal : BitVec 64
  childStack : Word isa
  ptid : Word isa
  tls : Word isa
  ctid : Word isa
  deriving DecidableEq

/-- The request that the kernel reads from the registers and the memory it is entered with. -/
def request (call : Call) (args : Word isa) (m : Memory isa) : Request isa :=
  match call with
  | .clone =>
      let c := loadSysCloneArgs m args
      let flags := (c.flags.setWidth 32).setWidth 64
      { flags := flags &&& ~~~BitVec.ofNat 64 csignal
        exitSignal := flags &&& BitVec.ofNat 64 csignal
        childStack := c.childStack, ptid := c.ptid, tls := c.tls, ctid := c.ctid }
  | .clone3 =>
      let cl := loadCloneArgs m (loadWord m (argAt args 0))
      { flags := cl.flags
        exitSignal := cl.exitSignal
        childStack := cl.stack.setWidth _ + cl.stackSize.setWidth _
        ptid := cl.parentTid.setWidth _, tls := cl.tls.setWidth _, ctid := cl.childTid.setWidth _ }

inductive Outcome (isa : Isa)
  | newThread (n : NewThread isa) (parent : Thread isa)
  | process (r : Request isa) (parent child : Thread isa) (effects : List Effect)
  deriving DecidableEq

/-- A call from the guest to the state of the child; none where an assertion stops the process. -/
def outcome (call : Call) (nextInst : Word isa) (tid : BitVec 32) (t : Thread isa) (args : Word isa)
    (m : Memory isa) : Option (Outcome isa) :=
  match syscallHandlerPre call nextInst tid t args m with
  | none => none
  | some (.created n parent _) => some (.newThread n parent)
  | some (.doSyscall parent m') =>
      (syscallHandlerPost call 0 tid parent).map fun r => .process (request call args m') parent r.1 r.2

/-- The registers of a clone and the structure of a clone3 that ask for the same. -/
def Equivalent (c : SysCloneArgs isa) (cl : CloneArgs) : Prop :=
  cl.flags &&& BitVec.ofNat 64 csignal = 0 ∧ cl.exitSignal &&& ~~~BitVec.ofNat 64 csignal = 0 ∧
    c.flags = (cl.flags ||| cl.exitSignal).setWidth _ ∧
    c.childStack = cl.stack.setWidth _ + cl.stackSize.setWidth _ ∧
    c.ptid = cl.parentTid.setWidth _ ∧ c.tls = cl.tls.setWidth _ ∧ c.ctid = cl.childTid.setWidth _

theorem has_setWidth_or {v w : Nat} {a b : BitVec v} {mask : Nat} (hb : b &&& ~~~BitVec.ofNat v csignal = 0)
    (hmask : mask &&& csignal = 0) (hvw : w ≤ v) : has ((a ||| b).setWidth w) mask = has (a.setWidth w) mask := by
  have hzero : b.setWidth w &&& BitVec.ofNat w mask = 0#w := by
    apply BitVec.eq_of_getLsbD_eq
    intro i hi
    have hbit : (b &&& ~~~BitVec.ofNat v csignal).getLsbD i = false := by rw [hb]; exact BitVec.getLsbD_zero
    have hclear : (mask &&& csignal).testBit i = false := by rw [hmask]; exact Nat.zero_testBit i
    have hiv : i < v := by omega
    simp only [BitVec.getLsbD_and, BitVec.getLsbD_not, BitVec.getLsbD_ofNat, hiv, decide_true, Bool.true_and] at hbit
    simp only [BitVec.getLsbD_and, BitVec.getLsbD_setWidth, BitVec.getLsbD_ofNat, hi, decide_true, Bool.true_and]
    rw [Nat.testBit_and] at hclear
    cases hm : mask.testBit i with
    | false => rw [Bool.and_false, Nat.zero_testBit]
    | true =>
        rw [hm, Bool.true_and] at hclear
        rw [hclear, Bool.not_false, Bool.and_true] at hbit
        rw [hbit, Bool.false_and, Nat.zero_testBit]
  have hmasked : (a ||| b).setWidth w &&& BitVec.ofNat w mask = a.setWidth w &&& BitVec.ofNat w mask := by
    rw [BitVec.setWidth_or, BitVec.and_comm, BitVec.and_or_distrib_left,
      BitVec.and_comm _ (b.setWidth w), hzero, BitVec.or_zero, BitVec.and_comm]
  rw [has, has, hmasked]

variable {nextInst args args3 : Word isa} {tid : BitVec 32} {t : Thread isa} {m m3 : Memory isa}

theorem width_le (isa : Isa) : 8 * wordBytes isa ≤ 64 := by cases isa <;> decide

theorem Equivalent.has_eq {c : SysCloneArgs isa} {cl : CloneArgs} (h : Equivalent c cl) (mask : Nat)
    (hmask : mask &&& csignal = 0) : has c.flags mask = has (localArgs cl : SysCloneArgs isa).flags mask := by
  obtain ⟨-, hsignal, hflags, -⟩ := h
  rw [hflags, has_setWidth_or hsignal hmask (width_le isa)]
  rfl

/-- A new thread depends on the flags only through the bits that both calls share. -/
theorem dbmCreateThread_threadTls {c : SysCloneArgs isa} {cl : CloneArgs} (h : Equivalent c cl) :
    dbmCreateThread nextInst tid t (threadTls t c) = dbmCreateThread nextInst tid t (threadTls t (localArgs cl)) := by
  have hsettls := h.has_eq cloneSettls (by decide)
  have hparent := h.has_eq cloneParentSettid (by decide)
  have hchild := h.has_eq cloneChildSettid (by decide)
  have hclear := h.has_eq cloneChildCleartid (by decide)
  obtain ⟨-, -, -, hstack, hptid, htls, hctid⟩ := h
  have hstack' : c.childStack = (localArgs cl : SysCloneArgs isa).childStack := hstack
  have hptid' : c.ptid = (localArgs cl : SysCloneArgs isa).ptid := hptid
  have htls' : c.tls = (localArgs cl : SysCloneArgs isa).tls := htls
  have hctid' : c.ctid = (localArgs cl : SysCloneArgs isa).ctid := hctid
  cases hset : has c.flags cloneSettls <;>
    simp only [dbmCreateThread, threadTls, ← hsettls, hset, if_true, if_false, Bool.false_eq_true, hparent, hchild,
      hclear, hstack', hptid', htls', hctid']

theorem has_and_not (flags : Word isa) : has (flags &&& ~~~BitVec.ofNat _ cloneVm) cloneVm = false := by
  have hzero : flags &&& ~~~BitVec.ofNat _ cloneVm &&& BitVec.ofNat _ cloneVm = 0 := by
    rw [BitVec.and_assoc, BitVec.and_comm (~~~_), BitVec.and_not_self]
    exact BitVec.and_zero
  rw [has, hzero, bne_self_eq_false]

theorem processFlags_eq_none (flags : Word isa) :
    processFlags flags = none ↔ has flags cloneVm = true ∧ has flags cloneVfork = false := by
  cases hfork : has flags cloneVfork <;> cases hvm : has flags cloneVm <;>
    simp [processFlags, hfork, hvm, has_and_not]

/-- A process that clone creates resets MAMBO's state, one that clone3 creates does not. -/
theorem outcome_process_ne (h3 : has (localArgs (loadCloneArgs m3 (loadWord m3 (argAt args3 0))) : SysCloneArgs isa).flags
    cloneThread = false) (h : has (loadSysCloneArgs m args).flags cloneThread = false) {flags flags3 : Word isa}
    (hp3 : processFlags (localArgs (loadCloneArgs m3 (loadWord m3 (argAt args3 0))) : SysCloneArgs isa).flags =
      some flags3) (hp : processFlags (loadSysCloneArgs m args).flags = some flags) :
    outcome .clone3 nextInst tid t args3 m3 ≠ outcome .clone nextInst tid t args m := by
  simp [outcome, syscallHandlerPre, preClone3, preClone, h3, h, hp3, hp, syscallHandlerPost, processThread,
    resetProcess]

/-- The two calls agree exactly on new threads, and where the assertion on CLONE_VM stops both. -/
theorem outcome_eq_iff
    (h : Equivalent (loadSysCloneArgs m args) (loadCloneArgs m3 (loadWord m3 (argAt args3 0)))) :
    outcome .clone3 nextInst tid t args3 m3 = outcome .clone nextInst tid t args m ↔
      has (loadSysCloneArgs m args).flags cloneThread = true ∨
        has (loadSysCloneArgs m args).flags cloneVm = true ∧ has (loadSysCloneArgs m args).flags cloneVfork = false := by
  have hthread := h.has_eq cloneThread (by decide)
  have hvm := h.has_eq cloneVm (by decide)
  have hfork := h.has_eq cloneVfork (by decide)
  cases hth : has (loadSysCloneArgs m args).flags cloneThread with
  | true =>
      refine iff_of_true ?_ (Or.inl rfl)
      rw [hth] at hthread
      simp only [outcome, syscallHandlerPre, preClone3, preClone, ← hthread, hth, if_true, ← hvm,
        dbmCreateThread_threadTls h]
      cases has (loadSysCloneArgs m args).flags cloneVm with
      | false => rfl
      | true =>
          cases dbmCreateThread nextInst tid t (threadTls t (localArgs _)) with
          | none => rfl
          | some n => rfl
  | false =>
      rw [hth] at hthread
      have hnone := processFlags_eq_none (loadSysCloneArgs m args).flags
      have hnone3 := processFlags_eq_none
        (localArgs (loadCloneArgs m3 (loadWord m3 (argAt args3 0))) : SysCloneArgs isa).flags
      rw [← hvm, ← hfork, ← hnone] at hnone3
      rw [← hnone]
      simp only [Bool.false_eq_true, false_or]
      constructor
      · intro heq
        by_contra hsome
        obtain ⟨flags, hflags⟩ := Option.ne_none_iff_exists'.mp hsome
        obtain ⟨flags3, hflags3⟩ := Option.ne_none_iff_exists'.mp (mt hnone3.mp hsome)
        exact outcome_process_ne hthread.symm hth hflags3 hflags heq
      · intro hp
        simp [outcome, syscallHandlerPre, preClone3, preClone, ← hthread, hth, hp, hnone3.mpr hp]

/-- The registers of a guest that calls clone(SIGCHLD, 0, 0, 0, 0). -/
def forkByClone : Memory .aarch64 := storeWord (fun _ => 0) 0x1000 17

/-- The register and the structure of a guest that calls clone3 with the exit signal SIGCHLD. -/
def forkByClone3 : Memory .aarch64 := storeWord (storeWord (fun _ => 0) 0x2020 17) 0x1000 0x2000

def parentThread : Thread .aarch64 where
  status := .running
  tls := 0x7000
  childTls := 0
  tid := 1
  cloneVm := false
  protectStdFds := true

theorem fork_equivalent : Equivalent (loadSysCloneArgs forkByClone 0x1000)
    (loadCloneArgs forkByClone3 (loadWord forkByClone3 (argAt 0x1000 0))) := by
  unfold Equivalent
  decide

theorem fork_disagrees :
    Equivalent (loadSysCloneArgs forkByClone 0x1000)
        (loadCloneArgs forkByClone3 (loadWord forkByClone3 (argAt 0x1000 0))) ∧
      outcome .clone3 0x400000 2 parentThread 0x1000 forkByClone3 =
        some (.process ⟨0, 17, 0, 0, 0, 0⟩ { parentThread with status := .syscall, childTls := 0x7000 }
          { parentThread with childTls := 0x7000 } []) ∧
      outcome .clone 0x400000 2 parentThread 0x1000 forkByClone =
        some (.process ⟨0, 17, 0, 0, 0, 0⟩ { parentThread with status := .syscall, childTls := 0x7000 }
          { parentThread with childTls := 0x7000, tid := 2, protectStdFds := false }
          [.initThreadListMutex, .setCurrentThread, .freeAllOtherThreads, .reopenStdStreams, .preThreadCallbacks]) :=
  ⟨fork_equivalent, by decide, by decide⟩

theorem fork_outcome_eq_iff :
    outcome .clone3 0x400000 2 parentThread 0x1000 forkByClone3 =
        outcome .clone 0x400000 2 parentThread 0x1000 forkByClone ↔
      has (loadSysCloneArgs forkByClone 0x1000).flags cloneThread = true ∨
        has (loadSysCloneArgs forkByClone 0x1000).flags cloneVm = true ∧
          has (loadSysCloneArgs forkByClone 0x1000).flags cloneVfork = false :=
  outcome_eq_iff fork_equivalent

end Outcomes

end Mambo.CloneCalls
