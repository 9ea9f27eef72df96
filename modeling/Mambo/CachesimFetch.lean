import Mambo.AccessSize
import Mambo.CodeChunks
import Mambo.RvvSize

namespace Mambo.CachesimFetch

open BranchEmitters (AL Cond)
open CodeChunks EmitResults SafeFcalls

/-- A byte of an instruction that the plugin emits; none for any other byte. -/
abbrev Cell (ι : Type) := Option (ι × Nat)

/-- What the plugin uses of an instruction set. A guest instruction comes with the condition that
the scanner found. -/
structure Target (w : Nat) (ι I : Type) where
  emitters : Emitters w ι
  a0 : Nat
  a1 : Nat
  a2 : Nat
  /-- The registers saved around the code for a fetch, and around that for an access. -/
  saved : BitVec 32
  dataSaved : BitVec 32
  instSize : BitVec w → List ι
  getInstLen : I → Nat
  isLoad : I → Bool
  isStore : I → Bool
  isRvvMem : I → Bool
  isCond : I → Bool
  getLdStSize : I → Option Int
  /-- `mambo_calc_ld_st_addr` into a0, at an address and with some registers pushed. -/
  calcLdStAddr : BitVec w → Int → I → Option (Result ι)
  /-- What sets a1 for a vector access; none where an assertion fails. -/
  rvvInfo : I → Option (List ι)
  /-- `emit_local_branch_cond` with the inverted condition, from a place to the write pointer. -/
  emitLocalBranchCond : I → BitVec w → BitVec w → Option (Result ι)
  /-- Whether the scanner calls back for the instructions of a block. -/
  callsBack : List I → Bool

/-- Where the chunks of the code cache, the function and the buffers of the thread are. -/
structure Env (w : Nat) where
  base : Nat → BitVec w
  cachesimBufWrite : BitVec w
  instTraceBuf : BitVec w
  dataTraceBuf : BitVec w

def Env.address {w : Nat} (env : Env w) (p : Place) : BitVec w := env.base p.chunk + BitVec.ofNat w p.offset

/-- The code cache, and what the plugin keeps for a thread. -/
structure Thread (ι : Type) where
  code : Chunks (Cell ι)
  setInstSize : Place
  fragmentSize : Nat
  /-- Where the code for each fetch of the block begins. -/
  fetches : List Place

section Handlers

variable {w : Nat} {ι I : Type} (T : Target w ι I) (env : Env w)

def bytes (is : List ι) : Nat := (is.map T.emitters.size).sum

def cells (is : List ι) : List (Cell ι) := is.flatMap fun i => (List.range (T.emitters.size i)).map fun n => some (i, n)

def instCode (readAddress : BitVec w) (t : Thread ι) : Option (Thread ι) := do
  let writeP := t.code.writeP
  let e ← emitPush T.emitters T.saved ⟨env.address writeP, [], [], 0⟩
  let fetch := writeP.past (bytes T e.code)
  if readAddress = 0 then none
  else
    let e := emitSetReg T.emitters T.a0 readAddress e
    let setInstSize := writeP.past (bytes T e.code)
    let e := emitSetReg T.emitters T.a2 env.instTraceBuf (e.emit (T.instSize 0))
    let e ← emitFcall T.emitters env.cachesimBufWrite e
    let e ← emitPop T.emitters T.saved e
    some { t with
      code := t.code.append (cells T e.code)
      setInstSize := setInstSize
      fetches := t.fetches ++ [fetch] }

def setInstSize (t : Thread ι) : Thread ι :=
  { t with code := t.code.patch t.setInstSize (cells T (T.instSize (BitVec.ofNat w (t.fragmentSize <<< 1)))) }

/-- An emitter whose result is asserted to be 0. -/
def asserted (r : Option (Result ι)) : Option (List ι) := r.bind fun r => if r.ret = 0 then some r.code else none

/-- The value for a1: the size, and whether the access is a store. -/
def info (size : Int) (isStore : Bool) : BitVec w := BitVec.ofInt w (size * 2) ||| if isStore then 1 else 0

def emitInfo (i : I) (size : Int) (e : Emitted w ι) : Option (Emitted w ι) :=
  if T.isRvvMem i then (T.rvvInfo i).map e.emit else some (emitSetReg T.emitters T.a1 (info size (T.isStore i)) e)

/-- The part of the handler for an instruction that accesses memory. -/
def dataAccess (readAddress : BitVec w) (i : I) (size : Int) (code : Chunks (Cell ι)) : Option (Chunks (Cell ι)) := do
  let skipBr := code.writeP
  let code := if T.isCond i then code.append (List.replicate 4 none) else code
  let e ← emitPush T.emitters T.dataSaved ⟨env.address code.writeP, [], [], 0⟩
  let addr ← asserted (T.calcLdStAddr readAddress e.pluginPushedRegCount i)
  let e ← emitInfo T i size (e.emit addr)
  let e ← emitFcall T.emitters env.cachesimBufWrite (emitSetReg T.emitters T.a2 env.dataTraceBuf e)
  let e ← emitPop T.emitters T.dataSaved e
  let code := code.append (cells T e.code)
  if T.isCond i then
    (asserted (T.emitLocalBranchCond i (env.address skipBr) (env.address code.writeP))).map fun skip =>
      code.patch skipBr (cells T skip)
  else some code

def account (readAddress : BitVec w) (i : I) (t : Thread ι) : Option (Thread ι) :=
  (if t.fragmentSize > 0x7FFF - 4 then
      (instCode T env readAddress (setInstSize T t)).map fun t => { t with fragmentSize := 0 }
    else some t).map fun t => { t with fragmentSize := t.fragmentSize + T.getInstLen i }

def preInstHandler (readAddress : BitVec w) (i : I) (t : Thread ι) : Option (Thread ι) :=
  if T.isLoad i ∨ T.isStore i then do
    let size ← T.getLdStSize i
    -- the length of the instruction is not added
    if T.isRvvMem i = false ∧ size ≤ 0 then some t
    else
      let code ← dataAccess T env readAddress i size t.code
      account T env readAddress i { t with code := code }
  else account T env readAddress i t

def preBbHandler (readAddress : BitVec w) (t : Thread ι) : Option (Thread ι) :=
  instCode T env readAddress { t with fragmentSize := 0, fetches := [] }

def postBbHandler (t : Thread ι) : Thread ι := setInstSize T t

end Handlers

section Scanner

/-- What the scanner does between two callbacks: it writes bytes, and goes on in a new chunk. -/
inductive Written
  | bytes (n : Nat)
  | chunk

variable {w : Nat} {ι I : Type} (T : Target w ι I) (env : Env w)

def Written.apply (code : Chunks (Cell ι)) : Written → Chunks (Cell ι)
  | .bytes n => code.append (List.replicate n none)
  | .chunk => code.next

def translate (ws : List Written) (t : Thread ι) : Thread ι := { t with code := ws.foldl Written.apply t.code }

/-- The loop over the instructions of a block, each with what the scanner writes for it. -/
def scanInsts (callsBack : Bool) : BitVec w → List (I × List Written) → Thread ι → Option (Thread ι)
  | _, [], t => some t
  | readAddress, (i, ws) :: rest, t =>
    (if callsBack then preInstHandler T env readAddress i t else some t).bind fun t =>
      scanInsts callsBack (readAddress + BitVec.ofNat w (T.getInstLen i)) rest (translate ws t)

/-- The scan of a block at an address; none where an assertion stops the process. -/
def scanBlock (address : BitVec w) (ws : List Written) (block : List (I × List Written)) (t : Thread ι) :
    Option (Thread ι) := do
  let t ← preBbHandler T env address t
  let t ← scanInsts T env (T.callsBack (block.map Prod.fst)) address block (translate ws t)
  some (postBbHandler T t)

/-- A block of a fragment, and what the scanner writes before and after it. -/
structure Block (w : Nat) (I : Type) where
  address : BitVec w
  start : List Written
  insts : List (I × List Written)
  after : List Written

/-- The scan of a fragment: a system call or an inlined branch ends one block and begins the next one. -/
def scanFragment : List (Block w I) → Thread ι → Option (Thread ι × List (List Place))
  | [], t => some (t, [])
  | b :: bs, t =>
    (scanBlock T env b.address b.start b.insts t).bind fun t =>
      (scanFragment bs (translate b.after t)).map fun r => (r.1, t.fetches :: r.2)

end Scanner

section Targets

open AccessSize (a64IsLoadOrStore a64GetLdStSize thumbIsLoad thumbIsStore thumbGetLdStSize armIsLoad armIsStore
  armGetLdStSize riscvIsLoadOrStore riscvGetLdStSize)

def saved (lr : Nat) : BitVec 32 := 1 <<< 0 ||| 1 <<< 1 ||| 1 <<< 2 ||| 1 <<< lr

structure A64Inst where
  inst : AccessSize.A64Inst
  word : A64LoadStore.Encoding
  cond : Cond
  deriving DecidableEq

def a64 : Target 64 A64Plugin.Inst A64Inst where
  emitters := SafeFcalls.a64
  a0 := 0
  a1 := 1
  a2 := 2
  saved := saved 30
  dataSaved := saved 30
  instSize := SafeFcalls.a64.setReg 1
  getInstLen _ := 4
  isLoad i := (a64IsLoadOrStore i.inst i.word).1
  isStore i := (a64IsLoadOrStore i.inst i.word).2
  isRvvMem _ := false
  isCond i := i.cond ≠ AL
  getLdStSize i := a64GetLdStSize i.inst i.word
  calcLdStAddr readAddress count i := A64LoadStore.calcLdStAddr readAddress count i.inst.instruction i.word 0
  rvvInfo _ := none
  emitLocalBranchCond i loc writeP := BranchEmitters.A64.emitLocalBranchCond loc writeP (i.cond ^^^ 1)
  callsBack _ := true

structure ArmInst where
  inst : ArmLoadStore.ArmInst
  cond : Cond
  deriving DecidableEq

def a32 : Target 32 A32.Inst ArmInst where
  emitters := SafeFcalls.a32
  a0 := 0
  a1 := 1
  a2 := 2
  saved := saved 14
  dataSaved := saved 14
  instSize := SafeFcalls.a32.setReg 1
  getInstLen _ := 4
  isLoad i := armIsLoad i.inst
  isStore i := armIsStore i.inst
  isRvvMem _ := false
  isCond i := i.cond ≠ AL
  getLdStSize i := armGetLdStSize i.inst
  calcLdStAddr readAddress count i := ArmLoadStore.armCalcLdStAddr readAddress count i.inst 0
  rvvInfo _ := none
  emitLocalBranchCond i loc writeP := BranchEmitters.A32.emitBranchCondAt loc writeP (i.cond ^^^ 1) false
  callsBack _ := true

/-- An instruction that accesses no memory may be long or short. -/
structure ThumbInst where
  inst : ArmLoadStore.ThumbInst
  long : Bool
  cond : Cond
  deriving DecidableEq

def ThumbInst.len (i : ThumbInst) : Nat :=
  match i.inst with
  | .multiple16 .. | .reg16 .. | .imm16 .. | .ldrPc16 _ | .sp16 .. | .pop16 _ | .push16 _ => 2
  | .other => if i.long then 4 else 2
  | _ => 4

def t32 : Target 32 T32Plugin.Inst ThumbInst where
  emitters := SafeFcalls.t32
  a0 := 0
  a1 := 1
  a2 := 2
  saved := saved 14
  dataSaved := saved 14
  instSize := SafeFcalls.t32.setReg 1
  getInstLen := ThumbInst.len
  isLoad i := thumbIsLoad i.inst
  isStore i := thumbIsStore i.inst
  isRvvMem _ := false
  isCond i := i.cond ≠ AL
  getLdStSize i := thumbGetLdStSize i.inst
  calcLdStAddr readAddress count i := ArmLoadStore.thumbCalcLdStAddr readAddress count i.inst 0
  rvvInfo _ := none
  emitLocalBranchCond i loc writeP := BranchEmitters.T32.emitBranchCondAt loc (writeP ||| 1) (i.cond ^^^ 1) false
  callsBack _ := true

inductive RvInst
  | plugin (i : RvPlugin.Inst)
  | ori (rd rs1 : Rv.Reg) (imm : BitVec 12)
  deriving DecidableEq

def RvInst.size : RvInst → Nat
  | .plugin i => rvSize i
  | .ori .. => 4

def rvEmitters : Emitters 64 RvInst where
  maxFcallArgs := riscv.maxFcallArgs
  lr := riscv.lr
  function := riscv.function
  size := RvInst.size
  push regs := (riscv.push regs).map fun is => is.map .plugin
  pop regs := (riscv.pop regs).map fun is => is.map .plugin
  setReg reg value := (riscv.setReg reg value).map .plugin
  branchLink write target := (riscv.branchLink write target).map fun r => ⟨r.ret, r.code.map .plugin⟩
  callLr := .plugin riscv.callLr
  toPush := riscv.toPush

/-- An instruction that accesses no memory may be compressed, and may end a block. -/
structure RiscvInst where
  inst : AccessSize.RiscvInst
  word : RvIsa.Encoding
  compressed : Bool
  ends : Bool
  deriving DecidableEq

def RiscvInst.len (i : RiscvInst) : Nat :=
  match i.inst with
  | .known (.cLoad _) | .known (.cStore _) | .known (.cLoadSp _) | .known (.cStoreSp _) => 2
  | .known .other => if i.compressed then 2 else 4
  | _ => 4

def RiscvInst.isRvvMem (i : RiscvInst) : Bool :=
  match i.inst with
  | .known (.vector _ _) => true
  | _ => false

/-- Whether `pass1_riscv` finds a load-reserved or a store-conditional before the end of the block. -/
def pass1Atomic : List RiscvInst → Bool
  | [] => false
  | i :: is =>
    if i.ends then false
    else
      match i.inst with
      | .known (.lr _) | .known (.amo .sc _) => true
      | _ => pass1Atomic is

def rvSaved : BitVec 32 := 1 <<< 10 ||| 1 <<< 11 ||| 1 <<< 12 ||| 1 <<< 1

def emitFixedInstSize (value : BitVec 64) : List RvInst :=
  let value : BitVec 32 := value.setWidth 32
  [.plugin (.core (.lui Rv.a1 (((value + 0x800) >>> 12).setWidth 20))),
    .plugin (.core (.addiw Rv.a1 Rv.a1 (value.setWidth 12)))]

def a3 : Rv.Reg := 13

/-- The scanner delivers no callbacks around the instructions of a block with an atomic sequence. -/
def riscv : Target 64 RvInst RiscvInst where
  emitters := rvEmitters
  a0 := 10
  a1 := 11
  a2 := 12
  saved := rvSaved
  dataSaved := rvSaved ||| 1 <<< 13
  instSize := emitFixedInstSize
  getInstLen := RiscvInst.len
  isLoad i := (riscvIsLoadOrStore i.inst).1
  isStore i := (riscvIsLoadOrStore i.inst).2
  isRvvMem := RiscvInst.isRvvMem
  isCond _ := false
  getLdStSize i := some (riscvGetLdStSize i.inst)
  calcLdStAddr _ count i :=
    let r := RvLoadStore.riscvCalcLdStAddr (BitVec.ofInt 32 count) i.inst.instruction i.word Rv.a0
    some ⟨r.ret, r.code.map .plugin⟩
  rvvInfo i :=
    (RvvSize.calcRvvLdStSize i.word a3 Rv.a1).map fun is =>
      is.map .plugin ++ .plugin (.core (.slli Rv.a1 a3 1)) ::
        if (riscvIsLoadOrStore i.inst).2 then [.ori Rv.a1 Rv.a1 1] else []
  emitLocalBranchCond _ loc writeP :=
    let r := BranchEmitters.Rv.emitLocalBranchCond loc writeP (BranchEmitters.Rv.AL ^^^ 1)
    some ⟨r.ret, r.code.map .plugin⟩
  callsBack is := !pass1Atomic is

inductive Isa
  | a64
  | a32
  | t32
  | riscv
  deriving DecidableEq

def Isa.width : Isa → Nat
  | .a64 | .riscv => 64
  | .a32 | .t32 => 32

/-- What the plugin emits. -/
def Isa.Code : Isa → Type
  | .a64 => A64Plugin.Inst
  | .a32 => A32.Inst
  | .t32 => T32Plugin.Inst
  | .riscv => RvInst

/-- What it is called back for. -/
def Isa.Inst : Isa → Type
  | .a64 => A64Inst
  | .a32 => ArmInst
  | .t32 => ThumbInst
  | .riscv => RiscvInst

def target : (isa : Isa) → Target isa.width isa.Code isa.Inst
  | .a64 => a64
  | .a32 => a32
  | .t32 => t32
  | .riscv => riscv

end Targets

end Mambo.CachesimFetch
