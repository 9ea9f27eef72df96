import Mambo.PageMaps
import Mambo.TwoEnded

namespace Mambo.ElfStack

open Bytes TwoEnded
open PageMaps (alignLower)

variable {b : Nat}

abbrev Word (b : Nat) := BitVec (8 * b)

def initialStackSize : Nat := 4 * 1024 * 1024

section Auxv

def atNull : Nat := 0
def atPhdr : Nat := 3
def atPhent : Nat := 4
def atPhnum : Nat := 5
def atPagesz : Nat := 6
def atBase : Nat := 7
def atFlags : Nat := 8
def atEntry : Nat := 9
def atUid : Nat := 11
def atEuid : Nat := 12
def atGid : Nat := 13
def atEgid : Nat := 14
def atPlatform : Nat := 15
def atHwcap : Nat := 16
def atClktck : Nat := 17
def atSecure : Nat := 23
def atRandom : Nat := 25
def atHwcap2 : Nat := 26
def atRseqFeatureSize : Nat := 27
def atRseqAlign : Nat := 28
def atHwcap3 : Nat := 29
def atExecfn : Nat := 31
def atSysinfoEhdr : Nat := 33
def atL1iCachesize : Nat := 40
def atL1iCachegeometry : Nat := 41
def atL1dCachesize : Nat := 42
def atL1dCachegeometry : Nat := 43
def atL2Cachesize : Nat := 44
def atL2Cachegeometry : Nat := 45
def atL3Cachesize : Nat := 46
def atL3Cachegeometry : Nat := 47
def atMinsigstksz : Nat := 51

/-- The types whose value is copied as it is. -/
def copied : List Nat :=
  [atPagesz, atHwcap, atHwcap2, atHwcap3, atClktck, atFlags, atUid, atEuid, atGid, atEgid, atSecure, atSysinfoEhdr,
    atMinsigstksz, atPhent, atL1iCachesize, atL1iCachegeometry, atL1dCachesize, atL1dCachegeometry, atL2Cachesize,
    atL2Cachegeometry, atL3Cachesize, atL3Cachegeometry, atRseqFeatureSize, atRseqAlign]

structure AuxEntry (b : Nat) where
  aType : Word b
  aVal : Word b

structure ElfLoaderAuxv (b : Nat) where
  atBase : Word b
  atEntry : Word b
  atPhdr : Word b
  atPhnum : Word b

end Auxv

section Input

structure CString where
  bytes : List Byte
  noNul : 0 ∉ bytes

def CString.stored (s : CString) : List Byte := s.bytes ++ [0]

def strlen (s : CString) : Nat := s.bytes.length

/-- What `elf_run` is given: the entries of the auxiliary vector before `AT_NULL`, and what
lies behind the pointers in them. -/
structure Args (b : Nat) where
  filename : CString
  argv : List CString
  envp : List CString
  aux : List (AuxEntry b)
  auxv : ElfLoaderAuxv b
  string : Word b → CString
  block : Word b → Fin 16 → Byte

end Input

section Code

def auxDataSize (args : Args b) (e : AuxEntry b) : Nat :=
  (if e.aType.toNat = atPlatform ∨ e.aType.toNat = atExecfn then strlen (args.string e.aVal) + 1 else 0) + 2 * b

def findStackDataSize (args : Args b) : Nat :=
  (4 + args.argv.length) * b + 16 + (strlen args.filename + 1) + (args.argv.map fun s => strlen s + 1).sum +
    (args.envp.map fun s => b + strlen s + 1).sum + (args.aux.map (auxDataSize args)).sum + 2 * b

/-- The memory and the two ends, with the words as an array from `stack`. -/
structure Stack where
  mem : Memory
  stackStrings : Nat
  stack : Nat
  stackI : Nat

def copyStringToStack (s : CString) (st : Stack) : Stack :=
  let len := strlen s + 1
  { st with mem := write st.mem (st.stackStrings - len) s.stored, stackStrings := st.stackStrings - len }

def stackPush (st : Stack) (v : Word b) : Stack :=
  { st with mem := write st.mem (st.stack + b * st.stackI) (wordBytes v), stackI := st.stackI + 1 }

def pushString (b : Nat) (st : Stack) (s : CString) : Stack :=
  let st := copyStringToStack s st
  stackPush st (BitVec.ofNat (8 * b) st.stackStrings)

/-- One round of the loop over the auxiliary vector; `d_aux` runs along with `stack_i`.
The default of the switch ends the program. -/
def copyEntry (args : Args b) (st : Stack) (e : AuxEntry b) : Option Stack :=
  let st := stackPush st e.aType
  if e.aType.toNat ∈ copied then some (stackPush st e.aVal)
  else if e.aType.toNat = atRandom then
    let st := { st with stackStrings := st.stackStrings - 15 }
    let st := { st with mem := write st.mem st.stackStrings (List.ofFn (args.block e.aVal)) }
    let st := stackPush st (BitVec.ofNat (8 * b) st.stackStrings)
    some { st with stackStrings := st.stackStrings - 1 }
  else if e.aType.toNat = atPlatform ∨ e.aType.toNat = atExecfn then some (pushString b st (args.string e.aVal))
  else if e.aType.toNat = atBase then some (stackPush st args.auxv.atBase)
  else if e.aType.toNat = atPhdr then some (stackPush st args.auxv.atPhdr)
  else if e.aType.toNat = atPhnum then some (stackPush st args.auxv.atPhnum)
  else if e.aType.toNat = atEntry then some (stackPush st args.auxv.atEntry)
  else none

def copyAux (args : Args b) : List (AuxEntry b) → Stack → Option Stack
  | [], st => some st
  | e :: rest, st => (copyEntry args st e).bind (copyAux args rest)

/-- What is put on the stack; `none` if the last assertion fails. -/
def fillStack (args : Args b) (st : Stack) : Option Stack :=
  let st := stackPush st (BitVec.ofNat (8 * b) (args.argv.length + 1))
  let st := pushString b st args.filename
  let st := args.argv.foldl (pushString b) st
  let st := stackPush st (0 : Word b)
  let st := args.envp.foldl (pushString b) st
  let st := stackPush st (0 : Word b)
  (copyAux args args.aux st).bind fun st =>
    let st := stackPush (stackPush st (BitVec.ofNat (8 * b) atNull)) (0 : Word b)
    if st.stack + b * st.stackI ≤ st.stackStrings then some st else none

/-- The stack on which the program is entered, with `stack` as its stack pointer. -/
def elfRun (args : Args b) (stackSpace : Nat) (mem : Memory) : Option Stack :=
  let top := stackSpace + initialStackSize
  fillStack args ⟨mem, top, alignLower (top - findStackDataSize args) 16, 0⟩

end Code

section Abi

/-- A type that the loop has a case for. -/
def Handled (e : AuxEntry b) : Prop :=
  e.aType.toNat ∈ copied ++ [atRandom, atPlatform, atExecfn, atBase, atPhdr, atPhnum, atEntry]

def pointedTo (args : Args b) (e : AuxEntry b) : Option (List Byte) :=
  if e.aType.toNat = atRandom then some (List.ofFn (args.block e.aVal))
  else if e.aType.toNat = atPlatform ∨ e.aType.toNat = atExecfn then some (args.string e.aVal).stored
  else none

def plainValue (args : Args b) (e : AuxEntry b) : Word b :=
  if e.aType.toNat = atBase then args.auxv.atBase
  else if e.aType.toNat = atPhdr then args.auxv.atPhdr
  else if e.aType.toNat = atPhnum then args.auxv.atPhnum
  else if e.aType.toNat = atEntry then args.auxv.atEntry
  else e.aVal

/-- The words of the image for given pointers to the arguments and the environment and given
values in the auxiliary vector. -/
def imageWords (args : Args b) (av ev xv : List (Word b)) : List (Word b) :=
  BitVec.ofNat (8 * b) (args.argv.length + 1) :: av ++ ([0] ++ (ev ++ ([0] ++
    ((List.zipWith (fun e v => [e.aType, v]) args.aux xv).flatten ++ [BitVec.ofNat (8 * b) atNull, 0]))))

def stringPieces (ps : List (Word b)) (ss : List CString) : List (Nat × List Byte) :=
  List.zipWith (fun p s => (p.toNat, s.stored)) ps ss

def auxPieces (args : Args b) (es : List (AuxEntry b)) (xv : List (Word b)) : List (Nat × List Byte) :=
  (es.zip xv).filterMap fun r => (pointedTo args r.1).map fun bytes => (r.2.toNat, bytes)

def imagePieces (args : Args b) (av ev xv : List (Word b)) : List (Nat × List Byte) :=
  stringPieces av (args.filename :: args.argv) ++ (stringPieces ev args.envp ++ auxPieces args args.aux xv)

/-- The image read back from the stack pointer: the vectors of pointers end with the first
null pointer, everything pointed to is there, and nothing overlaps. -/
structure ReadsBack (args : Args b) (mem : Memory) (sp : Nat) (av ev xv : List (Word b)) : Prop where
  argc : av.length = args.argv.length + 1
  envc : ev.length = args.envp.length
  auxc : xv.length = args.aux.length
  words : WordsAt mem sp (imageWords args av ev xv)
  nonNull : ∀ p ∈ av ++ ev, p ≠ 0
  pieces : ∀ p ∈ imagePieces args av ev xv, BytesAt mem p.1 p.2
  values : ∀ r ∈ args.aux.zip xv, pointedTo args r.1 = none → r.2 = plainValue args r.1
  separate : (imagePieces args av ev xv).Pairwise Separate
  outside : ∀ p ∈ imagePieces args av ev xv, sp + b * (imageWords args av ev xv).length ≤ p.1

/-- The program starts on a stack as the process-entry ABI describes it. -/
def Faithful (args : Args b) (stackSpace : Nat) (st : Stack) : Prop :=
  (∃ av ev xv, ReadsBack args st.mem st.stack av ev xv) ∧ st.stack % 16 = 0 ∧ stackSpace ≤ st.stack

end Abi

end Mambo.ElfStack
