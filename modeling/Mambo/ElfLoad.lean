import Mambo.PageMaps

namespace Mambo.ElfLoad

open Bytes PageMaps

inductive PType
  | load
  | interp
  | other
  deriving DecidableEq

structure Phdr where
  type : PType
  writable : Bool
  offset : Nat
  vaddr : Nat
  filesz : Nat
  memsz : Nat

structure Elf where
  file : File
  /-- `ET_DYN`. -/
  isDyn : Bool
  entry : Nat
  phoff : Nat
  phdrs : List Phdr

structure Auxv where
  atPhdr : Nat
  atPhnum : Nat
  atEntry : Nat
  atBase : Nat

structure Proc where
  mem : Space
  brk : Nat
  auxv : Auxv
  entryAddr : Nat

/-- What stops the loading: a check that exits or hangs, a mapping that fails, a fault. -/
inductive Fault
  | rejected
  | mapFailed
  | bus
  deriving DecidableEq

/-- The pages of the kernel, where it puts a reservation that a hint and a length ask for, and the files it opens. -/
structure Kernel where
  pageSize : Nat
  reserve : Proc → Nat → Nat → Nat
  openFile : List Byte → Option Elf
  pageSize_pos : 0 < pageSize
  reserve_dvd : ∀ p hint len, pageSize ∣ reserve p hint len

variable (K : Kernel)

section Segments

def mmapFile (mem : Space) (a len : Nat) (f : File) (offset : Nat) : Except Fault Space :=
  if len = 0 ∨ offset % K.pageSize ≠ 0 then .error .mapFailed
  else .ok (mapAt mem a len fun d => f.mapped K.pageSize (offset + d))

def memset (mem : Space) (a n : Nat) : Except Fault Space :=
  match fill mem a n 0 with
  | some mem => .ok mem
  | none => .error .bus

/-- The address space after `load_segment`, for a segment with its base. -/
def mapSegment (f : File) (ph : Phdr) (mem : Space) : Except Fault Space :=
  let alignedVaddr := alignLower ph.vaddr K.pageSize
  let pageOffset := ph.vaddr - alignedVaddr
  let alignedFsize := alignHigher (ph.filesz + pageOffset) K.pageSize
  let mapFileEnd := ph.vaddr + ph.filesz
  let alignedMsize := alignHigher (ph.memsz + pageOffset) K.pageSize
  if ph.offset < pageOffset then .error .mapFailed
  else do
    let mem ← mmapFile K mem alignedVaddr alignedFsize f (ph.offset - pageOffset)
    let mem ← if ph.writable then memset mem mapFileEnd (alignedVaddr + alignedFsize - mapFileEnd) else .ok mem
    return if alignedMsize > alignedFsize then
      mapAt mem (alignedVaddr + alignedFsize) (alignedMsize - alignedFsize) fun _ => some 0
    else mem

def segmentEnd (ph : Phdr) : Nat :=
  let alignedVaddr := alignLower ph.vaddr K.pageSize
  alignedVaddr + alignHigher (ph.memsz + (ph.vaddr - alignedVaddr)) K.pageSize

def Phdr.moved (ph : Phdr) (base : Nat) : Phdr := { ph with vaddr := ph.vaddr + base }

/-- `load_segment`, with the header that it leaves. -/
def loadSegment (base : Nat) (f : File) (isDyn isInterp : Bool) (ph : Phdr) (p : Proc) : Except Fault (Phdr × Proc) :=
  if isDyn ∧ base = 0 then .error .rejected
  else do
    let ph := if isDyn then ph.moved base else ph
    let mem ← mapSegment K f ph p.mem
    return (ph, { p with mem := mem, brk := if !isInterp && decide (segmentEnd K ph > p.brk) then segmentEnd K ph else p.brk })

end Segments

section Files

def Elf.loads (e : Elf) : List Phdr := e.phdrs.filter fun ph => ph.type = .load

def Elf.maxAddr (e : Elf) : Nat := (e.loads.map fun ph => ph.vaddr + ph.memsz).foldl max 0

/-- The lowest address; none stands for `UINTPTR_MAX`. -/
def Elf.minAddr (e : Elf) : Option Nat := (e.loads.map Phdr.vaddr).min?

/-- The path in an INTERP segment; none where the reading fails. -/
def interpPath (e : Elf) (ph : Phdr) : Option (List Byte) :=
  if ph.filesz > 255 ∨ ph.offset + ph.filesz > e.file.size then none
  else some (((List.range ph.filesz).map fun i => e.file.byte (ph.offset + i)).takeWhile (· ≠ 0))

/-- The file that an INTERP header names; none where it cannot be opened. -/
def interpFile (e : Elf) (ph : Phdr) : Option Elf := (interpPath e ph).bind K.openFile

def loadInterp (nested : Elf → Proc → Except Fault Proc) (isInterp : Bool) (e : Elf) (p : Proc) (ph : Phdr) : Except Fault Proc :=
  if ph.type = .interp then
    if isInterp then .error .rejected
    else
      match interpFile K e ph with
      | none => .error .rejected
      | some e' => nested e' p
  else .ok p

def loadHeader (base : Nat) (isInterp : Bool) (e : Elf) (p : Proc) (ph : Phdr) : Except Fault Proc :=
  if ph.type = .load then do
    let r ← loadSegment K base e.file e.isDyn isInterp ph p
    return if ph.offset = 0 then
      { r.2 with auxv := if isInterp then { r.2.auxv with atBase := r.1.vaddr }
                         else { r.2.auxv with atPhdr := r.1.vaddr + e.phoff } }
    else r.2
  else .ok p

def baseAddr (e : Elf) (p : Proc) : Nat := K.reserve p (e.minAddr.getD 0) (e.maxAddr - e.minAddr.getD 0)

/-- `load_elf` from the program headers on, with what it calls for an interpreter. -/
def loadWith (nested : Elf → Proc → Except Fault Proc) (isInterp : Bool) (e : Elf) (p : Proc) : Except Fault Proc :=
  let minAddr := e.minAddr.getD 0
  let base := baseAddr K e p
  if e.minAddr = none ∨ (e.isDyn = true ↔ minAddr ≠ 0) ∨ e.maxAddr - minAddr = 0 then .error .rejected
  else if !e.isDyn ∧ base ≠ minAddr then .error .rejected
  else do
    let entry := if e.isDyn then e.entry + base else e.entry
    let p := { p with
      mem := mapAt p.mem base (alignHigher (e.maxAddr - minAddr) K.pageSize) fun _ => none
      entryAddr := entry
      auxv := if isInterp then p.auxv else { p.auxv with atEntry := entry } }
    let p ← e.phdrs.foldlM (loadInterp K nested isInterp e) p
    let p := { p with auxv := if isInterp then { p.auxv with atBase := 0 }
                              else { p.auxv with atPhdr := 0, atPhnum := e.phdrs.length } }
    let p ← e.phdrs.foldlM (loadHeader K base isInterp e) p
    if (if isInterp then p.auxv.atBase else p.auxv.atPhdr) = 0 then .error .rejected else return p

def loadInterpreter (e : Elf) (p : Proc) : Except Fault Proc := loadWith K (fun _ _ => .error .rejected) true e p

def loadElf (isInterp : Bool) (e : Elf) (p : Proc) : Except Fault Proc :=
  if isInterp then loadInterpreter K e p else loadWith K (loadInterpreter K) false e p

end Files

end Mambo.ElfLoad
