import Mambo.IntLoops
import Mambo.Intervals
import Mambo.MamboHt
import Mambo.TopSelection

namespace Mambo.Hotspot

open IntLoops Intervals MamboHt TopSelection

abbrev Count := BitVec 64

def HOTSTAT_TABLE_SIZE : Nat := 2 ^ 14

/-- There is no memory left, the index of a loop overflows, the plugin exits, the look-up of a symbol
crashes, or a fault of the table. -/
inductive Stop
  | memory
  | overflow
  | exit
  | crash
  | table (f : Fault)

/-- The global table, the addresses of its counters, and the counters by address. -/
structure State where
  ht : Table
  globals : List Word
  memory : Word → Count

def ofTable {α : Type} : Except Fault α → Except Stop α
  | .ok a => .ok a
  | .error .memory => .error .memory
  | .error f => .error (.table f)

section Merge

-- mamboAlloc gives a new mapping of a number of bytes, apart from the addresses that are in use
variable (calloc : Nat → Bool) (mamboAlloc : List Word → Nat → Option Word)

def pointers (ht : Table) : List Word := (List.range ht.size).map fun i => (ht.entries i).value

/-- A round of the merge, for a slot of the table of a thread. A failed mapping is not null, so the
first write to it ends the process. -/
def mergeEntry (locals : List Word) (e : Entry) (st : State) : Except Stop State :=
  if e.key ≠ 0 then
    match ofTable (mamboHtGet st.ht e.key) with
    | .error f => .error f
    | .ok none =>
      match mamboAlloc (st.globals ++ locals) 8 with
      | none => .error .memory
      | some globalCounter =>
        match ofTable (mamboHtAdd calloc st.ht e.key globalCounter) with
        | .error f => .error f
        | .ok (ret, ht) =>
          if ret ≠ 0 then .error .exit
          else .ok
            { ht := ht
              globals := globalCounter :: st.globals
              memory := Function.update st.memory globalCounter (st.memory e.value) }
    | .ok (some globalCounter) =>
      .ok { st with
        memory := Function.update st.memory globalCounter (st.memory globalCounter + st.memory e.value) }
  else .ok st

def hotstatPostThreadCb (locals : List Word) (basicBlockFreq : Table) (st : State) : Except Stop State :=
  forInt .overflow (fun index => mergeEntry calloc mamboAlloc locals (basicBlockFreq.entries index))
    basicBlockFreq.size 0 st

/-- The threads end one after the other, since the merge holds the lock of the global table. -/
def endAll (locals : List Word) : List Table → State → Except Stop State
  | [], st => .ok st
  | thread :: threads, st =>
    match hotstatPostThreadCb calloc mamboAlloc locals thread st with
    | .error f => .error f
    | .ok st => endAll locals threads st

def initHotstat (memory : Word → Count) : Except Stop State :=
  match ofTable (mamboHtInit calloc HOTSTAT_TABLE_SIZE 0 80 true) with
  | .error f => .error f
  | .ok none => .error .exit
  | .ok (some ht) => .ok ⟨ht, [], memory⟩

end Merge

section Symbols

structure ElfSymbol where
  name : Option String
  value : Word
  size : Word
  isFunc : Bool

/-- A symbol table is none if it has no data or entries of size zero, which stops the program. -/
structure ElfFile where
  isDyn : Bool
  tables : List (Option (List ElfSymbol))

/-- What libelf finds in an open file, none for one that has no ELF header, and what readlink gives for it. -/
structure Files where
  elf : Int → Option ElfFile
  path : Int → Option String

/-- What get_symbol_info_by_addr returns and writes; null is none for a text, and zero for an address. -/
structure SymbolInfo where
  ret : Int
  symName : Option String
  startAddr : Word
  filename : Option String

def ElfSymbol.Contains (sym : ElfSymbol) (addr : Word) : Prop :=
  sym.value ≠ 0 ∧ sym.isFunc = true ∧ addr ≥ sym.value ∧ addr < sym.value + sym.size

instance (sym : ElfSymbol) (addr : Word) : Decidable (sym.Contains addr) := inferInstanceAs (Decidable (_ ∧ _))

def searchTables (addr : Word) : List (Option (List ElfSymbol)) → Word × Option String → Option (Word × Option String)
  | [], r => some r
  | none :: _, _ => none
  | some syms :: tables, r =>
    searchTables addr tables
      (syms.foldl (fun r sym => if sym.Contains addr then (sym.value, sym.name) else r) r)

def mappedSymbol (elf : ElfFile) (start addr : Word) : Option (Word × Option String) :=
  (searchTables (if elf.isDyn then addr - start else addr) elf.tables (0, none)).map fun r =>
    (if elf.isDyn ∨ r.1 = 0 then r.1 + start else r.1, r.2)

/-- None where a null header is read or an assertion fails. The file name is only looked for on demand. -/
def getSymbolInfoByAddr (files : Files) (execAllocs : IntervalMap) (addr : Word) (wantsFile : Bool) :
    Option SymbolInfo :=
  match (intervalMapSearchByAddr execAllocs addr.toNat).2 with
  | none => some ⟨-1, none, 0, none⟩
  | some fm =>
    if fm.fd < 0 then some ⟨-1, none, 0, none⟩
    else
      match (files.elf fm.fd).bind fun elf => mappedSymbol elf (BitVec.ofNat 64 fm.start) addr with
      | none => none
      | some (start, name) =>
        if wantsFile then (files.path fm.fd).map fun path => ⟨0, name, start, some path⟩
        else some ⟨0, name, start, none⟩

end Symbols

structure FunctionFreq where
  name : String
  calls : Count

section Report

variable (mamboAlloc : List Word → Nat → Option Word) (files : Files) (execAllocs : IntervalMap)

def startedBy (addr : Word) (info : SymbolInfo) : Option String :=
  if info.ret ≠ 0 ∨ info.startAddr = 0 ∨ addr ≠ info.startAddr then none else info.symName

/-- A round of the loop that fills the array of functions; a failed mapping is only noticed by a write. -/
def functionOf (mapped : Bool) (memory : Word → Count) (e : Entry) : Except Stop (Option FunctionFreq) :=
  if e.key = 0 then .ok none
  else
    match getSymbolInfoByAddr files execAllocs e.key false with
    | none => .error .crash
    | some info =>
      match startedBy e.key info with
      | none => .ok none
      | some name => if mapped then .ok (some ⟨name, memory e.value⟩) else .error .memory

def functions (mapped : Bool) (st : State) : List Nat → Except Stop (List FunctionFreq)
  | [] => .ok []
  | i :: is =>
    match functionOf files execAllocs mapped st.memory (st.ht.entries i) with
    | .error e => .error e
    | .ok f => (functions mapped st is).map (f.toList ++ ·)

def hotstatPrintTopFunctions (topK : Nat) (st : State) : Except Stop (List FunctionFreq) :=
  let mapped := (mamboAlloc st.globals (16 * st.ht.entryCount)).isSome
  (functions files execAllocs mapped st (List.range st.ht.size)).map fun fs =>
    selectFrom (·.calls.toNat) topK 0 fs.toArray.toVector

structure Largest where
  counter : Count
  idx : Nat
  addr : Word

def largestRound (memory : Word → Count) (entries : Nat → Entry) (j : Nat) (max : Largest) : Except Stop Largest :=
  .ok (if (entries j).key = 0 then max
    else if max.counter < memory (entries j).value then ⟨memory (entries j).value, j, (entries j).key⟩ else max)

def mark (entries : Nat → Entry) (idx : Nat) : Nat → Entry :=
  Function.update entries idx { entries idx with key := 0 }

/-- The line for a block: the file, the address in it, the symbol and the count. -/
abbrev Line := Option String × Word × String × Count

def blockLine (block : Word × Count) : Option Line :=
  (getSymbolInfoByAddr files execAllocs block.1 true).map fun info =>
    (info.filename, block.1 - info.startAddr, info.symName.getD "none", block.2)

/-- The lines of the blocks in the order in which they are printed, each of which is marked in the table. -/
def reportBlocks (memory : Word → Count) (size : Nat) : Nat → Nat → (Nat → Entry) → Except Stop (List Line)
  | 0, _, _ => .ok []
  | n + 1, i, entries =>
    match forInt .overflow (largestRound memory entries) size 0 ⟨0, 0, 0⟩ with
    | .error f => .error f
    | .ok max =>
      if max.addr = 0 then .ok []
      else
        match blockLine files execAllocs (max.addr, max.counter) with
        | none => .error .crash
        | some line =>
          if i + 1 < 2 ^ 31 then (reportBlocks memory size n (i + 1) (mark entries max.idx)).map (line :: ·)
          else .error .overflow

def hotstatExitCb (topK : Nat) (st : State) : Except Stop (List FunctionFreq × List Line) :=
  match hotstatPrintTopFunctions mamboAlloc files execAllocs topK st with
  | .error f => .error f
  | .ok fs =>
    (reportBlocks files execAllocs st.memory st.ht.size st.ht.size 0 st.ht.entries).map fun lines => (fs, lines)

end Report

/-- The ends of the threads, and then of the process: the global table, and what is printed. -/
def hotstat (calloc : Nat → Bool) (mamboAlloc : List Word → Nat → Option Word) (files : Files)
    (execAllocs : IntervalMap) (topK : Nat) (threads : List Table) (st : State) :
    Except Stop (State × List FunctionFreq × List Line) :=
  match endAll calloc mamboAlloc (threads.flatMap pointers) threads st with
  | .error f => .error f
  | .ok st => (hotstatExitCb mamboAlloc files execAllocs topK st).map (st, ·)

end Mambo.Hotspot
