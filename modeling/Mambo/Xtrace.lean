import Mambo.Bytes

namespace Mambo.Xtrace

open Bytes

abbrev Text := List Char

abbrev Word := BitVec 64

def hex (n : Nat) : Text := Nat.toDigits 16 n

def hex2 (n : Nat) : Text := if n < 16 then '0' :: hex n else hex n

def decimal (n : Int) : Text := (toString n).toList

def appendf (line text : Text) : Text := (line ++ text).take 255

section Layout

def u8 : Format (BitVec 8) := .field 8 rfl

def u16 : Format (BitVec 16) := .field 16 rfl

def u32 : Format (BitVec 32) := .field 32 rfl

def u64 : Format Word := .field 64 rfl

structure XtraceEvent where
  address : Word
  dataLo : Word
  dataHi : Word
  metaWord : BitVec 32
  size : BitVec 16
  type : BitVec 8
  flags : BitVec 8
  deriving DecidableEq

def eventFormat : Format XtraceEvent :=
  (u64.pair (u64.pair (u64.pair (u32.pair (u16.pair (u8.pair u8)))))).map
    (fun (address, dataLo, dataHi, metaWord, size, type, flags) => ⟨address, dataLo, dataHi, metaWord, size, type, flags⟩)
    (fun e => (e.address, e.dataLo, e.dataHi, e.metaWord, e.size, e.type, e.flags)) (fun _ => rfl)

structure XtraceBlockHeader where
  magic : BitVec 32
  headerSize : BitVec 32
  threadId : BitVec 32
  eventCount : BitVec 32
  rawSize : BitVec 32
  storedSize : BitVec 32
  flags : BitVec 32
  reserved : BitVec 32
  deriving DecidableEq

def blockFormat : Format XtraceBlockHeader :=
  (u32.pair (u32.pair (u32.pair (u32.pair (u32.pair (u32.pair (u32.pair u32))))))).map
    (fun (magic, headerSize, threadId, eventCount, rawSize, storedSize, flags, reserved) =>
      ⟨magic, headerSize, threadId, eventCount, rawSize, storedSize, flags, reserved⟩)
    (fun b => (b.magic, b.headerSize, b.threadId, b.eventCount, b.rawSize, b.storedSize, b.flags, b.reserved))
    (fun _ => rfl)

/-- The magic is the eight characters of the string as one field. -/
structure XtraceFileHeader where
  magic : Word
  version : BitVec 16
  headerSize : BitVec 16
  eventSize : BitVec 16
  byteOrder : BitVec 8
  pointerSize : BitVec 8
  arch : BitVec 8
  flags : BitVec 8
  reserved0 : BitVec 16
  ringLevel : BitVec 32
  compressionLevel : BitVec 32
  reserved1 : BitVec 32
  baseOverride : Word
  timestampFrequencyHz : Word
  reserved : Word × Word
  deriving DecidableEq

def headerFormat : Format XtraceFileHeader :=
  (u64.pair (u16.pair (u16.pair (u16.pair (u8.pair (u8.pair (u8.pair (u8.pair (u16.pair (u32.pair
    (u32.pair (u32.pair (u64.pair (u64.pair (u64.pair u64))))))))))))))).map
    (fun (magic, version, headerSize, eventSize, byteOrder, pointerSize, arch, flags, reserved0, ringLevel,
        compressionLevel, reserved1, baseOverride, timestampFrequencyHz, reserved) =>
      ⟨magic, version, headerSize, eventSize, byteOrder, pointerSize, arch, flags, reserved0, ringLevel,
        compressionLevel, reserved1, baseOverride, timestampFrequencyHz, reserved⟩)
    (fun h => (h.magic, h.version, h.headerSize, h.eventSize, h.byteOrder, h.pointerSize, h.arch, h.flags,
      h.reserved0, h.ringLevel, h.compressionLevel, h.reserved1, h.baseOverride, h.timestampFrequencyHz,
      h.reserved))
    (fun _ => rfl)

example : eventFormat.size = 32 ∧ blockFormat.size = 32 ∧ headerFormat.size = 64 := ⟨rfl, rfl, rfl⟩

def fileMagic : Word := 0x004543415254584D

def fileVersion : BitVec 16 := 1

def blockMagic : BitVec 32 := 0x4b4c4258

def eofMagic : BitVec 32 := 0x464f4558

def fileFlagClockTimestamps : BitVec 8 := 1

def fileFlagBaseOverride : BitVec 8 := 2

def fileFlagCycleTimestamps : BitVec 8 := 4

def blockFlagZstd : BitVec 32 := 1

def eventFlagValueTruncated : BitVec 8 := 1

def eventFlagTimestampSample : BitVec 8 := 2

def eventInst : BitVec 8 := 1

def eventLoad : BitVec 8 := 2

def eventStore : BitVec 8 := 3

def eventsPerBlock : Nat := 32768

def maxByteValue : Nat := 16

def timestampSampleInterval : Nat := 256

end Layout

/-- The compression library, as far as its documentation goes: decompression
inverts compression, and no input gives no output. -/
structure Zstd where
  compress : BitVec 32 → List Byte → Option (List Byte)
  decompress : Nat → List Byte → Option (List Byte)
  decompress_compress : ∀ level raw stored, compress level raw = some stored →
    decompress raw.length stored = some raw
  decompress_nil : ∀ capacity, decompress capacity [] = some []

inductive TimestampMode
  | none
  | clock
  deriving DecidableEq, Repr

/-- The settings from the environment and the build. -/
structure Config where
  ranges : List (Word × Word)
  baseOverride : Option Word
  ringLevel : BitVec 32
  compressionLevel : BitVec 32
  timestampMode : TimestampMode
  cpuHz : Word
  arch : BitVec 8

def pcFiltered (cfg : Config) (pc : Word) : Bool :=
  if cfg.ranges.isEmpty then false else !cfg.ranges.any fun r => r.1 ≤ pc && pc ≤ r.2

def scaleTimestamp (nanoseconds frequencyHz : Word) : Word :=
  BitVec.ofNat 64 (nanoseconds.toNat * frequencyHz.toNat / 1000000000)

section Instructions

def infoLoad : Word := 1

def infoStore : Word := 2

def instMetaInstMask : Word := 0xFFFFFF

def instMeta (instType inst : Word) : Word := ((instType &&& 0xff) <<< 24) ||| (inst &&& instMetaInstMask)

/-- What the pre-instruction callback passes on about an instruction. -/
def instInfo (instType inst instLen : Word) : Word := (instMeta instType inst <<< 4) ||| (instLen &&& 0xf)

def metaInstType (metaWord : Word) : Int := (metaWord >>> 24).toNat

def metaInst (metaWord : Word) : Int :=
  if metaWord &&& instMetaInstMask = instMetaInstMask then -1 else (metaWord &&& instMetaInstMask).toNat

def formatByteLoop (encoding : Word) : Nat → Nat → Text → Text
  | 0, _, line => line
  | n + 1, i, line => formatByteLoop encoding n (i + 1) (appendf line (hex2 ((encoding >>> (i * 8)) &&& 0xff).toNat))

def formatBytes (line : Text) (encoding : Word) (instLen : Nat) : Text :=
  if instLen = 0 ∨ instLen > 8 then appendf line "??".toList else formatByteLoop encoding instLen 0 line

end Instructions

/-- A call of one of the three capture functions, with the clock reading or the
memory that it sees. -/
inductive Capture
  | inst (pc encoding instType inst instLen now : Word)
  | accessPre (pc addr info : Word) (memory : Word → Byte)
  | storePost (memory : Word → Byte)

def memoryBytes (memory : Word → Byte) (addr : Word) (n : Nat) : List Byte :=
  (List.range n).map fun i => memory (addr + BitVec.ofNat 64 i)

/-- The text of xtrace_format_inst_text, which both programs share: what it
makes of the line so far for an instruction. -/
abbrev FormatInst := Text → Word → Word → Int → Int → Text

section TextMode

variable (cfg : Config) (formatInstText : FormatInst)

structure TextThread where
  storeAddr : Word
  storeInfo : Word
  storePending : Bool
  nextPc : Word
  hasNextPc : Bool
  ringWritten : Bool

def textStart : TextThread := ⟨0, 0, false, 0, false, false⟩

def printRingLine (t : TextThread) (pc : Word) (discontinuity : Bool) : Text × TextThread :=
  let firstRing := !t.ringWritten
  if !firstRing && !discontinuity then ([], t)
  else
    let target := if firstRing then cfg.baseOverride.getD pc else pc
    ("ring ".toList ++ decimal cfg.ringLevel.toInt ++ ", pc -> ".toList ++ hex target.toNat ++ "\n".toList,
      { t with ringWritten := true })

def printMemValue (memory : Word → Byte) (addr size : Word) : Text :=
  if size = 0 then "?".toList
  else if size.toNat ≤ 8 then hex (ofBytes (memoryBytes memory addr size.toNat))
  else
    let bytesToPrint := min size.toNat maxByteValue
    (memoryBytes memory addr bytesToPrint).flatMap (fun b => hex2 b.toNat) ++
      if bytesToPrint < size.toNat then "...".toList else []

def recordInstText (t : TextThread) (pc encoding info now : Word) : Text × TextThread :=
  if pcFiltered cfg pc then ([], t)
  else
    let instLen := info &&& 0xf
    let metaWord := info >>> 4
    let discontinuity := t.hasNextPc && pc != t.nextPc
    let (ring, t) := printRingLine cfg t pc discontinuity
    let stamp := if cfg.timestampMode = .none then 0 else now
    let stamp := if cfg.timestampMode = .clock ∧ cfg.cpuHz ≠ 0 then scaleTimestamp stamp cfg.cpuHz else stamp
    let line := appendf [] (hex pc.toNat ++ " @".toList ++ hex stamp.toNat ++ ": ".toList)
    let line := formatBytes line encoding instLen.toNat
    let line := appendf line "  ".toList
    let line := formatInstText line pc encoding (metaInstType metaWord) (metaInst metaWord)
    let line := appendf line "\n".toList
    (ring ++ line, { t with nextPc := pc + instLen, hasNextPc := true })

def recordAccessPreText (t : TextThread) (pc addr info : Word) (memory : Word → Byte) : Text × TextThread :=
  if pcFiltered cfg pc then ([], t)
  else
    let size := info >>> 2
    let text := if info &&& infoLoad ≠ 0 then
        " - LD ".toList ++ decimal (size * 8).toNat ++ " M[".toList ++ hex addr.toNat ++ "] -> ".toList ++
          printMemValue memory addr size ++ "\n".toList
      else []
    let t := if info &&& infoStore ≠ 0 then { t with storeAddr := addr, storeInfo := info, storePending := true }
      else t
    (text, t)

def recordStorePostText (t : TextThread) (memory : Word → Byte) : Text × TextThread :=
  if !t.storePending then ([], t)
  else
    let size := t.storeInfo >>> 2
    (" - ST ".toList ++ decimal (size * 8).toNat ++ " M[".toList ++ hex t.storeAddr.toNat ++ "] <- ".toList ++
      printMemValue memory t.storeAddr size ++ "\n".toList, { t with storePending := false })

def recordText (t : TextThread) : Capture → Text × TextThread
  | .inst pc encoding instType inst instLen now =>
    recordInstText cfg formatInstText t pc encoding (instInfo instType inst instLen) now
  | .accessPre pc addr info memory => recordAccessPreText cfg t pc addr info memory
  | .storePost memory => recordStorePostText t memory

def recordAllText (t : TextThread) : List Capture → Text
  | [] => []
  | c :: cs =>
    let r := recordText cfg formatInstText t c
    r.1 ++ recordAllText r.2 cs

/-- The whole text file for the calls of one thread. -/
def textFile (cs : List Capture) : Text := recordAllText cfg formatInstText textStart cs ++ "#eof\n".toList

end TextMode

section BinaryMode

variable (cfg : Config) (zstd : Zstd)

structure BinaryThread where
  storeAddr : Word
  storeInfo : Word
  storePending : Bool
  id : BitVec 32
  events : List XtraceEvent
  instructionCount : Nat

def binaryStart (id : BitVec 32) : BinaryThread := ⟨0, 0, false, id, [], 0⟩

def fileHeader : XtraceFileHeader where
  magic := fileMagic
  version := fileVersion
  headerSize := 64
  eventSize := 32
  byteOrder := 1
  pointerSize := 8
  arch := cfg.arch
  flags := (if cfg.timestampMode ≠ .none then fileFlagClockTimestamps else 0) |||
    (if cfg.baseOverride.isSome then fileFlagBaseOverride else 0)
  reserved0 := 0
  ringLevel := cfg.ringLevel
  compressionLevel := cfg.compressionLevel
  reserved1 := 0
  baseOverride := cfg.baseOverride.getD 0
  timestampFrequencyHz := if cfg.timestampMode = .clock then cfg.cpuHz else 0
  reserved := (0, 0)

/-- The payload of a block and its flags: compressed where that is smaller. -/
def storedBlock (raw : List Byte) : List Byte × BitVec 32 :=
  match zstd.compress cfg.compressionLevel raw with
  | some compressed => if compressed.length < raw.length then (compressed, blockFlagZstd) else (raw, 0)
  | none => (raw, 0)

def blockBytes (id : BitVec 32) (events : List XtraceEvent) : List Byte :=
  let raw := events.flatMap eventFormat.write
  let stored := storedBlock cfg zstd raw
  blockFormat.write
    { magic := blockMagic
      headerSize := 32
      threadId := id
      eventCount := BitVec.ofNat 32 events.length
      rawSize := BitVec.ofNat 32 raw.length
      storedSize := BitVec.ofNat 32 stored.1.length
      flags := stored.2
      reserved := 0 } ++ stored.1

def flushThread (t : BinaryThread) : List Byte × BinaryThread :=
  if t.events.length = 0 then ([], t) else (blockBytes cfg zstd t.id t.events, { t with events := [] })

/-- xtrace_next_event together with the assignment to the slot it returns. -/
def appendEvent (t : BinaryThread) (e : XtraceEvent) : List Byte × BinaryThread :=
  let (out, t) := if t.events.length = eventsPerBlock then flushThread cfg zstd t else ([], t)
  (out, { t with events := t.events ++ [e] })

def captureValue (e : XtraceEvent) (addr size : Word) (memory : Word → Byte) : XtraceEvent :=
  let copied := min size.toNat maxByteValue
  let bytes := memoryBytes memory addr copied ++ List.replicate (maxByteValue - copied) 0
  { e with
    dataLo := BitVec.ofNat 64 (ofBytes (bytes.take 8))
    dataHi := BitVec.ofNat 64 (ofBytes (bytes.drop 8))
    flags := if size.toNat > maxByteValue then e.flags ||| eventFlagValueTruncated else e.flags }

def accessEvent (type : BitVec 8) (addr size : Word) : XtraceEvent where
  address := addr
  dataLo := 0
  dataHi := 0
  metaWord := if size.toNat > 0xFFFFFFFF then 0xFFFFFFFF else size.setWidth 32
  size := if size.toNat > 0xFFFF then 0xFFFF else size.setWidth 16
  type := type
  flags := 0

def recordInstBinary (t : BinaryThread) (pc encoding info now : Word) : List Byte × BinaryThread :=
  if pcFiltered cfg pc then ([], t)
  else
    let instLen := info &&& 0xf
    let metaWord := info >>> 4
    let flushed := if t.events.length > eventsPerBlock - 3 then flushThread cfg zstd t else ([], t)
    let sample := cfg.timestampMode ≠ .none ∧ flushed.2.instructionCount % timestampSampleInterval = 0
    let r := appendEvent cfg zstd flushed.2
      { address := pc
        dataLo := encoding
        dataHi := if sample then now else 0
        metaWord := metaWord.setWidth 32
        size := instLen.setWidth 16
        type := eventInst
        flags := if sample then eventFlagTimestampSample else 0 }
    (flushed.1 ++ r.1, { r.2 with instructionCount := r.2.instructionCount + 1 })

def recordAccessPreBinary (t : BinaryThread) (pc addr info : Word) (memory : Word → Byte) :
    List Byte × BinaryThread :=
  if pcFiltered cfg pc then ([], t)
  else
    let size := info >>> 2
    let r := if info &&& infoLoad ≠ 0 then
        appendEvent cfg zstd t (captureValue (accessEvent eventLoad addr size) addr size memory)
      else ([], t)
    let t := if info &&& infoStore ≠ 0 then
        { r.2 with storeAddr := addr, storeInfo := info, storePending := true }
      else r.2
    (r.1, t)

def recordStorePostBinary (t : BinaryThread) (memory : Word → Byte) : List Byte × BinaryThread :=
  if !t.storePending then ([], t)
  else
    let size := t.storeInfo >>> 2
    let r := appendEvent cfg zstd t (captureValue (accessEvent eventStore t.storeAddr size) t.storeAddr size memory)
    (r.1, { r.2 with storePending := false })

def recordBinary (t : BinaryThread) : Capture → List Byte × BinaryThread
  | .inst pc encoding instType inst instLen now =>
    recordInstBinary cfg zstd t pc encoding (instInfo instType inst instLen) now
  | .accessPre pc addr info memory => recordAccessPreBinary cfg zstd t pc addr info memory
  | .storePost memory => recordStorePostBinary cfg zstd t memory

def recordAllBinary (t : BinaryThread) : List Capture → List Byte
  | [] => (flushThread cfg zstd t).1
  | c :: cs =>
    let r := recordBinary cfg zstd t c
    r.1 ++ recordAllBinary r.2 cs

def eofBlock : XtraceBlockHeader := ⟨eofMagic, 32, 0, 0, 0, 0, 0, 0⟩

/-- The whole binary file for the calls of one thread: the header, the blocks up
to the flush at the end of the thread, and the block of the exit handler. -/
def binaryFile (id : BitVec 32) (cs : List Capture) : List Byte :=
  headerFormat.write (fileHeader cfg) ++ recordAllBinary cfg zstd (binaryStart id) cs ++ blockFormat.write eofBlock

end BinaryMode

end Mambo.Xtrace
