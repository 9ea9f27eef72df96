import Mambo.Xtrace
import Mathlib.Logic.Function.Basic

namespace Mambo.XtraceDecode

open Bytes Xtrace

structure DecodeThread where
  sampledStamp : Word
  nextPc : Word
  hasSampledStamp : Bool
  hasNextPc : Bool

/-- What the program says on stderr when it gives up, in the order of the source. -/
inductive DecodeResult
  | ok
  | cannotReadHeader
  | unsupportedFormat
  | crossEndian
  | archMismatch
  | missingEof
  | corruptEof
  | corruptBlockHeader
  | truncatedEventBlock
  | invalidZstd
  | unknownCompression
  | outputFailed
  deriving DecidableEq, Repr

def decoderValue (e : XtraceEvent) : Text :=
  let size := e.metaWord.toNat
  if size = 0 then "?".toList
  else if size ≤ 8 then
    let value := if size < 8 then e.dataLo &&& ((1#64 <<< (size * 8)) - 1) else e.dataLo
    hex value.toNat
  else
    let bytes := u64.write e.dataLo ++ u64.write e.dataHi
    let count := if size > maxByteValue then maxByteValue else size
    (bytes.take count).flatMap (fun b => hex2 b.toNat) ++
      if e.flags &&& eventFlagValueTruncated ≠ 0 then "...".toList else []

section Events

variable (header : XtraceFileHeader) (formatInstText : FormatInst)

/-- The stamp of an instruction; none when no sample has been seen yet. -/
def decodeStamp (e : XtraceEvent) (t : DecodeThread) : Option (Word × DecodeThread) :=
  if header.flags &&& fileFlagCycleTimestamps ≠ 0 then some (e.dataHi, t)
  else if header.flags &&& fileFlagClockTimestamps ≠ 0 then
    let t := if e.flags &&& eventFlagTimestampSample ≠ 0 then
        { t with sampledStamp := e.dataHi, hasSampledStamp := true }
      else t
    if !t.hasSampledStamp then none
    else if header.timestampFrequencyHz ≠ 0 then
      some (scaleTimestamp t.sampledStamp header.timestampFrequencyHz, t)
    else some (t.sampledStamp, t)
  else some (0, t)

def decodeInst (e : XtraceEvent) (t : DecodeThread) (ringWritten : Bool) : Text × Option (DecodeThread × Bool) :=
  let firstRing := !ringWritten
  let discontinuity := t.hasNextPc && e.address != t.nextPc
  let ring := if firstRing || discontinuity then
      let target := if firstRing && header.flags &&& fileFlagBaseOverride != 0 then header.baseOverride
        else e.address
      "ring ".toList ++ decimal header.ringLevel.toInt ++ ", pc -> ".toList ++ hex target.toNat ++ "\n".toList
    else []
  let ringWritten := if firstRing || discontinuity then true else ringWritten
  match decodeStamp header e t with
  | none => (ring, none)
  | some (stamp, t) =>
    let line := appendf [] (hex e.address.toNat ++ " @".toList ++ hex stamp.toNat ++ ": ".toList)
    let line := formatBytes line e.dataLo e.size.toNat
    let line := appendf line "  ".toList
    let line := formatInstText line e.address e.dataLo (metaInstType (e.metaWord.setWidth 64))
      (metaInst (e.metaWord.setWidth 64))
    let line := appendf line "\n".toList
    (ring ++ line, some ({ t with nextPc := e.address + e.size.setWidth 64, hasNextPc := true }, ringWritten))

def decodeAccess (kind arrow : Text) (e : XtraceEvent) : Text :=
  " - ".toList ++ kind ++ " ".toList ++ decimal (e.metaWord.setWidth 64 * 8 : Word).toNat ++ " M[".toList ++
    hex e.address.toNat ++ "] ".toList ++ arrow ++ " ".toList ++ decoderValue e ++ "\n".toList

/-- One event: what is written for it, and then the thread and the ring flag, or
none for a failure. -/
def decodeEvent (e : XtraceEvent) (t : DecodeThread) (ringWritten : Bool) : Text × Option (DecodeThread × Bool) :=
  if e.type = eventInst then decodeInst header formatInstText e t ringWritten
  else if e.type = eventLoad then (decodeAccess "LD".toList "->".toList e, some (t, ringWritten))
  else if e.type = eventStore then (decodeAccess "ST".toList "<-".toList e, some (t, ringWritten))
  else ([], none)

def decodeEvents : List XtraceEvent → DecodeThread → Bool → Text × Option (DecodeThread × Bool)
  | [], t, ringWritten => ([], some (t, ringWritten))
  | e :: es, t, ringWritten =>
    match decodeEvent header formatInstText e t ringWritten with
    | (text, none) => (text, none)
    | (text, some (t, ringWritten)) =>
      let r := decodeEvents es t ringWritten
      (text ++ r.1, r.2)

end Events

section Stream

variable (zstd : Zstd) (decoderArch : BitVec 8) (formatInstText : FormatInst)

def corruptBlock (block : XtraceBlockHeader) : Bool :=
  block.magic ≠ blockMagic ∨ block.headerSize ≠ 32 ∨ block.eventCount.toNat > eventsPerBlock ∨
    block.threadId.toNat > 2 ^ 20 ∨ block.rawSize.toNat ≠ block.eventCount.toNat * 32 ∨
    block.storedSize = 0 ∨ block.storedSize.toNat > block.rawSize.toNat ∨ block.flags &&& ~~~blockFlagZstd ≠ 0

def blockPayload (block : XtraceBlockHeader) (stored : List Byte) : Except DecodeResult (List Byte) :=
  if block.flags &&& blockFlagZstd ≠ 0 then
    match zstd.decompress block.rawSize.toNat stored with
    | some raw => if raw.length = block.rawSize.toNat then .ok raw else .error .invalidZstd
    | none => .error .invalidZstd
  else if block.storedSize = block.rawSize then .ok stored
  else .error .unknownCompression

def decodeBlocks (header : XtraceFileHeader) (input : List Byte) (threads : Nat → DecodeThread)
    (ringWritten : Bool) : Text × DecodeResult :=
  match _ : blockFormat.read input with
  | none => ([], .missingEof)
  | some (block, rest) =>
    if block.magic = eofMagic then ([], if block.headerSize ≠ 32 then .corruptEof else .ok)
    else if corruptBlock block then ([], .corruptBlockHeader)
    else if rest.length < block.storedSize.toNat then ([], .truncatedEventBlock)
    else
      match blockPayload zstd block (rest.take block.storedSize.toNat) with
      | .error r => ([], r)
      | .ok raw =>
        let events := (eventFormat.readMany block.eventCount.toNat raw).getD []
        match decodeEvents header formatInstText events (threads block.threadId.toNat) ringWritten with
        | (text, none) => (text, .outputFailed)
        | (text, some (t, ringWritten)) =>
          let r := decodeBlocks header (rest.drop block.storedSize.toNat)
            (Function.update threads block.threadId.toNat t) ringWritten
          (text ++ r.1, r.2)
termination_by input.length
decreasing_by
  have hlen := blockFormat.length_read _ _ _ ‹blockFormat.read input = _›
  have hsize : blockFormat.size = 32 := rfl
  rw [List.length_drop]
  omega

def unsupported (header : XtraceFileHeader) : Bool :=
  let known := fileFlagClockTimestamps ||| fileFlagBaseOverride ||| fileFlagCycleTimestamps
  let stamps := fileFlagClockTimestamps ||| fileFlagCycleTimestamps
  header.magic ≠ fileMagic ∨ header.version ≠ fileVersion ∨ header.headerSize ≠ 64 ∨ header.eventSize ≠ 32 ∨
    header.pointerSize ≠ 8 ∨ header.flags &&& ~~~known ≠ 0 ∨ header.flags &&& stamps = stamps ∨
    header.timestampFrequencyHz ≠ 0 ∧ header.flags &&& fileFlagClockTimestamps = 0

def decodeStart : DecodeThread := ⟨0, 0, false, false⟩

/-- The text written to the output and how the program ends. -/
def decodeStream (input : List Byte) : Text × DecodeResult :=
  match headerFormat.read input with
  | none => ([], .cannotReadHeader)
  | some (header, rest) =>
    if unsupported header then ([], .unsupportedFormat)
    else if header.byteOrder ≠ 1 then ([], .crossEndian)
    else if decoderArch ≠ 0 ∧ decoderArch ≠ header.arch then ([], .archMismatch)
    else
      match decodeBlocks zstd formatInstText header rest (fun _ => decodeStart) false with
      | (text, .ok) => (text ++ "#eof\n".toList, .ok)
      | r => r

end Stream

variable {zstd : Zstd} {formatInstText : FormatInst} {header : XtraceFileHeader}

theorem decodeBlocks_eq (input : List Byte) (threads : Nat → DecodeThread) (ringWritten : Bool) :
    decodeBlocks zstd formatInstText header input threads ringWritten =
      match blockFormat.read input with
      | none => ([], .missingEof)
      | some (block, rest) =>
        if block.magic = eofMagic then ([], if block.headerSize ≠ 32 then .corruptEof else .ok)
        else if corruptBlock block then ([], .corruptBlockHeader)
        else if rest.length < block.storedSize.toNat then ([], .truncatedEventBlock)
        else
          match blockPayload zstd block (rest.take block.storedSize.toNat) with
          | .error r => ([], r)
          | .ok raw =>
            match decodeEvents header formatInstText ((eventFormat.readMany block.eventCount.toNat raw).getD [])
              (threads block.threadId.toNat) ringWritten with
            | (text, none) => (text, .outputFailed)
            | (text, some (t, ringWritten)) =>
              (text ++ (decodeBlocks zstd formatInstText header (rest.drop block.storedSize.toNat)
                  (Function.update threads block.threadId.toNat t) ringWritten).1,
                (decodeBlocks zstd formatInstText header (rest.drop block.storedSize.toNat)
                  (Function.update threads block.threadId.toNat t) ringWritten).2) := by
  rw [decodeBlocks]
  split
  · rename_i hnone
    rw [hnone]
  · rename_i block rest hsome
    rw [hsome]

end Mambo.XtraceDecode
