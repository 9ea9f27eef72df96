import Mambo.XtraceThreads
import Mambo.XtraceRoundTrip

namespace Mambo.XtraceTruncation

open Bytes Xtrace XtraceDecode XtraceBlocks XtraceThreads XtraceRoundTrip

section Bounds

variable (zstd : Zstd) (decoderArch : BitVec 8) (formatInstText : FormatInst)

/-- The block loop with a bound on its iterations. It gives no result when it
reaches the bound, or when an event lies outside the payload of its block. -/
def checkedBlocks (header : XtraceFileHeader) :
    Nat → List Byte → (Nat → DecodeThread) → Bool → Option (Text × DecodeResult)
  | 0, _, _, _ => none
  | n + 1, input, threads, ringWritten =>
    match blockFormat.read input with
    | none => some ([], .missingEof)
    | some (block, rest) =>
      if block.magic = eofMagic then some ([], if block.headerSize ≠ 32 then .corruptEof else .ok)
      else if corruptBlock block then some ([], .corruptBlockHeader)
      else if rest.length < block.storedSize.toNat then some ([], .truncatedEventBlock)
      else
        match blockPayload zstd block (rest.take block.storedSize.toNat) with
        | .error r => some ([], r)
        | .ok raw =>
          match eventFormat.readMany block.eventCount.toNat raw with
          | none => none
          | some events =>
            match decodeEvents header formatInstText events (threads block.threadId.toNat) ringWritten with
            | (text, none) => some (text, .outputFailed)
            | (text, some (t, ringWritten)) =>
              (checkedBlocks header n (rest.drop block.storedSize.toNat)
                (Function.update threads block.threadId.toNat t) ringWritten).map fun r => (text ++ r.1, r.2)

/-- The decoder with at most n iterations of its block loop. -/
def checkedStream (n : Nat) (input : List Byte) : Option (Text × DecodeResult) :=
  match headerFormat.read input with
  | none => some ([], .cannotReadHeader)
  | some (header, rest) =>
    if unsupported header then some ([], .unsupportedFormat)
    else if header.byteOrder ≠ 1 then some ([], .crossEndian)
    else if decoderArch ≠ 0 ∧ decoderArch ≠ header.arch then some ([], .archMismatch)
    else
      (checkedBlocks zstd formatInstText header n rest (fun _ => decodeStart) false).map fun
        | (text, .ok) => (text ++ "#eof\n".toList, .ok)
        | r => r

end Bounds

variable {cfg : Config} {zstd : Zstd} {decoderArch : BitVec 8} {formatInstText : FormatInst}
  {header : XtraceFileHeader}

theorem eventFormat_total : eventFormat.Total :=
  have h (w : Nat) (hw : w % 8 = 0) := Format.field_total w hw
  Format.Total.map (((h 64 rfl).pair ((h 64 rfl).pair ((h 64 rfl).pair ((h 32 rfl).pair ((h 16 rfl).pair
    ((h 8 rfl).pair (h 8 rfl)))))))) _ _ _

theorem blockPayload_holds_events {block : XtraceBlockHeader} {stored raw : List Byte}
    (hcorrupt : ¬ corruptBlock block = true) (hstored : stored.length = block.storedSize.toNat)
    (hraw : blockPayload zstd block stored = .ok raw) :
    (eventFormat.readMany block.eventCount.toNat raw).isSome := by
  have hsize : block.rawSize.toNat = block.eventCount.toNat * 32 := by
    by_contra hne
    apply hcorrupt
    rw [corruptBlock, decide_eq_true_iff]
    exact Or.inr (Or.inr (Or.inr (Or.inr (Or.inl hne))))
  have hlen : raw.length = block.rawSize.toNat := by
    rw [blockPayload] at hraw
    split at hraw
    · split at hraw
      · split at hraw
        · rename_i hlen
          rw [← Except.ok.inj hraw]
          exact hlen
        · cases hraw
      · cases hraw
    · split at hraw
      · rename_i hsame
        rw [← Except.ok.inj hraw, hstored, hsame]
      · cases hraw
  apply eventFormat_total.readMany
  rw [hlen, hsize]
  exact le_rfl

theorem checkedBlocks_eq {n : Nat} {input : List Byte} (h : input.length < 32 * n)
    (threads : Nat → DecodeThread) (ringWritten : Bool) :
    checkedBlocks zstd formatInstText header n input threads ringWritten =
      some (decodeBlocks zstd formatInstText header input threads ringWritten) := by
  induction n generalizing input threads ringWritten with
  | zero => omega
  | succ n ih =>
      rw [checkedBlocks, decodeBlocks_eq]
      rcases hread : blockFormat.read input with _ | ⟨block, rest⟩
      · rfl
      have hlen : input.length = 32 + rest.length := blockFormat.length_read _ _ _ hread
      dsimp only
      by_cases hmagic : block.magic = eofMagic
      · rw [if_pos hmagic, if_pos hmagic]
      by_cases hcorrupt : corruptBlock block = true
      · rw [if_neg hmagic, if_pos hcorrupt, if_neg hmagic, if_pos hcorrupt]
      by_cases hshort : rest.length < block.storedSize.toNat
      · rw [if_neg hmagic, if_neg hcorrupt, if_pos hshort, if_neg hmagic, if_neg hcorrupt, if_pos hshort]
      rw [if_neg hmagic, if_neg hcorrupt, if_neg hshort, if_neg hmagic, if_neg hcorrupt, if_neg hshort]
      rcases hpayload : blockPayload zstd block (rest.take block.storedSize.toNat) with r | raw
      · rfl
      have htake : (rest.take block.storedSize.toNat).length = block.storedSize.toNat := by
        rw [List.length_take]
        omega
      obtain ⟨events, hevents⟩ :=
        Option.isSome_iff_exists.mp (blockPayload_holds_events hcorrupt htake hpayload)
      dsimp only
      rw [hevents, Option.getD_some]
      dsimp only
      rcases decodeEvents header formatInstText events (threads block.threadId.toNat) ringWritten with
        ⟨text, _ | ⟨t, ring⟩⟩
      · rfl
      · dsimp only
        rw [ih (by rw [List.length_drop]; omega), Option.map_some]

theorem checkedStream_eq {n : Nat} {input : List Byte} (h : input.length < 32 * n) :
    checkedStream zstd decoderArch formatInstText n input =
      some (decodeStream zstd decoderArch formatInstText input) := by
  rw [checkedStream, decodeStream]
  rcases hread : headerFormat.read input with _ | ⟨header, rest⟩
  · rfl
  have hlen : input.length = 64 + rest.length := headerFormat.length_read _ _ _ hread
  dsimp only
  split
  · rfl
  · split
    · rfl
    · split
      · rfl
      · rw [checkedBlocks_eq (by omega)]
        rfl

section Prefixes

theorem blockPayload_ne_ok (block : XtraceBlockHeader) (stored : List Byte) :
    blockPayload zstd block stored ≠ .error .ok := by
  intro h
  rw [blockPayload] at h
  split at h
  · split at h
    · split at h
      · cases h
      · cases h
    · cases h
  · split at h
    · cases h
    · cases h

theorem decodeBlocks_ok {input : List Byte} {threads : Nat → DecodeThread} {ringWritten : Bool}
    (h : (decodeBlocks zstd formatInstText header input threads ringWritten).2 = .ok) :
    ∃ block rest, blockFormat.read input = some (block, rest) ∧
      (block.magic = eofMagic ∨ block.storedSize.toNat ≤ rest.length ∧ ∃ threads' ringWritten',
        (decodeBlocks zstd formatInstText header (rest.drop block.storedSize.toNat) threads' ringWritten').2 =
          .ok) := by
  rw [decodeBlocks_eq] at h
  rcases hread : blockFormat.read input with _ | ⟨block, rest⟩
  · rw [hread] at h
    cases h
  rw [hread] at h
  dsimp only at h
  refine ⟨block, rest, rfl, ?_⟩
  by_cases hmagic : block.magic = eofMagic
  · exact Or.inl hmagic
  rw [if_neg hmagic] at h
  refine Or.inr ?_
  split at h
  · cases h
  split at h
  · cases h
  rename_i hshort
  refine ⟨by omega, ?_⟩
  split at h
  · rename_i r hpayload
    dsimp only at h
    rw [h] at hpayload
    exact absurd hpayload (blockPayload_ne_ok _ _)
  · split at h
    · cases h
    · exact ⟨_, _, h⟩

theorem prefix_split {α : Type*} {p a b : List α} (h : p <+: a ++ b) (hlen : a.length ≤ p.length) :
    ∃ q, p = a ++ q ∧ q <+: b := by
  obtain ⟨s, hs⟩ := h
  rcases List.append_eq_append_iff.mp hs with ⟨c, ha, -⟩ | ⟨c, hp, hb⟩
  · have hc : c = [] := by
      apply List.length_eq_zero_iff.mp
      have hsum := congrArg List.length ha
      rw [List.length_append] at hsum
      omega
    subst hc
    rw [List.append_nil] at ha
    exact ⟨[], by rw [List.append_nil, ha], List.nil_prefix⟩
  · exact ⟨c, hp, ⟨s, hb.symm⟩⟩

theorem decodeBlocks_prefix {blocks : List Block} (hblocks : ∀ b ∈ blocks, Flushable b.2) {p : List Byte}
    (hp : p <+: blocksBytes cfg zstd blocks ++ blockFormat.write eofBlock)
    (hne : p ≠ blocksBytes cfg zstd blocks ++ blockFormat.write eofBlock) (threads : Nat → DecodeThread)
    (ringWritten : Bool) : (decodeBlocks zstd formatInstText header p threads ringWritten).2 ≠ .ok := by
  intro hok
  obtain ⟨block, rest, hread, hnext⟩ := decodeBlocks_ok hok
  have hlen : p.length = 32 + rest.length := blockFormat.length_read _ _ _ hread
  induction blocks generalizing p threads ringWritten block rest with
  | nil =>
      rw [blocksBytes, List.flatMap_nil, List.nil_append] at hp hne
      have hwrite : (blockFormat.write eofBlock).length = 32 := blockFormat.length_write _
      exact hne (hp.eq_of_length_le (by omega))
  | cons b blocks ih =>
      have hb := hblocks b List.mem_cons_self
      have hbytes : blocksBytes cfg zstd (b :: blocks) ++ blockFormat.write eofBlock =
          blockFormat.write (blockOf cfg zstd b.1 b.2) ++
            ((storedBlock cfg zstd (b.2.flatMap eventFormat.write)).1 ++
              (blocksBytes cfg zstd blocks ++ blockFormat.write eofBlock)) := by
        rw [blocksBytes, List.flatMap_cons, List.append_assoc]
        exact List.append_assoc _ _ _
      rw [hbytes] at hp hne
      have hwrite : (blockFormat.write (blockOf cfg zstd b.1 b.2)).length = 32 := blockFormat.length_write _
      obtain ⟨q, rfl, hq⟩ := prefix_split hp (by omega)
      rw [blockFormat.read_write] at hread
      obtain ⟨rfl, rfl⟩ := Prod.mk.inj (Option.some.inj hread)
      have hmagic : ¬ (blockOf cfg zstd b.1 b.2).magic = eofMagic := by simp [blockOf, blockMagic, eofMagic]
      obtain ⟨hstored, threads', ring', hok'⟩ := hnext.resolve_left hmagic
      rw [hb.stored_size cfg zstd b.1] at hstored hok'
      obtain ⟨q', rfl, hq'⟩ := prefix_split hq hstored
      rw [List.drop_left] at hok'
      obtain ⟨block', rest', hread', hnext'⟩ := decodeBlocks_ok hok'
      refine ih (fun c hc => hblocks c (List.mem_cons_of_mem _ hc)) hq' ?_ threads' ring' hok' block' rest'
        hread' hnext' (blockFormat.length_read _ _ _ hread')
      rintro rfl
      exact hne rfl

/-- The decoder ends on every input within one iteration of its loop for each 32
bytes and reads no event outside its payload; it accepts no proper part of a
file that the tracer has written. -/
theorem decodeStream_rejects_cuts (zstd : Zstd) (decoderArch : BitVec 8) (formatInstText : FormatInst) :
    (∀ input : List Byte, checkedStream zstd decoderArch formatInstText (input.length / 32 + 1) input =
      some (decodeStream zstd decoderArch formatInstText input)) ∧
    ∀ (cfg : Config) (as : List Action) (w : Tracer), run cfg zstd as = some w → ∀ p : List Byte,
      p <+: traceFile w → p ≠ traceFile w → (decodeStream zstd decoderArch formatInstText p).2 ≠ .ok := by
  refine ⟨fun input => checkedStream_eq (by omega), ?_⟩
  intro cfg as w hrun p hp hne hok
  obtain ⟨blocks, hblocks, hfile⟩ := (run_whole hrun).file_eq
  rw [traceFile, hfile, List.append_assoc] at hp hne
  rw [decodeStream] at hok
  rcases hread : headerFormat.read p with _ | ⟨header, rest⟩
  · rw [hread] at hok
    cases hok
  have hlen : p.length = 64 + rest.length := headerFormat.length_read _ _ _ hread
  have hwrite : (headerFormat.write (fileHeader cfg)).length = 64 := headerFormat.length_write _
  obtain ⟨q, rfl, hq⟩ := prefix_split hp (by omega)
  rw [headerFormat.read_write] at hok
  have hcut : (decodeBlocks zstd formatInstText (fileHeader cfg) q (fun _ => decodeStart) false).2 ≠ .ok := by
    apply decodeBlocks_prefix hblocks hq
    rintro rfl
    exact hne rfl
  dsimp only at hok
  split at hok
  · cases hok
  split at hok
  · cases hok
  split at hok
  · cases hok
  split at hok
  · rename_i text hdecode
    exact hcut (by rw [hdecode])
  · exact hcut hok

/-- A file of one instruction without its last byte. -/
theorem decodeStream_rejects_cuts_byte :
    ∃ w, run plainConfig rawFrames
        [.start, .fetch 0 (.plain 0x400000 0xD503201F 1 2 4 0), .call 0, .stop 0] = some w ∧
      (traceFile w).dropLast <+: traceFile w ∧ (traceFile w).dropLast ≠ traceFile w ∧
      (decodeStream rawFrames 1 (fun line _ _ _ _ => line) (traceFile w).dropLast).2 ≠ .ok := by
  have hsome : (run plainConfig rawFrames
      [.start, .fetch 0 (.plain 0x400000 0xD503201F 1 2 4 0), .call 0, .stop 0]).isSome = true := rfl
  obtain ⟨w, hw⟩ := Option.isSome_iff_exists.mp hsome
  have hne : (traceFile w).dropLast ≠ traceFile w := by
    intro h
    have hlen := congrArg List.length h
    have heof : (blockFormat.write eofBlock).length = 32 := blockFormat.length_write _
    rw [List.length_dropLast, traceFile, List.length_append, heof] at hlen
    omega
  exact ⟨w, hw, List.dropLast_prefix _, hne,
    (decodeStream_rejects_cuts rawFrames 1 _).2 plainConfig _ w hw _ (List.dropLast_prefix _) hne⟩

end Prefixes

end Mambo.XtraceTruncation
