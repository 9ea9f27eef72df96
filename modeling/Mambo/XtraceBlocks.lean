import Mambo.XtraceDecode

namespace Mambo.XtraceBlocks

open Bytes Xtrace XtraceDecode

variable {cfg : Config} {zstd : Zstd} {formatInstText : FormatInst} {header : XtraceFileHeader}

section Blocks

theorem storedBlock_spec (cfg : Config) (zstd : Zstd) {raw : List Byte} (hne : raw ≠ []) :
    (storedBlock cfg zstd raw).1 ≠ [] ∧ (storedBlock cfg zstd raw).1.length ≤ raw.length ∧
      ((storedBlock cfg zstd raw).2 = blockFlagZstd ∧
          zstd.decompress raw.length (storedBlock cfg zstd raw).1 = some raw ∨
        (storedBlock cfg zstd raw).2 = 0 ∧ (storedBlock cfg zstd raw).1 = raw) := by
  cases hc : zstd.compress cfg.compressionLevel raw with
  | none =>
      have heq : storedBlock cfg zstd raw = (raw, 0) := by rw [storedBlock, hc]
      rw [heq]
      exact ⟨hne, le_rfl, Or.inr ⟨rfl, rfl⟩⟩
  | some compressed =>
      have hinv := zstd.decompress_compress _ _ _ hc
      by_cases hlt : compressed.length < raw.length
      · have heq : storedBlock cfg zstd raw = (compressed, blockFlagZstd) := by
          simp only [storedBlock, hc, if_pos hlt]
        rw [heq]
        refine ⟨fun hnil : compressed = [] => hne ?_, hlt.le, Or.inl ⟨rfl, hinv⟩⟩
        rw [hnil, zstd.decompress_nil] at hinv
        exact (Option.some.inj hinv).symm
      · have heq : storedBlock cfg zstd raw = (raw, 0) := by simp only [storedBlock, hc, if_neg hlt]
        rw [heq]
        exact ⟨hne, le_rfl, Or.inr ⟨rfl, rfl⟩⟩

theorem flatMap_write_ne_nil {es : List XtraceEvent} (hne : es ≠ []) : es.flatMap eventFormat.write ≠ [] := by
  intro hnil
  have hlen := eventFormat.length_flatMap es
  rw [hnil, List.length_nil, show eventFormat.size = 32 from rfl] at hlen
  exact hne (List.length_eq_zero_iff.mp (by omega))

theorem toNat_ofNat_32 {n : Nat} (h : n < 2 ^ 32) : (BitVec.ofNat 32 n).toNat = n := by
  rw [BitVec.toNat_ofNat, Nat.mod_eq_of_lt h]

def blockOf (cfg : Config) (zstd : Zstd) (id : BitVec 32) (es : List XtraceEvent) : XtraceBlockHeader where
  magic := blockMagic
  headerSize := 32
  threadId := id
  eventCount := BitVec.ofNat 32 es.length
  rawSize := BitVec.ofNat 32 (es.flatMap eventFormat.write).length
  storedSize := BitVec.ofNat 32 (storedBlock cfg zstd (es.flatMap eventFormat.write)).1.length
  flags := (storedBlock cfg zstd (es.flatMap eventFormat.write)).2
  reserved := 0

/-- A non-empty list of events that fits a block, and the sizes in its header. -/
structure Flushable (es : List XtraceEvent) : Prop where
  ne_nil : es ≠ []
  length_le : es.length ≤ eventsPerBlock

theorem Flushable.raw_length {es : List XtraceEvent} (h : Flushable es) :
    (es.flatMap eventFormat.write).length = es.length * 32 ∧ es.length * 32 < 2 ^ 32 := by
  have hle : es.length ≤ 32768 := h.length_le
  exact ⟨eventFormat.length_flatMap es, by omega⟩

theorem Flushable.stored_size {es : List XtraceEvent} (h : Flushable es) (cfg : Config) (zstd : Zstd)
    (id : BitVec 32) :
    (blockOf cfg zstd id es).storedSize.toNat =
      (storedBlock cfg zstd (es.flatMap eventFormat.write)).1.length := by
  obtain ⟨-, hle, -⟩ := storedBlock_spec cfg zstd (flatMap_write_ne_nil h.ne_nil)
  obtain ⟨hraw, hlt⟩ := h.raw_length
  exact toNat_ofNat_32 (by omega)

theorem Flushable.not_corrupt {es : List XtraceEvent} (h : Flushable es) {id : BitVec 32}
    (hid : id.toNat ≤ 2 ^ 20) : corruptBlock (blockOf cfg zstd id es) = false := by
  obtain ⟨hs, hle, hflags⟩ := storedBlock_spec cfg zstd (flatMap_write_ne_nil h.ne_nil)
  obtain ⟨hraw, hlt⟩ := h.raw_length
  have hstored := h.stored_size cfg zstd id
  have hcount : (blockOf cfg zstd id es).eventCount.toNat = es.length := toNat_ofNat_32 (by omega)
  have hrawSize : (blockOf cfg zstd id es).rawSize.toNat = es.length * 32 := by
    rw [← hraw]
    exact toNat_ofNat_32 (by omega)
  have hpos : (blockOf cfg zstd id es).storedSize ≠ 0 := by
    intro h0
    rw [h0] at hstored
    exact hs (List.length_eq_zero_iff.mp hstored.symm)
  have hflag : (blockOf cfg zstd id es).flags &&& ~~~blockFlagZstd = 0 := by
    have heq : (blockOf cfg zstd id es).flags = (storedBlock cfg zstd (es.flatMap eventFormat.write)).2 := rfl
    rcases hflags with ⟨h1, -⟩ | ⟨h0, -⟩
    · rw [heq, h1]; decide
    · rw [heq, h0]; decide
  have hlen := h.length_le
  have hthread : (blockOf cfg zstd id es).threadId = id := rfl
  rw [corruptBlock, decide_eq_false_iff_not, hthread, hcount, hrawSize, hstored, hflag]
  rintro (h0 | h0 | h0 | h0 | h0 | h0 | h0 | h0)
  · exact h0 rfl
  · exact h0 rfl
  · omega
  · omega
  · exact h0 rfl
  · exact hpos h0
  · omega
  · exact h0 rfl

theorem Flushable.payload {es : List XtraceEvent} (h : Flushable es) (id : BitVec 32) :
    blockPayload zstd (blockOf cfg zstd id es) (storedBlock cfg zstd (es.flatMap eventFormat.write)).1 =
      .ok (es.flatMap eventFormat.write) := by
  obtain ⟨-, -, hflags⟩ := storedBlock_spec cfg zstd (flatMap_write_ne_nil h.ne_nil)
  obtain ⟨hraw, hlt⟩ := h.raw_length
  have hrawSize : (blockOf cfg zstd id es).rawSize.toNat = (es.flatMap eventFormat.write).length :=
    toNat_ofNat_32 (by omega)
  have heq : (blockOf cfg zstd id es).flags = (storedBlock cfg zstd (es.flatMap eventFormat.write)).2 := rfl
  rcases hflags with ⟨h1, hinv⟩ | ⟨h0, hsame⟩
  · have hset : blockFlagZstd &&& blockFlagZstd ≠ 0 := by decide
    rw [blockPayload, heq, h1, if_pos hset, hrawSize, hinv]
    exact if_pos rfl
  · have hclear : ¬ (0 : BitVec 32) &&& blockFlagZstd ≠ 0 := by decide
    have hsizes : (blockOf cfg zstd id es).storedSize = (blockOf cfg zstd id es).rawSize := by
      simp only [blockOf, hsame]
    rw [blockPayload, heq, h0, if_neg hclear, if_pos hsizes, hsame]

theorem decodeBlocks_block {es : List XtraceEvent} (h : Flushable es) {id : BitVec 32} (hid : id.toNat ≤ 2 ^ 20)
    (rest : List Byte) {threads : Nat → DecodeThread} {ring ring' : Bool} {text : Text} {t : DecodeThread}
    (hes : decodeEvents header formatInstText es (threads id.toNat) ring = (text, some (t, ring'))) :
    decodeBlocks zstd formatInstText header (blockBytes cfg zstd id es ++ rest) threads ring =
      (text ++ (decodeBlocks zstd formatInstText header rest (Function.update threads id.toNat t) ring').1,
        (decodeBlocks zstd formatInstText header rest (Function.update threads id.toNat t) ring').2) := by
  have hread : blockFormat.read (blockBytes cfg zstd id es ++ rest) =
      some (blockOf cfg zstd id es, (storedBlock cfg zstd (es.flatMap eventFormat.write)).1 ++ rest) := by
    rw [show blockBytes cfg zstd id es = blockFormat.write (blockOf cfg zstd id es) ++
      (storedBlock cfg zstd (es.flatMap eventFormat.write)).1 from rfl, List.append_assoc, blockFormat.read_write]
  have hstored := h.stored_size cfg zstd id
  have hcount : (blockOf cfg zstd id es).eventCount.toNat = es.length := by
    have hle : es.length ≤ 32768 := h.length_le
    exact toNat_ofNat_32 (by omega)
  have hmagic : ¬ (blockOf cfg zstd id es).magic = eofMagic := by simp [blockOf, blockMagic, eofMagic]
  have hthread : (blockOf cfg zstd id es).threadId = id := rfl
  rw [decodeBlocks]
  split
  · rename_i hnone
    exact absurd (hread.symm.trans hnone) (by simp)
  · rename_i block rest' hsome
    obtain ⟨rfl, rfl⟩ := Prod.mk.inj (Option.some.inj (hread.symm.trans hsome))
    rw [if_neg hmagic, h.not_corrupt hid, if_neg Bool.false_ne_true,
      if_neg (by rw [hstored, List.length_append]; omega), hstored, List.take_left, List.drop_left,
      h.payload id, hcount]
    simp only [eventFormat.readMany_write, Option.getD_some, hthread, hes]

theorem decodeEvents_append (es es' : List XtraceEvent) {t : DecodeThread} {ring : Bool} {text : Text}
    {s : DecodeThread × Bool} (h : decodeEvents header formatInstText es t ring = (text, some s)) :
    decodeEvents header formatInstText (es ++ es') t ring =
      (text ++ (decodeEvents header formatInstText es' s.1 s.2).1,
        (decodeEvents header formatInstText es' s.1 s.2).2) := by
  induction es generalizing t ring text with
  | nil =>
      obtain ⟨rfl, hs⟩ := Prod.mk.inj h
      obtain rfl := Option.some.inj hs
      rfl
  | cons e es ih =>
      rw [decodeEvents] at h
      rw [List.cons_append, decodeEvents]
      rcases hev : decodeEvent header formatInstText e t ring with ⟨text₁, _ | ⟨t₁, ring₁⟩⟩
      · simp [hev] at h
      · simp only [hev] at h
        obtain ⟨rfl, hs⟩ := Prod.mk.inj h
        simp only [ih (Prod.ext rfl hs), List.append_assoc]

theorem decodeEvents_split {es es' : List XtraceEvent} {t : DecodeThread} {ring : Bool} {text : Text}
    {s : DecodeThread × Bool} (h : decodeEvents header formatInstText (es ++ es') t ring = (text, some s)) :
    ∃ text₁ s₁ text₂, decodeEvents header formatInstText es t ring = (text₁, some s₁) ∧
      decodeEvents header formatInstText es' s₁.1 s₁.2 = (text₂, some s) ∧ text = text₁ ++ text₂ := by
  induction es generalizing t ring text with
  | nil => exact ⟨[], (t, ring), text, rfl, h, rfl⟩
  | cons e es ih =>
      rw [List.cons_append, decodeEvents] at h
      rw [decodeEvents]
      rcases hev : decodeEvent header formatInstText e t ring with ⟨text₀, _ | ⟨t₀, ring₀⟩⟩
      · simp [hev] at h
      · simp only [hev] at h
        obtain ⟨rfl, hs⟩ := Prod.mk.inj h
        obtain ⟨text₁, s₁, text₂, h₁, h₂, htext⟩ := ih (Prod.ext rfl hs)
        refine ⟨text₀ ++ text₁, s₁, text₂, by simp only [h₁], h₂, ?_⟩
        rw [List.append_assoc]
        exact congrArg (text₀ ++ ·) htext

theorem decodeBlocks_eof {threads : Nat → DecodeThread} {ring : Bool} :
    decodeBlocks zstd formatInstText header (blockFormat.write eofBlock) threads ring = ([], .ok) := by
  have hread : blockFormat.read (blockFormat.write eofBlock) = some (eofBlock, []) := by
    simpa only [List.append_nil] using blockFormat.read_write eofBlock []
  rw [decodeBlocks]
  split
  · rename_i hnone
    exact absurd (hread.symm.trans hnone) (by simp)
  · rename_i block rest' hsome
    obtain ⟨rfl, rfl⟩ := Prod.mk.inj (Option.some.inj (hread.symm.trans hsome))
    rfl

theorem decodeBlocks_all (chunks : List (List XtraceEvent)) (hchunks : ∀ c ∈ chunks, Flushable c)
    {id : BitVec 32} (hid : id.toNat ≤ 2 ^ 20) {threads : Nat → DecodeThread} {ring : Bool} {text : Text}
    {s : DecodeThread × Bool}
    (hes : decodeEvents header formatInstText chunks.flatten (threads id.toNat) ring = (text, some s)) :
    decodeBlocks zstd formatInstText header (chunks.flatMap (blockBytes cfg zstd id) ++ blockFormat.write eofBlock)
      threads ring = (text, .ok) := by
  induction chunks generalizing threads ring text with
  | nil =>
      obtain ⟨rfl, -⟩ := Prod.mk.inj hes
      rw [List.flatMap_nil, List.nil_append]
      exact decodeBlocks_eof
  | cons chunk chunks ih =>
      rw [List.flatten_cons] at hes
      obtain ⟨text₁, s₁, text₂, h₁, h₂, rfl⟩ := decodeEvents_split hes
      have hrest : ∀ c ∈ chunks, Flushable c := fun c hc => hchunks c (List.mem_cons_of_mem _ hc)
      have hthread : Function.update threads id.toNat s₁.1 id.toNat = s₁.1 := Function.update_self _ _ _
      rw [List.flatMap_cons, List.append_assoc, decodeBlocks_block (hchunks chunk List.mem_cons_self) hid _ h₁,
        ih hrest (by rw [hthread]; exact h₂)]

end Blocks

section Writer

/-- Some blocks written for a thread, with the events that were added meanwhile:
each event is in a block or still buffered, in the order of the calls. -/
structure Emits (cfg : Config) (zstd : Zstd) (t : BinaryThread) (out : List Byte) (t' : BinaryThread)
    (es : List XtraceEvent) (chunks : List (List XtraceEvent)) : Prop where
  out_eq : out = chunks.flatMap (blockBytes cfg zstd t.id)
  flushable : ∀ c ∈ chunks, Flushable c
  events_eq : chunks.flatten ++ t'.events = t.events ++ es
  id_eq : t'.id = t.id
  length_le : t'.events.length ≤ eventsPerBlock

variable {t t' t'' : BinaryThread} {out out' : List Byte} {es es' : List XtraceEvent}
  {chunks chunks' : List (List XtraceEvent)}

theorem Emits.nothing (hid : t'.id = t.id) (hevents : t'.events = t.events)
    (hlen : t.events.length ≤ eventsPerBlock) : Emits cfg zstd t [] t' [] [] where
  out_eq := rfl
  flushable := by simp
  events_eq := by rw [List.flatten_nil, List.nil_append, List.append_nil, hevents]
  id_eq := hid
  length_le := by rw [hevents]; exact hlen

theorem Emits.trans (h : Emits cfg zstd t out t' es chunks) (h' : Emits cfg zstd t' out' t'' es' chunks') :
    Emits cfg zstd t (out ++ out') t'' (es ++ es') (chunks ++ chunks') where
  out_eq := by rw [List.flatMap_append, h.out_eq, h'.out_eq, h.id_eq]
  flushable c hc := (List.mem_append.mp hc).elim (h.flushable c) (h'.flushable c)
  events_eq := by rw [List.flatten_append, List.append_assoc, h'.events_eq, ← List.append_assoc, h.events_eq,
    List.append_assoc]
  id_eq := h'.id_eq.trans h.id_eq
  length_le := h'.length_le

theorem Emits.frame (h : Emits cfg zstd t out t' es chunks) (hid : t''.id = t'.id)
    (hevents : t''.events = t'.events) : Emits cfg zstd t out t'' es chunks where
  out_eq := h.out_eq
  flushable := h.flushable
  events_eq := by rw [hevents, h.events_eq]
  id_eq := hid.trans h.id_eq
  length_le := by rw [hevents]; exact h.length_le

theorem flushThread_emits (cfg : Config) (zstd : Zstd) (hlen : t.events.length ≤ eventsPerBlock) :
    ∃ chunks, Emits cfg zstd t (flushThread cfg zstd t).1 (flushThread cfg zstd t).2 [] chunks ∧
      (flushThread cfg zstd t).2.events = [] := by
  by_cases h0 : t.events.length = 0
  · rw [flushThread, if_pos h0]
    exact ⟨[], Emits.nothing rfl rfl hlen, List.length_eq_zero_iff.mp h0⟩
  · have hne : t.events ≠ [] := fun h => h0 (by rw [h, List.length_nil])
    rw [flushThread, if_neg h0]
    refine ⟨[t.events], ⟨?_, ?_, ?_, rfl, Nat.zero_le _⟩, rfl⟩
    · rw [List.flatMap_singleton]
    · simpa using ⟨hne, hlen⟩
    · simp

theorem flushThread_fields (cfg : Config) (zstd : Zstd) (t : BinaryThread) :
    ∃ events, (flushThread cfg zstd t).2 = { t with events := events } := by
  rw [flushThread]
  split
  · exact ⟨t.events, rfl⟩
  · exact ⟨[], rfl⟩

theorem appendEvent_fields (cfg : Config) (zstd : Zstd) (t : BinaryThread) (e : XtraceEvent) :
    ∃ events, (appendEvent cfg zstd t e).2 = { t with events := events } := by
  obtain ⟨events, hflush⟩ := flushThread_fields cfg zstd t
  by_cases hfull : t.events.length = eventsPerBlock
  · refine ⟨events ++ [e], ?_⟩
    simp only [appendEvent, if_pos hfull, hflush]
  · refine ⟨t.events ++ [e], ?_⟩
    simp only [appendEvent, if_neg hfull]

theorem appendEvent_emits (cfg : Config) (zstd : Zstd) (hlen : t.events.length ≤ eventsPerBlock)
    (e : XtraceEvent) :
    ∃ chunks, Emits cfg zstd t (appendEvent cfg zstd t e).1 (appendEvent cfg zstd t e).2 [e] chunks := by
  have hput : ∀ (s : BinaryThread), s.events.length < eventsPerBlock →
      Emits cfg zstd s [] { s with events := s.events ++ [e] } [e] [] := by
    intro s hs
    exact ⟨rfl, by simp, rfl, rfl, by rw [List.length_append, List.length_singleton]; exact hs⟩
  by_cases hfull : t.events.length = eventsPerBlock
  · obtain ⟨chunks, hflush, hnil⟩ := flushThread_emits cfg zstd hlen
    have happ := hflush.trans (hput _ (by rw [hnil]; decide))
    rw [List.append_nil, List.append_nil, List.nil_append] at happ
    refine ⟨chunks, ?_⟩
    rw [appendEvent, if_pos hfull]
    exact happ
  · refine ⟨[], ?_⟩
    rw [appendEvent, if_neg hfull]
    exact hput t (by omega)

end Writer

end Mambo.XtraceBlocks
