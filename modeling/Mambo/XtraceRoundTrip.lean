import Mambo.XtraceBlocks

namespace Mambo.XtraceRoundTrip

open Bytes Xtrace XtraceDecode XtraceBlocks

variable {cfg : Config} {zstd : Zstd} {formatInstText : FormatInst}

section Values

theorem length_memoryBytes (memory : Word → Byte) (addr : Word) (n : Nat) : (memoryBytes memory addr n).length = n := by
  rw [memoryBytes, List.length_map, List.length_range]

theorem and_low_mask (x : Word) {k : Nat} (hk : k < 64) : (x &&& ((1#64 <<< k) - 1)).toNat = x.toNat % 2 ^ k := by
  have hpow : 2 ^ k < 2 ^ 64 := Nat.pow_lt_pow_right (by omega) hk
  have hpos : 0 < 2 ^ k := Nat.two_pow_pos k
  have hmask : ((1#64 <<< k) - 1).toNat = 2 ^ k - 1 := by
    rw [BitVec.toNat_sub, BitVec.toNat_shiftLeft, show (1#64).toNat = 1 from rfl, Nat.one_shiftLeft,
      Nat.mod_eq_of_lt hpow, show (1 : Word).toNat = 1 from rfl]
    omega
  rw [BitVec.toNat_and, hmask, Nat.and_two_pow_sub_one_eq_mod]

theorem captured_bytes (memory : Word → Byte) (addr : Word) {n : Nat} (hn : n ≤ maxByteValue) :
    let bytes := memoryBytes memory addr n ++ List.replicate (maxByteValue - n) 0
    u64.write (BitVec.ofNat 64 (ofBytes (bytes.take 8))) ++ u64.write (BitVec.ofNat 64 (ofBytes (bytes.drop 8))) =
      bytes := by
  intro bytes
  have hlen : bytes.length = 16 := by
    rw [List.length_append, length_memoryBytes, List.length_replicate]
    have : n ≤ 16 := hn
    have : maxByteValue = 16 := rfl
    omega
  have hback : ∀ bs : List Byte, bs.length = 8 → u64.write (BitVec.ofNat 64 (ofBytes bs)) = bs := by
    intro bs hbs
    have hlt := ofBytes_lt bs
    rw [hbs] at hlt
    change toBytes 8 (BitVec.ofNat 64 (ofBytes bs)).toNat = bs
    rw [BitVec.toNat_ofNat, Nat.mod_eq_of_lt (by simpa using hlt)]
    conv_rhs => rw [← toBytes_ofBytes bs, hbs]
  rw [hback _ (by rw [List.length_take]; omega), hback _ (by rw [List.length_drop]; omega), List.take_append_drop]

variable (type : BitVec 8) (memory : Word → Byte) (addr : Word) {size : Word}

theorem captureValue_metaWord (hsize : size.toNat < 2 ^ 32) :
    (captureValue (accessEvent type addr size) addr size memory).metaWord.toNat = size.toNat := by
  change (if size.toNat > 0xFFFFFFFF then (0xFFFFFFFF : BitVec 32) else size.setWidth 32).toNat = _
  rw [if_neg (by omega), BitVec.toNat_setWidth, Nat.mod_eq_of_lt hsize]

theorem captureValue_dataLo (h8 : size.toNat ≤ 8) :
    (captureValue (accessEvent type addr size) addr size memory).dataLo.toNat =
      ofBytes (memoryBytes memory addr size.toNat) := by
  have hmin : min size.toNat maxByteValue = size.toNat := min_eq_left (le_trans h8 (by decide))
  have hlen := length_memoryBytes memory addr size.toNat
  have htake : (memoryBytes memory addr size.toNat ++ List.replicate (maxByteValue - size.toNat) (0 : Byte)).take 8 =
      memoryBytes memory addr size.toNat ++ List.replicate (min (8 - size.toNat) (maxByteValue - size.toNat)) 0 := by
    rw [List.take_append, hlen, List.take_of_length_le (by rw [hlen]; exact h8), List.take_replicate]
  have hlt : ofBytes (memoryBytes memory addr size.toNat) < 2 ^ 64 := by
    have hlt := ofBytes_lt (memoryBytes memory addr size.toNat)
    rw [hlen] at hlt
    exact lt_of_lt_of_le hlt (Nat.pow_le_pow_right (by omega) h8)
  change (BitVec.ofNat 64 (ofBytes ((memoryBytes memory addr (min size.toNat maxByteValue) ++
    List.replicate (maxByteValue - min size.toNat maxByteValue) 0).take 8))).toNat = _
  rw [hmin, htake, ofBytes_zeros, BitVec.toNat_ofNat, Nat.mod_eq_of_lt hlt]

theorem captureValue_flags :
    (captureValue (accessEvent type addr size) addr size memory).flags =
      if size.toNat > maxByteValue then eventFlagValueTruncated else 0 := by
  change (if size.toNat > maxByteValue then 0#8 ||| eventFlagValueTruncated else 0) = _
  rw [BitVec.zero_or]

theorem decoderValue_captureValue (hsize : size.toNat < 2 ^ 32) :
    decoderValue (captureValue (accessEvent type addr size) addr size memory) = printMemValue memory addr size := by
  rw [decoderValue, printMemValue, captureValue_metaWord type memory addr hsize]
  by_cases h0 : size = 0
  · rw [if_pos h0, if_pos (by rw [h0]; rfl)]
  have hne : size.toNat ≠ 0 := fun h => h0 (BitVec.eq_of_toNat_eq h)
  rw [if_neg h0, if_neg hne]
  by_cases h8 : size.toNat ≤ 8
  · have hlo := captureValue_dataLo type memory addr h8
    rw [if_pos h8, if_pos h8]
    by_cases hlt : size.toNat < 8
    · have hbound := ofBytes_lt (memoryBytes memory addr size.toNat)
      rw [length_memoryBytes, show (256 : Nat) = 2 ^ 8 from rfl, ← Nat.pow_mul, Nat.mul_comm] at hbound
      have hk : size.toNat * 8 < 64 := by omega
      dsimp only
      rw [if_pos hlt, and_low_mask _ hk, hlo, Nat.mod_eq_of_lt hbound]
    · dsimp only
      rw [if_neg hlt, hlo]
  · rw [if_neg h8, if_neg h8, captureValue_flags]
    have hcount : (if size.toNat > maxByteValue then maxByteValue else size.toNat) = min size.toNat maxByteValue := by
      split
      · rw [min_eq_right (by omega)]
      · rw [min_eq_left (by omega)]
    have hbytes := captured_bytes memory addr (min_le_right size.toNat maxByteValue)
    have htake : (memoryBytes memory addr (min size.toNat maxByteValue) ++
        List.replicate (maxByteValue - min size.toNat maxByteValue) 0).take (min size.toNat maxByteValue) =
        memoryBytes memory addr (min size.toNat maxByteValue) := List.take_left' (length_memoryBytes _ _ _)
    dsimp only at hbytes ⊢
    rw [hcount]
    congr 1
    · exact congrArg _ ((congrArg _ hbytes).trans htake)
    · by_cases hbig : size.toNat > maxByteValue
      · rw [if_pos hbig, if_pos (by decide), if_pos (lt_of_le_of_lt (min_le_right _ _) hbig)]
      · rw [if_neg hbig, if_neg (by decide), if_neg (by rw [min_eq_left (by omega)]; omega)]

end Values

section Steps

/-- The text mode, the binary mode and the decoder after the same calls, the
decoder having read the buffered events too. -/
structure Agree (t : TextThread) (b : BinaryThread) (d : DecodeThread) (ringWritten : Bool) : Prop where
  storeAddr : b.storeAddr = t.storeAddr
  storeInfo : b.storeInfo = t.storeInfo
  storePending : b.storePending = t.storePending
  storeSize : t.storePending = true → (t.storeInfo >>> 2).toNat < 2 ^ 32
  nextPc : d.nextPc = t.nextPc
  hasNextPc : d.hasNextPc = t.hasNextPc
  ringWritten : ringWritten = t.ringWritten
  length_le : b.events.length ≤ eventsPerBlock

/-- The size that a call passes for an access. -/
def SizeBounded : Capture → Prop
  | .inst _ _ _ _ _ _ => True
  | .accessPre _ _ info _ => (info >>> 2).toNat < 2 ^ 32
  | .storePost _ => True

instance : DecidablePred SizeBounded
  | .inst _ _ _ _ _ _ => inferInstanceAs (Decidable True)
  | .accessPre _ _ info _ => inferInstanceAs (Decidable ((info >>> 2).toNat < 2 ^ 32))
  | .storePost _ => inferInstanceAs (Decidable True)

theorem decodeAccess_captureValue (kind arrow : Text) (type : BitVec 8) (memory : Word → Byte) (addr : Word)
    {size : Word} (hsize : size.toNat < 2 ^ 32) :
    decodeAccess kind arrow (captureValue (accessEvent type addr size) addr size memory) =
      (" - ".toList ++ kind ++ " ".toList) ++ decimal (size * 8).toNat ++ " M[".toList ++ hex addr.toNat ++
        ("] ".toList ++ arrow ++ " ".toList) ++ printMemValue memory addr size ++ "\n".toList := by
  have hnat := captureValue_metaWord type memory addr hsize
  have hvalue := decoderValue_captureValue type memory addr hsize
  have haddr : (captureValue (accessEvent type addr size) addr size memory).address = addr := rfl
  generalize captureValue (accessEvent type addr size) addr size memory = e at hnat hvalue haddr
  have hmeta : e.metaWord.setWidth 64 = size := by
    apply BitVec.eq_of_toNat_eq
    rw [BitVec.toNat_setWidth, hnat, Nat.mod_eq_of_lt size.isLt]
  unfold decodeAccess
  simp only [hmeta, haddr, hvalue, List.append_assoc]

variable {t : TextThread} {b : BinaryThread} {d : DecodeThread} {ringWritten : Bool}

theorem decodeEvent_load (memory : Word → Byte) (addr : Word) {size : Word} (hsize : size.toNat < 2 ^ 32)
    (header : XtraceFileHeader) :
    decodeEvents header formatInstText [captureValue (accessEvent eventLoad addr size) addr size memory] d
        ringWritten =
      (" - LD ".toList ++ decimal (size * 8).toNat ++ " M[".toList ++ hex addr.toNat ++ "] -> ".toList ++
        printMemValue memory addr size ++ "\n".toList, some (d, ringWritten)) := by
  have htype : (captureValue (accessEvent eventLoad addr size) addr size memory).type = eventLoad := rfl
  have hkind : " - LD ".toList = " - ".toList ++ "LD".toList ++ " ".toList := by simp
  have harrow : "] -> ".toList = "] ".toList ++ "->".toList ++ " ".toList := by simp
  rw [decodeEvents, decodeEvent, htype, if_neg (by decide), if_pos rfl, decodeAccess_captureValue _ _ _ _ _ hsize,
    hkind, harrow]
  simp only [decodeEvents, List.append_nil]

theorem decodeEvent_store (memory : Word → Byte) (addr : Word) {size : Word} (hsize : size.toNat < 2 ^ 32)
    (header : XtraceFileHeader) :
    decodeEvents header formatInstText [captureValue (accessEvent eventStore addr size) addr size memory] d
        ringWritten =
      (" - ST ".toList ++ decimal (size * 8).toNat ++ " M[".toList ++ hex addr.toNat ++ "] <- ".toList ++
        printMemValue memory addr size ++ "\n".toList, some (d, ringWritten)) := by
  have htype : (captureValue (accessEvent eventStore addr size) addr size memory).type = eventStore := rfl
  have hkind : " - ST ".toList = " - ".toList ++ "ST".toList ++ " ".toList := by simp
  have harrow : "] <- ".toList = "] ".toList ++ "<-".toList ++ " ".toList := by simp
  rw [decodeEvents, decodeEvent, htype, if_neg (by decide), if_neg (by decide), if_pos rfl,
    decodeAccess_captureValue _ _ _ _ _ hsize, hkind, harrow]
  simp only [decodeEvents, List.append_nil]

/-- What a call adds to the binary stream decodes to what it adds to the text. -/
def Mirrors (cfg : Config) (zstd : Zstd) (formatInstText : FormatInst) (b : BinaryThread) (d : DecodeThread)
    (ringWritten : Bool) (text : Text × TextThread) (binary : List Byte × BinaryThread) : Prop :=
  ∃ es chunks d' ringWritten', Emits cfg zstd b binary.1 binary.2 es chunks ∧
    decodeEvents (fileHeader cfg) formatInstText es d ringWritten = (text.1, some (d', ringWritten')) ∧
    Agree text.2 binary.2 d' ringWritten'

theorem Agree.buffered {b' : BinaryThread} (h : Agree t b d ringWritten)
    (hfields : ∃ events, b' = { b with events := events }) (hlen : b'.events.length ≤ eventsPerBlock) :
    Agree t b' d ringWritten := by
  obtain ⟨events, rfl⟩ := hfields
  exact { h with length_le := hlen }

theorem Mirrors.pending {text : Text × TextThread} {binary : List Byte × BinaryThread}
    (h : Mirrors cfg zstd formatInstText b d ringWritten text binary) (addr : Word) {info : Word}
    (hsize : (info >>> 2).toNat < 2 ^ 32) :
    Mirrors cfg zstd formatInstText b d ringWritten
      (text.1, { text.2 with storeAddr := addr, storeInfo := info, storePending := true })
      (binary.1, { binary.2 with storeAddr := addr, storeInfo := info, storePending := true }) := by
  obtain ⟨es, chunks, d', ring', hemit, hdecode, hagree⟩ := h
  exact ⟨es, chunks, d', ring', hemit.frame rfl rfl, hdecode,
    { hagree with storeAddr := rfl, storeInfo := rfl, storePending := rfl, storeSize := fun _ => hsize }⟩

theorem Agree.appendEvent (h : Agree t b d ringWritten) {e : XtraceEvent} {text : Text}
    (hdecode : decodeEvents (fileHeader cfg) formatInstText [e] d ringWritten = (text, some (d, ringWritten))) :
    Mirrors cfg zstd formatInstText b d ringWritten (text, t) (appendEvent cfg zstd b e) := by
  obtain ⟨chunks, hemit⟩ := appendEvent_emits cfg zstd h.length_le e
  exact ⟨[e], chunks, d, ringWritten, hemit, hdecode, h.buffered (appendEvent_fields cfg zstd b e) hemit.length_le⟩

theorem Agree.nothing (h : Agree t b d ringWritten) :
    Mirrors cfg zstd formatInstText b d ringWritten ([], t) ([], b) :=
  ⟨[], [], d, ringWritten, Emits.nothing rfl rfl h.length_le, rfl, h⟩

theorem Agree.accessPre (h : Agree t b d ringWritten) (pc addr : Word) {info : Word} (memory : Word → Byte)
    (hsize : (info >>> 2).toNat < 2 ^ 32) :
    Mirrors cfg zstd formatInstText b d ringWritten (recordAccessPreText cfg t pc addr info memory)
      (recordAccessPreBinary cfg zstd b pc addr info memory) := by
  by_cases hf : pcFiltered cfg pc
  · rw [recordAccessPreText, recordAccessPreBinary, if_pos hf, if_pos hf]
    exact h.nothing
  rw [recordAccessPreText, recordAccessPreBinary, if_neg hf, if_neg hf]
  have hload : Mirrors cfg zstd formatInstText b d ringWritten _ _ :=
    h.appendEvent (decodeEvent_load memory addr hsize (fileHeader cfg))
  by_cases hl : info &&& infoLoad ≠ 0
  · by_cases hs : info &&& infoStore ≠ 0
    · simp only [if_pos hl, if_pos hs]
      exact hload.pending addr hsize
    · simp only [if_pos hl, if_neg hs]
      exact hload
  · by_cases hs : info &&& infoStore ≠ 0
    · simp only [if_neg hl, if_pos hs]
      exact h.nothing.pending addr hsize
    · simp only [if_neg hl, if_neg hs]
      exact h.nothing

theorem Agree.storePost (h : Agree t b d ringWritten) (memory : Word → Byte) :
    Mirrors cfg zstd formatInstText b d ringWritten (recordStorePostText t memory)
      (recordStorePostBinary cfg zstd b memory) := by
  rw [recordStorePostText, recordStorePostBinary, h.storePending, h.storeInfo, h.storeAddr]
  by_cases hp : t.storePending
  · rw [if_neg (by simp [hp]), if_neg (by simp [hp])]
    obtain ⟨es, chunks, d', ring', hemit, hdecode, hagree⟩ :=
      h.appendEvent (decodeEvent_store memory t.storeAddr (h.storeSize hp) (fileHeader cfg))
    exact ⟨es, chunks, d', ring', hemit.frame rfl rfl, hdecode,
      { hagree with storePending := rfl, storeSize := fun hfalse => absurd hfalse Bool.false_ne_true }⟩
  · rw [if_pos (by simp [hp]), if_pos (by simp [hp])]
    exact h.nothing

theorem instMeta_lt (instType inst : Word) : (instMeta instType inst).toNat < 2 ^ 32 := by
  have htype : (instType &&& 0xff).toNat ≤ 255 := by
    rw [BitVec.toNat_and]
    exact Nat.and_le_right
  have hinst : (inst &&& instMetaInstMask).toNat ≤ 0xFFFFFF := by
    rw [BitVec.toNat_and]
    exact Nat.and_le_right
  have hshift : ((instType &&& 0xff) <<< 24).toNat = (instType &&& 0xff).toNat * 2 ^ 24 := by
    rw [BitVec.toNat_shiftLeft, Nat.shiftLeft_eq, Nat.mod_eq_of_lt (by omega)]
  rw [instMeta, BitVec.toNat_or]
  exact Nat.or_lt_two_pow (by omega) (by omega)

theorem low_mask_lt (x : Word) : (x &&& 0xf).toNat < 16 := by
  rw [BitVec.toNat_and]
  exact Nat.lt_succ_of_le Nat.and_le_right

theorem instInfo_meta_lt (instType inst instLen : Word) : (instInfo instType inst instLen >>> 4).toNat < 2 ^ 32 := by
  have hmeta := instMeta_lt instType inst
  have hshift : (instMeta instType inst <<< 4).toNat = (instMeta instType inst).toNat * 2 ^ 4 := by
    rw [BitVec.toNat_shiftLeft, Nat.shiftLeft_eq, Nat.mod_eq_of_lt (by omega)]
  have hlen := low_mask_lt instLen
  have hinfo : (instInfo instType inst instLen).toNat < 2 ^ 36 := by
    rw [instInfo, BitVec.toNat_or]
    exact Nat.or_lt_two_pow (by omega) (by omega)
  rw [BitVec.toNat_ushiftRight, Nat.shiftRight_eq_div_pow]
  omega

theorem setWidth_small {v w : Nat} (x : BitVec w) (h : x.toNat < 2 ^ v) : (x.setWidth v).setWidth w = x := by
  apply BitVec.eq_of_toNat_eq
  rw [BitVec.toNat_setWidth, BitVec.toNat_setWidth, Nat.mod_eq_of_lt h, Nat.mod_eq_of_lt x.isLt]

theorem fileHeader_flags (hmode : cfg.timestampMode = .none) :
    (fileHeader cfg).flags = if cfg.baseOverride.isSome then fileFlagBaseOverride else 0 := by
  change (if cfg.timestampMode ≠ .none then fileFlagClockTimestamps else 0#8) |||
    (if cfg.baseOverride.isSome then fileFlagBaseOverride else 0) = _
  rw [if_neg (not_not.mpr hmode), BitVec.zero_or]

theorem decodeStamp_none (hmode : cfg.timestampMode = .none) (e : XtraceEvent) (d : DecodeThread) :
    decodeStamp (fileHeader cfg) e d = some (0, d) := by
  have hcycle : ¬ (fileHeader cfg).flags &&& fileFlagCycleTimestamps ≠ 0 := by
    rw [fileHeader_flags hmode]
    split <;> decide
  have hclock : ¬ (fileHeader cfg).flags &&& fileFlagClockTimestamps ≠ 0 := by
    rw [fileHeader_flags hmode]
    split <;> decide
  rw [decodeStamp, if_neg hcycle, if_neg hclock]

theorem printRingLine_eq (hmode : cfg.timestampMode = .none) (t : TextThread) (pc : Word) (discontinuity : Bool) :
    printRingLine cfg t pc discontinuity =
      (if !t.ringWritten || discontinuity then
        "ring ".toList ++ decimal (fileHeader cfg).ringLevel.toInt ++ ", pc -> ".toList ++
          hex (if !t.ringWritten && (fileHeader cfg).flags &&& fileFlagBaseOverride != 0 then
            (fileHeader cfg).baseOverride else pc).toNat ++ "\n".toList
      else [],
        { t with ringWritten := if !t.ringWritten || discontinuity then true else t.ringWritten }) := by
  have hbase : ((fileHeader cfg).flags &&& fileFlagBaseOverride != 0) = cfg.baseOverride.isSome := by
    rw [fileHeader_flags hmode]
    cases cfg.baseOverride with
    | none => rfl
    | some base => exact (by decide : (fileFlagBaseOverride &&& fileFlagBaseOverride != 0) = true)
  have htarget : (if cfg.baseOverride.isSome then (fileHeader cfg).baseOverride else pc) =
      cfg.baseOverride.getD pc := by
    change (if cfg.baseOverride.isSome then cfg.baseOverride.getD 0 else pc) = _
    cases cfg.baseOverride <;> rfl
  have hlevel : (fileHeader cfg).ringLevel = cfg.ringLevel := rfl
  rw [printRingLine, hbase, hlevel]
  cases hr : t.ringWritten with
  | false => simp [htarget]
  | true =>
      cases discontinuity with
      | false => simp [← hr]
      | true => simp

def instEvent (pc encoding info : Word) : XtraceEvent where
  address := pc
  dataLo := encoding
  dataHi := 0
  metaWord := (info >>> 4).setWidth 32
  size := (info &&& 0xf).setWidth 16
  type := eventInst
  flags := 0

theorem makeRoom_emits (cfg : Config) (zstd : Zstd) (hlen : b.events.length ≤ eventsPerBlock) :
    ∃ flushed, (if b.events.length > eventsPerBlock - 3 then flushThread cfg zstd b else ([], b)) = flushed ∧
      (∃ chunks, Emits cfg zstd b flushed.1 flushed.2 [] chunks) ∧
      ∃ events, flushed.2 = { b with events := events } := by
  refine ⟨_, rfl, ?_⟩
  by_cases hroom : b.events.length > eventsPerBlock - 3
  · obtain ⟨chunks, hemit, -⟩ := flushThread_emits cfg zstd hlen
    rw [if_pos hroom]
    exact ⟨⟨chunks, hemit⟩, flushThread_fields cfg zstd b⟩
  · rw [if_neg hroom]
    exact ⟨⟨[], Emits.nothing rfl rfl hlen⟩, b.events, rfl⟩

theorem recordInstBinary_emits (zstd : Zstd) (hmode : cfg.timestampMode = .none) {pc : Word}
    (hf : ¬ pcFiltered cfg pc = true) (hlen : b.events.length ≤ eventsPerBlock) (encoding info now : Word) :
    (∃ chunks, Emits cfg zstd b (recordInstBinary cfg zstd b pc encoding info now).1
        (recordInstBinary cfg zstd b pc encoding info now).2 [instEvent pc encoding info] chunks) ∧
      ∃ events count, (recordInstBinary cfg zstd b pc encoding info now).2 =
        { b with events := events, instructionCount := count } := by
  obtain ⟨flushed, hflushed, ⟨chunks, hemit⟩, events, hfields⟩ := makeRoom_emits cfg zstd hlen
  obtain ⟨chunks', hemit'⟩ := appendEvent_emits cfg zstd hemit.length_le (instEvent pc encoding info)
  obtain ⟨events', hfields'⟩ := appendEvent_fields cfg zstd flushed.2 (instEvent pc encoding info)
  have hsample : ∀ n, ¬ (cfg.timestampMode ≠ .none ∧ n % timestampSampleInterval = 0) := fun n h => h.1 hmode
  have heq : recordInstBinary cfg zstd b pc encoding info now =
      (flushed.1 ++ (appendEvent cfg zstd flushed.2 (instEvent pc encoding info)).1,
        { (appendEvent cfg zstd flushed.2 (instEvent pc encoding info)).2 with
          instructionCount := (appendEvent cfg zstd flushed.2 (instEvent pc encoding info)).2.instructionCount + 1 }) := by
    simp only [recordInstBinary, if_neg hf, hflushed, hsample, if_false]
    rfl
  rw [heq]
  refine ⟨⟨chunks ++ chunks', (hemit.trans hemit').frame rfl rfl⟩, events', b.instructionCount + 1, ?_⟩
  rw [hfields', hfields]

theorem decodeInst_instEvent (formatInstText : FormatInst) (hmode : cfg.timestampMode = .none) {pc : Word}
    (hf : ¬ pcFiltered cfg pc = true) (hnext : d.nextPc = t.nextPc) (hhas : d.hasNextPc = t.hasNextPc)
    (encoding : Word) {info : Word}
    (hinfo : (info >>> 4).toNat < 2 ^ 32) (now : Word) :
    ∃ d' ring', decodeInst (fileHeader cfg) formatInstText (instEvent pc encoding info) d t.ringWritten =
        ((recordInstText cfg formatInstText t pc encoding info now).1, some (d', ring')) ∧
      (recordInstText cfg formatInstText t pc encoding info now).2 =
        { t with nextPc := d'.nextPc, hasNextPc := d'.hasNextPc, ringWritten := ring' } := by
  have hmeta : (instEvent pc encoding info).metaWord.setWidth 64 = info >>> 4 := setWidth_small _ hinfo
  have hsize : (instEvent pc encoding info).size.setWidth 64 = info &&& 0xf :=
    setWidth_small _ (lt_trans (low_mask_lt info) (by decide))
  have hsizeNat : (instEvent pc encoding info).size.toNat = (info &&& 0xf).toNat := by
    rw [← hsize, BitVec.toNat_setWidth, Nat.mod_eq_of_lt (by have := (instEvent pc encoding info).size.isLt; omega)]
  have haddr : (instEvent pc encoding info).address = pc := rfl
  have hlo : (instEvent pc encoding info).dataLo = encoding := rfl
  simp only [decodeInst, recordInstText, decodeStamp_none hmode, if_neg hf, printRingLine_eq hmode, hmeta, hsize,
    hsizeNat, haddr, hlo, hnext, hhas, hmode, if_true]
  exact ⟨_, _, rfl, rfl⟩

theorem Agree.inst (h : Agree t b d ringWritten) (hmode : cfg.timestampMode = .none)
    (pc encoding instType inst instLen now : Word) :
    Mirrors cfg zstd formatInstText b d ringWritten
      (recordInstText cfg formatInstText t pc encoding (instInfo instType inst instLen) now)
      (recordInstBinary cfg zstd b pc encoding (instInfo instType inst instLen) now) := by
  by_cases hf : pcFiltered cfg pc
  · rw [recordInstText, recordInstBinary, if_pos hf, if_pos hf]
    exact h.nothing
  obtain ⟨⟨chunks, hemit⟩, events, count, hfields⟩ := recordInstBinary_emits zstd hmode hf h.length_le encoding
    (instInfo instType inst instLen) now
  obtain ⟨d', ring', hdecode, ht⟩ := decodeInst_instEvent formatInstText hmode hf h.nextPc h.hasNextPc
    encoding (instInfo_meta_lt instType inst instLen) now
  have hone : decodeEvents (fileHeader cfg) formatInstText
      [instEvent pc encoding (instInfo instType inst instLen)] d ringWritten =
      ((recordInstText cfg formatInstText t pc encoding (instInfo instType inst instLen) now).1,
        some (d', ring')) := by
    have htype : (instEvent pc encoding (instInfo instType inst instLen)).type = eventInst := rfl
    rw [h.ringWritten, decodeEvents, decodeEvent, if_pos htype, hdecode]
    simp only [decodeEvents, List.append_nil]
  have hlen := hemit.length_le
  refine ⟨_, chunks, d', ring', hemit, hone, ?_⟩
  rw [ht]
  rw [hfields] at hlen ⊢
  exact ⟨h.storeAddr, h.storeInfo, h.storePending, h.storeSize, rfl, rfl, rfl, hlen⟩

theorem Agree.record (h : Agree t b d ringWritten) (hmode : cfg.timestampMode = .none) {c : Capture}
    (hc : SizeBounded c) :
    Mirrors cfg zstd formatInstText b d ringWritten (recordText cfg formatInstText t c)
      (recordBinary cfg zstd b c) := by
  cases c with
  | inst pc encoding instType inst instLen now => exact h.inst hmode pc encoding instType inst instLen now
  | accessPre pc addr info memory => exact h.accessPre pc addr memory hc
  | storePost memory => exact h.storePost memory

theorem Agree.recordAll (h : Agree t b d ringWritten) (zstd : Zstd) (formatInstText : FormatInst)
    (hmode : cfg.timestampMode = .none) {cs : List Capture} (hcs : ∀ c ∈ cs, SizeBounded c) :
    ∃ (es : List XtraceEvent) (chunks : List (List XtraceEvent)) (s : DecodeThread × Bool),
      recordAllBinary cfg zstd b cs = chunks.flatMap (blockBytes cfg zstd b.id) ∧
      (∀ c ∈ chunks, Flushable c) ∧ chunks.flatten = b.events ++ es ∧
      decodeEvents (fileHeader cfg) formatInstText es d ringWritten =
        (recordAllText cfg formatInstText t cs, some s) := by
  induction cs generalizing t b d ringWritten with
  | nil =>
      obtain ⟨chunks, hemit, hnil⟩ := flushThread_emits cfg zstd h.length_le
      have hevents := hemit.events_eq
      rw [hnil, List.append_nil, List.append_nil] at hevents
      refine ⟨[], chunks, (d, ringWritten), hemit.out_eq, hemit.flushable, ?_, rfl⟩
      rw [hevents, List.append_nil]
  | cons c cs ih =>
      have hstep : Mirrors cfg zstd formatInstText b d ringWritten _ _ := h.record hmode (hcs c List.mem_cons_self)
      obtain ⟨es, chunks, d', ring', hemit, hdecode, hagree⟩ := hstep
      obtain ⟨es', chunks', s, hout, hflushable, hevents, hdecode'⟩ :=
        ih hagree fun c' hc' => hcs c' (List.mem_cons_of_mem _ hc')
      refine ⟨es ++ es', chunks ++ chunks', s, ?_, ?_, ?_, ?_⟩
      · rw [recordAllBinary, hout, List.flatMap_append, hemit.id_eq, ← hemit.out_eq]
      · exact fun c' hc' => (List.mem_append.mp hc').elim (hemit.flushable c') (hflushable c')
      · rw [List.flatten_append, hevents, ← List.append_assoc, hemit.events_eq, List.append_assoc]
      · rw [decodeEvents_append es es' hdecode, hdecode', recordAllText]

end Steps

section Stream

theorem agree_start (id : BitVec 32) : Agree textStart (binaryStart id) decodeStart false :=
  ⟨rfl, rfl, rfl, fun h => absurd h Bool.false_ne_true, rfl, rfl, rfl, Nat.zero_le _⟩

theorem fileHeader_supported (hmode : cfg.timestampMode = .none) : unsupported (fileHeader cfg) = false := by
  have hhz : (fileHeader cfg).timestampFrequencyHz = 0 := by
    change (if cfg.timestampMode = .clock then cfg.cpuHz else 0) = 0
    rw [hmode, if_neg (by decide)]
  rw [unsupported, decide_eq_false_iff_not, fileHeader_flags hmode, hhz]
  rintro (h | h | h | h | h | h | h | h)
  · exact h rfl
  · exact h rfl
  · exact h rfl
  · exact h rfl
  · exact h rfl
  · revert h
    split <;> decide
  · revert h
    split <;> decide
  · exact h.1 rfl

/-- Decoding the file of the binary mode gives the file of the text mode. The
thread is the first one, so its id is 0. -/
theorem decodeStream_binaryFile (cfg : Config) (zstd : Zstd) (formatInstText : FormatInst)
    (hmode : cfg.timestampMode = .none) (cs : List Capture) (hcs : ∀ c ∈ cs, SizeBounded c) :
    decodeStream zstd cfg.arch formatInstText (binaryFile cfg zstd 0 cs) =
      (textFile cfg formatInstText cs, .ok) := by
  obtain ⟨es, chunks, s, hout, hflushable, hevents, hdecode⟩ :=
    (agree_start 0).recordAll zstd formatInstText hmode hcs
  have hblocks : decodeBlocks zstd formatInstText (fileHeader cfg)
      (recordAllBinary cfg zstd (binaryStart 0) cs ++ blockFormat.write eofBlock) (fun _ => decodeStart) false =
      (recordAllText cfg formatInstText textStart cs, .ok) := by
    rw [hout]
    refine decodeBlocks_all chunks hflushable (by decide) (s := s) ?_
    rw [hevents]
    exact hdecode
  have hread : headerFormat.read (binaryFile cfg zstd 0 cs) =
      some (fileHeader cfg, recordAllBinary cfg zstd (binaryStart 0) cs ++ blockFormat.write eofBlock) := by
    rw [binaryFile, List.append_assoc, headerFormat.read_write]
  have horder : ¬ (fileHeader cfg).byteOrder ≠ 1 := not_not.mpr rfl
  have harch : ¬ (cfg.arch ≠ 0 ∧ cfg.arch ≠ (fileHeader cfg).arch) := fun h => h.2 rfl
  rw [decodeStream, hread]
  simp only [fileHeader_supported hmode, if_neg horder, if_neg harch, hblocks, Bool.false_eq_true, if_false]
  rw [textFile]

/-- The frames of short inputs that do not compress: one raw block. -/
def rawFrames : Zstd where
  compress _ raw :=
    if raw.length < 256 then
      some ([0x28, 0xB5, 0x2F, 0xFD, 0x20, BitVec.ofNat 8 raw.length] ++ toBytes 3 (raw.length * 8 + 1) ++ raw)
    else none
  decompress _ stored := some (stored.drop 9)
  decompress_compress level raw stored h := by
    split_ifs at h
    rw [← Option.some.inj h]
    rfl
  decompress_nil _ := rfl

def plainConfig : Config where
  ranges := []
  baseOverride := none
  ringLevel := 1
  compressionLevel := 3
  timestampMode := .none
  cpuHz := 0
  arch := 1

/-- A load of 16 bytes, and the callback after a store that there was not. -/
def loadCaptures : List Capture :=
  [.accessPre 0x400000 0x123456789ABCDEF0 0x41 fun addr => addr.setWidth 8 * 7, .storePost fun _ => 0]

theorem decodeStream_binaryFile_load :
    plainConfig.timestampMode = .none ∧ (∀ c ∈ loadCaptures, SizeBounded c) ∧
      decodeStream rawFrames plainConfig.arch (fun line _ _ _ _ => line) (binaryFile plainConfig rawFrames 0 loadCaptures) =
        (textFile plainConfig (fun line _ _ _ _ => line) loadCaptures, .ok) := by
  have hsizes : ∀ c ∈ loadCaptures, SizeBounded c := by decide
  exact ⟨rfl, hsizes, decodeStream_binaryFile _ _ _ rfl _ hsizes⟩

end Stream

end Mambo.XtraceRoundTrip
