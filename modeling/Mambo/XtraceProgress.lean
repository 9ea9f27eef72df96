import Mambo.XtraceThreads
import Mambo.XtraceRoundTrip

namespace Mambo.XtraceProgress

open Bytes Xtrace XtraceDecode XtraceBlocks XtraceThreads XtraceRoundTrip

/-- A record with what the decoder has to find out about it from the earlier
records of the same thread: the time to print and whether control jumped here. -/
structure Decoded where
  event : XtraceEvent
  stamp : Word
  jump : Bool

/-- What the instructions of a thread leave behind: how many were recorded, the
last sample of the clock, and where the next one is expected. -/
structure Progress where
  count : Nat
  sampled : Word
  next : Option Word

def Progress.start : Progress := ⟨0, 0, none⟩

section Records

variable (cfg : Config)

/-- The clock is sampled at every 256th instruction of the thread. -/
def Progress.sample (p : Progress) (now : Word) : Word :=
  if p.count % timestampSampleInterval = 0 then now else p.sampled

def shownStamp (stamp : Word) : Word :=
  if cfg.timestampMode = .none then 0
  else if cfg.cpuHz ≠ 0 then scaleTimestamp stamp cfg.cpuHz else stamp

def accessDecoded : List Capture → List Decoded
  | [.accessPre _ addr info before] =>
    if info &&& infoLoad ≠ 0 then [⟨accessRecord eventLoad addr info before, 0, false⟩] else []
  | .accessPre _ addr info before :: .storePost after :: _ =>
    (if info &&& infoLoad ≠ 0 then [⟨accessRecord eventLoad addr info before, 0, false⟩] else []) ++
      if info &&& infoStore ≠ 0 then [⟨accessRecord eventStore addr info after, 0, false⟩] else []
  | _ => []

def Progress.decoded (p : Progress) : List Capture → List Decoded
  | .inst pc encoding instType inst instLen now :: rest =>
    if pcFiltered cfg pc then []
    else
      { event := instRecord cfg p.count pc encoding (instInfo instType inst instLen) now
        stamp := shownStamp cfg (p.sample now)
        jump := p.next.any (· ≠ pc) } :: accessDecoded rest
  | _ => []

def Progress.advance (p : Progress) : List Capture → Progress
  | .inst pc _ instType inst instLen now :: _ =>
    if pcFiltered cfg pc then p
    else ⟨p.count + 1, p.sample now, some (pc + (instInfo instType inst instLen &&& 0xf))⟩
  | _ => p

def Progress.after (p : Progress) (groups : List (List Capture)) : Progress :=
  groups.foldl (Progress.advance cfg) p

/-- The records of instructions that a thread executes one after the other. -/
def Progress.records (p : Progress) : List (List Capture) → List Decoded
  | [] => []
  | g :: gs => p.decoded cfg g ++ Progress.records (p.advance cfg g) gs

/-- The records of consecutive runs of instructions of a thread. -/
def Progress.parts (p : Progress) : List (List (List Capture)) → List (List Decoded)
  | [] => []
  | part :: parts => p.records cfg part :: Progress.parts (p.after cfg part) parts

end Records

section Text

variable (cfg : Config) (formatInstText : FormatInst)

def ringLine (target : Word) : Text :=
  "ring ".toList ++ decimal cfg.ringLevel.toInt ++ ", pc -> ".toList ++ hex target.toNat ++ "\n".toList

def instLine (e : XtraceEvent) (stamp : Word) : Text :=
  let line := appendf [] (hex e.address.toNat ++ " @".toList ++ hex stamp.toNat ++ ": ".toList)
  let line := formatBytes line e.dataLo e.size.toNat
  let line := appendf line "  ".toList
  let line := formatInstText line e.address e.dataLo (metaInstType (e.metaWord.setWidth 64))
    (metaInst (e.metaWord.setWidth 64))
  appendf line "\n".toList

/-- What is printed for a record; the first instruction of the file has a ring
line of its own. -/
def Decoded.text (first : Bool) (d : Decoded) : Text :=
  if d.event.type = eventInst then
    (if first || d.jump then
      ringLine cfg (if first then cfg.baseOverride.getD d.event.address else d.event.address) else []) ++
      instLine formatInstText d.event d.stamp
  else if d.event.type = eventLoad then decodeAccess "LD".toList "->".toList d.event
  else decodeAccess "ST".toList "<-".toList d.event

def recordsText : Bool → List Decoded → Text
  | _, [] => []
  | first, d :: ds => d.text cfg formatInstText first ++ recordsText (first && d.event.type ≠ eventInst) ds

def firstAfter (first : Bool) (ds : List Decoded) : Bool := ds.foldl (fun f d => f && d.event.type ≠ eventInst) first

end Text

variable {cfg : Config} {formatInstText : FormatInst} {p : Progress} {d : DecodeThread}

section Lists

theorem records_append (p : Progress) (gs gs' : List (List Capture)) :
    p.records cfg (gs ++ gs') = p.records cfg gs ++ (p.after cfg gs).records cfg gs' := by
  induction gs generalizing p with
  | nil => rfl
  | cons g gs ih =>
      rw [List.cons_append, Progress.records, ih, Progress.records, List.append_assoc]
      rfl

theorem after_append (p : Progress) (gs gs' : List (List Capture)) :
    p.after cfg (gs ++ gs') = (p.after cfg gs).after cfg gs' := List.foldl_append

theorem parts_concat (p : Progress) (parts : List (List (List Capture))) (part : List (List Capture)) :
    p.parts cfg (parts ++ [part]) = p.parts cfg parts ++ [(p.after cfg parts.flatten).records cfg part] := by
  induction parts generalizing p with
  | nil => rfl
  | cons q parts ih =>
      rw [List.cons_append, Progress.parts, ih, Progress.parts, List.flatten_cons, after_append, List.cons_append]

theorem advance_of_decoded_nil {g : List Capture} (h : p.decoded cfg g = []) : p.advance cfg g = p := by
  rw [Progress.decoded.eq_def] at h
  rw [Progress.advance.eq_def]
  split at h
  · split at h
    · rename_i hf
      rw [if_pos hf]
    · exact nomatch h
  · rfl

theorem after_of_records_nil {gs : List (List Capture)} (h : p.records cfg gs = []) : p.after cfg gs = p := by
  induction gs with
  | nil => rfl
  | cons g gs ih =>
      rw [Progress.records, List.append_eq_nil_iff] at h
      have hg : p.advance cfg g = p := advance_of_decoded_nil h.1
      rw [hg] at h
      rw [Progress.after, List.foldl_cons, hg]
      exact ih h.2

theorem parts_cons {parts : List (List (List Capture))} {ds : List Decoded} {rest : List (List Decoded)}
    (h : (p.parts cfg parts).filter (!·.isEmpty) = ds :: rest) :
    ∃ part parts', ds = p.records cfg part ∧ ((p.after cfg part).parts cfg parts').filter (!·.isEmpty) = rest := by
  induction parts generalizing p with
  | nil => exact nomatch h
  | cons part parts ih =>
      rw [Progress.parts] at h
      by_cases hnil : p.records cfg part = []
      · rw [hnil, List.filter_cons_of_neg (by simp), after_of_records_nil hnil] at h
        exact ih h
      · rw [List.filter_cons_of_pos (by simpa using hnil)] at h
        obtain ⟨rfl, hrest⟩ := List.cons.inj h
        exact ⟨part, parts, rfl, hrest⟩

end Lists

section Decoder

/-- The decoder's thread has followed the records of a thread. -/
structure Matches (cfg : Config) (d : DecodeThread) (p : Progress) : Prop where
  next : p.next = if d.hasNextPc then some d.nextPc else none
  has_sample : cfg.timestampMode ≠ .none → 0 < p.count → d.hasSampledStamp = true
  sampled : cfg.timestampMode ≠ .none → 0 < p.count → d.sampledStamp = p.sampled

theorem matches_start (cfg : Config) : Matches cfg decodeStart .start :=
  ⟨rfl, fun _ h => absurd h (Nat.lt_irrefl 0), fun _ h => absurd h (Nat.lt_irrefl 0)⟩

theorem flags_eq (cfg : Config) : ∃ clock base : Bool,
    clock = decide (cfg.timestampMode ≠ .none) ∧ base = cfg.baseOverride.isSome ∧
      (fileHeader cfg).flags =
        (if clock then fileFlagClockTimestamps else 0) ||| (if base then fileFlagBaseOverride else 0) :=
  ⟨_, _, rfl, rfl, by simp [fileHeader]⟩

theorem flags_cycle (cfg : Config) : ¬ (fileHeader cfg).flags &&& fileFlagCycleTimestamps ≠ 0 := by
  obtain ⟨clock, base, -, -, hflags⟩ := flags_eq cfg
  rw [hflags]
  cases clock <;> cases base <;> decide

theorem flags_clock (cfg : Config) :
    (fileHeader cfg).flags &&& fileFlagClockTimestamps ≠ 0 ↔ cfg.timestampMode ≠ .none := by
  obtain ⟨clock, base, hclock, -, hflags⟩ := flags_eq cfg
  rw [hflags, ← decide_eq_true_iff (p := cfg.timestampMode ≠ .none), ← hclock]
  cases clock <;> cases base <;> decide

theorem flags_base (cfg : Config) :
    ((fileHeader cfg).flags &&& fileFlagBaseOverride != 0) = cfg.baseOverride.isSome := by
  obtain ⟨clock, base, -, hbase, hflags⟩ := flags_eq cfg
  rw [hflags, ← hbase]
  cases clock <;> cases base <;> decide

theorem decodeStamp_instRecord (h : Matches cfg d p) (pc encoding info now : Word) :
    ∃ stamp has, decodeStamp (fileHeader cfg) (instRecord cfg p.count pc encoding info now) d =
        some (shownStamp cfg (p.sample now), { d with sampledStamp := stamp, hasSampledStamp := has }) ∧
      (cfg.timestampMode ≠ .none → has = true ∧ stamp = p.sample now) := by
  by_cases hmode : cfg.timestampMode ≠ .none
  · have hclock : cfg.timestampMode = .clock := by
      cases hm : cfg.timestampMode with
      | none => exact absurd hm hmode
      | clock => rfl
    have hshown : shownStamp cfg (p.sample now) =
        if cfg.cpuHz ≠ 0 then scaleTimestamp (p.sample now) cfg.cpuHz else p.sample now := if_neg hmode
    have hfreq : (fileHeader cfg).timestampFrequencyHz = cfg.cpuHz := if_pos hclock
    have hhi : (instRecord cfg p.count pc encoding info now).dataHi =
        if cfg.timestampMode ≠ .none ∧ p.count % timestampSampleInterval = 0 then now else 0 := rfl
    have hflags : (instRecord cfg p.count pc encoding info now).flags =
        if cfg.timestampMode ≠ .none ∧ p.count % timestampSampleInterval = 0 then eventFlagTimestampSample else 0 := rfl
    refine ⟨p.sample now, true, ?_, fun _ => ⟨rfl, rfl⟩⟩
    rw [decodeStamp, if_neg (flags_cycle cfg), if_pos ((flags_clock cfg).mpr hmode), hshown, hfreq]
    by_cases hzero : p.count % timestampSampleInterval = 0
    · have hset : eventFlagTimestampSample &&& eventFlagTimestampSample ≠ 0 := by decide
      have hsample : p.sample now = now := if_pos hzero
      rw [if_pos ⟨hmode, hzero⟩] at hhi hflags
      simp only [hflags, if_pos hset, hhi, hsample, Bool.not_true, Bool.false_eq_true, if_false]
      split <;> rfl
    · have hclear : ¬ (0 : BitVec 8) &&& eventFlagTimestampSample ≠ 0 := by decide
      have hsample : p.sample now = p.sampled := if_neg hzero
      have hpos : 0 < p.count := Nat.pos_of_ne_zero fun h0 => hzero (by rw [h0]; rfl)
      rw [if_neg fun hboth => hzero hboth.2] at hhi hflags
      have hd : ({ d with sampledStamp := p.sampled, hasSampledStamp := true } : DecodeThread) = d := by
        rw [← h.sampled hmode hpos, ← h.has_sample hmode hpos]
      simp only [hflags, if_neg hclear, hsample, h.has_sample hmode hpos, h.sampled hmode hpos, Bool.not_true,
        Bool.false_eq_true, if_false, hd]
      split <;> rfl
  · refine ⟨d.sampledStamp, d.hasSampledStamp, ?_, fun h => absurd h hmode⟩
    have hclock : ¬ (fileHeader cfg).flags &&& fileFlagClockTimestamps ≠ 0 := fun hc => hmode ((flags_clock cfg).mp hc)
    rw [decodeStamp, if_neg (flags_cycle cfg), if_neg hclock, shownStamp, if_pos (not_not.mp hmode)]

theorem decodeEvents_inst (h : Matches cfg d p) (formatInstText : FormatInst) (pc : Word)
    (encoding instType inst instLen now : Word) :
    ∃ d', Matches cfg d' ⟨p.count + 1, p.sample now, some (pc + (instInfo instType inst instLen &&& 0xf))⟩ ∧
      ∀ ring, decodeEvents (fileHeader cfg) formatInstText
        [instRecord cfg p.count pc encoding (instInfo instType inst instLen) now] d ring =
      (Decoded.text cfg formatInstText (!ring)
        ⟨instRecord cfg p.count pc encoding (instInfo instType inst instLen) now, shownStamp cfg (p.sample now),
          p.next.any (· ≠ pc)⟩, some (d', true)) := by
  obtain ⟨stamp, has, hstamp, hsample⟩ := decodeStamp_instRecord h pc encoding (instInfo instType inst instLen) now
  refine ⟨⟨stamp, pc + (instInfo instType inst instLen &&& 0xf), has, true⟩, ?_, ?_⟩
  · exact ⟨rfl, fun hmode _ => (hsample hmode).1, fun hmode _ => (hsample hmode).2⟩
  · intro ring
    have htype : (instRecord cfg p.count pc encoding (instInfo instType inst instLen) now).type = eventInst := rfl
    have haddr : (instRecord cfg p.count pc encoding (instInfo instType inst instLen) now).address = pc := rfl
    have hsize : (instRecord cfg p.count pc encoding (instInfo instType inst instLen) now).size.setWidth 64 =
        instInfo instType inst instLen &&& 0xf := setWidth_small _ (lt_trans (low_mask_lt _) (by decide))
    have hjump : p.next.any (· ≠ pc) = (d.hasNextPc && pc != d.nextPc) := by
      rw [h.next]
      cases d.hasNextPc with
      | false => rfl
      | true =>
          by_cases heq : d.nextPc = pc
          · simp [heq]
          · simp [heq, Ne.symm heq]
    have htarget : (if !ring && cfg.baseOverride.isSome then (fileHeader cfg).baseOverride else pc) =
        if !ring then cfg.baseOverride.getD pc else pc := by
      change (if !ring && cfg.baseOverride.isSome then cfg.baseOverride.getD 0 else pc) = _
      cases ring <;> cases cfg.baseOverride <;> rfl
    have hlevel : (fileHeader cfg).ringLevel = cfg.ringLevel := rfl
    have hring : (if !ring || p.next.any (· ≠ pc) then true else ring) = true := by
      cases ring <;> simp
    rw [decodeEvents, decodeEvent, if_pos htype, decodeInst, hstamp, Decoded.text, if_pos htype]
    simp only [decodeEvents, haddr, ← hjump, flags_base, htarget, hlevel, hsize, hring, List.append_nil]
    rfl

theorem decodeEvents_access (cfg : Config) {e : XtraceEvent} (htype : e.type = eventLoad ∨ e.type = eventStore)
    (header : XtraceFileHeader) (ring : Bool) :
    decodeEvents header formatInstText [e] d ring =
      (Decoded.text cfg formatInstText (!ring) ⟨e, 0, false⟩, some (d, ring)) := by
  rcases htype with htype | htype
  · have hinst : ¬ e.type = eventInst := by rw [htype]; decide
    rw [decodeEvents, decodeEvent, if_neg hinst, if_pos htype, Decoded.text, if_neg hinst, if_pos htype]
    simp only [decodeEvents, List.append_nil]
  · have hinst : ¬ e.type = eventInst := by rw [htype]; decide
    have hload : ¬ e.type = eventLoad := by rw [htype]; decide
    rw [decodeEvents, decodeEvent, if_neg hinst, if_neg hload, if_pos htype, Decoded.text, if_neg hinst,
      if_neg hload]
    simp only [decodeEvents, List.append_nil]

theorem recordsText_append (first : Bool) (ds ds' : List Decoded) :
    recordsText cfg formatInstText first (ds ++ ds') =
      recordsText cfg formatInstText first ds ++ recordsText cfg formatInstText (firstAfter first ds) ds' := by
  induction ds generalizing first with
  | nil => rfl
  | cons d ds ih =>
      rw [List.cons_append, recordsText, ih, recordsText, List.append_assoc]
      rfl

theorem firstAfter_append (first : Bool) (ds ds' : List Decoded) :
    firstAfter first (ds ++ ds') = firstAfter (firstAfter first ds) ds' := List.foldl_append

/-- Decoding some records of a thread prints them and brings the decoder's
thread to another state. -/
def Prints (cfg : Config) (formatInstText : FormatInst) (d : DecodeThread) (ds : List Decoded)
    (d' : DecodeThread) : Prop :=
  ∀ ring, decodeEvents (fileHeader cfg) formatInstText (ds.map Decoded.event) d ring =
    (recordsText cfg formatInstText (!ring) ds, some (d', !firstAfter (!ring) ds))

theorem Prints.nil (d : DecodeThread) : Prints cfg formatInstText d [] d := by
  intro ring
  rw [firstAfter, List.foldl_nil, Bool.not_not]
  rfl

theorem Prints.append {d' d'' : DecodeThread} {ds ds' : List Decoded}
    (h : Prints cfg formatInstText d ds d') (h' : Prints cfg formatInstText d' ds' d'') :
    Prints cfg formatInstText d (ds ++ ds') d'' := by
  intro ring
  rw [List.map_append, decodeEvents_append _ _ (h ring), h' _, Bool.not_not, recordsText_append, firstAfter_append]

theorem Prints.access {e : XtraceEvent} (htype : e.type = eventLoad ∨ e.type = eventStore) (d : DecodeThread) :
    Prints cfg formatInstText d [⟨e, 0, false⟩] d := by
  intro ring
  have hinst : e.type ≠ eventInst := by
    rcases htype with htype | htype
    · rw [htype]; decide
    · rw [htype]; decide
  have hfirst : firstAfter (!ring) [⟨e, 0, false⟩] = !ring := by simp [firstAfter, hinst]
  rw [hfirst, Bool.not_not]
  exact (decodeEvents_access cfg htype _ ring).trans (by simp [recordsText])

theorem prints_accessDecoded (d : DecodeThread) (g : List Capture) :
    Prints cfg formatInstText d (accessDecoded g) d := by
  have hload : ∀ addr info before, Prints cfg formatInstText d
      (if info &&& infoLoad ≠ 0 then [⟨accessRecord eventLoad addr info before, 0, false⟩] else []) d := by
    intro addr info before
    split
    · exact Prints.access (Or.inl rfl) d
    · exact Prints.nil d
  rw [accessDecoded.eq_def]
  split
  · exact hload _ _ _
  · refine (hload _ _ _).append ?_
    split
    · exact Prints.access (Or.inr rfl) d
    · exact Prints.nil d
  · exact Prints.nil d

theorem Matches.decoded (h : Matches cfg d p) (formatInstText : FormatInst) (g : List Capture) :
    ∃ d', Prints cfg formatInstText d (p.decoded cfg g) d' ∧ Matches cfg d' (p.advance cfg g) := by
  rw [Progress.decoded.eq_def, Progress.advance.eq_def]
  split
  · rename_i pc encoding instType inst instLen now rest
    by_cases hf : pcFiltered cfg pc = true
    · rw [if_pos hf, if_pos hf]
      exact ⟨d, Prints.nil d, h⟩
    · obtain ⟨d', hmatches, hinst⟩ := decodeEvents_inst h formatInstText pc encoding instType inst instLen now
      have hprints : Prints cfg formatInstText d
          [⟨instRecord cfg p.count pc encoding (instInfo instType inst instLen) now, shownStamp cfg (p.sample now),
            p.next.any (· ≠ pc)⟩] d' := by
        intro ring
        refine (hinst ring).trans ?_
        simp [recordsText, firstAfter, instRecord]
      rw [if_neg hf, if_neg hf]
      exact ⟨d', hprints.append (prints_accessDecoded d' rest), hmatches⟩
  · exact ⟨d, Prints.nil d, h⟩

theorem Matches.records (h : Matches cfg d p) (formatInstText : FormatInst) (gs : List (List Capture)) :
    ∃ d', Prints cfg formatInstText d (p.records cfg gs) d' ∧ Matches cfg d' (p.after cfg gs) := by
  induction gs generalizing d p with
  | nil => exact ⟨d, Prints.nil d, h⟩
  | cons g gs ih =>
      obtain ⟨d₁, hprints, hmatches⟩ := h.decoded formatInstText g
      obtain ⟨d₂, hprints', hmatches'⟩ := ih hmatches
      exact ⟨d₂, hprints.append hprints', hmatches'⟩

end Decoder

end Mambo.XtraceProgress
