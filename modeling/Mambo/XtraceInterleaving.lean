import Mambo.XtraceProgress

namespace Mambo.XtraceInterleaving

open Bytes Xtrace XtraceDecode XtraceBlocks XtraceThreads XtraceProgress XtraceRoundTrip

variable {cfg : Config} {zstd : Zstd} {formatInstText : FormatInst}

/-- The blocks of a file in their order, each with the number of its thread. -/
abbrev Log := List (Nat × List Decoded)

def logBytes (cfg : Config) (zstd : Zstd) (log : Log) : List Byte :=
  log.flatMap fun b => blockBytes cfg zstd (BitVec.ofNat 32 b.1) (b.2.map Decoded.event)

def blocksOf (n : Nat) (log : Log) : List (List Decoded) := (log.filter (·.1 = n)).map (·.2)

theorem blocksOf_append (n : Nat) (log log' : Log) : blocksOf n (log ++ log') = blocksOf n log ++ blocksOf n log' := by
  rw [blocksOf, List.filter_append, List.map_append]
  rfl

theorem blocksOf_cons_self (n : Nat) (ds : List Decoded) (log : Log) :
    blocksOf n ((n, ds) :: log) = ds :: blocksOf n log := by
  rw [blocksOf, List.filter_cons_of_pos (by simp)]
  rfl

theorem blocksOf_cons_ne {m n : Nat} (h : n ≠ m) (ds : List Decoded) (log : Log) :
    blocksOf m ((n, ds) :: log) = blocksOf m log := by
  rw [blocksOf, List.filter_cons_of_neg (by simpa using h)]
  rfl

section Decoder

theorem decodeBlocks_log {log : Log} (hflushable : ∀ b ∈ log, Flushable (b.2.map Decoded.event))
    (hid : ∀ b ∈ log, b.1 ≤ 2 ^ 20) {threads : Nat → DecodeThread} {progress : Nat → Progress}
    (hmatches : ∀ n, Matches cfg (threads n) (progress n))
    (hblocks : ∀ n, ∃ parts, blocksOf n log = ((progress n).parts cfg parts).filter (!·.isEmpty)) (ring : Bool) :
    decodeBlocks zstd formatInstText (fileHeader cfg) (logBytes cfg zstd log ++ blockFormat.write eofBlock)
      threads ring = (recordsText cfg formatInstText (!ring) (log.flatMap (·.2)), .ok) := by
  induction log generalizing threads progress ring with
  | nil =>
      rw [logBytes, List.flatMap_nil, List.nil_append, decodeBlocks_eof]
      rfl
  | cons b log ih =>
      obtain ⟨n, ds⟩ := b
      obtain ⟨parts, hparts⟩ := hblocks n
      rw [blocksOf_cons_self] at hparts
      obtain ⟨part, parts', rfl, hrest⟩ := parts_cons hparts.symm
      obtain ⟨d', hprints, hmatches'⟩ := (hmatches n).records formatInstText part
      have hn : n ≤ 2 ^ 20 := hid _ List.mem_cons_self
      have hnat : (BitVec.ofNat 32 n).toNat = n := toNat_ofNat_32 (by omega)
      have hthreads : ∀ m, Matches cfg (Function.update threads n d' m)
          (Function.update progress n ((progress n).after cfg part) m) := by
        intro m
        by_cases hm : m = n
        · subst hm
          rw [Function.update_self, Function.update_self]
          exact hmatches'
        · rw [Function.update_of_ne hm, Function.update_of_ne hm]
          exact hmatches m
      have hothers : ∀ m, ∃ parts, blocksOf m log =
          ((Function.update progress n ((progress n).after cfg part) m).parts cfg parts).filter (!·.isEmpty) := by
        intro m
        by_cases hm : m = n
        · subst hm
          rw [Function.update_self]
          exact ⟨parts', hrest.symm⟩
        · obtain ⟨mparts, hmparts⟩ := hblocks m
          rw [Function.update_of_ne hm]
          exact ⟨mparts, by rw [← hmparts, blocksOf_cons_ne (Ne.symm hm)]⟩
      have hnext := ih (fun b hb => hflushable b (List.mem_cons_of_mem _ hb))
        (fun b hb => hid b (List.mem_cons_of_mem _ hb)) hthreads hothers
        (!firstAfter (!ring) ((progress n).records cfg part))
      rw [Bool.not_not] at hnext
      have hbytes : logBytes cfg zstd ((n, (progress n).records cfg part) :: log) ++ blockFormat.write eofBlock =
          blockBytes cfg zstd (BitVec.ofNat 32 n) (((progress n).records cfg part).map Decoded.event) ++
            (logBytes cfg zstd log ++ blockFormat.write eofBlock) := by
        rw [logBytes, List.flatMap_cons, List.append_assoc]
        rfl
      rw [hbytes, decodeBlocks_block (hflushable _ List.mem_cons_self) (by rw [hnat]; exact hn) _
        (by rw [hnat]; exact hprints ring), hnat, hnext, List.flatMap_cons, recordsText_append]

end Decoder

section Buffers

/-- The buffer of thread n holds the records of some of its instructions. -/
structure Core (cfg : Config) (n : Nat) (p : Progress) (gs : List (List Capture)) (t : BinaryThread) : Prop where
  id_eq : t.id = BitVec.ofNat 32 n
  events_eq : t.events = (p.records cfg gs).map Decoded.event
  count_eq : t.instructionCount = (p.after cfg gs).count
  length_le : t.events.length ≤ eventsPerBlock

/-- Where a thread is in its current instruction, which is the last of the list.
A store waits for its post-instruction callback only between the two. -/
inductive Phase (cfg : Config) (t : BinaryThread) (gs : List (List Capture)) (todo : List Capture) : Prop
  | idle (htodo : todo = []) (hpending : t.storePending = false)
  | fetched (done : List (List Capture)) (i : Instr) (hgs : gs = done ++ [[]]) (htodo : todo = i.calls)
      (hpending : t.storePending = false)
  | recorded (done : List (List Capture)) (pc encoding instType inst instLen now addr info : Word)
      (before after : Word → Byte) (hgs : gs = done ++ [[.inst pc encoding instType inst instLen now]])
      (htodo : todo = .accessPre pc addr info before :: if info &&& infoStore ≠ 0 then [.storePost after] else [])
      (hpending : t.storePending = false)
      (hroom : ¬ pcFiltered cfg pc = true → t.events.length + 2 ≤ eventsPerBlock)
  | accessed (done : List (List Capture)) (pc encoding instType inst instLen now addr info : Word)
      (before after : Word → Byte)
      (hgs : gs = done ++ [[.inst pc encoding instType inst instLen now, .accessPre pc addr info before]])
      (htodo : todo = [.storePost after]) (hstore : info &&& infoStore ≠ 0)
      (hfiltered : pcFiltered cfg pc = true → t.storePending = false)
      (hpending : ¬ pcFiltered cfg pc = true → t.storePending = true ∧ t.storeAddr = addr ∧ t.storeInfo = info ∧
        t.events.length + 1 ≤ eventsPerBlock)

theorem Phase.not_pending {t : BinaryThread} {gs : List (List Capture)} (h : Phase cfg t gs []) :
    t.storePending = false := by
  cases h with
  | idle htodo hpending => exact hpending
  | fetched done i hgs htodo hpending => exact hpending
  | recorded done pc encoding instType inst instLen now addr info before after hgs htodo hpending hroom =>
      exact hpending
  | accessed done pc encoding instType inst instLen now addr info before after hgs htodo => cases htodo

theorem Phase.current {t : BinaryThread} {gs : List (List Capture)} {c : Capture} {todo : List Capture}
    (h : Phase cfg t gs (c :: todo)) : ∃ done g, gs = done ++ [g] := by
  cases h with
  | idle htodo => cases htodo
  | fetched done i hgs => exact ⟨done, _, hgs⟩
  | recorded done pc encoding instType inst instLen now addr info before after hgs => exact ⟨done, _, hgs⟩
  | accessed done pc encoding instType inst instLen now addr info before after hgs => exact ⟨done, _, hgs⟩

theorem addCall_concat (c : Capture) (gs : List (List Capture)) (g : List Capture) :
    addCall c (gs ++ [g]) = gs ++ [g ++ [c]] := by
  induction gs with
  | nil => rfl
  | cons h gs ih =>
      cases gs with
      | nil => rfl
      | cons h' gs => exact congrArg (h :: ·) ih

theorem records_concat (p : Progress) (gs : List (List Capture)) (g : List Capture) :
    p.records cfg (gs ++ [g]) = p.records cfg gs ++ (p.after cfg gs).decoded cfg g := by
  rw [records_append, Progress.records, Progress.records, List.append_nil]

theorem after_concat (p : Progress) (gs : List (List Capture)) (g : List Capture) :
    p.after cfg (gs ++ [g]) = (p.after cfg gs).advance cfg g := after_append p gs [g]

variable {n : Nat} {p : Progress} {done : List (List Capture)} {t : BinaryThread}

theorem Core.silent {g g' : List Capture} (h : Core cfg n p (done ++ [g]) t)
    (hdecoded : (p.after cfg done).decoded cfg g' = (p.after cfg done).decoded cfg g)
    (hadvance : (p.after cfg done).advance cfg g' = (p.after cfg done).advance cfg g) :
    Core cfg n p (done ++ [g']) t where
  id_eq := h.id_eq
  events_eq := by rw [records_concat, hdecoded, ← records_concat, h.events_eq]
  count_eq := by rw [after_concat, hadvance, ← after_concat, h.count_eq]
  length_le := h.length_le

theorem Core.push {g g' : List Capture} {t' : BinaryThread} (h : Core cfg n p (done ++ [g]) t) (ds : List Decoded)
    (hdecoded : (p.after cfg done).decoded cfg g' = (p.after cfg done).decoded cfg g ++ ds)
    (hadvance : ((p.after cfg done).advance cfg g').count = t'.instructionCount) (hid : t'.id = t.id)
    (hevents : t'.events = t.events ++ ds.map Decoded.event) (hlen : t'.events.length ≤ eventsPerBlock) :
    Core cfg n p (done ++ [g']) t' where
  id_eq := hid.trans h.id_eq
  events_eq := by
    rw [hevents, h.events_eq, records_concat, records_concat, hdecoded, List.map_append, List.map_append,
      List.map_append, List.append_assoc]
  count_eq := by rw [after_concat, hadvance]
  length_le := hlen

structure Buffered (cfg : Config) (n : Nat) (p : Progress) (gs : List (List Capture)) (r : Running) : Prop where
  core : Core cfg n p gs r.thread
  phase : Phase cfg r.thread gs r.todo

/-- A call keeps the buffer, or it writes the block of the instructions before
its own, which is then the first one of the next block. -/
def Moves (cfg : Config) (zstd : Zstd) (n : Nat) (p : Progress) (gs : List (List Capture)) (c : Capture)
    (out : List Byte) (r : Running) : Prop :=
  (out = [] ∧ Buffered cfg n p (addCall c gs) r) ∨
    ∃ done, gs = done ++ [[]] ∧ Flushable ((p.records cfg done).map Decoded.event) ∧
      out = blockBytes cfg zstd (BitVec.ofNat 32 n) ((p.records cfg done).map Decoded.event) ∧
      Buffered cfg n (p.after cfg done) [[c]] r

theorem decoded_inst {pc : Word} (hf : ¬ pcFiltered cfg pc = true) (p : Progress)
    (encoding instType inst instLen now : Word) (rest : List Capture) :
    (p.decoded cfg (.inst pc encoding instType inst instLen now :: rest)).map Decoded.event =
      instRecord cfg p.count pc encoding (instInfo instType inst instLen) now ::
        (accessDecoded rest).map Decoded.event := by
  rw [Progress.decoded, if_neg hf, List.map_cons]

theorem advance_inst {pc : Word} (hf : ¬ pcFiltered cfg pc = true) (p : Progress)
    (encoding instType inst instLen now : Word) (rest : List Capture) :
    (p.advance cfg (.inst pc encoding instType inst instLen now :: rest)).count = p.count + 1 := by
  rw [Progress.advance, if_neg hf]

theorem Core.inst (h : Core cfg n p (done ++ [[]]) t) (pc encoding instType inst instLen now : Word)
    {todo : List Capture}
    (hphase : ∀ gs t', t'.storePending = t.storePending →
      (¬ pcFiltered cfg pc = true → t'.events.length + 2 ≤ eventsPerBlock) →
      Phase cfg t' (gs ++ [[.inst pc encoding instType inst instLen now]]) todo) :
    Moves cfg zstd n p (done ++ [[]]) (.inst pc encoding instType inst instLen now)
      (recordBinary cfg zstd t (.inst pc encoding instType inst instLen now)).1
      ⟨(recordBinary cfg zstd t (.inst pc encoding instType inst instLen now)).2, todo⟩ := by
  have hnil : (p.after cfg done).decoded cfg [] = [] := rfl
  by_cases hf : pcFiltered cfg pc = true
  · rw [recordBinary, recordInstBinary, if_pos hf, Moves, addCall_concat]
    refine Or.inl ⟨rfl, h.silent ?_ ?_, hphase done t rfl fun hn => absurd hf hn⟩
    · rw [List.nil_append, Progress.decoded, if_pos hf, hnil]
    · rw [List.nil_append, Progress.advance, if_pos hf]
      rfl
  · have hcount : (p.after cfg done).count = t.instructionCount := by
      rw [h.count_eq, after_concat]
      rfl
    have hroom : ∀ k, k ≤ eventsPerBlock - 3 → k + 1 + 2 ≤ eventsPerBlock := by
      intro k hk
      have hper : eventsPerBlock = 32768 := rfl
      omega
    have hevent : ∀ q : Progress, q.count = t.instructionCount →
        (q.decoded cfg [.inst pc encoding instType inst instLen now]).map Decoded.event =
          [instRecord cfg t.instructionCount pc encoding (instInfo instType inst instLen) now] := by
      intro q hq
      rw [decoded_inst hf, hq]
      rfl
    rw [recordBinary, recordInstBinary_eq hf, Moves, addCall_concat]
    rcases makeRoom_cases cfg zstd t with ⟨hmake, hlen⟩ | ⟨hmake, hne⟩
    · rw [hmake]
      have hlen' := hroom _ hlen
      refine Or.inl ⟨rfl, h.push ((p.after cfg done).decoded cfg [.inst pc encoding instType inst instLen now])
        ?_ ?_ rfl ?_ ?_, hphase done _ rfl fun _ => ?_⟩
      · rw [hnil, List.nil_append, List.nil_append]
      · rw [List.nil_append, advance_inst hf, hcount]
      · rw [hevent _ hcount]
      · rw [List.length_append, List.length_singleton]
        exact le_trans (Nat.le_add_right _ 2) hlen'
      · rw [List.length_append, List.length_singleton]
        exact hlen'
    · rw [hmake]
      have hrecords : t.events = (p.records cfg done).map Decoded.event := by
        rw [h.events_eq, records_concat, hnil, List.append_nil]
      refine Or.inr ⟨done, rfl, ⟨hrecords ▸ hne, hrecords ▸ h.length_le⟩, ?_, ⟨h.id_eq, ?_, ?_, ?_⟩,
        hphase [] _ rfl fun _ => ?_⟩
      · rw [h.id_eq, hrecords]
      · rw [List.nil_append, Progress.records, Progress.records, List.append_nil, hevent _ hcount]
      · exact (congrArg (· + 1) hcount).symm.trans (advance_inst hf _ encoding _ _ _ _ []).symm
      · exact show 1 ≤ eventsPerBlock by decide
      · exact show 1 + 2 ≤ eventsPerBlock by decide

theorem decoded_access {pc : Word} (hf : ¬ pcFiltered cfg pc = true) (p : Progress)
    (encoding instType inst instLen now : Word) (rest : List Capture) :
    p.decoded cfg (.inst pc encoding instType inst instLen now :: rest) =
      p.decoded cfg [.inst pc encoding instType inst instLen now] ++ accessDecoded rest := by
  rw [Progress.decoded, if_neg hf, Progress.decoded, if_neg hf]
  rfl

theorem decoded_filtered {pc : Word} (hf : pcFiltered cfg pc = true) (p : Progress)
    (encoding instType inst instLen now : Word) (rest : List Capture) :
    p.decoded cfg (.inst pc encoding instType inst instLen now :: rest) = [] := by
  rw [Progress.decoded, if_pos hf]

def loadDecoded (addr info : Word) (before : Word → Byte) : List Decoded :=
  if info &&& infoLoad ≠ 0 then [⟨accessRecord eventLoad addr info before, 0, false⟩] else []

theorem recordAccessPreBinary_eq {pc : Word} (hf : ¬ pcFiltered cfg pc = true)
    (hlen : t.events.length < eventsPerBlock) (addr info : Word) (before : Word → Byte) :
    recordAccessPreBinary cfg zstd t pc addr info before = ([],
      if info &&& infoStore ≠ 0 then
        { t with
          storeAddr := addr
          storeInfo := info
          storePending := true
          events := t.events ++ (loadDecoded addr info before).map Decoded.event }
      else { t with events := t.events ++ (loadDecoded addr info before).map Decoded.event }) := by
  rw [recordAccessPreBinary, if_neg hf, loadDecoded]
  simp only [appendEvent_room hlen]
  by_cases hl : info &&& infoLoad ≠ 0
  · by_cases hs : info &&& infoStore ≠ 0
    · simp only [if_pos hl, if_pos hs]
      rfl
    · simp only [if_pos hl, if_neg hs]
      rfl
  · by_cases hs : info &&& infoStore ≠ 0
    · simp only [if_neg hl, if_pos hs, List.map_nil, List.append_nil]
    · simp only [if_neg hl, if_neg hs, List.map_nil, List.append_nil]

variable {pc encoding instType inst instLen now addr info : Word} {before after : Word → Byte}

theorem Core.accessPre (h : Core cfg n p (done ++ [[.inst pc encoding instType inst instLen now]]) t)
    (hroom : ¬ pcFiltered cfg pc = true → t.events.length + 2 ≤ eventsPerBlock) (hpending : t.storePending = false) :
    Moves cfg zstd n p (done ++ [[.inst pc encoding instType inst instLen now]]) (.accessPre pc addr info before)
      (recordBinary cfg zstd t (.accessPre pc addr info before)).1
      ⟨(recordBinary cfg zstd t (.accessPre pc addr info before)).2,
        if info &&& infoStore ≠ 0 then [.storePost after] else []⟩ := by
  rw [Moves, addCall_concat]
  refine Or.inl ?_
  by_cases hf : pcFiltered cfg pc = true
  · rw [recordBinary, recordAccessPreBinary, if_pos hf]
    refine ⟨rfl, h.silent ?_ rfl, ?_⟩
    · rw [List.cons_append, decoded_filtered hf, decoded_filtered hf]
    · by_cases hs : info &&& infoStore ≠ 0
      · rw [if_pos hs]
        exact .accessed done pc encoding instType inst instLen now addr info before after rfl rfl hs
          (fun _ => hpending) (fun hn => absurd hf hn)
      · rw [if_neg hs]
        exact .idle rfl hpending
  · have hlen := hroom hf
    have hlt : t.events.length < eventsPerBlock := by omega
    have hdecoded : (p.after cfg done).decoded cfg
        ([.inst pc encoding instType inst instLen now] ++ [.accessPre pc addr info before]) =
        (p.after cfg done).decoded cfg [.inst pc encoding instType inst instLen now] ++
          loadDecoded addr info before := by
      rw [List.singleton_append, decoded_access hf]
      rfl
    have hloads : (loadDecoded addr info before).length ≤ 1 := by
      rw [loadDecoded]
      split
      · exact le_rfl
      · exact Nat.zero_le 1
    have hevents : (t.events ++ (loadDecoded addr info before).map Decoded.event).length + 1 ≤ eventsPerBlock := by
      rw [List.length_append, List.length_map]
      omega
    have hcount : ((p.after cfg done).advance cfg
        ([.inst pc encoding instType inst instLen now] ++ [.accessPre pc addr info before])).count =
        t.instructionCount := by
      rw [h.count_eq, after_concat]
      rfl
    rw [recordBinary, recordAccessPreBinary_eq hf hlt]
    by_cases hs : info &&& infoStore ≠ 0
    · simp only [if_pos hs]
      refine ⟨trivial, h.push _ hdecoded hcount rfl rfl (Nat.le_of_succ_le hevents), ?_⟩
      exact .accessed done pc encoding instType inst instLen now addr info before after rfl rfl hs
        (fun hn => absurd hn hf) (fun _ => ⟨rfl, rfl, rfl, hevents⟩)
    · simp only [if_neg hs]
      exact ⟨trivial, h.push _ hdecoded hcount rfl rfl (Nat.le_of_succ_le hevents), .idle rfl hpending⟩

theorem Core.storePost
    (h : Core cfg n p (done ++ [[.inst pc encoding instType inst instLen now, .accessPre pc addr info before]]) t)
    (hstore : info &&& infoStore ≠ 0) (hfiltered : pcFiltered cfg pc = true → t.storePending = false)
    (hpending : ¬ pcFiltered cfg pc = true → t.storePending = true ∧ t.storeAddr = addr ∧ t.storeInfo = info ∧
      t.events.length + 1 ≤ eventsPerBlock) :
    Moves cfg zstd n p (done ++ [[.inst pc encoding instType inst instLen now, .accessPre pc addr info before]])
      (.storePost after) (recordBinary cfg zstd t (.storePost after)).1
      ⟨(recordBinary cfg zstd t (.storePost after)).2, []⟩ := by
  rw [Moves, addCall_concat]
  refine Or.inl ?_
  by_cases hf : pcFiltered cfg pc = true
  · have hnone := hfiltered hf
    rw [recordBinary, recordStorePostBinary, if_pos (by rw [hnone]; rfl)]
    refine ⟨rfl, h.silent ?_ rfl, .idle rfl hnone⟩
    rw [List.cons_append, decoded_filtered hf, decoded_filtered hf]
  · obtain ⟨hp, haddr, hinfo, hlen⟩ := hpending hf
    have hdecoded : (p.after cfg done).decoded cfg
        ([.inst pc encoding instType inst instLen now, .accessPre pc addr info before] ++ [.storePost after]) =
        (p.after cfg done).decoded cfg
            [.inst pc encoding instType inst instLen now, .accessPre pc addr info before] ++
          [⟨accessRecord eventStore addr info after, 0, false⟩] := by
      rw [List.cons_append, decoded_access hf, decoded_access hf _ _ _ _ _ _ [.accessPre pc addr info before],
        List.append_assoc, List.singleton_append]
      exact congrArg _ (congrArg _ (if_pos hstore))
    have hcount : ((p.after cfg done).advance cfg
        ([.inst pc encoding instType inst instLen now, .accessPre pc addr info before] ++ [.storePost after])).count =
        t.instructionCount := by
      rw [h.count_eq, after_concat]
      rfl
    have hlt : t.events.length < eventsPerBlock := by omega
    rw [recordBinary, recordStorePostBinary, if_neg (by rw [hp]; simp)]
    simp only [appendEvent_room hlt, haddr, hinfo]
    refine ⟨trivial, h.push _ hdecoded hcount rfl rfl ?_, .idle rfl rfl⟩
    rw [List.length_append, List.length_singleton]
    exact hlen

theorem Buffered.call (zstd : Zstd) {gs : List (List Capture)} {c : Capture} {todo : List Capture}
    (h : Buffered cfg n p gs ⟨t, c :: todo⟩) :
    Moves cfg zstd n p gs c (recordBinary cfg zstd t c).1 ⟨(recordBinary cfg zstd t c).2, todo⟩ := by
  obtain ⟨hcore, hphase⟩ := h
  cases hphase with
  | idle htodo => cases htodo
  | fetched done i hgs htodo hpending =>
      subst hgs
      cases i with
      | plain pc encoding instType inst instLen now =>
          obtain ⟨rfl, rfl⟩ := List.cons.inj htodo
          exact hcore.inst _ _ _ _ _ _ fun gs t' ht' _ => .idle rfl (ht'.trans hpending)
      | access pc encoding instType inst instLen now addr info before after =>
          obtain ⟨rfl, rfl⟩ := List.cons.inj htodo
          exact hcore.inst _ _ _ _ _ _ fun gs t' ht' hroom =>
            .recorded gs pc encoding instType inst instLen now addr info before after rfl rfl (ht'.trans hpending)
              hroom
      | unsized isStore after =>
          cases isStore with
          | false => cases htodo
          | true =>
              obtain ⟨rfl, rfl⟩ := List.cons.inj htodo
              have hnothing : recordBinary cfg zstd t (.storePost after) = ([], t) := by
                rw [recordBinary, recordStorePostBinary, if_pos (by rw [hpending]; rfl)]
              rw [hnothing, Moves, addCall_concat]
              exact Or.inl ⟨rfl, hcore.silent rfl rfl, .idle rfl hpending⟩
  | recorded done pc encoding instType inst instLen now addr info before after hgs htodo hpending hroom =>
      subst hgs
      obtain ⟨rfl, rfl⟩ := List.cons.inj htodo
      exact hcore.accessPre hroom hpending
  | accessed done pc encoding instType inst instLen now addr info before after hgs htodo hstore hfiltered hpending =>
      subst hgs
      obtain ⟨rfl, rfl⟩ := List.cons.inj htodo
      exact hcore.storePost hstore hfiltered hpending

end Buffers

section Runs

variable {w w' : Tracer} {a : Action} {log : Log}

/-- The blocks of a thread hold whole instructions of its history, in order, and
the others are in its buffer. -/
structure Thread (cfg : Config) (w : Tracer) (log : Log) (n : Nat) (parts : List (List (List Capture)))
    (gs : List (List Capture)) : Prop where
  history_eq : w.history n = parts.flatten ++ gs
  blocks_eq : blocksOf n log = (Progress.start.parts cfg parts).filter (!·.isEmpty)
  live : ∀ r, w.live n = some r → Buffered cfg n (Progress.start.after cfg parts.flatten) gs r
  stopped : w.live n = none → (Progress.start.after cfg parts.flatten).records cfg gs = []

structure Inv (cfg : Config) (zstd : Zstd) (w : Tracer) (log : Log) : Prop where
  file_eq : w.file = headerFormat.write (fileHeader cfg) ++ logBytes cfg zstd log
  flushable : ∀ b ∈ log, Flushable (b.2.map Decoded.event)
  started : ∀ b ∈ log, b.1 < w.started
  live_lt : ∀ n r, w.live n = some r → n < w.started
  fresh : ∀ n, w.started ≤ n → w.history n = []
  thread : ∀ n, ∃ parts gs, Thread cfg w log n parts gs

theorem inv_start (cfg : Config) (zstd : Zstd) : Inv cfg zstd (tracerStart cfg) [] where
  file_eq := by rw [logBytes, List.flatMap_nil, List.append_nil]; rfl
  flushable := by simp
  started := by simp
  live_lt n r h := by cases h
  fresh n _ := rfl
  thread _ := ⟨[], [], rfl, rfl, fun _ h => absurd h.symm (Option.some_ne_none _), fun _ => rfl⟩

theorem Inv.move (h : Inv cfg zstd w log) {n : Nat} (new : Log) (hstarted : w.started ≤ w'.started)
    (hn : n < w'.started) (hlive : ∀ m, m ≠ n → w'.live m = w.live m)
    (hhistory : ∀ m, m ≠ n → w'.history m = w.history m) (hfile : w'.file = w.file ++ logBytes cfg zstd new)
    (hnew : ∀ b ∈ new, b.1 = n ∧ Flushable (b.2.map Decoded.event))
    (hthread : ∃ parts gs, Thread cfg w' (log ++ new) n parts gs) : Inv cfg zstd w' (log ++ new) where
  file_eq := by rw [hfile, h.file_eq, logBytes, logBytes, logBytes, List.flatMap_append, List.append_assoc]
  flushable b hb := (List.mem_append.mp hb).elim (h.flushable b) fun hb => (hnew b hb).2
  started b hb := (List.mem_append.mp hb).elim (fun hb => lt_of_lt_of_le (h.started b hb) hstarted)
    fun hb => (hnew b hb).1 ▸ hn
  live_lt m r hr := by
    by_cases hm : m = n
    · exact hm ▸ hn
    · exact lt_of_lt_of_le (h.live_lt m r ((hlive m hm).symm.trans hr)) hstarted
  fresh m hm := by
    have hne : m ≠ n := fun heq => absurd hn (not_lt.mpr (heq ▸ hm))
    rw [hhistory m hne]
    exact h.fresh m (hstarted.trans hm)
  thread m := by
    by_cases hm : m = n
    · exact hm ▸ hthread
    · obtain ⟨parts, gs, ht⟩ := h.thread m
      have hnone : blocksOf m new = [] := by
        rw [blocksOf, List.map_eq_nil_iff, List.filter_eq_nil_iff]
        intro b hb
        simpa [(hnew b hb).1] using Ne.symm hm
      refine ⟨parts, gs, (hhistory m hm).trans ht.history_eq, ?_, ?_, ?_⟩
      · rw [blocksOf_append, hnone, List.append_nil, ht.blocks_eq]
      · intro r hr
        exact ht.live r ((hlive m hm).symm.trans hr)
      · intro hr
        exact ht.stopped ((hlive m hm).symm.trans hr)

theorem Inv.start (h : Inv cfg zstd w log) (hw : w' = { w with
    started := w.started + 1
    live := Function.update w.live w.started (some ⟨binaryStart (BitVec.ofNat 32 w.started), []⟩) }) :
    Inv cfg zstd w' log := by
  have hlive : w'.live w.started = some ⟨binaryStart (BitVec.ofNat 32 w.started), []⟩ := by
    rw [hw]
    exact Function.update_self _ _ _
  have hthread : ∃ parts gs, Thread cfg w' (log ++ []) w.started parts gs := by
    obtain ⟨parts, gs, ht⟩ := h.thread w.started
    have hempty : parts.flatten ++ gs = [] := ht.history_eq.symm.trans (h.fresh _ le_rfl)
    obtain ⟨hparts, rfl⟩ := List.append_eq_nil_iff.mp hempty
    refine ⟨parts, [], ?_, ?_, ?_, ?_⟩
    · rw [hw]
      exact ht.history_eq
    · rw [List.append_nil, ht.blocks_eq]
    · intro r hr
      rw [← Option.some.inj (hlive.symm.trans hr), hparts]
      exact ⟨⟨rfl, rfl, rfl, Nat.zero_le _⟩, .idle rfl rfl⟩
    · intro hnone
      cases hlive.symm.trans hnone
  have hmove : Inv cfg zstd w' (log ++ []) := by
    refine h.move [] ?_ ?_ ?_ ?_ ?_ (by simp) hthread
    · rw [hw]
      exact Nat.le_succ _
    · rw [hw]
      exact Nat.lt_succ_self _
    · intro m hm
      rw [hw]
      exact Function.update_of_ne hm _ _
    · intro m _
      rw [hw]
    · rw [hw]
      exact (List.append_nil _).symm
  rwa [List.append_nil] at hmove

theorem Inv.fetch (h : Inv cfg zstd w log) {n : Nat} {t : BinaryThread} (hn : w.live n = some ⟨t, []⟩) (i : Instr)
    (hw : w' = { w with
      live := Function.update w.live n (some ⟨t, i.calls⟩)
      history := Function.update w.history n (w.history n ++ [[]]) }) : Inv cfg zstd w' log := by
  have hlive : w'.live n = some ⟨t, i.calls⟩ := by
    rw [hw]
    exact Function.update_self _ _ _
  have hthread : ∃ parts gs, Thread cfg w' (log ++ []) n parts gs := by
    obtain ⟨parts, gs, ht⟩ := h.thread n
    obtain ⟨hcore, hphase⟩ := ht.live _ hn
    refine ⟨parts, gs ++ [[]], ?_, ?_, ?_, ?_⟩
    · rw [hw, ← List.append_assoc, ← ht.history_eq]
      exact Function.update_self _ _ _
    · rw [List.append_nil, ht.blocks_eq]
    · intro r hr
      rw [← Option.some.inj (hlive.symm.trans hr)]
      refine ⟨⟨hcore.id_eq, ?_, ?_, hcore.length_le⟩, .fetched gs i rfl rfl hphase.not_pending⟩
      · rw [records_concat, hcore.events_eq]
        exact congrArg _ (List.append_nil _).symm
      · rw [after_concat, hcore.count_eq]
        rfl
    · intro hnone
      cases hlive.symm.trans hnone
  have hmove : Inv cfg zstd w' (log ++ []) := by
    refine h.move [] ?_ ?_ ?_ ?_ ?_ (by simp) hthread
    · rw [hw]
    · rw [hw]
      exact h.live_lt n _ hn
    · intro m hm
      rw [hw]
      exact Function.update_of_ne hm _ _
    · intro m hm
      rw [hw]
      exact Function.update_of_ne hm _ _
    · rw [hw]
      exact (List.append_nil _).symm
  rwa [List.append_nil] at hmove

theorem logBytes_single (cfg : Config) (zstd : Zstd) (n : Nat) (ds : List Decoded) :
    logBytes cfg zstd [(n, ds)] = blockBytes cfg zstd (BitVec.ofNat 32 n) (ds.map Decoded.event) := by
  rw [logBytes, List.flatMap_singleton]

theorem blocksOf_flushed {n : Nat} {parts : List (List (List Capture))} {part : List (List Capture)}
    (h : blocksOf n log = (Progress.start.parts cfg parts).filter (!·.isEmpty))
    (hne : (Progress.start.after cfg parts.flatten).records cfg part ≠ []) :
    blocksOf n (log ++ [(n, (Progress.start.after cfg parts.flatten).records cfg part)]) =
      (Progress.start.parts cfg (parts ++ [part])).filter (!·.isEmpty) := by
  rw [blocksOf_append, parts_concat, List.filter_append, h, blocksOf_cons_self,
    List.filter_cons_of_pos (by simpa using hne)]
  rfl

theorem Inv.call (h : Inv cfg zstd w log) {n : Nat} {t : BinaryThread} {c : Capture} {todo : List Capture}
    (hn : w.live n = some ⟨t, c :: todo⟩)
    (hw : w' = { w with
      live := Function.update w.live n (some ⟨(recordBinary cfg zstd t c).2, todo⟩)
      file := w.file ++ (recordBinary cfg zstd t c).1
      history := Function.update w.history n (addCall c (w.history n)) }) : ∃ log', Inv cfg zstd w' log' := by
  have hlive : w'.live n = some ⟨(recordBinary cfg zstd t c).2, todo⟩ := by
    rw [hw]
    exact Function.update_self _ _ _
  have hhistory : w'.history n = addCall c (w.history n) := by
    rw [hw]
    exact Function.update_self _ _ _
  have hmove : ∀ new, (recordBinary cfg zstd t c).1 = logBytes cfg zstd new →
      (∀ b ∈ new, b.1 = n ∧ Flushable (b.2.map Decoded.event)) →
      (∃ parts gs, Thread cfg w' (log ++ new) n parts gs) → Inv cfg zstd w' (log ++ new) := by
    intro new hout hnew hthread
    refine h.move new ?_ ?_ ?_ ?_ ?_ hnew hthread
    · rw [hw]
    · rw [hw]
      exact h.live_lt n _ hn
    · intro m hm
      rw [hw]
      exact Function.update_of_ne hm _ _
    · intro m hm
      rw [hw]
      exact Function.update_of_ne hm _ _
    · rw [hw, ← hout]
  obtain ⟨parts, gs, ht⟩ := h.thread n
  have hbuffered := ht.live _ hn
  rcases hbuffered.call zstd with ⟨hout, hnext⟩ | ⟨done, rfl, hflushable, hout, hnext⟩
  · obtain ⟨done, g, hgs⟩ := hbuffered.phase.current
    refine ⟨log ++ [], hmove [] hout (by simp) ⟨parts, addCall c gs, ?_, ?_, ?_, ?_⟩⟩
    · rw [hhistory, ht.history_eq, hgs, ← List.append_assoc, addCall_concat, addCall_concat, List.append_assoc]
    · rw [List.append_nil, ht.blocks_eq]
    · intro r hr
      rw [← Option.some.inj (hlive.symm.trans hr)]
      exact hnext
    · intro hnone
      cases hlive.symm.trans hnone
  · have hne : (Progress.start.after cfg parts.flatten).records cfg done ≠ [] :=
      fun hnil => hflushable.ne_nil (by rw [hnil, List.map_nil])
    refine ⟨_, hmove [(n, (Progress.start.after cfg parts.flatten).records cfg done)] ?_ ?_
      ⟨parts ++ [done], [[c]], ?_, blocksOf_flushed ht.blocks_eq hne, ?_, ?_⟩⟩
    · rw [hout, logBytes_single]
    · intro b hb
      rw [List.mem_singleton.mp hb]
      exact ⟨rfl, hflushable⟩
    · rw [hhistory, ht.history_eq, ← List.append_assoc, addCall_concat, List.flatten_append, List.flatten_singleton,
        List.nil_append]
    · intro r hr
      rw [← Option.some.inj (hlive.symm.trans hr), List.flatten_append, List.flatten_singleton, after_append]
      exact hnext
    · intro hnone
      cases hlive.symm.trans hnone

theorem Inv.stop (h : Inv cfg zstd w log) {n : Nat} {r : Running} (hn : w.live n = some r)
    (hw : w' = { w with
      live := Function.update w.live n none
      file := w.file ++ (flushThread cfg zstd r.thread).1 }) : ∃ log', Inv cfg zstd w' log' := by
  have hlive : w'.live n = none := by
    rw [hw]
    exact Function.update_self _ _ _
  have hmove : ∀ new, (flushThread cfg zstd r.thread).1 = logBytes cfg zstd new →
      (∀ b ∈ new, b.1 = n ∧ Flushable (b.2.map Decoded.event)) →
      (∃ parts gs, Thread cfg w' (log ++ new) n parts gs) → Inv cfg zstd w' (log ++ new) := by
    intro new hout hnew hthread
    refine h.move new ?_ ?_ ?_ ?_ ?_ hnew hthread
    · rw [hw]
    · rw [hw]
      exact h.live_lt n _ hn
    · intro m hm
      rw [hw]
      exact Function.update_of_ne hm _ _
    · intro m _
      rw [hw]
    · rw [hw, ← hout]
  obtain ⟨parts, gs, ht⟩ := h.thread n
  have hcore := (ht.live _ hn).core
  have hhistory : w'.history n = parts.flatten ++ gs := by rw [hw, ← ht.history_eq]
  by_cases hempty : r.thread.events.length = 0
  · have hnil : (Progress.start.after cfg parts.flatten).records cfg gs = [] := by
      rw [hcore.events_eq, List.length_map] at hempty
      exact List.length_eq_zero_iff.mp hempty
    refine ⟨log ++ [], hmove [] ?_ (by simp) ⟨parts, gs, hhistory, ?_, ?_, fun _ => hnil⟩⟩
    · rw [flushThread, if_pos hempty]
      rfl
    · rw [List.append_nil, ht.blocks_eq]
    · intro r' hr
      cases hlive.symm.trans hr
  · have hne : (Progress.start.after cfg parts.flatten).records cfg gs ≠ [] := by
      intro hnil
      rw [hcore.events_eq, hnil] at hempty
      exact hempty rfl
    refine ⟨_, hmove [(n, (Progress.start.after cfg parts.flatten).records cfg gs)] ?_ ?_
      ⟨parts ++ [gs], [], ?_, blocksOf_flushed ht.blocks_eq hne, ?_, fun _ => rfl⟩⟩
    · rw [flushThread, if_neg hempty, logBytes_single, hcore.id_eq, hcore.events_eq]
    · intro b hb
      rw [List.mem_singleton.mp hb]
      refine ⟨rfl, ?_, ?_⟩
      · rw [← hcore.events_eq]
        exact fun hnil => hempty (by rw [hnil, List.length_nil])
      · rw [← hcore.events_eq]
        exact hcore.length_le
    · rw [hhistory, List.flatten_append, List.flatten_singleton, List.append_nil]
    · intro r' hr
      cases hlive.symm.trans hr

theorem Inv.step (h : Inv cfg zstd w log) (hstep : step cfg zstd w a = some w') : ∃ log', Inv cfg zstd w' log' := by
  rcases step_cases hstep with ⟨-, hw⟩ | ⟨n, i, t, -, hlive, hw⟩ | ⟨n, t, c, todo, -, hlive, hw⟩ |
    ⟨n, r, -, hlive, hw⟩
  · exact ⟨log, h.start hw⟩
  · exact ⟨log, h.fetch hlive i hw⟩
  · exact h.call hlive hw
  · exact h.stop hlive hw

theorem run_inv {as : List Action} (hrun : run cfg zstd as = some w) : ∃ log, Inv cfg zstd w log :=
  @run_invariant cfg zstd (fun w => ∃ log, Inv cfg zstd w log) ⟨[], inv_start cfg zstd⟩
    (fun _ _ _ ⟨_, h⟩ hstep => h.step hstep) as w hrun

theorem fileHeader_accepted (cfg : Config) : unsupported (fileHeader cfg) = false := by
  obtain ⟨clock, base, hclock, -, hflags⟩ := flags_eq cfg
  have hfreq : (fileHeader cfg).timestampFrequencyHz ≠ 0 → clock = true := by
    intro h
    rw [hclock, decide_eq_true_iff]
    intro hmode
    have hzero : (fileHeader cfg).timestampFrequencyHz = 0 := if_neg (by rw [hmode]; decide)
    exact h hzero
  rw [unsupported, decide_eq_false_iff_not, hflags]
  rintro (h | h | h | h | h | h | h | h)
  · exact h rfl
  · exact h rfl
  · exact h rfl
  · exact h rfl
  · exact h rfl
  · revert h
    cases clock <;> cases base <;> decide
  · revert h
    cases clock <;> cases base <;> decide
  · have hset := hfreq h.1
    have hclear := h.2
    subst hset
    revert hclear
    cases base <;> decide

theorem decodeStream_blocks (formatInstText : FormatInst) (rest : List Byte) {text : Text} {result : DecodeResult}
    (h : decodeBlocks zstd formatInstText (fileHeader cfg) rest (fun _ => decodeStart) false = (text, result)) :
    decodeStream zstd cfg.arch formatInstText (headerFormat.write (fileHeader cfg) ++ rest) =
      match (text, result) with
      | (text, .ok) => (text ++ "#eof\n".toList, .ok)
      | r => r := by
  have horder : ¬ (fileHeader cfg).byteOrder ≠ 1 := not_not.mpr rfl
  have harch : ¬ (cfg.arch ≠ 0 ∧ cfg.arch ≠ (fileHeader cfg).arch) := fun h => h.2 rfl
  rw [decodeStream, headerFormat.read_write]
  cases result <;>
    simp only [fileHeader_accepted cfg, if_neg horder, if_neg harch, h, Bool.false_eq_true, if_false]

/-- A file written by up to 2 ^ 20 + 1 threads decodes to the records of its
blocks in their order. The blocks of each thread hold, one after the other, the
records of whole instructions of that thread as it executed them, and they are
printed with the times that this thread sampled. -/
theorem decodeStream_traceFile (cfg : Config) (zstd : Zstd) (formatInstText : FormatInst) {as : List Action}
    (hrun : run cfg zstd as = some w) (hfinished : w.Finished) (hthreads : w.started ≤ 2 ^ 20 + 1) :
    ∃ log : Log,
      traceFile w = headerFormat.write (fileHeader cfg) ++ (logBytes cfg zstd log ++ blockFormat.write eofBlock) ∧
      decodeStream zstd cfg.arch formatInstText (traceFile w) =
        (recordsText cfg formatInstText true (log.flatMap (·.2)) ++ "#eof\n".toList, .ok) ∧
      ∀ n, ∃ parts, parts.flatten = w.history n ∧
        blocksOf n log = (Progress.start.parts cfg parts).filter (!·.isEmpty) := by
  obtain ⟨log, hinv⟩ := run_inv hrun
  have hfile : traceFile w =
      headerFormat.write (fileHeader cfg) ++ (logBytes cfg zstd log ++ blockFormat.write eofBlock) := by
    rw [traceFile, hinv.file_eq, List.append_assoc]
  have hblocks : ∀ n, ∃ parts, parts.flatten = w.history n ∧
      blocksOf n log = (Progress.start.parts cfg parts).filter (!·.isEmpty) := by
    intro n
    obtain ⟨parts, gs, ht⟩ := hinv.thread n
    have hnil := ht.stopped (hfinished n)
    refine ⟨parts ++ [gs], ?_, ?_⟩
    · rw [List.flatten_append, List.flatten_singleton, ht.history_eq]
    · rw [parts_concat, hnil, List.filter_append, List.filter_cons_of_neg (by simp), List.filter_nil, List.append_nil,
        ht.blocks_eq]
  refine ⟨log, hfile, ?_, hblocks⟩
  have hdecode : decodeBlocks zstd formatInstText (fileHeader cfg)
      (logBytes cfg zstd log ++ blockFormat.write eofBlock) (fun _ => decodeStart) false =
      (recordsText cfg formatInstText true (log.flatMap (·.2)), .ok) := by
    refine decodeBlocks_log hinv.flushable ?_ (fun _ => matches_start cfg) ?_ false
    · intro b hb
      have hlt := hinv.started b hb
      omega
    · intro n
      obtain ⟨parts, -, hparts⟩ := hblocks n
      exact ⟨parts, hparts⟩
  rw [hfile, decodeStream_blocks formatInstText _ hdecode]

def clockConfig : Config where
  ranges := []
  baseOverride := none
  ringLevel := 1
  compressionLevel := 3
  timestampMode := .clock
  cpuHz := 0
  arch := 1

/-- The second thread starts and stops between two instructions of the first. -/
def twoThreads : List Action :=
  [.start, .fetch 0 (.plain 0x400000 0xD503201F 1 2 4 7), .call 0, .start,
    .fetch 1 (.access 0x400100 0xF9000001 1 3 4 9 0x1000 0x22 (fun _ => 0) (fun _ => 1)), .call 1, .call 1, .call 1,
    .stop 1, .fetch 0 (.plain 0x400004 0xD503201F 1 2 4 11), .call 0, .stop 0]

theorem decodeStream_traceFile_two :
    ∃ w, run clockConfig rawFrames twoThreads = some w ∧ w.Finished ∧ w.started ≤ 2 ^ 20 + 1 ∧
      (decodeStream rawFrames clockConfig.arch (fun line _ _ _ _ => line) (traceFile w)).2 = .ok := by
  have hsome : (run clockConfig rawFrames twoThreads).isSome = true := rfl
  obtain ⟨w, hw⟩ := Option.isSome_iff_exists.mp hsome
  obtain ⟨log, hinv⟩ := run_inv hw
  have hstarted : w.started = 2 := by
    rw [← Option.some.inj hw]
    rfl
  have hstopped : w.live 0 = none ∧ w.live 1 = none := by
    rw [← Option.some.inj hw]
    exact ⟨rfl, rfl⟩
  have hfinished : w.Finished := by
    intro n
    rcases hlive : w.live n with _ | r
    · rfl
    · have hn := hinv.live_lt n r hlive
      rw [hstarted] at hn
      obtain rfl | rfl : n = 0 ∨ n = 1 := by omega
      · exact hlive.symm.trans hstopped.1
      · exact hlive.symm.trans hstopped.2
  have hle : w.started ≤ 2 ^ 20 + 1 := by omega
  obtain ⟨log', -, hdecode, -⟩ :=
    decodeStream_traceFile clockConfig rawFrames (fun line _ _ _ _ => line) hw hfinished hle
  exact ⟨w, hw, hfinished, hle, congrArg Prod.snd hdecode⟩

def idleThreads (k : Nat) : List Action := (List.range k).flatMap fun n => [.start, .stop n]

theorem runFrom_append (w : Tracer) (as bs : List Action) :
    runFrom cfg zstd w (as ++ bs) = (runFrom cfg zstd w as).bind (runFrom cfg zstd · bs) := by
  induction as generalizing w with
  | nil => rfl
  | cons a as ih =>
      rw [List.cons_append, runFrom, runFrom, Option.bind_assoc]
      exact Option.bind_congr fun w' _ => ih w'

/-- Threads that have all stopped, with nothing in the file but its header. -/
structure Idle (cfg : Config) (w : Tracer) (k : Nat) : Prop where
  started : w.started = k
  finished : w.Finished
  file_eq : w.file = headerFormat.write (fileHeader cfg)

theorem finished_update {k : Nat} {live : Nat → Option Running} (h : ∀ n, n ≠ k → live n = none)
    {file : List Byte} {started : Nat} {history : Nat → List (List Capture)} :
    (⟨started, Function.update live k none, file, history⟩ : Tracer).Finished := by
  intro n
  by_cases hn : n = k
  · subst hn
    exact Function.update_self _ _ _
  · exact (Function.update_of_ne hn _ _).trans (h n hn)

theorem run_idleThreads (cfg : Config) (zstd : Zstd) (k : Nat) :
    ∃ w, run cfg zstd (idleThreads k) = some w ∧ Idle cfg w k := by
  induction k with
  | zero => exact ⟨tracerStart cfg, rfl, rfl, fun _ => rfl, rfl⟩
  | succ k ih =>
      obtain ⟨w, hw, hidle⟩ := ih
      have hrange : idleThreads (k + 1) = idleThreads k ++ [.start, .stop k] := by
        rw [idleThreads, List.range_succ, List.flatMap_append, List.flatMap_singleton]
        rfl
      have hlast : runFrom cfg zstd w [.start, .stop k] = some { w with
          started := w.started + 1
          live := Function.update (Function.update w.live k (some ⟨binaryStart (BitVec.ofNat 32 k), []⟩)) k none
          file := w.file ++ [] } := by
        simp [runFrom, step, hidle.started, flushThread, binaryStart]
      have hrun : run cfg zstd (idleThreads (k + 1)) = runFrom cfg zstd w [.start, .stop k] := by
        rw [run, hrange, runFrom_append, show runFrom cfg zstd (tracerStart cfg) (idleThreads k) = some w from hw,
          Option.bind_some]
      refine ⟨_, hrun.trans hlast, congrArg (· + 1) hidle.started, ?_, (List.append_nil _).trans hidle.file_eq⟩
      exact finished_update fun n hn => (Function.update_of_ne hn _ _).trans (hidle.finished n)

def oneInstruction (k : Nat) (i : Instr) : List Action := [.start, .fetch k i, .call k, .stop k]

theorem Idle.one_instruction {k : Nat} (h : Idle cfg w k) (zstd : Zstd) {pc : Word}
    (hf : ¬ pcFiltered cfg pc = true) (encoding instType inst instLen now : Word) :
    ∃ w', runFrom cfg zstd w (oneInstruction k (.plain pc encoding instType inst instLen now)) = some w' ∧
      w'.Finished ∧
      ∃ es, w'.file = headerFormat.write (fileHeader cfg) ++ blockBytes cfg zstd (BitVec.ofNat 32 k) es := by
  have hrecord : recordBinary cfg zstd (binaryStart (BitVec.ofNat 32 k)) (.inst pc encoding instType inst instLen now) =
      ([], { binaryStart (BitVec.ofNat 32 k) with
        events := [instRecord cfg 0 pc encoding (instInfo instType inst instLen) now]
        instructionCount := 1 }) := by
    rw [recordBinary, recordInstBinary_eq hf]
    rfl
  have hrun : runFrom cfg zstd w (oneInstruction k (.plain pc encoding instType inst instLen now)) = some
      { started := w.started + 1
        live := Function.update w.live k none
        file := w.file ++ blockBytes cfg zstd (BitVec.ofNat 32 k)
          [instRecord cfg 0 pc encoding (instInfo instType inst instLen) now]
        history := Function.update w.history k
          (addCall (.inst pc encoding instType inst instLen now) (w.history k ++ [[]])) } := by
    simp [oneInstruction, runFrom, step, h.started, Instr.calls, hrecord, flushThread]
    rfl
  exact ⟨_, hrun, finished_update fun n _ => h.finished n, _, congrArg (· ++ _) h.file_eq⟩

theorem decodeBlocks_many_threads {id : BitVec 32} (hid : 2 ^ 20 < id.toNat) (es : List XtraceEvent)
    (rest : List Byte) (header : XtraceFileHeader) (threads : Nat → DecodeThread) (ring : Bool) :
    decodeBlocks zstd formatInstText header (blockBytes cfg zstd id es ++ rest) threads ring =
      ([], .corruptBlockHeader) := by
  have hread : blockFormat.read (blockBytes cfg zstd id es ++ rest) =
      some (blockOf cfg zstd id es, (storedBlock cfg zstd (es.flatMap eventFormat.write)).1 ++ rest) := by
    rw [show blockBytes cfg zstd id es = blockFormat.write (blockOf cfg zstd id es) ++
      (storedBlock cfg zstd (es.flatMap eventFormat.write)).1 from rfl, List.append_assoc, blockFormat.read_write]
  have hmagic : ¬ (blockOf cfg zstd id es).magic = eofMagic := by simp [blockOf, blockMagic, eofMagic]
  have hcorrupt : corruptBlock (blockOf cfg zstd id es) = true := by
    rw [corruptBlock, decide_eq_true_iff]
    exact Or.inr (Or.inr (Or.inr (Or.inl hid)))
  rw [decodeBlocks_eq, hread]
  simp only [if_neg hmagic, if_pos hcorrupt]

/-- The decoder takes the blocks of the thread after these for corrupt. -/
theorem decodeStream_many_threads :
    ∃ as w, run plainConfig rawFrames as = some w ∧ w.Finished ∧
      decodeStream rawFrames plainConfig.arch (fun line _ _ _ _ => line) (traceFile w) =
        ([], .corruptBlockHeader) := by
  obtain ⟨w, hw, hidle⟩ := run_idleThreads plainConfig rawFrames (2 ^ 20 + 1)
  have hf : ¬ pcFiltered plainConfig 0x400000 = true := by decide
  obtain ⟨w', hw', hfinished, es, hfile⟩ := hidle.one_instruction rawFrames hf 0xD503201F 1 2 4 0
  refine ⟨idleThreads (2 ^ 20 + 1) ++ oneInstruction (2 ^ 20 + 1) (.plain 0x400000 0xD503201F 1 2 4 0), w', ?_,
    hfinished, ?_⟩
  · rw [run, runFrom_append,
      show runFrom plainConfig rawFrames (tracerStart plainConfig) (idleThreads (2 ^ 20 + 1)) = some w from hw,
      Option.bind_some, hw']
  · have hid : 2 ^ 20 < (BitVec.ofNat 32 (2 ^ 20 + 1)).toNat := by
      rw [toNat_ofNat_32 (by omega)]
      omega
    rw [traceFile, hfile, List.append_assoc,
      decodeStream_blocks _ _ (decodeBlocks_many_threads hid es _ _ _ false)]

end Runs

end Mambo.XtraceInterleaving
