import Mambo.FragmentScanRuns
import Mambo.FunctionCallbacks

namespace Mambo.FunctionCallbackRuns

open CodeCacheHash HashRefines FragmentEntries FunctionCallbacks Pieces
open FragmentScans hiding Op scan lookupOrScan scanTrace createTrace installTrace
open TraceLog (bind_ok)
open TraceState (codeCacheSize codeCacheOverp blockBytes maxBranchRange alignTrace traceAlign)

variable {w : Nat} {c : Cache w}

section Addresses

variable {a : Nat} {x y : BitVec w} {wr : Wrapper w}

theorem thumb_toNat (c : Cache w) (x : BitVec w) :
    (c.thumb x).toNat = if c.arch = .aarch32 then x.toNat % 2 else 0 := by
  rw [Cache.thumb]
  split
  · rw [and_one_toNat c]
  · rfl

theorem tagged_toNat (heven : a % 2 = 0) (hlt : a < 2 ^ w) :
    (BitVec.ofNat w a ||| c.thumb x).toNat = a + (c.thumb x).toNat := by
  have hthumb := thumb_lt c x
  have hhalf : (BitVec.ofNat w a).toNat = 2 ^ 1 * (a / 2) := by
    rw [BitVec.toNat_ofNat, Nat.mod_eq_of_lt hlt]
    omega
  rw [BitVec.toNat_or, hhalf, ← Nat.two_pow_add_eq_or_of_lt (by omega)]
  omega

theorem thumb_tagged (heven : a % 2 = 0) (hlt : a < 2 ^ w) :
    c.thumb (BitVec.ofNat w a ||| c.thumb x) = c.thumb x := by
  apply BitVec.eq_of_toNat_eq
  rw [thumb_toNat c (_ ||| _), tagged_toNat heven hlt, thumb_toNat]
  split <;> omega

structure Located (c : Cache w) (wr : Wrapper w) : Prop where
  tag : ∃ target, wr.thumb = c.thumb target
  even : wr.start % 2 = 0
  lower : c.codeCache.toNat ≤ wr.start
  upper : wr.stop ≤ c.codeCache.toNat + maxBranchRange

theorem Located.back_lt (h : Located c wr) : wr.back < 2 ^ w := by
  have hroom := c.room
  have hupper := h.upper
  have hpos := wr.lengths.post_pos
  rw [Wrapper.stop] at hupper
  omega

theorem Located.back_even (h : Located c wr) : wr.back % 2 = 0 := by
  have heven := h.even
  rw [Wrapper.back]
  omega

theorem Located.ret_toNat (h : Located c wr) : wr.ret.toNat = wr.back + (c.thumb wr.ret).toNat := by
  obtain ⟨target, htag⟩ := h.tag
  rw [Wrapper.ret, htag, thumb_tagged h.back_even h.back_lt, tagged_toNat h.back_even h.back_lt]

theorem Located.ret_inside (h : Located c wr) : wr.start < wr.ret.toNat ∧ wr.ret.toNat < wr.stop := by
  have hret := h.ret_toNat
  have hthumb := thumb_lt c wr.ret
  have hpos := wr.lengths.post_pos
  rw [Wrapper.stop]
  rw [Wrapper.back] at hret ⊢
  omega

theorem Located.ret_ne_zero (h : Located c wr) : wr.ret ≠ 0 := by
  have hin := h.ret_inside
  rintro heq
  rw [heq] at hin
  exact absurd hin.1 (by simp)

theorem Located.outside (h : Located c wr) {target : BitVec w} (hout : Outside c target) : wr.ret ≠ target := by
  rintro rfl
  have hin := h.ret_inside
  have hlower := h.lower
  have hupper := h.upper
  have hout := hout.2
  omega

theorem Located.ret_ne {wr' : Wrapper w} (h : Located c wr) (h' : Located c wr')
    (hapart : wr.stop ≤ wr'.start ∨ wr'.stop ≤ wr.start) : wr.ret ≠ wr'.ret := by
  intro heq
  have hin := h.ret_inside
  have hin' := h'.ret_inside
  rw [heq] at hin
  omega

theorem Located.ret_ne_max (h : Located c wr) (hwidth : c.arch = .aarch32 → w = 32) : wr.ret ≠ uintMax := by
  have hret := h.ret_toNat
  have hmax := uintMax_mod c
  have heven := h.back_even
  intro heq
  rw [thumb_toNat, heq] at hret
  by_cases harm : c.arch = .aarch32
  · obtain rfl := hwidth harm
    have hin := h.ret_inside
    have hupper := h.upper
    have hroom := c.room
    have haligned := c.aligned
    have hrange : maxBranchRange = 256 * 65536 := rfl
    have hval : (uintMax : BitVec 32).toNat = 2 ^ 32 - 1 := by decide
    rw [heq, hval] at hin
    rw [blockBytes] at haligned
    omega
  · rw [if_neg harm, Nat.add_zero] at hret
    rw [blockBytes] at hmax
    omega

end Addresses

section Blocks

variable {t t' : Thread w} {code : Store w} {id j : Nat} {wr : Wrapper w} {a b : Nat}

/-- Somewhere in a block that is no stub, except for the one being written, or in the traces. -/
def Placed (c : Cache w) (t : Thread w) (id a b : Nat) : Prop :=
  (∃ j < t.freeBlock, (c.block j).toNat ≤ a ∧ b ≤ (c.block j).toNat + blockBytes ∧
    (j = id ∨ (t.codeCacheMeta j).exitBranchType ≠ .stub)) ∨ c.traces.toNat ≤ a

/-- Blocks are taken, and the exits of the others stay as they are. -/
structure Extends (id : Nat) (t t' : Thread w) : Prop where
  le : t.freeBlock ≤ t'.freeBlock
  exits : ∀ j < t.freeBlock, j ≠ id → (t'.codeCacheMeta j).exitBranchType = (t.codeCacheMeta j).exitBranchType

theorem Placed.mono (h : Placed c t id a b) (hext : Extends id t t') : Placed c t' id a b := by
  rcases h with ⟨j, hj, hle, hge, hexit⟩ | htrace
  · refine Or.inl ⟨j, hj.trans_le hext.le, hle, hge, ?_⟩
    by_cases heq : j = id
    · exact Or.inl heq
    · rw [hext.exits j hj heq]
      exact hexit
  · exact Or.inr htrace

theorem block_next (c : Cache w) {i : Nat} (hij : i < j) (hj : j ≤ codeCacheSize) :
    (c.block i).toNat + blockBytes ≤ (c.block j).toNat := by
  have hstep : (i + 1) * blockBytes ≤ j * blockBytes := Nat.mul_le_mul_right blockBytes hij
  rw [Nat.add_mul, one_mul] at hstep
  rw [block_toNat c (hij.le.trans hj), block_toNat c hj]
  omega

theorem Placed.apart (h : Placed c t id a b) (hle : t.freeBlock ≤ j) (hj : j < codeCacheSize) :
    b ≤ (c.block j).toNat ∨ (c.block j).toNat + blockBytes ≤ a := by
  rcases h with ⟨i, hi, -, hhigh, -⟩ | htrace
  · exact Or.inl (hhigh.trans (block_next c (hi.trans_le hle) hj.le))
  · exact Or.inr ((block_next c hj le_rfl).trans htrace)

/-- A stub's block holds no wrapper. -/
theorem Placed.stub_apart (h : Placed c t codeCacheSize a b) (hle : t.freeBlock ≤ codeCacheSize)
    (hj : j < codeCacheSize) (hstub : (t.codeCacheMeta j).exitBranchType = .stub) :
    b ≤ (c.block j).toNat ∨ (c.block j).toNat + blockBytes ≤ a := by
  rcases h with ⟨i, hi, hlow, hhigh, hexit⟩ | htrace
  · have hne : i ≠ j := by
      rintro rfl
      exact hexit.elim hj.ne fun hexit => hexit hstub
    rcases Nat.lt_or_gt_of_ne hne with hlt | hlt
    · exact Or.inl (hhigh.trans (block_next c hlt hj.le))
    · exact Or.inr ((block_next c hlt (hi.le.trans hle)).trans hlow)
  · exact Or.inr ((block_next c hj le_rfl).trans htrace)

/-- The next block is taken, and only its metadata changes. -/
structure Takes (t t' : Thread w) : Prop where
  free : t'.freeBlock = t.freeBlock + 1
  kept : ∀ j, j ≠ t.freeBlock → (t'.codeCacheMeta j).exitBranchType = (t.codeCacheMeta j).exitBranchType

theorem take_setMeta (t : Thread w) (f : CodeCacheMeta w → CodeCacheMeta w) (table : HashTable w) :
    Takes t ((t.take.setMeta t.freeBlock f).setTable table) :=
  ⟨rfl, fun _ hne => congrArg CodeCacheMeta.exitBranchType (setMeta_of_ne t.take hne f)⟩

theorem Takes.extends (h : Takes t t') : Extends id t t' :=
  ⟨(Nat.le_succ _).trans h.free.ge, fun j hj _ => h.kept j hj.ne⟩

theorem Takes.exits (h : Takes t t')
    (hexits : ∀ j, t.freeBlock ≤ j → j < codeCacheSize → (t.codeCacheMeta j).exitBranchType ≠ .stub) :
    ∀ j, t'.freeBlock ≤ j → j < codeCacheSize → (t'.codeCacheMeta j).exitBranchType ≠ .stub := by
  intro j hj hsize
  rw [h.free] at hj
  rw [h.kept j (Nat.lt_of_succ_le hj).ne']
  exact hexits j (Nat.le_of_succ_le hj) hsize

end Blocks

section Writing

variable {s s' : Writer w} {id n : Nat} {wr : Wrapper w} {f : WatchedFunc} {lengths : Lengths}

def Wrapper.pieces (wr : Wrapper w) : List (Piece (List (Op w))) :=
  [⟨entryOps wr.func, 2 * wr.lengths.entry⟩, ⟨[.fcall (BitVec.ofNat w wr.stop ||| wr.thumb)], 4⟩,
    ⟨postOps wr.func, 2 * wr.lengths.post⟩]

theorem pieces_total (wr : Wrapper w) : wr.start + total (Wrapper.pieces wr) = wr.stop := by
  simp only [Wrapper.pieces, total, Wrapper.stop, Wrapper.back]
  omega

structure Stands (c : Cache w) (t : Thread w) (code : Store w) (id : Nat) (wr : Wrapper w) : Prop extends
    Located c wr where
  held : Holds code wr.start (Wrapper.pieces wr)
  placed : Placed c t id wr.start wr.stop

def Mapped (c : Cache w) (t : Thread w) (wrappers : List (Wrapper w)) : Prop :=
  ∃ m, Maps c.htShift t.entryAddress m ∧ ∀ wr ∈ wrappers, m wr.ret = some wr.ret

structure Writes (c : Cache w) (id : Nat) (s : Writer w) : Prop where
  le_size : s.thread.freeBlock ≤ codeCacheSize
  exits : ∀ j, s.thread.freeBlock ≤ j → j < codeCacheSize → (s.thread.codeCacheMeta j).exitBranchType ≠ .stub
  table : Mapped c s.thread s.wrappers
  stands : ∀ wr ∈ s.wrappers, Stands c s.thread s.code id wr
  clear : ∀ wr ∈ s.wrappers, wr.stop ≤ s.writeP ∨ s.limit ≤ wr.start
  placed : Placed c s.thread id s.writeP s.limit
  lower : c.codeCache.toNat ≤ s.writeP
  upper : s.limit ≤ c.codeCache.toNat + maxBranchRange
  even : s.writeP % 2 = 0
  tag : ∃ target, s.thumb = c.thumb target

theorem Placed.sub {t : Thread w} {a b a' b' : Nat} (h : Placed c t id a b) (ha : a ≤ a') (hb : b' ≤ b) :
    Placed c t id a' b' := by
  rcases h with ⟨j, hj, hle, hge, hexit⟩ | htrace
  · exact Or.inl ⟨j, hj, hle.trans ha, hb.trans hge, hexit⟩
  · exact Or.inr (htrace.trans ha)

theorem Stands.overwrite {t : Thread w} {code : Store w} {a : Nat} {p : Piece (List (Op w))}
    (h : Stands c t code id wr) (hapart : wr.stop ≤ a ∨ a + p.length ≤ wr.start) :
    Stands c t (overwrite code a p) id wr :=
  ⟨h.toLocated, h.held.overwrite (by rwa [pieces_total]), h.placed⟩

theorem Stands.mono {t t' : Thread w} {code : Store w} (h : Stands c t code id wr) (hext : Extends id t t') :
    Stands c t' code id wr :=
  ⟨h.toLocated, h.held, h.placed.mono hext⟩

/-- Code that fits leaves the wrappers alone. -/
theorem Writes.write (h : Writes c id s) (ops : List (Op w)) (hfits : s.writeP + 2 * n ≤ s.limit) :
    Writes c id (s.write ops (2 * n)) where
  le_size := h.le_size
  exits := h.exits
  table := h.table
  stands wr hwr := (h.stands wr hwr).overwrite ((h.clear wr hwr).imp_right hfits.trans)
  clear wr hwr := (h.clear wr hwr).imp_left fun hle => hle.trans (Nat.le_add_right _ _)
  placed := h.placed.sub (Nat.le_add_right _ _) le_rfl
  lower := h.lower.trans (Nat.le_add_right _ _)
  upper := h.upper
  even := by
    have heven := h.even
    show (s.writeP + 2 * n) % 2 = 0
    omega
  tag := h.tag

theorem Mapped.add {t : Thread w} {wrappers : List (Wrapper w)} {key value : BitVec w} {r : Bool × HashTable w}
    (h : Mapped c t wrappers) (hne : ∀ wr ∈ wrappers, wr.ret ≠ key)
    (hadd : hashAdd c.htShift t.entryAddress key value = .ok r) :
    r.1 = true ∧ ∃ m, Maps c.htShift r.2 m ∧ m key = some value ∧ ∀ wr ∈ wrappers, m wr.ret = some wr.ret := by
  obtain ⟨m, hm, hret⟩ := h
  obtain ⟨hadded, hm'⟩ := hm.hashAdd hadd
  refine ⟨hadded, _, hm', Function.update_self .., fun wr hwr => ?_⟩
  rw [Function.update_of_ne (hne wr hwr), hret wr hwr]

def Writer.wrapper (s : Writer w) (f : WatchedFunc) (lengths : Lengths) : Wrapper w :=
  ⟨f, lengths, s.writeP, s.thumb⟩

theorem wrapper_some (hpost : f.postCallback = true) (hact : functionCallbackWrapper c f lengths s = .ok s') :
    ∃ added table, hashAdd c.htShift s.thread.entryAddress (Writer.wrapper s f lengths).ret
        (Writer.wrapper s f lengths).ret = .ok (added, table) ∧
      s' =
        { s with
          thread := s.thread.setTable table
          code := overwrite (overwrite (overwrite s.code s.writeP ⟨entryOps f, 2 * lengths.entry⟩)
            (Writer.wrapper s f lengths).back ⟨postOps f, 2 * lengths.post⟩) (s.writeP + 2 * lengths.entry)
            ⟨[.fcall (BitVec.ofNat w (Writer.wrapper s f lengths).stop ||| s.thumb)], 4⟩
          wrappers := Writer.wrapper s f lengths :: s.wrappers
          writeP := (Writer.wrapper s f lengths).stop } := by
  rw [functionCallbackWrapper, if_pos hpost] at hact
  obtain ⟨back, hback, hact⟩ := bind_ok hact
  obtain rfl := Except.ok.inj hact
  obtain ⟨⟨added, table⟩, hadd, hback⟩ := bind_ok hback
  cases added with
  | true =>
    obtain rfl := Except.ok.inj hback
    exact ⟨true, table, hashResult_ok hadd, rfl⟩
  | false => exact nomatch hback

theorem wrapper_held {code : Store w} (wr : Wrapper w) :
    Holds (overwrite (overwrite (overwrite code wr.start ⟨entryOps wr.func, 2 * wr.lengths.entry⟩)
      wr.back ⟨postOps wr.func, 2 * wr.lengths.post⟩) (wr.start + 2 * wr.lengths.entry)
      ⟨[.fcall (BitVec.ofNat w wr.stop ||| wr.thumb)], 4⟩) wr.start (Wrapper.pieces wr) := by
  have hentry : 0 < 2 * wr.lengths.entry := Nat.mul_pos (by decide) wr.lengths.entry_pos
  have hpost : 0 < 2 * wr.lengths.post := Nat.mul_pos (by decide) wr.lengths.post_pos
  have hfour : 0 < 4 := by decide
  refine ⟨⟨?_, hentry⟩, ⟨?_, hfour⟩, ⟨?_, hpost⟩, trivial⟩
  · refine overwrite_apart (overwrite_apart (overwrite_self hentry) hentry (Or.inl ?_)) hentry (Or.inl le_rfl)
    exact Nat.le_add_right _ 4
  · exact overwrite_self hfour
  · exact overwrite_apart (overwrite_self hpost) hpost (Or.inr le_rfl)

theorem Writes.wrapper (h : Writes c id s)
    (hfits : s.writeP + 2 * lengths.entry + 4 + 2 * lengths.post ≤ s.limit)
    (hact : functionCallbackWrapper c f lengths s = .ok s') :
    Writes c id s' ∧ ∀ wr ∈ s.wrappers, wr ∈ s'.wrappers := by
  by_cases hpost : f.postCallback = true
  · obtain ⟨added, table, hadd, rfl⟩ := wrapper_some hpost hact
    have hentry := lengths.entry_pos
    have hposts := lengths.post_pos
    have hback : (Writer.wrapper s f lengths).back = s.writeP + 2 * lengths.entry + 4 := rfl
    have hstop : (Writer.wrapper s f lengths).stop = (Writer.wrapper s f lengths).back + 2 * lengths.post := rfl
    have hforth : s.writeP ≤ (Writer.wrapper s f lengths).stop := by omega
    have hnew : Located c (Writer.wrapper s f lengths) :=
      ⟨h.tag, h.even, h.lower, by have hupper := h.upper; omega⟩
    have hapart : ∀ wr ∈ s.wrappers,
        wr.stop ≤ s.writeP ∨ (Writer.wrapper s f lengths).stop ≤ wr.start := by
      intro wr hwr
      have hclear := h.clear wr hwr
      omega
    obtain ⟨-, m, hm, hself, hothers⟩ := h.table.add
      (fun wr hwr => (h.stands wr hwr).toLocated.ret_ne hnew (hapart wr hwr)) hadd
    refine ⟨?_, fun wr hwr => List.mem_cons_of_mem _ hwr⟩
    constructor
    case le_size => exact h.le_size
    case exits => exact h.exits
    case table =>
      refine ⟨m, hm, fun wr hwr => ?_⟩
      rcases List.mem_cons.mp hwr with rfl | hwr
      exacts [hself, hothers wr hwr]
    case stands =>
      intro wr hwr
      rcases List.mem_cons.mp hwr with rfl | hwr
      · exact ⟨hnew, wrapper_held (Writer.wrapper s f lengths), h.placed.sub le_rfl (by omega)⟩
      · have hwr' := hapart wr hwr
        have hext : Extends id s.thread (s.thread.setTable table) := ⟨le_rfl, fun _ _ _ => rfl⟩
        have hstands := (h.stands wr hwr).mono hext
        dsimp only
        refine ((hstands.overwrite ?_).overwrite ?_).overwrite ?_
        · show _ ∨ s.writeP + 2 * lengths.entry ≤ _
          omega
        · show _ ∨ (Writer.wrapper s f lengths).back + 2 * lengths.post ≤ _
          omega
        · show _ ∨ s.writeP + 2 * lengths.entry + 4 ≤ _
          omega
    case clear =>
      intro wr hwr
      rcases List.mem_cons.mp hwr with rfl | hwr
      · exact Or.inl le_rfl
      · exact (h.clear wr hwr).imp_left fun hle => hle.trans hforth
    case placed => exact h.placed.sub hforth le_rfl
    case lower => exact h.lower.trans hforth
    case upper => exact h.upper
    case even => 
      have heven := h.even
      show (Writer.wrapper s f lengths).stop % 2 = 0
      omega
    case tag => exact h.tag
  · rw [functionCallbackWrapper, if_neg hpost] at hact
    obtain rfl := Except.ok.inj hact
    split
    · exact ⟨h.write _ (by omega), fun _ hwr => hwr⟩
    · exact ⟨h, fun _ hwr => hwr⟩

theorem block_upper {j : Nat} (c : Cache w) (hj : j < codeCacheSize) :
    c.codeCache.toNat ≤ (c.block j).toNat ∧ (c.block j).toNat + blockBytes ≤ c.codeCache.toNat + maxBranchRange := by
  have hblock := block_toNat c hj.le
  have hnext := block_next c hj le_rfl
  have hend := block_toNat c (le_refl codeCacheSize)
  have hbytes : codeCacheSize * blockBytes ≤ maxBranchRange := by decide
  omega

theorem block_even {j : Nat} (c : Cache w) (hj : j < codeCacheSize) : (c.block j).toNat % 2 = 0 := by
  have hdvd := block_dvd c hj.le
  rw [blockBytes] at hdvd
  omega

theorem Writes.overflow (h : Writes c id s) (hact : act c id s .overflow = .ok s') :
    Writes c id s' ∧ s'.wrappers = s.wrappers := by
  obtain ⟨⟨t, block⟩, halloc, hact⟩ := bind_ok hact
  obtain ⟨hlt, hr⟩ := allocateBbOverflow_ok halloc
  obtain ⟨rfl, rfl⟩ := Prod.mk.inj hr
  obtain rfl := Except.ok.inj hact
  have htakes : Takes s.thread (setActualId s.thread.take s.thread.freeBlock id) :=
    take_setMeta s.thread (fun m => { m with actualId := id }) s.thread.entryAddress
  have hexit : ((setActualId s.thread.take s.thread.freeBlock id).codeCacheMeta s.thread.freeBlock).exitBranchType =
      (s.thread.codeCacheMeta s.thread.freeBlock).exitBranchType := by
    rw [setActualId, setMeta_self]
    rfl
  refine ⟨?_, rfl⟩
  constructor
  case le_size => exact hlt
  case exits => exact htakes.exits h.exits
  case table => exact h.table
  case stands => exact fun wr hwr => (h.stands wr hwr).mono htakes.extends
  case clear => exact fun wr hwr => (h.stands wr hwr).placed.apart le_rfl hlt
  case placed =>
    refine Or.inl ⟨s.thread.freeBlock, Nat.lt_succ_self _, le_rfl, le_rfl, Or.inr ?_⟩
    dsimp only
    rw [hexit]
    exact h.exits _ le_rfl hlt
  case lower => exact (block_upper c hlt).1
  case upper => exact (block_upper c hlt).2
  case even => exact block_even c hlt
  case tag => exact h.tag

theorem addEntry_eq {t t' : Thread w} {key value : BitVec w} (hadd : addEntry c t key value = .ok t') :
    ∃ added table, hashAdd c.htShift t.entryAddress key value = .ok (added, table) ∧ t' = t.setTable table := by
  obtain ⟨⟨added, table⟩, hhash, hadd⟩ := bind_ok hadd
  cases added with
  | true =>
    obtain rfl := Except.ok.inj hadd
    exact ⟨true, table, hashResult_ok hhash, rfl⟩
  | false => exact nomatch hadd

theorem Writes.stub (h : Writes c id s) {target : BitVec w} (hout : Outside c target)
    (hfits : (Act.stub target n).Fits c s) (hact : act c id s (.stub target n) = .ok s') :
    Writes c id s' ∧ s'.wrappers = s.wrappers := by
  obtain ⟨addr, hlookup, hact⟩ := bind_ok hact
  split at hact
  case isFalse =>
    obtain rfl := Except.ok.inj hact
    exact ⟨h, rfl⟩
  case isTrue hmissing =>
    rw [hmissing] at hlookup
    have hroom := hfits.2 hlookup
    have hlt : s.thread.freeBlock < codeCacheSize := hroom.trans_le (Nat.sub_le _ _)
    obtain ⟨⟨t, blockAddress⟩, hstub, hact⟩ := bind_ok hact
    obtain rfl := Except.ok.inj hact
    obtain ⟨⟨t₁, block⟩, halloc, hstub⟩ := bind_ok hstub
    rw [allocateBb_roomy hroom] at halloc
    obtain ⟨rfl, rfl⟩ := Prod.mk.inj (Except.ok.inj halloc)
    obtain ⟨t₂, hadd, hstub⟩ := bind_ok hstub
    split at hstub
    · cases hstub
    obtain ⟨rfl, -⟩ := Prod.mk.inj (Except.ok.inj hstub)
    obtain ⟨added, table, hhash, rfl⟩ := addEntry_eq hadd
    obtain ⟨-, m, hm, -, hothers⟩ := Mapped.add (r := (added, table)) h.table
      (fun wr hwr => (h.stands wr hwr).toLocated.outside hout) hhash
    have htakes : Takes s.thread ((s.thread.take.setMeta s.thread.freeBlock fun m =>
        { m with exitBranchType := .stub }).setTable table) := take_setMeta s.thread _ table
    have hstanding : standing s.thread ((s.thread.take.setMeta s.thread.freeBlock fun m =>
        { m with exitBranchType := .stub }).setTable table) s.wrappers = s.wrappers := if_pos rfl
    dsimp only
    rw [hstanding]
    refine ⟨?_, rfl⟩
    constructor
    case le_size => exact hlt
    case exits => exact htakes.exits h.exits
    case table => exact ⟨m, hm, hothers⟩
    case stands =>
      intro wr hwr
      refine ((h.stands wr hwr).mono htakes.extends).overwrite ?_
      have hapart := (h.stands wr hwr).placed.apart le_rfl hlt
      have hlen := hfits.1
      show wr.stop ≤ (c.block s.thread.freeBlock).toNat ∨ (c.block s.thread.freeBlock).toNat + 2 * n ≤ wr.start
      omega
    case clear => exact h.clear
    case placed => exact h.placed.mono htakes.extends
    case lower => exact h.lower
    case upper => exact h.upper
    case even => exact h.even
    case tag => exact h.tag

theorem Writes.act {a : Act w} (h : Writes c id s) (hfits : a.Fits c s)
    (hout : ∀ target n, a = .stub target n → Outside c target) (hact : act c id s a = .ok s') :
    Writes c id s' ∧ ∀ wr ∈ s.wrappers, wr ∈ s'.wrappers := by
  cases a with
  | emit n =>
    obtain rfl := Except.ok.inj hact
    exact ⟨h.write _ hfits, fun _ hwr => hwr⟩
  | wrapper f lengths => exact h.wrapper hfits hact
  | overflow =>
    obtain ⟨h', heq⟩ := h.overflow hact
    exact ⟨h', fun _ hwr => heq ▸ hwr⟩
  | stub target n =>
    obtain ⟨h', heq⟩ := h.stub (hout target n rfl) hfits hact
    exact ⟨h', fun _ hwr => heq ▸ hwr⟩

/-- A whole scan leaves the wrappers that were there. -/
theorem Writes.acts {acts : List (Act w)} (h : Writes c id s) (hfit : Fit c id acts s)
    (hout : StubsOutside c acts) (hrun : runActs c id acts s = .ok s') :
    Writes c id s' ∧ ∀ wr ∈ s.wrappers, wr ∈ s'.wrappers := by
  induction acts generalizing s with
  | nil =>
    obtain rfl := Except.ok.inj hrun
    exact ⟨h, fun _ hwr => hwr⟩
  | cons a acts ih =>
    obtain ⟨s₁, hact, hrun⟩ := bind_ok hrun
    obtain ⟨h₁, hsub⟩ := h.act hfit.1 (fun target n heq => hout target n (heq ▸ List.mem_cons_self)) hact
    obtain ⟨h', hsub'⟩ := ih h₁ (hfit.2 s₁ hact)
      (fun target n hin => hout target n (List.mem_cons_of_mem _ hin)) hrun
    exact ⟨h', fun wr hwr => hsub' wr (hsub wr hwr)⟩

/-- A step of the scanner in a block stays in the blocks, and so does a wrapper that it writes. -/
theorem Act.in_blocks {a : Act w} (hlimit : s.limit ≤ c.traces.toNat) (hfits : a.Fits c s)
    (hact : FunctionCallbacks.act c id s a = .ok s') :
    s'.limit ≤ c.traces.toNat ∧ ∀ wr ∈ s'.wrappers, wr ∈ s.wrappers ∨ wr.start < c.traces.toNat := by
  cases a with
  | emit n =>
    obtain rfl := Except.ok.inj hact
    exact ⟨hlimit, fun _ hwr => Or.inl hwr⟩
  | wrapper f lengths =>
    by_cases hpost : f.postCallback = true
    · obtain ⟨added, table, -, rfl⟩ := wrapper_some hpost hact
      have hfits : s.writeP + 2 * lengths.entry + 4 + 2 * lengths.post ≤ s.limit := hfits
      refine ⟨hlimit, fun wr hwr => ?_⟩
      rcases List.mem_cons.mp hwr with rfl | hwr
      · exact Or.inr (show s.writeP < _ by omega)
      · exact Or.inl hwr
    · rw [FunctionCallbacks.act, functionCallbackWrapper, if_neg hpost] at hact
      obtain rfl := Except.ok.inj hact
      split
      · exact ⟨hlimit, fun _ hwr => Or.inl hwr⟩
      · exact ⟨hlimit, fun _ hwr => Or.inl hwr⟩
  | overflow =>
    obtain ⟨⟨t, block⟩, halloc, hact⟩ := bind_ok hact
    obtain ⟨hlt, hr⟩ := allocateBbOverflow_ok halloc
    obtain ⟨rfl, rfl⟩ := Prod.mk.inj hr
    obtain rfl := Except.ok.inj hact
    exact ⟨block_next c hlt le_rfl, fun _ hwr => Or.inl hwr⟩
  | stub target n =>
    obtain ⟨addr, hlookup, hact⟩ := bind_ok hact
    split at hact
    · obtain ⟨⟨t, blockAddress⟩, -, hact⟩ := bind_ok hact
      obtain rfl := Except.ok.inj hact
      refine ⟨hlimit, fun wr hwr => Or.inl ?_⟩
      dsimp only [standing] at hwr
      split at hwr
      · exact hwr
      · exact nomatch hwr
    · obtain rfl := Except.ok.inj hact
      exact ⟨hlimit, fun _ hwr => Or.inl hwr⟩

theorem runActs_in_blocks {acts : List (Act w)} (hlimit : s.limit ≤ c.traces.toNat) (hfit : Fit c id acts s)
    (hrun : runActs c id acts s = .ok s') : ∀ wr ∈ s'.wrappers, wr ∈ s.wrappers ∨ wr.start < c.traces.toNat := by
  induction acts generalizing s with
  | nil =>
    obtain rfl := Except.ok.inj hrun
    exact fun _ hwr => Or.inl hwr
  | cons a acts ih =>
    obtain ⟨s₁, hact, hrun⟩ := bind_ok hrun
    obtain ⟨hlimit₁, hwrappers⟩ := Act.in_blocks hlimit hfit.1 hact
    intro wr hwr
    rcases ih hlimit₁ (hfit.2 s₁ hact) hrun wr hwr with hwr | hlt
    exacts [hwrappers wr hwr, Or.inr hlt]

/-- Without an overflow the scanner goes forward in one place. -/
theorem Act.forward {a : Act w} (hover : a ≠ .overflow) (hact : FunctionCallbacks.act c id s a = .ok s') :
    s.writeP ≤ s'.writeP ∧ s'.limit = s.limit := by
  cases a with
  | emit n =>
    obtain rfl := Except.ok.inj hact
    exact ⟨Nat.le_add_right _ _, rfl⟩
  | wrapper f lengths =>
    by_cases hpost : f.postCallback = true
    · obtain ⟨added, table, -, rfl⟩ := wrapper_some hpost hact
      refine ⟨?_, rfl⟩
      simp only [Wrapper.stop, Wrapper.back, Writer.wrapper]
      omega
    · rw [FunctionCallbacks.act, functionCallbackWrapper, if_neg hpost] at hact
      obtain rfl := Except.ok.inj hact
      split
      · exact ⟨Nat.le_add_right _ _, rfl⟩
      · exact ⟨le_rfl, rfl⟩
  | overflow => exact absurd rfl hover
  | stub target n =>
    obtain ⟨addr, hlookup, hact⟩ := bind_ok hact
    split at hact
    · obtain ⟨⟨t, blockAddress⟩, -, hact⟩ := bind_ok hact
      obtain rfl := Except.ok.inj hact
      exact ⟨le_rfl, rfl⟩
    · obtain rfl := Except.ok.inj hact
      exact ⟨le_rfl, rfl⟩

theorem runActs_forward {acts : List (Act w)} (hover : .overflow ∉ acts) (hrun : runActs c id acts s = .ok s') :
    s.writeP ≤ s'.writeP ∧ s'.limit = s.limit := by
  induction acts generalizing s with
  | nil =>
    obtain rfl := Except.ok.inj hrun
    exact ⟨le_rfl, rfl⟩
  | cons a acts ih =>
    obtain ⟨s₁, hact, hrun⟩ := bind_ok hrun
    obtain ⟨hle, hlimit⟩ := Act.forward (fun heq => hover (heq ▸ List.mem_cons_self)) hact
    obtain ⟨hle', hlimit'⟩ := ih (fun hin => hover (List.mem_cons_of_mem _ hin)) hrun
    exact ⟨hle.trans hle', hlimit'.trans hlimit⟩

end Writing

section Behind

variable {tr : Traces} {wrappers : List (Wrapper w)} {p n : Nat}

/-- Traces are written behind the wrappers in the traces. -/
structure Behind (c : Cache w) (tr : Traces) (wrappers : List (Wrapper w)) : Prop where
  next : c.traces.toNat ≤ tr.cacheNext
  start : c.traces.toNat ≤ tr.fragmentStart
  exit : c.traces.toNat ≤ tr.exitBranchAddr
  le : tr.exitBranchAddr ≤ tr.writeP
  past : ∀ wr ∈ wrappers, c.traces.toNat ≤ wr.start → wr.stop ≤ tr.exitBranchAddr
  next_even : tr.cacheNext % 2 = 0
  start_even : tr.fragmentStart % 2 = 0
  exit_even : tr.exitBranchAddr % 2 = 0
  even : tr.writeP % 2 = 0

theorem traces_even (c : Cache w) : c.traces.toNat % 2 = 0 := by
  have hcache := c.aligned
  have hsize : codeCacheSize * blockBytes = 14080000 := by decide
  rw [blockBytes] at hcache
  rw [traces_toNat, hsize]
  omega

theorem mem_kept {wr : Wrapper w} : wr ∈ kept c p wrappers ↔
    wr ∈ wrappers ∧ (c.traces.toNat ≤ wr.start → wr.stop ≤ p) := by
  rw [kept, List.mem_filter, decide_eq_true_iff]
  refine and_congr_right fun _ => ⟨fun h hle => h.resolve_left (Nat.not_lt.mpr hle), fun h => ?_⟩
  exact (Nat.lt_or_ge wr.start c.traces.toNat).imp_right h

theorem Behind.of_kept (hp : c.traces.toNat ≤ p) (heven : p % 2 = 0) :
    Behind c ⟨p, p, p, p⟩ (kept c p wrappers) :=
  ⟨hp, hp, hp, le_rfl, fun _ hwr => (mem_kept.mp hwr).2, heven, heven, heven, heven⟩

theorem alignTrace_spec (p : Nat) : p ≤ alignTrace p ∧ alignTrace p % 2 = 0 := by
  rw [alignTrace, traceAlign]
  omega

theorem Behind.mono {wrappers' : List (Wrapper w)} (h : Behind c tr wrappers)
    (hsub : ∀ wr ∈ wrappers', wr ∈ wrappers ∨ wr.start < c.traces.toNat) : Behind c tr wrappers' :=
  { h with past := fun wr hwr hle => h.past wr ((hsub wr hwr).resolve_right (Nat.not_lt.mpr hle)) hle }

theorem Behind.flushed (h : Behind c tr wrappers) :
    Behind c { tr with cacheNext := c.traces.toNat } wrappers :=
  { h with
    next := le_rfl
    next_even := traces_even c }

theorem Behind.after (h : Behind c tr wrappers) (before after : Thread w) :
    Behind c (tr.after c before after) wrappers := by
  rw [Traces.after]
  split
  exacts [h, h.flushed]

end Behind

section Caches

variable {s s' : State w} {t t' : Thread w} {code : Store w} {wrappers : List (Wrapper w)} {out : Writer w} {id : Nat}
  {target : BitVec w} {acts : List (Act w)} {exit : BranchType} {basicBlock : Option Nat}

structure Cached (c : Cache w) (t : Thread w) (code : Store w) (wrappers : List (Wrapper w)) : Prop where
  le_size : t.freeBlock ≤ codeCacheSize
  exits : ∀ j, t.freeBlock ≤ j → j < codeCacheSize → (t.codeCacheMeta j).exitBranchType ≠ .stub
  table : Mapped c t wrappers
  stands : ∀ wr ∈ wrappers, Stands c t code codeCacheSize wr

theorem Placed.any {a b : Nat} (h : Placed c t codeCacheSize a b) (hle : t.freeBlock ≤ codeCacheSize) :
    Placed c t id a b := by
  rcases h with ⟨j, hj, hlow, hhigh, hexit⟩ | htrace
  · exact Or.inl ⟨j, hj, hlow, hhigh, Or.inr (hexit.resolve_left (hj.trans_le hle).ne)⟩
  · exact Or.inr htrace

theorem Stands.any {wr : Wrapper w} (h : Stands c t code codeCacheSize wr) (hle : t.freeBlock ≤ codeCacheSize) :
    Stands c t code id wr :=
  ⟨h.toLocated, h.held, h.placed.any hle⟩

theorem Writes.finish (h : Writes c id out) (hexit : exit ≠ .stub) :
    Cached c (setExit out.thread id exit) out.code out.wrappers := by
  have hself : ((setExit out.thread id exit).codeCacheMeta id).exitBranchType = exit := by
    rw [setExit, setMeta_self]
  have hkept : ∀ j, j ≠ id → (setExit out.thread id exit).codeCacheMeta j = out.thread.codeCacheMeta j :=
    fun j hne => setMeta_of_ne out.thread hne _
  constructor
  case le_size => exact h.le_size
  case exits =>
    intro j hj hsize
    by_cases heq : j = id
    · rw [heq, hself]
      exact hexit
    · rw [hkept j heq]
      exact h.exits j hj hsize
  case table => exact h.table
  case stands =>
    intro wr hwr
    have hstands := h.stands wr hwr
    refine ⟨hstands.toLocated, hstands.held, ?_⟩
    rcases hstands.placed with ⟨j, hj, hlow, hhigh, hplaced⟩ | htrace
    · refine Or.inl ⟨j, hj, hlow, hhigh, Or.inr ?_⟩
      by_cases heq : j = id
      · rw [heq, hself]
        exact hexit
      · rw [hkept j heq]
        exact hplaced.resolve_left heq
    · exact Or.inr htrace

theorem Cached.newBlock (h : Cached c t code wrappers) (hlt : t.freeBlock < codeCacheSize) (hout : Outside c target)
    {value : BitVec w} (hadd : addEntry c (t.take.setMeta t.freeBlock fun m =>
      { m with sourceAddr := target, tpc := c.block t.freeBlock }) target value = .ok t') :
    Writes c t.freeBlock ⟨t', code, wrappers, (c.block t.freeBlock).toNat, (c.block t.freeBlock).toNat + blockBytes,
      c.thumb target⟩ := by
  obtain ⟨added, table, hhash, rfl⟩ := addEntry_eq hadd
  obtain ⟨-, m, hm, -, hothers⟩ := Mapped.add (r := (added, table)) h.table
    (fun wr hwr => (h.stands wr hwr).toLocated.outside hout) hhash
  have htakes : Takes t ((t.take.setMeta t.freeBlock fun m =>
      { m with sourceAddr := target, tpc := c.block t.freeBlock }).setTable table) := take_setMeta t _ table
  constructor
  case le_size => exact hlt
  case exits => exact htakes.exits h.exits
  case table => exact ⟨m, hm, hothers⟩
  case stands => exact fun wr hwr => ((h.stands wr hwr).any h.le_size).mono htakes.extends
  case clear => exact fun wr hwr => (h.stands wr hwr).placed.apart le_rfl hlt
  case placed => exact Or.inl ⟨t.freeBlock, Nat.lt_succ_self _, le_rfl, le_rfl, Or.inl rfl⟩
  case lower => exact (block_upper c hlt).1
  case upper => exact (block_upper c hlt).2
  case even => exact block_even c hlt
  case tag => exact ⟨target, rfl⟩

theorem Cached.flush (h : flushCodeCache c t = .ok t') : Cached c t' code [] ∧ t'.flushes = t.flushes + 1 := by
  obtain ⟨-, hfree⟩ := flush_inv h
  obtain ⟨table, hinit, hflush⟩ := bind_ok h
  obtain ⟨table', hinit', hm⟩ := @hashInit_maps w c.htShift t.entryAddress
  obtain rfl := Except.ok.inj (hinit'.symm.trans (hashResult_ok hinit))
  obtain rfl := Except.ok.inj hflush
  refine ⟨⟨?_, fun j _ hj => ?_, ⟨_, hm, nofun⟩, nofun⟩, rfl⟩
  · exact (c.trampolines.trans_le (Nat.sub_le _ _)).le
  · dsimp only
    rw [if_pos hj, resetMeta]
    exact nofun

theorem addrToBbId_lt {addr : BitVec w} {i : Nat} (htrace : isTrace c addr = false)
    (h : addrToBbId c addr = some i) : i < codeCacheSize := by
  obtain ⟨hmin, hmax⟩ := addrToBbId_some h
  have hnot : ¬ isTrace c addr = true := by
    rw [htrace]
    exact Bool.false_ne_true
  rw [isTrace_iff] at hnot
  have hbytes : codeCacheSize * blockBytes < maxBranchRange := by decide
  have hlt : addr.toNat - c.codeCache.toNat < codeCacheSize * blockBytes := by omega
  rw [addrToBbId] at h
  split at h
  · cases h
  · obtain rfl := Option.some.inj h
    rw [BitVec.toNat_sub_of_le (BitVec.le_def.mpr hmin)]
    exact Nat.div_lt_of_lt_mul (by rwa [Nat.mul_comm])

theorem lookupBb_stub {i : Nat} (h : lookupBb c t target = .ok (uintMax, some i)) :
    i < codeCacheSize ∧ (t.codeCacheMeta i).exitBranchType = .stub := by
  obtain ⟨addr, -, h⟩ := bind_ok h
  split at h
  case isFalse => exact nomatch h
  case isTrue hfound =>
    split at h
    · cases h
    · rename_i j hj
      split at h
      case isFalse => exact absurd (congrArg Prod.fst (Except.ok.inj h)) hfound.1
      case isTrue hstub =>
        obtain rfl := Option.some.inj (congrArg Prod.snd (Except.ok.inj h))
        exact ⟨addrToBbId_lt hfound.2 hj, hstub⟩

/-- The scanner comes to a fragment with the wrappers in place, or with no calls. -/
theorem Cached.starts (h : Cached c s.thread s.code s.wrappers) (hout : Outside c target)
    (hcalm : s.calls = [] ∨ ¬ Flushes c s.thread target)
    (hlookup : lookupBb c s.thread target = .ok (uintMax, basicBlock))
    (henter : enter c s.thread target basicBlock = .ok (t, id)) :
    Writes c id (atBlock c s t id target) ∧ (s.calls = [] ∨ (atBlock c s t id target).wrappers = s.wrappers) ∧
      (atBlock c s t id target).limit ≤ c.traces.toNat := by
  cases basicBlock with
  | none =>
    obtain ⟨⟨t₁, block⟩, halloc, henter⟩ := bind_ok henter
    obtain ⟨t₂, hadd, henter⟩ := bind_ok henter
    obtain ⟨rfl, rfl⟩ := Prod.mk.inj (Except.ok.inj henter)
    by_cases hroom : s.thread.freeBlock < codeCacheSize - codeCacheOverp
    · rw [allocateBb_roomy hroom] at halloc
      obtain ⟨rfl, rfl⟩ := Prod.mk.inj (Except.ok.inj halloc)
      have hflushes : t₂.flushes = s.thread.flushes := by
        obtain ⟨added, table, -, rfl⟩ := addEntry_eq hadd
        rfl
      have hstanding : standing s.thread t₂ s.wrappers = s.wrappers := if_pos hflushes
      have hlt : s.thread.freeBlock < codeCacheSize := hroom.trans_le (Nat.sub_le _ _)
      have hwrites := h.newBlock hlt hout hadd
      rw [atBlock, hstanding]
      exact ⟨hwrites, Or.inr rfl, block_next c hlt le_rfl⟩
    · have hcalls := hcalm.resolve_right (not_not.mpr ⟨not_lt.mp hroom, hlookup⟩)
      rw [allocateBb, if_pos (not_lt.mp hroom)] at halloc
      obtain ⟨t₀, hflush, halloc⟩ := bind_ok halloc
      obtain ⟨rfl, rfl⟩ := Prod.mk.inj (Except.ok.inj halloc)
      obtain ⟨hcached, hflushes⟩ := @Cached.flush _ _ _ _ s.code hflush
      have hfree : t₀.freeBlock < codeCacheSize := by
        rw [(flush_inv hflush).2]
        exact c.trampolines.trans_le (Nat.sub_le _ _)
      have hne : t₂.flushes ≠ s.thread.flushes := by
        obtain ⟨added, table, -, rfl⟩ := addEntry_eq hadd
        exact ne_of_eq_of_ne hflushes (Nat.succ_ne_self _)
      have hstanding : standing s.thread t₂ s.wrappers = [] := if_neg hne
      have hwrites := hcached.newBlock hfree hout hadd
      rw [atBlock, hstanding]
      exact ⟨hwrites, Or.inl hcalls, block_next c hfree le_rfl⟩
  | some i =>
    obtain ⟨hsize, hstub⟩ := lookupBb_stub hlookup
    obtain ⟨⟨t₁, block⟩, halloc, henter⟩ := bind_ok henter
    obtain ⟨rfl, rfl⟩ := Prod.mk.inj (Except.ok.inj halloc)
    obtain ⟨rfl, rfl⟩ := Prod.mk.inj (Except.ok.inj henter)
    have hlt : i < s.thread.freeBlock := by
      by_contra hge
      exact h.exits i (not_lt.mp hge) hsize hstub
    have hkept : ∀ j, ((s.thread.setMeta i fun m => { m with sourceAddr := target, tpc := c.block i }).codeCacheMeta
        j).exitBranchType = (s.thread.codeCacheMeta j).exitBranchType := by
      intro j
      by_cases heq : j = i
      · rw [heq, setMeta_self]
      · rw [setMeta_of_ne _ heq]
    have hext : Extends i s.thread (s.thread.setMeta i fun m => { m with sourceAddr := target, tpc := c.block i }) :=
      ⟨le_rfl, fun j _ _ => hkept j⟩
    have hstanding : standing s.thread (s.thread.setMeta i fun m =>
        { m with sourceAddr := target, tpc := c.block i }) s.wrappers = s.wrappers := if_pos rfl
    rw [atBlock, hstanding]
    refine ⟨?_, Or.inr rfl, block_next c hsize le_rfl⟩
    constructor
    case le_size => exact h.le_size
    case exits => exact fun j hj hjs heq => h.exits j hj hjs ((hkept j).symm.trans heq)
    case table => exact h.table
    case stands => exact fun wr hwr => ((h.stands wr hwr).any h.le_size).mono hext
    case clear => exact fun wr hwr => (h.stands wr hwr).placed.stub_apart h.le_size hsize hstub
    case placed => exact Or.inl ⟨i, hlt, le_rfl, le_rfl, Or.inl rfl⟩
    case lower => exact (block_upper c hsize).1
    case upper => exact (block_upper c hsize).2
    case even => exact block_even c hsize
    case tag => exact ⟨target, rfl⟩

/-- What a scan leaves. The wrappers stay, or there are no calls. -/
structure Scanned (c : Cache w) (s s' : State w) : Prop where
  cached : Cached c s'.thread s'.code s'.wrappers
  behind : Behind c s'.traces s'.wrappers
  sub : s.calls = [] ∨ ∀ wr ∈ s.wrappers, wr ∈ s'.wrappers
  calls : s'.calls = s.calls
  guest : s'.guest = s.guest
  returned : s'.returned = s.returned

theorem standing_sub (before after : Thread w) (wrappers : List (Wrapper w)) :
    ∀ wr ∈ standing before after wrappers, wr ∈ wrappers := by
  rw [standing]
  split
  exacts [fun _ hwr => hwr, nofun]

theorem Cached.scan (h : Cached c s.thread s.code s.wrappers) (hbehind : Behind c s.traces s.wrappers)
    (hout : Outside c target) (hstubs : StubsOutside c acts) (hexit : exit ≠ .stub)
    (hmeets : Meets c s (.lookupOrScan target acts exit))
    (hlookup : lookupBb c s.thread target = .ok (uintMax, basicBlock)) {r : State w × BitVec w}
    (hscan : FunctionCallbacks.scan c s target basicBlock acts exit = .ok r) : Scanned c s r.1 := by
  obtain ⟨⟨t, id⟩, henter, hscan⟩ := bind_ok hscan
  obtain ⟨out, hrun, hscan⟩ := bind_ok hscan
  obtain rfl := Except.ok.inj hscan
  obtain ⟨hwrites, hsame, hlimit⟩ := h.starts hout hmeets.1 hlookup henter
  have hfit := hmeets.2 basicBlock t id hlookup henter
  obtain ⟨hwrites', hsub⟩ := hwrites.acts hfit hstubs hrun
  constructor
  case cached => exact hwrites'.finish hexit
  case behind =>
    refine (hbehind.mono fun wr hwr => ?_).after _ _
    exact (runActs_in_blocks hlimit hfit hrun wr hwr).imp_left (standing_sub _ _ _ wr)
  case sub =>
    refine hsame.imp_right fun heq wr hwr => hsub wr ?_
    rw [heq]
    exact hwr
  all_goals rfl

theorem Cached.lookupOrScan (h : Cached c s.thread s.code s.wrappers) (hbehind : Behind c s.traces s.wrappers)
    (hproper : Proper c s (.lookupOrScan target acts exit)) (hmeets : Meets c s (.lookupOrScan target acts exit))
    {r : State w × BitVec w} (hrun : FunctionCallbacks.lookupOrScan c s target acts exit = .ok r) :
    Scanned c s r.1 := by
  obtain ⟨⟨blockAddress, basicBlock⟩, hlookup, hrun⟩ := bind_ok hrun
  dsimp only at hrun
  split at hrun
  case isTrue =>
    obtain rfl := Except.ok.inj hrun
    exact ⟨h, hbehind, Or.inr fun _ hwr => hwr, rfl, rfl, rfl⟩
  case isFalse hmissing =>
    obtain rfl := not_not.mp hmissing
    exact h.scan hbehind hproper.1 hproper.2.1 hproper.2.2 hmeets hlookup hrun

theorem enterTrace_kept {address writeP : BitVec w} (henter : enterTrace t address writeP = .ok (t', id)) :
    t'.freeBlock = t.freeBlock ∧ t'.entryAddress = t.entryAddress ∧
      ∀ j, (t'.codeCacheMeta j).exitBranchType = (t.codeCacheMeta j).exitBranchType := by
  obtain ⟨⟨t₁, id₁⟩, halloc, henter'⟩ := bind_ok henter
  obtain ⟨rfl, rfl⟩ := Prod.mk.inj (Except.ok.inj henter')
  rw [allocateTraceFragment] at halloc
  split at halloc
  · obtain ⟨rfl, rfl⟩ := Prod.mk.inj (Except.ok.inj halloc)
    refine ⟨rfl, rfl, fun j => ?_⟩
    by_cases heq : j = t.activeTraceId
    · rw [heq, setMeta_self]
    · rw [setMeta_of_ne _ heq]
  · cases halloc

/-- No wrapper is behind the place where the traces go on. -/
theorem Cached.clear_of_behind (h : Cached c t code wrappers) {tr : Traces} (hbehind : Behind c tr wrappers)
    {wr : Wrapper w} (hwr : wr ∈ wrappers) : wr.stop ≤ tr.exitBranchAddr := by
  rcases (h.stands wr hwr).placed with ⟨j, hj, -, hhigh, -⟩ | hstart
  · exact hhigh.trans ((block_next c (hj.trans_le h.le_size) le_rfl).trans hbehind.exit)
  · exact hbehind.past wr hwr hstart

theorem Cached.startsTrace (h : Cached c s.thread s.code s.wrappers) (hbehind : Behind c s.traces s.wrappers)
    {address writeP : BitVec w} (henter : enterTrace s.thread address writeP = .ok (t, id)) :
    Writes c id (atTrace c s t target) := by
  obtain ⟨hfree, htable, hexits⟩ := enterTrace_kept henter
  have htraces := hbehind.exit.trans hbehind.le
  constructor
  case le_size => exact hfree.trans_le h.le_size
  case exits =>
    intro j hj hsize heq
    exact h.exits j (hfree ▸ hj) hsize ((hexits j).symm.trans heq)
  case table =>
    obtain ⟨m, hm, hret⟩ := h.table
    exact ⟨m, htable.symm ▸ hm, hret⟩
  case stands => exact fun wr hwr => ((h.stands wr hwr).any h.le_size).mono ⟨hfree.ge, fun j _ _ => hexits j⟩
  case clear => exact fun wr hwr => Or.inl ((h.clear_of_behind hbehind hwr).trans hbehind.le)
  case placed => exact Or.inr htraces
  case lower =>
    rw [traces_toNat] at htraces
    exact (Nat.le_add_right _ _).trans htraces
  case upper => exact le_rfl
  case even => exact hbehind.even
  case tag => exact ⟨target, rfl⟩

theorem Cached.scanTrace {length : Nat} (h : Cached c s.thread s.code s.wrappers)
    (hbehind : Behind c s.traces s.wrappers) (hproper : Proper c s (.scanTrace target acts exit length))
    (hmeets : Meets c s (.scanTrace target acts exit length))
    (hrun : FunctionCallbacks.scanTrace c s target acts exit length = .ok s') : Scanned c s s' := by
  obtain ⟨⟨t, id⟩, henter, hrun⟩ := bind_ok hrun
  obtain ⟨out, hacts, hrun⟩ := bind_ok hrun
  obtain rfl := Except.ok.inj hrun
  obtain ⟨hstubs, hexit⟩ := hproper
  obtain ⟨hover, hmeets⟩ := hmeets
  obtain ⟨hfit, hroom⟩ := hmeets t id henter
  obtain ⟨hwrites, hsub⟩ := (h.startsTrace hbehind henter).acts hfit hstubs hacts
  obtain ⟨hforward, hlimit⟩ := runActs_forward hover hacts
  have htraces : c.traces.toNat ≤ out.writeP := (hbehind.exit.trans hbehind.le).trans hforward
  have hafter := hbehind.after s.thread (out.write [.other] (2 * length)).thread
  constructor
  case cached => exact (hwrites.write _ (hroom out hacts)).finish hexit
  case behind =>
    constructor
    case next => exact hafter.next
    case start => exact hbehind.exit.trans hbehind.le
    case exit => exact htraces
    case le => exact Nat.le_add_right _ _
    case past =>
      -- the limit of a trace is the end of the cache, so what is clear of it is in front
      intro wr hwr hstart
      have hupper := (hwrites.stands wr hwr).upper
      have hstop : wr.start < wr.stop := by
        rw [Wrapper.stop, Wrapper.back]
        omega
      have hend : out.limit = c.codeCache.toNat + maxBranchRange := hlimit
      exact (hwrites.clear wr hwr).resolve_right (by omega)
    case next_even => exact hafter.next_even
    case start_even => exact hbehind.even
    case exit_even => exact hwrites.even
    case even =>
      have heven := hwrites.even
      show (out.writeP + 2 * length) % 2 = 0
      omega
  case sub => exact Or.inr hsub
  all_goals rfl

/-- Code that is written where the traces go on leaves the wrappers alone. -/
theorem Cached.write (h : Cached c t code wrappers) {tr : Traces} (hbehind : Behind c tr wrappers) {a : Nat}
    (ha : tr.exitBranchAddr ≤ a) (p : Piece (List (Op w))) : Cached c t (overwrite code a p) wrappers :=
  { h with
    stands := fun wr hwr => (h.stands wr hwr).overwrite (Or.inl ((h.clear_of_behind hbehind hwr).trans ha)) }

theorem Cached.keep {p : Nat} (h : Cached c t code wrappers) : Cached c t code (kept c p wrappers) := by
  obtain ⟨m, hm, hret⟩ := h.table
  exact
    { h with
      table := ⟨m, hm, fun wr hwr => hret wr (mem_kept.mp hwr).1⟩
      stands := fun wr hwr => h.stands wr (mem_kept.mp hwr).1 }

theorem Cached.createTrace (h : Cached c t code wrappers) : Cached c (FragmentScans.createTrace t) code wrappers := by
  have hext : Extends codeCacheSize t (FragmentScans.createTrace t) := ⟨le_rfl, fun _ _ _ => rfl⟩
  exact ⟨h.le_size, h.exits, h.table, fun wr hwr => (h.stands wr hwr).mono hext⟩

theorem Cached.installTrace (h : Cached c t code wrappers) {spc tpc : BitVec w} (hout : Outside c spc)
    (hinstall : FragmentScans.installTrace c t spc tpc = .ok t') : Cached c t' code wrappers := by
  obtain ⟨t₁, hadd, hinstall⟩ := bind_ok hinstall
  obtain rfl := Except.ok.inj hinstall
  obtain ⟨added, table, hhash, rfl⟩ := addEntry_eq hadd
  obtain ⟨-, m, hm, -, hothers⟩ := Mapped.add (r := (added, table)) h.table
    (fun wr hwr => (h.stands wr hwr).toLocated.outside hout) hhash
  exact ⟨h.le_size, h.exits, ⟨m, hm, hothers⟩, fun wr hwr => (h.stands wr hwr).mono ⟨le_rfl, fun _ _ _ => rfl⟩⟩

end Caches

section Steps

variable {s s' : State w} {wr : Wrapper w} {f : Call w} {calls : List (Call w)}

structure Active (wrappers : List (Wrapper w)) (f : Call w) (wr : Wrapper w) : Prop where
  standing : wr ∈ wrappers
  func : f.func = wr.func.func
  ret : f.ret = wr.ret
  inner : f.inner = f.es :: f.caller :: f.stack

theorem Active.mono {wrappers wrappers' : List (Wrapper w)} (h : Active wrappers f wr) (hwr : wr ∈ wrappers') :
    Active wrappers' f wr :=
  ⟨hwr, h.func, h.ret, h.inner⟩

theorem toOption_ok {α : Type} {x : Except Stop α} {a : α} (h : x.toOption = some a) : x = .ok a := by
  cases x with
  | error e => exact nomatch h
  | ok b => exact congrArg _ (Option.some.inj h)

structure Good (c : Cache w) (s : State w) : Prop where
  width : c.arch = .aarch32 → w = 32
  cached : Cached c s.thread s.code s.wrappers
  behind : Behind c s.traces s.wrappers
  calls : ∀ f ∈ s.calls, ∃ wr, Active s.wrappers f wr
  posts : s.guest.posts = s.returned

/-- What an address of a wrapper leads to. -/
theorem Stands.back {t : Thread w} {code : Store w} {id : Nat} (h : Stands c t code id wr) :
    code (wr.ret.toNat - (c.thumb wr.ret).toNat) = some ⟨postOps wr.func, 2 * wr.lengths.post⟩ := by
  have hret := h.toLocated.ret_toNat
  obtain ⟨-, -, ⟨hpost, -⟩, -⟩ := h.held
  rw [hret, Nat.add_sub_cancel]
  exact hpost

theorem Good.lookup (h : Good c s) (hactive : Active s.wrappers f wr) :
    hashLookup c.htShift s.thread.entryAddress f.ret = .ok f.ret ∧ f.ret ≠ uintMax ∧
      s.code (f.ret.toNat - (c.thumb f.ret).toNat) = some ⟨postOps wr.func, 2 * wr.lengths.post⟩ := by
  have hstands := h.cached.stands wr hactive.standing
  obtain ⟨m, hm, hret⟩ := h.cached.table
  rw [hactive.ret]
  refine ⟨?_, hstands.toLocated.ret_ne_max h.width, hstands.back⟩
  rw [hm.hashLookup hstands.toLocated.ret_ne_zero, hret wr hactive.standing]
  rfl

theorem run_entry (next : BitVec w) (f : WatchedFunc) (g : Guest w) :
    run next (entryOps f) g = { g with stack := g.es :: g.lr :: g.stack } := by
  rw [entryOps, run]
  cases f.preCallback <;> rfl

/-- Control that comes to a wrapper goes on in the function, with a call through the wrapper. -/
theorem Good.called (h : Good c s) (hwr : wr ∈ s.wrappers) : ∃ g f, enterFunction s wr =
      some { s with
        guest := g
        calls := f :: s.calls } ∧
    Active s.wrappers f wr ∧ g.posts = s.guest.posts := by
  obtain ⟨⟨hentry, -⟩, ⟨hbranch, -⟩, -⟩ := (h.cached.stands wr hwr).held
  refine ⟨{ s.guest with
      pc := BitVec.ofNat w wr.stop ||| wr.thumb
      lr := wr.ret
      stack := s.guest.es :: s.guest.lr :: s.guest.stack },
    ⟨wr.func.func, wr.ret, s.guest.es, s.guest.lr, s.guest.stack, s.guest.es :: s.guest.lr :: s.guest.stack⟩,
    ?_, ⟨hwr, rfl, rfl, rfl⟩, rfl⟩
  rw [enterFunction, hentry, Option.bind_some, hbranch, Option.map_some]
  dsimp only
  rw [run_entry]
  rfl

theorem Good.call (h : Good c s) (hwr : wr ∈ s.wrappers) (hcall : enterFunction s wr = some s') : Good c s' := by
  obtain ⟨g, f, hcalled, hactive, hposts⟩ := h.called hwr
  obtain rfl := Option.some.inj (hcalled.symm.trans hcall)
  refine ⟨h.width, h.cached, h.behind, fun f' hf => ?_, hposts.trans h.posts⟩
  rcases List.mem_cons.mp hf with rfl | hf
  exacts [⟨wr, hactive⟩, h.calls f' hf]

/-- The innermost function returns through its post callback to its caller. -/
theorem Good.ret (h : Good c s) (hactive : Active s.wrappers f wr) (hstack : s.guest.stack = f.inner)
    (x0 x1 : BitVec w) (acts : List (Act w)) (exit : BranchType) :
    returnTo c s f.ret x0 x1 acts exit =
      .ok { s with guest := ⟨f.caller, f.es, f.caller, f.stack, s.guest.posts ++ [f.func]⟩ } := by
  obtain ⟨hlookup, hne, hcode⟩ := h.lookup hactive
  rw [returnTo, hlookup]
  refine (if_pos hne).trans ?_
  rw [goTo, hcode, hstack, hactive.inner, hactive.func]
  rfl

theorem Good.scanned (h : Good c s) (hscanned : Scanned c s s') : Good c s' := by
  refine ⟨h.width, hscanned.cached, hscanned.behind, fun f hf => ?_, ?_⟩
  · rw [hscanned.calls] at hf
    obtain ⟨wr, hactive⟩ := h.calls f hf
    rcases hscanned.sub with hnone | hsub
    · rw [hnone] at hf
      exact nomatch hf
    · exact ⟨wr, hactive.mono (hsub wr hactive.standing)⟩
  · rw [hscanned.guest, hscanned.returned, h.posts]

/-- The calls keep the wrappers that a trace begun again or a fragment given up leaves. -/
theorem Good.held (h : Good c s) (hholds : FunctionCallbacks.Holds s s') : ∀ f ∈ s.calls, ∃ wr, Active s'.wrappers f wr := by
  intro f hf
  obtain ⟨wr, hactive⟩ := h.calls f hf
  exact ⟨wr, hactive.mono (hholds f hf wr hactive.standing hactive.ret)⟩

theorem Good.next {e : Event w} (h : Good c s) (proper : Proper c s e) (meets : Meets c s e)
    (hnext : FunctionCallbacks.next c s e = some s') : Good c s' := by
  cases e with
  | app g =>
    obtain rfl := Option.some.inj hnext
    exact ⟨h.width, h.cached, h.behind, h.calls, proper.trans h.posts⟩
  | call wr => exact h.call meets hnext
  | ret x0 x1 acts exit =>
    obtain ⟨f, calls, hcalls, hstack⟩ := proper
    obtain ⟨wr, hactive⟩ := h.calls f (hcalls ▸ List.mem_cons_self)
    rw [FunctionCallbacks.next, hcalls] at hnext
    dsimp only at hnext
    rw [h.ret hactive hstack] at hnext
    obtain rfl := Option.some.inj hnext
    exact ⟨h.width, h.cached, h.behind, fun f' hf => h.calls f' (hcalls ▸ List.mem_cons_of_mem _ hf),
      congrArg (· ++ [f.func]) h.posts⟩
  | unwind =>
    obtain rfl := Option.some.inj hnext
    exact ⟨h.width, h.cached, h.behind, fun f hf => h.calls f (List.mem_of_mem_tail hf), h.posts⟩
  | lookupOrScan target acts exit =>
    obtain ⟨r, hrun, rfl⟩ := Option.map_eq_some_iff.mp hnext
    exact h.scanned (h.cached.lookupOrScan h.behind proper meets (toOption_ok hrun))
  | createTrace =>
    obtain rfl := Option.some.inj hnext
    obtain ⟨hle, heven⟩ := alignTrace_spec s.traces.cacheNext
    exact ⟨h.width, h.cached.keep.createTrace, .of_kept (h.behind.next.trans hle) heven, h.held meets, h.posts⟩
  | scanTrace target acts exit length =>
    exact h.scanned (h.cached.scanTrace h.behind proper meets (toOption_ok hnext))
  | setUpTraceExit n =>
    obtain rfl := Option.some.inj hnext
    have heven := h.behind.exit_even
    refine ⟨h.width, h.cached.write h.behind le_rfl _, ?_, h.calls, h.posts⟩
    exact
      { h.behind with
        le := Nat.le_add_right _ _
        even := show (s.traces.exitBranchAddr + 2 * n) % 2 = 0 by omega }
  | earlyTraceExit n =>
    obtain rfl := Option.some.inj hnext
    have heven := h.behind.even
    refine ⟨h.width, h.cached.write h.behind h.behind.le _, ?_, h.calls, h.posts⟩
    exact
      { h.behind with
        le := h.behind.le.trans (Nat.le_add_right _ _)
        even := show (s.traces.writeP + 2 * n) % 2 = 0 by omega }
  | giveUpFragment =>
    obtain rfl := Option.some.inj hnext
    have hkept : Behind c _ (kept c s.traces.fragmentStart s.wrappers) := .of_kept h.behind.start h.behind.start_even
    refine ⟨h.width, h.cached.keep, ?_, h.held meets, h.posts⟩
    exact
      { hkept with
        next := h.behind.next
        next_even := h.behind.next_even }
  | installTrace spc tpc n =>
    obtain ⟨t, hinstall, hs⟩ := bind_ok (toOption_ok hnext)
    obtain rfl := Except.ok.inj hs
    have heven := h.behind.even
    have hwritten : (s.traces.writeP + 2 * n) % 2 = 0 := by omega
    refine ⟨h.width, (h.cached.installTrace proper hinstall).write h.behind h.behind.le _, ?_, h.calls, h.posts⟩
    exact
      { h.behind with
        next := ((h.behind.exit.trans h.behind.le)).trans (Nat.le_add_right _ _)
        le := h.behind.le.trans (Nat.le_add_right _ _)
        next_even := hwritten
        even := hwritten }
  | flush =>
    rw [FunctionCallbacks.next] at hnext
    obtain ⟨t, hflush, rfl⟩ := Option.map_eq_some_iff.mp hnext
    have hcalls : s.calls = [] := meets
    refine ⟨h.width, (Cached.flush (toOption_ok hflush)).1, ?_, fun f hf => ?_, h.posts⟩
    · have hnone : Behind c s.traces [] := h.behind.mono nofun
      exact hnone.flushed
    · rw [hcalls] at hf
      exact nomatch hf

theorem Cached.of_starts (h : Starts c s) : Cached c s.thread s.code s.wrappers := by
  obtain ⟨raw, hinit⟩ := h.initial.table
  obtain ⟨table, hinit', hm⟩ := @hashInit_maps w c.htShift raw
  obtain rfl := Except.ok.inj (hinit'.symm.trans hinit)
  refine ⟨?_, fun j _ _ => ?_, ⟨_, hm, ?_⟩, ?_⟩
  · rw [h.initial.freeBlock]
    exact (c.trampolines.trans_le (Nat.sub_le _ _)).le
  · rw [h.exits]
    exact nofun
  · rw [h.wrappers]
    exact nofun
  · rw [h.wrappers]
    exact nofun

theorem Good.of_reaches (h : Reaches c (Meets c) s) : Good c s := by
  induction h with
  | start hstarts =>
    have heven := traces_even c
    refine ⟨hstarts.width, Cached.of_starts hstarts, ?_, ?_, hstarts.returned⟩
    · rw [hstarts.traces, hstarts.wrappers]
      exact ⟨le_rfl, le_rfl, le_rfl, le_rfl, nofun, heven, heven, heven, heven⟩
    · rw [hstarts.calls]
      exact nofun
  | step before proper meets hnext ih => exact ih.next proper meets hnext

end Steps

section Claims

/-- In a run in which no flush comes between the writing of a wrapper and the return of a call
through it: the functions whose post callbacks have run are those that have returned; the
return addresses of the active calls lead to themselves and to their post callbacks; and the
innermost function returns through its post callback to its caller. -/
theorem callbacks_run {s : State w} (h : Reaches c (Meets c) s) :
    s.guest.posts = s.returned ∧
    (∀ f ∈ s.calls, hashLookup c.htShift s.thread.entryAddress f.ret = .ok f.ret ∧
      ∃ p : Piece (List (FunctionCallbacks.Op w)), s.code (f.ret.toNat - (c.thumb f.ret).toNat) = some p ∧
        p.content = [.popIhl, .post f.func, .pop, .branchBySpc]) ∧
    ∀ f calls, s.calls = f :: calls → s.guest.stack = f.inner → ∀ x0 x1 acts exit,
      next c s (.ret x0 x1 acts exit) =
        some { s with
          guest := ⟨f.caller, f.es, f.caller, f.stack, s.guest.posts ++ [f.func]⟩
          calls := calls
          returned := s.returned ++ [f.func] } := by
  have hgood := Good.of_reaches h
  refine ⟨hgood.posts, fun f hf => ?_, fun f calls hcalls hstack x0 x1 acts exit => ?_⟩
  · obtain ⟨wr, hactive⟩ := hgood.calls f hf
    obtain ⟨hlookup, -, hcode⟩ := hgood.lookup hactive
    exact ⟨hlookup, _, hcode, by rw [hactive.func]; rfl⟩
  · obtain ⟨wr, hactive⟩ := hgood.calls f (hcalls ▸ List.mem_cons_self)
    rw [next, hcalls]
    dsimp only
    rw [hgood.ret hactive hstack]
    rfl

end Claims

section Flushed

open FragmentScanRuns (armCache freshThread emptyTable bxAddress bxCount)

variable {s s' : State 32} {t : Thread 32} {i id k : Nat} {basicBlock : Option Nat} {acts : List (Act 32)}

def watched : WatchedFunc := ⟨0, false, true⟩

def watchedLengths : Lengths := ⟨2, 20, by decide, by decide⟩

def watchedWrapper : Wrapper 32 := ⟨watched, watchedLengths, 0x50000200, 0⟩

def freshState : State 32 :=
  ⟨freshThread, fun _ => none,
    ⟨armCache.traces.toNat, armCache.traces.toNat, armCache.traces.toNat, armCache.traces.toNat⟩,
    ⟨0, 0, 0, [], []⟩, [], [], []⟩

/-- The dispatcher is called for the i-th address, and writes some code there. -/
def scanAt (i : Nat) (acts : List (Act 32)) : Event 32 := .lookupOrScan (bxAddress i) acts .uncondRegArm

theorem scanAt_next {out : Writer 32} (hlookup : lookupBb armCache s.thread (bxAddress i) = .ok (uintMax, basicBlock))
    (henter : enter armCache s.thread (bxAddress i) basicBlock = .ok (t, id))
    (hrun : runActs armCache id acts (atBlock armCache s t id (bxAddress i)) = .ok out) :
    next armCache s (scanAt i acts) = some (finish armCache s id .uncondRegArm out) := by
  have hscan : lookupOrScan armCache s (bxAddress i) acts .uncondRegArm =
      .ok (finish armCache s id .uncondRegArm out,
        adjustCcEntry armCache (armCache.block id ||| armCache.thumb (bxAddress i))) := by
    rw [lookupOrScan, hlookup]
    show (if (uintMax : BitVec 32) ≠ uintMax then .ok (s, uintMax)
      else scan armCache s (bxAddress i) basicBlock acts .uncondRegArm) = _
    rw [if_neg (not_not.mpr rfl), scan, henter]
    exact congrArg (fun x => x >>= fun out => Except.ok (finish armCache s id .uncondRegArm out,
      adjustCcEntry armCache (armCache.block id ||| armCache.thumb (bxAddress i)))) hrun
  rw [scanAt, next, hscan]
  rfl

theorem fresh_starts : Starts armCache freshState :=
  ⟨fun _ => rfl, ⟨rfl, ⟨emptyTable, FragmentScanRuns.initLoop_empty slots le_rfl⟩, rfl, rfl, rfl⟩, fun _ => rfl, rfl,
    rfl, rfl, rfl⟩

theorem outside_bx (hi : i ≤ bxCount) : Outside armCache (bxAddress i) := by
  refine ⟨FragmentScanRuns.bxAddress_ne hi, Or.inl ?_⟩
  have hcache : armCache.codeCache.toNat = 0x50000000 := by decide
  rw [FragmentScanRuns.bxAddress_toNat hi, hcache]
  rw [bxCount] at hi
  omega

structure Ready (k : Nat) (t : Thread 32) : Prop where
  free : t.freeBlock = k + 2
  size : t.entryAddress.size = slots
  rest : ∀ j, k ≤ j → (t.entryAddress.entries (0x10000 + 4 * j)).key = 0

theorem Ready.missing (hk : k ≤ bxCount) (h : Ready k t) :
    lookupBb armCache t (bxAddress k) = .ok (uintMax, none) := by
  rw [lookupBb, FragmentScanRuns.missing h.size hk (h.rest k le_rfl)]
  rfl

theorem Ready.enter (hk : k < bxCount) (h : Ready k t) :
    ∃ t' value, FragmentScans.enter armCache t (bxAddress k) none = .ok (t', k + 2) ∧ Ready (k + 1) t' ∧
      t'.entryAddress = store t.entryAddress (bxAddress k) value (0x10000 + 4 * k) := by
  have hlt : t.freeBlock < codeCacheSize - codeCacheOverp := by
    have hlimit : codeCacheSize - codeCacheOverp = 54488 := by decide
    rw [bxCount] at hk
    rw [h.free]
    omega
  obtain ⟨t', value, hadd, hready, htable⟩ : ∃ t' value, addEntry armCache (t.take.setMeta t.freeBlock fun m =>
      { m with sourceAddr := bxAddress k, tpc := armCache.block t.freeBlock }) (bxAddress k)
      (armCache.block t.freeBlock ||| armCache.thumb (bxAddress k)) = .ok t' ∧ Ready (k + 1) t' ∧
      t'.entryAddress = store t.entryAddress (bxAddress k) value (0x10000 + 4 * k) := by
    refine ⟨_, _, FragmentScanRuns.addEntry_empty h.size hk.le (h.rest k le_rfl), ⟨?_, h.size, ?_⟩, rfl⟩
    · exact congrArg (· + 1) h.free
    · exact FragmentScanRuns.store_rest (t := t) fun j hj => h.rest j hj.le
  refine ⟨t', value, ?_, hready, htable⟩
  rw [FragmentScans.enter, allocateBb_roomy hlt, ← h.free]
  refine Eq.trans ?_ (congrArg (fun x => x >>= fun t' => Except.ok (t', t.freeBlock)) hadd)
  rfl

theorem Ready.store {key value : BitVec 32} (h : Ready k t) {a : Nat} (ha : a < 0x10000) :
    Ready k (t.setTable (CodeCacheHash.store t.entryAddress key value a)) := by
  refine ⟨h.free, h.size, fun j hj => ?_⟩
  have hne : 0x10000 + 4 * j ≠ a := by omega
  have hkept : Function.update t.entryAddress.entries a ⟨key, value⟩ (0x10000 + 4 * j) = _ :=
    Function.update_of_ne hne ..
  exact (congrArg HashEntry.key hkept).trans (h.rest j hj)

theorem hashAdd_ret {table : HashTable 32} (hsize : table.size = slots) (hentry : (table.entries 0x208).key = 0) :
    hashAdd armCache.htShift table watchedWrapper.ret watchedWrapper.ret =
      .ok (true, store table watchedWrapper.ret watchedWrapper.ret 0x208) := by
  have hindex : getIndex armCache.htShift table watchedWrapper.ret = 0x208 := by
    rw [getIndex, hsize]
    decide
  rw [hashAdd, hindex, addLoop, if_pos (by decide)]
  exact if_pos (Or.inl hentry)

theorem first_scan : ∃ s, next armCache freshState (scanAt 0 [.wrapper watched watchedLengths]) = some s ∧
    Ready 1 s.thread ∧ watchedWrapper ∈ s.wrappers ∧ s.calls = [] := by
  have hready : Ready 0 freshThread := ⟨rfl, rfl, fun _ _ => rfl⟩
  obtain ⟨t, value, henter, hnext, htable⟩ := hready.enter (by decide)
  have hentry : (t.entryAddress.entries 0x208).key = 0 := by
    rw [htable]
    rfl
  have hadd := hashAdd_ret hnext.size hentry
  have hat : atBlock armCache freshState t 2 (bxAddress 0) =
      ⟨t, fun _ => none, [], 0x50000200, 0x50000300, 0⟩ := by
    have hblock : (armCache.block 2).toNat = 0x50000200 := by decide
    have hthumb : armCache.thumb (bxAddress 0) = 0 := by decide
    have hstanding : standing freshThread t [] = [] := ite_self _
    rw [atBlock, hblock, hthumb]
    exact congrArg (fun wrappers => Writer.mk t (fun _ => none) wrappers 0x50000200 0x50000300 0) hstanding
  have hmapping : ∀ s : Writer 32, s.thread = t → BitVec.ofNat 32 s.writeP ||| s.thumb = watchedWrapper.ret →
      mamboAddIdentityMapping armCache s = .ok { s with
        thread := t.setTable (store t.entryAddress watchedWrapper.ret watchedWrapper.ret 0x208) } := by
    intro s hs haddr
    rw [mamboAddIdentityMapping, haddr, hs, hadd]
    rfl
  obtain ⟨out, hrun, hthread, hwrappers⟩ : ∃ out,
      runActs armCache 2 [.wrapper watched watchedLengths] (atBlock armCache freshState t 2 (bxAddress 0)) = .ok out ∧
      out.thread = t.setTable (store t.entryAddress watchedWrapper.ret watchedWrapper.ret 0x208) ∧
      watchedWrapper ∈ out.wrappers := by
    rw [hat, runActs, act, functionCallbackWrapper, if_pos (show watched.postCallback = true from rfl)]
    dsimp only
    rw [hmapping _ rfl rfl]
    exact ⟨_, rfl, rfl, List.mem_cons_self⟩
  refine ⟨_, scanAt_next (hready.missing (by decide)) henter hrun, ?_, hwrappers, rfl⟩
  have hstored : Ready 1 out.thread := by
    rw [hthread]
    exact hnext.store (by decide)
  exact ⟨hstored.free, hstored.size, hstored.rest⟩

theorem plain_scan (hk : k < bxCount) (h : Ready k s.thread) :
    ∃ s', next armCache s (scanAt k [.emit 2]) = some s' ∧ Ready (k + 1) s'.thread ∧ s'.calls = s.calls := by
  obtain ⟨t, value, henter, hnext, -⟩ := h.enter hk
  exact ⟨_, scanAt_next (h.missing hk.le) henter rfl, ⟨hnext.free, hnext.size, hnext.rest⟩, rfl⟩

theorem plain_scans {P : State 32 → Event 32 → Prop} (hP : ∀ s e, P s e) {n : Nat} (hk : k + n = bxCount)
    (hs : Reaches armCache P s) (h : Ready k s.thread) :
    ∃ s', Reaches armCache P s' ∧ Ready bxCount s'.thread ∧ s'.calls = s.calls := by
  induction n generalizing k s with
  | zero => exact ⟨s, hs, hk ▸ h, rfl⟩
  | succ n ih =>
    obtain ⟨s₁, hnext, hready, hcalls⟩ := plain_scan (by omega) h
    have hproper : Proper armCache s (scanAt k [.emit 2]) :=
      ⟨outside_bx (by omega), fun target m hin => absurd hin (by simp), nofun⟩
    obtain ⟨s', hs', hready', hcalls'⟩ := ih (by omega) (hs.step hproper (hP _ _) hnext) hready
    exact ⟨s', hs', hready', hcalls'.trans hcalls⟩

/-- With no block left the next address flushes the cache, and the return address is lost. -/
theorem flush_scan (h : Ready bxCount s.thread) : ∃ s', next armCache s (scanAt bxCount [.emit 2]) = some s' ∧
    s'.calls = s.calls ∧ hashLookup armCache.htShift s'.thread.entryAddress watchedWrapper.ret = .ok uintMax := by
  have hfull : s.thread.freeBlock ≥ codeCacheSize - codeCacheOverp := by
    rw [h.free]
    decide
  obtain ⟨table, hinit, hm⟩ := @hashInit_maps 32 0 s.thread.entryAddress
  have hempty : (table.entries (0x10000 + 4 * bxCount)).key = 0 := by
    by_contra hne
    have hsome := (hm.stored _ hne _).mpr ⟨_, keys_of_lt table (FragmentScanRuns.bx_slot le_rfl), rfl⟩
    cases hsome
  obtain ⟨t, hflush, rfl⟩ : ∃ t, flushCodeCache armCache s.thread = .ok t ∧ t.entryAddress = table := by
    rw [flushCodeCache, hinit]
    exact ⟨_, rfl, rfl⟩
  have halloc : allocateBb armCache s.thread = .ok (t.take, t.freeBlock) := by
    rw [allocateBb, if_pos hfull, hflush]
    rfl
  obtain ⟨t', hadd⟩ : ∃ t', addEntry armCache (t.take.setMeta t.freeBlock fun m =>
      { m with sourceAddr := bxAddress bxCount, tpc := armCache.block t.freeBlock }) (bxAddress bxCount)
      (armCache.block t.freeBlock ||| armCache.thumb (bxAddress bxCount)) = .ok t' :=
    ⟨_, FragmentScanRuns.addEntry_empty hm.shaped.size_eq le_rfl hempty⟩
  have henter : FragmentScans.enter armCache s.thread (bxAddress bxCount) none = .ok (t', t.freeBlock) := by
    rw [FragmentScans.enter, halloc]
    refine Eq.trans ?_ (congrArg (fun x => x >>= fun t' => Except.ok (t', t.freeBlock)) hadd)
    rfl
  refine ⟨_, scanAt_next (h.missing le_rfl) henter rfl, rfl, ?_⟩
  obtain ⟨added, table, hhash, rfl⟩ := addEntry_eq hadd
  have hm' : Maps armCache.htShift table _ := (hm.hashAdd hhash).2
  have hne : watchedWrapper.ret ≠ bxAddress bxCount := by decide
  show hashLookup armCache.htShift table watchedWrapper.ret = _
  rw [hm'.hashLookup (by decide), Function.update_of_ne hne]
  rfl

theorem lookupOrScan_guest {r : State 32 × BitVec 32} {target : BitVec 32} {exit : BranchType}
    (h : lookupOrScan armCache s target acts exit = .ok r) : r.1.guest = s.guest := by
  obtain ⟨⟨blockAddress, basicBlock⟩, -, h⟩ := bind_ok h
  dsimp only at h
  split at h
  · obtain rfl := Except.ok.inj h
    rfl
  · obtain ⟨⟨t, id⟩, -, h⟩ := bind_ok h
    obtain ⟨out, -, h⟩ := bind_ok h
    obtain rfl := Except.ok.inj h
    rfl

theorem called_run : ∃ s f, Reaches armCache (Meets armCache) s ∧ s.calls = [f] ∧ f.ret = watchedWrapper.ret ∧
    Ready 1 s.thread := by
  obtain ⟨s, hnext, hready, hwr, hcalls⟩ := first_scan
  have hproper : Proper armCache freshState (scanAt 0 [.wrapper watched watchedLengths]) :=
    ⟨outside_bx (by decide), fun target n hin => absurd hin (by simp), nofun⟩
  have hmeets : Meets armCache freshState (scanAt 0 [.wrapper watched watchedLengths]) := by
    refine ⟨Or.inl rfl, fun basicBlock t id _ _ => ⟨?_, fun _ _ => trivial⟩⟩
    show (armCache.block id).toNat + 2 * 2 + 4 + 2 * 20 ≤ (armCache.block id).toNat + blockBytes
    rw [blockBytes]
    omega
  have hs := (Reaches.start fresh_starts).step hproper hmeets hnext
  obtain ⟨g, f, hcalled, hactive, -⟩ := (Good.of_reaches hs).called hwr
  exact ⟨_, f, hs.step (e := .call watchedWrapper) trivial hwr hcalled, by rw [hcalls], hactive.ret, hready⟩

theorem Reaches.mono {P Q : State 32 → Event 32 → Prop} (hPQ : ∀ s e, P s e → Q s e) (h : Reaches armCache P s) :
    Reaches armCache Q s := by
  induction h with
  | start h => exact .start h
  | step before proper cond hnext ih => exact ih.step proper (hPQ _ _ cond) hnext

theorem callbacks_run_called : ∃ (s : State 32) (f : Call 32), s.calls = [f] ∧
    hashLookup armCache.htShift s.thread.entryAddress f.ret = .ok f.ret := by
  obtain ⟨s, f, hs, hcalls, -, -⟩ := called_run
  exact ⟨s, f, hcalls, ((callbacks_run hs).2.1 f (hcalls ▸ List.mem_cons_self)).1⟩

/-- A function is watched and called; while it is active 54486 more addresses are translated,
the last of which flushes the code cache; then its return address leads nowhere, and it returns
without its post callback. -/
theorem callbacks_lost : ∃ s f, Reaches armCache (fun _ _ => True) s ∧ s.calls = [f] ∧
    hashLookup armCache.htShift s.thread.entryAddress f.ret ≠ .ok f.ret ∧
    ∀ x0 x1 acts exit s', next armCache s (.ret x0 x1 acts exit) = some s' → s'.guest.posts = s.guest.posts := by
  obtain ⟨s₁, f, hs₁, hcalls₁, hret, hready⟩ := called_run
  obtain ⟨s₂, hs₂, hready₂, hcalls₂⟩ := plain_scans (fun _ _ => trivial) (show 1 + 54485 = bxCount by decide)
    (Reaches.mono (fun _ _ _ => trivial) hs₁) hready
  obtain ⟨s₃, hnext, hcalls₃, hlookup⟩ := flush_scan hready₂
  have hproper : Proper armCache s₂ (scanAt bxCount [.emit 2]) :=
    ⟨outside_bx le_rfl, fun target n hin => absurd hin (by simp), nofun⟩
  have hcalls : s₃.calls = [f] := by rw [hcalls₃, hcalls₂, hcalls₁]
  rw [← hret] at hlookup
  refine ⟨s₃, f, hs₂.step hproper trivial hnext, hcalls, ?_, fun x0 x1 acts exit s' h => ?_⟩
  · rw [hlookup, hret]
    exact fun heq => absurd (Except.ok.inj heq) (by decide)
  · rw [next, hcalls] at h
    obtain ⟨s', hreturn, rfl⟩ := Option.map_eq_some_iff.mp h
    have hreturn := toOption_ok hreturn
    rw [returnTo, hlookup] at hreturn
    obtain ⟨addr, haddr, hreturn⟩ := bind_ok hreturn
    obtain rfl := Except.ok.inj haddr
    rw [if_neg (not_not.mpr rfl)] at hreturn
    obtain ⟨r, hscan, hreturn⟩ := bind_ok hreturn
    obtain rfl := Except.ok.inj hreturn
    have hposts : r.1.guest.posts = s₃.guest.posts := congrArg Guest.posts (lookupOrScan_guest hscan)
    exact hposts

end Flushed

end Mambo.FunctionCallbackRuns
