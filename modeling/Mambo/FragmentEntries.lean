import Mambo.FragmentScans
import Mambo.TraceLog

namespace Mambo.FragmentEntries

open CodeCacheHash HashRefines FragmentScans
open TraceLog (bind_ok)
open TraceState (codeCacheSize codeCacheOverp blockBytes maxBranchRange)

variable {w : Nat} {c : Cache w}

section Addresses

variable {id : Nat} {a addr k : BitVec w}

theorem width (c : Cache w) : 2 ^ 25 ≤ 2 ^ w := by
  have hroom := c.room
  refine Nat.pow_le_pow_right (by decide) ?_
  by_contra hlt
  have hle : 2 ^ w ≤ 2 ^ 24 := Nat.pow_le_pow_right (by decide) (by omega)
  have hrange : maxBranchRange = 2 ^ 24 := rfl
  omega

theorem bytes_le (hid : id ≤ codeCacheSize) : id * blockBytes ≤ 14080000 :=
  Nat.mul_le_mul_right blockBytes hid

theorem room (c : Cache w) : c.codeCache.toNat + 16777216 < 2 ^ w := c.room

theorem block_toNat (c : Cache w) (hid : id ≤ codeCacheSize) :
    (c.block id).toNat = c.codeCache.toNat + id * blockBytes := by
  have hroom := room c
  have hbytes := bytes_le hid
  have hoffset : id * blockBytes < 2 ^ w := by omega
  have hsum : c.codeCache.toNat + id * blockBytes < 2 ^ w := by omega
  rw [Cache.block, BitVec.toNat_add, BitVec.toNat_ofNat, Nat.mod_eq_of_lt hoffset, Nat.mod_eq_of_lt hsum]

theorem one_toNat (c : Cache w) : (1 : BitVec w).toNat = 1 := by
  have hwidth := width c
  show 1 % 2 ^ w = 1
  exact Nat.mod_eq_of_lt (by omega)

theorem and_one_toNat (c : Cache w) (a : BitVec w) : (a &&& 1).toNat = a.toNat % 2 := by
  rw [BitVec.toNat_and, one_toNat c, Nat.and_one_is_mod]

theorem thumb_lt (c : Cache w) (a : BitVec w) : (c.thumb a).toNat < 2 := by
  rw [Cache.thumb]
  split
  · rw [and_one_toNat c]
    omega
  · exact (Nat.zero_mod (2 ^ w)).trans_lt (by decide)

theorem block_dvd (c : Cache w) (hid : id ≤ codeCacheSize) : (c.block id).toNat % blockBytes = 0 := by
  have haligned := c.aligned
  rw [block_toNat c hid, Nat.add_mul_mod_self_right, haligned]

theorem entry_toNat (hid : id ≤ codeCacheSize) :
    (c.block id ||| c.thumb a).toNat = (c.block id).toNat + (c.thumb a).toNat := by
  have hthumb := thumb_lt c a
  have hdvd := block_dvd c hid
  obtain ⟨q, hq⟩ : ∃ q, (c.block id).toNat = 2 ^ 1 * q :=
    ⟨(c.block id).toNat / 2, by rw [blockBytes] at hdvd; omega⟩
  rw [BitVec.toNat_or, hq, Nat.two_pow_add_eq_or_of_lt (by omega)]

theorem entry_add (hid : id ≤ codeCacheSize) : c.block id + c.thumb a = c.block id ||| c.thumb a := by
  have hthumb := thumb_lt c a
  have hblock := block_toNat c hid
  have hroom := room c
  have hbytes := bytes_le hid
  have hsum : (c.block id).toNat + (c.thumb a).toNat < 2 ^ w := by omega
  apply BitVec.eq_of_toNat_eq
  rw [entry_toNat hid, BitVec.toNat_add, Nat.mod_eq_of_lt hsum]

theorem uintMax_mod (c : Cache w) : (uintMax : BitVec w).toNat % blockBytes = 255 := by
  have hw : 25 ≤ w := (Nat.pow_le_pow_iff_right (by decide)).mp (width c)
  have hdvd : 2 ^ 8 ∣ 2 ^ w := Nat.pow_dvd_pow 2 (by omega)
  rw [uintMax, BitVec.toNat_ofNat]
  exact (Nat.mod_mod_of_dvd _ hdvd).trans rfl

theorem skip_toNat (c : Cache w) (addr : BitVec w) :
    ((4 : BitVec w) - ((addr &&& 1) <<< 1)).toNat = 4 - 2 * (addr.toNat % 2) := by
  have hwidth := width c
  have hbit := and_one_toNat c addr
  have hfour : (4 : BitVec w).toNat = 4 := Nat.mod_eq_of_lt (by omega : 4 < 2 ^ w)
  have hshift : ((addr &&& 1) <<< 1).toNat = 2 * (addr.toNat % 2) := by
    rw [BitVec.toNat_shiftLeft, hbit, Nat.shiftLeft_eq, Nat.mod_eq_of_lt (by omega)]
    omega
  rw [BitVec.toNat_sub, hshift, hfour]
  rcases Nat.mod_two_eq_zero_or_one addr.toNat with hzero | hone
  · rw [hzero, Nat.mul_zero, Nat.sub_zero, Nat.add_mod_left, Nat.mod_eq_of_lt (by omega)]
  · have hsum : 2 ^ w - 2 * (addr.toNat % 2) + 4 = 2 ^ w + 2 := by omega
    rw [hsum, Nat.add_mod_left, Nat.mod_eq_of_lt (by omega), hone]

theorem adjust_toNat (hid : id < codeCacheSize) : ∃ d, d ≤ 4 ∧
    (adjustCcEntry c (c.block id ||| c.thumb a)).toNat = c.codeCache.toNat + id * blockBytes + d := by
  have hthumb := thumb_lt c a
  have hblock := block_toNat c hid.le
  have hentry := @entry_toNat w c id a hid.le
  have hdvd := block_dvd c hid.le
  have hroom := room c
  have hbytes := bytes_le hid.le
  rw [adjustCcEntry]
  split
  · have hskip := skip_toNat c (c.block id ||| c.thumb a)
    have hbit : (c.block id ||| c.thumb a).toNat % 2 = (c.thumb a).toNat := by
      rw [hentry]
      rw [blockBytes] at hdvd
      omega
    rw [hbit] at hskip
    have hsum : (c.block id ||| c.thumb a).toNat + (4 - 2 * (c.thumb a).toNat) < 2 ^ w := by omega
    refine ⟨4 - (c.thumb a).toNat, by omega, ?_⟩
    rw [BitVec.toNat_add, hskip, Nat.mod_eq_of_lt hsum]
    omega
  · exact ⟨(c.thumb a).toNat, by omega, by rw [hentry, hblock]⟩

theorem adjust_ne (hid : id < codeCacheSize) : adjustCcEntry c (c.block id ||| c.thumb a) ≠ uintMax := by
  obtain ⟨d, hd, hadjust⟩ := @adjust_toNat w c id a hid
  have hmax := uintMax_mod c
  have haligned := c.aligned
  intro heq
  rw [← heq, hadjust] at hmax
  simp only [blockBytes] at *
  omega

theorem traces_toNat (c : Cache w) : c.traces.toNat = c.codeCache.toNat + codeCacheSize * blockBytes :=
  block_toNat c le_rfl

theorem end_toNat (c : Cache w) : (c.traces + BitVec.ofNat w (maxBranchRange - codeCacheSize * blockBytes)).toNat =
    c.codeCache.toNat + maxBranchRange := by
  have hroom := room c
  have hbytes : codeCacheSize * blockBytes = 14080000 := by decide
  have hrange : maxBranchRange = 16777216 := by decide
  have hfits : maxBranchRange - codeCacheSize * blockBytes < 2 ^ w := by omega
  have hsum : c.codeCache.toNat + codeCacheSize * blockBytes + (maxBranchRange - codeCacheSize * blockBytes) < 2 ^ w := by
    omega
  rw [BitVec.toNat_add, BitVec.toNat_ofNat, traces_toNat, Nat.mod_eq_of_lt hfits, Nat.mod_eq_of_lt hsum]
  omega

theorem isTrace_iff : isTrace c addr = true ↔
    c.codeCache.toNat + codeCacheSize * blockBytes ≤ addr.toNat ∧ addr.toNat < c.codeCache.toNat + maxBranchRange := by
  rw [isTrace, decide_eq_true_iff, BitVec.le_def, BitVec.lt_def, traces_toNat, end_toNat]

theorem isTrace_adjust (hid : id < codeCacheSize) : isTrace c (adjustCcEntry c (c.block id ||| c.thumb a)) = false := by
  obtain ⟨d, hd, hadjust⟩ := @adjust_toNat w c id a hid
  by_contra htrace
  have hle := (isTrace_iff.mp (Bool.eq_true_of_not_eq_false htrace)).1
  rw [hadjust] at hle
  have hnext : (id + 1) * blockBytes ≤ codeCacheSize * blockBytes := Nat.mul_le_mul_right blockBytes hid
  rw [Nat.add_mul, one_mul] at hnext
  have hblock : blockBytes = 256 := rfl
  omega

theorem addrToBbId_some {i : Nat} (h : addrToBbId c addr = some i) :
    c.codeCache.toNat ≤ addr.toNat ∧ addr.toNat ≤ c.codeCache.toNat + codeCacheSize * blockBytes := by
  rw [addrToBbId] at h
  split at h
  · cases h
  · rename_i hin
    have hmin : c.codeCache ≤ addr := BitVec.not_lt.mp fun hlt => hin (Or.inl hlt)
    have hmax : addr ≤ c.traces := BitVec.not_lt.mp fun hlt => hin (Or.inr hlt)
    rw [BitVec.le_def] at hmax
    rw [traces_toNat] at hmax
    exact ⟨BitVec.le_def.mp hmin, hmax⟩

theorem addrToBbId_adjust (hid : id < codeCacheSize) :
    addrToBbId c (adjustCcEntry c (c.block id ||| c.thumb a)) = some id := by
  obtain ⟨d, hd, hadjust⟩ := @adjust_toNat w c id a hid
  have hnext : (id + 1) * blockBytes ≤ codeCacheSize * blockBytes := Nat.mul_le_mul_right blockBytes hid
  rw [Nat.add_mul, one_mul] at hnext
  have hblock : blockBytes = 256 := rfl
  have hmin : c.codeCache ≤ adjustCcEntry c (c.block id ||| c.thumb a) := BitVec.le_def.mpr (by omega)
  have hmax : adjustCcEntry c (c.block id ||| c.thumb a) ≤ c.traces := by
    rw [BitVec.le_def, traces_toNat]
    omega
  rw [addrToBbId, if_neg (not_or.mpr ⟨BitVec.not_lt.mpr hmin, BitVec.not_lt.mpr hmax⟩), BitVec.toNat_sub_of_le hmin,
    hadjust, Nat.add_assoc, Nat.add_sub_cancel_left, hblock, Nat.mul_comm, Nat.mul_add_div (by decide),
    Nat.div_eq_of_lt (by omega), Nat.add_zero]

theorem addrToBbId_trace (htrace : isTrace c addr = true) (hadjust : isTrace c (adjustCcEntry c addr) = false) :
    addrToBbId c (adjustCcEntry c addr) = none := by
  obtain ⟨hle, hlt⟩ := isTrace_iff.mp htrace
  have hnot : ¬isTrace c (adjustCcEntry c addr) = true := by
    rw [hadjust]
    exact Bool.false_ne_true
  by_contra hsome
  obtain ⟨i, hi⟩ := Option.ne_none_iff_exists'.mp hsome
  obtain ⟨hmin, hmax⟩ := addrToBbId_some hi
  rw [isTrace_iff] at hnot
  have hroom := room c
  have hwidth := width c
  have hblocks : codeCacheSize * blockBytes = 14080000 := rfl
  have hrange : maxBranchRange = 16777216 := rfl
  rw [adjustCcEntry] at hmin hmax hnot
  split at hmin
  · rename_i harm
    rw [if_pos harm, BitVec.toNat_add, skip_toNat c] at hmax
    rw [if_pos harm, BitVec.toNat_add, skip_toNat c] at hnot
    rw [BitVec.toNat_add, skip_toNat c] at hmin
    rcases Nat.lt_or_ge (addr.toNat + (4 - 2 * (addr.toNat % 2))) (2 ^ w) with hfit | hwrap
    · rw [Nat.mod_eq_of_lt hfit] at hmin hmax hnot
      omega
    · rw [Nat.mod_eq_sub_mod hwrap, Nat.mod_eq_of_lt (by omega)] at hmin
      omega
  · rename_i hsame
    rw [if_neg hsame] at hnot
    exact hnot ⟨hle, hlt⟩

end Addresses

section Invariant

variable {t t' t₀ : Thread w} {id n : Nat} {key value target address : BitVec w}

def Entry (c : Cache w) (t : Thread w) (key value : BitVec w) : Prop :=
  (∃ id < t.freeBlock, value = c.block id ||| c.thumb key) ∨ isTrace c value = true

structure Inv (c : Cache w) (t : Thread w) : Prop where
  le_size : t.freeBlock ≤ codeCacheSize
  nodup : t.allocated.Nodup
  lt : ∀ i ∈ t.allocated, i < t.freeBlock
  traceId : codeCacheSize ≤ t.traceId
  activeTraceId : codeCacheSize ≤ t.activeTraceId
  table : ∃ m, Maps c.htShift t.entryAddress m ∧ ∀ k v, k ≠ 0 → m k = some v → Entry c t k v

theorem Inv.distinct (h : Inv c t) : Distinct t :=
  ⟨h.nodup, fun i hi => (h.lt i hi).trans_le h.le_size⟩

theorem Entry.mono (h : Entry c t key value) (hle : t.freeBlock ≤ t'.freeBlock) : Entry c t' key value := by
  rcases h with ⟨i, hi, hv⟩ | htrace
  · exact Or.inl ⟨i, hi.trans_le hle, hv⟩
  · exact Or.inr htrace

theorem Inv.take (h : Inv c t) (hlt : t.freeBlock < codeCacheSize) : Inv c t.take where
  le_size := hlt
  nodup := List.nodup_cons.mpr ⟨fun hin => absurd (h.lt _ hin) (lt_irrefl _), h.nodup⟩
  lt i hi := by
    rcases List.mem_cons.mp hi with rfl | hin
    · exact Nat.lt_succ_self _
    · exact (h.lt i hin).trans (Nat.lt_succ_self _)
  traceId := h.traceId
  activeTraceId := h.activeTraceId
  table := by
    obtain ⟨m, hm, hentries⟩ := h.table
    exact ⟨m, hm, fun k v hk hv => (hentries k v hk hv).mono (Nat.le_succ _)⟩

theorem Inv.setMeta (h : Inv c t) (id : Nat) (f : CodeCacheMeta w → CodeCacheMeta w) : Inv c (t.setMeta id f) :=
  ⟨h.le_size, h.nodup, h.lt, h.traceId, h.activeTraceId, h.table⟩

/-- What a scan leaves as it was: no flush, the addresses of the blocks, and the entries of the table. -/
structure Grows (c : Cache w) (t t' : Thread w) : Prop where
  flushes : t'.flushes = t.flushes
  le : t.freeBlock ≤ t'.freeBlock
  source : ∀ i < t.freeBlock, (t'.codeCacheMeta i).sourceAddr = (t.codeCacheMeta i).sourceAddr
  tpc : ∀ i < t.freeBlock, (t'.codeCacheMeta i).tpc = (t.codeCacheMeta i).tpc
  found : ∀ k id, k ≠ 0 → id < codeCacheSize →
    hashLookup c.htShift t.entryAddress k = .ok (c.block id ||| c.thumb k) →
    hashLookup c.htShift t'.entryAddress k = .ok (c.block id ||| c.thumb k)

theorem Grows.refl (c : Cache w) (t : Thread w) : Grows c t t :=
  ⟨rfl, le_rfl, fun _ _ => rfl, fun _ _ => rfl, fun _ _ _ _ h => h⟩

theorem Grows.trans (h : Grows c t₀ t) (h' : Grows c t t') : Grows c t₀ t' where
  flushes := h'.flushes.trans h.flushes
  le := h.le.trans h'.le
  source i hi := (h'.source i (hi.trans_le h.le)).trans (h.source i hi)
  tpc i hi := (h'.tpc i (hi.trans_le h.le)).trans (h.tpc i hi)
  found k id hk hid hfound := h'.found k id hk hid (h.found k id hk hid hfound)

theorem take_grows (c : Cache w) (t : Thread w) : Grows c t t.take :=
  ⟨rfl, Nat.le_succ _, fun _ _ => rfl, fun _ _ => rfl, fun _ _ _ _ h => h⟩

@[simp] theorem setMeta_self (t : Thread w) (id : Nat) (f : CodeCacheMeta w → CodeCacheMeta w) :
    (t.setMeta id f).codeCacheMeta id = f (t.codeCacheMeta id) :=
  Function.update_self ..

theorem setMeta_of_ne (t : Thread w) {i : Nat} (hne : i ≠ id) (f : CodeCacheMeta w → CodeCacheMeta w) :
    (t.setMeta id f).codeCacheMeta i = t.codeCacheMeta i :=
  Function.update_of_ne hne ..

theorem setMeta_grows (c : Cache w) (t : Thread w) (id : Nat) {f : CodeCacheMeta w → CodeCacheMeta w}
    (hsource : ∀ m, (f m).sourceAddr = m.sourceAddr) (htpc : ∀ m, (f m).tpc = m.tpc) : Grows c t (t.setMeta id f) where
  flushes := rfl
  le := le_rfl
  source i _ := by
    by_cases heq : i = id
    · rw [heq, setMeta_self, hsource]
    · rw [setMeta_of_ne t heq]
  tpc i _ := by
    by_cases heq : i = id
    · rw [heq, setMeta_self, htpc]
    · rw [setMeta_of_ne t heq]
  found _ _ _ _ h := h

theorem setExit_grows (c : Cache w) (t : Thread w) (id : Nat) (type : BranchType) : Grows c t (setExit t id type) :=
  setMeta_grows c t id (fun _ => rfl) fun _ => rfl

theorem setActualId_grows (c : Cache w) (t : Thread w) (id curBlock : Nat) : Grows c t (setActualId t id curBlock) :=
  setMeta_grows c t id (fun _ => rfl) fun _ => rfl

theorem hashResult_ok {α : Type} {x : Except Fault α} {a : α} (h : hashResult x = .ok a) : x = .ok a := by
  cases x with
  | error f => exact nomatch h
  | ok b => exact congrArg _ (Except.ok.inj h)

theorem addEntry_spec (h : Inv c t) (hentry : Entry c t key value) (hadd : addEntry c t key value = .ok t') :
    Inv c t' ∧ ∃ table, t' = t.setTable table ∧ (key ≠ 0 → hashLookup c.htShift t'.entryAddress key = .ok value) ∧
      ∀ k, k ≠ 0 → k ≠ key → hashLookup c.htShift t'.entryAddress k = hashLookup c.htShift t.entryAddress k := by
  obtain ⟨⟨added, table⟩, hhash, hadd⟩ := bind_ok hadd
  obtain ⟨m, hm, hentries⟩ := h.table
  obtain ⟨hadded, hm'⟩ := hm.hashAdd (hashResult_ok hhash)
  simp only at hadded hm' hadd
  rw [hadded, if_pos rfl] at hadd
  obtain rfl := Except.ok.inj hadd
  refine ⟨⟨h.le_size, h.nodup, h.lt, h.traceId, h.activeTraceId, _, hm', fun k v hk hv => ?_⟩, table, rfl, ?_, ?_⟩
  · by_cases heq : k = key
    · subst heq
      rw [Function.update_self] at hv
      obtain rfl := Option.some.inj hv
      exact hentry
    · rw [Function.update_of_ne heq] at hv
      exact hentries k v hk hv
  · intro hkey
    rw [Thread.setTable, hm'.hashLookup hkey, Function.update_self]
    rfl
  · intro k hk heq
    rw [Thread.setTable, hm'.hashLookup hk, hm.hashLookup hk, Function.update_of_ne heq]

/-- An entry is only added for an address that has none. -/
theorem addEntry_grows (h : Inv c t) (hentry : Entry c t key value) (hmissing : ccLookup c t key = .ok uintMax)
    (hadd : addEntry c t key value = .ok t') : Grows c t t' := by
  obtain ⟨-, table, rfl, -, hother⟩ := addEntry_spec h hentry hadd
  refine ⟨rfl, le_rfl, fun _ _ => rfl, fun _ _ => rfl, fun k id hk hid hfound => ?_⟩
  have hne : k ≠ key := by
    rintro rfl
    rw [ccLookup, hfound] at hmissing
    exact adjust_ne hid (Except.ok.inj hmissing)
  rw [hother k hk hne, hfound]

theorem flush_inv (h : flushCodeCache c t = .ok t') : Inv c t' ∧ t'.freeBlock = c.trampolinesSizeBbs := by
  obtain ⟨table, hinit, hflush⟩ := bind_ok h
  obtain ⟨table', hinit', hm⟩ := @hashInit_maps w c.htShift t.entryAddress
  obtain rfl := Except.ok.inj (hinit'.symm.trans (hashResult_ok hinit))
  obtain rfl := Except.ok.inj hflush
  have htrampolines := c.trampolines
  refine ⟨⟨?_, List.nodup_nil, fun i hi => absurd hi List.not_mem_nil, le_rfl, le_rfl, _, hm, ?_⟩, rfl⟩
  · exact (htrampolines.trans_le (Nat.sub_le _ _)).le
  · exact fun k v _ hv => absurd hv nofun

theorem allocateBb_spec {r : Thread w × Nat} (h : Inv c t) (halloc : allocateBb c t = .ok r) :
    Inv c r.1 ∧ r.2 < r.1.freeBlock ∧ r.1.freeBlock ≤ codeCacheSize - codeCacheOverp := by
  have htake : ∀ t₁ : Thread w, Inv c t₁ → t₁.freeBlock < codeCacheSize - codeCacheOverp →
      Inv c t₁.take ∧ t₁.freeBlock < t₁.take.freeBlock ∧ t₁.take.freeBlock ≤ codeCacheSize - codeCacheOverp :=
    fun t₁ hinv hlt => ⟨hinv.take (hlt.trans_le (Nat.sub_le _ _)), Nat.lt_succ_self _, hlt⟩
  rw [allocateBb] at halloc
  split at halloc
  · obtain ⟨t₁, hflush, halloc⟩ := bind_ok halloc
    obtain rfl := Except.ok.inj halloc
    obtain ⟨hinv, hfree⟩ := flush_inv hflush
    exact htake t₁ hinv (hfree ▸ c.trampolines)
  · rename_i hlt
    obtain rfl := Except.ok.inj halloc
    exact htake t h (not_le.mp hlt)

theorem allocateBb_roomy (hlt : t.freeBlock < codeCacheSize - codeCacheOverp) :
    allocateBb c t = .ok (t.take, t.freeBlock) := by
  rw [allocateBb, if_neg (not_le.mpr hlt)]
  rfl

/-- A stub in front of the reserve does not disturb the fragment that asks for it. -/
theorem lookupOrStub_spec {r : Thread w × BitVec w} (h : Inv c t)
    (hroom : ccLookup c t target = .ok uintMax → t.freeBlock < codeCacheSize - codeCacheOverp)
    (hstub : lookupOrStub c t target = .ok r) : Inv c r.1 ∧ Grows c t r.1 ∧
      (∀ i < t.freeBlock, (r.1.codeCacheMeta i).exitBranchType = (t.codeCacheMeta i).exitBranchType) ∧
      (r.1.freeBlock = t.freeBlock ∨ r.1.freeBlock ≤ codeCacheSize - codeCacheOverp) := by
  obtain ⟨addr, hlookup, hstub⟩ := bind_ok hstub
  split at hstub
  · rename_i hmissing
    rw [hmissing] at hlookup
    have hlt := hroom hlookup
    have hsize : t.freeBlock < codeCacheSize := hlt.trans_le (Nat.sub_le _ _)
    obtain ⟨⟨t₁, block⟩, halloc, hstub⟩ := bind_ok hstub
    rw [allocateBb_roomy hlt] at halloc
    obtain ⟨rfl, rfl⟩ := Prod.mk.inj (Except.ok.inj halloc)
    obtain ⟨t₂, hadd, hstub⟩ := bind_ok hstub
    split at hstub
    · cases hstub
    obtain rfl := Except.ok.inj hstub
    have hinv := (h.take hsize).setMeta t.freeBlock fun m => { m with exitBranchType := .stub }
    have hentry : Entry c (t.take.setMeta t.freeBlock fun m => { m with exitBranchType := .stub }) target
        (c.block t.freeBlock + c.thumb target) := Or.inl ⟨t.freeBlock, Nat.lt_succ_self _, entry_add hsize.le⟩
    have hgrows : Grows c t (t.take.setMeta t.freeBlock fun m => { m with exitBranchType := .stub }) :=
      (take_grows c t).trans (setMeta_grows c _ _ (fun _ => rfl) fun _ => rfl)
    obtain ⟨hinv', table, rfl, -, -⟩ := addEntry_spec hinv hentry hadd
    refine ⟨hinv', hgrows.trans (addEntry_grows hinv hentry hlookup hadd), fun i hi => ?_, Or.inr hlt⟩
    have hkept := setMeta_of_ne t.take hi.ne fun m => { m with exitBranchType := .stub }
    exact congrArg CodeCacheMeta.exitBranchType hkept
  · obtain rfl := Except.ok.inj hstub
    exact ⟨h, Grows.refl c t, fun _ _ => rfl, Or.inl rfl⟩

theorem allocateBbOverflow_ok {r : Thread w × Nat} (halloc : allocateBbOverflow t = .ok r) :
    t.freeBlock < codeCacheSize ∧ r = (t.take, t.freeBlock) := by
  rw [allocateBbOverflow] at halloc
  split at halloc
  · exact ⟨‹_›, (Except.ok.inj halloc).symm⟩
  · cases halloc

end Invariant

end Mambo.FragmentEntries
