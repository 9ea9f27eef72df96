import Mambo.ElfLoad

namespace Mambo.ElfLoadExact

open Bytes PageMaps ElfLoad

variable (K : Kernel)

section Segments

/-- A segment whose pages can be mapped from a file that holds it. -/
structure Fits (f : File) (ph : Phdr) : Prop where
  sizes : ph.filesz ≤ ph.memsz
  congruent : ph.offset % K.pageSize = ph.vaddr % K.pageSize
  held : 0 < ph.filesz → ph.offset + ph.filesz ≤ f.size

/-- The file mapping is not empty, and where the rest of its last page is cleared the page is there. -/
def Maps (f : File) (ph : Phdr) : Prop :=
  ph.filesz + ph.vaddr % K.pageSize ≠ 0 ∧ (ph.writable = true → ph.offset - ph.vaddr % K.pageSize < f.size)

/-- Where the rest of the last page is not cleared, the file has zeros there, as far as they belong to the segment. -/
def Zeroed (f : File) (ph : Phdr) : Prop :=
  ph.writable = false → ∀ k, ph.filesz ≤ k → k < ph.memsz →
    ph.vaddr % K.pageSize + k < alignHigher (ph.filesz + ph.vaddr % K.pageSize) K.pageSize →
      f.mapped K.pageSize (ph.offset + k) = some 0

/-- What the pages of a segment hold. -/
def content (f : File) (ph : Phdr) (d : Nat) : Option Byte :=
  if alignHigher (ph.filesz + ph.vaddr % K.pageSize) K.pageSize ≤ d then some 0
  else if ph.writable = true ∧ ph.vaddr % K.pageSize + ph.filesz ≤ d then some 0
  else f.mapped K.pageSize (ph.offset - ph.vaddr % K.pageSize + d)

/-- A segment in the address space. -/
def mapped (f : File) (mem : Space) (ph : Phdr) : Space :=
  mapAt mem (alignLower ph.vaddr K.pageSize) (alignHigher (ph.memsz + ph.vaddr % K.pageSize) K.pageSize) (content K f ph)

variable {K} {f : File} {ph : Phdr} {mem : Space} {base : Nat}

theorem segmentEnd_eq (ph : Phdr) : segmentEnd K ph =
    alignLower ph.vaddr K.pageSize + alignHigher (ph.memsz + ph.vaddr % K.pageSize) K.pageSize := by
  rw [segmentEnd, sub_alignLower]

theorem last_page (h : Fits K f ph) (hmaps : Maps K f ph) (hw : ph.writable = true) {d : Nat}
    (hle : ph.vaddr % K.pageSize + ph.filesz ≤ d)
    (hlt : d < alignHigher (ph.filesz + ph.vaddr % K.pageSize) K.pageSize) :
    (f.mapped K.pageSize (ph.offset - ph.vaddr % K.pageSize + d)).isSome = true := by
  have hpos := K.pageSize_pos
  have hmod := Nat.mod_lt ph.vaddr hpos
  have hoff : ph.vaddr % K.pageSize ≤ ph.offset := h.congruent ▸ Nat.mod_le _ _
  have hbase : K.pageSize ∣ ph.offset - ph.vaddr % K.pageSize := h.congruent ▸ Nat.dvd_sub_mod ph.offset
  have hgap := alignHigher_lt hpos (ph.filesz + ph.vaddr % K.pageSize)
  obtain ⟨n, hn⟩ := dvd_alignHigher (ph.filesz + ph.vaddr % K.pageSize) K.pageSize
  have hnpos : n ≠ 0 := fun hzero => by
    rw [hzero, Nat.mul_zero] at hn
    omega
  obtain ⟨m, rfl⟩ := Nat.exists_eq_succ_of_ne_zero hnpos
  rw [Nat.mul_succ] at hn
  have hstart : ph.offset - ph.vaddr % K.pageSize + K.pageSize * m < f.size := by
    rcases Nat.eq_zero_or_pos ph.filesz with hzero | hfile
    · have hm : K.pageSize * m = 0 := by
        rcases Nat.eq_zero_or_pos m with rfl | hm
        · rfl
        · have hge := Nat.le_mul_of_pos_right K.pageSize hm
          omega
      have hin := hmaps.2 hw
      omega
    · have hheld := h.held hfile
      omega
  have hsome := File.mapped_isSome (d := d - K.pageSize * m) (Nat.dvd_add hbase (Nat.dvd_mul_right K.pageSize m))
    (by omega) hstart
  rwa [Nat.add_assoc, Nat.add_sub_cancel' (show K.pageSize * m ≤ d by omega)] at hsome

/-- The address space behind the file mapping, with the rest of the last page cleared where it can be written. -/
def cleared (K : Kernel) (f : File) (mem : Space) (ph : Phdr) : Space :=
  let fileMapped := mapAt mem (alignLower ph.vaddr K.pageSize) (alignHigher (ph.filesz + ph.vaddr % K.pageSize) K.pageSize)
    fun d => f.mapped K.pageSize (ph.offset - ph.vaddr % K.pageSize + d)
  if ph.writable then mapAt fileMapped (ph.vaddr + ph.filesz) (alignLower ph.vaddr K.pageSize +
    alignHigher (ph.filesz + ph.vaddr % K.pageSize) K.pageSize - (ph.vaddr + ph.filesz)) fun _ => some 0
  else fileMapped

theorem cleared_mapped (h : Fits K f ph) :
    (if alignHigher (ph.memsz + ph.vaddr % K.pageSize) K.pageSize > alignHigher (ph.filesz + ph.vaddr % K.pageSize) K.pageSize then
      mapAt (cleared K f mem ph) (alignLower ph.vaddr K.pageSize + alignHigher (ph.filesz + ph.vaddr % K.pageSize) K.pageSize)
        (alignHigher (ph.memsz + ph.vaddr % K.pageSize) K.pageSize - alignHigher (ph.filesz + ph.vaddr % K.pageSize) K.pageSize)
        fun _ => some 0
    else cleared K f mem ph) = mapped K f mem ph := by
  have hsum := alignLower_add_mod ph.vaddr K.pageSize
  have hfile := le_alignHigher K.pageSize_pos (ph.filesz + ph.vaddr % K.pageSize)
  have hsizes := alignHigher_mono K.pageSize_pos (Nat.add_le_add_right h.sizes (ph.vaddr % K.pageSize))
  generalize hlow : alignLower ph.vaddr K.pageSize = low at *
  generalize hafs : alignHigher (ph.filesz + ph.vaddr % K.pageSize) K.pageSize = afs at *
  generalize hams : alignHigher (ph.memsz + ph.vaddr % K.pageSize) K.pageSize = ams at *
  funext x
  rw [mapped, hlow, hams, mapAt]
  by_cases hin : low ≤ x ∧ x < low + ams
  · rw [if_pos hin, content, hafs]
    by_cases hbehind : afs ≤ x - low
    · rw [if_pos hbehind, if_pos (by omega)]
      exact mapAt_within (by omega) (by omega)
    · rw [if_neg hbehind]
      have hsame : (if ams > afs then mapAt (cleared K f mem ph) (low + afs) (ams - afs) fun _ => some 0
          else cleared K f mem ph) x = cleared K f mem ph x := by
        split
        · exact mapAt_outside (by omega)
        · rfl
      rw [hsame, cleared, hlow, hafs]
      by_cases hw : ph.writable = true
      · rw [if_pos hw]
        by_cases htail : ph.vaddr % K.pageSize + ph.filesz ≤ x - low
        · rw [if_pos ⟨hw, htail⟩]
          exact mapAt_within (by omega) (by omega)
        · rw [if_neg (fun hand => htail hand.2), mapAt_outside (by omega)]
          exact mapAt_within (by omega) (by omega)
      · rw [if_neg hw, if_neg (fun hand => hw hand.1)]
        exact mapAt_within (by omega) (by omega)
  · rw [if_neg hin]
    have hclear : cleared K f mem ph x = mem x := by
      rw [cleared, hlow, hafs]
      split
      · rw [mapAt_outside (by omega)]
        exact mapAt_outside (by omega)
      · exact mapAt_outside (by omega)
    split
    · rw [mapAt_outside (by omega), hclear]
    · exact hclear

theorem mapSegment_ok (h : Fits K f ph) (hmaps : Maps K f ph) : mapSegment K f ph mem = .ok (mapped K f mem ph) := by
  have hsum := alignLower_add_mod ph.vaddr K.pageSize
  have hoff : ph.vaddr % K.pageSize ≤ ph.offset := h.congruent ▸ Nat.mod_le _ _
  have hbase : (ph.offset - ph.vaddr % K.pageSize) % K.pageSize = 0 :=
    Nat.mod_eq_zero_of_dvd (h.congruent ▸ Nat.dvd_sub_mod ph.offset)
  have hfile := le_alignHigher K.pageSize_pos (ph.filesz + ph.vaddr % K.pageSize)
  have hne : alignHigher (ph.filesz + ph.vaddr % K.pageSize) K.pageSize ≠ 0 := fun hzero =>
    hmaps.1 ((alignHigher_eq_zero K.pageSize_pos).mp hzero)
  simp only [mapSegment, sub_alignLower, if_neg (Nat.not_lt.mpr hoff), mmapFile, if_neg (not_or.mpr ⟨hne, not_not.mpr hbase⟩)]
  have hmapped := @cleared_mapped _ _ _ mem h
  cases hw : ph.writable with
  | false =>
      rw [cleared, hw] at hmapped
      exact congrArg Except.ok hmapped
  | true =>
      have hfill : memset (mapAt mem (alignLower ph.vaddr K.pageSize)
          (alignHigher (ph.filesz + ph.vaddr % K.pageSize) K.pageSize) fun d =>
            f.mapped K.pageSize (ph.offset - ph.vaddr % K.pageSize + d)) (ph.vaddr + ph.filesz)
          (alignLower ph.vaddr K.pageSize + alignHigher (ph.filesz + ph.vaddr % K.pageSize) K.pageSize -
            (ph.vaddr + ph.filesz)) = .ok (cleared K f mem ph) := by
        rw [cleared, hw, if_pos rfl, memset, fill_some fun i hi => ?_]
        rw [mapAt_within (by omega) (by omega)]
        exact last_page h hmaps hw (by omega) (by omega)
      simp only [bind, Except.bind, if_true, hfill]
      exact congrArg Except.ok hmapped

theorem mapSegment_fails (h : Fits K f ph) (hmaps : ¬Maps K f ph) :
    ∃ fault, mapSegment K f ph mem = .error fault := by
  have hpos := K.pageSize_pos
  have hmod := Nat.mod_lt ph.vaddr hpos
  have hsum := alignLower_add_mod ph.vaddr K.pageSize
  have hoff : ph.vaddr % K.pageSize ≤ ph.offset := h.congruent ▸ Nat.mod_le _ _
  simp only [mapSegment, sub_alignLower, if_neg (Nat.not_lt.mpr hoff), mmapFile]
  by_cases hempty : ph.filesz + ph.vaddr % K.pageSize = 0
  · rw [if_pos (Or.inl ((alignHigher_eq_zero hpos).mpr hempty))]
    exact ⟨_, rfl⟩
  · rw [Maps, not_and_or, not_not, Classical.not_imp] at hmaps
    obtain ⟨hw, hbehind⟩ := hmaps.resolve_left hempty
    have hzero : ph.filesz = 0 := by
      by_contra hfile
      have hheld := h.held (Nat.pos_of_ne_zero hfile)
      omega
    have hbase : K.pageSize ∣ ph.offset - ph.vaddr % K.pageSize := h.congruent ▸ Nat.dvd_sub_mod ph.offset
    have hfile := le_alignHigher hpos (ph.filesz + ph.vaddr % K.pageSize)
    have hne : alignHigher (ph.filesz + ph.vaddr % K.pageSize) K.pageSize ≠ 0 := fun heq =>
      hempty ((alignHigher_eq_zero hpos).mp heq)
    have hpage := alignHigher_le (Nat.dvd_refl K.pageSize) (show ph.filesz + ph.vaddr % K.pageSize ≤ K.pageSize by omega)
    have hone : alignHigher (ph.filesz + ph.vaddr % K.pageSize) K.pageSize = K.pageSize :=
      Nat.le_antisymm hpage (Nat.le_of_dvd (Nat.pos_of_ne_zero hne) (dvd_alignHigher _ _))
    have hnone : fill (mapAt mem (alignLower ph.vaddr K.pageSize) K.pageSize fun d =>
        f.mapped K.pageSize (ph.offset - ph.vaddr % K.pageSize + d)) (ph.vaddr + ph.filesz)
          (alignLower ph.vaddr K.pageSize + K.pageSize - (ph.vaddr + ph.filesz)) 0 = none := by
      cases hfill : fill (mapAt mem (alignLower ph.vaddr K.pageSize) K.pageSize fun d =>
        f.mapped K.pageSize (ph.offset - ph.vaddr % K.pageSize + d)) (ph.vaddr + ph.filesz)
          (alignLower ph.vaddr K.pageSize + K.pageSize - (ph.vaddr + ph.filesz)) 0 with
      | none => rfl
      | some m' =>
          have hfirst := (fill_eq_some hfill).2 0 (by omega)
          have hend := alignHigher_le hbase (Nat.not_lt.mp hbehind)
          rw [mapAt_within (by omega) (by omega), File.mapped_none (by omega) hpos] at hfirst
          cases hfirst
    refine ⟨.bus, ?_⟩
    rw [if_neg (not_or.mpr ⟨hne, not_not.mpr (Nat.mod_eq_zero_of_dvd hbase)⟩), hone]
    simp only [bind, Except.bind, hw, if_true, memset, hnone]

theorem content_right_iff (h : Fits K f ph) : Zeroed K f ph ↔ ∀ k, k < ph.memsz →
    content K f ph (ph.vaddr % K.pageSize + k) = some (if k < ph.filesz then f.byte (ph.offset + k) else 0) := by
  have hoff : ph.vaddr % K.pageSize ≤ ph.offset := h.congruent ▸ Nat.mod_le _ _
  have hfile := le_alignHigher K.pageSize_pos (ph.filesz + ph.vaddr % K.pageSize)
  have hplace (k : Nat) : ph.offset - ph.vaddr % K.pageSize + (ph.vaddr % K.pageSize + k) = ph.offset + k := by omega
  constructor
  · intro hzeroed k hk
    rw [content, hplace]
    by_cases hfilesz : k < ph.filesz
    · have hheld := h.held (Nat.zero_lt_of_lt hfilesz)
      rw [if_neg (by omega), if_neg (by omega), if_pos hfilesz, File.mapped_of_lt (by omega)]
    · rw [if_neg hfilesz]
      split
      next => rfl
      next hin =>
        split
        next => rfl
        next hw =>
          have hro : ph.writable = false := by
            rw [← Bool.not_eq_true]
            exact fun hw' => hw ⟨hw', by omega⟩
          exact hzeroed hro k (by omega) hk (by omega)
  · intro hcontent hro k hge hk hin
    have hbyte := hcontent k hk
    rwa [content, hplace, if_neg (by omega), if_neg (by simp [hro]), if_neg (by omega)] at hbyte

theorem moved_mod (hbase : K.pageSize ∣ base) (ph : Phdr) : (ph.moved base).vaddr % K.pageSize = ph.vaddr % K.pageSize := by
  obtain ⟨n, rfl⟩ := hbase
  exact Nat.add_mul_mod_self_left ..

theorem fits_moved (hbase : K.pageSize ∣ base) (h : Fits K f ph) : Fits K f (ph.moved base) :=
  ⟨h.sizes, h.congruent.trans (moved_mod hbase ph).symm, h.held⟩

theorem maps_moved (hbase : K.pageSize ∣ base) : Maps K f (ph.moved base) ↔ Maps K f ph := by
  rw [Maps, moved_mod hbase]
  rfl

theorem content_moved (hbase : K.pageSize ∣ base) (d : Nat) : content K f (ph.moved base) d = content K f ph d := by
  rw [content, moved_mod hbase]
  rfl

theorem alignLower_moved (hbase : K.pageSize ∣ base) (ph : Phdr) :
    alignLower (ph.moved base).vaddr K.pageSize = alignLower ph.vaddr K.pageSize + base := by
  have hmod := moved_mod hbase ph
  have hsum := alignLower_add_mod ph.vaddr K.pageSize
  have hsum' := alignLower_add_mod (ph.moved base).vaddr K.pageSize
  have hvaddr : (ph.moved base).vaddr = ph.vaddr + base := rfl
  omega

theorem segmentEnd_moved (hbase : K.pageSize ∣ base) (ph : Phdr) : segmentEnd K (ph.moved base) = segmentEnd K ph + base := by
  rw [segmentEnd_eq, segmentEnd_eq, alignLower_moved hbase, moved_mod hbase]
  show _ + alignHigher (ph.memsz + _) _ = _
  omega

theorem segmentEnd_rounded (ph : Phdr) : segmentEnd K ph = alignHigher (ph.vaddr + ph.memsz) K.pageSize := by
  have hsum := alignLower_add_mod ph.vaddr K.pageSize
  rw [segmentEnd_eq, ← alignHigher_add K.pageSize_pos (dvd_alignLower _ _)]
  congr 1
  omega

end Segments

section Outcomes

/-- A load is right about a condition: it ends well and the condition holds, or it stops, and then either the file was
rejected or the condition fails. -/
def Outcome (r : Except Fault Proc) (good : Prop) (done : Proc → Prop) : Prop :=
  (∃ p, r = .ok p ∧ good ∧ done p) ∨ ∃ fault, r = .error fault ∧ (fault = .rejected ∨ ¬good)

def Steps {α : Type} (done : α → Proc → Proc → Prop) : List α → Proc → Proc → Prop
  | [], p, p' => p' = p
  | x :: xs, p, p' => ∃ q, done x p q ∧ Steps done xs q p'

variable {α : Type} {step : Proc → α → Except Fault Proc} {good : α → Prop} {done : α → Proc → Proc → Prop} {xs : List α}
  {r : Except Fault Proc} {P Q : Prop} {D E : Proc → Prop}

theorem foldlM_outcome (hstep : ∀ x ∈ xs, ∀ p, Outcome (step p x) (good x) (done x p)) (p : Proc) :
    Outcome (xs.foldlM step p) (∀ x ∈ xs, good x) (Steps done xs p) := by
  induction xs generalizing p with
  | nil => exact .inl ⟨p, rfl, fun x hx => absurd hx List.not_mem_nil, rfl⟩
  | cons x xs ih =>
      rw [List.foldlM_cons]
      rcases hstep x List.mem_cons_self p with ⟨q, hq, hgood, hdone⟩ | ⟨fault, hfault, hwhy⟩
      · simp only [hq, bind, Except.bind]
        rcases ih (fun y hy => hstep y (List.mem_cons_of_mem x hy)) q with ⟨p', hp', hall, hsteps⟩ | ⟨fault, hfault, hwhy⟩
        · exact .inl ⟨p', hp', List.forall_mem_cons.mpr ⟨hgood, hall⟩, q, hdone, hsteps⟩
        · exact .inr ⟨fault, hfault, hwhy.imp id fun hnot hall => hnot (List.forall_mem_cons.mp hall).2⟩
      · simp only [hfault, bind, Except.bind]
        exact .inr ⟨fault, rfl, hwhy.imp id fun hnot hall => hnot (List.forall_mem_cons.mp hall).1⟩

theorem outcome_rejected : Outcome (.error .rejected) P D := .inr ⟨_, rfl, .inl rfl⟩

theorem Outcome.ok_iff (h : Outcome r P D) (hacc : r ≠ .error .rejected) : (∃ p, r = .ok p) ↔ P := by
  rcases h with ⟨p, hp, hgood, -⟩ | ⟨fault, hfault, hwhy⟩
  · exact ⟨fun _ => hgood, fun _ => ⟨p, hp⟩⟩
  · have hnot := hwhy.resolve_left fun heq => hacc (heq ▸ hfault)
    refine ⟨fun ⟨p, hp⟩ => ?_, fun hP => absurd hP hnot⟩
    rw [hfault] at hp
    cases hp

theorem Outcome.spec {p : Proc} (h : Outcome r P D) (hp : r = .ok p) : P ∧ D p := by
  rcases h with ⟨p', hp', hgood, hdone⟩ | ⟨fault, hfault, -⟩
  · obtain rfl := Except.ok.inj (hp.symm.trans hp')
    exact ⟨hgood, hdone⟩
  · rw [hp] at hfault
    cases hfault

end Outcomes

section Loops

variable {K} {e : Elf} {base : Nat} {isInterp : Bool}

def shift (e : Elf) (base : Nat) : Nat := if e.isDyn then base else 0

theorem dvd_shift (hbase : K.pageSize ∣ base) : K.pageSize ∣ shift e base := by
  rw [shift]
  split
  · exact hbase
  · exact Nat.dvd_zero _

/-- A program header has been handled: as a segment that is mapped, or not at all. -/
structure Handled (K : Kernel) (e : Elf) (base : Nat) (isInterp : Bool) (ph : Phdr) (p p' : Proc) : Prop where
  mem : p'.mem = if ph.type = .load then mapped K e.file p.mem (ph.moved (shift e base)) else p.mem
  brk : p'.brk = if isInterp = false ∧ ph.type = .load then max p.brk (segmentEnd K (ph.moved (shift e base))) else p.brk

theorem loadHeader_cases (hbase : K.pageSize ∣ base) (ph : Phdr) (hfits : ph.type = .load → Fits K e.file ph) (p : Proc) :
    Outcome (loadHeader K base isInterp e p ph) (ph.type = .load → Maps K e.file ph) (Handled K e base isInterp ph p) := by
  rw [loadHeader]
  by_cases htype : ph.type = .load
  · simp only [if_pos htype, loadSegment]
    by_cases hzero : e.isDyn = true ∧ base = 0
    · simp only [if_pos hzero, bind, Except.bind]
      exact .inr ⟨_, rfl, .inl rfl⟩
    · have hmoved : (if e.isDyn = true then ph.moved base else ph) = ph.moved (shift e base) := by
        rw [shift]
        split <;> rfl
      have hshift := dvd_shift (e := e) hbase
      have hfits' := fits_moved hshift (hfits htype)
      simp only [if_neg hzero, hmoved]
      by_cases hmaps : Maps K e.file ph
      · have hok := @mapSegment_ok _ _ _ p.mem hfits' ((maps_moved hshift).mpr hmaps)
        left
        simp only [hok, bind, Except.bind]
        refine ⟨_, rfl, fun _ => hmaps, ⟨?_, ?_⟩⟩
        · rw [if_pos htype]
          split <;> rfl
        · have hbrk : (if isInterp = false ∧ ph.type = .load then max p.brk (segmentEnd K (ph.moved (shift e base))) else p.brk) =
              if (!isInterp && decide (segmentEnd K (ph.moved (shift e base)) > p.brk)) = true then
                segmentEnd K (ph.moved (shift e base)) else p.brk := by
            cases isInterp with
            | true => rw [if_neg fun h => Bool.noConfusion h.1]; rfl
            | false =>
                rw [if_pos ⟨rfl, htype⟩, Bool.not_false, Bool.true_and]
                by_cases hlt : p.brk < segmentEnd K (ph.moved (shift e base))
                · rw [if_pos (decide_eq_true hlt), Nat.max_eq_right (Nat.le_of_lt hlt)]
                · rw [if_neg fun h => hlt (of_decide_eq_true h), Nat.max_eq_left (Nat.le_of_not_lt hlt)]
          rw [hbrk]
          split <;> rfl
      · obtain ⟨fault, hfault⟩ := @mapSegment_fails _ _ _ p.mem hfits' fun h => hmaps ((maps_moved hshift).mp h)
        right
        simp only [hfault, bind, Except.bind]
        exact ⟨fault, rfl, .inr fun h => hmaps (h htype)⟩
  · simp only [if_neg htype]
    exact .inl ⟨p, rfl, fun h => absurd h htype, ⟨(if_neg htype).symm, (if_neg fun h => htype h.2).symm⟩⟩

theorem steps_mem {l : List Phdr} {p p' : Proc} (h : Steps (Handled K e base isInterp) l p p') : p'.mem =
    ((l.filter fun ph => ph.type = .load).map fun ph => ph.moved (shift e base)).foldl (mapped K e.file) p.mem := by
  induction l generalizing p with
  | nil => rw [show p' = p from h]; rfl
  | cons ph l ih =>
      obtain ⟨q, hhandled, hrest⟩ := h
      rw [ih hrest, hhandled.mem]
      by_cases htype : ph.type = .load
      · rw [List.filter_cons_of_pos (by simp [htype]), if_pos htype]
        rfl
      · rw [List.filter_cons_of_neg (by simp [htype]), if_neg htype]

theorem steps_brk {l : List Phdr} {p p' : Proc} (h : Steps (Handled K e base false) l p p') : p'.brk =
    ((l.filter fun ph => ph.type = .load).map fun ph => segmentEnd K (ph.moved (shift e base))).foldl max p.brk := by
  induction l generalizing p with
  | nil => rw [show p' = p from h]; rfl
  | cons ph l ih =>
      obtain ⟨q, hhandled, hrest⟩ := h
      rw [ih hrest, hhandled.brk]
      by_cases htype : ph.type = .load
      · rw [List.filter_cons_of_pos (by simp [htype]), if_pos ⟨rfl, htype⟩]
        rfl
      · rw [List.filter_cons_of_neg (by simp [htype]), if_neg fun h => htype h.2]

theorem steps_brk_interp {l : List Phdr} {p p' : Proc} (h : Steps (Handled K e base true) l p p') : p'.brk = p.brk := by
  induction l generalizing p with
  | nil => rw [show p' = p from h]
  | cons ph l ih =>
      obtain ⟨q, hhandled, hrest⟩ := h
      rw [ih hrest, hhandled.brk, if_neg fun h => absurd h.1 (by decide)]

/-- The segments of a file lie one behind the other. -/
structure WellFormed (K : Kernel) (e : Elf) : Prop where
  fits : ∀ ph ∈ e.loads, Fits K e.file ph
  ordered : e.loads.Pairwise fun a b => segmentEnd K a ≤ alignLower b.vaddr K.pageSize

def Loads (K : Kernel) (e : Elf) : Prop := ∀ ph ∈ e.loads, Maps K e.file ph

theorem loadHeaders_outcome (hbase : K.pageSize ∣ base) (hwf : WellFormed K e) (p : Proc) :
    Outcome (e.phdrs.foldlM (loadHeader K base isInterp e) p) (Loads K e) (Steps (Handled K e base isInterp) e.phdrs p) := by
  have hheaders : ∀ ph ∈ e.phdrs, ∀ p, Outcome (loadHeader K base isInterp e p ph) (ph.type = .load → Maps K e.file ph)
      (Handled K e base isInterp ph p) := fun ph hph p =>
    loadHeader_cases hbase ph (fun htype => hwf.fits ph (List.mem_filter.mpr ⟨hph, by simp [htype]⟩)) p
  have houtcome := foldlM_outcome hheaders p
  have hloads : (∀ ph ∈ e.phdrs, ph.type = .load → Maps K e.file ph) ↔ Loads K e := by
    simp only [Loads, Elf.loads, List.mem_filter, decide_eq_true_eq, and_imp]
  rwa [hloads] at houtcome

end Loops

section Images

variable {K} {f : File} {mem : Space} {l : List Phdr}

theorem foldl_mapped (hordered : l.Pairwise fun a b => segmentEnd K a ≤ alignLower b.vaddr K.pageSize) {ph : Phdr}
    (hph : ph ∈ l) {d : Nat} (hd : d < alignHigher (ph.memsz + ph.vaddr % K.pageSize) K.pageSize) :
    l.foldl (mapped K f) mem (alignLower ph.vaddr K.pageSize + d) = content K f ph d := by
  induction l generalizing mem with
  | nil => cases hph
  | cons a l ih =>
      obtain ⟨hfirst, hrest⟩ := List.pairwise_cons.mp hordered
      rw [List.foldl_cons]
      rcases List.mem_cons.mp hph with rfl | hin
      · have hlater : ∀ m : Space, l.foldl (mapped K f) m (alignLower ph.vaddr K.pageSize + d) =
            m (alignLower ph.vaddr K.pageSize + d) := by
          intro m
          clear ih hrest hordered hph
          induction l generalizing m with
          | nil => rfl
          | cons b l ih =>
              have hb := hfirst b List.mem_cons_self
              rw [segmentEnd_eq] at hb
              rw [List.foldl_cons, ih fun c hc => hfirst c (List.mem_cons_of_mem b hc)]
              exact mapAt_outside (by omega)
        rw [hlater, mapped, mapAt_within (by omega) (by omega), Nat.add_sub_cancel_left]
      · exact ih hrest hin

theorem foldl_max_le (xs : List Nat) (n : Nat) : n ≤ xs.foldl max n ∧ ∀ x ∈ xs, x ≤ xs.foldl max n := by
  induction xs generalizing n with
  | nil => exact ⟨Nat.le_refl n, fun x hx => absurd hx List.not_mem_nil⟩
  | cons a xs ih =>
      obtain ⟨hinit, hall⟩ := ih (max n a)
      refine ⟨Nat.le_trans (Nat.le_max_left n a) hinit, fun x hx => ?_⟩
      rcases List.mem_cons.mp hx with rfl | hx
      · exact Nat.le_trans (Nat.le_max_right n x) hinit
      · exact hall x hx

theorem foldl_max_of_le {xs : List Nat} {n m : Nat} (hn : n ≤ m) (hall : ∀ x ∈ xs, x ≤ m) : xs.foldl max n ≤ m := by
  induction xs generalizing n with
  | nil => exact hn
  | cons a xs ih =>
      exact ih (Nat.max_le.mpr ⟨hn, hall a List.mem_cons_self⟩) fun x hx => hall x (List.mem_cons_of_mem a hx)

theorem segmentEnd_le_last (hordered : l.Pairwise fun a b => segmentEnd K a ≤ alignLower b.vaddr K.pageSize) {last : Phdr}
    (hlast : l.getLast? = some last) {ph : Phdr} (hph : ph ∈ l) : segmentEnd K ph ≤ segmentEnd K last := by
  obtain ⟨front, rfl⟩ := List.getLast?_eq_some_iff.mp hlast
  rcases List.mem_append.mp hph with hin | hin
  · have hbefore := (List.pairwise_append.mp hordered).2.2 ph hin last List.mem_cons_self
    rw [segmentEnd_eq last]
    omega
  · rw [List.mem_singleton.mp hin]

end Images

section Loading

variable {K} {e : Elf} {isInterp : Bool} {nested : Elf → Proc → Except Fault Proc} {p p' : Proc}

/-- The interpreters that a file names. -/
def interps (K : Kernel) (e : Elf) : List Elf := (e.phdrs.filter fun ph => ph.type = .interp).filterMap (interpFile K e)

theorem mem_interps {e' : Elf} : e' ∈ interps K e ↔ ∃ ph ∈ e.phdrs, ph.type = .interp ∧ interpFile K e ph = some e' := by
  simp only [interps, List.mem_filterMap, List.mem_filter, decide_eq_true_eq, and_assoc]

/-- What is loaded in the end, and where its data ends. -/
structure Loaded (K : Kernel) (isInterp : Bool) (e : Elf) (p p' : Proc) : Prop where
  mem : ∃ mem, p'.mem = (e.loads.map fun ph => ph.moved (shift e (baseAddr K e p))).foldl (mapped K e.file) mem
  brk : p'.brk = if isInterp then p.brk
    else (e.loads.map fun ph => segmentEnd K (ph.moved (shift e (baseAddr K e p)))).foldl max p.brk

/-- A load that keeps the end of the data, where the interpreter's segments can be mapped. -/
def Keeps (K : Kernel) (nested : Elf → Proc → Except Fault Proc) : Prop :=
  ∀ e, WellFormed K e → ∀ p, Outcome (nested e p) (Loads K e) fun p' => p'.brk = p.brk

theorem loadInterp_outcome (hnested : Keeps K nested) (hwf : ∀ e' ∈ interps K e, WellFormed K e') {ph : Phdr}
    (hph : ph ∈ e.phdrs) (p : Proc) : Outcome (loadInterp K nested isInterp e p ph)
      (ph.type = .interp → ∀ e', interpFile K e ph = some e' → Loads K e') fun p' => p'.brk = p.brk := by
  rw [loadInterp]
  split
  next htype =>
    split
    next => exact outcome_rejected
    next =>
      split
      next => exact outcome_rejected
      next e' he' =>
        rcases hnested e' (hwf e' (mem_interps.mpr ⟨ph, hph, htype, he'⟩)) p with ⟨p', hp', hloads, hbrk⟩ | ⟨fault, hfault, hwhy⟩
        · refine .inl ⟨p', hp', fun _ e'' he'' => ?_, hbrk⟩
          rwa [← Option.some.inj (he'.symm.trans he'')]
        · exact .inr ⟨fault, hfault, hwhy.imp id fun hnot hall => hnot (hall htype e' he')⟩
  next htype => exact .inl ⟨p, rfl, fun h => absurd h htype, rfl⟩

theorem loadInterp_interp (ph : Phdr) (p : Proc) :
    Outcome (loadInterp K nested true e p ph) True fun p' => p'.brk = p.brk := by
  rw [loadInterp]
  split
  · exact outcome_rejected
  · exact .inl ⟨p, rfl, trivial, rfl⟩

theorem steps_keep {l : List Phdr} {p p' : Proc} (h : Steps (fun _ p p' => p'.brk = p.brk) l p p') : p'.brk = p.brk := by
  induction l generalizing p with
  | nil => rw [show p' = p from h]
  | cons ph l ih =>
      obtain ⟨q, hq, hrest⟩ := h
      rw [ih hrest, hq]

theorem loadWith_outcome {good : Prop} (hwf : WellFormed K e) (p : Proc)
    (hfirst : ∀ q, Outcome (e.phdrs.foldlM (loadInterp K nested isInterp e) q) good
      (Steps (fun _ p p' => p'.brk = p.brk) e.phdrs q)) :
    Outcome (loadWith K nested isInterp e p) (Loads K e ∧ good) (Loaded K isInterp e p) := by
  rw [loadWith]
  split
  next => exact outcome_rejected
  next =>
    split
    next => exact outcome_rejected
    next =>
      have hsecond (q : Proc) := @loadHeaders_outcome K e (baseAddr K e p) isInterp (K.reserve_dvd _ _ _) hwf q
      simp only [bind, Except.bind]
      generalize hstart : (Proc.mk _ _ _ _ : Proc) = start
      rcases hfirst start with ⟨q, hq, hgood, hsteps⟩ | ⟨fault, hfault, hwhy⟩
      · have hbrk : q.brk = p.brk := by rw [steps_keep hsteps, ← hstart]
        simp only [hq]
        generalize hmiddle : (Proc.mk _ _ _ _ : Proc) = middle
        have hmid : middle.brk = p.brk := by rw [← hmiddle, hbrk]
        rcases hsecond middle with ⟨t, ht, hloads, hhandled⟩ | ⟨fault, hfault, hwhy⟩
        · simp only [ht]
          by_cases hzero : (if isInterp = true then t.auxv.atBase else t.auxv.atPhdr) = 0
          · rw [if_pos hzero]
            exact outcome_rejected
          · rw [if_neg hzero]
            refine .inl ⟨t, rfl, ⟨hloads, hgood⟩, ⟨middle.mem, steps_mem hhandled⟩, ?_⟩
            cases isInterp with
            | true => exact (steps_brk_interp hhandled).trans hmid
            | false =>
                rw [steps_brk hhandled, hmid]
                rfl
        · simp only [hfault]
          exact .inr ⟨fault, rfl, hwhy.imp id fun hnot hboth => hnot hboth.1⟩
      · simp only [hfault]
        exact .inr ⟨fault, rfl, hwhy.imp id fun hnot hboth => hnot hboth.2⟩

theorem Outcome.congr {r : Except Fault Proc} {P Q : Prop} {D E : Proc → Prop} (h : Outcome r P D) (hPQ : P ↔ Q)
    (hDE : ∀ p, D p → E p) : Outcome r Q E := by
  rw [← hPQ]
  exact h.imp (fun ⟨p, hp, hgood, hdone⟩ => ⟨p, hp, hgood, hDE p hdone⟩) id

theorem loadInterpreter_outcome (hwf : WellFormed K e) (p : Proc) :
    Outcome (loadInterpreter K e p) (Loads K e) (Loaded K true e p) :=
  (loadWith_outcome hwf p (foldlM_outcome fun ph _ p => loadInterp_interp ph p)).congr
    ⟨And.left, fun h => ⟨h, fun _ _ => trivial⟩⟩ fun _ h => h

theorem loadElf_outcome (hwf : WellFormed K e) (hinterps : isInterp = false → ∀ e' ∈ interps K e, WellFormed K e') (p : Proc) :
    Outcome (loadElf K isInterp e p) (Loads K e ∧ (isInterp = false → ∀ e' ∈ interps K e, Loads K e'))
      (Loaded K isInterp e p) := by
  cases isInterp with
  | true => exact (loadInterpreter_outcome hwf p).congr ⟨fun h => ⟨h, fun h => absurd h (by decide)⟩, And.left⟩ fun _ h => h
  | false =>
      have hkeeps : Keeps K (loadInterpreter K) := fun e' hwf' q =>
        (loadInterpreter_outcome hwf' q).congr Iff.rfl fun p' h => h.brk
      have hfirst := loadWith_outcome hwf p (foldlM_outcome fun ph hph p =>
        @loadInterp_outcome K e false (loadInterpreter K) hkeeps (hinterps rfl) ph hph p)
      refine hfirst.congr (and_congr_right fun _ => ?_) fun _ h => h
      constructor
      · intro h _ e' he'
        obtain ⟨ph, hph, htype, hfile⟩ := mem_interps.mp he'
        exact h ph hph htype e' hfile
      · exact fun h ph hph htype e' hfile => h rfl e' (mem_interps.mpr ⟨ph, hph, htype, hfile⟩)

end Loading

section Results

/-- A file whose segments are in memory behind the loading, and behind whose last segment the data ends. -/
def Right (K : Kernel) (isInterp : Bool) (e : Elf) (p : Proc) : Prop :=
  ∃ p', loadElf K isInterp e p = .ok p' ∧
    (∀ ph ∈ e.loads, ∀ k, k < ph.memsz → p'.mem (shift e (baseAddr K e p) + ph.vaddr + k) =
      some (if k < ph.filesz then e.file.byte (ph.offset + k) else 0)) ∧
    (isInterp = false → ∀ ph, e.loads.getLast? = some ph →
      p'.brk = alignHigher (shift e (baseAddr K e p) + ph.vaddr + ph.memsz) K.pageSize)

variable {K : Kernel} {e : Elf} {isInterp : Bool} {p p' : Proc}

theorem dvd_shift_base (K : Kernel) (e : Elf) (p : Proc) : K.pageSize ∣ shift e (baseAddr K e p) := dvd_shift (K.reserve_dvd ..)

theorem ordered_moved {base : Nat} (hbase : K.pageSize ∣ base) (hwf : WellFormed K e) :
    (e.loads.map fun ph => ph.moved base).Pairwise fun a b => segmentEnd K a ≤ alignLower b.vaddr K.pageSize := by
  rw [List.pairwise_map]
  refine hwf.ordered.imp fun {a b} h => ?_
  rw [segmentEnd_moved hbase, alignLower_moved hbase]
  exact Nat.add_le_add_right h base

theorem mem_right_iff (hwf : WellFormed K e) (hloaded : Loaded K isInterp e p p') :
    (∀ ph ∈ e.loads, ∀ k, k < ph.memsz → p'.mem (shift e (baseAddr K e p) + ph.vaddr + k) =
      some (if k < ph.filesz then e.file.byte (ph.offset + k) else 0)) ↔ ∀ ph ∈ e.loads, Zeroed K e.file ph := by
  obtain ⟨⟨mem, hmem⟩, -⟩ := hloaded
  have hshift := dvd_shift_base K e p
  refine forall₂_congr fun ph hph => ?_
  rw [content_right_iff (hwf.fits ph hph)]
  refine forall₂_congr fun k hk => ?_
  have hsum := alignLower_add_mod ph.vaddr K.pageSize
  have hin : ph.vaddr % K.pageSize + k < alignHigher ((ph.moved (shift e (baseAddr K e p))).memsz +
      (ph.moved (shift e (baseAddr K e p))).vaddr % K.pageSize) K.pageSize := by
    rw [moved_mod hshift]
    have hle := le_alignHigher K.pageSize_pos (ph.memsz + ph.vaddr % K.pageSize)
    exact Nat.lt_of_lt_of_le (by omega) hle
  have hplace := @foldl_mapped _ e.file mem _ (ordered_moved hshift hwf) _ (List.mem_map.mpr ⟨ph, hph, rfl⟩) _ hin
  rw [alignLower_moved hshift, content_moved hshift] at hplace
  rw [hmem, ← hplace]
  have haddress : shift e (baseAddr K e p) + ph.vaddr + k =
      alignLower ph.vaddr K.pageSize + shift e (baseAddr K e p) + (ph.vaddr % K.pageSize + k) := by omega
  rw [haddress]

theorem brk_right (hwf : WellFormed K e) (hloaded : Loaded K false e p p') (hbrk : p.brk = 0) {ph : Phdr}
    (hlast : e.loads.getLast? = some ph) :
    p'.brk = alignHigher (shift e (baseAddr K e p) + ph.vaddr + ph.memsz) K.pageSize := by
  have hshift := dvd_shift_base K e p
  have hhighest : segmentEnd K (ph.moved (shift e (baseAddr K e p))) =
      alignHigher (shift e (baseAddr K e p) + ph.vaddr + ph.memsz) K.pageSize := by
    rw [segmentEnd_rounded, Nat.add_comm (shift e (baseAddr K e p))]
    rfl
  rw [hloaded.brk, if_neg Bool.false_ne_true, hbrk, ← hhighest]
  apply Nat.le_antisymm
  · refine foldl_max_of_le (Nat.zero_le _) fun x hx => ?_
    obtain ⟨a, ha, rfl⟩ := List.mem_map.mp hx
    rw [segmentEnd_moved hshift, segmentEnd_moved hshift]
    exact Nat.add_le_add_right (segmentEnd_le_last hwf.ordered hlast ha) _
  · exact (foldl_max_le _ 0).2 _ (List.mem_map.mpr ⟨ph, List.mem_of_getLast? hlast, rfl⟩)

/-- A file that `load_elf` does not reject is loaded right exactly if its segments can be mapped and are cleared behind
the file's bytes, and those of the interpreter can be mapped. -/
theorem load_right_iff (hwf : WellFormed K e) (hinterps : isInterp = false → ∀ e' ∈ interps K e, WellFormed K e')
    (haccepted : loadElf K isInterp e p ≠ .error .rejected) (hbrk : isInterp = false → p.brk = 0) :
    Right K isInterp e p ↔ (∀ ph ∈ e.loads, Maps K e.file ph ∧ Zeroed K e.file ph) ∧
      (isInterp = false → ∀ e' ∈ interps K e, ∀ ph ∈ e'.loads, Maps K e'.file ph) := by
  have houtcome := @loadElf_outcome K e isInterp hwf hinterps p
  constructor
  · rintro ⟨p', hp', hmem, -⟩
    obtain ⟨⟨hloads, hnested⟩, hloaded⟩ := houtcome.spec hp'
    exact ⟨fun ph hph => ⟨hloads ph hph, (mem_right_iff hwf hloaded).mp hmem ph hph⟩, hnested⟩
  · rintro ⟨hboth, hnested⟩
    obtain ⟨p', hp'⟩ := (houtcome.ok_iff haccepted).mpr ⟨fun ph hph => (hboth ph hph).1, hnested⟩
    have hloaded := (houtcome.spec hp').2
    refine ⟨p', hp', (mem_right_iff hwf hloaded).mpr fun ph hph => (hboth ph hph).2, fun hmain ph hlast => ?_⟩
    subst hmain
    exact brk_right hwf hloaded (hbrk rfl) hlast

/-- Pages of four kilobytes, a hint that is kept, and no other files. -/
def plainKernel : Kernel where
  pageSize := 4096
  reserve _ hint _ := alignLower hint 4096
  openFile _ := none
  pageSize_pos := by decide
  reserve_dvd _ hint _ := dvd_alignLower hint 4096

/-- A file of one page, with a segment of 100 bytes and one that it holds some bytes of. -/
def twoSegments (writable : Bool) (filesz : Nat) : Elf where
  file := ⟨4096, fun _ => 0⟩
  isDyn := false
  entry := 4096
  phoff := 64
  phdrs := [⟨.load, false, 0, 4096, 100, 100⟩, ⟨.load, writable, 0, 8192, filesz, 16⟩]

def fresh : Proc := ⟨fun _ => none, 0, ⟨0, 0, 0, 0⟩, 0⟩

theorem wellFormed_twoSegments (writable : Bool) {filesz : Nat} (h : filesz ≤ 16) :
    WellFormed plainKernel (twoSegments writable filesz) := by
  have hloads : (twoSegments writable filesz).loads = (twoSegments writable filesz).phdrs := rfl
  constructor
  · intro ph hph
    rw [hloads] at hph
    rcases List.mem_pair.mp hph with rfl | rfl
    · exact ⟨by decide, rfl, fun _ => (by decide : 0 + 100 ≤ 4096)⟩
    · exact ⟨h, (by decide : 0 % 4096 = 8192 % 4096), fun _ => show 0 + filesz ≤ 4096 by omega⟩
  · rw [hloads]
    refine List.pairwise_pair.mpr ?_
    show 4096 / 4096 * 4096 + alignHigher (100 + (4096 - 4096 / 4096 * 4096)) 4096 ≤ 8192 / 4096 * 4096
    decide

/-- The second segment ends in eight bytes that the file does not have. -/
theorem two_segments_right : Right plainKernel false (twoSegments true 8) fresh := by
  have hok : (loadElf plainKernel false (twoSegments true 8) fresh).toBool = true := by
    set_option maxRecDepth 16000 in decide
  refine (load_right_iff (wellFormed_twoSegments true (by decide)) (fun _ e' he' => ?_) (fun h => ?_) fun _ => rfl).mpr ⟨?_, ?_⟩
  · cases he'
  · rw [h] at hok
    cases hok
  · intro ph hph
    rcases List.mem_pair.mp (show ph ∈ [_, _] from hph) with rfl | rfl
    · exact ⟨⟨by decide, fun h => absurd h (by decide)⟩, fun _ k hge hlt _ => absurd hlt (Nat.not_lt.mpr hge)⟩
    · exact ⟨⟨by decide, fun _ => by decide⟩, fun h => absurd h (by decide)⟩
  · intro _ e' he'
    cases he'

/-- A segment without bytes in the file, on a page of its own: the length of its file mapping is zero. -/
theorem empty_segment_fails : WellFormed plainKernel (twoSegments true 0) ∧
    loadElf plainKernel false (twoSegments true 0) fresh = .error .mapFailed ∧
      ¬Right plainKernel false (twoSegments true 0) fresh := by
  have hfails : loadElf plainKernel false (twoSegments true 0) fresh = .error .mapFailed := rfl
  refine ⟨wellFormed_twoSegments true (by decide), hfails, fun ⟨p', hp', _⟩ => ?_⟩
  rw [hfails] at hp'
  cases hp'

end Results

end Mambo.ElfLoadExact
