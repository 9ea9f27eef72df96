import Mambo.Bytes
import Mambo.Chains
import Mathlib.Data.BitVec

namespace Mambo.Backtrace

open Bytes Chains Relation

inductive Arch
  | aarch32
  | aarch64
  | riscv64
  deriving DecidableEq

def Arch.width : Arch → Nat
  | .aarch32 => 32
  | .aarch64 => 64
  | .riscv64 => 64

abbrev Arch.Word (arch : Arch) := BitVec arch.width

/-- What a byte holds; none where reading it faults. -/
abbrev Memory (arch : Arch) := arch.Word → Option Byte

structure StackFrame (arch : Arch) where
  prev : arch.Word
  lr : arch.Word

section Code

variable (arch : Arch)

/-- What `try_memcpy` returns of a frame, if it returns at all: an error where a byte faults. -/
inductive Copied
  | hangs
  | error
  | frame (f : StackFrame arch)

def tryRead (mem : Memory arch) (a : arch.Word) (n : Nat) : Option (List Byte) :=
  (List.range n).mapM fun i => mem (a + BitVec.ofNat arch.width i)

def tryMemcpy (mem : Memory arch) (fp : arch.Word) : Copied arch :=
  if arch = .riscv64 then .hangs
  else
    let n := arch.width / 8
    match tryRead arch mem fp (2 * n) with
    | none => .error
    | some bytes => .frame ⟨BitVec.ofNat _ (ofBytes (bytes.take n)), BitVec.ofNat _ (ofBytes (bytes.drop n))⟩

def getFrame (frame : arch.Word) : arch.Word := if arch = .aarch32 then frame - 4 else frame

variable {Symbol Data : Type} (symbols : arch.Word → Option Symbol)
  (handler : Data → arch.Word → Symbol → Int × Data) (mem : Memory arch)

/-- The loop of `get_backtrace`: what it returns, none where the fuel is used up, and the
frames that the handler was called for. -/
def getBacktraceLoop : Nat → arch.Word → Data → Option Int × List arch.Word
  | 0, _, _ => (none, [])
  | fuel + 1, fp, data =>
    let fp := getFrame arch fp
    match tryMemcpy arch mem fp with
    | .hangs => (none, [])
    | .error => (some 0, [])
    | .frame frame =>
      match symbols frame.lr with
      | none =>
        if frame.prev > fp ∧ frame.prev ≠ 0 then getBacktraceLoop fuel frame.prev data else (some 0, [])
      | some symbol =>
        let r := handler data frame.lr symbol
        if r.1 ≠ 0 then (some r.1, [fp])
        else if frame.prev > fp ∧ frame.prev ≠ 0 then
          let rest := getBacktraceLoop fuel frame.prev r.2
          (rest.1, fp :: rest.2)
        else (some 0, [fp])

def getBacktrace (fuel : Nat) (fp : arch.Word) (data : Data) : Option Int × List arch.Word :=
  if fp ≠ 0 ∧ fp ≠ 1 then getBacktraceLoop arch symbols handler mem fuel fp data else (some (-1), [])

end Code

variable {arch : Arch} {mem : Memory arch} {f f' fp : arch.Word}

section Frames

/-- The frame that the loop goes on with. -/
def nextFrame (mem : Memory arch) (f : arch.Word) : Option arch.Word :=
  match tryMemcpy arch mem f with
  | .frame frame => if frame.prev > f then some (getFrame arch frame.prev) else none
  | _ => none

theorem gt_and_ne {x y : arch.Word} : (x > y ∧ x ≠ 0) ↔ x > y := by
  refine and_iff_left_of_imp fun hgt hzero => ?_
  rw [hzero] at hgt
  exact absurd hgt BitVec.not_lt_zero

/-- For any symbols and any handler it returns, and no frame is reported twice. -/
def Ends (arch : Arch) (mem : Memory arch) (fp : arch.Word) : Prop :=
  ∀ (Symbol Data : Type) (symbols : arch.Word → Option Symbol) (handler : Data → arch.Word → Symbol → Int × Data) (data : Data),
    (∃ fuel, (getBacktrace arch symbols handler mem fuel fp data).1.isSome) ∧
      ∀ fuel, (getBacktrace arch symbols handler mem fuel fp data).2.Nodup

/-- A frame whose link was let through though the frame it leads to is no higher, and leads
back. -/
def LeadsBack (mem : Memory arch) (f : arch.Word) : Prop :=
  ∃ f', Link (nextFrame mem) f f' ∧ f' ≤ f ∧ ReflTransGen (Link (nextFrame mem)) f' f

theorem acyclic_iff_leadsBack :
    Acyclic (nextFrame mem) f ↔ ∀ f', ReflTransGen (Link (nextFrame mem)) f f' → ¬LeadsBack mem f' := by
  have hfinite : Finite arch.Word := Finite.of_injective BitVec.toFin fun _ _ => BitVec.eq_of_toFin_eq
  rw [acyclic_iff BitVec.toNat]
  constructor
  · rintro h b hreach ⟨c, hlink, hle, hback⟩
    exact h b c hreach hlink hle hback
  · intro h b c hreach hlink hle hback
    exact h b hreach ⟨c, hlink, hle, hback⟩

end Frames

section Loop

variable {Symbol Data : Type} {symbols : arch.Word → Option Symbol} {handler : Data → arch.Word → Symbol → Int × Data}

/-- A round reports its frame at most once, then goes on with the next one or returns. -/
theorem round_cases (harch : arch ≠ .riscv64) (symbols : arch.Word → Option Symbol)
    (handler : Data → arch.Word → Symbol → Int × Data) (mem : Memory arch) (fuel : Nat) (fp : arch.Word) (data : Data) :
    ∃ reported, (reported = [] ∨ reported = [getFrame arch fp]) ∧
      ((∃ ret, getBacktraceLoop arch symbols handler mem (fuel + 1) fp data = (some ret, reported)) ∨
        ∃ prev data', Link (nextFrame mem) (getFrame arch fp) (getFrame arch prev) ∧
          getBacktraceLoop arch symbols handler mem (fuel + 1) fp data =
            ((getBacktraceLoop arch symbols handler mem fuel prev data').1,
              reported ++ (getBacktraceLoop arch symbols handler mem fuel prev data').2)) := by
  rw [getBacktraceLoop]
  simp only [gt_and_ne]
  cases hcopy : tryMemcpy arch mem (getFrame arch fp) with
  | hangs =>
      rw [tryMemcpy, if_neg harch] at hcopy
      dsimp only at hcopy
      split at hcopy <;> cases hcopy
  | error => exact ⟨[], .inl rfl, .inl ⟨0, rfl⟩⟩
  | frame frame =>
      have hlink (hgt : frame.prev > getFrame arch fp) :
          Link (nextFrame mem) (getFrame arch fp) (getFrame arch frame.prev) := by
        rw [Link, nextFrame, hcopy]
        exact if_pos hgt
      dsimp only
      cases symbols frame.lr with
      | none =>
          refine ⟨[], .inl rfl, ?_⟩
          by_cases hgt : frame.prev > getFrame arch fp
          · exact .inr ⟨frame.prev, data, hlink hgt, by simp [hgt]⟩
          · exact .inl ⟨0, by simp [hgt]⟩
      | some symbol =>
          refine ⟨[getFrame arch fp], .inr rfl, ?_⟩
          dsimp only
          by_cases hret : (handler data frame.lr symbol).1 ≠ 0
          · exact .inl ⟨_, if_pos hret⟩
          · rw [if_neg hret]
            by_cases hgt : frame.prev > getFrame arch fp
            · exact .inr ⟨frame.prev, (handler data frame.lr symbol).2, hlink hgt, by simp [hgt]⟩
            · exact .inl ⟨0, if_neg hgt⟩

theorem loop_returns (harch : arch ≠ .riscv64) (n : Nat) (data : Data) (h : path (nextFrame mem) (getFrame arch fp) n = none) :
    (getBacktraceLoop arch symbols handler mem n fp data).1.isSome := by
  induction n generalizing fp data with
  | zero => exact nomatch h
  | succ n ih =>
      obtain ⟨reported, -, ⟨ret, hdone⟩ | ⟨prev, data', hlink, hgo⟩⟩ := round_cases harch symbols handler mem n fp data
      · rw [hdone]
        rfl
      · rw [hgo]
        exact ih data' (by rw [← path_link hlink]; exact h)

theorem loop_reported (harch : arch ≠ .riscv64) (fuel : Nat) (data : Data) :
    ∀ f ∈ (getBacktraceLoop arch symbols handler mem fuel fp data).2,
      ReflTransGen (Link (nextFrame mem)) (getFrame arch fp) f := by
  induction fuel generalizing fp data with
  | zero => exact fun f hf => absurd hf List.not_mem_nil
  | succ fuel ih =>
      obtain ⟨reported, hreported, ⟨ret, hdone⟩ | ⟨prev, data', hlink, hgo⟩⟩ :=
        round_cases harch symbols handler mem fuel fp data
      all_goals intro f hf
      · rw [hdone] at hf
        rcases hreported with rfl | rfl
        · exact absurd hf List.not_mem_nil
        · exact List.mem_singleton.mp hf ▸ .refl
      · rw [hgo] at hf
        rcases List.mem_append.mp hf with hf | hf
        · rcases hreported with rfl | rfl
          · exact absurd hf List.not_mem_nil
          · exact List.mem_singleton.mp hf ▸ .refl
        · exact .head hlink (ih data' f hf)

theorem loop_nodup (harch : arch ≠ .riscv64) (fuel : Nat) (data : Data) (h : Acyclic (nextFrame mem) (getFrame arch fp)) :
    (getBacktraceLoop arch symbols handler mem fuel fp data).2.Nodup := by
  induction fuel generalizing fp data with
  | zero => exact List.nodup_nil
  | succ fuel ih =>
      obtain ⟨reported, hreported, ⟨ret, hdone⟩ | ⟨prev, data', hlink, hgo⟩⟩ :=
        round_cases harch symbols handler mem fuel fp data
      · rw [hdone]
        rcases hreported with rfl | rfl
        · exact List.nodup_nil
        · exact List.nodup_singleton _
      · rw [hgo]
        rcases hreported with rfl | rfl
        · exact ih data' (h.link hlink)
        · refine List.nodup_cons.mpr ⟨fun hmem => ?_, ih data' (h.link hlink)⟩
          exact h _ .refl (.head' hlink (loop_reported harch fuel data' _ hmem))

theorem loop_goes_on (data : Data) (fuel : Nat) (h : ∀ n, path (nextFrame mem) (getFrame arch fp) n ≠ none) :
    (getBacktraceLoop arch (fun _ => (none : Option Symbol)) handler mem fuel fp data).1 = none := by
  induction fuel generalizing fp with
  | zero => rfl
  | succ fuel ih =>
      have hnext := h 1
      rw [path, nextFrame] at hnext
      rw [getBacktraceLoop]
      simp only [gt_and_ne]
      cases hcopy : tryMemcpy arch mem (getFrame arch fp) with
      | hangs => rfl
      | error => simp [hcopy] at hnext
      | frame frame =>
          dsimp only
          by_cases hgt : frame.prev > getFrame arch fp
          · rw [if_pos hgt]
            have hlink : Link (nextFrame mem) (getFrame arch fp) (getFrame arch frame.prev) := by
              rw [Link, nextFrame, hcopy]
              exact if_pos hgt
            exact ih fun n => by rw [← path_link hlink]; exact h (n + 1)
          · simp [hcopy, hgt] at hnext

theorem loop_hangs (harch : arch = .riscv64) (data : Data) (fuel : Nat) :
    (getBacktraceLoop arch symbols handler mem fuel fp data).1 = none := by
  cases fuel with
  | zero => rfl
  | succ fuel => rw [getBacktraceLoop, tryMemcpy, if_pos harch]

end Loop

section Exact

theorem not_leadsBack (harch : arch ≠ .aarch32) (f : arch.Word) : ¬LeadsBack mem f := by
  rintro ⟨f', hlink, hle, -⟩
  rw [Link, nextFrame] at hlink
  split at hlink
  · rename_i frame hcopy
    split_ifs at hlink with hgt
    rw [← Option.some.inj hlink, getFrame, if_neg harch] at hle
    exact absurd hgt (BitVec.not_lt.mpr hle)
  · cases hlink

/-- On ARM, with words for pointers, a frame leads back if its link is its own frame pointer. -/
theorem leadsBack_iff {mem : Memory .aarch32} {f : Arch.aarch32.Word} (hf : f.toNat % 4 = 0)
    (hlinks : ∀ frame, tryMemcpy .aarch32 mem f = .frame frame → frame.prev.toNat % 4 = 0) :
    LeadsBack mem f ↔ ∃ frame, tryMemcpy .aarch32 mem f = .frame frame ∧ frame.prev > f ∧ getFrame .aarch32 frame.prev = f := by
  constructor
  · rintro ⟨f', hlink, hle, -⟩
    rw [Link, nextFrame] at hlink
    split at hlink
    · rename_i frame hcopy
      split_ifs at hlink with hgt
      obtain rfl := Option.some.inj hlink
      refine ⟨frame, hcopy, hgt, BitVec.eq_of_toNat_eq ?_⟩
      have haligned := hlinks frame hcopy
      have hprev : (getFrame .aarch32 frame.prev).toNat = frame.prev.toNat - 4 := by
        rw [getFrame, if_pos rfl]
        exact BitVec.toNat_sub_of_le (show 4 ≤ frame.prev.toNat by rw [gt_iff_lt, BitVec.lt_def] at hgt; omega)
      rw [BitVec.le_def] at hle
      rw [gt_iff_lt, BitVec.lt_def] at hgt
      omega
    · cases hlink
  · rintro ⟨frame, hcopy, hgt, hself⟩
    refine ⟨f, ?_, Nat.le_refl f.toNat, .refl⟩
    rw [Link, nextFrame, hcopy, ← hself]
    simp only [hself, if_pos hgt]

/-- The walk ends, and reports each frame once, if it has nothing to walk; on AArch64; and
on ARM if no frame that it comes to leads back. -/
theorem ends_iff (arch : Arch) (mem : Memory arch) (fp : arch.Word) : Ends arch mem fp ↔
    fp = 0 ∨ fp = 1 ∨ arch = .aarch64 ∨ arch = .aarch32 ∧
      ∀ f, ReflTransGen (Link (nextFrame mem)) (getFrame arch fp) f → ¬LeadsBack mem f := by
  by_cases hnone : fp = 0 ∨ fp = 1
  · refine iff_of_true ?_ (by tauto)
    intro Symbol Data symbols handler data
    have hdone (fuel : Nat) : getBacktrace arch symbols handler mem fuel fp data = (some (-1), []) :=
      if_neg fun h => hnone.elim h.1 h.2
    exact ⟨⟨0, by rw [hdone]; rfl⟩, fun fuel => by rw [hdone]; exact List.nodup_nil⟩
  · rw [not_or] at hnone
    rw [or_iff_right hnone.1, or_iff_right hnone.2]
    by_cases harch : arch = .riscv64
    · refine iff_of_false (fun h => ?_) (by simp [harch])
      obtain ⟨⟨fuel, hdone⟩, -⟩ := h Unit Unit (fun _ => none) (fun _ _ _ => (0, ())) ()
      rw [getBacktrace, if_pos hnone, loop_hangs harch] at hdone
      cases hdone
    · have hacyclic : Ends arch mem fp ↔ Acyclic (nextFrame mem) (getFrame arch fp) := by
        constructor
        · intro h f hreach hcycle
          obtain ⟨⟨fuel, hdone⟩, -⟩ := h Unit Unit (fun _ => none) (fun _ _ _ => (0, ())) ()
          rw [getBacktrace, if_pos hnone, loop_goes_on () fuel (goes_on hreach hcycle)] at hdone
          cases hdone
        · intro h Symbol Data symbols handler data
          have hfinite : Finite arch.Word := Finite.of_injective BitVec.toFin fun _ _ => BitVec.eq_of_toFin_eq
          obtain ⟨n, hn⟩ := h.ends
          refine ⟨⟨n, ?_⟩, fun fuel => ?_⟩
          · rw [getBacktrace, if_pos hnone]
            exact loop_returns harch n data hn
          · rw [getBacktrace, if_pos hnone]
            exact loop_nodup harch fuel data h
      rw [hacyclic, acyclic_iff_leadsBack]
      cases arch with
      | aarch32 => simp
      | aarch64 => exact iff_of_true (fun f _ => not_leadsBack (by decide) f) (.inl rfl)
      | riscv64 => exact absurd rfl harch

def selfLinked : Memory .aarch32 := fun a : BitVec 32 => some (if a = 0x1000 then 0x04 else if a = 0x1001 then 0x10 else 0)

theorem self_linked_frame_hangs : ¬∀ (arch : Arch) (mem : Memory arch) (fp : arch.Word), Ends arch mem fp := by
  intro h
  obtain ⟨⟨fuel, hdone⟩, -⟩ := h .aarch32 selfLinked (0x1004 : BitVec 32) Unit Unit (fun _ => none) (fun _ _ _ => (0, ())) ()
  have hself : Link (nextFrame selfLinked) (getFrame .aarch32 (0x1004 : BitVec 32)) (getFrame .aarch32 (0x1004 : BitVec 32)) := rfl
  have hloop := @loop_goes_on .aarch32 selfLinked (0x1004 : BitVec 32) Unit Unit (fun _ _ _ => (0, ())) () fuel
    (goes_on .refl (.single hself))
  exact absurd (hdone.symm.trans (congrArg Option.isSome hloop)) (by decide)

end Exact

end Mambo.Backtrace
