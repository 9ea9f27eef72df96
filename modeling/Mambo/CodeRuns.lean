import Mathlib.Data.BitVec
import Mathlib.Logic.Relation
import Mathlib.Tactic.Common

namespace Mambo.CodeRuns

/-- A processor with instructions ι and states σ; execution sets the counter too. -/
structure Processor (w : Nat) (ι σ : Type*) where
  pc : σ → BitVec w
  size : ι → BitVec w
  exec : ι → σ → σ

variable {w : Nat} {ι σ : Type*} (P : Processor w ι σ) {fetch : BitVec w → Option ι}

def step (fetch : BitVec w → Option ι) (s : σ) : Option σ := (fetch (P.pc s)).map fun i => P.exec i s

def Steps (fetch : BitVec w → Option ι) (s t : σ) : Prop := step P fetch s = some t

/-- Some number of instructions, at least one for Runs. -/
abbrev Reaches (fetch : BitVec w → Option ι) : σ → σ → Prop := Relation.ReflTransGen (Steps P fetch)

abbrev Runs (fetch : BitVec w → Option ι) : σ → σ → Prop := Relation.TransGen (Steps P fetch)

/-- The instructions of a list one after the other from an address on. -/
def CodeAt (fetch : BitVec w → Option ι) : BitVec w → List ι → Prop
  | _, [] => True
  | a, i :: is => fetch a = some i ∧ CodeAt fetch (a + P.size i) is

def extent : List ι → BitVec w
  | [] => 0
  | i :: is => P.size i + extent is

def Plain (i : ι) : Prop := ∀ s, P.pc (P.exec i s) = P.pc s + P.size i

variable {P}

theorem steps_of_fetch {s : σ} {i : ι} (h : fetch (P.pc s) = some i) : Steps P fetch s (P.exec i s) := by
  rw [Steps, step, h, Option.map_some]

theorem codeAt_append {a : BitVec w} {is js : List ι} :
    CodeAt P fetch a (is ++ js) ↔ CodeAt P fetch a is ∧ CodeAt P fetch (a + extent P is) js := by
  induction is generalizing a with
  | nil => simp [CodeAt, extent]
  | cons i is ih => rw [List.cons_append, CodeAt, CodeAt, ih, and_assoc, extent, BitVec.add_assoc]

theorem extent_append (is js : List ι) : extent P (is ++ js) = extent P is + extent P js := by
  induction is with
  | nil => simp [extent]
  | cons i is ih => rw [List.cons_append, extent, ih, extent, BitVec.add_assoc]

theorem CodeAt.reaches {is : List ι} (hplain : ∀ i ∈ is, Plain P i) {s : σ} (h : CodeAt P fetch (P.pc s) is) :
    Reaches P fetch s (is.foldl (fun s i => P.exec i s) s) ∧
      P.pc (is.foldl (fun s i => P.exec i s) s) = P.pc s + extent P is := by
  induction is generalizing s with
  | nil => exact ⟨Relation.ReflTransGen.refl, by simp [extent]⟩
  | cons i is ih =>
      have hpc := hplain i List.mem_cons_self s
      obtain ⟨hreach, hend⟩ := ih (fun j hj => hplain j (List.mem_cons_of_mem _ hj)) (hpc ▸ h.2)
      rw [hpc] at hend
      refine ⟨Relation.ReflTransGen.head (steps_of_fetch h.1) hreach, ?_⟩
      rw [List.foldl_cons, hend, extent, BitVec.add_assoc]

section Deterministic

theorem Reaches.linear {s t u : σ} (ht : Reaches P fetch s t) (hu : Reaches P fetch s u) :
    Reaches P fetch t u ∨ Reaches P fetch u t :=
  Relation.ReflTransGen.total_of_right_unique (fun _ _ _ h h' => Option.some.inj (h.symm.trans h')) ht hu

/-- A state without an instruction is where every run from a state before it ends. -/
theorem Reaches.to_stop {s t u : σ} (ht : Reaches P fetch s t) (hstop : fetch (P.pc t) = none)
    (hu : Reaches P fetch s u) : Reaches P fetch u t := by
  rcases ht.linear hu with h | h
  · rcases Relation.ReflTransGen.cases_head h with rfl | ⟨v, hv, -⟩
    · exact Relation.ReflTransGen.refl
    · rw [Steps, step, hstop, Option.map_none] at hv
      exact absurd hv (by simp)
  · exact h

theorem Reaches.stop_unique {s t u : σ} (ht : Reaches P fetch s t) (hstop : fetch (P.pc t) = none)
    (hu : Reaches P fetch s u) (hstop' : fetch (P.pc u) = none) : t = u := by
  rcases Relation.ReflTransGen.cases_head (ht.to_stop hstop hu) with rfl | ⟨v, hv, -⟩
  · rfl
  · rw [Steps, step, hstop', Option.map_none] at hv
    exact absurd hv (by simp)

theorem Reaches.no_cycle {s t : σ} (ht : Reaches P fetch s t) (hstop : fetch (P.pc t) = none) :
    ¬ Runs P fetch s s := by
  intro hcycle
  -- the end would lie on the cycle, and so have a successor
  have hfrom : ∀ u, Reaches P fetch s u → Runs P fetch u s := by
    intro u hu
    induction hu with
    | refl => exact hcycle
    | @tail u v _ hstep ih =>
        obtain ⟨v', hv', hrest⟩ := Relation.TransGen.head'_iff.mp ih
        obtain rfl : v' = v := Option.some.inj (hv'.symm.trans hstep)
        rcases Relation.ReflTransGen.cases_head hrest with rfl | ⟨x, hx, hx'⟩
        · exact hcycle
        · exact Relation.TransGen.head' hx hx'
  obtain ⟨v, hv, -⟩ := Relation.TransGen.head'_iff.mp (hfrom t ht)
  rw [Steps, step, hstop, Option.map_none] at hv
  exact absurd hv (by simp)

end Deterministic

end Mambo.CodeRuns
