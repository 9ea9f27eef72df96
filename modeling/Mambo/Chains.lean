import Mathlib.Data.Fintype.Pigeonhole
import Mathlib.Logic.Relation
import Mathlib.Order.Preorder.Finite

namespace Mambo.Chains

open Relation

variable {α : Type*} {next : α → Option α} {a b c : α} {n m : Nat}

def Link (next : α → Option α) (a b : α) : Prop := next a = some b

/-- The element after n links; none if the chain ends before. -/
def path (next : α → Option α) (a : α) : Nat → Option α
  | 0 => some a
  | n + 1 => (next a).bind fun b => path next b n

theorem path_link (h : Link next a b) (n : Nat) : path next a (n + 1) = path next b n := by
  rw [path, h, Option.bind_some]

theorem path_reaches (h : path next a n = some b) : ReflTransGen (Link next) a b := by
  induction n generalizing a with
  | zero => exact Option.some.inj h ▸ .refl
  | succ n ih =>
      rw [path, Option.bind_eq_some_iff] at h
      obtain ⟨c, hlink, hpath⟩ := h
      exact .head hlink (ih hpath)

theorem path_add (n m : Nat) : path next a (n + m) = (path next a n).bind fun b => path next b m := by
  induction n generalizing a with
  | zero => rw [Nat.zero_add, path, Option.bind_some]
  | succ n ih =>
      rw [Nat.succ_add, path, path, Option.bind_assoc]
      exact Option.bind_congr fun b _ => ih

theorem path_trans (h : path next a n = some b) (hpos : 0 < n) : TransGen (Link next) a b := by
  obtain ⟨n, rfl⟩ : ∃ k, n = k + 1 := ⟨n - 1, by omega⟩
  rw [path, Option.bind_eq_some_iff] at h
  obtain ⟨c, hlink, hpath⟩ := h
  exact .head' hlink (path_reaches hpath)

def Acyclic (next : α → Option α) (a : α) : Prop := ∀ b, ReflTransGen (Link next) a b → ¬TransGen (Link next) b b

theorem Acyclic.link (h : Acyclic next a) (hlink : Link next a b) : Acyclic next b :=
  fun c hreach => h c (.head hlink hreach)

theorem Acyclic.ends [Finite α] (h : Acyclic next a) : ∃ n, path next a n = none := by
  by_contra hgoes
  push Not at hgoes
  have hsome : ∀ n, ∃ b, path next a n = some b := fun n => Option.ne_none_iff_exists'.mp (hgoes n)
  choose f hf using hsome
  obtain ⟨i, j, hne, heq⟩ := Finite.exists_ne_map_eq_of_infinite f
  have hcycle : ∀ i j, i < j → f i = f j → False := by
    intro i j hlt heq
    obtain ⟨d, rfl⟩ : ∃ d, j = i + d := ⟨j - i, by omega⟩
    have hpath : path next (f i) d = some (f i) := by
      have hj := hf (i + d)
      rwa [path_add, hf i, Option.bind_some, ← heq] at hj
    exact h (f i) (path_reaches (hf i)) (path_trans hpath (by omega))
  rcases Nat.lt_or_gt_of_ne hne with hlt | hgt
  · exact hcycle i j hlt heq
  · exact hcycle j i hgt heq.symm

theorem goes_on (hreach : ReflTransGen (Link next) a b) (hcycle : TransGen (Link next) b b) (n : Nat) :
    path next a n ≠ none := by
  have hnext : ∃ c, Link next a c ∧ ReflTransGen (Link next) c b := by
    rcases ReflTransGen.cases_head hreach with rfl | hstep
    · exact TransGen.head'_iff.mp hcycle
    · exact hstep
  induction n generalizing a with
  | zero => exact Option.some_ne_none a
  | succ n ih =>
      obtain ⟨c, hlink, hrest⟩ := hnext
      rw [path_link hlink]
      refine ih hrest ?_
      rcases ReflTransGen.cases_head hrest with rfl | hstep
      · exact TransGen.head'_iff.mp hcycle
      · exact hstep

theorem acyclic_iff [Finite α] (height : α → Nat) :
    Acyclic next a ↔
      ∀ b c, ReflTransGen (Link next) a b → Link next b c → height c ≤ height b → ¬ReflTransGen (Link next) c b := by
  constructor
  · intro h b c hreach hlink _ hback
    exact h b hreach (.head' hlink hback)
  · intro h b hreach hcycle
    obtain ⟨top, ⟨hto, hfrom⟩, htop⟩ := Set.Finite.exists_maximalFor height
      {x | TransGen (Link next) b x ∧ TransGen (Link next) x b} (Set.toFinite _) ⟨b, hcycle, hcycle⟩
    obtain ⟨c, hlink, hback⟩ := TransGen.head'_iff.mp hfrom
    have hc : TransGen (Link next) b c := hto.tail hlink
    refine h top c (hreach.trans hto.to_reflTransGen) hlink ?_ (hback.trans hto.to_reflTransGen)
    by_contra hle
    exact hle (htop ⟨hc, TransGen.trans_right hback hcycle⟩ (le_of_not_ge hle))

end Mambo.Chains
