import Mathlib.Data.List.Basic
import Mathlib.Data.Set.Insert
import Mathlib.Logic.Function.Basic
import Mathlib.Tactic.Common

namespace Mambo.ThreadRegistry

variable {α : Type*}

/-- The head of the list of threads, and the link in each thread structure. -/
structure Registry (α : Type*) where
  threads : Option α
  nextThread : α → Option α

section Calls

variable [DecidableEq α]

def registerThread (t : α) (g : Registry α) : Registry α :=
  ⟨some t, Function.update g.nextThread t g.threads⟩

/-- The walk to the thread in front of another, or to the last one. -/
def prevThread (g : Registry α) (t : α) : Nat → α → Option α
  | 0, _ => none
  | fuel + 1, prev =>
    match g.nextThread prev with
    | none => some prev
    | some next => if next = t then some prev else prevThread g t fuel next

/-- None where the head of an empty list is read, or where the walk does not end. -/
def unregisterThread (fuel : Nat) (t : α) (g : Registry α) : Option (Int × Registry α) :=
  if g.threads = some t then some (0, { g with threads := g.nextThread t })
  else do
    let head ← g.threads
    let prev ← prevThread g t fuel head
    if g.nextThread prev = some t then
      return (0, { g with nextThread := Function.update g.nextThread prev (g.nextThread t) })
    else return (-1, g)

/-- The loop of free_all_other_threads, with the threads it has freed, latest first. None
where a thread structure is used that is no longer there. -/
def freeLoop (g : Registry α) (t : α) : Nat → Option α → List α → Option (List α)
  | 0, _, _ => none
  | _ + 1, none, freed => some freed
  | fuel + 1, some it, freed =>
    let next := g.nextThread t
    if it = t then freeLoop g t fuel next freed
    else if it ∈ freed then none
    else freeLoop g t fuel next (it :: freed)

def freeAllOtherThreads (fuel : Nat) (t : α) (g : Registry α) : Option (List α × Registry α) :=
  (freeLoop g t fuel g.threads []).map fun freed => (freed, { g with threads := some t })

inductive Call (α : Type*)
  | register (t : α)
  | unregister (t : α)
  | freeAll (t : α)
  deriving DecidableEq

/-- What a call returns: a status, and the threads it has freed. -/
structure Result (α : Type*) where
  status : Int
  freed : List α

def call (fuel : Nat) (c : Call α) (g : Registry α) : Option (Result α × Registry α) :=
  match c with
  | .register t => some (⟨0, []⟩, registerThread t g)
  | .unregister t => (unregisterThread fuel t g).map fun r => (⟨r.1, []⟩, r.2)
  | .freeAll t => (freeAllOtherThreads fuel t g).map fun r => (⟨0, r.1⟩, r.2)

/-- The call comes to an end. -/
def Ends (c : Call α) (g : Registry α) (r : Result α) (g' : Registry α) : Prop := ∃ fuel, call fuel c g = some (r, g')

end Calls

section Walks

def Walk (next : α → Option α) : Option α → List α → Prop
  | p, [] => p = none
  | p, t :: ts => p = some t ∧ Walk next (next t) ts

variable [DecidableEq α] {next : α → Option α} {p v : Option α} {q t : α} {ts ts' pre post : List α}

omit [DecidableEq α] in
theorem Walk.unique (h : Walk next p ts) (h' : Walk next p ts') : ts = ts' := by
  induction ts generalizing p ts' with
  | nil =>
      cases ts' with
      | nil => rfl
      | cons t ts' => exact absurd (h.symm.trans h'.1) (by simp)
  | cons t ts ih =>
      cases ts' with
      | nil => exact absurd (h'.symm.trans h.1) (by simp)
      | cons t' ts' =>
          obtain rfl : t = t' := Option.some.inj (h.1.symm.trans h'.1)
          rw [ih h.2 h'.2]

theorem Walk.update (h : Walk next p ts) (ht : t ∉ ts) : Walk (Function.update next t v) p ts := by
  induction ts generalizing p with
  | nil => exact h
  | cons u ts ih =>
      obtain ⟨hne, hts⟩ := not_or.mp (List.mem_cons.not.mp ht)
      refine ⟨h.1, ?_⟩
      rw [Function.update_of_ne (Ne.symm hne)]
      exact ih h.2 hts

omit [DecidableEq α] in
theorem walk_append : Walk next p (pre ++ t :: post) → Walk next (some t) (t :: post) := by
  induction pre generalizing p with
  | nil => exact fun h => ⟨rfl, h.2⟩
  | cons u pre ih => exact fun h => ih h.2

theorem Walk.remove (h : Walk next p (pre ++ q :: t :: post)) (hnodup : (pre ++ q :: t :: post).Nodup) :
    Walk (Function.update next q (next t)) p (pre ++ q :: post) := by
  induction pre generalizing p with
  | nil =>
      obtain ⟨hp, -, hpost⟩ := h
      obtain ⟨hq, -⟩ := List.nodup_cons.mp hnodup
      refine ⟨hp, ?_⟩
      rw [Function.update_self]
      exact hpost.update fun hmem => hq (List.mem_cons_of_mem _ hmem)
  | cons u pre ih =>
      obtain ⟨hu, hnodup'⟩ := List.nodup_cons.mp hnodup
      have hne : u ≠ q := by
        rintro rfl
        exact hu (List.mem_append_right _ List.mem_cons_self)
      refine ⟨h.1, ?_⟩
      rw [Function.update_of_ne hne]
      exact ih h.2 hnodup'

theorem Walk.upto (h : Walk next p (pre ++ t :: post)) (ht : t ∉ pre) (h' : Walk (Function.update next t v) p ts') :
    ∃ rest, ts' = pre ++ t :: rest ∧ Walk (Function.update next t v) v rest := by
  induction pre generalizing p ts' with
  | nil =>
      cases ts' with
      | nil => exact absurd (h'.symm.trans h.1) (by simp)
      | cons u rest =>
          obtain rfl : u = t := Option.some.inj (h'.1.symm.trans h.1)
          have hrest := h'.2
          rw [Function.update_self] at hrest
          exact ⟨rest, rfl, hrest⟩
  | cons u pre ih =>
      obtain ⟨hne, hpre⟩ := not_or.mp (List.mem_cons.not.mp ht)
      cases ts' with
      | nil => exact absurd (h'.symm.trans h.1) (by simp)
      | cons u' rest =>
          obtain rfl : u' = u := Option.some.inj (h'.1.symm.trans h.1)
          have hnext := h'.2
          rw [Function.update_of_ne (Ne.symm hne)] at hnext
          obtain ⟨rest', rfl, hrest⟩ := ih h.2 hpre hnext
          exact ⟨rest', rfl, hrest⟩

theorem not_walk_cycle (h : Walk next p ts) (ht : t ∈ ts) : ¬ Walk (Function.update next t p) p ts' := by
  obtain ⟨pre, post, rfl, hpre⟩ := List.eq_append_cons_of_mem ht
  induction hn : ts'.length using Nat.strong_induction_on generalizing ts' with
  | _ n ih =>
      intro h'
      obtain ⟨rest, rfl, hrest⟩ := h.upto hpre h'
      have hlt : rest.length < n := by
        rw [← hn, List.length_append, List.length_cons]
        omega
      exact ih rest.length hlt rfl hrest

end Walks

section Specification

/-- The list that is reachable from the head is finite and has the given threads, each
once. -/
def Holds (g : Registry α) (registered : Set α) : Prop :=
  ∃ ts, Walk g.nextThread g.threads ts ∧ ts.Nodup ∧ ∀ t, t ∈ ts ↔ t ∈ registered

/-- The threads that are registered after a call and not unregistered or freed. -/
def Call.after (c : Call α) (registered : Set α) : Set α :=
  match c with
  | .register t => insert t registered
  | .unregister t => {u ∈ registered | u ≠ t}
  | .freeAll t => {u ∈ registered | u = t}

def Call.Returns (c : Call α) (registered : Set α) (g g' : Registry α) (r : Result α) : Prop :=
  match c with
  | .register _ => r.status = 0
  | .unregister t => (t ∈ registered → r.status = 0) ∧ (t ∉ registered → r.status = -1 ∧ g' = g)
  | .freeAll t => r.freed.Nodup ∧ (∀ u, u ∈ r.freed ↔ u ∈ registered ∧ u ≠ t) ∧ Walk g'.nextThread g'.threads [t]

variable [DecidableEq α]

/-- Every call of a sequence comes to an end and does what it has to. -/
def RunOk (g : Registry α) (registered : Set α) : List (Call α) → Prop
  | [] => True
  | c :: cs => ∃ r g', Ends c g r g' ∧ c.Returns registered g g' r ∧ Holds g' (c.after registered) ∧
      RunOk g' (c.after registered) cs

/-- The list after a call, latest registration first. -/
def Call.next (c : Call α) (ts : List α) : List α :=
  match c with
  | .register t => t :: ts
  | .unregister t => ts.erase t
  | .freeAll t => [t]

/-- The calls that work on a list: a thread is not registered twice, the list is not
empty when a thread leaves it, and a thread that frees the others is the first that was
registered and there is at most one other. -/
def Call.Fits (c : Call α) (ts : List α) : Prop :=
  match c with
  | .register t => t ∉ ts
  | .unregister _ => ts ≠ []
  | .freeAll t => ts.getLast? = some t ∧ ts.length ≤ 2

def FitsAll (ts : List α) : List (Call α) → Prop
  | [] => True
  | c :: cs => c.Fits ts ∧ FitsAll (c.next ts) cs

end Specification

end Mambo.ThreadRegistry
