import Mambo.Bytes
import Mathlib.Data.BitVec
import Mathlib.Tactic.Common

namespace Mambo.CallRuns

open Bytes

section Machines

/-- An address, and which instruction set the code there is in where there are two. -/
abbrev Place (w : Nat) := BitVec w × Bool

def past {w : Nat} (p : Place w) (n : Nat) : Place w := (p.1 + BitVec.ofNat w n, p.2)

/-- A processor with a stack, as straight code with calls in it sees it. Registers go by their numbers; the general
ones are those besides the stack pointer and the counter. -/
structure Machine (w : Nat) (ι σ : Type*) where
  exec : ι → σ → Option σ
  calls : ι → Bool
  size : ι → Nat
  place : σ → Place w
  jump : BitVec w → Place w
  set : Bool
  general : Nat → Prop
  get : σ → Nat → BitVec w
  sp : σ → BitVec w
  mem : σ → BitVec w → Byte

/-- A routine that is called: where it starts, and the state that it returns in. -/
structure Routine (w : Nat) (σ : Type*) where
  entry : BitVec w
  run : σ → σ

variable {w : Nat} {ι σ : Type*} (M : Machine w ι σ) (R : Routine w σ)

def bytes (is : List ι) : Nat := (is.map M.size).sum

def execAll (is : List ι) (s : σ) : Option σ := is.foldlM (fun s i => M.exec i s) s

/-- A run over code whose calls all go to one routine, and the states in which it was called. -/
def run : List ι → σ → Option (σ × List σ)
  | [], s => some (s, [])
  | i :: is, s =>
    (M.exec i s).bind fun u =>
      if M.calls i then
        if M.place u = M.jump R.entry then (run is (R.run u)).map fun r => (r.1, u :: r.2) else none
      else run is u

def InCode (p : Place w) : Prop := p.1.toNat % 2 = 0 ∧ p.2 = M.set

end Machines

section Runs

variable {w : Nat} {ι σ : Type*} {M : Machine w ι σ} {R : Routine w σ} {is js : List ι} {s u v : σ} {us vs : List σ}

theorem bytes_append : bytes M (is ++ js) = bytes M is + bytes M js := by
  simp [bytes]

theorem past_past (p : Place w) (m n : Nat) : past (past p m) n = past p (m + n) := by
  simp [past, BitVec.ofNat_add, BitVec.add_assoc]

theorem InCode.past {p : Place w} (h : InCode M p) {n : Nat} (hn : n % 2 = 0) : InCode M (past p n) := by
  refine ⟨?_, h.2⟩
  have hp := h.1
  show (p.1 + BitVec.ofNat w n).toNat % 2 = 0
  rw [BitVec.toNat_add, BitVec.toNat_ofNat]
  cases w with
  | zero => omega
  | succ w =>
      have htwo : 2 ∣ 2 ^ (w + 1) := Dvd.intro_left (2 ^ w) rfl
      rw [Nat.mod_mod_of_dvd _ htwo, Nat.add_mod, Nat.mod_mod_of_dvd _ htwo, hp, hn]

theorem bytes_even (heven : ∀ i, M.size i % 2 = 0) : bytes M is % 2 = 0 := by
  induction is with
  | nil => rfl
  | cons i is ih =>
      have hi := heven i
      rw [bytes, List.map_cons, List.sum_cons, ← bytes]
      omega

theorem execAll_append : execAll M (is ++ js) s = (execAll M is s).bind (execAll M js) := List.foldlM_append

theorem run_append_some (h : run M R is s = some (u, us)) (h' : run M R js u = some (v, vs)) :
    run M R (is ++ js) s = some (v, us ++ vs) := by
  induction is generalizing s us with
  | nil =>
      obtain ⟨rfl, rfl⟩ := Prod.mk.inj (Option.some.inj h)
      exact h'
  | cons i is ih =>
      obtain ⟨t, ht, hrest⟩ := Option.bind_eq_some_iff.mp h
      rw [List.cons_append, run, ht, Option.bind_some]
      split at hrest
      next hcall =>
        split at hrest
        next hplace =>
          obtain ⟨⟨q, qs⟩, hq, heq⟩ := Option.map_eq_some_iff.mp hrest
          obtain ⟨rfl, rfl⟩ := Prod.mk.inj heq
          rw [if_pos hcall, if_pos hplace, ih hq, Option.map_some, List.cons_append]
        next => exact absurd hrest (by simp)
      next hcall => rw [if_neg hcall, ih hrest]

def Silent (M : Machine w ι σ) (is : List ι) : Prop := ∀ i ∈ is, M.calls i = false

theorem Silent.append (h : Silent M is) (h' : Silent M js) : Silent M (is ++ js) := fun i hi =>
  (List.mem_append.mp hi).elim (h i) (h' i)

theorem run_silent (h : Silent M is) (hexec : execAll M is s = some u) : run M R is s = some (u, []) := by
  induction is generalizing s with
  | nil => exact congrArg (fun t => some (t, [])) (Option.some.inj hexec)
  | cons i is ih =>
      obtain ⟨t, ht, hrest⟩ := Option.bind_eq_some_iff.mp hexec
      rw [run, show M.exec i s = some t from ht, Option.bind_some, h i List.mem_cons_self, if_neg Bool.false_ne_true]
      exact ih (fun j hj => h j (List.mem_cons_of_mem i hj)) hrest

theorem Silent.no_call (h : Silent M is) (hrun : run M R is s = some (u, us)) : us = [] := by
  induction is generalizing s with
  | nil => exact (Prod.mk.inj (Option.some.inj hrun)).2.symm
  | cons i is ih =>
      obtain ⟨t, -, hrest⟩ := Option.bind_eq_some_iff.mp hrun
      rw [h i List.mem_cons_self, if_neg Bool.false_ne_true] at hrest
      exact ih (fun j hj => h j (List.mem_cons_of_mem i hj)) hrest

theorem run_first_call {α : Type*} {f : σ → α} (hkeep : ∀ i ∈ is, ∀ s t, M.exec i s = some t → f t = f s)
    (hrun : run M R is s = some (v, u :: us)) : f u = f s := by
  induction is generalizing s with
  | nil => exact absurd (Prod.mk.inj (Option.some.inj hrun)).2 (by simp)
  | cons i is ih =>
      obtain ⟨t, ht, hrest⟩ := Option.bind_eq_some_iff.mp hrun
      have hfirst := hkeep i List.mem_cons_self s t ht
      split at hrest
      · split at hrest
        · obtain ⟨q, -, heq⟩ := Option.map_eq_some_iff.mp hrest
          rw [← (List.cons.inj (Prod.mk.inj heq).2).1, hfirst]
        · exact absurd hrest (by simp)
      · rw [ih (fun j hj => hkeep j (List.mem_cons_of_mem i hj)) hrest, hfirst]

end Runs

section Effects

variable {w : Nat} {ι σ : Type*} (M : Machine w ι σ)

/-- Code without calls takes a state to one behind the code. -/
structure Goes (is : List ι) (s u : σ) : Prop where
  silent : Silent M is
  exec : execAll M is s = some u
  place : M.place u = past (M.place s) (bytes M is)

structure SameStack (s u : σ) : Prop where
  sp : M.sp u = M.sp s
  mem : M.mem u = M.mem s

/-- The stack pointer is what it was, and so are n bytes from there on. -/
structure Intact (n : Nat) (s u : σ) : Prop where
  sp : M.sp u = M.sp s
  mem : ∀ d, d < n → M.mem u (M.sp s + BitVec.ofNat w d) = M.mem s (M.sp s + BitVec.ofNat w d)

/-- Code that sets one register and changes nothing else. -/
def Sets (r : Nat) (v : BitVec w) (is : List ι) : Prop :=
  ∀ s, ∃ u, Goes M is s u ∧ M.get u r = v ∧ (∀ r', M.general r' → r' ≠ r → M.get u r' = M.get s r') ∧ SameStack M s u

/-- Code that sets one register to a value of the state before it, and changes nothing else. -/
def Puts (r : Nat) (value : σ → BitVec w) (is : List ι) : Prop :=
  ∀ s, ∃ u, Goes M is s u ∧ M.get u r = value s ∧ (∀ r', M.general r' → r' ≠ r → M.get u r' = M.get s r') ∧ SameStack M s u

/-- Code that saves the registers of a set on the stack, and code that loads them again, whatever has run between and
left the stack alone. -/
def Saves (regs : BitVec 32) (room : Nat) (is js : List ι) : Prop :=
  ∀ s, ∃ u, Goes M is s u ∧ (∀ r, M.general r → M.get u r = M.get s r) ∧
    ∀ v n, room + n ≤ 2 ^ w → Intact M (room + n) u v → ∃ t, Goes M js v t ∧ Intact M n s t ∧
      ∀ r, M.general r → M.get t r = if regs.getLsbD r then M.get s r else M.get v r

/-- An instruction that calls what a register holds, and leaves in it where the code goes on. -/
def Links (lr : Nat) (i : ι) : Prop :=
  M.calls i = true ∧ ∀ s, InCode M (M.place s) → ∃ u, M.exec i s = some u ∧ M.place u = M.jump (M.get s lr) ∧
    M.jump (M.get u lr) = past (M.place s) (M.size i) ∧ (∀ r, M.general r → r ≠ lr → M.get u r = M.get s r) ∧
    SameStack M s u

/-- What a caller may count on: the routine returns, changes registers of a set only, and leaves the stack of its
caller as it is. -/
structure Abides (R : Routine w σ) (lr : Nat) (clobbers : Nat → Prop) (room : Nat) : Prop where
  returns : ∀ u, M.place u = M.jump R.entry → M.place (R.run u) = M.jump (M.get u lr)
  keeps : ∀ u r, M.place u = M.jump R.entry → M.general r → ¬clobbers r → M.get (R.run u) r = M.get u r
  stack : ∀ u, M.place u = M.jump R.entry → Intact M room u (R.run u)

end Effects

section Chains

variable {w : Nat} {ι σ : Type*} {M : Machine w ι σ} {R : Routine w σ} {is js : List ι} {i : ι} {s u v : σ} {n m : Nat}

theorem Goes.append (h : Goes M is s u) (h' : Goes M js u v) : Goes M (is ++ js) s v where
  silent := h.silent.append h'.silent
  exec := by rw [execAll_append, h.exec, Option.bind_some, h'.exec]
  place := by rw [h'.place, h.place, past_past, bytes_append]

theorem Goes.nil : Goes M [] s s where
  silent i hi := absurd hi List.not_mem_nil
  exec := rfl
  place := by simp [past, bytes]

theorem SameStack.refl : SameStack M s s := ⟨rfl, rfl⟩

theorem SameStack.trans (h : SameStack M s u) (h' : SameStack M u v) : SameStack M s v :=
  ⟨h'.sp.trans h.sp, h'.mem.trans h.mem⟩

theorem SameStack.intact (h : SameStack M s u) : Intact M n s u := ⟨h.sp, fun _ _ => by rw [h.mem]⟩

theorem Intact.trans (h : Intact M n s u) (h' : Intact M n u v) : Intact M n s v where
  sp := h'.sp.trans h.sp
  mem d hd := by
    have hmem := h'.mem d hd
    rw [h.sp] at hmem
    rw [hmem, h.mem d hd]

theorem Intact.mono (h : Intact M n s u) (hm : m ≤ n) : Intact M m s u := ⟨h.sp, fun d hd => h.mem d (by omega)⟩

theorem Puts.nil {r : Nat} : Puts M r (fun s => M.get s r) [] := fun s =>
  ⟨s, Goes.nil, rfl, fun _ _ _ => rfl, SameStack.refl⟩

theorem sets_range {value : Nat → BitVec w} {code : Nat → List ι} (hgeneral : ∀ a, a < n → M.general a)
    (hset : ∀ a, a < n → Sets M a (value a) (code a)) (s : σ) :
    ∃ u, Goes M ((List.range n).flatMap code) s u ∧ (∀ a, a < n → M.get u a = value a) ∧
      (∀ r, M.general r → n ≤ r → M.get u r = M.get s r) ∧ SameStack M s u := by
  induction n with
  | zero => exact ⟨s, Goes.nil, fun a ha => absurd ha (Nat.not_lt_zero a), fun r _ _ => rfl, SameStack.refl⟩
  | succ n ih =>
      obtain ⟨t, hgoes, hvalues, hothers, hstack⟩ :=
        ih (fun a ha => hgeneral a (by omega)) fun a ha => hset a (by omega)
      obtain ⟨u, hgoes', hvalue, hothers', hstack'⟩ := hset n (by omega) t
      refine ⟨u, ?_, fun a ha => ?_, fun r hr hn => ?_, hstack.trans hstack'⟩
      · rw [List.range_succ, List.flatMap_append]
        simpa using hgoes.append hgoes'
      · rcases Nat.lt_succ_iff_lt_or_eq.mp ha with hlt | rfl
        · rw [hothers' a (hgeneral a ha) (by omega), hvalues a hlt]
        · exact hvalue
      · rw [hothers' r hr (by omega), hothers r hr (by omega)]

end Chains

section Calls

variable {w : Nat} {ι σ : Type*} {M : Machine w ι σ} {R : Routine w σ} {setF setL isOuter jsOuter isInner jsInner : List ι}
  {i : ι} {s u t : σ} {f lr n room roomOuter roomInner : Nat} {fptr : BitVec w} {clobbers : Nat → Prop}
  {outer inner : BitVec 32} {value : Nat → BitVec w} {code : Nat → List ι}

/-- One call has been made, in the state u, and the code is behind it. -/
structure Called (M : Machine w ι σ) (R : Routine w σ) (is : List ι) (s u t : σ) : Prop where
  run : run M R is s = some (t, [u])
  place : M.place t = past (M.place s) (bytes M is)

theorem Called.after {is js : List ι} {v : σ} (hgoes : Goes M is s v) (h : Called M R js v u t) :
    Called M R (is ++ js) s u t where
  run := run_append_some (run_silent hgoes.silent hgoes.exec) h.run
  place := by rw [h.place, hgoes.place, past_past, bytes_append]

theorem Called.before {is js : List ι} {v : σ} (h : Called M R is s u t) (hgoes : Goes M js t v) :
    Called M R (is ++ js) s u v where
  run := run_append_some h.run (run_silent hgoes.silent hgoes.exec)
  place := by rw [hgoes.place, h.place, past_past, bytes_append]

/-- How the registers are shared out: arguments in the first n, the routine's own in f, and what is saved around the
arguments and around the call. -/
structure Convention (M : Machine w ι σ) (outer inner : BitVec 32) (f lr n : Nat) (clobbers : Nat → Prop) : Prop where
  even : ∀ j, M.size j % 2 = 0
  general : ∀ r, r < n ∨ r = f → M.general r
  ne : f ≠ lr
  outer : ∀ r, outer.getLsbD r = decide (r < n)
  args : ∀ r, r < n → inner.getLsbD r = false
  f : inner.getLsbD f = true
  lr : inner.getLsbD lr = true
  clobbers : ∀ r, clobbers r → inner.getLsbD r = true ∨ r < n

theorem called_routine (heven : ∀ j, M.size j % 2 = 0) (hlr : Sets M lr R.entry setL) (hlink : Links M lr i)
    (habides : Abides M R lr clobbers room) (hcode : InCode M (M.place s)) :
    ∃ u, Called M R (setL ++ [i]) s u (R.run u) ∧ M.place u = M.jump R.entry ∧
      (∀ r, M.general r → r ≠ lr → M.get u r = M.get s r) ∧ SameStack M s u := by
  obtain ⟨s₁, hgoes, hvalue, hothers₁, hstack₁⟩ := hlr s
  have hcode₁ : InCode M (M.place s₁) := by
    rw [hgoes.place]
    exact hcode.past (bytes_even heven)
  obtain ⟨hcalls, hexec⟩ := hlink
  obtain ⟨u, hu, hplace, hback, hothers, hstack⟩ := hexec s₁ hcode₁
  rw [hvalue] at hplace
  have hrun : run M R [i] s₁ = some (R.run u, [u]) := by
    rw [run, hu, Option.bind_some, if_pos hcalls, if_pos hplace]
    rfl
  refine ⟨u, ⟨run_append_some (run_silent hgoes.silent hgoes.exec) hrun, ?_⟩, hplace,
    fun r hr hne => by rw [hothers r hr hne, hothers₁ r hr hne], hstack₁.trans hstack⟩
  rw [habides.returns u hplace, hback, hgoes.place, past_past, bytes_append]
  simp [bytes]

theorem called_link (hconv : Convention M outer inner f lr n clobbers) (hf : Sets M f fptr setF)
    (hlr : Sets M lr R.entry setL) (hlink : Links M lr i) (habides : Abides M R lr clobbers room)
    (hcode : InCode M (M.place s)) :
    ∃ u t, Called M R (setF ++ setL ++ [i]) s u t ∧ M.get u f = fptr ∧ Intact M room s t ∧
      ∀ r, M.general r → inner.getLsbD r = false → M.get u r = M.get s r ∧ (n ≤ r → M.get t r = M.get s r) := by
  obtain ⟨s₁, hgoes₁, hvalue₁, hothers₁, hstack₁⟩ := hf s
  have hcode₁ : InCode M (M.place s₁) := by
    rw [hgoes₁.place]
    exact hcode.past (bytes_even hconv.even)
  obtain ⟨u, hcalled, hplace, hothers, hstack⟩ := called_routine hconv.even hlr hlink habides hcode₁
  have hfg := hconv.general f (Or.inr rfl)
  refine ⟨u, R.run u, ?_, ?_, ?_, fun r hr hin => ?_⟩
  · rw [List.append_assoc]
    exact hcalled.after hgoes₁
  · rw [hothers f hfg hconv.ne, hvalue₁]
  · exact (hstack₁.trans hstack).intact.trans (habides.stack u hplace)
  · have hrf : r ≠ f := fun heq => by simp [heq, hconv.f] at hin
    have hrl : r ≠ lr := fun heq => by simp [heq, hconv.lr] at hin
    have hsame : M.get u r = M.get s r := by rw [hothers r hr hrl, hothers₁ r hr hrf]
    refine ⟨hsame, fun hn => ?_⟩
    have hclobber : ¬clobbers r := fun h => (hconv.clobbers r h).elim (by simp [hin]) (by omega)
    rw [habides.keeps u r hplace hr hclobber, hsame]

/-- The call between two saves, with arguments set between them, gives every register back. -/
theorem called_saved (hconv : Convention M outer inner f lr n clobbers) (houter : Saves M outer roomOuter isOuter jsOuter)
    (hinner : Saves M inner roomInner isInner jsInner) (hargs : ∀ a, a < n → Sets M a (value a) (code a))
    (hf : Sets M f fptr setF) (hlr : Sets M lr R.entry setL) (hlink : Links M lr i)
    (habides : Abides M R lr clobbers room) (hrooms : roomInner + roomOuter ≤ room) (hroom : room ≤ 2 ^ w)
    (hcode : InCode M (M.place s)) :
    ∃ u t, Called M R (isOuter ++ ((List.range n).flatMap code ++ (isInner ++ (setF ++ setL ++ [i]) ++ jsInner)) ++ jsOuter)
        s u t ∧
      M.get u f = fptr ∧ (∀ a, a < n → M.get u a = value a) ∧ (∀ r, M.general r → M.get t r = M.get s r) ∧ M.sp t = M.sp s := by
  obtain ⟨s₁, hpush₁, hkeep₁, hpop₁⟩ := houter s
  obtain ⟨s₂, hset, hvalue, hothers, hstack⟩ := sets_range (fun a ha => hconv.general a (Or.inl ha)) hargs s₁
  obtain ⟨s₃, hpush₃, hkeep₃, hpop₃⟩ := hinner s₂
  have hcode₃ : InCode M (M.place s₃) := by
    rw [((hpush₁.append hset).append hpush₃).place]
    exact hcode.past (bytes_even hconv.even)
  obtain ⟨u, s₄, hcalled, hfptr, hintact, hregs⟩ := called_link hconv hf hlr hlink habides hcode₃
  obtain ⟨s₅, hgoes₅, hintact₅, hget₅⟩ := hpop₃ s₄ roomOuter (by omega) (hintact.mono hrooms)
  obtain ⟨t, hgoes, hsp, hget⟩ := hpop₁ s₅ 0 (by omega) (hstack.intact.trans hintact₅)
  refine ⟨u, t, (((hcalled.after hpush₃).before hgoes₅).after hset).after hpush₁ |>.before hgoes, hfptr, fun a ha => ?_,
    fun r hr => ?_, hsp.sp⟩
  · have hgeneral := hconv.general a (Or.inl ha)
    rw [(hregs a hgeneral (hconv.args a ha)).1, hkeep₃ a hgeneral, hvalue a ha]
  · rw [hget r hr, hconv.outer r]
    by_cases hrn : r < n
    · simp [hrn]
    · have hback : M.get s₅ r = M.get s r := by
        rw [hget₅ r hr]
        split
        next => rw [hothers r hr (by omega), hkeep₁ r hr]
        next hin => rw [(hregs r hr (by simpa using hin)).2 (by omega), hkeep₃ r hr, hothers r hr (by omega), hkeep₁ r hr]
      simp [hrn, hback]

end Calls

end Mambo.CallRuns
