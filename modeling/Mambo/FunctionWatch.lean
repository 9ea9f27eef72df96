import Mathlib.Data.BitVec
import Mathlib.Data.Set.Insert
import Mambo.SwapRemove

namespace Mambo.FunctionWatch

open SwapRemove

variable {N C : Type} {w : Nat}

structure WatchedFunc (N C : Type) where
  name : N
  pluginId : Int
  preCallback : Option C
  postCallback : Option C

/-- `watched_funcp_t`; the pointer to an entry of `funcs` is its index. -/
structure WatchedFuncp (w : Nat) where
  addr : BitVec w
  func : Nat
deriving DecidableEq

/-- `watched_functions_t`: the slots of `funcs` that were written, and the first
`funcp_count` entries of `funcps`. -/
structure WatchedFunctions (N C : Type) (w : Nat) where
  funcCount : Nat
  funcsLock : Bool
  funcs : List (WatchedFunc N C)
  funcpsLock : Bool
  funcps : List (WatchedFuncp w)

def maxWatchedFuncs : Nat := 40

def maxWatchedFuncPtrs : Nat := 80

variable {self self' : WatchedFunctions N C w} {watch : Set (WatchedFuncp w)} {ret : Int}

section Code

/-- Taking a lock that is held never returns: nobody else is there to release it. -/
def lockFuncs (self : WatchedFunctions N C w) : Option (WatchedFunctions N C w) :=
  if self.funcsLock then none else some { self with funcsLock := true }

def lockFuncps (self : WatchedFunctions N C w) : Option (WatchedFunctions N C w) :=
  if self.funcpsLock then none else some { self with funcpsLock := true }

def unlockFuncs (self : WatchedFunctions N C w) : WatchedFunctions N C w :=
  { self with funcsLock := false }

def unlockFuncps (self : WatchedFunctions N C w) : WatchedFunctions N C w :=
  { self with funcpsLock := false }

def functionWatchInit : WatchedFunctions N C w := ⟨0, false, [], false, []⟩

variable [DecidableEq N]

def functionWatchSearch (self : WatchedFunctions N C w) (name : N) : Int :=
  if (self.funcs.take self.funcCount).any (fun f => name = f.name) then 1 else 0

def functionWatchAdd (self : WatchedFunctions N C w) (name : N) (pluginId : Int)
    (preCallback postCallback : Option C) : Option (WatchedFunctions N C w × Int) :=
  (lockFuncs self).bind fun self =>
    if functionWatchSearch self name > 0 then some (self, -101)
    else
      let idx := self.funcCount
      let self := { self with funcCount := idx + 1 }
      if idx ≥ maxWatchedFuncs then some (self, -102)
      else
        let self := { self with funcs := self.funcs ++ [⟨name, pluginId, preCallback, postCallback⟩] }
        some (unlockFuncs self, 0)

def functionWatchAddp (self : WatchedFunctions N C w) (func : Nat) (addr : BitVec w) :
    Option (WatchedFunctions N C w × Int) :=
  (lockFuncps self).bind fun self =>
    if self.funcps.any fun p => p.func = func ∧ p.addr = addr then some (unlockFuncps self, 0)
    else if self.funcps.length ≥ maxWatchedFuncPtrs then some (unlockFuncps self, -2)
    else some (unlockFuncps { self with funcps := self.funcps ++ [⟨addr, func⟩] }, 0)

/-- The pass over the indices of `funcs`; the assertion ends the program. -/
def tryAddpLoop (name : N) (addr : BitVec w) :
    List Nat → WatchedFunctions N C w → Option (WatchedFunctions N C w)
  | [], self => some self
  | i :: rest, self =>
    if (self.funcs[i]?).any (fun f => name = f.name) then
      (functionWatchAddp self i addr).bind fun r =>
        if r.2 = 0 then tryAddpLoop name addr rest r.1 else none
    else tryAddpLoop name addr rest self

def functionWatchTryAddp (self : WatchedFunctions N C w) (name : N) (addr : BitVec w) :
    Option (WatchedFunctions N C w) :=
  (lockFuncs self).bind fun self =>
    (tryAddpLoop name addr (List.range self.funcCount) self).map unlockFuncs

omit [DecidableEq N]

def functionWatchDeleteAddp (self : WatchedFunctions N C w) (i : Nat) : WatchedFunctions N C w × Int :=
  if (i : Int) > (self.funcps.length : Int) - 1 then (self, -1)
  else ({ self with funcps := swapRemove self.funcps i }, 0)

/-- The test of the loop, with the end of the range cut to the width of a pointer. -/
def inRange (addr size : BitVec w) (p : WatchedFuncp w) : Bool :=
  p.addr ≥ addr ∧ p.addr < addr + size

theorem deleteAddp_eq {i : Nat} (hi : i < self.funcps.length) :
    functionWatchDeleteAddp self i = ({ self with funcps := swapRemove self.funcps i }, 0) := by
  rw [functionWatchDeleteAddp, if_neg (by omega)]

def invalidateLoop (addr size : BitVec w) (self : WatchedFunctions N C w) (i : Nat) (ret : Int) :
    Option (WatchedFunctions N C w × Int) :=
  if hi : i < self.funcps.length then
    if inRange addr size self.funcps[i] then
      let r := functionWatchDeleteAddp self i
      if r.2 = 0 then invalidateLoop addr size r.1 (i + 1) r.2 else none
    else invalidateLoop addr size self (i + 1) ret
  else some (self, ret)
termination_by self.funcps.length - i
decreasing_by
  · rw [deleteAddp_eq hi]
    dsimp only
    rw [length_swapRemove hi]
    omega
  · omega

def functionWatchAddpInvalidate (self : WatchedFunctions N C w) (addr size : BitVec w) :
    Option (WatchedFunctions N C w × Int) :=
  (lockFuncps self).bind fun self =>
    (invalidateLoop addr size self 0 (-1)).map fun r => (unlockFuncps r.1, r.2)

end Code

section Calls

inductive Call (N C : Type) (w : Nat)
  | add (name : N) (pluginId : Int) (preCallback postCallback : Option C)
  | addp (func : Nat) (addr : BitVec w)
  | tryAddp (name : N) (addr : BitVec w)
  | invalidate (addr size : BitVec w)

variable [DecidableEq N]

/-- What a call leaves and reports; `none` if it never returns. -/
def perform (self : WatchedFunctions N C w) : Call N C w → Option (WatchedFunctions N C w × Int)
  | .add name pluginId pre post => functionWatchAdd self name pluginId pre post
  | .addp func addr => functionWatchAddp self func addr
  | .tryAddp name addr => (functionWatchTryAddp self name addr).map fun self => (self, 0)
  | .invalidate addr size => functionWatchAddpInvalidate self addr size

/-- The addresses from `addr` on, `size` of them. -/
def Covered (addr size a : BitVec w) : Prop := addr.toNat ≤ a.toNat ∧ a.toNat < addr.toNat + size.toNat

def watched (self : WatchedFunctions N C w) (watch : Set (WatchedFuncp w)) (ret : Int) :
    Call N C w → Set (WatchedFuncp w)
  | .add .. => watch
  | .addp func addr => { p | p ∈ watch ∨ ret = 0 ∧ p = ⟨addr, func⟩ }
  | .tryAddp name addr => { p | p ∈ watch ∨ p.addr = addr ∧ ∃ f, self.funcs[p.func]? = some f ∧ f.name = name }
  | .invalidate addr size => { p | p ∈ watch ∧ ¬ Covered addr size p.addr }

/-- The calls for which the registry does what it should. -/
def Meets (self : WatchedFunctions N C w) : Call N C w → Prop
  | .add name .. => (∀ f ∈ self.funcs, f.name ≠ name) ∧ self.funcCount < maxWatchedFuncs
  | .addp .. => True
  | .tryAddp name addr =>
    ∀ i f, self.funcs[i]? = some f → f.name = name →
      ⟨addr, i⟩ ∈ self.funcps ∨ self.funcps.length < maxWatchedFuncPtrs
  | .invalidate addr size =>
    (addr.toNat + size.toNat < 2 ^ w ∨ ∀ p ∈ self.funcps, ¬ Covered addr size p.addr) ∧
      Apart (inRange addr size) 0 self.funcps

inductive Reaches : WatchedFunctions N C w → Set (WatchedFuncp w) → Prop
  | init : Reaches functionWatchInit ∅
  | step {self self' : WatchedFunctions N C w} {watch : Set (WatchedFuncp w)} {call : Call N C w} {ret : Int}
      (before : Reaches self watch) (meets : Meets self call) (done : perform self call = some (self', ret)) :
      Reaches self' (watched self watch ret call)

end Calls

section Pairs

structure Listed (ps : List (WatchedFuncp w)) (watch : Set (WatchedFuncp w)) : Prop where
  room : ps.length ≤ maxWatchedFuncPtrs
  once : ps.Nodup
  mem : ∀ p, p ∈ ps ↔ p ∈ watch

theorem addp_eq (hlock : self.funcpsLock = false) (func : Nat) (addr : BitVec w) :
    functionWatchAddp self func addr =
      some (if ⟨addr, func⟩ ∈ self.funcps then (self, 0)
        else if self.funcps.length ≥ maxWatchedFuncPtrs then (self, -2)
        else ({ self with funcps := self.funcps ++ [⟨addr, func⟩] }, 0)) := by
  obtain ⟨funcCount, funcsLock, funcs, funcpsLock, funcps⟩ := self
  subst hlock
  have hfound : (funcps.any fun p => p.func = func ∧ p.addr = addr) = true ↔ ⟨addr, func⟩ ∈ funcps := by
    rw [List.any_eq_true]
    constructor
    · rintro ⟨⟨a, f⟩, hp, heq⟩
      obtain ⟨rfl, rfl⟩ := of_decide_eq_true heq
      exact hp
    · intro hp
      exact ⟨_, hp, decide_eq_true ⟨rfl, rfl⟩⟩
  rw [functionWatchAddp, lockFuncps, if_neg Bool.false_ne_true, Option.bind_some]
  dsimp only [unlockFuncps]
  simp only [hfound]
  split_ifs <;> rfl

/-- Adding a pair either fails and changes nothing or puts the pair into the table. -/
theorem addp_spec {func : Nat} {addr : BitVec w} (hlock : self.funcpsLock = false)
    (hlisted : Listed self.funcps watch) (h : functionWatchAddp self func addr = some (self', ret)) :
    ret < 0 ∧ self' = self ∨
      ret = 0 ∧ self' = { self with funcps := self'.funcps } ∧
        Listed self'.funcps { p | p ∈ watch ∨ p = ⟨addr, func⟩ } := by
  rw [addp_eq hlock, Option.some_inj] at h
  split_ifs at h with hmem hfull
  · obtain ⟨rfl, rfl⟩ := Prod.mk.inj h
    refine .inr ⟨rfl, rfl, hlisted.room, hlisted.once, fun p => ?_⟩
    rw [Set.mem_ofPred_eq, ← hlisted.mem]
    constructor
    · exact .inl
    · rintro (hp | rfl)
      exacts [hp, hmem]
  · obtain ⟨rfl, rfl⟩ := Prod.mk.inj h
    exact .inl ⟨by decide, rfl⟩
  · obtain ⟨rfl, rfl⟩ := Prod.mk.inj h
    refine .inr ⟨rfl, rfl, ?_, ?_, fun p => ?_⟩
    · rw [List.length_append, List.length_singleton]
      omega
    · exact hlisted.once.append (List.nodup_singleton _) (by simpa using hmem)
    · rw [List.mem_append, List.mem_singleton, hlisted.mem]
      exact Iff.rfl

variable [DecidableEq N]

/-- The pass adds the pair of every index in the list whose function has the name. -/
theorem tryAddpLoop_spec {name : N} {addr : BitVec w} {rest : List Nat} (hlock : self.funcpsLock = false)
    (hlisted : Listed self.funcps watch) (h : tryAddpLoop name addr rest self = some self') :
    self' = { self with funcps := self'.funcps } ∧
      Listed self'.funcps
        { p | p ∈ watch ∨ p.addr = addr ∧ p.func ∈ rest ∧ ∃ f, self.funcs[p.func]? = some f ∧ f.name = name } := by
  induction rest generalizing self watch with
  | nil =>
    obtain rfl := Option.some.inj h
    refine ⟨rfl, hlisted.room, hlisted.once, fun p => ?_⟩
    simp [hlisted.mem]
  | cons i rest ih =>
    rw [tryAddpLoop] at h
    split_ifs at h with hname
    · obtain ⟨⟨self₁, ret⟩, hadd, hrest⟩ := Option.bind_eq_some_iff.mp h
      split_ifs at hrest with hret
      rcases addp_spec hlock hlisted hadd with ⟨hneg, -⟩ | ⟨-, hsame, hlisted₁⟩
      · exact absurd hret (by dsimp only; omega)
      · obtain ⟨hsame', hlisted'⟩ := ih (by rw [hsame]; exact hlock) hlisted₁ hrest
        refine ⟨by rw [hsame', hsame], hlisted'.room, hlisted'.once, fun p => ?_⟩
        rw [hlisted'.mem, show self₁.funcs = self.funcs by rw [hsame]]
        obtain ⟨f, hf, hfname⟩ := (Option.any_eq_true _ _).mp hname
        have hfname := of_decide_eq_true hfname
        constructor
        · rintro ((hp | rfl) | ⟨haddr, hmem, hfunc⟩)
          · exact .inl hp
          · exact .inr ⟨rfl, List.mem_cons_self, f, hf, hfname.symm⟩
          · exact .inr ⟨haddr, List.mem_cons_of_mem _ hmem, hfunc⟩
        · rintro (hp | ⟨haddr, hmem, hfunc⟩)
          · exact .inl (.inl hp)
          · rcases List.mem_cons.mp hmem with rfl | hmem
            · exact .inl (.inr (by rw [← haddr]))
            · exact .inr ⟨haddr, hmem, hfunc⟩
    · obtain ⟨hsame', hlisted'⟩ := ih hlock hlisted h
      refine ⟨hsame', hlisted'.room, hlisted'.once, fun p => ?_⟩
      rw [hlisted'.mem]
      constructor
      · rintro (hp | ⟨haddr, hmem, hfunc⟩)
        · exact .inl hp
        · exact .inr ⟨haddr, List.mem_cons_of_mem _ hmem, hfunc⟩
      · rintro (hp | ⟨haddr, hmem, f, hf, hfname⟩)
        · exact .inl hp
        · rcases List.mem_cons.mp hmem with rfl | hmem
          · exact absurd (by rw [hf]; exact decide_eq_true hfname.symm) hname
          · exact .inr ⟨haddr, hmem, f, hf, hfname⟩

def Named (self : WatchedFunctions N C w) (name : N) (i : Nat) : Prop :=
  (self.funcs[i]?).any (fun f => name = f.name) = true

theorem named_iff {name : N} {i : Nat} :
    Named self name i ↔ ∃ f, self.funcs[i]? = some f ∧ f.name = name := by
  rw [Named, Option.any_eq_true]
  exact exists_congr fun f => and_congr_right fun _ => decide_eq_true_iff.trans eq_comm

theorem tryAddpLoop_named {name : N} {addr : BitVec w} {i : Nat} {rest : List Nat} (h : Named self name i) :
    tryAddpLoop name addr (i :: rest) self =
      (functionWatchAddp self i addr).bind fun r => if r.2 = 0 then tryAddpLoop name addr rest r.1 else none :=
  if_pos h

theorem tryAddpLoop_skip {name : N} {addr : BitVec w} {i : Nat} {rest : List Nat} (h : ¬ Named self name i) :
    tryAddpLoop name addr (i :: rest) self = tryAddpLoop name addr rest self :=
  if_neg h

theorem tryAddpLoop_unnamed {name : N} {addr : BitVec w} {rest : List Nat} (h : ∀ i ∈ rest, ¬ Named self name i) :
    tryAddpLoop name addr rest self = some self := by
  induction rest with
  | nil => rfl
  | cons i rest ih =>
    rw [tryAddpLoop_skip (h i List.mem_cons_self)]
    exact ih fun j hj => h j (List.mem_cons_of_mem i hj)

/-- With one function of a name the pass ends exactly if the table has room for its pair. -/
theorem tryAddpLoop_isSome {name : N} {addr : BitVec w} {rest : List Nat} (hlock : self.funcpsLock = false)
    (hnodup : rest.Nodup) (hunique : ∀ i j, Named self name i → Named self name j → i = j) :
    (∃ self', tryAddpLoop name addr rest self = some self') ↔
      ∀ i ∈ rest, Named self name i → ⟨addr, i⟩ ∈ self.funcps ∨ self.funcps.length < maxWatchedFuncPtrs := by
  induction rest with
  | nil => exact iff_of_true ⟨self, rfl⟩ fun i hi => absurd hi List.not_mem_nil
  | cons i rest ih =>
    obtain ⟨hnotin, hnodup⟩ := List.nodup_cons.mp hnodup
    by_cases hname : Named self name i
    · have hrest : ∀ j ∈ rest, ¬ Named self name j := fun j hj hj' =>
        hnotin (hunique i j hname hj' ▸ hj)
      have honly : (∀ j ∈ i :: rest, Named self name j → ⟨addr, j⟩ ∈ self.funcps ∨
          self.funcps.length < maxWatchedFuncPtrs) ↔
          ⟨addr, i⟩ ∈ self.funcps ∨ self.funcps.length < maxWatchedFuncPtrs := by
        constructor
        · exact fun h => h i List.mem_cons_self hname
        · intro h j hj hj'
          exact hunique i j hname hj' ▸ h
      rw [tryAddpLoop_named hname, honly, addp_eq hlock, Option.bind_some]
      by_cases hmem : ⟨addr, i⟩ ∈ self.funcps
      · rw [if_pos hmem, if_pos rfl]
        exact iff_of_true ⟨_, tryAddpLoop_unnamed hrest⟩ (.inl hmem)
      rw [if_neg hmem, or_iff_right hmem]
      by_cases hfull : self.funcps.length ≥ maxWatchedFuncPtrs
      · rw [if_pos hfull, if_neg (by simp)]
        exact iff_of_false (fun ⟨_, hstop⟩ => nomatch hstop) (Nat.not_lt.mpr hfull)
      · rw [if_neg hfull, if_pos rfl]
        exact iff_of_true ⟨_, tryAddpLoop_unnamed hrest⟩ (Nat.lt_of_not_ge hfull)
    · rw [tryAddpLoop_skip hname, ih hnodup]
      constructor
      · intro h j hj hj'
        rcases List.mem_cons.mp hj with rfl | hj
        · exact absurd hj' hname
        · exact h j hj hj'
      · exact fun h j hj => h j (List.mem_cons_of_mem i hj)

end Pairs

section Invalidate

variable {addr size : BitVec w} {p : WatchedFuncp w}

theorem inRange_iff (hwrap : addr.toNat + size.toNat < 2 ^ w) :
    inRange addr size p = true ↔ Covered addr size p.addr := by
  rw [inRange, decide_eq_true_iff, ge_iff_le, BitVec.le_def, BitVec.lt_def, BitVec.toNat_add,
    Nat.mod_eq_of_lt hwrap, Covered]

theorem inRange_wraps (hwrap : ¬ addr.toNat + size.toNat < 2 ^ w) : inRange addr size p = false := by
  have haddr := addr.isLt
  have hsize := size.isLt
  rw [inRange, decide_eq_false_iff_not, ge_iff_le, BitVec.le_def, BitVec.lt_def, BitVec.toNat_add,
    Nat.mod_eq_sub_mod (by omega), Nat.mod_eq_of_lt (by omega)]
  omega

theorem inRange_covered (h : inRange addr size p = true) : Covered addr size p.addr := by
  by_cases hwrap : addr.toNat + size.toNat < 2 ^ w
  · exact (inRange_iff hwrap).mp h
  · exact absurd h (by rw [inRange_wraps hwrap]; decide)

theorem invalidateLoop_eq (addr size : BitVec w) (self : WatchedFunctions N C w) (i : Nat) (ret : Int) :
    invalidateLoop addr size self i ret =
      some ({ self with funcps := sweep (inRange addr size) i self.funcps },
        if (self.funcps.drop i).any (inRange addr size) then 0 else ret) := by
  fun_induction invalidateLoop addr size self i ret with
  | case1 self i ret hi hhit r hret ih =>
    have hr : r = ({ self with funcps := swapRemove self.funcps i }, 0) := deleteAddp_eq hi
    rw [ih, sweep_hit hi hhit, List.drop_eq_getElem_cons hi, List.any_cons, hhit, hr]
    simp
  | case2 self i ret hi hhit r hret =>
    exact absurd (by rw [show r = _ from deleteAddp_eq hi]) hret
  | case3 self i ret hi hhit ih =>
    rw [ih, sweep_miss hi hhit, List.drop_eq_getElem_cons hi, List.any_cons,
      Bool.eq_false_of_not_eq_true hhit, Bool.false_or]
  | case4 self i ret hi =>
    rw [sweep, dif_neg hi, List.drop_eq_nil_of_le (by omega)]
    rfl

theorem invalidate_eq (hlock : self.funcpsLock = false) :
    functionWatchAddpInvalidate self addr size =
      some ({ self with funcps := sweep (inRange addr size) 0 self.funcps },
        if self.funcps.any (inRange addr size) then 0 else -1) := by
  obtain ⟨funcCount, funcsLock, funcs, funcpsLock, funcps⟩ := self
  subst hlock
  rw [functionWatchAddpInvalidate, lockFuncps, if_neg Bool.false_ne_true, Option.bind_some, invalidateLoop_eq]
  rfl

/-- What is left is what the range does not cover exactly when the range does not end
past the memory and no pair that is covered is moved into a place already passed. -/
theorem sweep_inRange_iff (ps : List (WatchedFuncp w)) :
    (∀ p, p ∈ sweep (inRange addr size) 0 ps ↔ p ∈ ps ∧ ¬ Covered addr size p.addr) ↔
      (addr.toNat + size.toNat < 2 ^ w ∨ ∀ p ∈ ps, ¬ Covered addr size p.addr) ∧ Apart (inRange addr size) 0 ps := by
  have hclear := sweep_clears_iff (inRange addr size) 0 ps
  rw [List.take_zero] at hclear
  constructor
  · intro h
    refine ⟨?_, (hclear.mp fun p hp => ?_).2⟩
    · by_contra hnot
      obtain ⟨hwrap, hcovered⟩ := not_or.mp hnot
      rw [sweep_none fun p _ => inRange_wraps hwrap] at h
      exact hcovered fun p hp => ((h p).mp hp).2
    · exact Bool.eq_false_of_not_eq_true fun hhit => ((h p).mp hp).2 (inRange_covered hhit)
  · rintro ⟨hwrap | hnone, hapart⟩ p
    · have hgone := hclear.mpr ⟨fun p hp => absurd hp List.not_mem_nil, hapart⟩
      rw [← inRange_iff hwrap]
      constructor
      · intro hp
        exact ⟨(sweep_subperm _ _ _).subset hp, by simp [hgone p hp]⟩
      · rintro ⟨hp, hhit⟩
        have hkept := ((sweep_filter (inRange addr size) 0 ps).mem_iff (a := p)).mpr
          (List.mem_filter.mpr ⟨hp, by simpa using hhit⟩)
        exact (List.mem_filter.mp hkept).1
    · rw [sweep_none fun p hp => Bool.eq_false_of_not_eq_true fun hhit => hnone p (List.mem_of_mem_drop hp) (inRange_covered hhit)]
      exact ⟨fun hp => ⟨hp, hnone p hp⟩, And.left⟩

end Invalidate

section Runs

variable [DecidableEq N] {call : Call N C w}

/-- The registry between two calls. -/
structure Sound (reg : WatchedFunctions N C w) (watch : Set (WatchedFuncp w)) : Prop where
  free : reg.funcsLock = false ∧ reg.funcpsLock = false
  count : reg.funcCount = reg.funcs.length
  capacity : reg.funcCount ≤ maxWatchedFuncs
  unique : (reg.funcs.map WatchedFunc.name).Nodup
  listed : Listed reg.funcps watch

/-- An error changes nothing, and an invalidation removes exactly what its range covers. -/
def Right (self self' : WatchedFunctions N C w) (ret : Int) (call : Call N C w) : Prop :=
  (ret < 0 → self' = self) ∧
    ∀ addr size, call = .invalidate addr size →
      ∀ p, p ∈ self'.funcps ↔ p ∈ self.funcps ∧ ¬ Covered addr size p.addr

theorem search_eq (hcount : self.funcCount = self.funcs.length) (name : N) :
    functionWatchSearch self name > 0 ↔ ∃ f ∈ self.funcs, f.name = name := by
  rw [functionWatchSearch, hcount, List.take_length]
  split_ifs with hany
  · obtain ⟨f, hf, hname⟩ := List.any_eq_true.mp hany
    exact iff_of_true (by decide) ⟨f, hf, (of_decide_eq_true hname).symm⟩
  · refine iff_of_false (by decide) ?_
    rintro ⟨f, hf, hname⟩
    exact hany (List.any_eq_true.mpr ⟨f, hf, decide_eq_true hname.symm⟩)

theorem add_eq (hsound : Sound self watch) (name : N) (pluginId : Int) (pre post : Option C) :
    functionWatchAdd self name pluginId pre post =
      some (if ∃ f ∈ self.funcs, f.name = name then ({ self with funcsLock := true }, -101)
        else if self.funcCount ≥ maxWatchedFuncs then
          ({ self with funcsLock := true, funcCount := self.funcCount + 1 }, -102)
        else ({ self with
          funcCount := self.funcCount + 1
          funcs := self.funcs ++ [⟨name, pluginId, pre, post⟩] }, 0)) := by
  obtain ⟨funcCount, funcsLock, funcs, funcpsLock, funcps⟩ := self
  obtain ⟨⟨hfree, -⟩, hcount, -⟩ := hsound
  dsimp only at hfree hcount
  subst hfree hcount
  rw [functionWatchAdd, lockFuncs, if_neg Bool.false_ne_true, Option.bind_some]
  have hsearch : functionWatchSearch (⟨funcs.length, true, funcs, funcpsLock, funcps⟩ : WatchedFunctions N C w) name > 0 ↔
      ∃ f ∈ funcs, f.name = name := search_eq rfl name
  simp only [hsearch]
  split_ifs <;> rfl

/-- Only function_watch_try_addp can fail to return: its assertion needs room for the pair. -/
theorem tryAddp_returns_iff (hsound : Sound self watch) (name : N) (addr : BitVec w) :
    (∃ self', functionWatchTryAddp self name addr = some self') ↔ Meets self (.tryAddp name addr) := by
  have hunique : ∀ i j, Named self name i → Named self name j → i = j := by
    intro i j hi hj
    obtain ⟨f, hf, hfname⟩ := named_iff.mp hi
    obtain ⟨g, hg, hgname⟩ := named_iff.mp hj
    obtain ⟨hilt, higet⟩ := List.getElem?_eq_some_iff.mp hf
    have hlt : i < (self.funcs.map WatchedFunc.name).length := by rwa [List.length_map]
    refine (List.getElem?_inj hlt hsound.unique).mp ?_
    rw [List.getElem?_map, List.getElem?_map, hf, hg, Option.map_some, Option.map_some, hfname, hgname]
  have hloop : (∃ self', tryAddpLoop name addr (List.range self.funcCount) { self with funcsLock := true } = some self') ↔ _ :=
    tryAddpLoop_isSome hsound.free.2 List.nodup_range hunique
  rw [functionWatchTryAddp, lockFuncs, hsound.free.1, if_neg Bool.false_ne_true, Option.bind_some]
  have hmap : (∃ self', (tryAddpLoop name addr (List.range self.funcCount) { self with funcsLock := true }).map
      unlockFuncs = some self') ↔
      ∃ self', tryAddpLoop name addr (List.range self.funcCount) { self with funcsLock := true } = some self' := by
    cases tryAddpLoop name addr (List.range self.funcCount) { self with funcsLock := true } <;> simp
  refine hmap.trans (hloop.trans ⟨fun h i f hf hfname => ?_, fun h i _ hi => ?_⟩)
  · have hi : i ∈ List.range self.funcCount := by
      rw [List.mem_range, hsound.count]
      exact (List.getElem?_eq_some_iff.mp hf).1
    exact h i hi (named_iff.mpr ⟨f, hf, hfname⟩)
  · obtain ⟨f, hf, hfname⟩ := named_iff.mp hi
    exact h i f hf hfname

/-- The condition is exact: a call that does not meet it goes wrong or never returns. -/
theorem right_iff_meets (hsound : Sound self watch) :
    (∃ self' ret, perform self call = some (self', ret) ∧ Right self self' ret call) ↔ Meets self call := by
  cases call with
  | add name pluginId pre post =>
    have hheld : ∀ {n : Nat} {ret : Int}, ret < 0 →
        ¬ Right self { self with funcsLock := true, funcCount := n } ret (.add name pluginId pre post) :=
      fun hneg hright => Bool.noConfusion ((congrArg WatchedFunctions.funcsLock (hright.1 hneg)).trans hsound.free.1)
    rw [perform, add_eq hsound, Meets]
    split_ifs with hname hfull
    · refine iff_of_false ?_ fun hmeets => ?_
      · rintro ⟨_, _, ⟨⟩, hright⟩
        exact hheld (by decide) hright
      · obtain ⟨f, hf, heq⟩ := hname
        exact hmeets.1 f hf heq
    · refine iff_of_false ?_ fun hmeets => absurd hmeets.2 (by omega)
      rintro ⟨_, _, ⟨⟩, hright⟩
      exact hheld (by decide) hright
    · refine iff_of_true ⟨_, _, rfl, fun hneg => absurd hneg (by decide), fun _ _ heq => nomatch heq⟩ ⟨?_, by omega⟩
      exact fun f hf heq => hname ⟨f, hf, heq⟩
  | addp func addr =>
    refine iff_of_true ⟨_, _, addp_eq hsound.free.2 func addr, fun hneg => ?_, fun _ _ heq => nomatch heq⟩ trivial
    rcases addp_spec hsound.free.2 hsound.listed (addp_eq hsound.free.2 func addr) with ⟨-, hsame⟩ | ⟨hret, -⟩
    · exact hsame
    · omega
  | tryAddp name addr =>
    rw [← tryAddp_returns_iff hsound, perform]
    constructor
    · rintro ⟨self', ret, hcall, -⟩
      obtain ⟨self₁, hadd, -⟩ := Option.map_eq_some_iff.mp hcall
      exact ⟨self₁, hadd⟩
    · rintro ⟨self', hadd⟩
      exact ⟨self', 0, by rw [hadd]; rfl, fun hneg => absurd hneg (by decide), fun _ _ heq => nomatch heq⟩
  | invalidate addr size =>
    rw [perform, invalidate_eq hsound.free.2, Meets, ← sweep_inRange_iff]
    constructor
    · rintro ⟨_, _, ⟨⟩, hright⟩
      exact hright.2 addr size rfl
    · intro hleft
      refine ⟨_, _, rfl, fun hneg => ?_, fun _ _ heq => ?_⟩
      · split_ifs at hneg with hany
        · exact absurd hneg (by decide)
        · rw [Bool.not_eq_true, List.any_eq_false] at hany
          rw [sweep_none fun p hp => Bool.eq_false_of_not_eq_true (hany p (List.mem_of_mem_drop hp))]
      · obtain ⟨rfl, rfl⟩ := Call.invalidate.inj heq
        exact hleft

theorem add_sound {name : N} {pluginId : Int} {pre post : Option C} (hsound : Sound self watch)
    (hmeets : Meets self (.add name pluginId pre post))
    (h : functionWatchAdd self name pluginId pre post = some (self', ret)) : Sound self' watch := by
  rw [add_eq hsound, Option.some_inj, if_neg fun ⟨f, hf, heq⟩ => hmeets.1 f hf heq,
    if_neg (Nat.not_le_of_lt hmeets.2)] at h
  obtain ⟨rfl, rfl⟩ := Prod.mk.inj h
  refine ⟨hsound.free, ?_, hmeets.2, ?_, hsound.listed⟩
  · rw [List.length_append, ← hsound.count]
    rfl
  · rw [List.map_append]
    refine hsound.unique.append (List.nodup_singleton _) ?_
    rw [List.map_singleton, List.disjoint_singleton, List.mem_map]
    rintro ⟨f, hf, heq⟩
    exact hmeets.1 f hf heq

omit [DecidableEq N] in
theorem addp_sound {func : Nat} {addr : BitVec w} (hsound : Sound self watch)
    (h : functionWatchAddp self func addr = some (self', ret)) :
    Sound self' { p | p ∈ watch ∨ ret = 0 ∧ p = ⟨addr, func⟩ } := by
  rcases addp_spec hsound.free.2 hsound.listed h with ⟨hret, rfl⟩ | ⟨rfl, hsame, hlisted⟩
  · have hkeep : { p | p ∈ watch ∨ ret = 0 ∧ p = ⟨addr, func⟩ } = watch := by
      ext p
      exact or_iff_left fun hp => by omega
    rwa [hkeep]
  · have hmore : { p | p ∈ watch ∨ (0 : Int) = 0 ∧ p = ⟨addr, func⟩ } = { p | p ∈ watch ∨ p = ⟨addr, func⟩ } := by
      ext p
      exact or_congr_right (and_iff_right rfl)
    rw [hmore]
    rw [hsame] at hlisted ⊢
    exact ⟨hsound.free, hsound.count, hsound.capacity, hsound.unique, hlisted⟩

theorem tryAddp_sound {name : N} {addr : BitVec w} (hsound : Sound self watch)
    (h : functionWatchTryAddp self name addr = some self') :
    Sound self' { p | p ∈ watch ∨ p.addr = addr ∧ ∃ f, self.funcs[p.func]? = some f ∧ f.name = name } := by
  obtain ⟨self₁, hlock, hrest⟩ := Option.bind_eq_some_iff.mp h
  rw [lockFuncs, hsound.free.1, if_neg Bool.false_ne_true, Option.some_inj] at hlock
  subst hlock
  obtain ⟨self₂, hloop, rfl⟩ := Option.map_eq_some_iff.mp hrest
  obtain ⟨hsame, hlisted⟩ :=
    tryAddpLoop_spec (show WatchedFunctions.funcpsLock { self with funcsLock := true } = false from hsound.free.2)
      hsound.listed hloop
  have hindex : { p : WatchedFuncp w | p ∈ watch ∨ p.addr = addr ∧ p.func ∈ List.range self.funcCount ∧
      ∃ f, self.funcs[p.func]? = some f ∧ f.name = name } =
      { p | p ∈ watch ∨ p.addr = addr ∧ ∃ f, self.funcs[p.func]? = some f ∧ f.name = name } := by
    ext p
    refine or_congr_right (and_congr_right fun _ => and_iff_right_of_imp ?_)
    rintro ⟨f, hf, -⟩
    rw [List.mem_range, hsound.count]
    exact (List.getElem?_eq_some_iff.mp hf).1
  rw [← hindex]
  rw [hsame] at hlisted ⊢
  exact ⟨⟨rfl, hsound.free.2⟩, hsound.count, hsound.capacity, hsound.unique, hlisted⟩

omit [DecidableEq N] in
theorem invalidate_sound {addr size : BitVec w} (hsound : Sound self watch)
    (hmeets : Meets self (.invalidate addr size))
    (h : functionWatchAddpInvalidate self addr size = some (self', ret)) :
    Sound self' { p | p ∈ watch ∧ ¬ Covered addr size p.addr } := by
  rw [invalidate_eq hsound.free.2, Option.some_inj] at h
  obtain ⟨rfl, rfl⟩ := Prod.mk.inj h
  have hsub := sweep_subperm (inRange addr size) 0 self.funcps
  refine ⟨hsound.free, hsound.count, hsound.capacity, hsound.unique,
    hsub.length_le.trans hsound.listed.room, ?_, fun p => ?_⟩
  · obtain ⟨ps, hperm, hsublist⟩ := hsub
    exact hperm.nodup_iff.mp (hsublist.nodup hsound.listed.once)
  · rw [(sweep_inRange_iff _).mpr hmeets p, hsound.listed.mem]
    exact Iff.rfl

theorem Sound.perform (hsound : Sound self watch) (hmeets : Meets self call)
    (h : perform self call = some (self', ret)) : Sound self' (watched self watch ret call) := by
  cases call with
  | add name pluginId pre post => exact add_sound hsound hmeets h
  | addp func addr => exact addp_sound hsound h
  | tryAddp name addr =>
    obtain ⟨self₁, hadd, heq⟩ := Option.map_eq_some_iff.mp h
    obtain ⟨rfl, rfl⟩ := Prod.mk.inj heq
    exact tryAddp_sound hsound hadd
  | invalidate addr size => exact invalidate_sound hsound hmeets h

theorem Reaches.sound (h : Reaches self watch) : Sound self watch := by
  induction h with
  | init =>
    exact ⟨⟨rfl, rfl⟩, rfl, Nat.zero_le _, List.nodup_nil, Nat.zero_le _, List.nodup_nil,
      fun p => iff_of_false List.not_mem_nil (Set.notMem_empty p)⟩
  | step before meets done ih => exact ih.perform meets done

/-- Along every run of calls that meet the condition the registry is sound; there a call
returns and does what it should exactly if it meets the condition too. -/
theorem registry_run (h : Reaches self watch) :
    Sound self watch ∧
      ∀ call, (∃ self' ret, perform self call = some (self', ret) ∧ Right self self' ret call) ↔ Meets self call :=
  ⟨h.sound, fun _ => right_iff_meets h.sound⟩

def twoAddresses : WatchedFunctions String Unit 64 :=
  ⟨1, false, [⟨"malloc", 0, some (), none⟩], false, [⟨0x1000, 0⟩, ⟨0x1010, 0⟩]⟩

theorem registry_run_twoAddresses :
    ∃ self' ret, perform twoAddresses (.invalidate 0x1000 0x10) = some (self', ret) ∧
      Right twoAddresses self' ret (.invalidate 0x1000 0x10) := by
  have hadd : Reaches (N := String) (C := Unit) (w := 64) _ _ :=
    .step .init (show Meets _ (.add "malloc" 0 (some ()) none) from ⟨by simp [functionWatchInit], by decide⟩) rfl
  have haddp := Reaches.step hadd (show Meets _ (.addp 0 0x1000) from trivial) rfl
  have htry := Reaches.step haddp (show Meets _ (.tryAddp "malloc" 0x1010) from fun _ _ _ _ => .inr (by decide))
    (show perform _ _ = some (twoAddresses, 0) from rfl)
  refine ((registry_run htry).2 (.invalidate 0x1000 0x10)).mpr ⟨.inl (by decide), fun j _ hj hlt => ?_⟩
  rcases j with _ | j
  · rfl
  · have htwo : twoAddresses.funcps.length = 2 := rfl
    omega

/-- A name given twice leaves its lock held, and of two neighbours in a range one is left. -/
theorem registry_breaks :
    (∃ self self' : WatchedFunctions String Unit 64,
      perform functionWatchInit (.add "malloc" 0 (some ()) none) = some (self, 0) ∧
        perform self (.add "malloc" 1 (some ()) none) = some (self', -101) ∧
          self'.funcsLock ≠ self.funcsLock) ∧
      ∃ self self₁ self₂ self' : WatchedFunctions String Unit 64,
        perform functionWatchInit (.add "malloc" 0 (some ()) none) = some (self, 0) ∧
          perform self (.addp 0 0x1000) = some (self₁, 0) ∧ perform self₁ (.addp 0 0x1010) = some (self₂, 0) ∧
            perform self₂ (.invalidate 0x1000 0x100) = some (self', 0) ∧
              ∃ p ∈ self'.funcps, Covered 0x1000 0x100 p.addr := by
  refine ⟨⟨_, _, rfl, rfl, by decide⟩, _, _, twoAddresses, { twoAddresses with funcps := [⟨0x1010, 0⟩] }, rfl, rfl, rfl,
    ?_, ⟨0x1010, 0⟩, List.mem_singleton_self _, by decide, by decide⟩
  rw [perform, invalidate_eq rfl]
  simp [twoAddresses, sweep, swapRemove, inRange]

end Runs

end Mambo.FunctionWatch
