import Mambo.CallRuns
import Mambo.SafeFcalls

namespace Mambo.SafeFcallRuns

open CallRuns EmitResults SafeFcalls

section Emission

variable {w : Nat} {ι : Type*} {E : Emitters w ι} {is js isOuter jsOuter : List ι} {e : Emitted w ι} {regs : BitVec 32}
  {start tramp fptr : BitVec w} {args : Nat → BitVec w} {argno : Nat} {r : Result ι} {count : Int}

/-- Code has been added and the write pointer is behind it. -/
structure Adds (e : Emitted w ι) (is : List ι) (pushed : Int) (e' : Emitted w ι) : Prop where
  start : e'.start = e.start
  code : e'.code = e.code ++ is
  count : e'.pluginPushedRegCount = e.pluginPushedRegCount + pushed

theorem Adds.trans {e' e'' : Emitted w ι} {m n : Int} (h : Adds e is m e') (h' : Adds e' js n e'') :
    Adds e (is ++ js) (m + n) e'' where
  start := h'.start.trans h.start
  code := by rw [h'.code, h.code, List.append_assoc]
  count := by rw [h'.count, h.count, add_assoc]

theorem Adds.writeP {e' : Emitted w ι} {n : Int} (h : Adds e is n e') :
    e'.writeP E = e.start + BitVec.ofNat w ((e.code ++ is).map E.size).sum := by
  rw [Emitted.writeP, h.start, h.code]

theorem adds_emit : Adds e is 0 (e.emit is) := ⟨rfl, rfl, (add_zero _).symm⟩

theorem adds_emitArgs (E : Emitters w ι) (args : Nat → BitVec w) (argno : Nat) (e : Emitted w ι) :
    Adds e ((List.range argno).flatMap fun a => E.setReg a (args a)) 0 (emitArgs E args argno e) := by
  induction argno with
  | zero => exact ⟨rfl, (List.append_nil _).symm, (add_zero _).symm⟩
  | succ argno ih =>
      rw [List.range_succ, List.flatMap_append, List.flatMap_singleton]
      exact ih.trans adds_emit

theorem emitPush_some (hpush : E.push regs = some is) :
    ∃ e', emitPush E regs e = some e' ∧ Adds e is (RegLists.countBits regs) e' := by
  rw [emitPush, hpush]
  exact ⟨_, rfl, rfl, rfl, rfl⟩

theorem emitPop_some (hpop : E.pop regs = some js) (hcount : RegLists.countBits regs ≤ e.pluginPushedRegCount) :
    ∃ e', emitPop E regs e = some e' ∧ Adds e js (-RegLists.countBits regs) e' := by
  rw [emitPop, if_pos (by omega), hpop]
  exact ⟨_, rfl, rfl, rfl, rfl⟩

/-- The code for the call itself: none where the branch was in range. -/
def fcallCode (E : Emitters w ι) (tramp : BitVec w) (r : Result ι) : List ι :=
  if r.ret = 0 then [] else E.setReg E.lr tramp ++ [E.callLr]

theorem emitFcall_some (hr : E.branchLink (e.writeP E) tramp = some r) :
    ∃ e', emitFcall E tramp e = some e' ∧ Adds e (fcallCode E tramp r) 0 e' := by
  rw [emitFcall, hr, Option.map_some]
  by_cases hret : r.ret = 0
  · rw [fcallCode, if_pos hret, if_pos hret]
    exact ⟨_, rfl, rfl, (List.append_nil _).symm, (add_zero _).symm⟩
  · rw [fcallCode, if_neg hret, if_neg hret]
    exact ⟨_, rfl, adds_emit.trans adds_emit⟩

theorem emitFcall_none (hr : E.branchLink (e.writeP E) tramp = none) : emitFcall E tramp e = none := by
  rw [emitFcall, hr, Option.map_none]

/-- Where `emit_safe_fcall` emits the call. -/
def siteFrom (E : Emitters w ι) (e : Emitted w ι) (is : List ι) (fptr : BitVec w) : BitVec w :=
  e.start + BitVec.ofNat w ((e.code ++ (is ++ E.setReg E.function fptr)).map E.size).sum

theorem emitSafeFcall_none (hle : argno ≤ E.maxFcallArgs) (hpush : E.push (E.toPush argno) = some is)
    (hr : E.branchLink (siteFrom E e is fptr) tramp = none) : emitSafeFcall E tramp fptr argno e = none := by
  obtain ⟨e₁, he₁, hadds⟩ := emitPush_some (e := e) hpush
  have hset : Adds e (is ++ E.setReg E.function fptr) _ (emitSetReg E E.function fptr e₁) := hadds.trans adds_emit
  rw [siteFrom, ← hset.writeP] at hr
  rw [emitSafeFcall, if_neg (by omega), he₁]
  simp [emitFcall_none hr]

theorem emitSafeFcall_some (hle : argno ≤ E.maxFcallArgs) (hpush : E.push (E.toPush argno) = some is)
    (hpop : E.pop (E.toPush argno) = some js) (hcount : 0 ≤ e.pluginPushedRegCount)
    (hr : E.branchLink (siteFrom E e is fptr) tramp = some r) :
    ∃ e', emitSafeFcall E tramp fptr argno e = some (0, e') ∧
      Adds e (is ++ (E.setReg E.function fptr ++ fcallCode E tramp r) ++ js) 0 e' := by
  obtain ⟨e₁, he₁, hadds₁⟩ := emitPush_some (e := e) hpush
  have hset : Adds e (is ++ E.setReg E.function fptr) _ (emitSetReg E E.function fptr e₁) := hadds₁.trans adds_emit
  rw [siteFrom, ← hset.writeP] at hr
  obtain ⟨e₂, he₂, hadds₂⟩ := emitFcall_some hr
  have hcall := hset.trans hadds₂
  obtain ⟨e₃, he₃, hadds₃⟩ := emitPop_some (e := e₂) hpop (by rw [hcall.count]; omega)
  refine ⟨e₃, ?_, ?_⟩
  · rw [emitSafeFcall, if_neg (by omega), he₁]
    simp [he₂, he₃]
  · have hall := hcall.trans hadds₃
    rw [add_zero, add_zero, add_neg_cancel] at hall
    simpa [List.append_assoc] using hall

def outerPush (E : Emitters w ι) (argno : Nat) : Option (List ι) := if argno = 0 then some [] else E.push (reglist argno)

def outerPop (E : Emitters w ι) (argno : Nat) : Option (List ι) := if argno = 0 then some [] else E.pop (reglist argno)

def beforeCall (E : Emitters w ι) (fptr : BitVec w) (argno : Nat) (args : Nat → BitVec w) : List ι :=
  (outerPush E argno).getD [] ++ ((List.range argno).flatMap fun a => E.setReg a (args a)) ++
    ((E.push (E.toPush argno)).getD [] ++ E.setReg E.function fptr)

def callSite (E : Emitters w ι) (start fptr : BitVec w) (argno : Nat) (args : Nat → BitVec w) : BitVec w :=
  start + BitVec.ofNat w ((beforeCall E fptr argno args).map E.size).sum

theorem outerPush_some (houter : outerPush E argno = some isOuter) :
    ∃ (e' : Emitted w ι) (n : Int), 0 ≤ n ∧
      (if argno = 0 then some e else emitPush E (reglist argno) e) = some e' ∧ Adds e isOuter n e' ∧
      (argno ≠ 0 → n = RegLists.countBits (reglist argno)) := by
  by_cases h0 : argno = 0
  · rw [outerPush, if_pos h0] at houter
    obtain rfl := Option.some.inj houter
    exact ⟨e, 0, le_refl _, if_pos h0, ⟨rfl, (List.append_nil _).symm, (add_zero _).symm⟩, fun h => absurd h0 h⟩
  · rw [outerPush, if_neg h0] at houter
    obtain ⟨e', he', hadds⟩ := emitPush_some (e := e) houter
    exact ⟨e', _, by omega, by rw [if_neg h0, he'], hadds, fun _ => rfl⟩

/-- The three steps of `emit_safe_fcall_static_args`, the first and the last one skipped without arguments. -/
theorem emitStatic_eq (hle : argno ≤ E.maxFcallArgs) : emitSafeFcallStaticArgs E tramp fptr argno args e =
    (if argno = 0 then some e else emitPush E (reglist argno) e).bind fun e =>
      (emitSafeFcall E tramp fptr argno (emitArgs E args argno e)).bind fun r =>
        (if argno = 0 then some r.2 else emitPop E (reglist argno) r.2).map fun e => (0, e) := by
  rw [emitSafeFcallStaticArgs, if_neg (by omega)]
  by_cases h0 : argno = 0
  · subst h0
    simp [emitArgs]
  · rw [if_pos (by omega), if_neg h0]
    simp [h0, Option.map_eq_bind]

theorem emitStatic_none (hle : argno ≤ E.maxFcallArgs) (houter : outerPush E argno = some isOuter)
    (hpush : E.push (E.toPush argno) = some is) (hr : E.branchLink (callSite E start fptr argno args) tramp = none) :
    emitSafeFcallStaticArgs E tramp fptr argno args ⟨start, [], [], count⟩ = none := by
  obtain ⟨e', n, -, he', hadds, -⟩ := outerPush_some (e := ⟨start, [], [], count⟩) houter
  have hargs := hadds.trans (adds_emitArgs E args argno _)
  rw [callSite, beforeCall, houter, hpush, Option.getD_some, Option.getD_some] at hr
  rw [emitStatic_eq hle, he', Option.bind_some, emitSafeFcall_none hle hpush, Option.bind_none]
  rw [siteFrom, hargs.start, hargs.code]
  exact hr

theorem emitStatic_some (hle : argno ≤ E.maxFcallArgs) (houter : outerPush E argno = some isOuter)
    (houter' : outerPop E argno = some jsOuter) (hpush : E.push (E.toPush argno) = some is)
    (hpop : E.pop (E.toPush argno) = some js) (hcount : 0 ≤ count)
    (hr : E.branchLink (callSite E start fptr argno args) tramp = some r) :
    ∃ e', emitSafeFcallStaticArgs E tramp fptr argno args ⟨start, [], [], count⟩ = some (0, e') ∧
      e'.code = isOuter ++ (((List.range argno).flatMap fun a => E.setReg a (args a)) ++
        (is ++ (E.setReg E.function fptr ++ fcallCode E tramp r) ++ js)) ++ jsOuter := by
  obtain ⟨e₁, n, hn, he₁, hadds₁, hcountn⟩ := outerPush_some (e := ⟨start, [], [], count⟩) houter
  have hargs := hadds₁.trans (adds_emitArgs E args argno _)
  have hcount₁ := hargs.count
  rw [callSite, beforeCall, houter, hpush, Option.getD_some, Option.getD_some] at hr
  obtain ⟨e₂, he₂, hadds₂⟩ := emitSafeFcall_some hle hpush hpop (by rw [hcount₁]; dsimp only; omega)
    (by rw [siteFrom, hargs.start, hargs.code]; exact hr)
  have hall := hargs.trans hadds₂
  rw [emitStatic_eq hle, he₁, Option.bind_some, he₂, Option.bind_some]
  by_cases h0 : argno = 0
  · rw [outerPop, if_pos h0] at houter'
    obtain rfl := Option.some.inj houter'
    refine ⟨e₂, by rw [if_pos h0, Option.map_some], ?_⟩
    rw [hall.code]
    simp [List.append_assoc]
  · rw [outerPop, if_neg h0] at houter'
    obtain ⟨e₃, he₃, hadds₃⟩ := emitPop_some (e := e₂) houter' (by
      have hn' := hcountn h0
      have hcount₂ := hall.count
      dsimp only at hcount₂
      omega)
    refine ⟨e₃, by rw [if_neg h0, he₃, Option.map_some], ?_⟩
    rw [(hall.trans hadds₃).code]
    simp [List.append_assoc]

end Emission

section Safety

/-- Where a function takes its arguments from, where the trampoline takes the function from, and which registers the
trampoline may have changed when it returns. -/
structure Abi where
  argument : Nat → Nat
  function : Nat
  clobbers : Nat → Prop

/-- The bytes from the stack pointer on that a callee leaves alone, more than are ever pushed. -/
def frame : Nat := 256

variable {w : Nat} {ι σ : Type*} (E : Emitters w ι) (M : Machine w ι σ) (abi : Abi) (start tramp fptr : BitVec w)
  (argno : Nat) (args : Nat → BitVec w)

/-- The code that is emitted calls the function once, with its arguments, gives back every register and goes on
behind. -/
def Safe : Prop :=
  ∀ count : Int, 0 ≤ count →
    ∃ e, emitSafeFcallStaticArgs E tramp fptr argno args ⟨start, [], [], count⟩ = some (0, e) ∧
      ∀ R : Routine w σ, R.entry = tramp → Abides M R E.lr abi.clobbers frame → ∀ s, M.place s = (start, M.set) →
        ∃ u t, Called M R e.code s u t ∧ M.get u abi.function = fptr ∧
          (∀ a, a < argno → M.get u (abi.argument a) = args a) ∧ (∀ r, M.general r → M.get t r = M.get s r) ∧
          M.sp t = M.sp s

/-- What the emitters of an instruction set do for a number of arguments. -/
structure Lawful : Prop where
  few : argno ≤ E.maxFcallArgs
  convention : Convention M (reglist argno) (E.toPush argno) E.function E.lr argno abi.clobbers
  outer : ∃ room is js, outerPush E argno = some is ∧ outerPop E argno = some js ∧ Saves M (reglist argno) room is js ∧
    2 * room ≤ frame
  inner : ∃ room is js, E.push (E.toPush argno) = some is ∧ E.pop (E.toPush argno) = some js ∧
    Saves M (E.toPush argno) room is js ∧ 2 * room ≤ frame
  sets : ∀ r, r < argno ∨ r = E.function ∨ r = E.lr → ∀ v, Sets M r v (E.setReg r v)
  links : Links M E.lr E.callLr
  arguments : ∀ a, a < argno → abi.argument a = a
  function : abi.function = E.function
  width : frame ≤ 2 ^ w

variable {E M abi start tramp fptr argno args}

theorem reglist_bit {n r : Nat} (hn : n ≤ 8) : (reglist n).getLsbD r = decide (r < n) := by
  have hall : ∀ n : Fin 9, ∀ r : Fin 32, (reglist n).getLsbD r = decide (r.val < n) := by decide
  by_cases hr : r < 32
  · exact hall ⟨n, by omega⟩ ⟨r, hr⟩
  · rw [BitVec.getLsbD_of_ge _ _ (by omega), decide_eq_false (by omega)]

theorem saves_nil : Saves M 0 0 [] [] := by
  refine fun s => ⟨s, Goes.nil, fun r _ => rfl, fun v n _ hv => ⟨v, Goes.nil, ?_, fun r _ => ?_⟩⟩
  · rwa [Nat.zero_add] at hv
  · simp

theorem safe_of_far {r : Result ι} (h : Lawful E M abi argno) (hcode : InCode M (start, M.set))
    (hr : E.branchLink (callSite E start fptr argno args) tramp = some r) (hret : r.ret ≠ 0) :
    Safe E M abi start tramp fptr argno args := by
  intro count hcount
  obtain ⟨roomO, isO, jsO, hpushO, hpopO, hsavesO, hroomO⟩ := h.outer
  obtain ⟨roomI, isI, jsI, hpushI, hpopI, hsavesI, hroomI⟩ := h.inner
  obtain ⟨e, he, hemitted⟩ := emitStatic_some h.few hpushO hpopO hpushI hpopI hcount hr
  refine ⟨e, he, fun R hentry habides s hs => ?_⟩
  obtain ⟨u, t, hcalled, hfunction, hargs, hback, hsp⟩ := called_saved (s := s) h.convention hsavesO hsavesI
    (fun a ha => h.sets a (Or.inl ha) (args a)) (h.sets E.function (Or.inr (Or.inl rfl)) fptr)
    (h.sets E.lr (Or.inr (Or.inr rfl)) R.entry) h.links habides (by omega) h.width (hs ▸ hcode)
  refine ⟨u, t, ?_, h.function ▸ hfunction, fun a ha => ?_, hback, hsp⟩
  · rw [hemitted, fcallCode, if_neg hret, ← hentry, ← List.append_assoc (E.setReg E.function fptr)]
    exact hcalled
  · rw [h.arguments a ha]
    exact hargs a ha

theorem not_safe_of_near {r : Result ι} {R : Routine w σ} {s : σ} (h : Lawful E M abi argno) (hs : M.place s = (start, M.set))
    (hentry : R.entry = tramp) (habides : Abides M R E.lr abi.clobbers frame)
    (hr : E.branchLink (callSite E start fptr argno args) tramp = some r) (hret : r.ret = 0) :
    ¬Safe E M abi start tramp fptr argno args := by
  intro hsafe
  obtain ⟨roomO, isO, jsO, hpushO, hpopO, hsavesO, hroomO⟩ := h.outer
  obtain ⟨roomI, isI, jsI, hpushI, hpopI, hsavesI, hroomI⟩ := h.inner
  obtain ⟨e, he, hemitted⟩ := emitStatic_some h.few hpushO hpopO hpushI hpopI (le_refl 0) hr
  obtain ⟨e', he', hcalls⟩ := hsafe 0 (le_refl 0)
  obtain rfl : e = e' := (Prod.mk.inj (Option.some.inj (he.symm.trans he'))).2
  obtain ⟨u, t, hcalled, -⟩ := hcalls R hentry habides s hs
  have hwidth := h.width
  obtain ⟨s₁, hgoes₁, -, hpop₁⟩ := hsavesO s
  obtain ⟨t₁, hback₁, -⟩ := hpop₁ s₁ 0 (by omega) SameStack.refl.intact
  obtain ⟨s₂, hgoes₂, -, hpop₂⟩ := hsavesI s
  obtain ⟨t₂, hback₂, -⟩ := hpop₂ s₂ 0 (by omega) SameStack.refl.intact
  obtain ⟨s₃, hargs, -⟩ := sets_range (fun a ha => h.convention.general a (Or.inl ha))
    (fun a ha => h.sets a (Or.inl ha) (args a)) s
  obtain ⟨s₄, hset, -⟩ := h.sets E.function (Or.inr (Or.inl rfl)) fptr s
  have hsilent : Silent M e.code := by
    rw [hemitted, fcallCode, if_pos hret, List.append_nil]
    exact (hgoes₁.silent.append (hargs.silent.append ((hgoes₂.silent.append hset.silent).append hback₂.silent))).append
      hback₁.silent
  exact absurd (hsilent.no_call hcalled.run) (by simp)

theorem safe_iff {R : Routine w σ} {s : σ} (h : Lawful E M abi argno) (hcode : InCode M (start, M.set))
    (hs : M.place s = (start, M.set)) (hentry : R.entry = tramp) (habides : Abides M R E.lr abi.clobbers frame) :
    Safe E M abi start tramp fptr argno args ↔
      ∃ r, E.branchLink (callSite E start fptr argno args) tramp = some r ∧ r.ret ≠ 0 := by
  constructor
  · intro hsafe
    cases hr : E.branchLink (callSite E start fptr argno args) tramp with
    | none =>
        obtain ⟨roomO, isO, jsO, hpushO, -⟩ := h.outer
        obtain ⟨roomI, isI, jsI, hpushI, -⟩ := h.inner
        obtain ⟨e, he, -⟩ := hsafe 0 (le_refl 0)
        rw [emitStatic_none h.few hpushO hpushI hr] at he
        exact absurd he (by simp)
    | some r => exact ⟨r, rfl, fun hret => not_safe_of_near h hs hentry habides hr hret hsafe⟩
  · rintro ⟨r, hr, hret⟩
    exact safe_of_far h hcode hr hret

end Safety

end Mambo.SafeFcallRuns
