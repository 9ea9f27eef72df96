import Mambo.A64ExitLinks

namespace Mambo.A64ExitRuns

open CodeRuns A64 A64Emit A64Exits A64ExitLinks

/-- A block that ends in a conditional branch of the guest, and the code cache
around it: which addresses are translations of which addresses of the guest. An
entry is four bytes into a translation. It is not in the exit of the block, but
for a block that consists of its exit only. -/
structure Site where
  guest : Inst
  readAddress : Word
  writeP : Word
  basicBlock : Word
  dispatcherAddr : Word
  bbMeta : CodeCacheMeta
  stub : List Inst
  translates : Word → Word → Prop
  scanned : scanCondExit dispatcherAddr guest readAddress writeP basicBlock = some (bbMeta, stub)
  dispatcher_outside : ∀ k, k < stub.length → dispatcherAddr ≠ cell writeP k
  entry_outside : ∀ g b, translates g b → b + 4 = writeP ∨ ∀ k, k < stub.length → b + 4 ≠ cell writeP k
  entry_ne : ∀ g b, translates g b → b + 4 ≠ dispatcherAddr
  entry_aligned : ∀ g b, translates g b → b &&& 3 = 0

namespace Site

variable (site : Site)

def side (taken : Bool) : Word :=
  if taken then site.readAddress + distance site.guest else site.readAddress + 4

def guestNext (s : State) : Word := (exec site.guest (s.goto site.readAddress)).pc

def call (s : State) (g : Word) : State := atDispatcher site.dispatcherAddr site.basicBlock s g

/-- The exit goes where the guest goes: to a translation with nothing changed, or
to the dispatcher for a side that has not been linked. -/
def Follows (sides : List Word) (code : Code) (s : State) : Prop :=
  ∃ t, Runs a64 code (s.goto site.writeP) t ∧
    ((∃ b, site.translates (site.guestNext s) b ∧ t = s.goto (b + 4)) ∨
      site.guestNext s ∉ sides ∧ t = site.call s (site.guestNext s))

/-- The metadata and the code of the exit after some calls of the dispatcher, and
the sides that these calls were for. A call is made by running the exit; by then
its target is translated. -/
inductive Linked : List Word → CodeCacheMeta → Code → Prop
  | start : Linked [] site.bbMeta (emit site.writeP site.stub fun _ => none)
  | link {sides : List Word} {bbMeta bbMeta' : CodeCacheMeta} {code code' : Code} {s t : State} {block : Word}
      {lookup : Word → Word} (h : Linked sides bbMeta code)
      (hrun : Reaches a64 code (s.goto site.writeP) t) (hcall : t.pc = site.dispatcherAddr)
      (hlookup : ∀ g, lookup g ≠ uintMax → site.translates g (lookup g))
      (hblock : site.translates (t.x 0) block) (hfound : lookup (t.x 0) = block)
      (hlink : dispatcherAarch64 lookup (t.x 0) block bbMeta code bbMeta.exitBranchType = some (bbMeta', code')) :
      Linked (t.x 0 :: sides) bbMeta' code'

/-- Either the inverted branch is the opposite of the branch, or it does not
matter where the branch goes. -/
def Sound : Prop := (∀ s, taken (invert site.guest) s = !taken site.guest s) ∨ site.side true = site.side false

/-- The first two words of an exit with a linked side. -/
structure Heads (linked : Bool) (b : Word) (code : Code) : Prop where
  branch_at : ∃ i, code site.writeP = some i ∧ ∀ s : State, exec i (s.goto site.writeP) =
    if taken (if linked then invert site.guest else site.guest) s then s.goto (cell site.writeP 2)
    else s.goto (cell site.writeP 1)
  jump_at : ∃ j, code (cell site.writeP 1) = some j ∧ branchHelper (cell site.writeP 1) (b + 4) = some j
  translated : site.translates (site.side linked) b

inductive Shape : List Word → CodeCacheMeta → Code → Prop
  | unlinked {code : Code} (hcode : CodeAt a64 code site.writeP site.stub) : Shape [] site.bbMeta code
  | one {linked : Bool} {status b : Word} {code : Code} (hheads : site.Heads linked b code)
      (htail : CodeAt a64 code (cell site.writeP 2) (site.stub.drop 2)) (hstatus : status ≠ 0)
      (hne : site.side true ≠ site.side false) :
      Shape [site.side linked] { site.bbMeta with branchCacheStatus := status } code
  | both {sides : List Word} {linked : Bool} {status b b' : Word} {j : Inst} {code : Code}
      (hheads : site.Heads linked b code) (hj : code (cell site.writeP 2) = some j)
      (hjump : branchHelper (cell site.writeP 2) (b' + 4) = some j) (hb : site.translates (site.side !linked) b') :
      Shape sides { site.bbMeta with branchCacheStatus := status } code

variable {site} {code : Code} {s : State} {sides : List Word} {bbMeta : CodeCacheMeta}

theorem guestNext_eq (s : State) : site.guestNext s = site.side (taken site.guest s) := exec_guest site.scanned s

theorem Heads.runs {linked : Bool} {b : Word} (h : site.Heads linked b code) (s : State) :
    Runs a64 code (s.goto site.writeP)
      (s.goto (if taken (if linked then invert site.guest else site.guest) s then cell site.writeP 2 else b + 4)) := by
  obtain ⟨i, hi, hexec⟩ := h.branch_at
  obtain ⟨j, hj, hjump⟩ := h.jump_at
  have hstep := steps_exec hi (hexec s)
  by_cases ht : taken (if linked then invert site.guest else site.guest) s
  · rw [if_pos ht] at hstep ⊢
    exact Relation.TransGen.single hstep
  · rw [if_neg ht] at hstep ⊢
    exact (Relation.TransGen.single hstep).tail (jump_run hjump hj)

theorem stub_runs (htail : CodeAt a64 code (cell site.writeP 2) (site.stub.drop 2)) (s : State) :
    Reaches a64 code (s.goto (cell site.writeP 2)) (site.call s (site.side !taken (invert site.guest) s)) := by
  obtain ⟨tail, hstub, hrun⟩ := scan_run site.scanned
  rw [hstub] at htail
  have hside : (if taken (invert site.guest) s then site.readAddress + 4
      else site.readAddress + distance site.guest) = site.side !taken (invert site.guest) s := by
    rw [side]
    cases taken (invert site.guest) s <;> rfl
  rw [call, ← hside]
  exact hrun htail

theorem unlinked_runs (hcode : CodeAt a64 code site.writeP site.stub) (s : State) :
    Runs a64 code (s.goto site.writeP) (site.call s (site.side !taken (invert site.guest) s)) := by
  obtain ⟨tail, hstub, -⟩ := scan_run site.scanned
  rw [hstub, codeAt_cons_cell, codeAt_cons_cell] at hcode
  obtain ⟨hnop, hnop', htail⟩ := hcode
  have hfirst : Steps a64 code (s.goto site.writeP) (s.goto (cell site.writeP 1)) := steps_exec hnop rfl
  have hsecond : Steps a64 code (s.goto (cell site.writeP 1)) (s.goto (cell site.writeP 2)) := by
    refine steps_exec hnop' ?_
    rw [exec, State.next_goto, cell_next]
  have hdrop : CodeAt a64 code (cell site.writeP 2) (site.stub.drop 2) := by
    rw [hstub]
    rw [cell_add] at htail
    exact htail
  exact Relation.TransGen.trans_left (.tail (.single hfirst) hsecond) (stub_runs hdrop s)

theorem Sound.side_eq (h : site.Sound) (linked : Bool) (s : State) :
    site.side (taken site.guest s) =
      site.side (if taken (if linked then invert site.guest else site.guest) s then !linked else linked) := by
  rcases h with h | h
  · cases linked with
    | true =>
        simp only [if_true, h s]
        cases taken site.guest s <;> rfl
    | false =>
        simp only [Bool.false_eq_true, if_false]
        cases taken site.guest s <;> rfl
  · have hall : ∀ x y, site.side x = site.side y := by
      intro x y
      cases x <;> cases y <;> first | rfl | exact h | exact h.symm
    exact hall _ _

theorem Sound.opposite (h : site.Sound) (s : State) :
    site.side (taken site.guest s) = site.side !taken (invert site.guest) s := by
  have heq := h.side_eq true s
  simp only [if_true] at heq
  rw [heq]
  cases taken (invert site.guest) s <;> rfl

theorem Shape.follows (hsound : site.Sound) (h : site.Shape sides bbMeta code) (s : State) :
    site.Follows sides code s := by
  have hnext : site.guestNext s = _ := guestNext_eq s
  cases h with
  | unlinked hcode =>
      refine ⟨_, unlinked_runs hcode s, Or.inr ⟨List.not_mem_nil, ?_⟩⟩
      rw [hnext, hsound.opposite]
  | @one linked status b code hheads htail hstatus hne =>
      have hruns := hheads.runs s
      have hside := hsound.side_eq linked s
      by_cases ht : taken (if linked then invert site.guest else site.guest) s
      · rw [if_pos ht] at hruns hside
        refine ⟨_, Relation.TransGen.trans_left hruns (stub_runs htail s), Or.inr ⟨?_, ?_⟩⟩
        · rw [hnext, hside, List.mem_singleton]
          cases linked with
          | true => exact hne.symm
          | false => exact hne
        · rw [hnext, hsound.opposite]
      · rw [if_neg ht] at hruns hside
        refine ⟨_, hruns, Or.inl ⟨b, ?_, rfl⟩⟩
        rw [hnext, hside]
        exact hheads.translated
  | @both sides linked status b b' j code hheads hj hjump hb =>
      have hruns := hheads.runs s
      have hside := hsound.side_eq linked s
      by_cases ht : taken (if linked then invert site.guest else site.guest) s
      · rw [if_pos ht] at hruns hside
        refine ⟨_, hruns.tail (jump_run hjump hj), Or.inl ⟨b', ?_, rfl⟩⟩
        rw [hnext, hside]
        exact hb
      · rw [if_neg ht] at hruns hside
        refine ⟨_, hruns, Or.inl ⟨b, ?_, rfl⟩⟩
        rw [hnext, hside]
        exact hheads.translated

section Calls

/-- Nothing but the cells of the exit. -/
def Only (site : Site) (code : Code) : Prop := ∀ a, (∀ k, k < site.stub.length → a ≠ cell site.writeP k) → code a = none

theorem entry_not_call (honly : site.Only code) {g b : Word} (hb : site.translates g b)
    (hruns : Runs a64 code (s.goto site.writeP) (s.goto (b + 4))) {t : State}
    (hrun : Reaches a64 code (s.goto site.writeP) t) (ht : t.pc = site.dispatcherAddr) : False := by
  have hstop : code t.pc = none := by
    rw [ht]
    exact honly _ site.dispatcher_outside
  rcases site.entry_outside g b hb with hself | hout
  · rw [hself] at hruns
    exact hrun.no_cycle hstop hruns
  · have heq := Reaches.stop_unique hruns.to_reflTransGen (honly _ hout) hrun hstop
    apply site.entry_ne g b hb
    rw [← ht, ← heq]
    rfl

theorem call_unique (honly : site.Only code) {g : Word}
    (hreach : Reaches a64 code (s.goto site.writeP) (site.call s g)) {t : State}
    (hrun : Reaches a64 code (s.goto site.writeP) t) (ht : t.pc = site.dispatcherAddr) : t.x 0 = g := by
  have hstop : code t.pc = none := by
    rw [ht]
    exact honly _ site.dispatcher_outside
  have hstop' : code (site.call s g).pc = none := honly _ site.dispatcher_outside
  rw [hrun.stop_unique hstop hreach hstop']
  rfl

theorem tail_of_stub (hcode : CodeAt a64 code site.writeP site.stub) :
    CodeAt a64 code (cell site.writeP 2) (site.stub.drop 2) := by
  obtain ⟨tail, hstub, -⟩ := scan_run site.scanned
  rw [hstub, codeAt_cons_cell, codeAt_cons_cell, cell_add] at hcode
  rw [hstub]
  exact hcode.2.2

theorem Only.update (honly : site.Only code) {k : Nat} (hk : k < site.stub.length) (i : Inst) :
    site.Only (Function.update code (cell site.writeP k) (some i)) := by
  intro a ha
  rw [Function.update_of_ne (ha k hk)]
  exact honly a ha

theorem tail_update {j : Nat} (hj : j < 2) (i : Inst)
    (htail : CodeAt a64 code (cell site.writeP 2) (site.stub.drop 2)) :
    CodeAt a64 (Function.update code (cell site.writeP j) (some i)) (cell site.writeP 2) (site.stub.drop 2) := by
  obtain ⟨-, hlen⟩ := scan_length site.scanned
  refine codeAt_congr (fun k hk => ?_) htail
  rw [List.length_drop] at hk
  rw [cell_add, Function.update_of_ne]
  intro heq
  exact absurd (cell_inj (by omega) (by omega) heq) (by omega)

theorem cell_ne (site : Site) {j k : Nat} (hj : j < 3) (hk : k < 3) (hne : j ≠ k) : cell site.writeP j ≠ cell site.writeP k := by
  intro heq
  exact hne (cell_inj (by omega) (by omega) heq)

theorem not_uintMax {g b : Word} (hb : site.translates g b) : b ≠ uintMax := by
  intro heq
  have := site.entry_aligned g b hb
  rw [heq] at this
  exact absurd this (by decide)

theorem Heads.update_third {linked : Bool} {b : Word} (h : site.Heads linked b code) (j : Inst) :
    site.Heads linked b (Function.update code (cell site.writeP 2) (some j)) := by
  have h0 : site.writeP ≠ cell site.writeP 2 := by
    rw [← cell_zero site.writeP, cell_add]
    exact cell_ne site (by decide) (by decide) (by decide)
  have h1 : cell site.writeP 1 ≠ cell site.writeP 2 := cell_ne site (by decide) (by decide) (by decide)
  refine ⟨?_, ?_, h.translated⟩
  · rw [Function.update_of_ne h0]
    exact h.branch_at
  · rw [Function.update_of_ne h1]
    exact h.jump_at

theorem linkFirst_shape (honly : site.Only code) (hcode : CodeAt a64 code site.writeP site.stub) {linked : Bool}
    {block : Word} {lookup : Word → Word} (hlookup : ∀ g, lookup g ≠ uintMax → site.translates g (lookup g))
    (hblock : site.translates (site.side linked) block) (hfound : lookup (site.side linked) = block)
    (htrue : linked = decide (site.side linked = site.side true)) {bbMeta' : CodeCacheMeta} {code' : Code}
    (hlink : linkFirst lookup (site.side linked) block site.bbMeta code = some (bbMeta', code')) :
    site.Shape [site.side linked] bbMeta' code' ∧ site.Only code' := by
  obtain ⟨haddr, htaken, hskipped, -, -⟩ := scan_meta site.scanned
  have hlen := (scan_length site.scanned).1
  have hdec : decide (site.side linked = site.bbMeta.branchTakenAddr) = linked := by
    rw [htaken]
    exact htrue.symm
  have hother : (if linked then site.bbMeta.branchSkippedAddr else site.bbMeta.branchTakenAddr) =
      site.side !linked := by
    rw [htaken, hskipped]
    cases linked <;> rfl
  simp only [linkFirst, hdec, hother, Option.bind_eq_bind, Option.bind_eq_some_iff, Option.pure_def] at hlink
  obtain ⟨condBranch, hins, jump, hjump, hrest⟩ := hlink
  rw [haddr] at hins
  obtain ⟨i, rfl, hexec⟩ := insert_exec site.scanned linked hins
  have hfirst : Function.update (emit site.bbMeta.exitBranchAddr [i] code) (cell site.bbMeta.exitBranchAddr 1)
      (some jump) = Function.update (Function.update code (cell site.writeP 0) (some i)) (cell site.writeP 1)
        (some jump) := by
    rw [haddr, cell_zero]
    rfl
  rw [List.length_singleton, hfirst] at hrest
  rw [List.length_singleton, haddr] at hjump
  have honly' := (honly.update (by omega : 0 < site.stub.length) i).update (by omega : 1 < site.stub.length) jump
  have hheads : site.Heads linked block
      (Function.update (Function.update code (cell site.writeP 0) (some i)) (cell site.writeP 1) (some jump)) := by
    refine ⟨⟨i, ?_, hexec⟩, ⟨jump, Function.update_self _ _ _, hjump⟩, hblock⟩
    rw [Function.update_of_ne, cell_zero, Function.update_self]
    rw [← cell_zero site.writeP, cell_add]
    exact cell_ne site (by decide) (by decide) (by decide)
  by_cases hin : lookup (site.side !linked) ≠ uintMax
  · have hcell : cell site.bbMeta.exitBranchAddr 1 + 4 = cell site.writeP 2 := by rw [haddr, cell_next]
    rw [if_pos hin, hcell] at hrest
    obtain ⟨otherJump, hjump', heq⟩ := Option.bind_eq_some_iff.mp hrest
    obtain ⟨rfl, rfl⟩ := Prod.mk.inj (Option.some.inj heq)
    exact ⟨Shape.both (hheads.update_third otherJump) (Function.update_self _ _ _) hjump' (hlookup _ hin),
      honly'.update (by omega) otherJump⟩
  · rw [if_neg hin] at hrest
    obtain ⟨rfl, rfl⟩ := Prod.mk.inj (Option.some.inj hrest)
    refine ⟨Shape.one hheads ?_ ?_ ?_, honly'⟩
    · exact tail_update (by decide) jump (tail_update (by decide) i (tail_of_stub hcode))
    · cases linked <;> decide
    · intro hsame
      have hside : site.side (!linked) = site.side linked := by
        cases linked with
        | true => exact hsame.symm
        | false => exact hsame
      rw [hside, hfound] at hin
      exact hin (not_uintMax hblock)

theorem linkSecond_shape (honly : site.Only code) {linked : Bool} {status b block : Word}
    (hheads : site.Heads linked b code) (hblock : site.translates (site.side !linked) block)
    {bbMeta' : CodeCacheMeta} {code' : Code}
    (hlink : linkSecond block { site.bbMeta with branchCacheStatus := status } code = some (bbMeta', code')) :
    site.Shape [site.side !linked, site.side linked] bbMeta' code' ∧ site.Only code' := by
  obtain ⟨haddr, -, -, -, -⟩ := scan_meta site.scanned
  have hlen := (scan_length site.scanned).1
  have hcell : site.bbMeta.exitBranchAddr + 8 = cell site.writeP 2 := by
    rw [haddr]
    rfl
  simp only [linkSecond, hcell, Option.bind_eq_bind, Option.bind_eq_some_iff, Option.pure_def, Option.some.injEq]
    at hlink
  obtain ⟨jump, hjump, heq⟩ := hlink
  obtain ⟨rfl, rfl⟩ := Prod.mk.inj heq
  exact ⟨Shape.both (hheads.update_third jump) (Function.update_self _ _ _) hjump hblock,
    honly.update (by omega) jump⟩

/-- The dispatcher takes a side for the taken one when the addresses are the same. -/
theorem canonical_side (site : Site) (taken : Bool) :
    ∃ linked, site.side taken = site.side linked ∧ linked = decide (site.side linked = site.side true) := by
  by_cases h : site.side taken = site.side true
  · exact ⟨true, h, by simp⟩
  · cases taken with
    | true => exact absurd rfl h
    | false => exact ⟨false, rfl, by simp [h]⟩

theorem Shape.link (hsound : site.Sound) (honly : site.Only code) (h : site.Shape sides bbMeta code) {s t : State}
    (hrun : Reaches a64 code (s.goto site.writeP) t) (ht : t.pc = site.dispatcherAddr) {block : Word}
    {lookup : Word → Word} (hlookup : ∀ g, lookup g ≠ uintMax → site.translates g (lookup g))
    (hblock : site.translates (t.x 0) block) (hfound : lookup (t.x 0) = block) {bbMeta' : CodeCacheMeta}
    {code' : Code}
    (hlink : dispatcherAarch64 lookup (t.x 0) block bbMeta code bbMeta.exitBranchType = some (bbMeta', code')) :
    site.Shape (t.x 0 :: sides) bbMeta' code' ∧ site.Only code' := by
  obtain ⟨-, -, -, hstatus, htype⟩ := scan_meta site.scanned
  cases h with
  | unlinked hcode =>
      have hx := call_unique honly (unlinked_runs hcode s).to_reflTransGen hrun ht
      obtain ⟨linked, hside, htrue⟩ := site.canonical_side !taken (invert site.guest) s
      rw [hside] at hx
      have hfirst : linkFirst lookup (t.x 0) block site.bbMeta code = some (bbMeta', code') := by
        rcases htype with hty | hty | hty
        all_goals
          rw [hty, dispatcherAarch64, if_pos hstatus] at hlink
          exact hlink
      rw [hx] at hblock hfound hfirst ⊢
      exact linkFirst_shape honly hcode hlookup hblock hfound htrue hfirst
  | @one linked status b code hheads htail hne0 hne =>
      have hruns := hheads.runs s
      have hside := hsound.side_eq linked s
      by_cases htk : taken (if linked then invert site.guest else site.guest) s
      · rw [if_pos htk] at hruns hside
        have hx := call_unique honly (hruns.to_reflTransGen.trans (stub_runs htail s)) hrun ht
        rw [← hsound.opposite, hside] at hx
        have hsecond : linkSecond block { site.bbMeta with branchCacheStatus := status } code =
            some (bbMeta', code') := by
          rcases htype with hty | hty | hty
          all_goals
            rw [hty, dispatcherAarch64, if_neg hne0] at hlink
            exact hlink
        rw [hx] at hblock ⊢
        exact linkSecond_shape honly hheads hblock hsecond
      · rw [if_neg htk] at hruns
        exact (entry_not_call honly hheads.translated hruns hrun ht).elim
  | @both sides linked status b b' j code hheads hj hjump hb =>
      have hruns := hheads.runs s
      by_cases htk : taken (if linked then invert site.guest else site.guest) s
      · rw [if_pos htk] at hruns
        exact (entry_not_call honly hb (hruns.tail (jump_run hjump hj)) hrun ht).elim
      · rw [if_neg htk] at hruns
        exact (entry_not_call honly hheads.translated hruns hrun ht).elim

theorem only_start (site : Site) : site.Only (emit site.writeP site.stub fun _ => none) :=
  fun _ ha => emit_outside ha

theorem Linked.shape (hsound : site.Sound) (h : site.Linked sides bbMeta code) :
    site.Shape sides bbMeta code ∧ site.Only code := by
  induction h with
  | start =>
      have hlen := (scan_length site.scanned).2
      exact ⟨Shape.unlinked (emit_codeAt (by omega)), site.only_start⟩
  | link h hrun hcall hlookup hblock hfound hlink ih =>
      exact ih.1.link hsound ih.2 hrun hcall hlookup hblock hfound hlink

end Calls

theorem not_follows (hsound : ¬ site.Sound) : ∃ s, ¬ site.Follows [] (emit site.writeP site.stub fun _ => none) s := by
  obtain ⟨hne, hside⟩ := not_or.mp hsound
  obtain ⟨s, hs⟩ := not_forall.mp hne
  refine ⟨s, ?_⟩
  rintro ⟨t, hrun, harrive⟩
  have hlen := (scan_length site.scanned).2
  have hcode : CodeAt a64 (emit site.writeP site.stub fun _ => none) site.writeP site.stub := emit_codeAt (by omega)
  have hgo := (unlinked_runs hcode s).to_reflTransGen
  rcases harrive with ⟨b, hb, rfl⟩ | ⟨-, rfl⟩
  · exact entry_not_call site.only_start hb hrun hgo rfl
  · have hx := call_unique site.only_start hrun.to_reflTransGen hgo rfl
    have hside' : site.side (!taken (invert site.guest) s) = site.side (taken site.guest s) := hx.trans (guestNext_eq s)
    revert hs hside'
    cases taken (invert site.guest) s <;> cases taken site.guest s
    · exact fun _ heq => hside heq
    · exact fun hs _ => hs rfl
    · exact fun hs _ => hs rfl
    · exact fun _ heq => hside heq.symm

end Site

/-- The conditions that inverting the lowest bit turns into their opposite: all
but the two that always hold. -/
def Invertible : Inst → Prop
  | .bCond imm19 cond => cond.toNat < 14 ∨ offset imm19 = 4
  | _ => True

theorem condHolds_invert (cond : BitVec 4) (n z c v : Bool) :
    condHolds (cond ^^^ 1) ⟨n, z, c, v⟩ = if cond.toNat < 14 then !condHolds cond ⟨n, z, c, v⟩ else true := by
  revert cond n z c v
  decide

theorem condHolds_always (cond : BitVec 4) (f : Flags) (h : ¬ cond.toNat < 14) : condHolds cond f = true := by
  have hcases : ∀ cond : BitVec 4, ¬ cond.toNat < 14 → cond = 14 ∨ cond = 15 := by decide
  rcases hcases cond h with rfl | rfl <;> rfl

theorem sound_iff (site : Site) : site.Sound ↔ Invertible site.guest := by
  have hside : site.side true = site.side false ↔ distance site.guest = 4 := by
    simp only [Site.side, if_true, Bool.false_eq_true, if_false]
    exact add_right_inj _
  have hscan := site.scanned
  rw [Site.Sound, hside]
  cases hguest : site.guest with
  | bCond imm19 cond =>
      refine or_congr ⟨fun h => ?_, fun h s => ?_⟩ Iff.rfl
      · by_contra hge
        have hall := h ⟨0, fun _ => 0, 0, ⟨false, false, false, false⟩, fun _ => 0⟩
        rw [invert, taken, taken, condHolds_invert, if_neg hge, condHolds_always cond _ hge] at hall
        exact absurd hall (by decide)
      · rw [invert, taken, taken, condHolds_invert, if_pos h]
  | cbzCbnz sf op imm19 rt =>
      refine iff_of_true (Or.inl fun s => ?_) trivial
      have hop : (op ^^^ 1 == 1) = !(op == 1) := (by decide : ∀ x : BitVec 1, (x ^^^ 1 == 1) = !(x == 1)) op
      rw [invert, taken_cbz, taken_cbz, hop]
      cases (operand sf (s.get rt) == 0) <;> cases (op == 1) <;> rfl
  | tbzTbnz b5 op b40 imm14 rt =>
      refine iff_of_true (Or.inl fun s => ?_) trivial
      have hop : (op ^^^ 1 == 1) = !(op == 1) := (by decide : ∀ x : BitVec 1, (x ^^^ 1 == 1) = !(x == 1)) op
      rw [invert, taken, taken, hop]
      cases (s.get rt).getLsbD (b5.toNat * 32 + b40.toNat) <;> cases (op == 1) <;> rfl
  | _ => exact absurd (hguest ▸ hscan) (by simp [scanCondExit])

/-- An exit goes where the guest goes after any calls of the dispatcher, exactly
when its branch can be inverted. -/
theorem exit_follows_guest (site : Site) :
    (∀ sides bbMeta code, site.Linked sides bbMeta code → ∀ s, site.Follows sides code s) ↔
      Invertible site.guest := by
  rw [← sound_iff]
  constructor
  · intro hall
    by_contra hsound
    obtain ⟨s, hs⟩ := Site.not_follows hsound
    exact hs (hall _ _ _ Site.Linked.start s)
  · intro hsound sides bbMeta code hlinked s
    exact (hlinked.shape hsound).1.follows hsound s

def alwaysSite : Site where
  guest := .bCond 2 14
  readAddress := 0x10000
  writeP := 0x400104
  basicBlock := 1
  dispatcherAddr := 0x400010
  bbMeta := ⟨.condImmA64, 0x400104, 0x10008, 0x10004, 14, 0, 0⟩
  stub := [.nop, .nop, pushPairReg 0 1, .movz 0 1 1, .bCond 4 15, .movz 0 8 0, .movk 1 1 0, .b 0x3FFFFBC,
    .movz 0 4 0, .movk 1 1 0, .b 0x3FFFFB9]
  translates g b := g = 0x10008 ∧ b = 0x400200
  scanned := by rfl
  dispatcher_outside := by decide
  entry_outside := by
    rintro g b ⟨-, rfl⟩
    exact Or.inr (by decide)
  entry_ne := by
    rintro g b ⟨-, rfl⟩
    decide
  entry_aligned := by
    rintro g b ⟨-, rfl⟩
    decide

theorem exit_always_skips :
    ¬ ∀ sides bbMeta code, alwaysSite.Linked sides bbMeta code → ∀ s, alwaysSite.Follows sides code s := by
  intro hall
  have hsound : ¬ alwaysSite.Sound := by
    rw [sound_iff, alwaysSite, Invertible]
    decide
  obtain ⟨s, hs⟩ := Site.not_follows hsound
  exact hs (hall _ _ _ Site.Linked.start s)

end Mambo.A64ExitRuns
