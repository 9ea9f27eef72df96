import Mambo.CachesimFetch
import Mambo.SafeFcallRuns

namespace Mambo.CachesimFetchRuns

open CachesimFetch CodeChunks EmitResults SafeFcalls SafeFcallRuns
open CallRuns (Machine Goes Sets SameStack)
open Chunks (Keeps)

section Spec

variable {w : Nat} {ι I σ : Type} (T : Target w ι I) (M : Machine w ι σ) (env : Env w)

/-- The code of a fetch up to the call: the arguments of `cachesim_buf_write`. -/
def fetchCode (address : BitVec w) (size : Nat) : List ι :=
  T.emitters.setReg T.a0 address ++
    (T.instSize (BitVec.ofNat w (size <<< 1)) ++ T.emitters.setReg T.a2 env.instTraceBuf)

/-- Code that ends with the arguments of a fetch in their registers, and changes no others. -/
def Passes (is : List ι) (address : BitVec w) (size : Nat) : Prop :=
  ∀ s, ∃ u, Goes M is s u ∧ M.get u T.a0 = address ∧ M.get u T.a1 = BitVec.ofNat w (size <<< 1) ∧
    M.get u T.a2 = env.instTraceBuf ∧
    (∀ r, M.general r → r ≠ T.a0 → r ≠ T.a1 → r ≠ T.a2 → M.get u r = M.get s r) ∧ SameStack M s u

/-- The code at a place passes an address and a size, which a patch as long as the placeholder has put there. -/
structure Fetch (code : Chunks (Cell ι)) (p : Place) (range : BitVec w × Nat) : Prop where
  held : code.Holds p (cells T (fetchCode T env range.1 range.2))
  passes : Passes T M env (fetchCode T env range.1 range.2) range.1 range.2
  fits : range.2 <<< 1 < 2 ^ w
  patch : bytes T (T.instSize (BitVec.ofNat w (range.2 <<< 1))) = bytes T (T.instSize 0)

def len (is : List I) : Nat := (is.map T.getInstLen).sum

/-- The ranges of groups of instructions that lie one behind the other. -/
def ranges (address : BitVec w) : List (List I) → List (BitVec w × Nat)
  | [] => []
  | g :: gs => (address, len T g) :: ranges (address + BitVec.ofNat w (len T g)) gs

/-- The fetches are of consecutive ranges from an address on, which have every instruction of a block once. -/
def Partitions (code : Chunks (Cell ι)) (address : BitVec w) (block : List I) (fetches : List Place) : Prop :=
  ∃ groups : List (List I), groups.flatten = block ∧ List.Forall₂ (Fetch T M env code) fetches (ranges T address groups)

/-- The handler does not leave an instruction out. -/
def Sized (i : I) : Prop :=
  T.isLoad i = true ∨ T.isStore i = true → T.isRvvMem i = true ∨ ∀ size ∈ T.getLdStSize i, 0 < size

instance (i : I) : Decidable (Sized T i) := inferInstanceAs (Decidable (_ → _))

/-- What the partition rests on: no instruction is longer than four bytes, the code for a size is as
long as that for 0, and the code for each argument sets its register. -/
structure Lawful : Prop where
  len_le : ∀ i, T.getInstLen i ≤ 4
  wide : 2 ^ 16 ≤ 2 ^ w
  placeholder : 0 < bytes T (T.instSize 0)
  patch : ∀ n, n ≤ 0x7FFF → bytes T (T.instSize (BitVec.ofNat w (n <<< 1))) = bytes T (T.instSize 0)
  general : M.general T.a0 ∧ M.general T.a1
  apart : T.a0 ≠ T.a1 ∧ T.a0 ≠ T.a2 ∧ T.a1 ≠ T.a2
  sets0 : ∀ v, Sets M T.a0 v (T.emitters.setReg T.a0 v)
  sets1 : ∀ n, n ≤ 0x7FFF → Sets M T.a1 (BitVec.ofNat w (n <<< 1)) (T.instSize (BitVec.ofNat w (n <<< 1)))
  sets2 : ∀ v, Sets M T.a2 v (T.emitters.setReg T.a2 v)

end Spec

section Cells

variable {w : Nat} {ι I : Type} {T : Target w ι I} {is js : List ι}

theorem length_cells : (cells T is).length = bytes T is := by
  simp [cells, bytes, List.length_flatMap]

theorem cells_append : cells T (is ++ js) = cells T is ++ cells T js := List.flatMap_append

theorem bytes_append : bytes T (is ++ js) = bytes T is + bytes T js := by simp [bytes]

end Cells

section Ranges

variable {w : Nat} {ι I : Type} {T : Target w ι I} {address : BitVec w} {is js g : List I} {gs : List (List I)}

theorem len_append : len T (is ++ js) = len T is + len T js := by simp [len]

theorem ranges_append : ranges T address (gs ++ [g]) =
    ranges T address gs ++ [(address + BitVec.ofNat w (len T gs.flatten), len T g)] := by
  induction gs generalizing address with
  | nil => simp [ranges, len]
  | cons g' gs ih =>
      rw [List.cons_append, ranges, ih, ranges, List.flatten_cons, len_append, BitVec.ofNat_add, add_assoc]
      rfl

end Ranges

section Passing

variable {w : Nat} {ι I σ : Type} {T : Target w ι I} {M : Machine w ι σ} {env : Env w} {n : Nat}

theorem Lawful.passes (h : Lawful T M) (address : BitVec w) (hn : n ≤ 0x7FFF) :
    Passes T M env (fetchCode T env address n) address n := by
  obtain ⟨h01, h02, h12⟩ := h.apart
  intro s
  obtain ⟨s₀, hgoes₀, hvalue₀, hothers₀, hstack₀⟩ := h.sets0 address s
  obtain ⟨s₁, hgoes₁, hvalue₁, hothers₁, hstack₁⟩ := h.sets1 n hn s₀
  obtain ⟨s₂, hgoes₂, hvalue₂, hothers₂, hstack₂⟩ := h.sets2 env.instTraceBuf s₁
  refine ⟨s₂, hgoes₀.append (hgoes₁.append hgoes₂), ?_, ?_, hvalue₂, fun r hr h0 h1 h2 => ?_,
    hstack₀.trans (hstack₁.trans hstack₂)⟩
  · rw [hothers₂ _ h.general.1 h02, hothers₁ _ h.general.1 h01, hvalue₀]
  · rw [hothers₂ _ h.general.2 h12, hvalue₁]
  · rw [hothers₂ r hr h2, hothers₁ r hr h1, hothers₀ r hr h0]

end Passing

section Emission

variable {w : Nat} {ι I : Type} {T : Target w ι I} {env : Env w} {t t' : Thread ι} {e e' : Emitted w ι} {i : I}
  {regs : BitVec 32} {target readAddress : BitVec w} {size : Int} {code code' : Chunks (Cell ι)}

theorem adds_of_push {E : Emitters w ι} (h : emitPush E regs e = some e') : ∃ is n, Adds e is n e' := by
  obtain ⟨is, his, -⟩ := Option.map_eq_some_iff.mp h
  obtain ⟨e'', he'', hadds⟩ := emitPush_some (e := e) his
  obtain rfl := Option.some.inj (h.symm.trans he'')
  exact ⟨is, _, hadds⟩

theorem adds_of_fcall {E : Emitters w ι} (h : emitFcall E target e = some e') : ∃ is n, Adds e is n e' := by
  obtain ⟨r, hr, -⟩ := Option.map_eq_some_iff.mp h
  obtain ⟨e'', he'', hadds⟩ := emitFcall_some hr
  obtain rfl := Option.some.inj (h.symm.trans he'')
  exact ⟨_, _, hadds⟩

theorem adds_of_pop {E : Emitters w ι} (h : emitPop E regs e = some e') : ∃ is n, Adds e is n e' := by
  rw [emitPop] at h
  split at h
  · obtain ⟨is, -, rfl⟩ := Option.map_eq_some_iff.mp h
    exact ⟨is, _, rfl, rfl, sub_eq_add_neg _ _⟩
  · exact absurd h (by simp)

/-- The code of a fetch is emitted with a placeholder for the size, whose place is kept. -/
theorem instCode_spec (h : instCode T env readAddress t = some t') :
    ∃ pre post, t' =
      { t with
        code := t.code.append (cells T (pre ++ (fetchCode T env readAddress 0 ++ post)))
        setInstSize := (t.code.writeP.past (bytes T pre)).past (bytes T (T.emitters.setReg T.a0 readAddress))
        fetches := t.fetches ++ [t.code.writeP.past (bytes T pre)] } := by
  simp only [instCode, Option.bind_eq_bind, Option.bind_eq_some_iff] at h
  obtain ⟨e₁, he₁, h⟩ := h
  obtain ⟨pre, _, hpre⟩ := adds_of_push he₁
  split at h
  · exact absurd h (by simp)
  obtain ⟨e₂, he₂, h⟩ := Option.bind_eq_some_iff.mp h
  obtain ⟨call, _, hcall⟩ := adds_of_fcall he₂
  obtain ⟨e₃, he₃, h⟩ := Option.bind_eq_some_iff.mp h
  obtain ⟨pop, _, hpop⟩ := adds_of_pop he₃
  obtain rfl := Option.some.inj h
  have hfirst : e₁.code = pre := hpre.code
  have hset : (emitSetReg T.emitters T.a0 readAddress e₁).code = pre ++ T.emitters.setReg T.a0 readAddress := by
    rw [emitSetReg, Emitted.emit, hfirst]
  have hall : e₃.code = pre ++ (fetchCode T env readAddress 0 ++ (call ++ pop)) := by
    rw [hpop.code, hcall.code, emitSetReg, Emitted.emit, Emitted.emit, hset]
    simp only [List.append_assoc, fetchCode]
    rfl
  refine ⟨pre, call ++ pop, ?_⟩
  rw [hall, hset, hfirst, past_past, bytes_append]

theorem keeps_dataAccess (h : dataAccess T env readAddress i size code = some code') : Keeps code code' := by
  have hreserved : Keeps code (if T.isCond i then code.append (List.replicate 4 none) else code) := by
    split
    · exact Chunks.keeps_append _ _
    · exact Chunks.Keeps.refl
  simp only [dataAccess, Option.bind_eq_bind, Option.bind_eq_some_iff] at h
  obtain ⟨e₁, -, addr, -, e₂, -, e₃, -, e₄, -, h⟩ := h
  have hemitted := hreserved.trans (Chunks.keeps_append _ (cells T e₄.code))
  split at h
  next hcond =>
    obtain ⟨skip, -, rfl⟩ := Option.map_eq_some_iff.mp h
    rw [if_pos hcond] at hemitted
    exact fun p xs hp => (hemitted p xs hp).patch_behind hp.before
  next hcond =>
    rw [if_neg hcond] at hemitted
    rw [← Option.some.inj h]
    exact hemitted

theorem keeps_translate (ws : List Written) (t : Thread ι) : Keeps t.code (translate ws t).code := by
  show Keeps t.code (ws.foldl Written.apply t.code)
  induction ws generalizing t with
  | nil => exact Chunks.Keeps.refl
  | cons a ws ih =>
      have hstep : Keeps t.code (Written.apply t.code a) := by
        cases a with
        | bytes n => exact Chunks.keeps_append _ _
        | chunk => exact Chunks.keeps_next
      exact hstep.trans (ih { t with code := Written.apply t.code a })

end Emission

section Invariant

variable {w : Nat} {ι I σ : Type} (T : Target w ι I) (M : Machine w ι σ) (env : Env w)

/-- The scan of a block after some groups of instructions, whose fetches have their sizes, and a part of the
next one, whose fetch has a placeholder. What the code held before the block is where it was. -/
structure Going (old : Chunks (Cell ι)) (address : BitVec w) (groups : List (List I)) (current : List I)
    (init : List Place) (last : Place) (t : Thread ι) : Prop where
  old : ∀ p xs, old.Holds p xs → t.code.Holds p xs ∧ (xs ≠ [] → Before p xs.length last)
  fetches : t.fetches = init ++ [last]
  settled : List.Forall₂
    (fun p range => Fetch T M env t.code p range ∧ Before p (bytes T (fetchCode T env range.1 range.2)) last)
    init (ranges T address groups)
  pending : t.code.Holds last (cells T (fetchCode T env (address + BitVec.ofNat w (len T groups.flatten)) 0))
  place : t.setInstSize =
    last.past (bytes T (T.emitters.setReg T.a0 (address + BitVec.ofNat w (len T groups.flatten))))
  counted : t.fragmentSize = len T current
  small : t.fragmentSize ≤ 0x7FFF

/-- The instructions of a block that have been seen are accounted for. -/
def Accounts (old : Chunks (Cell ι)) (address : BitVec w) (seen : List I) (t : Thread ι) : Prop :=
  ∃ groups current init last, groups.flatten ++ current = seen ∧ Going T M env old address groups current init last t

variable {T M env} {address readAddress : BitVec w} {groups : List (List I)} {current seen : List I} {init : List Place}
  {last : Place} {t t' : Thread ι} {i : I} {old code : Chunks (Cell ι)}

theorem Fetch.keeps {p : Place} {range : BitVec w × Nat} (h : Fetch T M env old p range) (hkeeps : Keeps old code) :
    Fetch T M env code p range :=
  ⟨hkeeps _ _ h.held, h.passes, h.fits, h.patch⟩

theorem Going.keeps (h : Going T M env old address groups current init last t) (hkeeps : Keeps t.code code) :
    Going T M env old address groups current init last { t with code := code } where
  old p xs hp := ⟨hkeeps p xs (h.old p xs hp).1, (h.old p xs hp).2⟩
  fetches := h.fetches
  settled := h.settled.imp fun _ _ hp => ⟨hp.1.keeps hkeeps, hp.2⟩
  pending := hkeeps _ _ h.pending
  place := h.place
  counted := h.counted
  small := h.small

theorem Accounts.keeps (h : Accounts T M env old address seen t) (hkeeps : Keeps t.code code) :
    Accounts T M env old address seen { t with code := code } := by
  obtain ⟨groups, current, init, last, hseen, hgoing⟩ := h
  exact ⟨groups, current, init, last, hseen, hgoing.keeps hkeeps⟩

theorem holds_patched (hlaw : Lawful T M) {n : Nat} (hn : n ≤ 0x7FFF)
    (h : code.Holds last (cells T (fetchCode T env readAddress 0))) :
    (code.patch (last.past (bytes T (T.emitters.setReg T.a0 readAddress)))
      (cells T (T.instSize (BitVec.ofNat w (n <<< 1))))).Holds last (cells T (fetchCode T env readAddress n)) := by
  have hlen : (cells T (T.instSize (BitVec.ofNat w (0 <<< 1)))).length =
      (cells T (T.instSize (BitVec.ofNat w (n <<< 1)))).length := by
    rw [length_cells, length_cells, hlaw.patch n hn]
    rfl
  rw [fetchCode, cells_append, cells_append, Chunks.holds_append_iff, Chunks.holds_append_iff, length_cells] at h ⊢
  obtain ⟨haddress, hsize, hbuf⟩ := h
  refine ⟨haddress.patch (Or.inl ?_), Chunks.holds_patch_self hsize hlen, ?_⟩
  · rw [length_cells]
    exact before_past (le_refl _)
  · rw [← hlen]
    exact hbuf.patch (Or.inr (before_past hlen.ge))

theorem Going.sealed (hlaw : Lawful T M) (h : Going T M env old address groups current init last t) :
    List.Forall₂ (Fetch T M env (setInstSize T t).code) t.fetches (ranges T address (groups ++ [current])) := by
  rw [h.fetches, ranges_append]
  refine List.rel_append ?_ (List.Forall₂.cons ?_ List.Forall₂.nil)
  · refine h.settled.imp fun p range hp => ⟨hp.1.held.patch (Or.inl ?_), hp.1.passes, hp.1.fits, hp.1.patch⟩
    rw [length_cells, h.place]
    exact hp.2.past _
  · have hsmall := h.small
    have hwide := hlaw.wide
    refine ⟨?_, hlaw.passes _ (h.counted ▸ hsmall), ?_, hlaw.patch _ (h.counted ▸ hsmall)⟩
    · rw [setInstSize, h.place, h.counted]
      exact holds_patched hlaw (h.counted ▸ hsmall) h.pending
    · dsimp only
      rw [← h.counted, Nat.shiftLeft_eq]
      omega

theorem fetchCode_ne_nil (hlaw : Lawful T M) {n : Nat} (hn : bytes T (T.instSize (BitVec.ofNat w (n <<< 1))) =
    bytes T (T.instSize 0)) : cells T (fetchCode T env readAddress n) ≠ [] := by
  have hpos := hlaw.placeholder
  rw [← List.length_pos_iff, length_cells, fetchCode, bytes_append, bytes_append]
  omega

theorem holds_middle {pre is post : List ι} :
    (code.append (cells T (pre ++ (is ++ post)))).Holds (code.writeP.past (bytes T pre)) (cells T is) := by
  have hall := Chunks.holds_append_self code (cells T (pre ++ (is ++ post)))
  generalize code.append (cells T (pre ++ (is ++ post))) = code' at hall ⊢
  rw [cells_append, cells_append, Chunks.holds_append_iff, Chunks.holds_append_iff, length_cells] at hall
  exact hall.2.1

theorem Going.keeps_old (h : Going T M env old address groups current init last t) :
    Keeps old (setInstSize T t).code := by
  intro p xs hp
  obtain ⟨hheld, hbefore⟩ := h.old p xs hp
  refine hheld.patch_behind fun hne => ?_
  rw [h.place]
  exact (hbefore hne).past _

theorem going_instCode (hlaw : Lawful T M) (hold : Keeps old t.code)
    (hfetches : List.Forall₂ (Fetch T M env t.code) t.fetches (ranges T address groups))
    (haddress : readAddress = address + BitVec.ofNat w (len T groups.flatten))
    (h : instCode T env readAddress t = some t') :
    ∃ last, Going T M env old address groups [] t.fetches last { t' with fragmentSize := 0 } := by
  obtain ⟨pre, post, rfl⟩ := instCode_spec h
  subst haddress
  refine ⟨t.code.writeP.past (bytes T pre),
    fun p xs hp => ⟨Chunks.keeps_append _ _ _ _ (hold p xs hp), fun hne => ?_⟩, rfl,
    hfetches.imp fun p range hp => ?_, ?_, rfl, rfl, Nat.zero_le _⟩
  · exact ((hold p xs hp).before hne).past _
  · refine ⟨hp.keeps (Chunks.keeps_append _ _), ?_⟩
    rw [← length_cells]
    exact (hp.held.before (fetchCode_ne_nil hlaw hp.patch)).past _
  · exact holds_middle

theorem Going.count (hlaw : Lawful T M) (h : Going T M env old address groups current init last t)
    (hroom : t.fragmentSize ≤ 0x7FFF - 4) :
    Going T M env old address groups (current ++ [i]) init last
      { t with fragmentSize := t.fragmentSize + T.getInstLen i } where
  old := h.old
  fetches := h.fetches
  settled := h.settled
  pending := h.pending
  place := h.place
  counted := by rw [h.counted, len_append]; simp [len]
  small := by
    have hlen := hlaw.len_le i
    dsimp only
    omega

theorem Accounts.account (hlaw : Lawful T M) (h : Accounts T M env old address seen t)
    (haddress : readAddress = address + BitVec.ofNat w (len T seen)) (hrun : account T env readAddress i t = some t') :
    Accounts T M env old address (seen ++ [i]) t' := by
  obtain ⟨groups, current, init, last, rfl, hgoing⟩ := h
  obtain ⟨t₁, ht₁, rfl⟩ := Option.map_eq_some_iff.mp hrun
  split at ht₁
  next =>
    obtain ⟨t₂, ht₂, rfl⟩ := Option.map_eq_some_iff.mp ht₁
    have hflat : (groups ++ [current]).flatten = groups.flatten ++ current := by simp
    obtain ⟨last', hgoing'⟩ := going_instCode hlaw hgoing.keeps_old (hgoing.sealed hlaw) (hflat ▸ haddress) ht₂
    refine ⟨groups ++ [current], [i], t.fetches, last', by rw [hflat], ?_⟩
    exact hgoing'.count hlaw (Nat.zero_le _)
  next hroom =>
    obtain rfl := Option.some.inj ht₁
    exact ⟨groups, current ++ [i], init, last, (List.append_assoc _ _ _).symm, hgoing.count hlaw (by omega)⟩

theorem Accounts.preInst (hlaw : Lawful T M) (hsized : Sized T i) (h : Accounts T M env old address seen t)
    (haddress : readAddress = address + BitVec.ofNat w (len T seen))
    (hrun : preInstHandler T env readAddress i t = some t') : Accounts T M env old address (seen ++ [i]) t' := by
  rw [preInstHandler] at hrun
  split at hrun
  next haccess =>
    obtain ⟨size, hsize, hrun⟩ := Option.bind_eq_some_iff.mp hrun
    have hcounts : ¬(T.isRvvMem i = false ∧ size ≤ 0) := by
      rintro ⟨hscalar, hle⟩
      rcases hsized haccess with hrvv | hpos
      · exact absurd (hrvv.symm.trans hscalar) (by decide)
      · exact absurd (hpos size hsize) (by omega)
    rw [if_neg hcounts] at hrun
    obtain ⟨code, hcode, hrun⟩ := Option.bind_eq_some_iff.mp hrun
    exact (h.keeps (keeps_dataAccess hcode)).account hlaw haddress hrun
  next => exact h.account hlaw haddress hrun

theorem Accounts.scan (hlaw : Lawful T M) {block : List (I × List Written)}
    (hsized : ∀ i ∈ block.map Prod.fst, Sized T i) (h : Accounts T M env old address seen t)
    (haddress : readAddress = address + BitVec.ofNat w (len T seen))
    (hrun : scanInsts T env true readAddress block t = some t') :
    Accounts T M env old address (seen ++ block.map Prod.fst) t' := by
  induction block generalizing seen readAddress t with
  | nil =>
      obtain rfl := Option.some.inj hrun
      rwa [List.map_nil, List.append_nil]
  | cons b block ih =>
      obtain ⟨i, ws⟩ := b
      obtain ⟨u, hu, hrest⟩ := Option.bind_eq_some_iff.mp hrun
      have hfirst := h.preInst hlaw (hsized i List.mem_cons_self) haddress hu
      have hnext : readAddress + BitVec.ofNat w (T.getInstLen i) = address + BitVec.ofNat w (len T (seen ++ [i])) := by
        rw [haddress, add_assoc, ← BitVec.ofNat_add, len_append]
        simp [len]
      have hall := ih (fun j hj => hsized j (List.mem_cons_of_mem i hj)) (hfirst.keeps (keeps_translate ws u)) hnext
        hrest
      rwa [List.append_assoc] at hall

theorem Partitions.keeps {block : List I} {fetches : List Place} (h : Partitions T M env old address block fetches)
    (hkeeps : Keeps old code) : Partitions T M env code address block fetches := by
  obtain ⟨groups, hflat, hfetches⟩ := h
  exact ⟨groups, hflat, hfetches.imp fun _ _ hp => hp.keeps hkeeps⟩

theorem going_preBb (hlaw : Lawful T M) (hrun : preBbHandler T env address t = some t') :
    ∃ last, Going T M env t.code address [] [] [] last t' := by
  have haddress : address = address + BitVec.ofNat w (len T ([] : List (List I)).flatten) := (BitVec.add_zero _).symm
  have hnone : List.Forall₂ (Fetch T M env t.code) [] (ranges T address []) := List.Forall₂.nil
  obtain ⟨last, hgoing⟩ := going_instCode (t := { t with fragmentSize := 0, fetches := [] }) hlaw (fun _ _ h => h) hnone
    haddress hrun
  have hzero : { t' with fragmentSize := 0 } = t' := by
    obtain ⟨_, _, rfl⟩ := instCode_spec hrun
    rfl
  exact ⟨last, hzero ▸ hgoing⟩

/-- The fetches of a block, after the handler for its end, partition it, and the code before it is as it was. -/
theorem scan_partitions (hlaw : Lawful T M) {block : List (I × List Written)} {ws : List Written}
    (hback : T.callsBack (block.map Prod.fst) = true) (hsized : ∀ i ∈ block.map Prod.fst, Sized T i)
    (hrun : scanBlock T env address ws block t = some t') :
    Partitions T M env t'.code address (block.map Prod.fst) t'.fetches ∧ Keeps t.code t'.code := by
  obtain ⟨t₁, ht₁, hrun⟩ := Option.bind_eq_some_iff.mp hrun
  obtain ⟨t₂, ht₂, hrun⟩ := Option.bind_eq_some_iff.mp hrun
  obtain rfl := Option.some.inj hrun
  rw [hback] at ht₂
  obtain ⟨last, hstart⟩ := going_preBb hlaw ht₁
  have hbegun : Accounts T M env t.code address [] t₁ := ⟨[], [], [], last, rfl, hstart⟩
  obtain ⟨groups, current, init, last', hflat, hgoing⟩ :=
    (hbegun.keeps (keeps_translate ws t₁)).scan hlaw hsized (BitVec.add_zero _).symm ht₂
  exact ⟨⟨groups ++ [current], by simpa using hflat, hgoing.sealed hlaw⟩, hgoing.keeps_old⟩

/-- The fetches of the blocks of a fragment partition them when all have been scanned. -/
theorem fragment_partitions (hlaw : Lawful T M) {blocks : List (Block w I)} {fetches : List (List Place)}
    (hback : ∀ b ∈ blocks, T.callsBack (b.insts.map Prod.fst) = true)
    (hsized : ∀ b ∈ blocks, ∀ i ∈ b.insts.map Prod.fst, Sized T i)
    (hrun : scanFragment T env blocks t = some (t', fetches)) :
    List.Forall₂ (fun b ps => Partitions T M env t'.code b.address (b.insts.map Prod.fst) ps) blocks fetches ∧
      Keeps t.code t'.code := by
  induction blocks generalizing t fetches with
  | nil =>
      obtain ⟨rfl, rfl⟩ := Prod.mk.inj (Option.some.inj hrun)
      exact ⟨List.Forall₂.nil, Chunks.Keeps.refl⟩
  | cons b blocks ih =>
      obtain ⟨t₁, ht₁, hrest⟩ := Option.bind_eq_some_iff.mp hrun
      obtain ⟨⟨t₂, rest⟩, ht₂, heq⟩ := Option.map_eq_some_iff.mp hrest
      obtain ⟨rfl, rfl⟩ := Prod.mk.inj heq
      obtain ⟨hpartitions, hkeeps⟩ :=
        scan_partitions hlaw (hback b List.mem_cons_self) (hsized b List.mem_cons_self) ht₁
      obtain ⟨hall, hkeeps'⟩ := ih (fun c hc => hback c (List.mem_cons_of_mem b hc))
        (fun c hc => hsized c (List.mem_cons_of_mem b hc)) ht₂
      have hlater := (keeps_translate b.after t₁).trans hkeeps'
      exact ⟨List.Forall₂.cons (hpartitions.keeps hlater) hall, hkeeps.trans hlater⟩

theorem scanInsts_uncalled {block : List (I × List Written)}
    (hrun : scanInsts T env false readAddress block t = some t') :
    ∃ code, t' = { t with code := code } ∧ Keeps t.code code := by
  induction block generalizing readAddress t with
  | nil => exact ⟨t.code, (Option.some.inj hrun).symm, fun _ _ h => h⟩
  | cons b block ih =>
      obtain ⟨code, rfl, hkeeps⟩ := ih hrun
      exact ⟨code, rfl, (keeps_translate b.2 t).trans hkeeps⟩

/-- Without callbacks for the instructions the one fetch of a block is of no bytes. -/
theorem scan_uncounted (hlaw : Lawful T M) {block : List (I × List Written)} {ws : List Written}
    (hback : T.callsBack (block.map Prod.fst) = false) (hrun : scanBlock T env address ws block t = some t') :
    ∃ p, t'.fetches = [p] ∧ Fetch T M env t'.code p (address, 0) := by
  obtain ⟨t₁, ht₁, hrun⟩ := Option.bind_eq_some_iff.mp hrun
  obtain ⟨t₂, ht₂, hrun⟩ := Option.bind_eq_some_iff.mp hrun
  obtain rfl := Option.some.inj hrun
  rw [hback] at ht₂
  obtain ⟨last, hstart⟩ := going_preBb hlaw ht₁
  obtain ⟨code, rfl, hkeeps⟩ := scanInsts_uncalled ht₂
  have hgoing := hstart.keeps ((keeps_translate ws t₁).trans hkeeps)
  have hsealed := hgoing.sealed hlaw
  rw [hgoing.fetches] at hsealed
  exact ⟨last, hgoing.fetches, (List.forall₂_cons.mp hsealed).1⟩

theorem Partitions.single {block : List I} {p : Place} (h : Partitions T M env code address block [p]) :
    Fetch T M env code p (address, len T block) := by
  obtain ⟨groups, rfl, hfetches⟩ := h
  match groups, hfetches with
  | [g], hfetches =>
      rw [List.flatten_singleton]
      exact (List.forall₂_cons.mp hfetches).1

theorem Fetch.unique {p : Place} {m n : Nat} (h : Fetch T M env code p (address, m))
    (h' : Fetch T M env code p (address, n)) :
    cells T (T.instSize (BitVec.ofNat w (m <<< 1))) = cells T (T.instSize (BitVec.ofNat w (n <<< 1))) := by
  have hm := h.held
  have hn := h'.held
  rw [fetchCode, cells_append, cells_append, Chunks.holds_append_iff, Chunks.holds_append_iff] at hm hn
  refine hm.2.1.unique hn.2.1 ?_
  rw [length_cells, length_cells]
  exact h.patch.trans h'.patch.symm

end Invariant

section Completion

variable {w : Nat} {ι I : Type} (T : Target w ι I) (env : Env w)

/-- The helpers can save the registers and call the function. -/
structure Emits : Prop where
  push : ∃ is, T.emitters.push T.saved = some is
  pop : ∃ is, T.emitters.pop T.saved = some is
  dataPush : ∃ is, T.emitters.push T.dataSaved = some is
  dataPop : ∃ is, T.emitters.pop T.dataSaved = some is
  call : ∀ p, ∃ r, T.emitters.branchLink p env.cachesimBufWrite = some r

/-- The helpers know the size of an access and can compute its address. -/
structure Served (i : I) : Prop where
  always : T.isCond i = false
  size : ∃ size, T.getLdStSize i = some size
  addr : ∀ readAddress count, ∃ r, T.calcLdStAddr readAddress count i = some r ∧ r.ret = 0
  info : T.isRvvMem i = true → ∃ is, T.rvvInfo i = some is

variable {T env} {t : Thread ι} {readAddress address : BitVec w} {i : I} {size : Int} {code : Chunks (Cell ι)}
  {e : Emitted w ι} {js : List ι} {regs : BitVec 32}

theorem call_some (h : Emits T env) (hpop : T.emitters.pop regs = some js)
    (hcount : e.pluginPushedRegCount = RegLists.countBits regs) :
    ∃ e', (emitFcall T.emitters env.cachesimBufWrite e).bind (emitPop T.emitters regs) = some e' := by
  obtain ⟨r, hr⟩ := h.call (e.writeP T.emitters)
  obtain ⟨e₁, he₁, hadds⟩ := emitFcall_some hr
  obtain ⟨e₂, he₂, -⟩ := emitPop_some (e := e₁) hpop (by rw [hadds.count, hcount]; omega)
  exact ⟨e₂, by rw [he₁, Option.bind_some, he₂]⟩

theorem instCode_some (h : Emits T env) (haddress : readAddress ≠ 0) :
    ∃ t', instCode T env readAddress t = some t' := by
  obtain ⟨is, his⟩ := h.push
  obtain ⟨js, hjs⟩ := h.pop
  obtain ⟨e₁, he₁, hadds⟩ := emitPush_some (e := ⟨env.address t.code.writeP, [], [], 0⟩) his
  have hcount := hadds.count
  rw [zero_add] at hcount
  obtain ⟨e₂, he₂⟩ := call_some (e := emitSetReg T.emitters T.a2 env.instTraceBuf
    ((emitSetReg T.emitters T.a0 readAddress e₁).emit (T.instSize 0))) h hjs hcount
  obtain ⟨e₃, he₃, he₂⟩ := Option.bind_eq_some_iff.mp he₂
  rw [← Option.isSome_iff_exists]
  simp only [instCode, Option.bind_eq_bind, he₁, Option.bind_some, if_neg haddress, he₃, he₂, Option.isSome_some]

theorem emitInfo_some (h : Served T i) (size : Int) (e : Emitted w ι) :
    ∃ e', emitInfo T i size e = some e' ∧ e'.pluginPushedRegCount = e.pluginPushedRegCount := by
  rw [emitInfo]
  split
  next hrvv =>
    obtain ⟨is, his⟩ := h.info hrvv
    exact ⟨e.emit is, by rw [his, Option.map_some], rfl⟩
  next => exact ⟨emitSetReg T.emitters T.a1 (info size (T.isStore i)) e, rfl, rfl⟩

theorem dataAccess_some (h : Emits T env) (hi : Served T i) :
    ∃ code', dataAccess T env readAddress i size code = some code' := by
  obtain ⟨is, his⟩ := h.dataPush
  obtain ⟨js, hjs⟩ := h.dataPop
  obtain ⟨e₁, he₁, hadds⟩ := emitPush_some (e := ⟨env.address code.writeP, [], [], 0⟩) his
  have hcount := hadds.count
  rw [zero_add] at hcount
  obtain ⟨r, hr, hret⟩ := hi.addr readAddress e₁.pluginPushedRegCount
  obtain ⟨e₂, he₂, hcount₂⟩ := emitInfo_some hi size (e₁.emit r.code)
  obtain ⟨e₃, he₃⟩ := call_some (e := emitSetReg T.emitters T.a2 env.dataTraceBuf e₂) h hjs (hcount₂.trans hcount)
  obtain ⟨e₄, he₄, he₃⟩ := Option.bind_eq_some_iff.mp he₃
  refine ⟨code.append (cells T e₃.code), ?_⟩
  simp only [dataAccess, asserted, hi.always, Bool.false_eq_true, if_false, Option.bind_eq_bind, he₁, Option.bind_some,
    hr, hret, if_true, he₂, he₄, he₃]

theorem account_some (h : Emits T env) (haddress : readAddress ≠ 0) :
    ∃ t', account T env readAddress i t = some t' := by
  rw [account]
  split
  · obtain ⟨t₁, ht₁⟩ := instCode_some (t := setInstSize T t) h haddress
    exact ⟨_, by rw [ht₁, Option.map_some, Option.map_some]⟩
  · exact ⟨_, rfl⟩

theorem preInst_some (h : Emits T env) (haddress : readAddress ≠ 0)
    (hi : T.isLoad i = true ∨ T.isStore i = true → Served T i) :
    ∃ t', preInstHandler T env readAddress i t = some t' := by
  rw [preInstHandler]
  split
  next haccess =>
    obtain ⟨size, hsize⟩ := (hi haccess).size
    rw [hsize]
    by_cases hskip : T.isRvvMem i = false ∧ size ≤ 0
    · exact ⟨t, if_pos hskip⟩
    · obtain ⟨code, hcode⟩ : ∃ code, dataAccess T env readAddress i size t.code = some code :=
        dataAccess_some h (hi haccess)
      obtain ⟨t', ht'⟩ : ∃ t', account T env readAddress i { t with code := code } = some t' := account_some h haddress
      refine ⟨t', ?_⟩
      rw [Option.bind_eq_bind, Option.bind_some, if_neg hskip, hcode]
      exact ht'
  next => exact account_some h haddress

theorem scanInsts_some (h : Emits T env) (callsBack : Bool) {block : List (I × List Written)} (t : Thread ι)
    (hblock : ∀ i ∈ block.map Prod.fst, T.isLoad i = true ∨ T.isStore i = true → Served T i)
    (haddress : ∀ is, is <+: block.map Prod.fst → readAddress + BitVec.ofNat w (len T is) ≠ 0) :
    ∃ t', scanInsts T env callsBack readAddress block t = some t' := by
  induction block generalizing readAddress t with
  | nil => exact ⟨t, rfl⟩
  | cons b block ih =>
      obtain ⟨i, ws⟩ := b
      have hhere : readAddress ≠ 0 := by
        have hfirst := haddress [] (List.nil_prefix)
        rwa [len, List.map_nil, List.sum_nil, BitVec.add_zero] at hfirst
      have hstep : ∃ u, (if callsBack then preInstHandler T env readAddress i t else some t) = some u := by
        cases callsBack with
        | true => exact preInst_some h hhere (hblock i List.mem_cons_self)
        | false => exact ⟨t, rfl⟩
      obtain ⟨u, hu⟩ := hstep
      have hrest : ∀ is, is <+: block.map Prod.fst →
          readAddress + BitVec.ofNat w (T.getInstLen i) + BitVec.ofNat w (len T is) ≠ 0 := by
        intro is his
        have hnext := haddress (i :: is) (List.cons_prefix_cons.mpr ⟨rfl, his⟩)
        rwa [len, List.map_cons, List.sum_cons, BitVec.ofNat_add, ← add_assoc] at hnext
      obtain ⟨t', ht'⟩ := ih (translate ws u) (fun j hj => hblock j (List.mem_cons_of_mem i hj)) hrest
      exact ⟨t', by rw [scanInsts, hu, Option.bind_some, ht']⟩

/-- No assertion stops the scan of a block whose accesses are served, that is neither at null nor reaches it. -/
theorem scan_completes (h : Emits T env) {block : List (I × List Written)} {ws : List Written}
    (hblock : ∀ i ∈ block.map Prod.fst, T.isLoad i = true ∨ T.isStore i = true → Served T i) (hnull : address ≠ 0)
    (hend : address.toNat + len T (block.map Prod.fst) < 2 ^ w) :
    ∃ t', scanBlock T env address ws block t = some t' := by
  have hpos : address.toNat ≠ 0 := fun hzero => hnull (BitVec.eq_of_toNat_eq hzero)
  have haddress : ∀ is, is <+: block.map Prod.fst → address + BitVec.ofNat w (len T is) ≠ 0 := by
    rintro is ⟨js, hjs⟩ hzero
    rw [← hjs, len_append] at hend
    have hnat := congrArg BitVec.toNat hzero
    rw [BitVec.toNat_add, BitVec.toNat_ofNat, Nat.add_mod_mod, Nat.mod_eq_of_lt (by omega)] at hnat
    exact hpos (by rw [show (0 : BitVec w).toNat = 0 from BitVec.toNat_zero] at hnat; omega)
  obtain ⟨t₁, ht₁⟩ := instCode_some (t := { t with fragmentSize := 0, fetches := [] }) h hnull
  obtain ⟨t₂, ht₂⟩ := scanInsts_some h (T.callsBack (block.map Prod.fst)) (translate ws t₁) hblock haddress
  refine ⟨postBbHandler T t₂, ?_⟩
  rw [scanBlock, preBbHandler, ht₁, Option.bind_eq_bind, Option.bind_some, ht₂]
  rfl

end Completion

end Mambo.CachesimFetchRuns
