import Mambo.ElfStack

namespace Mambo.ElfStackRuns

open Bytes TwoEnded ElfStack
open PageMaps (alignLower)

variable {b : Nat} {args : Args b} {st st' : Stack} {top stackSpace : Nat} {mem : Memory}

section Operations

def ends (b : Nat) (st : Stack) : Ends := ⟨st.mem, st.stackStrings, st.stack + b * st.stackI⟩

def stringOp (b : Nat) (s : CString) : Op b := .data s.stored 0

/-- The value of an entry. The block of `AT_RANDOM` is placed one byte too high. -/
def valueOp (args : Args b) (e : AuxEntry b) : Op b :=
  match pointedTo args e with
  | some bytes => .data bytes (if e.aType.toNat = atRandom then 1 else 0)
  | none => .word (plainValue args e)

def entryOps (args : Args b) (e : AuxEntry b) : List (Op b) := [.word e.aType, valueOp args e]

def argOps (args : Args b) : List (Op b) := (args.filename :: args.argv).map (stringOp b)

def envOps (args : Args b) : List (Op b) := args.envp.map (stringOp b)

/-- Everything that is put on the stack, in order. -/
def ops (args : Args b) : List (Op b) :=
  .word (BitVec.ofNat (8 * b) (args.argv.length + 1)) :: argOps args ++ ([.word 0] ++ (envOps args ++ ([.word 0] ++
    (args.aux.flatMap (entryOps args) ++ [.word (BitVec.ofNat (8 * b) atNull), .word 0]))))

theorem length_stored (s : CString) : s.stored.length = strlen s + 1 := by
  rw [CString.stored, List.length_append, List.length_singleton, strlen]

theorem ends_stackPush (st : Stack) (v : Word b) : ends b (stackPush st v) = (Op.word v).exec (ends b st) := by
  rw [ends, stackPush, Op.exec, ends, Nat.mul_succ, Nat.add_assoc]

theorem ends_pushData (st : Stack) (bytes : List Byte) (above : Nat) :
    let place := st.stackStrings + above - bytes.length
    ends b { stackPush { st with mem := write st.mem place bytes } (BitVec.ofNat (8 * b) place) with
      stackStrings := st.stackStrings - bytes.length } = (Op.data bytes above : Op b).exec (ends b st) := by
  intro place
  rw [ends, stackPush, Op.exec, ends, Nat.mul_succ, Nat.add_assoc]

theorem ends_pushString (st : Stack) (s : CString) : ends b (pushString b st s) = (stringOp b s).exec (ends b st) := by
  have hdata := ends_pushData (b := b) st s.stored 0
  rw [stringOp, ← hdata, pushString, copyStringToStack, ← length_stored]
  rfl

theorem ends_pushStrings (ss : List CString) (st : Stack) :
    ends b (ss.foldl (pushString b) st) = exec (ss.map (stringOp b)) (ends b st) := by
  induction ss generalizing st with
  | nil => rfl
  | cons s ss ih =>
    rw [List.foldl_cons, ih, ends_pushString]
    rfl

theorem stack_pushStrings (ss : List CString) (st : Stack) : (ss.foldl (pushString b) st).stack = st.stack := by
  induction ss generalizing st with
  | nil => rfl
  | cons s ss ih =>
    rw [List.foldl_cons, ih]
    rfl

theorem copied_ne : ∀ n ∈ copied,
    n ≠ atRandom ∧ n ≠ atPlatform ∧ n ≠ atExecfn ∧ n ≠ atBase ∧ n ≠ atPhdr ∧ n ≠ atPhnum ∧ n ≠ atEntry := by decide

theorem valueOp_random {e : AuxEntry b} (h : e.aType.toNat = atRandom) :
    valueOp args e = .data (List.ofFn (args.block e.aVal)) 1 := by
  rw [valueOp, pointedTo, if_pos h]
  exact congrArg _ (if_pos h)

theorem valueOp_string {e : AuxEntry b} (h : e.aType.toNat = atPlatform ∨ e.aType.toNat = atExecfn) :
    valueOp args e = stringOp b (args.string e.aVal) := by
  have hne : e.aType.toNat ≠ atRandom := by
    rcases h with h | h <;> rw [h] <;> decide
  rw [valueOp, pointedTo, if_neg hne, if_pos h]
  exact congrArg _ (if_neg hne)

theorem valueOp_plain {e : AuxEntry b} (h : pointedTo args e = none) : valueOp args e = .word (plainValue args e) := by
  rw [valueOp, h]

theorem copyEntry_spec {e : AuxEntry b} (h : Handled e) (st : Stack) :
    ∃ st', copyEntry args st e = some st' ∧ ends b st' = exec (entryOps args e) (ends b st) ∧
      st'.stack = st.stack := by
  have hops : exec (entryOps args e) (ends b st) = (valueOp args e).exec (ends b (stackPush st e.aType)) := by
    rw [ends_stackPush]
    rfl
  rw [hops, copyEntry]
  dsimp only
  have hword : pointedTo args e = none → ∀ v, v = plainValue args e →
      ends b (stackPush (stackPush st e.aType) v) = (valueOp args e).exec (ends b (stackPush st e.aType)) := by
    rintro hnone v rfl
    rw [valueOp_plain hnone, ends_stackPush]
  by_cases hcopied : e.aType.toNat ∈ copied
  · obtain ⟨hrandom, hplatform, hexecfn, hbase, hphdr, hphnum, hentry⟩ := copied_ne _ hcopied
    rw [if_pos hcopied]
    refine ⟨_, rfl, hword ?_ _ ?_, rfl⟩
    · rw [pointedTo, if_neg hrandom, if_neg (not_or.mpr ⟨hplatform, hexecfn⟩)]
    · rw [plainValue, if_neg hbase, if_neg hphdr, if_neg hphnum, if_neg hentry]
  rw [if_neg hcopied]
  by_cases hrandom : e.aType.toNat = atRandom
  · rw [if_pos hrandom]
    have hdata := ends_pushData (b := b) (stackPush st e.aType) (List.ofFn (args.block e.aVal)) 1
    rw [List.length_ofFn] at hdata
    exact ⟨_, rfl, by rw [valueOp_random hrandom, ← hdata]; rfl, rfl⟩
  rw [if_neg hrandom]
  by_cases hstring : e.aType.toNat = atPlatform ∨ e.aType.toNat = atExecfn
  · rw [if_pos hstring]
    exact ⟨_, rfl, by rw [ends_pushString, valueOp_string hstring], rfl⟩
  rw [if_neg hstring]
  have hnone : pointedTo args e = none := by rw [pointedTo, if_neg hrandom, if_neg hstring]
  have hplain := hword hnone
  rw [plainValue] at hplain
  split_ifs at hplain ⊢ with hbase hphdr hphnum hentry
  · exact ⟨_, rfl, hplain _ rfl, rfl⟩
  · exact ⟨_, rfl, hplain _ rfl, rfl⟩
  · exact ⟨_, rfl, hplain _ rfl, rfl⟩
  · exact ⟨_, rfl, hplain _ rfl, rfl⟩
  · simp only [Handled, List.mem_append, List.mem_cons, List.not_mem_nil, or_false] at h
    rcases h with h | h | h | h | h | h | h | h
    exacts [absurd h hcopied, absurd h hrandom, absurd (.inl h) hstring, absurd (.inr h) hstring, absurd h hbase,
      absurd h hphdr, absurd h hphnum, absurd h hentry]

theorem copyAux_spec {es : List (AuxEntry b)} (h : ∀ e ∈ es, Handled e) (st : Stack) :
    ∃ st', copyAux args es st = some st' ∧ ends b st' = exec (es.flatMap (entryOps args)) (ends b st) ∧
      st'.stack = st.stack := by
  induction es generalizing st with
  | nil => exact ⟨st, rfl, rfl, rfl⟩
  | cons e es ih =>
    obtain ⟨st₁, hcopy, hends, hstack⟩ := copyEntry_spec (h e List.mem_cons_self) st
    obtain ⟨st', hrest, hends', hstack'⟩ := ih (fun e' he' => h e' (List.mem_cons_of_mem _ he')) st₁
    refine ⟨st', by rw [copyAux, hcopy]; exact hrest, ?_, hstack'.trans hstack⟩
    rw [hends', hends, List.flatMap_cons, exec_append]

/-- Everything is put on the stack, unless the ends have then passed each other. -/
theorem fillStack_spec (h : ∀ e ∈ args.aux, Handled e) (st : Stack) :
    ∃ st', ends b st' = exec (ops args) (ends b st) ∧ st'.stack = st.stack ∧
      fillStack args st = if (ends b st').next ≤ (ends b st').top then some st' else none := by
  let st₁ := (args.filename :: args.argv).foldl (pushString b)
    (stackPush st (BitVec.ofNat (8 * b) (args.argv.length + 1)))
  let st₂ := args.envp.foldl (pushString b) (stackPush st₁ (0 : Word b))
  obtain ⟨st₃, haux, hends, hstack⟩ := copyAux_spec h (stackPush st₂ (0 : Word b))
  refine ⟨stackPush (stackPush st₃ (BitVec.ofNat (8 * b) atNull)) (0 : Word b), ?_, ?_, ?_⟩
  · rw [ops, List.cons_append, exec_cons, exec_append, exec_append, exec_append, exec_append, exec_append,
      ends_stackPush, ends_stackPush, hends, ends_stackPush, ends_pushStrings, ends_stackPush, ends_pushStrings,
      ends_stackPush]
    rfl
  · refine hstack.trans ?_
    exact (stack_pushStrings args.envp _).trans (stack_pushStrings (args.filename :: args.argv) _)
  · rw [fillStack]
    change (copyAux args args.aux (stackPush st₂ (0 : Word b))).bind _ = _
    rw [haux]
    rfl

end Operations

section Image

theorem words_strings (ss : List CString) (top : Nat) : (words (ss.map (stringOp b)) top).length = ss.length := by
  rw [length_words, List.length_map]

theorem total_strings (ss : List CString) : total (ss.map (stringOp b)) = (ss.map fun s => strlen s + 1).sum := by
  rw [total, List.map_map]
  congr 1
  exact List.map_congr_left fun s _ => length_stored s

theorem pieces_strings (ss : List CString) (htop : top < 2 ^ (8 * b)) :
    pieces (ss.map (stringOp b)) top = stringPieces (words (ss.map (stringOp b)) top) ss := by
  induction ss generalizing top with
  | nil => rfl
  | cons s ss ih =>
    rw [List.map_cons, stringOp, pieces, words, stringPieces, List.zipWith_cons_cons, Op.stores, Op.length,
      BitVec.toNat_ofNat, Nat.mod_eq_of_lt (by omega)]
    exact congrArg _ (ih (by omega))

theorem words_entries (es : List (AuxEntry b)) (top : Nat) :
    words (es.flatMap (entryOps args)) top =
      (List.zipWith (fun e v => [e.aType, v]) es (words (es.map (valueOp args)) top)).flatten := by
  induction es generalizing top with
  | nil => rfl
  | cons e es ih =>
    rw [List.flatMap_cons, entryOps, List.cons_append, List.cons_append, List.nil_append, words, words, ih]
    rfl

theorem pointedTo_ne_nil {e : AuxEntry b} {bytes : List Byte} (h : pointedTo args e = some bytes) : bytes ≠ [] := by
  rw [pointedTo] at h
  split_ifs at h
  · obtain rfl := Option.some.inj h
    exact List.ne_nil_of_length_pos (by rw [List.length_ofFn]; decide)
  · obtain rfl := Option.some.inj h
    exact List.ne_nil_of_length_pos (by rw [length_stored]; omega)

theorem pieces_entries (es : List (AuxEntry b)) (htop : top < 2 ^ (8 * b)) :
    pieces (es.flatMap (entryOps args)) top = auxPieces args es (words (es.map (valueOp args)) top) := by
  induction es generalizing top with
  | nil => rfl
  | cons e es ih =>
    have hrest : pieces (es.flatMap (entryOps args)) (top - (valueOp args e).length) = _ := ih (by omega)
    rw [List.flatMap_cons, entryOps, List.cons_append, List.cons_append, List.nil_append, pieces, List.map_cons, words,
      auxPieces, List.zip_cons_cons, List.filterMap_cons]
    cases hdata : pointedTo args e with
    | none =>
      rw [valueOp_plain hdata, Op.length] at hrest
      rw [valueOp_plain hdata, pieces, Op.length]
      exact hrest
    | some bytes =>
      have hlen := List.length_pos_iff.mpr (pointedTo_ne_nil hdata)
      have hvalue : valueOp args e = .data bytes (if e.aType.toNat = atRandom then 1 else 0) := by
        rw [valueOp, hdata]
      rw [hvalue, Op.length] at hrest
      have hplace : top + (if e.aType.toNat = atRandom then 1 else 0) - bytes.length < 2 ^ (8 * b) := by
        split_ifs <;> omega
      rw [hvalue, pieces, Op.stores, Op.length, hrest]
      dsimp only [Option.map_some]
      rw [BitVec.toNat_ofNat, Nat.mod_eq_of_lt hplace]
      rfl

/-- The pointers to the arguments, to the environment, and the values of the entries. -/
def argPointers (args : Args b) (top : Nat) : List (Word b) := words (argOps args) top

def envPointers (args : Args b) (top : Nat) : List (Word b) := words (envOps args) (top - total (argOps args))

def auxValues (args : Args b) (top : Nat) : List (Word b) :=
  words (args.aux.map (valueOp args)) (top - total (argOps args) - total (envOps args))

theorem words_ops (args : Args b) (top : Nat) :
    words (ops args) top = imageWords args (argPointers args top) (envPointers args top) (auxValues args top) := by
  have hzero : total [(.word 0 : Op b)] = 0 := rfl
  rw [ops, List.cons_append, words, words_append, words_append, words_append, words_append, words_append, words_entries,
    hzero]
  rfl

theorem pieces_ops (args : Args b) (htop : top < 2 ^ (8 * b)) :
    pieces (ops args) top = imagePieces args (argPointers args top) (envPointers args top) (auxValues args top) := by
  have hzero : total [(.word 0 : Op b)] = 0 := rfl
  have hword : ∀ t, pieces [(.word 0 : Op b)] t = [] := fun _ => rfl
  have hlast : ∀ t, pieces [.word (BitVec.ofNat (8 * b) atNull), .word 0] t = [] := fun _ => rfl
  rw [ops, List.cons_append, pieces, pieces_append, pieces_append, pieces_append, pieces_append, pieces_append, hzero,
    hword, hword, hlast, Nat.sub_zero, pieces_entries _ (by omega), envOps, pieces_strings _ (by omega), argOps,
    pieces_strings _ htop, List.nil_append, List.nil_append, List.append_nil]
  rfl

end Image

section Sizes

def NoRandom (args : Args b) : Prop := ∀ e ∈ args.aux, e.aType.toNat ≠ atRandom

theorem plain_string (s : CString) : (stringOp b s).Plain :=
  ⟨rfl, List.ne_nil_of_length_pos (by rw [length_stored]; omega)⟩

theorem plain_value {e : AuxEntry b} (h : e.aType.toNat ≠ atRandom) : (valueOp args e).Plain := by
  rw [valueOp]
  split
  · rename_i bytes hdata
    exact ⟨if_neg h, pointedTo_ne_nil hdata⟩
  · trivial

theorem plain_entries {es : List (AuxEntry b)} (h : ∀ e ∈ es, e.aType.toNat ≠ atRandom) :
    ∀ op ∈ es.flatMap (entryOps args), op.Plain := by
  intro op hop
  obtain ⟨e, he, hmem⟩ := List.mem_flatMap.mp hop
  rcases List.mem_cons.mp hmem with rfl | hmem
  · trivial
  · rw [List.mem_singleton.mp hmem]
    exact plain_value (h e he)

theorem plain_strings (ss : List CString) : ∀ op ∈ ss.map (stringOp b), op.Plain := by
  intro op hop
  obtain ⟨s, -, rfl⟩ := List.mem_map.mp hop
  exact plain_string s

def frontOps (args : Args b) : List (Op b) :=
  .word (BitVec.ofNat (8 * b) (args.argv.length + 1)) :: argOps args ++ ([.word 0] ++ (envOps args ++ [.word 0]))

theorem ops_eq (args : Args b) : ops args = frontOps args ++ (args.aux.flatMap (entryOps args) ++
    [.word (BitVec.ofNat (8 * b) atNull), .word 0]) := by
  simp only [ops, frontOps, List.append_assoc, List.cons_append, List.nil_append]

theorem plain_front (args : Args b) : ∀ op ∈ frontOps args, op.Plain := by
  intro op hop
  simp only [frontOps, List.cons_append, List.mem_cons, List.mem_append, List.nil_append, List.not_mem_nil,
    or_false] at hop
  rcases hop with rfl | hop | rfl | hop | rfl
  · trivial
  · exact plain_strings _ op hop
  · trivial
  · exact plain_strings _ op hop
  · trivial

theorem plain_ops (h : NoRandom args) : ∀ op ∈ ops args, op.Plain := by
  intro op hop
  rw [ops_eq, List.mem_append, List.mem_append] at hop
  rcases hop with hop | hop | hop
  · exact plain_front args op hop
  · exact plain_entries h op hop
  · rcases List.mem_cons.mp hop with rfl | hop
    · trivial
    · rw [List.mem_singleton.mp hop]
      trivial

theorem total_front (args : Args b) : total (frontOps args) = total (argOps args) + total (envOps args) := by
  rw [frontOps, List.cons_append, total_cons, total_append, total_append, total_append, Op.length, Nat.zero_add]
  have hzero : total [(.word 0 : Op b)] = 0 := rfl
  omega

theorem length_value (args : Args b) {e : AuxEntry b} (h : e.aType.toNat ≠ atRandom) :
    (valueOp args e).length + 2 * b = auxDataSize args e := by
  rw [auxDataSize]
  split_ifs with hstring
  · rw [valueOp_string hstring, stringOp, Op.length, length_stored]
  · rw [valueOp_plain (by rw [pointedTo, if_neg h, if_neg hstring]), Op.length]

theorem entries_size (args : Args b) {es : List (AuxEntry b)} (h : ∀ e ∈ es, e.aType.toNat ≠ atRandom) :
    total (es.flatMap (entryOps args)) + b * (es.flatMap (entryOps args)).length = (es.map (auxDataSize args)).sum := by
  induction es with
  | nil => rfl
  | cons e es ih =>
    have hvalue := length_value args (h e List.mem_cons_self)
    have hrest := ih fun e' he' => h e' (List.mem_cons_of_mem _ he')
    rw [List.flatMap_cons, total_append, List.length_append, List.map_cons, List.sum_cons, ← hvalue, ← hrest, entryOps,
      total_cons, total_cons, Op.length, List.length_cons, List.length_singleton, Nat.mul_add]
    have hnil : total ([] : List (Op b)) = 0 := rfl
    omega

theorem envs_size (ss : List CString) :
    total (ss.map (stringOp b)) + b * ss.length = (ss.map fun s => b + strlen s + 1).sum := by
  induction ss with
  | nil => rfl
  | cons s ss ih =>
    rw [List.map_cons, total_cons, List.map_cons, List.sum_cons, ← ih, List.length_cons, Nat.mul_succ, stringOp,
      Op.length, length_stored]
    omega

theorem length_ops (args : Args b) : (ops args).length =
    args.argv.length + (args.envp.length + ((args.aux.flatMap (entryOps args)).length + 6)) := by
  rw [ops_eq, frontOps, argOps, envOps]
  simp only [List.length_append, List.length_cons, List.length_map, List.length_nil]
  omega

theorem ops_size (h : NoRandom args) : total (ops args) + b * (ops args).length + 16 = findStackDataSize args := by
  have henv := envs_size (b := b) args.envp
  have haux := entries_size args h
  have hargs : total (argOps args) = strlen args.filename + 1 + (args.argv.map fun s => strlen s + 1).sum := by
    rw [argOps, total_strings, List.map_cons, List.sum_cons]
  have htotal : total (ops args) =
      total (argOps args) + total (envOps args) + total (args.aux.flatMap (entryOps args)) := by
    rw [ops_eq, total_append, total_append, total_front]
    rfl
  rw [envOps, hargs] at htotal
  rw [findStackDataSize, ← henv, ← haux, htotal, length_ops, Nat.mul_add, Nat.mul_add, Nat.mul_add, Nat.add_mul,
    Nat.mul_comm args.argv.length b]
  omega

end Sizes

section Main

theorem length_imageWords {av ev xv : List (Word b)} (hargc : av.length = args.argv.length + 1)
    (henvc : ev.length = args.envp.length) (hauxc : xv.length = args.aux.length) :
    (imageWords args av ev xv).length = (ops args).length := by
  have hpairs : ∀ (es : List (AuxEntry b)) (us : List (Word b)), us.length = es.length →
      (List.zipWith (fun e v => [e.aType, v]) es us).flatten.length = (es.flatMap (entryOps args)).length := by
    intro es
    induction es with
    | nil => exact fun us _ => rfl
    | cons e es ih =>
      rintro (_ | ⟨u, us⟩) hus
      · exact nomatch hus
      · rw [List.zipWith_cons_cons, List.flatten_cons, List.length_append, ih us (Nat.succ.inj hus), List.flatMap_cons,
          List.length_append]
        rfl
  rw [length_ops, imageWords, ← hpairs args.aux xv hauxc]
  simp only [List.length_cons, List.length_append, hargc, henvc, List.length_nil]
  omega

theorem imageWords_inj {av ev xv av' ev' xv' : List (Word b)} (hav : av.length = av'.length)
    (hev : ev.length = ev'.length) (hxv : xv.length = args.aux.length) (hxv' : xv'.length = args.aux.length)
    (h : imageWords args av ev xv = imageWords args av' ev' xv') : av = av' ∧ ev = ev' ∧ xv = xv' := by
  have hentries : ∀ (es : List (AuxEntry b)) (us vs : List (Word b)), us.length = es.length → vs.length = es.length →
      (List.zipWith (fun e v => [e.aType, v]) es us).flatten = (List.zipWith (fun e v => [e.aType, v]) es vs).flatten →
        us = vs := by
    intro es
    induction es with
    | nil =>
      intro us vs hus hvs _
      rw [List.length_eq_zero_iff.mp hus, List.length_eq_zero_iff.mp hvs]
    | cons e es ih =>
      rintro (_ | ⟨u, us⟩) (_ | ⟨v, vs⟩) hus hvs heq
      · rfl
      · exact nomatch hus
      · exact nomatch hvs
      · simp only [List.zipWith_cons_cons, List.flatten_cons, List.cons_append, List.nil_append, List.cons.injEq,
          true_and] at heq
        rw [heq.1, ih us vs (Nat.succ.inj hus) (Nat.succ.inj hvs) heq.2]
  obtain ⟨rfl, hrest⟩ := List.append_inj (List.cons.inj h).2 hav
  obtain ⟨rfl, hrest'⟩ := List.append_inj (List.append_inj hrest rfl).2 hev
  have hlast := List.append_cancel_right (List.append_inj hrest' rfl).2
  exact ⟨rfl, rfl, hentries _ _ _ hxv hxv' hlast⟩

theorem pointer_ne_zero {ss : List CString} (htop : top < 2 ^ (8 * b)) (hroom : 0 < top - total (ss.map (stringOp b))) :
    ∀ p ∈ words (ss.map (stringOp b)) top, p ≠ 0 := by
  induction ss generalizing top with
  | nil => exact fun p hp => nomatch hp
  | cons s ss ih =>
    intro p hp
    rw [List.map_cons, total_cons] at hroom
    rcases List.mem_cons.mp hp with rfl | hp
    · intro hzero
      have hnat := congrArg BitVec.toNat hzero
      rw [stringOp, Op.length] at hroom
      rw [stringOp, Op.stores, BitVec.toNat_ofNat, Nat.mod_eq_of_lt (by omega)] at hnat
      change _ = 0 % _ at hnat
      rw [Nat.zero_mod] at hnat
      omega
    · exact ih (by omega) (by omega) p hp

theorem values_plain (es : List (AuxEntry b)) (top : Nat) :
    ∀ r ∈ es.zip (words (es.map (valueOp args)) top), pointedTo args r.1 = none → r.2 = plainValue args r.1 := by
  induction es generalizing top with
  | nil => exact fun r hr => nomatch hr
  | cons e es ih =>
    intro r hr hnone
    rcases List.mem_cons.mp hr with rfl | hr
    · dsimp only at hnone ⊢
      rw [valueOp_plain hnone]
      rfl
    · exact ih _ r hr hnone

/-- On a stack with room for everything that was counted, everything is read back. -/
theorem readsBack_of_noRandom {e : Ends} (htop : e.top < 2 ^ (8 * b)) (hb : 0 < b) (hnone : NoRandom args)
    (hfits : Fits (ops args) e) :
    ReadsBack args (exec (ops args) e).mem e.next (argPointers args e.top) (envPointers args e.top)
      (auxValues args e.top) := by
  have hplain := plain_ops hnone
  have hargc : (argPointers args e.top).length = args.argv.length + 1 := words_strings _ _
  have henvc : (envPointers args e.top).length = args.envp.length := words_strings _ _
  have hauxc : (auxValues args e.top).length = args.aux.length := by
    rw [auxValues, length_words, List.length_map]
  have hlen := length_imageWords hargc henvc hauxc
  have htotal : total (argOps args) + total (envOps args) ≤ total (ops args) := by
    rw [ops_eq, total_append, total_front]
    exact Nat.le_add_right _ _
  have hpos : 0 < b * (ops args).length := Nat.mul_pos hb (Nat.succ_pos _)
  have hroom := hfits
  rw [Fits] at hroom
  refine ⟨hargc, henvc, hauxc, ?_, ?_, ?_, values_plain _ _, ?_, ?_⟩
  · rw [← words_ops]
    exact words_at hfits
  · intro p hp
    rcases List.mem_append.mp hp with hp | hp
    · refine pointer_ne_zero htop ?_ p hp
      rw [← argOps]
      omega
    · refine pointer_ne_zero (by omega) ?_ p hp
      rw [← envOps]
      omega
  · rw [← pieces_ops args htop]
    exact fun p hp => pieces_at hfits hplain hp
  · rw [← pieces_ops args htop]
    exact pieces_separate hplain (by omega)
  · rw [← pieces_ops args htop, hlen]
    intro p hp
    have hlow := (pieces_within hplain (by omega) hp).1
    omega

/-- With an entry that asks for the random bytes, their block overlaps the string before it. -/
theorem noRandom_of_readsBack {e : Ends} (htop : e.top < 2 ^ (8 * b)) (hfits : Fits (ops args) e)
    {av ev xv : List (Word b)} (h : ReadsBack args (exec (ops args) e).mem e.next av ev xv) : NoRandom args := by
  have hargc : (argPointers args e.top).length = args.argv.length + 1 := words_strings _ _
  have henvc : (envPointers args e.top).length = args.envp.length := words_strings _ _
  have hauxc : (auxValues args e.top).length = args.aux.length := by
    rw [auxValues, length_words, List.length_map]
  have hwords : WordsAt (exec (ops args) e).mem e.next
      (imageWords args (argPointers args e.top) (envPointers args e.top) (auxValues args e.top)) := by
    rw [← words_ops]
    exact words_at hfits
  have hsame := h.words.unique hwords
    ((length_imageWords h.argc h.envc h.auxc).trans (length_imageWords hargc henvc hauxc).symm)
  obtain ⟨rfl, rfl, rfl⟩ := imageWords_inj (h.argc.trans hargc.symm) (h.envc.trans henvc.symm) h.auxc hauxc hsame
  have hsep := h.separate
  rw [← pieces_ops args htop] at hsep
  by_contra hrandom
  obtain ⟨e₁, hfirst⟩ : ∃ e₁, args.aux.find? (fun e => e.aType.toNat = atRandom) = some e₁ := by
    rw [← Option.isSome_iff_exists, List.find?_isSome]
    simpa [NoRandom] using hrandom
  obtain ⟨htype, before, after, haux, hbefore⟩ := List.find?_eq_some_iff_append.mp hfirst
  have hplain : ∀ op ∈ frontOps args ++ (before.flatMap (entryOps args) ++ [.word e₁.aType]), op.Plain := by
    intro op hop
    rw [List.mem_append, List.mem_append, List.mem_singleton] at hop
    rcases hop with hop | hop | rfl
    · exact plain_front args op hop
    · exact plain_entries (fun e he => by simpa using hbefore e he) op hop
    · trivial
  have hsplit : ops args = frontOps args ++ (before.flatMap (entryOps args) ++ [.word e₁.aType]) ++
      .data (List.ofFn (args.block e₁.aVal)) 1 ::
        (after.flatMap (entryOps args) ++ [.word (BitVec.ofNat (8 * b) atNull), .word 0]) := by
    rw [ops_eq, haux, ← valueOp_random (of_decide_eq_true htype)]
    simp only [List.flatMap_append, List.flatMap_cons, entryOps, List.append_assoc, List.cons_append, List.nil_append]
  rw [hsplit] at hsep
  refine pieces_overlap hplain ?_ (List.ne_nil_of_length_pos (by rw [List.length_ofFn]; decide)) hsep
  rw [total_append, total_front, argOps, List.map_cons, total_cons, stringOp, Op.length, length_stored]
  omega

theorem word_pos (hmap : stackSpace + initialStackSize < 2 ^ (8 * b)) : 0 < b := by
  rcases Nat.eq_zero_or_pos b with rfl | hb
  · rw [Nat.mul_zero, Nat.pow_zero, Nat.lt_one_iff, Nat.add_eq_zero_iff] at hmap
    exact absurd hmap.2 (by decide)
  · exact hb

def entryEnds (args : Args b) (stackSpace : Nat) (mem : Memory) : Ends :=
  ⟨mem, stackSpace + initialStackSize, alignLower (stackSpace + initialStackSize - findStackDataSize args) 16⟩

theorem ends_start (mem : Memory) (top low : Nat) : ends b ⟨mem, top, low, 0⟩ = ⟨mem, top, low⟩ := by
  rw [ends, Nat.mul_zero, Nat.add_zero]

theorem elfRun_spec (hhandled : ∀ e ∈ args.aux, Handled e) (stackSpace : Nat) (mem : Memory) :
    ∃ st, ends b st = exec (ops args) (entryEnds args stackSpace mem) ∧ st.stack = (entryEnds args stackSpace mem).next ∧
      elfRun args stackSpace mem = if (ends b st).next ≤ (ends b st).top then some st else none := by
  have hspec := fillStack_spec hhandled ⟨mem, stackSpace + initialStackSize,
    alignLower (stackSpace + initialStackSize - findStackDataSize args) 16, 0⟩
  rw [ends_start] at hspec
  exact hspec

theorem elfRun_faithful (hhandled : ∀ e ∈ args.aux, Handled e) (hsize : findStackDataSize args < initialStackSize)
    (hpage : 16 ∣ stackSpace) (hmap : stackSpace + initialStackSize < 2 ^ (8 * b)) (mem : Memory)
    (hnone : NoRandom args) : ∃ st, elfRun args stackSpace mem = some st ∧ Faithful args stackSpace st := by
  obtain ⟨st, hends, hstack, hrun⟩ := elfRun_spec hhandled stackSpace mem
  have hcount := ops_size hnone
  have hlow : (entryEnds args stackSpace mem).next =
      (stackSpace + initialStackSize - findStackDataSize args) / 16 * 16 := rfl
  have htop : (entryEnds args stackSpace mem).top = stackSpace + initialStackSize := rfl
  have hfits : Fits (ops args) (entryEnds args stackSpace mem) := by
    rw [Fits, hlow, htop]
    omega
  have hreads := readsBack_of_noRandom (by rwa [htop]) (word_pos hmap) hnone hfits
  rw [← hends, ← hstack] at hreads
  refine ⟨st, ?_, ⟨_, _, _, hreads⟩, ?_, ?_⟩
  · rw [Fits] at hfits
    rw [hrun, if_pos]
    rw [hends, exec_next, exec_top]
    omega
  · rw [hstack, hlow]
    omega
  · rw [hstack, hlow]
    omega

theorem noRandom_of_faithful (hhandled : ∀ e ∈ args.aux, Handled e)
    (hmap : stackSpace + initialStackSize < 2 ^ (8 * b))
    (h : ∃ st, elfRun args stackSpace mem = some st ∧ Faithful args stackSpace st) : NoRandom args := by
  obtain ⟨st', hsome, ⟨av, ev, xv, hreads⟩, -⟩ := h
  obtain ⟨st, hends, hstack, hrun⟩ := elfRun_spec hhandled stackSpace mem
  rw [hrun] at hsome
  split_ifs at hsome with hpassed
  obtain rfl := Option.some.inj hsome
  rw [hends, exec_next, exec_top] at hpassed
  have hpos : 0 < b * (ops args).length := Nat.mul_pos (word_pos hmap) (Nat.succ_pos _)
  have hfits : Fits (ops args) (entryEnds args stackSpace mem) := by
    rw [Fits]
    omega
  have hmem : st.mem = (exec (ops args) (entryEnds args stackSpace mem)).mem := by
    rw [← hends]
    rfl
  rw [hstack, hmem] at hreads
  exact noRandom_of_readsBack hmap hfits hreads

/-- The program is entered on a stack as the ABI describes it exactly if the auxiliary vector
does not ask for the random bytes. -/
theorem elfRun_faithful_iff (hhandled : ∀ e ∈ args.aux, Handled e) (hsize : findStackDataSize args < initialStackSize)
    (hpage : 16 ∣ stackSpace) (hmap : stackSpace + initialStackSize < 2 ^ (8 * b)) (mem : Memory) :
    (∃ st, elfRun args stackSpace mem = some st ∧ Faithful args stackSpace st) ↔ NoRandom args :=
  ⟨noRandom_of_faithful hhandled hmap, elfRun_faithful hhandled hsize hpage hmap mem⟩

/-- The program `ls` with one entry of a type in its auxiliary vector. -/
def listFiles (aType : Nat) : Args 8 where
  filename := ⟨[0x6c, 0x73], by decide⟩
  argv := []
  envp := []
  aux := [⟨BitVec.ofNat _ aType, 0x1000⟩]
  auxv := ⟨0, 0, 0, 0⟩
  string := fun _ => ⟨[0x6c, 0x73], by decide⟩
  block := fun _ _ => 0xff

/-- The program `ls` with an argument, a variable, and the entries AT_PAGESZ, AT_PHDR,
AT_ENTRY, AT_EXECFN and AT_PLATFORM. -/
def listAll : Args 8 where
  filename := ⟨[0x6c, 0x73], by decide⟩
  argv := [⟨[0x2d, 0x61], by decide⟩]
  envp := [⟨[0x41, 0x3d, 0x42], by decide⟩]
  aux := [⟨BitVec.ofNat _ atPagesz, 0x1000⟩, ⟨BitVec.ofNat _ atPhdr, 0x2000⟩, ⟨BitVec.ofNat _ atEntry, 0x3000⟩,
    ⟨BitVec.ofNat _ atExecfn, 0x4000⟩, ⟨BitVec.ofNat _ atPlatform, 0x5000⟩]
  auxv := ⟨0, 0x400040, 3, 0x400100⟩
  string := fun _ => ⟨[0x6c, 0x73], by decide⟩
  block := fun _ _ => 0xff

theorem elfRun_faithful_iff_execfn :
    ∃ st, elfRun listAll 0x10000 (fun _ => 0) = some st ∧ Faithful listAll 0x10000 st :=
  (elfRun_faithful_iff (by simp [listAll, Handled, copied, atPagesz, atExecfn, atPhdr, atEntry, atPlatform]) (by decide) (by decide)
    (by decide) _).mpr (by simp [listAll, NoRandom, atRandom, atPagesz, atExecfn, atPhdr, atEntry, atPlatform])

/-- The random bytes overwrite the first letter of the program's name. -/
theorem elfRun_random_overlaps :
    (∀ e ∈ (listFiles atRandom).aux, Handled e) ∧ findStackDataSize (listFiles atRandom) < initialStackSize ∧
      ¬ ∃ st, elfRun (listFiles atRandom) 0x10000 (fun _ => 0) = some st ∧ Faithful (listFiles atRandom) 0x10000 st := by
  have hhandled : ∀ e ∈ (listFiles atRandom).aux, Handled e := by simp [listFiles, Handled, atRandom]
  refine ⟨hhandled, by decide, fun h => ?_⟩
  exact noRandom_of_faithful hhandled (by decide) h _ (List.mem_singleton_self _) (by decide)

end Main

end Mambo.ElfStackRuns
