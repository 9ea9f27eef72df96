import Mathlib.Data.BitVec
import Mathlib.Data.List.GetD
import Mathlib.Data.List.Pairwise
import Mambo.Bytes

namespace Mambo.TwoEnded

open Bytes

variable {b : Nat}

abbrev Memory := Nat → Byte

section Memory

def write (mem : Memory) (a : Nat) (bytes : List Byte) : Memory :=
  fun x => if a ≤ x then bytes.getD (x - a) (mem x) else mem x

def BytesAt (mem : Memory) (a : Nat) (bytes : List Byte) : Prop :=
  ∀ i (h : i < bytes.length), mem (a + i) = bytes[i]

variable {mem mem' : Memory} {a x : Nat} {bytes : List Byte}

theorem write_outside (h : x < a ∨ a + bytes.length ≤ x) : write mem a bytes x = mem x := by
  rw [write]
  split_ifs with hle
  · exact List.getD_eq_default _ _ (by omega)
  · rfl

theorem bytesAt_write (mem : Memory) (a : Nat) (bytes : List Byte) : BytesAt (write mem a bytes) a bytes := by
  intro i h
  rw [write, if_pos (Nat.le_add_right a i), Nat.add_sub_cancel_left, List.getD_eq_getElem _ _ h]

theorem BytesAt.congr (h : BytesAt mem a bytes) (hsame : ∀ x, a ≤ x → x < a + bytes.length → mem' x = mem x) :
    BytesAt mem' a bytes := by
  intro i hi
  rw [hsame _ (Nat.le_add_right a i) (by omega)]
  exact h i hi

theorem bytesAt_nil (mem : Memory) (a : Nat) : BytesAt mem a [] := fun _ h => nomatch h

theorem bytesAt_append {left right : List Byte} :
    BytesAt mem a (left ++ right) ↔ BytesAt mem a left ∧ BytesAt mem (a + left.length) right := by
  constructor
  · intro h
    refine ⟨fun i hi => ?_, fun i hi => ?_⟩
    · rw [h i (by rw [List.length_append]; omega), List.getElem_append_left hi]
    · rw [Nat.add_assoc, h (left.length + i) (by rw [List.length_append]; omega), List.getElem_append_right (by omega)]
      simp only [Nat.add_sub_cancel_left]
  · rintro ⟨hleft, hright⟩ i hi
    rcases Nat.lt_or_ge i left.length with hlt | hge
    · rw [hleft i hlt, List.getElem_append_left hlt]
    · rw [List.length_append] at hi
      have hbyte := hright (i - left.length) (by omega)
      rw [List.getElem_append_right hge, ← hbyte]
      congr 1
      omega

theorem BytesAt.unique {other : List Byte} (h : BytesAt mem a bytes) (h' : BytesAt mem a other)
    (hlen : bytes.length = other.length) : bytes = other :=
  List.ext_getElem hlen fun i hi hi' => (h i hi).symm.trans (h' i hi')

end Memory

section Words

def wordBytes (v : BitVec (8 * b)) : List Byte := toBytes b v.toNat

theorem length_wordBytes (v : BitVec (8 * b)) : (wordBytes v).length = b := length_toBytes b _

theorem wordBytes_inj {v v' : BitVec (8 * b)} (h : wordBytes v = wordBytes v') : v = v' := by
  have hpow : 256 ^ b = 2 ^ (8 * b) := by rw [Nat.pow_mul]
  have hnat := congrArg ofBytes h
  rw [wordBytes, wordBytes, ofBytes_toBytes, ofBytes_toBytes, hpow, Nat.mod_eq_of_lt v.isLt,
    Nat.mod_eq_of_lt v'.isLt] at hnat
  exact BitVec.eq_of_toNat_eq hnat

def WordsAt (mem : Memory) (a : Nat) (ws : List (BitVec (8 * b))) : Prop := BytesAt mem a (ws.flatMap wordBytes)

theorem length_flatMap_wordBytes (ws : List (BitVec (8 * b))) : (ws.flatMap wordBytes).length = b * ws.length := by
  induction ws with
  | nil => rfl
  | cons v ws ih =>
    rw [List.flatMap_cons, List.length_append, length_wordBytes, ih, List.length_cons, Nat.mul_succ, Nat.add_comm]

theorem flatMap_wordBytes_inj {ws ws' : List (BitVec (8 * b))} (hlen : ws.length = ws'.length)
    (h : ws.flatMap wordBytes = ws'.flatMap wordBytes) : ws = ws' := by
  induction ws generalizing ws' with
  | nil => exact (List.length_eq_zero_iff.mp hlen.symm).symm
  | cons v ws ih =>
    cases ws' with
    | nil => exact nomatch hlen
    | cons v' ws' =>
      rw [List.flatMap_cons, List.flatMap_cons] at h
      obtain ⟨hhead, htail⟩ := List.append_inj h (by rw [length_wordBytes, length_wordBytes])
      rw [wordBytes_inj hhead, ih (Nat.succ.inj hlen) htail]

theorem WordsAt.unique {mem : Memory} {a : Nat} {ws ws' : List (BitVec (8 * b))} (h : WordsAt mem a ws)
    (h' : WordsAt mem a ws') (hlen : ws.length = ws'.length) : ws = ws' := by
  refine flatMap_wordBytes_inj hlen (BytesAt.unique h h' ?_)
  rw [length_flatMap_wordBytes, length_flatMap_wordBytes, hlen]

end Words

section Ends

/-- Words are stored from `next` upwards and data from `top` downwards. -/
structure Ends where
  mem : Memory
  top : Nat
  next : Nat

/-- Storing a word, or data and the word that points to it. The data is placed `above`
bytes higher than the space made for it. -/
inductive Op (b : Nat)
  | word (v : BitVec (8 * b))
  | data (bytes : List Byte) (above : Nat)

namespace Op

def length : Op b → Nat
  | .word _ => 0
  | .data bytes _ => bytes.length

/-- The word that the operation stores, with the data below `top`. -/
def stores (top : Nat) : Op b → BitVec (8 * b)
  | .word v => v
  | .data bytes above => BitVec.ofNat _ (top + above - bytes.length)

def exec (op : Op b) (e : Ends) : Ends :=
  match op with
  | .word v => { e with mem := write e.mem e.next (wordBytes v), next := e.next + b }
  | .data bytes above =>
    let place := e.top + above - bytes.length
    { mem := write (write e.mem place bytes) e.next (wordBytes (BitVec.ofNat (8 * b) place))
      top := e.top - bytes.length
      next := e.next + b }

end Op

def exec (ops : List (Op b)) (e : Ends) : Ends := ops.foldl (fun e op => op.exec e) e

def total (ops : List (Op b)) : Nat := (ops.map Op.length).sum

/-- The words stored, with the data below `top`. -/
def words : List (Op b) → Nat → List (BitVec (8 * b))
  | [], _ => []
  | op :: ops, top => op.stores top :: words ops (top - op.length)

def pieces : List (Op b) → Nat → List (Nat × List Byte)
  | [], _ => []
  | .word _ :: ops, top => pieces ops top
  | .data bytes above :: ops, top => (top + above - bytes.length, bytes) :: pieces ops (top - bytes.length)

def Separate (p q : Nat × List Byte) : Prop := p.1 + p.2.length ≤ q.1 ∨ q.1 + q.2.length ≤ p.1

/-- Data and words do not meet. -/
def Fits (ops : List (Op b)) (e : Ends) : Prop := e.next + b * ops.length + total ops ≤ e.top

variable {ops more : List (Op b)} {op : Op b} {e : Ends} {top x : Nat}

theorem total_cons (op : Op b) (ops : List (Op b)) : total (op :: ops) = op.length + total ops := List.sum_cons

theorem total_append (ops more : List (Op b)) : total (ops ++ more) = total ops + total more := by
  rw [total, List.map_append, List.sum_append]
  rfl

theorem length_words (ops : List (Op b)) (top : Nat) : (words ops top).length = ops.length := by
  induction ops generalizing top with
  | nil => rfl
  | cons op ops ih => rw [words, List.length_cons, List.length_cons, ih]

theorem words_append (ops more : List (Op b)) (top : Nat) :
    words (ops ++ more) top = words ops top ++ words more (top - total ops) := by
  induction ops generalizing top with
  | nil => rfl
  | cons op ops ih => rw [List.cons_append, words, words, List.cons_append, ih, total_cons, Nat.sub_sub]

theorem pieces_append (ops more : List (Op b)) (top : Nat) :
    pieces (ops ++ more) top = pieces ops top ++ pieces more (top - total ops) := by
  induction ops generalizing top with
  | nil => rfl
  | cons op ops ih =>
    cases op with
    | word v =>
      rw [List.cons_append, pieces, pieces, ih, total_cons, Op.length, Nat.zero_add]
    | data bytes above =>
      rw [List.cons_append, pieces, pieces, List.cons_append, ih, total_cons, Op.length, Nat.sub_sub]

theorem exec_cons (op : Op b) (ops : List (Op b)) (e : Ends) : exec (op :: ops) e = exec ops (op.exec e) := rfl

theorem exec_append (ops more : List (Op b)) (e : Ends) : exec (ops ++ more) e = exec more (exec ops e) :=
  List.foldl_append

theorem Op.exec_next (op : Op b) (e : Ends) : (op.exec e).next = e.next + b := by
  cases op <;> rfl

theorem Op.exec_top (op : Op b) (e : Ends) : (op.exec e).top = e.top - op.length := by
  cases op <;> rfl

theorem exec_next (ops : List (Op b)) (e : Ends) : (exec ops e).next = e.next + b * ops.length := by
  induction ops generalizing e with
  | nil => rfl
  | cons op ops ih => rw [exec_cons, ih, op.exec_next, List.length_cons, Nat.mul_succ, Nat.add_assoc, Nat.add_comm b]

theorem exec_top (ops : List (Op b)) (e : Ends) : (exec ops e).top = e.top - total ops := by
  induction ops generalizing e with
  | nil => rfl
  | cons op ops ih => rw [exec_cons, ih, op.exec_top, total_cons, Nat.sub_sub]

theorem Fits.tail (h : Fits (op :: ops) e) : Fits ops (op.exec e) := by
  rw [Fits, List.length_cons, total_cons, Nat.mul_succ] at h
  rw [Fits, op.exec_next, op.exec_top]
  omega

theorem Op.exec_low (h : Fits (op :: ops) e) (hx : x < e.next) : (op.exec e).mem x = e.mem x := by
  rw [Fits, List.length_cons, total_cons, Nat.mul_succ] at h
  cases op with
  | word v => exact write_outside (.inl hx)
  | data bytes above =>
    rw [Op.length] at h
    refine (write_outside (.inl hx)).trans (write_outside (.inl ?_))
    omega

theorem exec_low (h : Fits ops e) (hx : x < e.next) : (exec ops e).mem x = e.mem x := by
  induction ops generalizing e with
  | nil => rfl
  | cons op ops ih =>
    rw [exec_cons, ih h.tail (by rw [op.exec_next]; omega), Op.exec_low h hx]

theorem Op.wordBytes_at (op : Op b) (e : Ends) : BytesAt (op.exec e).mem e.next (wordBytes (op.stores e.top)) := by
  cases op with
  | word v => exact bytesAt_write _ _ _
  | data bytes above => exact bytesAt_write _ _ _

theorem words_at (h : Fits ops e) : WordsAt (exec ops e).mem e.next (words ops e.top) := by
  induction ops generalizing e with
  | nil => exact bytesAt_nil _ _
  | cons op ops ih =>
    rw [words, WordsAt, List.flatMap_cons, bytesAt_append, length_wordBytes, exec_cons]
    constructor
    · refine (op.wordBytes_at e).congr fun x hle hlt => exec_low h.tail ?_
      rw [length_wordBytes] at hlt
      rwa [op.exec_next]
    · rw [← op.exec_next, ← op.exec_top]
      exact ih h.tail

end Ends

section Plain

variable {ops more : List (Op b)} {op : Op b} {e : Ends} {top x : Nat} {p : Nat × List Byte}

def Op.Plain : Op b → Prop
  | .word _ => True
  | .data bytes above => above = 0 ∧ bytes ≠ []

theorem Op.exec_high (h : Fits (op :: ops) e) (hplain : op.Plain) (hx : e.top ≤ x) : (op.exec e).mem x = e.mem x := by
  rw [Fits, List.length_cons, total_cons, Nat.mul_succ] at h
  cases op with
  | word v =>
    refine write_outside (.inr ?_)
    rw [length_wordBytes]
    omega
  | data bytes above =>
    obtain ⟨rfl, -⟩ := hplain
    rw [Op.length] at h
    refine (write_outside (.inr ?_)).trans (write_outside (.inr ?_))
    · rw [length_wordBytes]
      omega
    · omega

theorem exec_high (h : Fits ops e) (hplain : ∀ op ∈ ops, op.Plain) (hx : e.top ≤ x) :
    (exec ops e).mem x = e.mem x := by
  induction ops generalizing e with
  | nil => rfl
  | cons op ops ih =>
    have htop : (op.exec e).top ≤ x := by
      rw [op.exec_top]
      omega
    rw [exec_cons, ih h.tail (fun o ho => hplain o (List.mem_cons_of_mem _ ho)) htop,
      Op.exec_high h (hplain op List.mem_cons_self) hx]

theorem pieces_within (hplain : ∀ op ∈ ops, op.Plain) (hroom : total ops ≤ top) (hp : p ∈ pieces ops top) :
    top - total ops ≤ p.1 ∧ p.1 + p.2.length ≤ top := by
  induction ops generalizing top with
  | nil => exact nomatch hp
  | cons op ops ih =>
    rw [total_cons] at hroom ⊢
    have hrest : p ∈ pieces ops (top - op.length) → _ :=
      ih (fun o ho => hplain o (List.mem_cons_of_mem _ ho)) (by omega)
    cases op with
    | word v =>
      obtain ⟨hlow, hhigh⟩ := hrest hp
      rw [Op.length] at hlow hhigh ⊢
      omega
    | data bytes above =>
      obtain ⟨rfl, -⟩ := hplain _ List.mem_cons_self
      rw [Op.length] at hroom hrest ⊢
      rcases List.mem_cons.mp hp with rfl | hp
      · dsimp only
        omega
      · obtain ⟨hlow, hhigh⟩ := hrest hp
        omega

theorem pieces_separate (hplain : ∀ op ∈ ops, op.Plain) (hroom : total ops ≤ top) :
    (pieces ops top).Pairwise Separate := by
  induction ops generalizing top with
  | nil => exact List.Pairwise.nil
  | cons op ops ih =>
    have hplain' := fun o ho => hplain o (List.mem_cons_of_mem _ ho)
    rw [total_cons] at hroom
    cases op with
    | word v => exact ih hplain' (by omega)
    | data bytes above =>
      obtain ⟨rfl, -⟩ := hplain _ List.mem_cons_self
      rw [Op.length] at hroom
      refine List.pairwise_cons.mpr ⟨fun q hq => .inr ?_, ih hplain' (by omega)⟩
      exact (pieces_within hplain' (by omega) hq).2

theorem pieces_at (h : Fits ops e) (hplain : ∀ op ∈ ops, op.Plain) (hp : p ∈ pieces ops e.top) :
    BytesAt (exec ops e).mem p.1 p.2 := by
  induction ops generalizing e with
  | nil => exact nomatch hp
  | cons op ops ih =>
    have hplain' := fun o ho => hplain o (List.mem_cons_of_mem _ ho)
    have hrest := ih h.tail hplain'
    rw [op.exec_top] at hrest
    cases op with
    | word v => exact hrest hp
    | data bytes above =>
      obtain ⟨rfl, -⟩ := hplain _ List.mem_cons_self
      rcases List.mem_cons.mp hp with rfl | hp
      · have hroom := h
        rw [Fits, List.length_cons, total_cons, Nat.mul_succ, Op.length] at hroom
        refine (bytesAt_write e.mem _ bytes).congr fun x hle hlt => ?_
        refine (exec_high h.tail hplain' hle).trans (write_outside (.inr ?_))
        rw [length_wordBytes]
        dsimp only at hle
        omega
      · exact hrest hp

theorem lowest_piece (hplain : ∀ op ∈ ops, op.Plain) (hdata : 0 < total ops) :
    ∃ p ∈ pieces ops top, p.1 = top - total ops ∧ p.2 ≠ [] := by
  induction ops generalizing top with
  | nil => exact absurd hdata (Nat.lt_irrefl 0)
  | cons op ops ih =>
    have hplain' := fun o ho => hplain o (List.mem_cons_of_mem _ ho)
    rcases Nat.eq_zero_or_pos (total ops) with hzero | hpos
    · rw [total_cons, hzero] at hdata ⊢
      cases op with
      | word v => exact absurd hdata (Nat.lt_irrefl 0)
      | data bytes above =>
        obtain ⟨rfl, hne⟩ := hplain _ List.mem_cons_self
        exact ⟨_, List.mem_cons_self, rfl, hne⟩
    · have hrest : ∃ p ∈ pieces ops (top - op.length), _ := ih hplain' hpos
      obtain ⟨p, hp, hlow, hne⟩ := hrest
      rw [Nat.sub_sub, ← total_cons] at hlow
      cases op with
      | word v => exact ⟨p, hp, hlow, hne⟩
      | data bytes above => exact ⟨p, List.mem_cons_of_mem _ hp, hlow, hne⟩

theorem pieces_overlap {bytes : List Byte} (hplain : ∀ op ∈ ops, op.Plain) (hdata : 0 < total ops)
    (hbytes : bytes ≠ []) :
    ¬ (pieces (ops ++ .data bytes 1 :: more) top).Pairwise Separate := by
  intro hsep
  have hlowest : ∃ p ∈ pieces ops top, _ := lowest_piece hplain hdata
  obtain ⟨p, hp, hlow, hne⟩ := hlowest
  rw [pieces_append] at hsep
  have hmeet := (List.pairwise_append.mp hsep).2.2 p hp _ List.mem_cons_self
  have hlen := List.length_pos_iff.mpr hne
  have hlen' := List.length_pos_iff.mpr hbytes
  rw [Separate] at hmeet
  dsimp only at hmeet
  omega

end Plain

end Mambo.TwoEnded
