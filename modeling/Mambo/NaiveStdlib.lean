import Mambo.PartialMemory

namespace Mambo.NaiveStdlib

open PartialMemory

section Characters

def promote (b : Byte) : BitVec 32 := b.setWidth 32

def toChar (c : BitVec 32) : Byte := c.setWidth 8

end Characters

section Rounds

variable {w : Nat} (m : Memory w)

def bcmpRound (s1 s2 n i : Nat) : Option (Nat ⊕ Int) :=
  if i < n then do
    let a ← m.byte (s1 + i)
    let b ← m.byte (s2 + i)
    return if a ≠ b then .inr (-1) else .inl (i + 1)
  else some (.inr 0)

def indexRound (c : BitVec 32) (ptr : Nat) : Option (Nat ⊕ Nat) := do
  let b ← m.byte ptr
  return if b ≠ 0 then if promote b = c then .inr ptr else .inl (ptr + 1)
    else .inr (if c = 0 ∧ b = 0 then ptr else 0)

def memchrRound (s : Nat) (c : BitVec 32) (n i : Nat) : Option (Nat ⊕ Nat) :=
  if i < n then do
    let b ← m.byte (s + i)
    return if b = toChar c then .inr (s + i) else .inl (i + 1)
  else some (.inr 0)

def rindexRound (c : BitVec 32) : Nat × Nat → Option ((Nat × Nat) ⊕ Nat)
  | (ret, ptr) => do
    let b ← m.byte ptr
    return if b ≠ 0 then .inl (if promote b = c then ptr else ret, ptr + 1)
      else .inr (if c = 0 ∧ b = 0 then ptr else ret)

/-- Whether to go on is read from the source after the write; null would end it too. -/
def stpcpyRound : Memory w × Nat × Nat → Option ((Memory w × Nat × Nat) ⊕ (Memory w × Nat))
  | (m, dest, src) => do
    let b ← m.byte src
    let m ← m.write dest b
    let b ← m.byte src
    return if b = 0 ∨ src = 0 then .inr (m, dest)
      else if dest = 0 then .inr (m, dest + 1)
      else .inl (m, dest + 1, src + 1)

def sign (a b : Byte) : Int := if a < b then -1 else if b < a then 1 else 0

def strcmpRound (s1 s2 i : Nat) : Option (Nat ⊕ Int) := do
  let a ← m.byte (s1 + i)
  let b ← m.byte (s2 + i)
  return if a = b ∧ a ≠ 0 then .inl (i + 1) else .inr (sign a b)

def strcpyRound (dest src : Nat) : Memory w × Nat → Option ((Memory w × Nat) ⊕ (Memory w × Nat))
  | (m, i) => do
    let b ← m.byte (src + i)
    if b ≠ 0 then return .inl (← m.write (dest + i) b, i + 1)
    else return .inr (← m.write (dest + i) 0, dest)

def strlenRound (s len : Nat) : Option (Nat ⊕ Nat) := do
  let b ← m.byte (s + len)
  return if b ≠ 0 then .inl (len + 1) else .inr len

def strncmpRound (s1 s2 n i : Nat) : Option (Nat ⊕ Int) := do
  let a ← m.byte (s1 + i)
  let b ← m.byte (s2 + i)
  return if a = b ∧ a ≠ 0 ∧ i + 1 < n then .inl (i + 1) else .inr (sign a b)

def strnlenRound (s maxlen len : Nat) : Option (Nat ⊕ Nat) :=
  if len < maxlen then strlenRound m s len else some (.inr len)

def strchrnulRound (c : BitVec 32) (p : Nat) : Option (Nat ⊕ Nat) := do
  let b ← m.byte p
  return if b ≠ toChar c ∧ b ≠ 0 then .inl (p + 1) else .inr p

/-- The inner loops of the spans have a signed int for their index, beyond whose largest value nothing
is defined. -/
def isInRound (set : Nat) (b : Byte) (i : Nat) : Option (Nat ⊕ Bool) := do
  let x ← m.byte (set + i)
  if x = 0 then return .inr false
  else if b = x then return .inr true
  else if i + 1 < 2 ^ 31 then return .inl (i + 1)
  else none

end Rounds

section Functions

variable {w : Nat} (m : Memory w) (fuel : Nat)

def memcheckBcmp (s1 s2 n : Nat) : Option Int := loop (bcmpRound m s1 s2 n) fuel 0

def memcheckIndex (s : Nat) (c : BitVec 32) : Option Nat := loop (indexRound m c) fuel s

def memcheckMemchr (s : Nat) (c : BitVec 32) (n : Nat) : Option Nat := loop (memchrRound m s c n) fuel 0

def memcheckRawmemchr (s : Nat) (c : BitVec 32) : Option Nat := memcheckMemchr m fuel s c (2 ^ w - 1)

def memcheckRindex (s : Nat) (c : BitVec 32) : Option Nat := loop (rindexRound m c) fuel (0, s)

def memcheckStpcpy (dest src : Nat) : Option (Memory w × Nat) := loop stpcpyRound fuel (m, dest, src)

def memcheckStrcmp (s1 s2 : Nat) : Option Int := loop (strcmpRound m s1 s2) fuel 0

def memcheckStrcpy (dest src : Nat) : Option (Memory w × Nat) := loop (strcpyRound dest src) fuel (m, 0)

def memcheckStrlen (s : Nat) : Option Nat := loop (strlenRound m s) fuel 0

def memcheckStrncmp (s1 s2 n : Nat) : Option Int := if n = 0 then some 0 else loop (strncmpRound m s1 s2 n) fuel 0

def memcheckStrnlen (s maxlen : Nat) : Option Nat := loop (strnlenRound m s maxlen) fuel 0

def memcheckStrchrnul (s : Nat) (c : BitVec 32) : Option Nat := loop (strchrnulRound m c) fuel s

def isIn (set : Nat) (b : Byte) : Option Bool := loop (isInRound m set b) fuel 0

/-- The rounds of the spans, of characters within a set or without it. -/
def spanRound (set : Nat) (within : Bool) : Nat × Nat → Option ((Nat × Nat) ⊕ Nat)
  | (len, p) => do
    let b ← m.byte p
    if b ≠ 0 then
      let found ← isIn m fuel set b
      return if found = within then .inl (len + 1, p + 1) else .inr len
    else return .inr len

def memcheckStrspn (s accept : Nat) : Option Nat := loop (spanRound m fuel accept true) fuel (0, s)

def memcheckStrcspn (s reject : Nat) : Option Nat := loop (spanRound m fuel reject false) fuel (0, s)

end Functions

end Mambo.NaiveStdlib
