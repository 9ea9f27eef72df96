import Mathlib.Logic.Function.Basic
import Mathlib.Data.List.Basic

namespace Mambo.LruCache

structure Block where
  tag : Nat
  dirty : Bool
  deriving DecidableEq, Repr

/-- A set-associative write-back cache that replaces the least recently used
line: the lines of each set, latest use first, and what was counted for reads
and for writes. -/
structure Lru where
  contents : Nat → List Block
  misses : Bool → Nat
  writebacks : Bool → Nat

def Lru.empty : Lru := ⟨fun _ => [], fun _ => 0, fun _ => 0⟩

/-- The block that has to leave a set before another one comes in. -/
def victim (assoc : Nat) (blocks : List Block) : Option Block :=
  if blocks.length = assoc then blocks.getLast? else none

def remaining (assoc : Nat) (blocks : List Block) : List Block :=
  if blocks.length = assoc then blocks.dropLast else blocks

def count (counter : Bool → Nat) (isWrite : Bool) : Bool → Nat :=
  Function.update counter isWrite (counter isWrite + 1)

section Access

variable (assoc sets lineSize : Nat)

def Lru.touch (c : Lru) (line : Nat) (isWrite : Bool) : Lru :=
  let blocks := c.contents (line % sets)
  match blocks.find? (·.tag = line / sets) with
  | some b =>
    { c with
      contents := Function.update c.contents (line % sets)
        (⟨line / sets, b.dirty || isWrite⟩ :: blocks.eraseP (·.tag = line / sets)) }
  | none =>
    { contents := Function.update c.contents (line % sets) (⟨line / sets, isWrite⟩ :: remaining assoc blocks)
      misses := count c.misses isWrite
      writebacks := if (victim assoc blocks).any (·.dirty) then count c.writebacks isWrite else c.writebacks }

def touched (addr size : Nat) : List Nat :=
  List.range' (addr / lineSize) ((addr + size - 1) / lineSize + 1 - addr / lineSize)

def Lru.access (c : Lru) (addr size : Nat) (isWrite : Bool) : Lru :=
  (touched lineSize addr size).foldl (fun c line => c.touch assoc sets line isWrite) c

end Access

end Mambo.LruCache
