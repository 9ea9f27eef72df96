import Mambo.A64Emit
import Mambo.TableMemory

namespace Mambo.A64HashLookup

open Bytes ByteMemory CodeRuns A64 A64Emit CodeCacheHash HashRefines TableMemory

inductive IndirectBranch
  | br
  | blr
  | ret
  deriving DecidableEq, Repr

def IndirectBranch.link (inst : IndirectBranch) : Bool := inst = .blr

section Emitter

variable (dispatcherAddr entries basicBlock writeP readAddress : Word) (rn : Reg) (link : Bool)

def useX2 : Bool := rn = 0 ∨ rn = 1 ∨ link ∧ rn = lr

def regSpc : Reg := if useX2 rn link then 1 else rn

def regTmp : Reg := if useX2 rn link then 2 else 1

/-- Up to the loop: the registers are saved, the target is in regSpc and the
address of its home slot in x0. -/
def lookupHead : List Inst :=
  pushPairReg 0 1 ::
    ((if useX2 rn link then pushReg 2 :: (if rn ≠ regSpc rn link then [.orr rn xzr (regSpc rn link)] else []) else []) ++
    ((if link then copyToReg64bits lr (readAddress + 4) else []) ++
    (copyToReg64bits 0 entries ++
    [.andImm 62 18 (regSpc rn link) (regTmp rn link), .add (regTmp rn link) 2 0 0])))

def popScratch : List Inst := if useX2 rn link then [popReg 2] else []

def found : List Inst := [.ldur (-8) 0 0] ++ popScratch rn link ++ [.br 0]

def missing : List Inst := [.orr (regSpc rn link) xzr 0] ++ copyToReg64bits 1 basicBlock ++ popScratch rn link

def inlineHashLookup : Option (List Inst) := do
  let head := lookupHead entries readAddress rn link
  let loop := cell writeP head.length
  let toLoop ← cbzCbnzHelper (cell loop 3) true loop 1 (regTmp rn link)
  let notFound := cell loop (4 + (found rn link).length)
  let toNotFound ← cbzCbnzHelper (cell loop 1) false notFound 1 (regTmp rn link)
  let jump ← branchHelper (cell notFound (missing basicBlock rn link).length) dispatcherAddr
  return head ++ [.ldrPost 16 0 (regTmp rn link), toNotFound, .sub (regSpc rn link) 0 (regTmp rn link) (regTmp rn link),
    toLoop] ++ found rn link ++ missing basicBlock rn link ++ [jump]

end Emitter

end Mambo.A64HashLookup
