import Mathlib.Data.BitVec
import Mathlib.Tactic.Common

namespace Mambo.RvIsa

/-- An instruction word; those of the compressed instructions take its low half. -/
abbrev Encoding := BitVec 32

section Registers

variable (w : Encoding)

def rd : BitVec 5 := w.extractLsb' 7 5

def rs1 : BitVec 5 := w.extractLsb' 15 5

def rs2 : BitVec 5 := w.extractLsb' 20 5

def rs3 : BitVec 5 := w.extractLsb' 27 5

def rm : BitVec 3 := w.extractLsb' 12 3

/-- A register field of three bits stands for x8 to x15. -/
def cReg (field : BitVec 3) : BitVec 5 := 0b01#2 ++ field

/-- The register of the bits 4 to 2: rd' of CL and CIW, rs2' of CS and CA. -/
def cLow : BitVec 5 := cReg (w.extractLsb' 2 3)

/-- The register of the bits 9 to 7: rs1' of CL, CS and CB, and rd' of CA and CB. -/
def cHigh : BitVec 5 := cReg (w.extractLsb' 7 3)

def cRs2 : BitVec 5 := w.extractLsb' 2 5

end Registers

section Immediates

variable (w : Encoding)

def iImm : Int := (w.extractLsb' 20 12).toInt

def sImm : Int := (w.extractLsb' 25 7 ++ w.extractLsb' 7 5).toInt

def bImm : Int :=
  (w.extractLsb' 31 1 ++ w.extractLsb' 7 1 ++ w.extractLsb' 25 6 ++ w.extractLsb' 8 4 ++ 0#1).toInt

def jImm : Int :=
  (w.extractLsb' 31 1 ++ w.extractLsb' 12 8 ++ w.extractLsb' 20 1 ++ w.extractLsb' 21 10 ++ 0#1).toInt

def clwOffset : Nat := (w.extractLsb' 5 1 ++ w.extractLsb' 10 3 ++ w.extractLsb' 6 1 ++ 0#2).toNat

def cldOffset : Nat := (w.extractLsb' 5 2 ++ w.extractLsb' 10 3 ++ 0#3).toNat

def clwspOffset : Nat := (w.extractLsb' 2 2 ++ w.extractLsb' 12 1 ++ w.extractLsb' 4 3 ++ 0#2).toNat

def cldspOffset : Nat := (w.extractLsb' 2 3 ++ w.extractLsb' 12 1 ++ w.extractLsb' 5 2 ++ 0#3).toNat

def cswspOffset : Nat := (w.extractLsb' 7 2 ++ w.extractLsb' 9 4 ++ 0#2).toNat

def cAddi4spnImm : Nat :=
  (w.extractLsb' 7 4 ++ w.extractLsb' 11 2 ++ w.extractLsb' 5 1 ++ w.extractLsb' 6 1 ++ 0#2).toNat

def cAddi16spImm : Int :=
  (w.extractLsb' 12 1 ++ w.extractLsb' 3 2 ++ w.extractLsb' 5 1 ++ w.extractLsb' 2 1 ++ w.extractLsb' 6 1 ++ 0#4).toInt

def ciImm : Int := (w.extractLsb' 12 1 ++ w.extractLsb' 2 5).toInt

def cLuiImm : Int := (w.extractLsb' 12 1 ++ w.extractLsb' 2 5 ++ 0#12).toInt

def cShamt : Nat := (w.extractLsb' 12 1 ++ w.extractLsb' 2 5).toNat

def cjImm : Int :=
  (w.extractLsb' 12 1 ++ w.extractLsb' 8 1 ++ w.extractLsb' 9 2 ++ w.extractLsb' 6 1 ++ w.extractLsb' 7 1 ++
    w.extractLsb' 2 1 ++ w.extractLsb' 11 1 ++ w.extractLsb' 3 3 ++ 0#1).toInt

def cbImm : Int :=
  (w.extractLsb' 12 1 ++ w.extractLsb' 5 2 ++ w.extractLsb' 2 1 ++ w.extractLsb' 10 2 ++ w.extractLsb' 3 2 ++
    0#1).toInt

def prefetchOffset : Int := (w.extractLsb' 25 7 ++ 0#5).toInt

/-- Whether the five-bit immediate of an OPIVI instruction is a signed one. -/
def vSigned : Bool :=
  [0x00, 0x03, 0x09, 0x0A, 0x0B, 0x10, 0x11, 0x17, 0x18, 0x19, 0x1C, 0x1D, 0x1E, 0x1F, 0x20, 0x21].contains
    (w.extractLsb' 26 6)

/-- What stands in the field of rs1 or vs1: the number of a register, or an immediate. -/
def vOperand : Int :=
  if w.extractLsb' 12 3 = 3 ∧ vSigned w then (w.extractLsb' 15 5).toInt else (w.extractLsb' 15 5).toNat

def csdspOffset : Nat := (w.extractLsb' 7 3 ++ w.extractLsb' 10 3 ++ 0#3).toNat

end Immediates

end Mambo.RvIsa
