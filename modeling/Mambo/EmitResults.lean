import Mathlib.Tactic.Common

namespace Mambo.EmitResults

/-- What a helper that emits code returns, and the code. -/
structure Result (Inst : Type*) where
  ret : Int
  code : List Inst

variable {Inst : Type*}

def Result.ok (code : List Inst) : Result Inst := ⟨0, code⟩

def Result.fail : Result Inst := ⟨-1, []⟩

/-- A helper returns 0 for code that does what is wanted, or returns -1 and emits nothing. -/
structure Meets (Wanted : List Inst → Prop) (r : Result Inst) : Prop where
  code : r.ret = 0 → Wanted r.code
  nothing : r.ret = -1 → r.code = []

variable {Wanted : List Inst → Prop} {code : List Inst}

@[simp] theorem meets_ok : Meets Wanted (.ok code) ↔ Wanted code :=
  ⟨fun h => h.code rfl, fun h => ⟨fun _ => h, fun h' => absurd (show (0 : Int) = -1 from h') (by decide)⟩⟩

@[simp] theorem meets_fail : Meets Wanted .fail := ⟨fun h => absurd (show (-1 : Int) = 0 from h) (by decide), fun _ => rfl⟩

/-- The same of a helper that an assertion may stop. -/
def MeetsOrStops (Wanted : List Inst → Prop) : Option (Result Inst) → Prop
  | none => True
  | some r => Meets Wanted r

end Mambo.EmitResults
