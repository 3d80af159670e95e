import Propositional.Interpretation

/-!
# Truth values of formulas

A formula has a value under an interpretation that assigns all its atoms. Every operand is
evaluated, from left to right, so a missing name is reported wherever it stands and the first one
counts, also where the value would already be decided.
-/

namespace Propositional

/-- The interpretation has no value for the name. -/
structure MissingVariable where
  name : String
deriving DecidableEq

def MissingVariable.message (e : MissingVariable) : String :=
  e.name ++ " is missing in the interpretation"

namespace Formula

def evaluate (i : Interpretation) : Formula → Except MissingVariable Bool
  | .atom name =>
    match i.get? name with
    | some value => .ok value
    | none => .error ⟨name⟩
  | .neg f => do return !(← f.evaluate i)
  | .binary op l r => do
    let left ← l.evaluate i
    let right ← r.evaluate i
    return op.apply left right
  | .nor f fs => do
    let first ← f.evaluate i
    let rest ← fs.mapM (evaluate i)
    return !first && rest.all (!·)

end Formula

end Propositional
