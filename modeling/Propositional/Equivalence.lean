import Propositional.TruthTable

/-!
# Equivalence

Two formulas are equivalent when they have the same value under every interpretation of the
variables of both. The search goes through the interpretations in the order of their numbers and
stops at the first one under which the formulas differ.
-/

namespace Propositional

namespace Formula

def differ (l r : Formula) (i : Interpretation) : Except MissingVariable Bool := do
  let left ← l.evaluate i
  let right ← r.evaluate i
  return left != right

/-- The first interpretation under which the formulas have different values, if there is one. -/
def firstDifference (l r : Formula) : Except TableError (Option Interpretation) :=
  let vs := l.variableSet.union r.variableSet
  match vs.checkCount with
  | .error e => .error (.atomCount e)
  | .ok () =>
    match (List.range vs.interpretationCount).findM? fun number => l.differ r (.ofNumber vs number) with
    | .error e => .error (.evaluation e)
    | .ok number => .ok (number.map (.ofNumber vs))

def equivalent (l r : Formula) : Except TableError Bool :=
  (l.firstDifference r).map Option.isNone

end Formula

end Propositional
