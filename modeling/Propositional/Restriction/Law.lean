import Propositional.Basis

/-!
# Laws of replacement

A law replaces the outermost connective of a formula by others. `reduce?` says which law a basis
asks for: none when it allows the connective. What a law gives may need more laws: in the bases with
a single connective conjunction and disjunction go through each other until a negation meets the
connective that absorbs it.
-/

namespace Propositional

inductive Law
  | equivToImpls
  | implToOr
  | andToOr
  | orToAnd
  | norToOr
  | schefferToAnd
  | negAndToScheffer
  | negToScheffer
  | negOrToNor
  | negToNor
deriving DecidableEq

/-- The equivalence that a law applies from left to right. -/
def Law.equivalence : Law → String
  | .equivToImpls => "(F ↔ G) ∼ (F → G) ∧ (G → F)"
  | .implToOr => "(F → G) ∼ ¬F ∨ G"
  | .andToOr => "(F ∧ G) ∼ ¬(¬F ∨ ¬G)"
  | .orToAnd => "(F ∨ G) ∼ ¬(¬F ∧ ¬G)"
  | .norToOr => "N(F₁, …, Fₙ) ∼ ¬(F₁ ∨ … ∨ Fₙ)"
  | .schefferToAnd => "(F ↑ G) ∼ ¬(F ∧ G)"
  | .negAndToScheffer => "¬(F ∧ G) ∼ F ↑ G"
  | .negToScheffer => "¬F ∼ F ↑ F"
  | .negOrToNor => "¬(F ∨ G) ∼ N(F, G)"
  | .negToNor => "¬F ∼ N(F)"

namespace Formula

def conj (l r : Formula) : Formula := .binary .and l r
def disj (l r : Formula) : Formula := .binary .or l r
def impl (l r : Formula) : Formula := .binary .impl l r

/-- The disjunction of the formulas, grouped to the left. -/
def disjunction (first : Formula) (rest : List Formula) : Formula :=
  rest.foldl disj first

end Formula

namespace Law

open Formula

/-- The law that removes a connective, and what it makes of the operands. -/
def expand (l r : Formula) : BinaryOp → Law × Formula
  | .equiv => (.equivToImpls, conj (impl l r) (impl r l))
  | .impl => (.implToOr, disj (.neg l) r)
  | .and => (.andToOr, .neg (disj (.neg l) (.neg r)))
  | .or => (.orToAnd, .neg (conj (.neg l) (.neg r)))
  | .scheffer => (.schefferToAnd, .neg (conj l r))

/-- The law that absorbs a negation into the one connective of a basis. -/
def absorb : Basis → Formula → Option (Law × Formula)
  | .scheffer, .binary .and l r => some (.negAndToScheffer, .binary .scheffer l r)
  | .scheffer, f => some (.negToScheffer, .binary .scheffer f f)
  | .nor, .binary .or l r => some (.negOrToNor, .nor l [r])
  | .nor, f => some (.negToNor, .nor f [])
  | _, _ => none

/-- The law for the outermost connective of a formula, with the formula it gives. -/
def reduce? (b : Basis) (f : Formula) : Option (Law × Formula) :=
  if b.allows f.kind then none
  else
    match f with
    | .atom _ => none
    | .neg f => absorb b f
    | .binary op l r => some (expand l r op)
    | .nor f fs => some (.norToOr, .neg (disjunction f fs))

theorem reduce?_binary {b : Basis} {op : BinaryOp} (forbidden : b.allows (.binary op) = false)
    (l r : Formula) : reduce? b (.binary op l r) = some (expand l r op) := by
  simp [reduce?, kind, forbidden]

theorem reduce?_nor {b : Basis} (forbidden : b.allows .nor = false) (f : Formula)
    (fs : List Formula) : reduce? b (.nor f fs) = some (.norToOr, .neg (disjunction f fs)) := by
  simp [reduce?, kind, forbidden]

/-- A law applies exactly where the basis forbids the connective. -/
theorem reduce?_eq_none_iff {b : Basis} {f : Formula} :
    reduce? b f = none ↔ b.allows f.kind = true := by
  unfold reduce?
  split
  · simp_all
  · rename_i h
    simp only [h]
    cases f with
    | atom => cases b <;> simp_all [Formula.kind, Basis.allows]
    | neg f => cases b <;> simp_all [Formula.kind, Basis.allows, absorb] <;> split <;> simp_all
    | binary => simp
    | nor => simp

theorem forbids_of_reduce {b : Basis} {f g : Formula} {law : Law}
    (reduced : reduce? b f = some (law, g)) : b.allows f.kind = false := by
  cases allowed : b.allows f.kind with
  | false => rfl
  | true =>
    rw [reduce?_eq_none_iff.mpr allowed] at reduced
    cases reduced

end Law

end Propositional
