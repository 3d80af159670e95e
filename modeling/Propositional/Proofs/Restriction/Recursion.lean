import Propositional.Proofs.Parts
import Propositional.Restriction

/-!
# The recursion of restriction

Restriction calls itself on the formula that a law gives, or, where no law applies, on the operands
one by one.

* `Law.Turns` lists what each law makes of a formula, whatever basis asks for it;
* `Calls` is the relation between the formulas of nested calls, and the weight goes down along it, so
  `restrict_induction` proves a property of every formula from one case for a law and one for a
  connective that stays;
* `restrict_of_allows` says what restriction does with a connective that stays, for all shapes of
  formulas at once.
-/

namespace Propositional

namespace Law

open Formula

/-- What a law makes of the formulas that it fits. -/
inductive Turns : Law → Formula → Formula → Prop
  | equivToImpls (l r : Formula) :
      Turns .equivToImpls (.binary .equiv l r) (conj (impl l r) (impl r l))
  | implToOr (l r : Formula) : Turns .implToOr (.binary .impl l r) (disj (.neg l) r)
  | andToOr (l r : Formula) : Turns .andToOr (.binary .and l r) (.neg (disj (.neg l) (.neg r)))
  | orToAnd (l r : Formula) : Turns .orToAnd (.binary .or l r) (.neg (conj (.neg l) (.neg r)))
  | norToOr (f : Formula) (fs : List Formula) : Turns .norToOr (.nor f fs) (.neg (disjunction f fs))
  | schefferToAnd (l r : Formula) : Turns .schefferToAnd (.binary .scheffer l r) (.neg (conj l r))
  | negAndToScheffer (l r : Formula) :
      Turns .negAndToScheffer (.neg (.binary .and l r)) (.binary .scheffer l r)
  | negToScheffer (f : Formula) : Turns .negToScheffer (.neg f) (.binary .scheffer f f)
  | negOrToNor (l r : Formula) : Turns .negOrToNor (.neg (.binary .or l r)) (.nor l [r])
  | negToNor (f : Formula) : Turns .negToNor (.neg f) (.nor f [])

theorem turns_of_expand {op : BinaryOp} {l r g : Formula} {law : Law}
    (h : expand l r op = (law, g)) : law.Turns (.binary op l r) g := by
  cases op <;> cases h <;> constructor

theorem turns_of_absorb {b : Basis} {f g : Formula} {law : Law}
    (h : absorb b f = some (law, g)) : law.Turns (.neg f) g := by
  unfold absorb at h
  split at h <;> cases h <;> constructor

theorem turns_of_reduce {b : Basis} {f g : Formula} {law : Law}
    (h : reduce? b f = some (law, g)) : law.Turns f g := by
  unfold reduce? at h
  split at h
  · cases h
  · split at h
    · cases h
    · exact turns_of_absorb h
    · exact turns_of_expand (Option.some.inj h)
    · cases h
      exact .norToOr _ _

end Law

namespace Formula

section
variable {b : Basis} {f g : Formula}

/-- What restricting the first formula restricts next on its way. -/
inductive Calls (b : Basis) : Formula → Formula → Prop
  | law {f g : Formula} {law : Law} : Law.reduce? b f = some (law, g) → Calls b f g
  | operand {f g : Formula} : Law.reduce? b f = none → g ∈ f.children → Calls b f g

theorem Calls.weight_lt (h : Calls b f g) : g.weight b < f.weight b := by
  cases h with
  | law reduced => exact Law.weight_reduce_lt reduced
  | operand irreducible child => exact weight_child_lt irreducible child

theorem restrict_of_allows (h : b.allows f.kind = true) :
    f.restrict b = f.mapOperands (restrict b) := by
  cases f with
  | atom name => exact restrict_atom name
  | neg f => exact restrict_neg h
  | binary op l r => exact restrict_binary h
  | nor f fs => exact restrict_nor h

/-- Induction along the calls: a law hands the property back from the formula it gives, and a
connective that stays takes it over from its operands. -/
theorem restrict_induction {motive : Formula → Prop}
    (law : ∀ f law g, Law.reduce? b f = some (law, g) → motive g → motive f)
    (stay : ∀ f, b.allows f.kind = true → (∀ g ∈ f.children, motive g) → motive f)
    (f : Formula) : motive f := by
  induction hw : f.weight b using Nat.strongRecOn generalizing f with
  | ind w ih =>
    have calls : ∀ g, Calls b f g → motive g := fun g hg => ih _ (hw ▸ hg.weight_lt) g rfl
    cases reduced : Law.reduce? b f with
    | some next => exact law f next.1 next.2 reduced (calls next.2 (.law reduced))
    | none =>
      apply stay f (Law.reduce?_eq_none_iff.mp reduced)
      intro g hg
      exact calls g (.operand reduced hg)

end

end Formula

end Propositional
