import Propositional.Proofs.Restriction.Conformance

/-!
# The fixed points of restriction

Where the basis allows a connective, restriction puts it back above its operands as it found it: no
negation is collapsed and no joint denial regrouped. So a conforming formula is left alone, and since
what restriction gives conforms, no other formula is. Restricting once more changes nothing.
-/

namespace Propositional

namespace Formula

variable {b : Basis} {f : Formula}

theorem restrict_eq_self (h : f.Conforms b) : f.restrict b = f := by
  induction f using restrict_induction (b := b) with
  | law f law g reduced _ =>
    -- A law applies only to a connective that the basis forbids.
    have irreducible : Law.reduce? b f = none := Law.reduce?_eq_none_iff.mpr (conforms_iff.mp h).1
    rw [irreducible] at reduced
    cases reduced
  | stay f allowed ih =>
    rw [restrict_of_allows allowed]
    apply mapOperands_eq_self
    intro g hg
    exact ih g hg ((conforms_iff.mp h).2 g hg)

theorem restrict_eq_self_iff : f.restrict b = f ↔ f.Conforms b := by
  refine ⟨fun same => ?_, restrict_eq_self⟩
  rw [← same]
  exact conforms_restrict b f

theorem restrict_restrict (b : Basis) (f : Formula) : (f.restrict b).restrict b = f.restrict b :=
  restrict_eq_self (conforms_restrict b f)

theorem conforms_all (f : Formula) : f.Conforms .all := by
  intro g _
  cases g <;> rfl

/-- **The fixed points of restriction are exactly the conforming formulas.** Restriction leaves a
formula as it is if and only if the basis allows every connective in it; so what it gives it leaves
as it is. -/
theorem restrict_fixes_conforming (b : Basis) (f : Formula) :
    (f.restrict b = f ↔ f.Conforms b) ∧ (f.restrict b).restrict b = f.restrict b :=
  ⟨restrict_eq_self_iff, restrict_restrict b f⟩

/-- A double negation stays where negations are allowed. -/
example : (neg (neg (atom "a"))).restrict .noOr = neg (neg (atom "a")) := by cbv

end Formula

end Propositional
