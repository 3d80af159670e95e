import Mathlib.Logic.Relation
import Propositional.Proofs.Restriction.Recursion

/-!
# Restriction conforms to the basis

A formula conforms to a basis when the basis allows each of its connectives. What a law gives need
not conform, but restriction goes on with it; a connective stays only where it is allowed and above
operands that are restricted in turn. So the restricted formula conforms.

Below a negation that the basis forbids there is always a law to go on with. In particular no
forbidden negation is ever left in place.
-/

namespace Propositional

namespace Formula

/-- Every connective in the formula is one of the basis. -/
def Conforms (b : Basis) (f : Formula) : Prop :=
  ∀ g ∈ f.parts, b.allows g.kind = true

theorem conforms_iff {b : Basis} {f : Formula} :
    f.Conforms b ↔ b.allows f.kind = true ∧ ∀ g ∈ f.children, g.Conforms b :=
  forall_mem_parts

theorem conforms_restrict (b : Basis) (f : Formula) : (f.restrict b).Conforms b := by
  induction f using restrict_induction (b := b) with
  | law f law g reduced ih =>
    rw [restrict_of_reduce reduced]
    exact ih
  | stay f allowed ih =>
    rw [restrict_of_allows allowed, conforms_iff, kind_mapOperands, children_mapOperands]
    exact ⟨allowed, List.forall_mem_map.mpr ih⟩

end Formula

namespace Basis

theorem kind_of_allows_nor {kind : Kind} (h : nor.allows kind = true) :
    kind = .atom ∨ kind = .nor := by
  cases kind <;> simp [allows] at h ⊢

theorem kind_of_allows_scheffer {kind : Kind} (h : scheffer.allows kind = true) :
    kind = .atom ∨ kind = .binary .scheffer := by
  cases kind <;> simp_all [allows]

end Basis

namespace Formula

/-- **Restriction conforms to the basis.** Every part of the restricted formula has a kind that the
basis allows; in the bases with a single connective there is nothing else but atoms. Wherever the
recursion comes to a negation, the basis allows it or a law goes on with it, so no forbidden
negation is left in place. -/
theorem restrict_uses_basis (b : Basis) (f : Formula) :
    (∀ g ∈ (f.restrict b).parts, b.allows g.kind = true) ∧
      (∀ g ∈ (f.restrict .nor).parts, g.kind = .atom ∨ g.kind = .nor) ∧
      (∀ g ∈ (f.restrict .scheffer).parts, g.kind = .atom ∨ g.kind = .binary .scheffer) ∧
      ∀ operand, Relation.ReflTransGen (Calls b) f (.neg operand) →
        b.allows .neg = true ∨ ∃ law g, Law.reduce? b (.neg operand) = some (law, g) := by
  refine ⟨conforms_restrict b f, fun g hg => ?_, fun g hg => ?_, fun operand _ => ?_⟩
  · exact Basis.kind_of_allows_nor (conforms_restrict .nor f g hg)
  · exact Basis.kind_of_allows_scheffer (conforms_restrict .scheffer f g hg)
  · cases reduced : Law.reduce? b (.neg operand) with
    | none => exact .inl (Law.reduce?_eq_none_iff.mp reduced)
    | some next => exact .inr ⟨next.1, next.2, rfl⟩

/-- A negated conjunction in the bases with a single connective. In that of joint denial the third
call meets a negation that was not in the formula. -/
theorem restrict_uses_basis_neg_conj :
    let a := atom "a"
    let b := atom "b"
    let f := neg (conj a b)
    let operand := disj (neg a) (neg b)
    (nor b [] ∈ (f.restrict .nor).parts ∧ Basis.nor.allows (nor b []).kind = true ∧
      ((nor b []).kind = .atom ∨ (nor b []).kind = .nor)) ∧
    (binary .scheffer a b ∈ (f.restrict .scheffer).parts ∧
      ((binary .scheffer a b).kind = .atom ∨
        (binary .scheffer a b).kind = .binary .scheffer)) ∧
    Relation.ReflTransGen (Calls .nor) f (.neg operand) ∧
      (Basis.nor.allows .neg = true ∨
        ∃ law g, Law.reduce? .nor (.neg operand) = some (law, g)) := by
  intro a b f operand
  obtain ⟨uses, usesNor, usesScheffer, goesOn⟩ := restrict_uses_basis .nor f
  have inNor : nor b [] ∈ (f.restrict .nor).parts := by
    have result : f.restrict .nor = nor (nor (nor a []) [nor b []]) [] := by cbv
    simp [result, parts]
  have inScheffer : binary .scheffer a b ∈ (f.restrict .scheffer).parts := by
    have result : f.restrict .scheffer = binary .scheffer a b := by cbv
    simp [result, parts]
  have called : Relation.ReflTransGen (Calls .nor) f (.neg operand) :=
    .tail (.tail (.single (.law rfl)) (.operand rfl List.mem_cons_self)) (.law rfl)
  exact ⟨⟨inNor, uses _ inNor, usesNor _ inNor⟩, ⟨inScheffer, usesScheffer _ inScheffer⟩, called,
    goesOn operand called⟩

end Formula

end Propositional
