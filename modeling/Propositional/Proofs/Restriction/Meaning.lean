import Propositional.Proofs.Restriction.Recursion
import Propositional.Proofs.Variables

/-!
# Restriction keeps the meaning

A law keeps the truth value under every valuation, and it keeps the order in which the names come
first, although it repeats operands and swaps them. Along the recursion both hold of the restricted
formula, so it has the value of the formula, or lacks the same name, under every interpretation.

"The first name with a property" stands for the order here: for every property, the formula and what
a law makes of it have the same first such name.
-/

namespace Propositional

namespace Formula

theorem leaves_disjunction (f : Formula) (fs : List Formula) :
    (disjunction f fs).leaves = f.leaves ++ fs.flatMap leaves := by
  induction fs generalizing f with
  | nil => simp [disjunction]
  | cons g gs ih =>
    simp only [disjunction, List.foldl_cons] at ih ⊢
    rw [ih, disj, leaves, List.flatMap_cons, List.append_assoc]

theorem holds_disjunction (v : String → Bool) (f : Formula) (fs : List Formula) :
    (disjunction f fs).holds v = (f.holds v || fs.any (holds v)) := by
  induction fs generalizing f with
  | nil => simp [disjunction]
  | cons g gs ih =>
    simp only [disjunction, List.foldl_cons] at ih ⊢
    rw [ih, disj, holds, List.any_cons, ← Bool.or_assoc]
    rfl

end Formula

namespace Law

open Formula

variable {law : Law} {f g : Formula}

/-- A law keeps the first name with a property. -/
theorem Turns.find?_leaves (h : law.Turns f g) (p : String → Bool) :
    g.leaves.find? p = f.leaves.find? p := by
  cases h with
  | equivToImpls l r =>
    -- The operands come a second time in the other order, behind both of them.
    simp only [conj, impl, leaves, List.find?_append]
    cases l.leaves.find? p <;> cases r.leaves.find? p <;> rfl
  | norToOr f fs => rw [leaves, leaves_disjunction, leaves]
  | _ => simp [conj, disj, leaves, List.find?_append]

/-- A law keeps the truth value. -/
theorem Turns.holds (h : law.Turns f g) (v : String → Bool) : g.holds v = f.holds v := by
  cases h with
  | norToOr f fs =>
    rw [Formula.holds, holds_disjunction, Formula.holds, Bool.not_or, List.all_map,
      List.not_any_eq_all_not]
    rfl
  | implToOr l r | schefferToAnd l r | negAndToScheffer l r =>
    simp only [conj, disj, Formula.holds, BinaryOp.apply]
  | negToScheffer f | negToNor f => simp [Formula.holds, BinaryOp.apply]
  | equivToImpls l r | andToOr l r | orToAnd l r | negOrToNor l r =>
    simp only [conj, disj, impl, Formula.holds, BinaryOp.apply, List.map]
    cases l.holds v <;> cases r.holds v <;> rfl

end Law

namespace Formula

theorem find?_flatMap_leaves {change : Formula → Formula} {fs : List Formula} {p : String → Bool}
    (h : ∀ g ∈ fs, (change g).leaves.find? p = g.leaves.find? p) :
    ((fs.map change).flatMap leaves).find? p = (fs.flatMap leaves).find? p := by
  induction fs with
  | nil => rfl
  | cons f fs ih =>
    rw [List.map_cons, List.flatMap_cons, List.flatMap_cons, List.find?_append, List.find?_append,
      h f List.mem_cons_self, ih fun g hg => h g (List.mem_cons_of_mem f hg)]

theorem find?_leaves_mapOperands {change : Formula → Formula} {f : Formula} {p : String → Bool}
    (h : ∀ g ∈ f.children, (change g).leaves.find? p = g.leaves.find? p) :
    (f.mapOperands change).leaves.find? p = f.leaves.find? p := by
  cases f with
  | atom name => rfl
  | neg f =>
    rw [mapOperands, leaves, leaves]
    exact h f List.mem_cons_self
  | binary op l r =>
    have hl := h l (by simp [children])
    have hr := h r (by simp [children])
    simp only [mapOperands, leaves, List.find?_append, hl, hr]
  | nor f fs =>
    have hf := h f List.mem_cons_self
    have hfs : ((fs.map change).flatMap leaves).find? p = (fs.flatMap leaves).find? p :=
      find?_flatMap_leaves fun g hg => h g (List.mem_cons_of_mem f hg)
    simp only [mapOperands, leaves, List.find?_append, hf, hfs]

theorem holds_mapOperands {change : Formula → Formula} {f : Formula} {v : String → Bool}
    (h : ∀ g ∈ f.children, (change g).holds v = g.holds v) :
    (f.mapOperands change).holds v = f.holds v := by
  cases f with
  | atom name => rfl
  | neg f => rw [mapOperands, holds, holds, h f List.mem_cons_self]
  | binary op l r =>
    have hl := h l (by simp [children])
    have hr := h r (by simp [children])
    rw [mapOperands, holds, holds, hl, hr]
  | nor f fs =>
    have hf := h f List.mem_cons_self
    have hfs : fs.map (holds v ∘ change) = fs.map (holds v) :=
      List.map_congr_left fun g hg => h g (List.mem_cons_of_mem f hg)
    rw [mapOperands, holds, holds, hf, List.map_map, hfs]

/-- The names come first in the same order in the restricted formula. -/
theorem find?_leaves_restrict (b : Basis) (f : Formula) (p : String → Bool) :
    (f.restrict b).leaves.find? p = f.leaves.find? p := by
  induction f using restrict_induction (b := b) with
  | law f law g reduced ih =>
    rw [restrict_of_reduce reduced, ih]
    exact (Law.turns_of_reduce reduced).find?_leaves p
  | stay f allowed ih =>
    rw [restrict_of_allows allowed]
    exact find?_leaves_mapOperands ih

theorem mem_leaves_restrict {b : Basis} {f : Formula} {name : String} :
    name ∈ (f.restrict b).leaves ↔ name ∈ f.leaves := by
  have isSome (names : List String) : (names.find? (· == name)).isSome ↔ name ∈ names := by
    simp
  rw [← isSome, ← isSome, find?_leaves_restrict]

/-- Restriction neither adds variables nor loses any. -/
theorem variableSet_restrict (b : Basis) (f : Formula) :
    (f.restrict b).variableSet = f.variableSet := by
  apply VariableSet.eq_of_mem_iff
  intro name
  rw [mem_variableSet, mem_variableSet, mem_leaves_restrict]

theorem holds_restrict (b : Basis) (f : Formula) (v : String → Bool) :
    (f.restrict b).holds v = f.holds v := by
  induction f using restrict_induction (b := b) with
  | law f law g reduced ih =>
    rw [restrict_of_reduce reduced, ih]
    exact (Law.turns_of_reduce reduced).holds v
  | stay f allowed ih =>
    rw [restrict_of_allows allowed]
    exact holds_mapOperands ih

theorem evaluate_restrict (b : Basis) (f : Formula) (i : Interpretation) :
    (f.restrict b).evaluate i = f.evaluate i := by
  rw [evaluate_eq_outcome, evaluate_eq_outcome, find?_leaves_restrict, holds_restrict]

/-- **Restriction keeps the meaning.** Under every interpretation the restricted formula has the
value of the formula or reports the same missing name: the first one among the leaves of the
formula, which is also the first one among the leaves of the restricted formula. -/
theorem restrict_keeps_outcome (b : Basis) (f : Formula) (i : Interpretation) :
    (f.restrict b).evaluate i = f.evaluate i ∧
      (∀ name, f.evaluate i = .error ⟨name⟩ ↔ f.leaves.find? i.lacks = some name) ∧
      (f.restrict b).leaves.find? i.lacks = f.leaves.find? i.lacks := by
  refine ⟨evaluate_restrict b f i, fun name => ?_, find?_leaves_restrict b f i.lacks⟩
  rw [evaluate_eq_outcome]
  exact outcome_eq_error_iff

end Formula

end Propositional
