import Propositional.Proofs.Restriction.Meaning
import Propositional.Proofs.TruthTable

/-!
# Valid and satisfiable

A truth table has finitely many rows, and there are infinitely many interpretations that give the
variables values and other names too. A truth value is in the last column exactly if the formula has
it under one of all these (`exists_result_iff`), as only the variables count and the rows go through
all their values. So a table is satisfiable if its formula is true under some interpretation, and it
is valid if the formula is not false under any.
-/

namespace Propositional

namespace TruthTable

variable {f : Formula} {value : Bool}

/-- A value that the formula takes somewhere stands in a row. -/
theorem exists_result_iff :
    (∃ row ∈ (sheetOf f).rows, row.result = value) ↔
      ∃ i : Interpretation, i.Assigns f.variableSet ∧ f.evaluate i = .ok value := by
  constructor
  · rintro ⟨row, hrow, rfl⟩
    obtain ⟨number, rfl⟩ := exists_of_mem_rows hrow
    have assigned := Interpretation.assigns_ofNumber f.variableSet number
    exact ⟨_, assigned, Formula.evaluate_of_assigns assigned⟩
  · rintro ⟨i, assigned, computed⟩
    obtain ⟨_, rfl⟩ := Formula.evaluate_eq_ok_iff.mp computed
    obtain ⟨number, hnumber, values⟩ := Interpretation.exists_ofNumber f.variableSet i.value
    have listed : rowOf f (.ofNumber f.variableSet number) ∈ (sheetOf f).rows :=
      List.mem_map_of_mem (List.mem_map_of_mem (List.mem_range.mpr hnumber))
    refine ⟨_, listed, ?_⟩
    exact Formula.holds_congr fun name hname => values name (Formula.mem_variableSet.mpr hname)

theorem isSatisfiable_sheetOf_iff :
    (sheetOf f).isSatisfiable = true ↔
      ∃ i : Interpretation, i.Assigns f.variableSet ∧ f.evaluate i = .ok true := by
  rw [isSatisfiable, List.any_eq_true]
  exact exists_result_iff

theorem isValid_sheetOf_eq_false_iff :
    (sheetOf f).isValid = false ↔
      ∃ i : Interpretation, i.Assigns f.variableSet ∧ f.evaluate i = .ok false := by
  rw [isValid, List.all_eq_false]
  simp only [Bool.not_eq_true]
  exact exists_result_iff

theorem isValid_sheetOf_iff :
    (sheetOf f).isValid = true ↔
      ∀ i : Interpretation, i.Assigns f.variableSet → f.evaluate i = .ok true := by
  rw [← Bool.not_eq_false, isValid_sheetOf_eq_false_iff, not_exists]
  simp only [not_and]
  refine forall₂_congr fun i assigned => ?_
  rw [Formula.evaluate_of_assigns assigned]
  cases f.holds i.value <;> simp

theorem isSatisfiable_sheetOf_neg : (sheetOf (.neg f)).isSatisfiable = !(sheetOf f).isValid := by
  rw [Bool.eq_iff_iff, Bool.not_eq_true', isSatisfiable_sheetOf_iff, isValid_sheetOf_eq_false_iff]
  simp only [Formula.evaluate_eq_ok_iff, Formula.variableSet_neg, Formula.holds, Bool.not_eq_true']

/-- **The attributes speak of all interpretations.** The table of a formula with at most twenty
variables is valid if and only if the formula is true under every interpretation of its variables,
whatever else that assigns, and satisfiable if and only if it is true under one. So it is valid
exactly if the table of the negation is not satisfiable, and no restriction changes the attributes. -/
theorem attributes_mean (f : Formula) (few : f.variableSet.size ≤ 20) :
    ∃ table, ofFormula f = .ok table ∧
      (table.isValid = true ↔
        ∀ i : Interpretation, i.Assigns f.variableSet → f.evaluate i = .ok true) ∧
      (table.isSatisfiable = true ↔
        ∃ i : Interpretation, i.Assigns f.variableSet ∧ f.evaluate i = .ok true) ∧
      (∃ negated, ofFormula (.neg f) = .ok negated ∧
        (table.isValid = true ↔ negated.isSatisfiable = false)) ∧
      ∀ b, ∃ restricted, ofFormula (f.restrict b) = .ok restricted ∧
        restricted.isValid = table.isValid ∧ restricted.isSatisfiable = table.isSatisfiable := by
  have table : ofFormula f = .ok (sheetOf f) := ofFormula_eq_ok few
  refine ⟨_, table, isValid_sheetOf_iff, isSatisfiable_sheetOf_iff, ?_, fun b => ?_⟩
  · have negated : ofFormula (.neg f) = .ok (sheetOf (.neg f)) :=
      ofFormula_eq_ok (f.variableSet_neg ▸ few)
    refine ⟨_, negated, ?_⟩
    rw [isSatisfiable_sheetOf_neg, Bool.not_eq_false']
  · have restricted := ofFormula_eq_map (f.variableSet_restrict b) (f.holds_restrict b)
    rw [table] at restricted
    exact ⟨_, restricted, rfl, rfl⟩

/-- A formula that is true in all four rows, without `b` deciding anything. -/
theorem attributes_mean_impl :
    let f : Formula := .binary .impl (.binary .and (.atom "a") (.atom "b")) (.atom "a")
    f.variableSet.size ≤ 20 ∧
      (∀ i : Interpretation, i.Assigns f.variableSet → f.evaluate i = .ok true) ∧
      (∃ negated, ofFormula (.neg f) = .ok negated ∧ negated.isSatisfiable = false) ∧
      ∃ restricted, ofFormula (f.restrict .nor) = .ok restricted ∧ restricted.isValid = true := by
  intro f
  have leaves : f.leaves = ["a", "b", "a"] := by simp [f, Formula.leaves]
  have holds (v) : f.holds v = BinaryOp.impl.apply (v "a" && v "b") (v "a") := by
    simp only [f, Formula.holds]
    rfl
  have render : f.render = "((a ∧ b) → a)" := by
    simp only [f, Formula.render]
    rfl
  have few : f.variableSet.size ≤ 20 := by
    rw [Formula.variableSet, leaves]
    decide
  have computed : ofFormula f = .ok ⟨["a", "b", "((a ∧ b) → a)"], [⟨[false, false], true⟩,
      ⟨[false, true], true⟩, ⟨[true, false], true⟩, ⟨[true, true], true⟩]⟩ := by
    rw [ofFormula_eq_ok few, sheetOf_eq leaves holds render]
    rfl
  obtain ⟨table, found, valid, _, ⟨negated, tabulated, unsatisfiable⟩, restrictions⟩ :=
    attributes_mean f few
  cases computed.symm.trans found
  obtain ⟨restricted, retabulated, same, _⟩ := restrictions .nor
  exact ⟨few, valid.mp rfl, ⟨negated, tabulated, unsatisfiable.mp rfl⟩,
    restricted, retabulated, same.trans rfl⟩

end TruthTable

end Propositional
