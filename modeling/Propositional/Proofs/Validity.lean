import Propositional.Proofs.Equivalence
import Propositional.Proofs.TruthTable

/-!
# Validity

A truth table is valid when the formula is true in every row. The rows stand for the interpretations
of the variables, which the check for equivalence goes through as well, and two formulas differ under
an interpretation exactly if it makes their equivalence false. So it is the same to check two formulas
and to tabulate their equivalence: both enumerate the variables of the two formulas together, and
both are refused if these are too many.
-/

namespace Propositional

namespace TruthTable

/-- The table is valid if the formula is true under all interpretations that it stands for. -/
theorem map_isValid_ofFormula (f : Formula) :
    (ofFormula f).map isValid =
      match Interpretation.all f.variableSet with
      | .error e => .error (.atomCount e)
      | .ok interpretations => .ok (interpretations.all fun i => f.holds i.value) := by
  rw [ofFormula_eq]
  cases Interpretation.all f.variableSet with
  | error e => rfl
  | ok interpretations =>
    simp only [Except.map, isValid, List.all_map]
    rfl

end TruthTable

namespace Formula

theorem variableSet_binary (op : BinaryOp) (l r : Formula) :
    (binary op l r).variableSet = l.variableSet.union r.variableSet := by
  apply VariableSet.eq_of_mem_iff
  intro name
  rw [mem_variableSet, leaves, List.mem_append, VariableSet.mem_union, mem_variableSet,
    mem_variableSet]

theorem differs_eq_not_holds (l r : Formula) (i : Interpretation) :
    l.differs r i = !(binary .equiv l r).holds i.value := by
  rw [holds, BinaryOp.apply, differs, bne]

theorem isNone_find?_differs (l r : Formula) (interpretations : List Interpretation) :
    (interpretations.find? (l.differs r)).isNone =
      interpretations.all fun i => (binary .equiv l r).holds i.value := by
  induction interpretations with
  | nil => rfl
  | cons i rest ih =>
    rw [List.find?_cons, List.all_cons, ← ih, differs_eq_not_holds]
    cases (binary .equiv l r).holds i.value <;> rfl

/-- **Checking two formulas is tabulating their equivalence.** For all formulas the check gives what
the truth table of the equivalence says about validity, and it is refused with the same error. -/
theorem equivalent_is_validity (l r : Formula) :
    l.equivalent r = (TruthTable.ofFormula (binary .equiv l r)).map TruthTable.isValid := by
  rw [TruthTable.map_isValid_ofFormula, variableSet_binary]
  cases all : Interpretation.all (l.variableSet.union r.variableSet) with
  | error e => exact equivalent_of_all_error all
  | ok interpretations =>
    simp only [← isNone_find?_differs]
    exact equivalent_of_all_ok all

end Formula

end Propositional
