import Mathlib.Data.List.Dedup
import Propositional.Proofs.Enumeration
import Propositional.TruthTable

/-!
# The rows of a truth table

A truth table has one row for each interpretation of the variables in their order, with the truth
value of the formula; that there may be too many is the only thing that prevents it. So two formulas
with the same variables and the same truth values have the same rows.

`Tabulates` says what that means without numbering the interpretations: the cells of the variables
increase from row to row, every choice of them occurs once, and read with the header they are an
interpretation that gives the formula the value at the end of the row.
-/

namespace Propositional

namespace TruthTable

open Interpretation (ofNumber)

variable {f g : Formula}

/-- The row of an interpretation that gives every name of the formula a value. -/
def rowOf (f : Formula) (i : Interpretation) : Row :=
  ⟨i.entries.map Prod.snd, f.holds i.value⟩

theorem ofInterpretation_eq_ok {i : Interpretation} (h : i.Assigns f.variableSet) :
    Row.ofInterpretation f i = .ok (rowOf f i) := by
  rw [Row.ofInterpretation, Formula.evaluate_of_assigns h]
  rfl

theorem ofFormula_eq (f : Formula) :
    ofFormula f =
      match Interpretation.all f.variableSet with
      | .error e => .error (.atomCount e)
      | .ok interpretations =>
        .ok ⟨f.variableSet.names ++ [f.render], interpretations.map (rowOf f)⟩ := by
  let vs := f.variableSet
  have rows : ((List.range vs.interpretationCount).mapM fun number =>
        Row.ofInterpretation f (ofNumber vs number)) =
      .ok ((List.range vs.interpretationCount).map (rowOf f ∘ ofNumber vs)) := by
    have pure : (fun number => Row.ofInterpretation f (ofNumber vs number)) =
        fun number => .ok ((rowOf f ∘ ofNumber vs) number) :=
      funext fun number => ofInterpretation_eq_ok (Interpretation.assigns_ofNumber vs number)
    rw [pure]
    exact List.mapM_pure
  rw [ofFormula, Interpretation.all_eq_map_checkCount f.size_variableSet_pos]
  cases f.variableSet.checkCount with
  | error e => rfl
  | ok =>
    simp only [vs] at rows
    simp only [rows, Except.map, List.map_map]

theorem header_of_ofFormula {table : TruthTable} (h : ofFormula f = .ok table) :
    table.header = f.variableSet.names ++ [f.render] := by
  rw [ofFormula_eq] at h
  split at h
  · cases h
  · cases h
    rfl

/-- Only the heading tells formulas apart that have the same variables and truth values. -/
theorem ofFormula_eq_map (names : g.variableSet = f.variableSet)
    (values : ∀ v, g.holds v = f.holds v) :
    ofFormula g =
      (ofFormula f).map fun table => { table with header := f.variableSet.names ++ [g.render] } := by
  have rows : rowOf g = rowOf f := by
    funext i
    rw [rowOf, rowOf, values]
  rw [ofFormula_eq, ofFormula_eq, names, rows]
  cases Interpretation.all f.variableSet <;> rfl

/-- A row for each choice of values for the variables, and the value of the formula for them. -/
structure Tabulates (table : TruthTable) (f : Formula) : Prop where
  header : ∃ names, table.header = names ++ [f.render] ∧ names.Pairwise (· < ·) ∧
    ∀ name, name ∈ names ↔ name ∈ f.leaves
  length_rows : table.rows.length = 2 ^ f.leaves.dedup.length
  cells : ∀ row ∈ table.rows, row.assignment.length = f.leaves.dedup.length
  ascending : (table.rows.map Row.assignment).Pairwise (· < ·)
  once : ∀ values : List Bool, values.length = f.leaves.dedup.length →
    (table.rows.map Row.assignment).count values = 1
  results : ∀ row ∈ table.rows,
    f.evaluate (.ofEntries (table.header.zip row.assignment)) = .ok row.result

section Tabulates

open Interpretation (assignments digits)

/-- The table of a formula with few enough variables. -/
def sheetOf (f : Formula) : TruthTable :=
  let vs := f.variableSet
  ⟨vs.names ++ [f.render], ((List.range vs.interpretationCount).map (ofNumber vs)).map (rowOf f)⟩

theorem ofFormula_eq_ok (h : f.variableSet.size ≤ 20) : ofFormula f = .ok (sheetOf f) := by
  rw [ofFormula_eq, Interpretation.all_eq_ok_iff.mpr ⟨h, rfl⟩]
  rfl

/-- Variables, truth values and text of the formula are all that its table shows. -/
theorem sheetOf_eq {names : List String} {value : (String → Bool) → Bool} {text : String}
    (leaves : f.leaves = names) (holds : ∀ v, f.holds v = value v) (render : f.render = text) :
    let vs := VariableSet.ofList names
    sheetOf f = ⟨vs.names ++ [text], ((List.range vs.interpretationCount).map (ofNumber vs)).map
      fun i => ⟨i.entries.map Prod.snd, value i.value⟩⟩ := by
  subst leaves render
  have rows : rowOf f = fun i => ⟨i.entries.map Prod.snd, value i.value⟩ :=
    funext fun i => congrArg (Row.mk _) (holds i.value)
  rw [sheetOf, rows]
  rfl

theorem size_variableSet (f : Formula) : f.variableSet.size = f.leaves.dedup.length := by
  apply List.Perm.length_eq
  rw [List.perm_ext_iff_of_nodup f.variableSet.nodup f.leaves.nodup_dedup]
  intro name
  rw [Formula.mem_variableSet, List.mem_dedup]

/-- The values in the rows are those of the assignments to the variables. -/
theorem map_assignment_sheetOf (f : Formula) :
    (sheetOf f).rows.map Row.assignment =
      (assignments f.variableSet.names).map (List.map Prod.snd) := by
  rw [← Interpretation.map_digits_range, sheetOf, List.map_map, List.map_map, List.map_map]
  rfl

theorem exists_of_mem_rows {row : Row} (h : row ∈ (sheetOf f).rows) :
    ∃ number, row = rowOf f (ofNumber f.variableSet number) := by
  obtain ⟨i, hi, rfl⟩ := List.mem_map.mp h
  obtain ⟨number, _, rfl⟩ := List.mem_map.mp hi
  exact ⟨number, rfl⟩

theorem length_assignment {row : Row} (h : row ∈ (sheetOf f).rows) :
    row.assignment.length = f.variableSet.size := by
  obtain ⟨number, rfl⟩ := exists_of_mem_rows h
  have names := Interpretation.map_fst_digits number f.variableSet.names
  rw [VariableSet.size, ← names, rowOf, Interpretation.entries_ofNumber, List.length_map,
    List.length_map]

/-- Read with the header, the cells of a row are the interpretation that it was made from. -/
theorem ofEntries_zip_header (f : Formula) (number : Nat) :
    Interpretation.ofEntries
        ((sheetOf f).header.zip (rowOf f (ofNumber f.variableSet number)).assignment) =
      ofNumber f.variableSet number := by
  let names := f.variableSet.names
  have fst : (digits number names).map Prod.fst = names := Interpretation.map_fst_digits number names
  have header : (sheetOf f).header = (digits number names).map Prod.fst ++ [f.render] := by
    rw [fst]
    rfl
  have cells : (rowOf f (ofNumber f.variableSet number)).assignment =
      (digits number names).map Prod.snd := rfl
  have zipped : (sheetOf f).header.zip (rowOf f (ofNumber f.variableSet number)).assignment =
      digits number names := by
    -- The last cell of the header is the formula, which the zip drops.
    rw [header, cells, ← List.append_nil (List.map Prod.snd _), List.zip_append (by simp),
      List.zip_nil_right, List.append_nil, List.zip_map']
    exact List.map_id _
  apply Interpretation.eq_of_entries
  rw [zipped, Interpretation.entries_ofNumber, Interpretation.entries_ofEntries]
  rw [fst]
  exact f.variableSet.nodup

theorem tabulates_sheetOf (f : Formula) : (sheetOf f).Tabulates f where
  header := ⟨f.variableSet.names, rfl, f.variableSet.ascending, fun _ => Formula.mem_variableSet⟩
  length_rows := by
    rw [← size_variableSet, ← Nat.one_shiftLeft, sheetOf, List.length_map, List.length_map,
      List.length_range, VariableSet.interpretationCount]
  cells row hrow := by rw [length_assignment hrow, size_variableSet]
  ascending := by
    rw [map_assignment_sheetOf, List.pairwise_map]
    exact Interpretation.pairwise_lt_assignments _
  once values hvalues := by
    have mem : values ∈ (sheetOf f).rows.map Row.assignment := by
      rw [← size_variableSet, VariableSet.size] at hvalues
      rw [map_assignment_sheetOf, List.mem_map]
      refine ⟨_, Interpretation.zip_mem_assignments hvalues, ?_⟩
      exact List.map_snd_zip (Nat.le_of_eq hvalues)
    apply List.count_eq_one_of_mem _ mem
    rw [map_assignment_sheetOf, List.Nodup, List.pairwise_map]
    exact (Interpretation.pairwise_lt_assignments _).imp fun h => ne_of_lt h
  results row hrow := by
    obtain ⟨number, rfl⟩ := exists_of_mem_rows hrow
    rw [ofEntries_zip_header, Formula.evaluate_of_assigns (Interpretation.assigns_ofNumber _ number)]
    rfl

end Tabulates

/-- **A truth table is complete and aligned.** It is refused above twenty distinct variables, and for
no other reason. Else it has the variables in the order of their code points and then the formula as
its header, and its rows go through all values of the variables in ascending order, each with the
value of the formula for them. -/
theorem ofFormula_is_complete (f : Formula) :
    let k := f.leaves.dedup.length
    (∀ e, ofFormula f = .error e ↔ k > 20 ∧ e = .atomCount (.tooManyAtoms k 20)) ∧
      (k ≤ 20 → ∃ table, ofFormula f = .ok table ∧ table.Tabulates f) := by
  intro k
  have size : f.variableSet.size = k := size_variableSet f
  by_cases few : k ≤ 20
  · have table : ofFormula f = .ok (sheetOf f) := ofFormula_eq_ok (size ▸ few)
    refine ⟨fun e => ?_, fun _ => ⟨_, table, tabulates_sheetOf f⟩⟩
    have notMany : ¬ k > 20 := by omega
    rw [table]
    simp [notMany]
  · have many : f.variableSet.size > Interpretation.maxVariables := by
      rw [size, Interpretation.maxVariables]
      omega
    refine ⟨fun e => ?_, fun h => absurd h few⟩
    rw [ofFormula_eq, Interpretation.all_eq_error_iff.mpr ⟨many, rfl⟩, size]
    have isMany : k > 20 := by omega
    simp [isMany, Interpretation.maxVariables, eq_comm]

/-- The variables of a joint denial stand in their own order, not in that of the operands. -/
theorem ofFormula_is_complete_nor :
    let f : Formula := .nor (.atom "b") [.neg (.atom "a"), .atom "b"]
    let table : TruthTable := ⟨["a", "b", "N(b, ¬a, b)"],
      [⟨[false, false], false⟩, ⟨[false, true], false⟩, ⟨[true, false], true⟩,
        ⟨[true, true], false⟩]⟩
    f.leaves.dedup.length ≤ 20 ∧ ofFormula f = .ok table ∧ table.Tabulates f := by
  intro f table
  have leaves : f.leaves = ["b", "a", "b"] := by simp [f, Formula.leaves]
  have holds (v) : f.holds v = (!v "b" && [!v "a", v "b"].all (!·)) := by simp [f, Formula.holds]
  have render : f.render = "N(b, ¬a, b)" := by
    simp only [f, Formula.render, List.map_cons, List.map_nil]
    rfl
  have few : f.leaves.dedup.length ≤ 20 := by
    rw [leaves]
    decide
  have computed : ofFormula f = .ok table := by
    rw [ofFormula_eq_ok (size_variableSet f ▸ few), sheetOf_eq leaves holds render]
    rfl
  obtain ⟨table', found, tabulates⟩ := (ofFormula_is_complete f).2 few
  cases computed.symm.trans found
  exact ⟨few, computed, tabulates⟩

end TruthTable

end Propositional
