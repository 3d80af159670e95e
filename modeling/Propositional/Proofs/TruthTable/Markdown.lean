import Propositional.Proofs.Marks
import Propositional.Proofs.Reports

/-!
# Truth tables in Markdown

The text of a truth table and the fields of its report are written apart from each other. `cells?`
reads a line of the text, and line by line the header and the rows come back.

That rests on the cells: none of them holds a bar or a line break. The letters and the rule are
harmless, and a formula that was read has names of letters and digits only, between which nothing but
glyphs, parentheses, commas and blanks is printed. A bar is a way to write a disjunction, but it is
never printed.
-/

namespace Propositional

/-- The characters at which a line may end. -/
def lineBreaks : List Char :=
  ['\n', '\x0b', '\x0c', '\r', '\u0085', '\u2028', '\u2029']

namespace TruthTable

/-- The cells of a line that has a bar before the first of them and behind each. -/
def cells? (line : String) : Option (List String) :=
  match line.toList with
  | '|' :: cells => parts? '|' (String.ofList cells)
  | _ => none

/-- A text that does not interfere with the bars and the lines of a table. -/
def IsCell (cell : String) : Prop :=
  ∀ c ∈ cell.toList, c ≠ '|' ∧ c ∉ lineBreaks

/-- The cells between bars, without the end of the line. -/
def barredLine (cells : List String) : String :=
  String.join (cells.map ("|" ++ ·)) ++ "|"

theorem barred_eq (cells : List String) : barred cells = barredLine cells ++ "\n" := by
  rw [barred, barredLine, String.append_assoc]
  rfl

theorem toList_barredLine (cells : List String) :
    (barredLine cells).toList = '|' :: cells.flatMap fun cell => cell.toList ++ ['|'] := by
  induction cells with
  | nil => rfl
  | cons cell cells ih =>
    rw [barredLine, String.toList_append] at ih
    rw [barredLine, List.map_cons, String.join_cons, String.append_assoc, String.toList_append,
      String.toList_append, String.toList_append, ih, List.flatMap_cons]
    simp

theorem getLast?_barredLine (cells : List String) : (barredLine cells).toList.getLast? = some '|' := by
  rw [barredLine, String.toList_append]
  exact List.getLast?_concat

section Lines

variable {cells : List String} {table : List (List String)}

theorem cells?_barredLine (h : ∀ cell ∈ cells, IsCell cell) :
    cells? (barredLine cells) = some cells := by
  have free : ∀ cell ∈ cells, '|' ∉ cell.toList := by
    intro cell hcell bar
    exact (h cell hcell '|' bar).1 rfl
  rw [cells?, toList_barredLine]
  exact parts?_eq_some_iff.mpr ⟨free, String.toList_ofList⟩

theorem newline_notMem_barredLine (h : ∀ cell ∈ cells, IsCell cell) :
    '\n' ∉ (barredLine cells).toList := by
  intro newline
  rw [toList_barredLine, List.mem_cons, List.mem_flatMap] at newline
  obtain bar | ⟨cell, hcell, newline⟩ := newline
  · exact absurd bar (by decide)
  · rw [List.mem_append, List.mem_singleton] at newline
    obtain newline | bar := newline
    · exact (h cell hcell '\n' newline).2 (by decide)
    · exact absurd bar (by decide)

/-- A table of such cells is read back from its lines. -/
theorem parts?_join_barred (h : ∀ cells ∈ table, ∀ cell ∈ cells, IsCell cell) :
    parts? '\n' (String.join (table.map barred)) = some (table.map barredLine) ∧
      (table.map barredLine).map cells? = table.map some := by
  constructor
  · have text : table.map barred = (table.map barredLine).map (· ++ "\n") := by
      rw [List.map_map]
      exact List.map_congr_left fun cells _ => barred_eq cells
    rw [text]
    apply parts?_newline
    rw [List.forall_mem_map]
    intro cells hcells
    exact newline_notMem_barredLine (h cells hcells)
  · rw [List.map_map]
    exact List.map_congr_left fun cells hcells => cells?_barredLine (h cells hcells)

end Lines

section Cells

variable {f : Formula}

theorem isCell_of_isName {name : String} (h : IsName name) : IsCell name := by
  intro c hc
  have letter : c.isAlphanum = true := h.2 c hc
  constructor
  · rintro rfl
    cases letter
  · intro ends
    have noLetters : ∀ c ∈ lineBreaks, c.isAlphanum = false := by
      simp [lineBreaks]
    rw [noLetters c ends] at letter
    cases letter

theorem isCell_render (h : f.Spellable) : IsCell f.render := by
  apply Formula.forall_mem_render
  · intro name hname
    exact isCell_of_isName (h name hname)
  · simp [lineBreaks]

theorem isCell_rule : IsCell ":-:" := by
  simp [IsCell, lineBreaks]

theorem isCell_truthLetter (value : Bool) : IsCell (truthLetter value) := by
  cases value <;> exact isCell_of_isName (by decide)

theorem truthLetter_eq_T_iff {value : Bool} : truthLetter value = "T" ↔ value = true := by
  cases value <;> decide

/-- The lines of the table as lists of cells: the header, the rule, the rows. -/
def grid (table : TruthTable) : List (List String) :=
  table.header :: (table.header.map fun _ => ":-:") :: table.rows.map Row.letters

theorem markdown_eq_join (table : TruthTable) :
    table.markdown = String.join (table.grid.map barred) := by
  rw [markdown, grid, List.map_cons, List.map_cons, String.join_cons, String.join_cons,
    String.append_assoc, List.map_map]
  rfl

theorem length_header_sheetOf (f : Formula) : (sheetOf f).header.length = f.variableSet.size + 1 := by
  rw [sheetOf, List.length_append, List.length_singleton, VariableSet.size]

theorem length_of_mem_grid {cells : List String} (h : cells ∈ (sheetOf f).grid) :
    cells.length = f.variableSet.size + 1 := by
  rw [grid, List.mem_cons, List.mem_cons, List.mem_map] at h
  obtain rfl | rfl | ⟨row, hrow, rfl⟩ := h
  · exact length_header_sheetOf f
  · rw [List.length_map, length_header_sheetOf]
  · rw [Row.letters, List.length_map, List.length_append, length_assignment hrow,
      List.length_singleton]

theorem isCell_of_mem_grid (h : f.Spellable) {cells : List String} (hcells : cells ∈ (sheetOf f).grid) :
    ∀ cell ∈ cells, IsCell cell := by
  rw [grid, List.mem_cons, List.mem_cons, List.mem_map] at hcells
  obtain rfl | rfl | ⟨row, _, rfl⟩ := hcells
  · rw [sheetOf, List.forall_mem_append, List.forall_mem_singleton]
    refine ⟨?_, isCell_render h⟩
    intro name hname
    exact isCell_of_isName (h name (Formula.mem_variableSet.mp hname))
  · rw [List.forall_mem_map]
    intro _ _
    exact isCell_rule
  · rw [Row.letters, List.forall_mem_map]
    intro value _
    exact isCell_truthLetter value

theorem getLast?_letters (row : Row) : row.letters.getLast? = some (truthLetter row.result) := by
  rw [Row.letters, List.map_append, List.map_singleton, List.getLast?_concat]

end Cells

section Attributes

variable {table : TruthTable}

theorem isValid_iff_getLast? :
    table.isValid = true ↔ ∀ cells ∈ table.rows.map Row.letters, cells.getLast? = some "T" := by
  rw [isValid, List.all_eq_true, List.forall_mem_map]
  refine forall₂_congr fun row _ => ?_
  rw [getLast?_letters, Option.some.injEq, truthLetter_eq_T_iff]

theorem isSatisfiable_iff_getLast? :
    table.isSatisfiable = true ↔ ∃ cells ∈ table.rows.map Row.letters, cells.getLast? = some "T" := by
  simp only [isSatisfiable, List.any_eq_true, List.mem_map, exists_exists_and_eq_and]
  refine exists_congr fun row => and_congr_right fun _ => ?_
  rw [getLast?_letters, Option.some.injEq, truthLetter_eq_T_iff]

end Attributes

end TruthTable

namespace Report

open TruthTable

variable {text : String}

/-- Only a text that is a formula gets a table, and it is that of the formula. -/
theorem exists_of_truthTable_result {sheet : TableSheet} (h : (truthTable text).result = .ok sheet) :
    ∃ f, Formula.parse text = .ok f ∧ sheet = (sheetOf f).sheet := by
  cases read : Formula.parse text with
  | error e =>
    rw [truthTable_of_error read] at h
    cases h
  | ok f =>
    refine ⟨f, rfl, ?_⟩
    by_cases few : f.variableSet.size ≤ 20
    · rw [truthTable_result read, ofFormula_eq_ok few] at h
      cases h
      rfl
    · have many := Interpretation.all_eq_error_iff.mpr ⟨Nat.lt_of_not_le few, rfl⟩
      rw [truthTable_result read, ofFormula_eq, many] at h
      cases h

/-- **The text of a table can be read back.** It consists of a line for the header, a line for the
rule and a line for each row. Every line begins and ends with a bar, and between its bars stand as many
cells as there are variables and one more: those of the header, the rule, and those of the rows in
their order. No cell holds a bar or a line break. The table is valid if all rows end with a `T`, and
satisfiable if one does. -/
theorem markdown_reads_back (text : String) (sheet : TableSheet)
    (tabulated : (truthTable text).result = .ok sheet) :
    ∃ f, Formula.parse text = .ok f ∧
      let n := f.variableSet.size
      let table := sheet.header :: List.replicate (n + 1) ":-:" :: sheet.rows
      (∃ lines, parts? '\n' sheet.markdown = some lines ∧ lines.length = sheet.rows.length + 2 ∧
        (∀ line ∈ lines, line.toList.head? = some '|' ∧ line.toList.getLast? = some '|') ∧
        lines.map cells? = table.map some) ∧
      (∀ cells ∈ table, cells.length = n + 1 ∧ ∀ cell ∈ cells, IsCell cell) ∧
      (sheet.valid = true ↔ ∀ cells ∈ sheet.rows, cells.getLast? = some "T") ∧
      (sheet.satisfiable = true ↔ ∃ cells ∈ sheet.rows, cells.getLast? = some "T") := by
  obtain ⟨f, read, rfl⟩ := exists_of_truthTable_result tabulated
  refine ⟨f, read, ?_⟩
  intro n table
  have spellable : f.Spellable := Formula.spellable_of_parse read
  have rule : ((sheetOf f).header.map fun _ => ":-:") = List.replicate (n + 1) ":-:" := by
    rw [List.map_const', length_header_sheetOf]
  have grid_eq : (sheetOf f).grid = table := by
    rw [grid, rule]
    rfl
  have areCells : ∀ cells ∈ table, ∀ cell ∈ cells, IsCell cell := by
    rw [← grid_eq]
    intro cells hcells
    exact isCell_of_mem_grid spellable hcells
  obtain ⟨lines, cells⟩ := parts?_join_barred areCells
  refine ⟨⟨table.map barredLine, ?_, ?_, ?_, cells⟩, ?_, isValid_iff_getLast?,
    isSatisfiable_iff_getLast?⟩
  · rw [← lines, ← grid_eq, ← markdown_eq_join]
    rfl
  · rw [List.length_map, List.length_cons, List.length_cons]
  · rw [List.forall_mem_map]
    intro cells _
    rw [getLast?_barredLine, toList_barredLine]
    exact ⟨rfl, rfl⟩
  · intro cells hcells
    refine ⟨?_, areCells cells hcells⟩
    rw [← grid_eq] at hcells
    exact length_of_mem_grid hcells

/-- The disjunction is spelled with a bar, and the bars of its table are only those between cells. -/
theorem markdown_reads_back_or :
    let sheet : TableSheet := ⟨["a", "b", "(a ∨ b)"],
      [["F", "F", "F"], ["F", "T", "T"], ["T", "F", "T"], ["T", "T", "T"]],
      "|a|b|(a ∨ b)|\n|:-:|:-:|:-:|\n|F|F|F|\n|F|T|T|\n|T|F|T|\n|T|T|T|\n", false, true⟩
    (truthTable "a|b").result = .ok sheet ∧
      (∃ lines, parts? '\n' sheet.markdown = some lines ∧ lines.length = 6 ∧
        lines.map cells? = (sheet.header :: [":-:", ":-:", ":-:"] :: sheet.rows).map some) ∧
      ¬ ∀ cells ∈ sheet.rows, cells.getLast? = some "T" := by
  intro sheet
  have tabulated : (truthTable "a|b").result = .ok sheet := by
    let f := Formula.binary .or (.atom "a") (.atom "b")
    have read : Formula.parse "a|b" = .ok f := by decide +kernel
    have leaves : f.leaves = ["a", "b"] := by simp [f, Formula.leaves]
    have holds (v) : f.holds v = (v "a" || v "b") := by
      simp only [f, Formula.holds]
      rfl
    have render : f.render = "(a ∨ b)" := by
      simp only [f, Formula.render]
      rfl
    have few : f.variableSet.size ≤ 20 := by
      rw [Formula.variableSet, leaves]
      decide
    rw [truthTable_result read, TruthTable.ofFormula_eq_ok few,
      TruthTable.sheetOf_eq leaves holds render]
    rfl
  obtain ⟨f, _, ⟨lines, split, length, _, cells⟩, areCells, valid, _⟩ :=
    markdown_reads_back "a|b" sheet tabulated
  have header : 3 = f.variableSet.size + 1 := (areCells sheet.header List.mem_cons_self).1
  rw [← header] at cells
  refine ⟨tabulated, ⟨lines, split, length, cells⟩, ?_⟩
  rw [← valid]
  decide

end Report

end Propositional
