import Propositional.Evaluation
import Propositional.Interpretation.Enumeration

/-!
# Truth tables

A truth table has a row for every interpretation of a formula's variables: the values of the
variables in ascending order of their names, then the value of the formula. Its text is a table in
Markdown.
-/

namespace Propositional

/-- Why an answer about all interpretations of a formula is not given. -/
inductive TableError
  | atomCount (e : AtomCountError)
  | evaluation (e : MissingVariable)
deriving DecidableEq

def TableError.message : TableError → String
  | .atomCount e => e.message
  | .evaluation e => e.message

/-- The values of the variables, and the value of the formula for them. -/
structure TruthTable.Row where
  assignment : List Bool
  result : Bool
deriving DecidableEq

structure TruthTable where
  /-- The names of the variables, then the formula. -/
  header : List String
  rows : List TruthTable.Row
deriving DecidableEq

namespace TruthTable

/-- The row of an interpretation. -/
def Row.ofInterpretation (f : Formula) (i : Interpretation) : Except MissingVariable Row :=
  (f.evaluate i).map (⟨i.entries.map Prod.snd, ·⟩)

/-- The cells of a row as letters. -/
def Row.letters (row : Row) : List String :=
  (row.assignment ++ [row.result]).map truthLetter

def ofFormula (f : Formula) : Except TableError TruthTable :=
  let vs := f.variableSet
  match vs.checkCount with
  | .error e => .error (.atomCount e)
  | .ok () =>
    match (List.range vs.interpretationCount).mapM fun number =>
        Row.ofInterpretation f (.ofNumber vs number) with
    | .error e => .error (.evaluation e)
    | .ok rows => .ok ⟨vs.names ++ [f.render], rows⟩

def formula (table : TruthTable) : String :=
  table.header.getLastD ""

def atoms (table : TruthTable) : List String :=
  table.header.dropLast

/-- True in every row. -/
def isValid (table : TruthTable) : Bool :=
  table.rows.all (·.result)

/-- True in some row. -/
def isSatisfiable (table : TruthTable) : Bool :=
  table.rows.any (·.result)

/-- The cells of a line between bars. -/
def barred (cells : List String) : String :=
  String.join (cells.map ("|" ++ ·)) ++ "|\n"

def markdown (table : TruthTable) : String :=
  barred table.header ++ barred (table.header.map fun _ => ":-:")
    ++ String.join (table.rows.map fun row => barred row.letters)

end TruthTable

end Propositional
