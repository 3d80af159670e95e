import Propositional.Equivalence
import Propositional.Formula.Reader
import Propositional.Formula.View
import Propositional.Restriction

/-!
# Reports

Answers about a text that may be a formula, together with an explanation of how they were found. All
reports read the text in the same way, so a text that is no formula gets the same report from each.
-/

namespace Propositional

inductive ReportError
  | unread (e : ReadError)
  | basis (e : UnknownBasis)
  | table (e : TableError)

def ReportError.message : ReportError → String
  | .unread e => "Failed to parse formula: " ++ e.message
  | .basis e => e.message
  | .table e => e.message

/-- An answer, or the text of what prevents it, with the explanation written on the way. -/
structure Report (α : Type) where
  result : Except String α
  explanation : String

structure RestrictedFormula where
  formula : String
  tree : View

structure TableSheet where
  header : List String
  /-- The letters of each row, that of the formula last. -/
  rows : List (List String)
  markdown : String
  valid : Bool
  satisfiable : Bool

namespace Report

/-- Closes an explanation that began without a heading. -/
def ofExplained {α : Type} (outcome : Except ReportError α × Explanation) : Report α :=
  ⟨outcome.1.mapError ReportError.message, outcome.2.render⟩

def readExplained (text : String) (e : Explanation) : Except ReportError Formula × Explanation :=
  e.within "Parsing formula" fun part =>
    match Formula.parse text with
    | .ok f => (.ok f, part.addStep ("Parsed " ++ f.render))
    | .error error => (.error (.unread error), part.addStep error.message)

def parseTree (text : String) : Report View :=
  let (outcome, e) := readExplained text (.titled "")
  ofExplained (outcome.map Formula.view, e)

/-- The basis is looked up before the text is read. -/
def restriction (ink : Ink) (text basisName : String) : Report RestrictedFormula :=
  ofExplained <|
    match Basis.ofName basisName with
    | .error error => (.error (.basis error), .titled "")
    | .ok b =>
      match readExplained text (.titled "") with
      | (.error error, e) => (.error error, e)
      | (.ok f, e) =>
        let (restricted, e) := f.explainRestriction ink b e
        (.ok ⟨restricted.render, restricted.view⟩, e)

def truthTable (text : String) : Report TableSheet :=
  ofExplained <|
    match readExplained text (.titled "") with
    | (.error error, e) => (.error error, e)
    | (.ok f, e) =>
      match TruthTable.ofFormula f with
      | .error error => (.error (.table error), e)
      | .ok table =>
        (.ok ⟨table.header, table.rows.map TruthTable.Row.letters, table.markdown, table.isValid,
            table.isSatisfiable⟩,
          e.addStep ("Evaluated " ++ toString table.rows.length ++ " interpretations"))

end Report

end Propositional
