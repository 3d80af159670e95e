import Propositional.CommandLine.Arguments
import Propositional.Equivalence
import Propositional.Formula.Reader
import Propositional.Formula.View
import Propositional.Restriction

/-!
# Commands

What each command prints, and why it fails where it does. A command prints nothing before it knows
that it succeeds, but for the check of a restriction: the restricted formula is printed first.
-/

namespace Propositional

/-- Why a text assigns no truth value to a name. -/
inductive AssignmentError
  | noEquals (text : String)
  | noTruthValue (name value : String)

def AssignmentError.message : AssignmentError → String
  | .noEquals text => "Expected `name=value`, got \"" ++ text ++ "\""
  | .noTruthValue name value =>
    "Expected a truth value for " ++ name ++ ", got \"" ++ value ++ "\""

namespace Interpretation

def truthValue? : String → Option Bool
  | "T" | "t" | "true" | "1" => some true
  | "F" | "f" | "false" | "0" => some false
  | _ => none

/-- Blanks around the name and around the value do not count. -/
def readEntry (text : String) : Except AssignmentError (String × Bool) :=
  match CommandLine.splitAtEquals text.toList with
  | (_, none) => .error (.noEquals text)
  | (name, some value) =>
    let name := String.ofList name
    let value := trimBlanks (String.ofList value)
    match truthValue? value with
    | some truth => .ok (trimBlanks name, truth)
    | none => .error (.noTruthValue name value)

/-- The interpretation that a list of assignments gives; the first mistake counts. -/
def read (assignments : List String) : Except AssignmentError Interpretation :=
  (assignments.mapM readEntry).map ofEntries

end Interpretation

inductive CommandError
  | unread (e : ReadError)
  | assignment (e : AssignmentError)
  | evaluation (e : MissingVariable)
  | basis (e : UnknownBasis)
  | table (e : TableError)
  | notEquivalent (restricted formula : Formula)

def CommandError.message : CommandError → String
  | .unread e => e.message
  | .assignment e => e.message
  | .evaluation e => e.message
  | .basis e => e.message
  | .table e => e.message
  | .notEquivalent restricted formula =>
    restricted.render ++ " is not equivalent to " ++ formula.render

namespace Command

/-- What a command has printed when it ends, and its error if it fails. -/
structure Effect where
  stdout : String
  error : Option CommandError

def printed (text : String) : Effect :=
  ⟨text, none⟩

def failed (error : CommandError) : Effect :=
  ⟨"", some error⟩

/-- Goes on with the formula that a text spells. -/
def withFormula (text : String) (command : Formula → Effect) : Effect :=
  match Formula.parse text with
  | .error e => failed (.unread e)
  | .ok f => command f

def truthMark (ink : Ink) (value : Bool) : String :=
  if value then ink.paint .green "T" else ink.paint .red "F"

def runTokens (ink : Ink) (text : String) : Effect :=
  printed <| String.join <| (segment text).map fun token =>
    (if token.kind = .unknown then ink.paint .red token.display else token.display) ++ "\n"

def runTree (ink : Ink) (json : Bool) (f : Formula) : Effect :=
  if json then printed (f.view.json "" ++ "\n")
  else
    printed (f.outline.render ++ ink.paint .cyan (toString f.size) ++ " nodes, depth "
      ++ ink.paint .cyan (toString f.depth) ++ "\n")

def runAtoms (ink : Ink) (explain : Bool) (f : Formula) : Effect :=
  if explain then printed (String.join ((f.variableSteps ink).map (· ++ "\n")))
  else printed (f.variableSet.display ++ "\n")

def runEval (ink : Ink) (assignments : List String) (f : Formula) : Effect :=
  match Interpretation.read assignments with
  | .error e => failed (.assignment e)
  | .ok i =>
    match f.evaluate i with
    | .error e => failed (.evaluation e)
    | .ok value =>
      printed (ink.paint .blue f.render ++ " under " ++ ink.paint .blue i.display ++ " is "
        ++ truthMark ink value ++ "\n")

/-- The line that ends a successful check. -/
def checkLine (ink : Ink) (b : Basis) : String :=
  ink.paint .green "equivalent" ++ " (connectives: "
    ++ ", ".intercalate (b.connectives.map Kind.name) ++ ")\n"

def runRestrict (ink : Ink) (basisName : String) (explain check : Bool) (f : Formula) : Effect :=
  match Basis.ofName basisName with
  | .error e => failed (.basis e)
  | .ok b =>
    let (restricted, e) :=
      f.explainRestriction ink b (.titled ("Basis " ++ ink.paint .magenta b.name))
    let text := (if explain then e.render else "") ++ restricted.render ++ "\n"
    if check then
      match f.equivalent restricted with
      | .error e => ⟨text, some (.table e)⟩
      | .ok true => printed (text ++ checkLine ink b)
      | .ok false => ⟨text, some (.notEquivalent restricted f)⟩
    else printed text

def runTable (attributes : Bool) (f : Formula) : Effect :=
  match TruthTable.ofFormula f with
  | .error e => failed (.table e)
  | .ok sheet =>
    printed (sheet.markdown ++
      if attributes then
        "\nvalid: " ++ toString sheet.isValid ++ ", satisfiable: "
          ++ toString sheet.isSatisfiable ++ "\n"
      else "")

def run (ink : Ink) : Command → Effect
  | .tokens text => runTokens ink text
  | .tree text json => withFormula text (runTree ink json)
  | .atoms text explain => withFormula text (runAtoms ink explain)
  | .eval text assignments => withFormula text (runEval ink assignments)
  | .restrict text basisName explain check =>
    withFormula text (runRestrict ink basisName explain check)
  | .table text attributes => withFormula text (runTable attributes)

end Command

namespace CommandLine

/-- How the program ends: its exit code, what it printed, and the message of its error. -/
structure Outcome where
  code : Nat
  stdout : String
  message : Option String
deriving DecidableEq

end CommandLine

/-- The end of the program that an effect brings about. -/
def Command.Effect.outcome (effect : Effect) : CommandLine.Outcome :=
  match effect.error with
  | none => ⟨0, effect.stdout, none⟩
  | some e => ⟨1, effect.stdout, some e.message⟩

namespace CommandLine

/-- Code 2 stands for arguments that the parser refuses, code 1 for a command that fails. -/
def runBy (parser : List String → Request) (ink : Ink) (arguments : List String) : Outcome :=
  match parser arguments with
  | .command command => (command.run ink).outcome
  | .about text => ⟨0, text ink, none⟩
  | .refused => ⟨2, "", none⟩

/-- The program with its own parser. -/
def run : Ink → List String → Outcome :=
  runBy Request.ofArguments

end CommandLine

end Propositional
