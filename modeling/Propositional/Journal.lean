import Propositional.Calculator
import Propositional.Text.Quoted

/-!
# Diagnostic records

What an operation has to say about its course: a list of records that its arguments determine.
Reading is recorded only as far as it succeeds.
-/

namespace Propositional

inductive Severity
  | trace
  | debug

structure Record where
  severity : Severity
  message : String

def Record.line (record : Record) : String :=
  match record.severity with
  | .trace => "TRACE " ++ record.message
  | .debug => "DEBUG " ++ record.message

namespace Journal

def ofTokenizing (text : String) : List Record :=
  match tokenize text with
  | .error _ => []
  | .ok tokens =>
    [⟨.trace, "Tokenized " ++ quoteRecord text ++ " into " ++ toString tokens.length ++ " tokens"⟩]

def ofParsing (text : String) : List Record :=
  ofTokenizing text ++
    match Formula.parse text with
    | .error _ => []
    | .ok f => [⟨.trace, "Parsed " ++ quoteRecord text ++ " as " ++ f.render⟩]

/-- The basis that allows everything leaves no record. -/
def ofRestriction (b : Basis) (f : Formula) : List Record :=
  if b = .all then []
  else
    [⟨.debug, "Restricted " ++ toString f.size ++ " nodes to " ++ toString (f.restrict b).size
      ++ " nodes using basis " ++ b.name⟩]

def ofTruthTable (f : Formula) : List Record :=
  match f.variableSet.checkCount with
  | .error _ => []
  | .ok () =>
    [⟨.debug, "Enumerating " ++ toString f.variableSet.interpretationCount ++ " interpretations of "
      ++ f.render⟩]

def ofRestrictionChain (f : Formula) : List String → List Record
  | [] => []
  | name :: names =>
    match Basis.ofName name with
    | .error _ => ofRestrictionChain f names
    | .ok b => ofRestriction b f ++ ofRestrictionChain (f.restrict b) names

/-- Only a difference is recorded, with the first interpretation that shows it. -/
def ofEquivalence (l r : Formula) : List Record :=
  match l.firstDifference r with
  | .ok (some i) =>
    [⟨.debug, l.render ++ " and " ++ r.render ++ " differ under " ++ i.display⟩]
  | _ => []

/-- What an instruction of the calculator does with the formulas on the stack. -/
def ofInstruction (stack : List Formula) : Calculator.Instruction → List Record
  | .parse text => ofParsing text
  | .reparse =>
    match stack with
    | f :: _ => ofParsing f.render
    | [] => []
  | .restrict basisName =>
    match stack, Basis.ofName basisName with
    | f :: _, .ok b => ofRestriction b f
    | _, _ => []
  | .equivalent =>
    match stack with
    | r :: l :: _ => ofEquivalence l r
    | _ => []
  | _ => []

/-- The records of the instructions, each on the stack that the ones before it leave. -/
def ofCalculation (stack : List Formula) (instructions : List Calculator.Instruction) :
    List Record :=
  let before := stack :: (Calculator.run stack instructions).map Prod.snd
  (before.zip instructions).flatMap fun (stack, instruction) => ofInstruction stack instruction

end Journal

end Propositional
