import Propositional.Basis
import Propositional.BinaryOp
import Propositional.Calculator
import Propositional.CommandLine
import Propositional.CommandLine.Arguments
import Propositional.CommandLine.Request
import Propositional.Equivalence
import Propositional.Evaluation
import Propositional.Explanation
import Propositional.Formula
import Propositional.Formula.Order
import Propositional.Formula.Reader
import Propositional.Formula.View
import Propositional.Interpretation
import Propositional.Interpretation.Enumeration
import Propositional.Journal
import Propositional.Main
import Propositional.Outline
import Propositional.Proofs.Arguments
import Propositional.Proofs.Arguments.Characters
import Propositional.Proofs.Assignments
import Propositional.Proofs.Attributes
import Propositional.Proofs.Colours
import Propositional.Proofs.Colours.Content
import Propositional.Proofs.Colours.EscapeFree
import Propositional.Proofs.Commands
import Propositional.Proofs.Commands.Evaluation
import Propositional.Proofs.Enumeration
import Propositional.Proofs.Enumeration.Doubling
import Propositional.Proofs.Equivalence
import Propositional.Proofs.Equivalence.Congruence
import Propositional.Proofs.Evaluation
import Propositional.Proofs.Explanation
import Propositional.Proofs.Explanation.Log
import Propositional.Proofs.Grammar
import Propositional.Proofs.Grammar.Alike
import Propositional.Proofs.Grammar.Invariant
import Propositional.Proofs.Grammar.Reading
import Propositional.Proofs.Grammar.Steps
import Propositional.Proofs.Grammar.Unknown
import Propositional.Proofs.Grammar.Viable
import Propositional.Proofs.Layout
import Propositional.Proofs.Lexing
import Propositional.Proofs.Lexing.Seams
import Propositional.Proofs.Lexing.Segmentation
import Propositional.Proofs.Lexing.Spelling
import Propositional.Proofs.Lexing.Strict
import Propositional.Proofs.Marks
import Propositional.Proofs.Outline
import Propositional.Proofs.Outline.Lossless
import Propositional.Proofs.Parts
import Propositional.Proofs.Printing
import Propositional.Proofs.Reports
import Propositional.Proofs.Restriction.Conformance
import Propositional.Proofs.Restriction.Fixpoint
import Propositional.Proofs.Restriction.Growth
import Propositional.Proofs.Restriction.Laws
import Propositional.Proofs.Restriction.Meaning
import Propositional.Proofs.Restriction.Nesting
import Propositional.Proofs.Restriction.Noting
import Propositional.Proofs.Restriction.Recursion
import Propositional.Proofs.Restriction.Stages
import Propositional.Proofs.Truth
import Propositional.Proofs.TruthTable
import Propositional.Proofs.TruthTable.Markdown
import Propositional.Proofs.Validity
import Propositional.Proofs.Variables
import Propositional.Report
import Propositional.Restriction
import Propositional.Restriction.Law
import Propositional.Restriction.Weight
import Propositional.Terminal
import Propositional.Text.Blank
import Propositional.Text.Quoted
import Propositional.Token
import Propositional.Token.Lexer
import Propositional.TruthTable
import Propositional.VariableSet
