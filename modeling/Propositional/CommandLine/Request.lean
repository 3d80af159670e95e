import Propositional.Terminal

/-!
# Requests

What the program is asked to do. How the arguments on a command line are understood is a matter of a
parser, which is any function that gives a request for them: a command, a text that the parser itself
has for the user, or a refusal.
-/

namespace Propositional

/-- What the program does with formulas. -/
inductive Command
  | tokens (formula : String)
  | tree (formula : String) (json : Bool)
  | atoms (formula : String) (explain : Bool)
  | eval (formula : String) (assignments : List String)
  | restrict (formula basisName : String) (explain check : Bool)
  | table (formula : String) (attributes : Bool)

/-- The texts that the command works on. -/
def Command.texts : Command → List String
  | .tokens formula => [formula]
  | .tree formula _ => [formula]
  | .atoms formula _ => [formula]
  | .eval formula assignments => formula :: assignments
  | .restrict formula basisName _ _ => [formula, basisName]
  | .table formula _ => [formula]

/-- What the arguments of the program ask for. -/
inductive Request
  | command (command : Command)
  /-- A text about the program itself, in the colours that the parser gives it. -/
  | about (text : Ink → String)
  | refused

end Propositional
