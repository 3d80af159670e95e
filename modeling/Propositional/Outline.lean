/-!
# Outlines

A tree of labels, and its text: one label a line, every line below the first led by a branch for
each level between it and the root.
-/

namespace Propositional

inductive Outline
  | node (label : String) (children : List Outline)

namespace Outline

/-- The lines of the trees that hang from one place. A branch goes on past every tree but the last,
so the lines below the last one are led by blanks. -/
def branches (indent : String) : List Outline → List String
  | [] => []
  | [.node label children] => (indent ++ "└── " ++ label) :: branches (indent ++ "    ") children
  | .node label children :: sibling :: siblings =>
    (indent ++ "├── " ++ label) :: branches (indent ++ "│   ") children
      ++ branches indent (sibling :: siblings)

def lines : Outline → List String
  | .node label children => label :: branches "" children

/-- Labels are written as they are; every line ends with a newline. -/
def render (outline : Outline) : String :=
  String.join (outline.lines.map (· ++ "\n"))

end Outline

end Propositional
