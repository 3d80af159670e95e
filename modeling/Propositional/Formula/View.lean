import Propositional.Formula
import Propositional.Outline
import Propositional.Text.Quoted

/-!
# Formulas as trees to look at

What is shown of each part of a formula: its kind, its label and its operands, as JSON or as an
outline of the labels alone.
-/

namespace Propositional

inductive View
  | node (kind : Kind) (label : String) (children : List View)

namespace Formula

theorem sizeOf_lt_of_mem_children {f g : Formula} (h : g ∈ f.children) : sizeOf g < sizeOf f := by
  cases f with
  | atom => simp [children] at h
  | neg => simp_all [children]
  | binary =>
    simp only [children, List.mem_cons, List.not_mem_nil, or_false] at h
    rcases h with rfl | rfl
    · simp only [binary.sizeOf_spec]
      omega
    · simp only [binary.sizeOf_spec]
      omega
  | nor first rest =>
    rcases List.mem_cons.mp h with rfl | h
    · simp only [nor.sizeOf_spec]
      omega
    · have := List.sizeOf_lt_of_mem h
      simp only [nor.sizeOf_spec]
      omega

def view (f : Formula) : View :=
  .node f.kind f.label (f.children.attach.map fun ⟨g, _⟩ => g.view)
decreasing_by exact sizeOf_lt_of_mem_children ‹_›

def outline (f : Formula) : Outline :=
  .node f.label (f.children.attach.map fun ⟨g, _⟩ => g.outline)
decreasing_by exact sizeOf_lt_of_mem_children ‹_›

theorem view_eq (f : Formula) : f.view = .node f.kind f.label (f.children.map view) := by
  rw [view]
  simp

theorem outline_eq (f : Formula) : f.outline = .node f.label (f.children.map outline) := by
  rw [outline]
  simp

end Formula

/-- JSON with each member on a line of its own, two more blanks in front for each level. -/
def View.json (indent : String) : View → String
  | .node kind label children =>
    "\x7b\n" ++ indent ++ "  \"kind\": " ++ quoteJson kind.name ++ ",\n"
      ++ indent ++ "  \"label\": " ++ quoteJson label ++ ",\n"
      ++ indent ++ "  \"children\": ["
      ++ (match children.map (json (indent ++ "    ")) with
        | [] => ""
        | items =>
          "\n" ++ ",\n".intercalate (items.map ((indent ++ "    ") ++ ·)) ++ "\n" ++ indent ++ "  ")
      ++ "]\n" ++ indent ++ "\x7d"

end Propositional
