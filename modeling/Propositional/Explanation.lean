import Propositional.Outline

/-!
# Explanations

An explanation has a heading and notes below it: steps, and parts with notes of their own. A step
that repeats the note directly before it is left out; a part is always kept.

`Explanation.write` takes a note as an instruction, so that a list of notes is also the log of what
was written.
-/

namespace Propositional

inductive Note
  | step (text : String)
  | part (heading : String) (notes : List Note)

/-- The texts that a note supplies: its own and those of the notes below it. -/
def Note.count : Note → Nat
  | .step _ => 1
  | .part _ notes => (notes.map count).foldl (· + ·) 1

def Note.outline : Note → Outline
  | .step text => .node text []
  | .part heading notes => .node heading (notes.map outline)

structure Explanation where
  heading : String
  notes : Array Note

namespace Explanation

def titled (heading : String) : Explanation :=
  ⟨heading, #[]⟩

def isEmpty (e : Explanation) : Bool :=
  e.notes.isEmpty

/-- Adds a step, unless the last note is the same step. -/
def addStep (e : Explanation) (text : String) : Explanation :=
  match e.notes.back? with
  | some (.step last) => if last = text then e else { e with notes := e.notes.push (.step text) }
  | _ => { e with notes := e.notes.push (.step text) }

def addPart (e part : Explanation) : Explanation :=
  { e with notes := e.notes.push (.part part.heading part.notes.toList) }

/-- Adds the part that the function fills in, and gives the function's value. -/
def within {α : Type} (e : Explanation) (heading : String)
    (fill : Explanation → α × Explanation) : α × Explanation :=
  let (value, part) := fill (titled heading)
  (value, e.addPart part)

/-- Writes one note: the notes of a part are written one by one into a new part. -/
def write (e : Explanation) : Note → Explanation
  | .step text => e.addStep text
  | .part heading notes => e.addPart (notes.foldl write (titled heading))

/-- The explanation before the notes are written and after each of them, with the number of texts
supplied so far. -/
def history (e : Explanation) (supplied : Nat) : List Note → List (Explanation × Nat)
  | [] => [(e, supplied)]
  | note :: notes => (e, supplied) :: history (e.write note) (supplied + note.count) notes

def outline (e : Explanation) : Outline :=
  .node e.heading (e.notes.toList.map Note.outline)

def render (e : Explanation) : String :=
  e.outline.render

end Explanation

end Propositional
