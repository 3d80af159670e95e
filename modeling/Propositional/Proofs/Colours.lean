import Mathlib.Data.List.Forall2
import Propositional.Outline
import Propositional.Proofs.Lexing
import Propositional.Terminal

/-!
# Taking the colours out of a text

A colour is switched by an escape character, a bracket, a number and an `m`. `uncoloured` leaves all
these sequences out, and `Shows` says that a text without them is the plain one, wherever it stands:
no sequence that it begins is finished behind it. So parts that show plain texts can be put together
(`Shows.append`, `Shows.join`).

A text without escape characters shows itself, in any colour. A line shows what is left of it whatever
it holds, since no sequence goes on behind a newline; so colours can be taken out of an outline label
by label (`shows_render`).
-/

namespace Propositional

/-- No character of the text can begin a sequence that switches colours. -/
def EscapeFree (text : String) : Prop :=
  '\x1b' ∉ text.toList

namespace EscapeFree

instance (text : String) : Decidable (EscapeFree text) :=
  inferInstanceAs (Decidable ('\x1b' ∉ text.toList))

theorem append_iff {text text' : String} :
    EscapeFree (text ++ text') ↔ EscapeFree text ∧ EscapeFree text' := by
  rw [EscapeFree, String.toList_append, List.mem_append, not_or]
  rfl

theorem append {text text' : String} (h : EscapeFree text) (h' : EscapeFree text') :
    EscapeFree (text ++ text') :=
  append_iff.mpr ⟨h, h'⟩

end EscapeFree

namespace Colour

/-- What stands behind the `m` that ends a number. -/
def behindNumber? : List Char → Option (List Char)
  | [] => none
  | c :: rest =>
    if c.isDigit then behindNumber? rest
    else if c = 'm' then some rest
    else none

/-- What stands behind the sequence that the text begins with, if it begins with one. -/
def behindSwitch? : List Char → Option (List Char)
  | '\x1b' :: '[' :: c :: rest => if c.isDigit then behindNumber? rest else none
  | _ => none

theorem length_behindNumber?_le {text behind : List Char} (h : behindNumber? text = some behind) :
    behind.length ≤ text.length := by
  fun_induction behindNumber? text with
  | case1 => cases h
  | case2 c rest _ ih =>
    have := ih h
    rw [List.length_cons]
    omega
  | case3 =>
    cases h
    simp
  | case4 => cases h

theorem length_behindSwitch?_lt {text behind : List Char} (h : behindSwitch? text = some behind) :
    behind.length < text.length := by
  unfold behindSwitch? at h
  split at h
  · split at h
    · have := length_behindNumber?_le h
      simp only [List.length_cons]
      omega
    · cases h
  · cases h

/-- The text without the sequences that switch colours. -/
def erase : List Char → List Char
  | [] => []
  | c :: rest =>
    match _h : behindSwitch? (c :: rest) with
    | some behind => erase behind
    | none => c :: erase rest
termination_by text => text.length
decreasing_by
  · exact length_behindSwitch?_lt _h
  · simp

section Erasing

variable {c : Char} {rest behind text : List Char}

theorem erase_of_some (h : behindSwitch? text = some behind) : erase text = erase behind := by
  cases text with
  | nil => cases h
  | cons c rest =>
    rw [erase]
    split <;> simp_all

theorem erase_of_none (h : behindSwitch? (c :: rest) = none) :
    erase (c :: rest) = c :: erase rest := by
  rw [erase]
  split <;> simp_all

theorem behindSwitch?_of_ne (h : c ≠ '\x1b') : behindSwitch? (c :: rest) = none := by
  unfold behindSwitch?
  split
  · rename_i same
    cases same
    exact absurd rfl h
  · rfl

/-- Nothing is erased in a text without escape characters, or because of it in the text behind. -/
theorem erase_append_of_notMem (h : '\x1b' ∉ text) (rest : List Char) :
    erase (text ++ rest) = text ++ erase rest := by
  induction text with
  | nil => rfl
  | cons c text ih =>
    obtain ⟨other, free⟩ := List.ne_and_not_mem_of_not_mem_cons h
    rw [List.cons_append, erase_of_none (behindSwitch?_of_ne (Ne.symm other)), ih free,
      List.cons_append]

theorem erase_on (colour : Colour) (rest : List Char) :
    erase (colour.on.toList ++ rest) = erase rest := by
  apply erase_of_some
  cases colour <;> rfl

theorem erase_off (rest : List Char) : erase (off.toList ++ rest) = erase rest := by
  apply erase_of_some
  rfl

/-- A sequence is finished before the newline or not at all. -/
theorem behindSwitch?_append_newline (text rest : List Char) :
    behindSwitch? (text ++ '\n' :: rest) = (behindSwitch? text).map (· ++ '\n' :: rest) := by
  have number (text : List Char) :
      behindNumber? (text ++ '\n' :: rest) = (behindNumber? text).map (· ++ '\n' :: rest) := by
    induction text with
    | nil => rfl
    | cons c text ih =>
      rw [List.cons_append, behindNumber?, behindNumber?, ih]
      split
      · rfl
      · split <;> rfl
  fun_cases behindSwitch? text with
  | case1 c text digit =>
    simp only [List.cons_append, behindSwitch?, digit, if_true, number]
  | case2 c text noDigit =>
    simp only [List.cons_append, behindSwitch?, noDigit]
    rfl
  | case3 text other =>
    unfold behindSwitch?
    split
    · rename_i c behind same
      -- The text ends before the number, so the newline stands where its first digit is due.
      rcases text with _ | ⟨a, _ | ⟨b, _ | ⟨c', text⟩⟩⟩
      · cases same
      · cases same
      · cases same
        rfl
      · cases same
        exact absurd rfl (other _ _)
    · rfl

theorem erase_append_newline (text rest : List Char) :
    erase (text ++ '\n' :: rest) = erase text ++ '\n' :: erase rest := by
  fun_induction erase text with
  | case1 =>
    have newline : '\x1b' ∉ ['\n'] := by decide
    exact erase_append_of_notMem newline rest
  | case2 c text behind switched ih =>
    have switched' := behindSwitch?_append_newline (c :: text) rest
    rw [switched] at switched'
    rw [erase_of_some switched', ih]
  | case3 c text other ih =>
    have other' := behindSwitch?_append_newline (c :: text) rest
    rw [other] at other'
    rw [List.cons_append] at other'
    rw [List.cons_append, erase_of_none other', ih, List.cons_append]

end Erasing

end Colour

/-- The text with its colours taken out. -/
def uncoloured (text : String) : String :=
  String.ofList (Colour.erase text.toList)

/-- Without its colours the text is the plain one, whatever stands behind it. -/
def Shows (text plain : String) : Prop :=
  ∀ rest, Colour.erase (text.toList ++ rest) = plain.toList ++ Colour.erase rest

section Showing

variable {text plain text' plain' : String}

theorem Shows.uncoloured_eq (h : Shows text plain) : uncoloured text = plain := by
  have whole := h []
  rw [List.append_nil, Colour.erase, List.append_nil] at whole
  rw [uncoloured, whole, String.ofList_toList]

theorem Shows.append (h : Shows text plain) (h' : Shows text' plain') :
    Shows (text ++ text') (plain ++ plain') := by
  intro rest
  rw [String.toList_append, List.append_assoc, h, h', String.toList_append, List.append_assoc]

theorem EscapeFree.shows (h : EscapeFree text) : Shows text text :=
  Colour.erase_append_of_notMem h

/-- A text without escape characters may be painted in any colour. -/
theorem EscapeFree.shows_paint (h : EscapeFree text) (ink : Ink) (colour : Colour) :
    Shows (ink.paint colour text) text := by
  cases ink with
  | plain => exact h.shows
  | colours =>
    intro rest
    rw [Ink.paint, Colour.resume_eq_self h, String.ofList_toList, String.toList_append,
      String.toList_append, List.append_assoc, List.append_assoc, Colour.erase_on,
      Colour.erase_append_of_notMem h, Colour.erase_off]

theorem Shows.line (h : Shows text plain) : Shows (text ++ "\n") (plain ++ "\n") := by
  have newline : EscapeFree "\n" := by decide
  exact h.append newline.shows

theorem uncoloured_append (h : EscapeFree text) (text' : String) :
    uncoloured (text ++ text') = text ++ uncoloured text' := by
  rw [uncoloured, String.toList_append, Colour.erase_append_of_notMem h, String.ofList_append,
    String.ofList_toList, uncoloured]

/-- Whatever a line holds, its end is the end of the sequences in it. -/
theorem shows_line (line : String) : Shows (line ++ "\n") (uncoloured line ++ "\n") := by
  intro rest
  have newline : "\n".toList = ['\n'] := rfl
  rw [String.toList_append, newline, List.append_assoc, List.singleton_append,
    Colour.erase_append_newline, String.toList_append, newline, uncoloured, String.toList_ofList,
    List.append_assoc, List.singleton_append]

theorem shows_join {α : Type} {items : List α} {shown plain : α → String}
    (h : ∀ item ∈ items, Shows (shown item) (plain item)) :
    Shows (String.join (items.map shown)) (String.join (items.map plain)) := by
  induction items with
  | nil => exact fun _ => rfl
  | cons item items ih =>
    obtain ⟨first, rest⟩ := List.forall_mem_cons.mp h
    rw [List.map_cons, List.map_cons, String.join_cons, String.join_cons]
    exact first.append (ih rest)

end Showing

namespace Outline

/-- The tree with other labels in the same places. -/
def relabel (change : String → String) : Outline → Outline
  | .node label children => .node (change label) (children.map (relabel change))

theorem relabel_node (change : String → String) (label : String) (children : List Outline) :
    (node label children).relabel change = node (change label) (children.map (relabel change)) := by
  rw [relabel]

theorem branches_relabel {indent : String} (h : EscapeFree indent) (outlines : List Outline) :
    (branches indent outlines).map uncoloured =
      branches indent (outlines.map (relabel uncoloured)) := by
  fun_induction branches indent outlines with
  | case1 => simp only [List.map_nil, branches]
  | case2 indent label children ih =>
    have below := ih (h.append (by decide))
    have branch := uncoloured_append (h.append (by decide : EscapeFree "└── ")) label
    rw [List.map_cons, branch, below, List.map_singleton, relabel_node, branches]
  | case3 indent label children sibling siblings ihBelow ih =>
    have below := ihBelow (h.append (by decide))
    have beside := ih h
    have branch := uncoloured_append (h.append (by decide : EscapeFree "├── ")) label
    rw [List.cons_append, List.map_cons, List.map_append, branch, below, beside]
    simp only [List.map_cons, relabel_node, branches, List.cons_append]

theorem lines_relabel (outline : Outline) :
    outline.lines.map uncoloured = (outline.relabel uncoloured).lines := by
  cases outline with
  | node label children =>
    rw [relabel_node, lines, lines, List.map_cons, branches_relabel (by decide)]

/-- Colours are taken out of an outline where they are put in: in its labels. -/
theorem shows_render (outline : Outline) :
    Shows outline.render (outline.relabel uncoloured).render := by
  rw [render, render, ← lines_relabel, List.map_map]
  exact shows_join fun line _ => shows_line line

end Outline

end Propositional
