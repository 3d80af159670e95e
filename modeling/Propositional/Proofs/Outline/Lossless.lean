import Propositional.Proofs.Marks
import Propositional.Proofs.Outline
import Propositional.Proofs.Printing

/-!
# Outlines lose nothing

An outline shows the labels of a formula's parts and how they hang together, and this is enough: the
number of operands tells a name from the label of a connective (`eq_of_map_outline_eq`).

Where names are identifiers, the text is enough as well. A line is columns and then a label, and no
label begins like a column. So the levels and the labels can be read off the lines, and they determine
the formula (`eq_of_marks_eq`): the parts of an operand end at the first line that is not below it.
-/

namespace Propositional

namespace Place

/-- The characters of the columns. -/
def isColumn (c : Char) : Bool :=
  c ∈ ['│', '├', '└', '─', ' ']

/-- The level and the label of a part. -/
def mark (place : Place) : Nat × String :=
  (place.way.length, place.part.label)

/-- The level and the label that a line shows. -/
def readLine (line : String) : Nat × String :=
  ((line.toList.takeWhile isColumn).length / 4, String.ofList (line.toList.dropWhile isColumn))

theorem isColumn_guide (way : List Bool) : ∀ c ∈ (guide way).toList, isColumn c = true := by
  induction way with
  | nil => simp [guide]
  | cons last way ih =>
    cases way with
    | nil => cases last <;> simp [guide, isColumn]
    | cons next way =>
      rw [guide_cons (by simp), String.toList_append, List.forall_mem_append]
      refine ⟨?_, ih⟩
      cases last <;> simp [isColumn]

/-- One level further down. -/
def deeper (mark : Nat × String) : Nat × String :=
  (mark.1 + 1, mark.2)

theorem eq_of_deeper_eq {m n : Nat × String} (h : deeper m = deeper n) : m = n := by
  obtain ⟨level, label⟩ := Prod.mk.inj h
  exact Prod.ext (Nat.succ.inj level) label

end Place

namespace Formula

open Place (guide mark deeper isColumn readLine)

section Outline

theorem toString_glyph_inj {op op' : BinaryOp} :
    op.glyph.toString = op'.glyph.toString ↔ op = op' := by
  cases op <;> cases op' <;> decide

theorem toString_glyph_ne_norName (op : BinaryOp) : op.glyph.toString ≠ norName := by
  cases op <;> decide

/-- A name has no operands, and of two connectives with as many operands the labels differ. -/
theorem eq_of_label_of_children {f g : Formula} (label : f.label = g.label)
    (operands : f.children = g.children) : f = g := by
  cases f with
  | atom name =>
    cases g with
    | atom name' => exact congrArg Formula.atom label
    | _ => simp [children] at operands
  | neg f =>
    cases g with
    | neg g => exact congrArg Formula.neg (List.cons.inj operands).1
    | nor g gs => exact absurd label (by simp [Formula.label, norName])
    | _ => simp [children] at operands
  | binary op l r =>
    cases g with
    | binary op' l' r' =>
      obtain ⟨rfl, rfl⟩ : l = l' ∧ r = r' := by simpa [children] using operands
      rw [toString_glyph_inj.mp label]
    | nor g gs => exact absurd label (toString_glyph_ne_norName op)
    | _ => simp [children] at operands
  | nor f fs =>
    cases g with
    | nor g gs =>
      obtain ⟨rfl, rfl⟩ := List.cons.inj operands
      rfl
    | neg g => exact absurd label (by simp [Formula.label, norName])
    | binary op l r => exact absurd label.symm (toString_glyph_ne_norName op)
    | atom name => simp [children] at operands

theorem eq_of_map_outline_eq {fs gs : List Formula} (h : fs.map outline = gs.map outline) :
    fs = gs := by
  induction fs using operands_ind generalizing gs with
  | nil => exact (List.map_eq_nil_iff.mp h.symm).symm
  | cons f fs operands others =>
    cases gs with
    | nil => cases h
    | cons g gs =>
      rw [List.map_cons, List.map_cons, outline_eq, outline_eq, List.cons.injEq,
        Outline.node.injEq] at h
      obtain ⟨⟨label, below⟩, behind⟩ := h
      rw [eq_of_label_of_children label (operands below), others behind]

end Outline

section Marks

/-- The levels and the labels below a formula, line by line. -/
def marks (fs : List Formula) : List (Nat × String) :=
  (placesBelow fs).map mark

theorem marks_cons (f : Formula) (fs : List Formula) :
    marks (f :: fs) = (1, f.label) :: ((marks f.children).map deeper ++ marks fs) := by
  have below (last : Bool) : mark ∘ Place.below last = deeper ∘ mark := rfl
  rw [marks, placesBelow, places_eq, List.map_append, List.map_map, below, ← List.map_map, List.map_cons,
    List.map_cons]
  rfl

theorem pos_of_mem_marks {fs : List Formula} {m : Nat × String} (h : m ∈ marks fs) : 0 < m.1 := by
  obtain ⟨place, hplace, rfl⟩ := List.mem_map.mp h
  exact List.length_pos_iff.mpr (way_ne_nil hplace)

/-- The marks that are deeper than an operand and follow it belong to its own operands. -/
theorem span_marks (fs gs : List Formula) :
    let both := (marks fs).map deeper ++ marks gs
    both.takeWhile (1 < ·.1) = (marks fs).map deeper ∧ both.dropWhile (1 < ·.1) = marks gs := by
  have all : ∀ m ∈ (marks fs).map deeper, decide (1 < m.1) = true := by
    rw [List.forall_mem_map]
    intro m hm
    have := pos_of_mem_marks hm
    rw [decide_eq_true_iff, deeper]
    omega
  have ends : ∀ m ∈ (marks gs).head?, decide (1 < m.1) = false := by
    cases gs with
    | nil => simp [marks, placesBelow]
    | cons g gs => simp [marks_cons]
  exact ⟨takeWhile_append_of_head all ends, dropWhile_append_of_head all ends⟩

/-- The levels and the labels determine the formulas. -/
theorem eq_of_marks_eq {fs gs : List Formula} (h : marks fs = marks gs) : fs = gs := by
  induction fs using operands_ind generalizing gs with
  | nil =>
    cases gs with
    | nil => rfl
    | cons g gs =>
      rw [marks_cons] at h
      cases h
  | cons f fs operands others =>
    cases gs with
    | nil =>
      rw [marks_cons] at h
      cases h
    | cons g gs =>
      rw [marks_cons, marks_cons, List.cons.injEq, Prod.mk.injEq] at h
      obtain ⟨⟨_, label⟩, tail⟩ := h
      have below := congrArg (List.takeWhile (1 < ·.1)) tail
      have behind := congrArg (List.dropWhile (1 < ·.1)) tail
      rw [(span_marks _ _).1, (span_marks _ _).1] at below
      rw [(span_marks _ _).2, (span_marks _ _).2] at behind
      rw [List.map_inj_right fun _ _ => Place.eq_of_deeper_eq] at below
      rw [eq_of_label_of_children label (operands below), others behind]

end Marks

section Text

variable {f g : Formula}

theorem leaves_subset_of_mem_children (h : g ∈ f.children) : g.leaves ⊆ f.leaves := by
  cases f with
  | atom name => cases h
  | neg f =>
    rw [children, List.mem_singleton] at h
    rw [h, leaves]
    exact List.Subset.refl _
  | binary op l r =>
    have either : g = l ∨ g = r := by simpa [children] using h
    rw [leaves]
    obtain rfl | rfl := either
    · exact List.subset_append_left _ _
    · exact List.subset_append_right _ _
  | nor f fs =>
    rw [leaves]
    obtain rfl | h := List.mem_cons.mp h
    · exact List.subset_append_left _ _
    · intro name hname
      exact List.mem_append_right _ (List.mem_flatMap.mpr ⟨g, h, hname⟩)

theorem Spellable.of_mem_parts (h : f.Spellable) : ∀ part ∈ f.parts, part.Spellable := by
  induction f using children_ind with
  | step f ih =>
    rw [forall_mem_parts]
    refine ⟨h, fun g hg => ih g hg fun name hname => h name ?_⟩
    exact leaves_subset_of_mem_children hg hname

/-- No label looks like a column or ends its line. -/
theorem isColumn_label (h : f.Spellable) : ∀ c ∈ f.label.toList, isColumn c = false ∧ c ≠ '\n' := by
  cases f with
  | atom name =>
    rw [Spellable, leaves, List.forall_mem_singleton] at h
    intro c hc
    have letter : c.isAlphanum = true := h.2 c hc
    constructor
    · rw [isColumn, decide_eq_false_iff_not]
      intro column
      simp only [List.mem_cons, List.not_mem_nil, or_false] at column
      obtain rfl | rfl | rfl | rfl | rfl := column <;> cases letter
    · rintro rfl
      cases letter
  | neg f => simp [label, isColumn]
  | binary op l r =>
    have spelled : (binary op l r).label.toList = [op.glyph] := by simp [label]
    rw [spelled, List.forall_mem_singleton]
    cases op <;> decide
  | nor f fs => simp [label, norName, isColumn]

/-- The mark can be read off the line. -/
theorem readLine_line {place : Place} (h : place.part.Spellable) : readLine place.line = place.mark := by
  have columns := Place.isColumn_guide place.way
  have ends : ∀ c ∈ place.part.label.toList.head?, isColumn c = false := by
    intro c hc
    exact (isColumn_label h c (List.mem_of_mem_head? hc)).1
  rw [readLine, Place.line, String.toList_append, takeWhile_append_of_head columns ends,
    dropWhile_append_of_head columns ends, String.length_toList, Place.length_guide,
    String.ofList_toList, Nat.mul_div_cancel_left _ (by decide), mark]

theorem newline_notMem_line {place : Place} (h : place.part.Spellable) :
    '\n' ∉ place.line.toList := by
  intro newline
  rw [Place.line, String.toList_append, List.mem_append] at newline
  obtain newline | newline := newline
  · cases Place.isColumn_guide place.way '\n' newline
  · exact (isColumn_label h '\n' newline).2 rfl

theorem spellable_of_mem_places (h : f.Spellable) {place : Place} (hplace : place ∈ f.places) :
    place.part.Spellable := by
  apply h.of_mem_parts
  rw [← map_part_places]
  exact List.mem_map_of_mem hplace

theorem parts?_render_outline (h : f.Spellable) :
    parts? '\n' f.outline.render = some (f.places.map Place.line) := by
  rw [Outline.render, lines_outline]
  apply parts?_newline
  rw [List.forall_mem_map]
  intro place hplace
  exact newline_notMem_line (spellable_of_mem_places h hplace)

theorem map_readLine_places (h : f.Spellable) :
    (f.places.map Place.line).map readLine = f.places.map mark := by
  rw [List.map_map]
  apply List.map_congr_left
  intro place hplace
  exact readLine_line (spellable_of_mem_places h hplace)

theorem map_mark_places (f : Formula) : f.places.map mark = (0, f.label) :: marks f.children := by
  rw [places_eq, List.map_cons]
  rfl

theorem eq_of_render_outline_eq (hf : f.Spellable) (hg : g.Spellable)
    (same : f.outline.render = g.outline.render) : f = g := by
  have lines : f.places.map Place.line = g.places.map Place.line := by
    have found := parts?_render_outline hf
    rw [same, parts?_render_outline hg] at found
    exact (Option.some.inj found).symm
  have marked := congrArg (List.map readLine) lines
  rw [map_readLine_places hf, map_readLine_places hg, map_mark_places, map_mark_places,
    List.cons.injEq, Prod.mk.injEq] at marked
  exact eq_of_label_of_children marked.1.2 (eq_of_marks_eq marked.2)

end Text

/-- **Outlines lose nothing.** Formulas with the same outline are equal, whatever their names are. If
the names are identifiers, formulas whose outlines are printed alike are equal too. The text then has
as many lines as the formula has parts, and each of them is four columns for every formula that the
part is below, and the label of the part. The longest columns are those of the depth. -/
theorem outline_is_lossless :
    (∀ f g : Formula, f.outline = g.outline → f = g) ∧
      (∀ f g : Formula, f.Spellable → g.Spellable → f.outline.render = g.outline.render → f = g) ∧
      ∀ f : Formula, f.Spellable →
        (∃ lines, parts? '\n' f.outline.render = some lines ∧ lines.length = f.size ∧
          lines = f.places.map fun place => guide place.way ++ place.part.label) ∧
        f.places.map Place.part = f.parts ∧
        (∀ place ∈ f.places, (guide place.way).length = 4 * place.way.length ∧
          (guide place.way).length ≤ 4 * (f.depth - 1)) ∧
        ∃ place ∈ f.places, (guide place.way).length = 4 * (f.depth - 1) := by
  refine ⟨?_, fun f g => eq_of_render_outline_eq, fun f spellable => ⟨⟨_, ?_, ?_, rfl⟩, ?_, ?_, ?_⟩⟩
  · intro f g same
    exact List.singleton_inj.mp (eq_of_map_outline_eq (by rw [List.map_singleton, same]; rfl))
  · exact parts?_render_outline spellable
  · rw [List.length_map, ← length_parts, ← map_part_places, List.length_map]
  · exact map_part_places f
  · intro place hplace
    have shorter := length_way_lt_depth hplace
    rw [Place.length_guide]
    omega
  · obtain ⟨place, hplace, longest⟩ := f.exists_length_way_eq
    refine ⟨place, hplace, ?_⟩
    rw [Place.length_guide]
    omega

/-- The name `N` is told apart from the joint denial that it stands in. With a newline in it a name can
be printed like a formula, but the outlines differ. -/
theorem outline_is_lossless_nor :
    let f := nor (atom "N") [neg (atom "a"), atom "b"]
    let lines := ["N", "├── N", "├── ¬", "│   └── a", "└── b"]
    let name := atom "N\n└── N"
    f.Spellable ∧ parts? '\n' f.outline.render = some lines ∧ lines.length = f.size ∧
      (∃ place ∈ f.places, (guide place.way).length = 4 * (3 - 1)) ∧
      (∀ g : Formula, g.Spellable → g.outline.render = f.outline.render → g = f) ∧
      name.outline.render = (nor (atom "N") []).outline.render ∧
      name.outline ≠ (nor (atom "N") []).outline := by
  intro f lines name
  obtain ⟨injective, printed, text⟩ := outline_is_lossless
  have spellable : f.Spellable := by
    have leaves : f.leaves = ["N", "a", "b"] := by simp [f, leaves]
    rw [Spellable, leaves]
    decide
  have placed : f.places.map Place.line = lines := by
    simp only [f, places, placesBelow, List.map_cons, List.map_nil, List.cons_append, List.nil_append]
    rfl
  have depth : f.depth = 3 := by simp [f, Formula.depth]
  obtain ⟨⟨found, split, length, rfl⟩, _, _, longest⟩ := text f spellable
  have same : name.outline.render = (nor (atom "N") []).outline.render := by
    simp only [Outline.render, lines_outline, name, places, placesBelow, List.map_cons, List.map_nil,
      List.append_nil]
    rfl
  rw [show (f.places.map fun place => guide place.way ++ place.part.label) = lines from placed]
    at split length
  rw [depth] at longest
  refine ⟨spellable, split, length, longest, fun g hg => printed g f hg spellable, same, ?_⟩
  intro equal
  have alike : atom "N\n└── N" = nor (atom "N") [] := injective _ _ equal
  cases alike

end Formula

end Propositional
