import Propositional.Formula.View
import Propositional.Proofs.Parts
import Propositional.Restriction.Weight

/-!
# The lines of an outline

The outline of a formula has a line for each of its parts, in the order of the parts
(`lines_outline`). A `Place` is a part with the way down to it, and the way determines what stands
before the label: four columns for each formula that is passed. So the deepest part, with the depth of
the formula, has the longest way.
-/

namespace Propositional

/-- A part of a formula and the way down to it: of each formula on the way, the part included, whether
it is the last operand. -/
structure Place where
  way : List Bool
  part : Formula

namespace Place

/-- The same part seen from one formula higher. -/
def below (last : Bool) (place : Place) : Place :=
  ⟨last :: place.way, place.part⟩

/-- The columns that lead the line of a place, four for each formula on the way. A branch ends at the
part itself; above, it goes on where other operands follow. -/
def guide : List Bool → String
  | [] => ""
  | [last] => if last then "└── " else "├── "
  | last :: way => (if last then "    " else "│   ") ++ guide way

def line (place : Place) : String :=
  guide place.way ++ place.part.label

theorem guide_cons {way : List Bool} (h : way ≠ []) (last : Bool) :
    guide (last :: way) = (if last then "    " else "│   ") ++ guide way := by
  cases way with
  | nil => exact absurd rfl h
  | cons next way => rfl

/-- Each formula on the way has four columns. -/
theorem length_guide (way : List Bool) : (guide way).length = 4 * way.length := by
  induction way with
  | nil => rfl
  | cons last way ih =>
    cases way with
    | nil => cases last <;> rfl
    | cons next way =>
      have columns : (if last then "    " else "│   ").length = 4 := by cases last <;> rfl
      rw [guide_cons (by simp), String.length_append, ih, columns]
      simp only [List.length_cons]
      omega

end Place

namespace Formula

open Place (guide)

mutual

/-- The places of the parts, each before those of its operands. -/
def places : Formula → List Place
  | .atom name => [⟨[], .atom name⟩]
  | .neg f => ⟨[], .neg f⟩ :: f.places.map (Place.below true)
  | .binary op l r =>
    ⟨[], .binary op l r⟩ :: (l.places.map (Place.below false) ++ r.places.map (Place.below true))
  | .nor f fs => ⟨[], .nor f fs⟩ :: (f.places.map (Place.below fs.isEmpty) ++ placesBelow fs)

/-- The places of operands and of their parts, seen from the formula above. -/
def placesBelow : List Formula → List Place
  | [] => []
  | f :: fs => f.places.map (Place.below fs.isEmpty) ++ placesBelow fs

end

theorem places_eq (f : Formula) : f.places = ⟨[], f⟩ :: placesBelow f.children := by
  cases f <;> simp [places, placesBelow, children]

/-- Where the places of several operands come from. -/
theorem mem_placesBelow {fs : List Formula} {place : Place} (h : place ∈ placesBelow fs) :
    ∃ f ∈ fs, ∃ inner ∈ f.places, ∃ last, place = inner.below last := by
  induction fs with
  | nil => cases h
  | cons f fs ih =>
    rw [placesBelow, List.mem_append, List.mem_map] at h
    obtain ⟨inner, hinner, rfl⟩ | h := h
    · exact ⟨f, List.mem_cons_self, inner, hinner, _, rfl⟩
    · obtain ⟨g, hg, found⟩ := ih h
      exact ⟨g, List.mem_cons_of_mem f hg, found⟩

theorem exists_below_mem_placesBelow {fs : List Formula} {f : Formula} (hf : f ∈ fs) {place : Place}
    (h : place ∈ f.places) : ∃ last, place.below last ∈ placesBelow fs := by
  induction fs with
  | nil => cases hf
  | cons g gs ih =>
    rw [placesBelow]
    obtain rfl | hf := List.mem_cons.mp hf
    · exact ⟨gs.isEmpty, List.mem_append_left _ (List.mem_map_of_mem h)⟩
    · obtain ⟨last, found⟩ := ih hf
      exact ⟨last, List.mem_append_right _ found⟩

theorem way_ne_nil {fs : List Formula} {place : Place} (h : place ∈ placesBelow fs) :
    place.way ≠ [] := by
  obtain ⟨_, _, inner, _, last, rfl⟩ := mem_placesBelow h
  exact List.cons_ne_nil last inner.way

theorem map_part_placesBelow (fs : List Formula) :
    (placesBelow fs).map Place.part = fs.flatMap parts := by
  induction fs using operands_ind with
  | nil => rfl
  | cons f fs operands others =>
    have below (last : Bool) : Place.part ∘ Place.below last = Place.part := rfl
    rw [placesBelow, List.map_append, List.map_map, below, others, List.flatMap_cons, places_eq,
      List.map_cons, operands, parts_eq]

/-- The places are those of the parts in their order. -/
theorem map_part_places (f : Formula) : f.places.map Place.part = f.parts := by
  rw [places_eq, List.map_cons, map_part_placesBelow, parts_eq]

theorem foldl_size_eq {fs : List Formula} (h : ∀ f ∈ fs, f.parts.length = f.size) (n : Nat) :
    (fs.map size).foldl (· + ·) n = n + (fs.flatMap parts).length := by
  induction fs generalizing n with
  | nil => rfl
  | cons f fs ih =>
    rw [List.forall_mem_cons] at h
    rw [List.map_cons, List.foldl_cons, ih h.2, List.flatMap_cons, List.length_append, h.1]
    omega

theorem length_parts (f : Formula) : f.parts.length = f.size := by
  induction f with
  | atom name => rw [parts, List.length_singleton, size]
  | neg f ih =>
    rw [parts, List.length_cons, ih, size]
    omega
  | binary op l r ihl ihr =>
    rw [parts, List.length_cons, List.length_append, ihl, ihr, size]
    omega
  | nor f fs ih ihs =>
    rw [parts, List.length_cons, List.length_append, ih, size, foldl_size_eq ihs]
    omega

section Depth

theorem depth_pos (f : Formula) : 0 < f.depth := by
  cases f <;> rw [depth] <;> omega

theorem depth_lt_of_mem_children {f g : Formula} (h : g ∈ f.children) : g.depth < f.depth := by
  cases f with
  | atom name => cases h
  | neg f =>
    rw [children, List.mem_singleton] at h
    subst h
    rw [depth]
    omega
  | binary op l r =>
    have either : g = l ∨ g = r := by simpa [children] using h
    rw [depth]
    obtain rfl | rfl := either <;> omega
  | nor f fs =>
    obtain ⟨first, rest⟩ := le_foldl_max (fs.map depth) f.depth
    rw [depth]
    obtain rfl | h := List.mem_cons.mp h
    · omega
    · have := rest g.depth (List.mem_map_of_mem h)
      omega

theorem exists_foldl_max_eq (f : Formula) (fs : List Formula) :
    ∃ g ∈ f :: fs, g.depth = (fs.map depth).foldl max f.depth := by
  induction fs generalizing f with
  | nil => exact ⟨f, List.mem_cons_self, rfl⟩
  | cons g gs ih =>
    rw [List.map_cons, List.foldl_cons]
    by_cases deeper : f.depth ≤ g.depth
    · obtain ⟨h, hh, same⟩ := ih g
      rw [Nat.max_eq_right deeper]
      exact ⟨h, List.mem_cons_of_mem f hh, same⟩
    · obtain ⟨h, hh, same⟩ := ih f
      rw [Nat.max_eq_left (by omega)]
      refine ⟨h, ?_, same⟩
      obtain rfl | hh := List.mem_cons.mp hh
      · exact List.mem_cons_self
      · exact List.mem_cons_of_mem f (List.mem_cons_of_mem g hh)

/-- Below every formula but an atom there is one that is less deep by one. -/
theorem exists_child_depth_eq (f : Formula) :
    f.depth = 1 ∨ ∃ g ∈ f.children, f.depth = g.depth + 1 := by
  cases f with
  | atom name => exact .inl (by rw [depth])
  | neg f => exact .inr ⟨f, List.mem_cons_self, by rw [depth]; omega⟩
  | binary op l r =>
    right
    by_cases deeper : l.depth ≤ r.depth
    · exact ⟨r, by simp [children], by rw [depth]; omega⟩
    · exact ⟨l, by simp [children], by rw [depth]; omega⟩
  | nor f fs =>
    obtain ⟨g, hg, same⟩ := exists_foldl_max_eq f fs
    exact .inr ⟨g, hg, by rw [depth]; omega⟩

/-- No way is as long as the formula is deep. -/
theorem length_way_lt_depth {f : Formula} {place : Place} (h : place ∈ f.places) :
    place.way.length < f.depth := by
  induction f using children_ind generalizing place with
  | step f ih =>
    rw [places_eq, List.mem_cons] at h
    obtain rfl | h := h
    · exact f.depth_pos
    · obtain ⟨g, hg, inner, hinner, last, rfl⟩ := mem_placesBelow h
      have shorter := ih g hg hinner
      have higher := depth_lt_of_mem_children hg
      rw [Place.below, List.length_cons]
      omega

theorem exists_length_way_eq (f : Formula) : ∃ place ∈ f.places, place.way.length + 1 = f.depth := by
  induction f using children_ind with
  | step f ih =>
    rw [places_eq]
    obtain flat | ⟨g, hg, deep⟩ := f.exists_child_depth_eq
    · exact ⟨_, List.mem_cons_self, flat.symm⟩
    · obtain ⟨place, hplace, deepest⟩ := ih g hg
      obtain ⟨last, found⟩ := exists_below_mem_placesBelow hg hplace
      refine ⟨_, List.mem_cons_of_mem _ found, ?_⟩
      rw [Place.below, List.length_cons, deepest, deep]

end Depth

section Lines

theorem branches_map_outline (indent : String) (fs : List Formula) :
    Outline.branches indent (fs.map outline) = (placesBelow fs).map (indent ++ ·.line) := by
  induction fs using operands_ind generalizing indent with
  | nil => rw [List.map_nil, Outline.branches, placesBelow, List.map_nil]
  | cons f fs operands others =>
    have deeper (last : Bool) :
        (placesBelow f.children).map ((indent ++ ·.line) ∘ Place.below last) =
          (placesBelow f.children).map ((indent ++ if last then "    " else "│   ") ++ ·.line) := by
      apply List.map_congr_left
      intro place hplace
      rw [Function.comp_apply, Place.line, Place.below, Place.guide_cons (way_ne_nil hplace),
        Place.line, String.append_assoc, String.append_assoc]
    have own (last : Bool) : indent ++ (Place.below last ⟨[], f⟩).line =
        indent ++ (if last then "└── " else "├── ") ++ f.label := by
      rw [String.append_assoc]
      rfl
    rw [List.map_cons, outline_eq, placesBelow, List.map_append, List.map_map, places_eq f,
      List.map_cons, Function.comp_apply, own, deeper, ← operands, ← others]
    -- The first label is written in another way where nothing follows.
    cases fs with
    | nil => simp [Outline.branches]
    | cons g gs =>
      rw [List.map_cons, outline_eq g, Outline.branches]
      rfl

/-- The text has a line for each place. -/
theorem lines_outline (f : Formula) : f.outline.lines = f.places.map Place.line := by
  rw [outline_eq, Outline.lines, branches_map_outline, places_eq, List.map_cons]
  simp [Place.line, Place.guide]

end Lines

end Formula

end Propositional
