import Propositional.Formula

/-!
# The parts of a formula

The parts of a formula are the formula itself and the parts of its operands. `Contains` asks whether
one of them has a property. `mapOperands` changes the operands and keeps the connective above them.

`children_ind` is the induction for what does not depend on the connective, and `operands_ind` that for
lists of formulas, which goes down to the operands of the first one and on to the others.
-/

namespace Propositional

namespace Formula

/-- Every formula that occurs in a formula, as often as it occurs, each before its own parts. -/
def parts : Formula → List Formula
  | .atom name => [.atom name]
  | .neg f => .neg f :: f.parts
  | .binary op l r => .binary op l r :: (l.parts ++ r.parts)
  | .nor f fs => .nor f fs :: (f.parts ++ fs.flatMap parts)

theorem parts_eq (f : Formula) : f.parts = f :: f.children.flatMap parts := by
  cases f <;> simp [parts, children]

theorem forall_mem_parts {p : Formula → Prop} {f : Formula} :
    (∀ g ∈ f.parts, p g) ↔ p f ∧ ∀ h ∈ f.children, ∀ g ∈ h.parts, p g := by
  rw [parts_eq, List.forall_mem_cons]
  simp only [List.mem_flatMap]
  constructor
  · rintro ⟨self, below⟩
    exact ⟨self, fun h hh g hg => below g ⟨h, hh, hg⟩⟩
  · rintro ⟨self, below⟩
    refine ⟨self, ?_⟩
    rintro g ⟨h, hh, hg⟩
    exact below h hh g hg

/-- Induction on the operands, whatever the connective is. -/
theorem children_ind {motive : Formula → Prop}
    (step : ∀ f, (∀ g ∈ f.children, motive g) → motive f) (f : Formula) : motive f := by
  induction f with
  | atom name => exact step _ (by simp [children])
  | neg f ih => exact step _ (by simp [children, ih])
  | binary op l r ihl ihr => exact step _ (by simp [children, ihl, ihr])
  | nor f fs ih ihs => exact step _ (by simpa [children, ih] using ihs)

/-- Induction on a list of formulas, by the operands of the first one and by the others. -/
theorem operands_ind {motive : List Formula → Prop} (nil : motive [])
    (cons : ∀ f fs, motive f.children → motive fs → motive (f :: fs)) (fs : List Formula) :
    motive fs := by
  have list (fs : List Formula) (h : ∀ f ∈ fs, motive f.children) : motive fs := by
    induction fs with
    | nil => exact nil
    | cons f fs ih =>
      rw [List.forall_mem_cons] at h
      exact cons f fs h.1 (ih h.2)
  have children (f : Formula) : motive f.children := children_ind (fun f ih => list f.children ih) f
  exact list fs fun f _ => children f

/-- Some part of the formula has the property. -/
def Contains (p : Formula → Prop) (f : Formula) : Prop :=
  ∃ g ∈ f.parts, p g

section Contains

variable {p : Formula → Prop} {f : Formula}

theorem contains_iff : f.Contains p ↔ p f ∨ ∃ g ∈ f.children, g.Contains p := by
  simp only [Contains, parts_eq f, List.mem_cons, List.mem_flatMap]
  constructor
  · rintro ⟨h, rfl | ⟨g, hg, hh⟩, ph⟩
    · exact .inl ph
    · exact .inr ⟨g, hg, h, hh, ph⟩
  · rintro (ph | ⟨g, hg, h, hh, ph⟩)
    · exact ⟨f, .inl rfl, ph⟩
    · exact ⟨h, .inr ⟨g, hg, hh⟩, ph⟩

theorem contains_neg : (neg f).Contains p ↔ p (neg f) ∨ f.Contains p := by
  rw [contains_iff]
  simp [children]

theorem contains_binary {op : BinaryOp} {l r : Formula} :
    (binary op l r).Contains p ↔ p (binary op l r) ∨ l.Contains p ∨ r.Contains p := by
  rw [contains_iff]
  simp [children]

theorem contains_nor {fs : List Formula} :
    (nor f fs).Contains p ↔ p (nor f fs) ∨ f.Contains p ∨ ∃ g ∈ fs, g.Contains p := by
  rw [contains_iff]
  simp [children]

end Contains

/-- Replaces the operands of the outermost connective, which stays. -/
def mapOperands (change : Formula → Formula) : Formula → Formula
  | .atom name => .atom name
  | .neg f => .neg (change f)
  | .binary op l r => .binary op (change l) (change r)
  | .nor f fs => .nor (change f) (fs.map change)

theorem kind_mapOperands (change : Formula → Formula) (f : Formula) :
    (f.mapOperands change).kind = f.kind := by
  cases f <;> rfl

theorem children_mapOperands (change : Formula → Formula) (f : Formula) :
    (f.mapOperands change).children = f.children.map change := by
  cases f <;> rfl

theorem mapOperands_eq_self {change : Formula → Formula} {f : Formula}
    (h : ∀ g ∈ f.children, change g = g) : f.mapOperands change = f := by
  cases f with
  | atom name => rfl
  | neg f => rw [mapOperands, h f List.mem_cons_self]
  | binary op l r =>
    have hl : change l = l := h l (by simp [children])
    have hr : change r = r := h r (by simp [children])
    rw [mapOperands, hl, hr]
  | nor f fs =>
    have hf : change f = f := h f List.mem_cons_self
    have hfs : fs.map change = fs.map id :=
      List.map_congr_left fun g hg => h g (List.mem_cons_of_mem f hg)
    rw [mapOperands, hf, hfs, List.map_id]

end Formula

end Propositional
