import Propositional.Proofs.Equivalence
import Propositional.Proofs.Parts

/-!
# Equivalence is a congruence

The check of two formulas looks at the variables of these two only. Still it is symmetric, and what
it says of two pairs and of a formula within another one fits together, because a positive answer
means that the formulas have the same truth values for all values of all names (`agree_iff`). Only the
number of variables can keep the check from saying so again.
-/

namespace Propositional

namespace Formula

/-- A joint denial with a formula between the others. -/
def norAround (before : List Formula) (f : Formula) (after : List Formula) : Formula :=
  match before with
  | [] => .nor f after
  | first :: rest => .nor first (rest ++ f :: after)

/-- A formula with a hole in the place of one part. -/
inductive Context
  | hole
  | neg (inner : Context)
  | left (op : BinaryOp) (inner : Context) (r : Formula)
  | right (op : BinaryOp) (l : Formula) (inner : Context)
  | nor (before : List Formula) (inner : Context) (after : List Formula)

/-- The formula that has this one in the hole. -/
def Context.fill (f : Formula) : Context → Formula
  | .hole => f
  | .neg inner => .neg (inner.fill f)
  | .left op inner r => .binary op (inner.fill f) r
  | .right op l inner => .binary op l (inner.fill f)
  | .nor before inner after => norAround before (inner.fill f) after

variable {f g l r : Formula}

theorem holds_norAround (v : String → Bool) (before : List Formula) (f : Formula)
    (after : List Formula) :
    (norAround before f after).holds v = ((before ++ f :: after).map (holds v)).all (!·) := by
  cases before <;> simp [norAround, holds]

/-- There is a hole for every part of a formula. -/
theorem exists_fill_eq {part : Formula} (h : part ∈ f.parts) : ∃ c : Context, c.fill part = f := by
  induction f with
  | atom name =>
    rw [parts, List.mem_singleton] at h
    exact ⟨.hole, h⟩
  | neg f ih =>
    rw [parts, List.mem_cons] at h
    obtain rfl | h := h
    · exact ⟨.hole, rfl⟩
    · obtain ⟨c, rfl⟩ := ih h
      exact ⟨.neg c, rfl⟩
  | binary op l r ihl ihr =>
    rw [parts, List.mem_cons, List.mem_append] at h
    obtain rfl | h | h := h
    · exact ⟨.hole, rfl⟩
    · obtain ⟨c, rfl⟩ := ihl h
      exact ⟨.left op c r, rfl⟩
    · obtain ⟨c, rfl⟩ := ihr h
      exact ⟨.right op l c, rfl⟩
  | nor first rest ih ihs =>
    rw [parts, List.mem_cons, List.mem_append, List.mem_flatMap] at h
    obtain rfl | h | ⟨g, hg, h⟩ := h
    · exact ⟨.hole, rfl⟩
    · obtain ⟨c, rfl⟩ := ih h
      exact ⟨.nor [] c rest, rfl⟩
    · obtain ⟨c, rfl⟩ := ihs g hg h
      obtain ⟨before, after, rfl⟩ := List.append_of_mem hg
      exact ⟨.nor (first :: before) c after, rfl⟩

theorem holds_fill (same : ∀ v, f.holds v = g.holds v) (c : Context) (v : String → Bool) :
    (c.fill f).holds v = (c.fill g).holds v := by
  induction c with
  | hole => exact same v
  | neg inner ih => rw [Context.fill, Context.fill, holds, holds, ih]
  | left op inner r ih => rw [Context.fill, Context.fill, holds, holds, ih]
  | right op l inner ih => rw [Context.fill, Context.fill, holds, holds, ih]
  | nor before inner after ih =>
    rw [Context.fill, Context.fill, holds_norAround, holds_norAround, List.map_append, List.map_append,
      List.map_cons, List.map_cons, ih]

theorem Agree.refl (f : Formula) : Agree f f := by
  intro i _
  rfl

theorem Agree.trans (h : Agree f g) (h' : Agree g r) : Agree f r := by
  rw [agree_iff] at h h' ⊢
  intro v
  exact (h v).trans (h' v)

theorem Agree.fill (h : Agree f g) (c : Context) : Agree (c.fill f) (c.fill g) :=
  agree_iff.mpr (holds_fill (agree_iff.mp h) c)

theorem differs_comm (l r : Formula) : l.differs r = r.differs l := by
  funext i
  rw [differs, differs, bne_comm]

theorem equivalent_comm (l r : Formula) : l.equivalent r = r.equivalent l := by
  rw [equivalent, equivalent, firstDifference_eq, firstDifference_eq, VariableSet.union_comm,
    differs_comm]

/-- **Equivalence is a congruence up to the number of variables.** The check does not depend on the
order of the formulas, its errors included. No formula differs from itself, a formula in the middle
joins the two that it is equivalent to, also by variables of its own, and equivalent formulas can take
each other's place in any formula, wherever that has a part. In all these cases the check says so, or
there are too many variables to check. -/
theorem equivalent_is_congruence :
    (∀ a b : Formula, a.equivalent b = b.equivalent a) ∧
      (∀ a : Formula, a.Passes a) ∧
      (∀ a b c : Formula, a.equivalent b = .ok true → b.equivalent c = .ok true → a.Passes c) ∧
      (∀ a b : Formula, a.equivalent b = .ok true →
        ∀ c : Context, (c.fill a).Passes (c.fill b)) ∧
      ∀ f part : Formula, part ∈ f.parts → ∃ c : Context, c.fill part = f := by
  refine ⟨equivalent_comm, ?_, ?_, ?_, fun f part => exists_fill_eq⟩
  · intro a
    exact passes_of_agree (.refl a)
  · intro a b c first second
    exact passes_of_agree ((agree_of_equivalent first).trans (agree_of_equivalent second))
  · intro a b h c
    exact passes_of_agree ((agree_of_equivalent h).fill c)

/-- Two tautologies are equivalent by way of a third one, though the three share no name. Next to
nineteen other names in a joint denial, either of them can still be checked, but not both. -/
theorem equivalent_is_congruence_tautologies :
    let same (name : String) : Formula := binary .impl (atom name) (atom name)
    let c : Context := .neg (.nor ("abcdefgh".toList.map fun letter => atom letter.toString) .hole
      ("ijklmnopqrs".toList.map fun letter => atom letter.toString))
    (same "x").equivalent (same "y") = .ok true ∧ (same "y").equivalent (same "z") = .ok true ∧
      (same "x").equivalent (same "z") = .ok true ∧
      (c.fill (same "x")).variableSet.size = 20 ∧ (c.fill (same "z")).variableSet.size = 20 ∧
      (c.fill (same "x")).equivalent (c.fill (same "z")) =
        .error (.atomCount (.tooManyAtoms 21 20)) := by
  intro same c
  have leaves (name : String) : (same name).leaves = [name, name] := by simp [same, Formula.leaves]
  have valid (name : String) (v) : (same name).holds v = true := by
    simp [same, holds, BinaryOp.apply]
  have sets (name name' : String) : (same name).variableSet.union (same name').variableSet =
      (VariableSet.ofList [name, name]).union (.ofList [name', name']) := by
    rw [variableSet, variableSet, leaves, leaves]
  have passes (name name' : String) : (same name).Passes (same name') := by
    apply passes_of_agree
    rw [agree_iff]
    intro v
    rw [valid, valid]
  have first : (same "x").equivalent (same "y") = .ok true := by
    apply (passes "x" "y").trans
    rw [sets]
    rfl
  have second : (same "y").equivalent (same "z") = .ok true := by
    apply (passes "y" "z").trans
    rw [sets]
    rfl
  have filled (name : String) : (c.fill (same name)).leaves =
      ["a", "b", "c", "d", "e", "f", "g", "h", name, name, "i", "j", "k", "l", "m", "n", "o", "p",
        "q", "r", "s"] := by
    simp [c, Context.fill, norAround, Formula.leaves, leaves]
  obtain ⟨_, _, transitive, congruence, _⟩ := equivalent_is_congruence
  have joined : (same "x").Passes (same "z") :=
    transitive (same "x") (same "y") (same "z") first second
  have few : ((same "x").variableSet.union (same "z").variableSet).size = 2 := by
    rw [sets]
    rfl
  rw [Passes, few] at joined
  have many : ((c.fill (same "x")).variableSet.union (c.fill (same "z")).variableSet).size = 21 := by
    rw [variableSet, variableSet, filled, filled]
    rfl
  have inContext : (c.fill (same "x")).Passes (c.fill (same "z")) :=
    congruence (same "x") (same "z") joined c
  rw [Passes, many] at inContext
  have size : (c.fill (same "x")).variableSet.size = 20 ∧ (c.fill (same "z")).variableSet.size = 20 := by
    rw [variableSet, variableSet, filled, filled]
    exact ⟨rfl, rfl⟩
  exact ⟨first, second, joined, size.1, size.2, inContext⟩

end Formula

end Propositional
