import Mathlib.Data.List.Sort
import Mathlib.Data.String.Basic
import Propositional.Proofs.Evaluation

/-!
# The variables of formulas

A set of variables is determined by its members, whatever order they came in. Every formula has a
variable, and under an interpretation that assigns its variables it has a truth value.
-/

namespace Propositional

namespace VariableSet

theorem eq_of_mem_iff {vs ws : VariableSet} (h : ∀ a, a ∈ vs.names ↔ a ∈ ws.names) : vs = ws := by
  have names : vs.names = ws.names := List.Pairwise.eq_of_mem_iff vs.ascending ws.ascending h
  cases vs
  cases ws
  cases names
  rfl

theorem union_comm (vs ws : VariableSet) : vs.union ws = ws.union vs := by
  apply eq_of_mem_iff
  intro a
  rw [mem_union, mem_union, or_comm]

end VariableSet

namespace Interpretation

/-- Every variable of the set has a value. Other names may have values too. -/
def Assigns (i : Interpretation) (vs : VariableSet) : Prop :=
  ∀ name ∈ vs.names, i.lacks name = false

theorem assigns_union {i : Interpretation} {vs ws : VariableSet} :
    i.Assigns (vs.union ws) ↔ i.Assigns vs ∧ i.Assigns ws := by
  simp only [Assigns, VariableSet.mem_union, or_imp, forall_and]

end Interpretation

namespace Formula

theorem mem_variableSet {f : Formula} {name : String} :
    name ∈ f.variableSet.names ↔ name ∈ f.leaves :=
  VariableSet.mem_ofList

theorem variableSet_neg (f : Formula) : (neg f).variableSet = f.variableSet := by
  rw [variableSet, leaves, variableSet]

theorem leaves_ne_nil (f : Formula) : f.leaves ≠ [] := by
  induction f with
  | atom name => simp [leaves]
  | neg f ih => rwa [leaves]
  | binary op l r ihl _ => simp [leaves, ihl]
  | nor f fs ih _ => simp [leaves, ih]

theorem exists_mem_variableSet (f : Formula) : ∃ name, name ∈ f.variableSet.names := by
  obtain ⟨name, hname⟩ := List.exists_mem_of_ne_nil f.leaves f.leaves_ne_nil
  exact ⟨name, mem_variableSet.mpr hname⟩

theorem size_variableSet_pos (f : Formula) : 0 < f.variableSet.size := by
  obtain ⟨name, hname⟩ := f.exists_mem_variableSet
  exact List.length_pos_of_mem hname

theorem size_union_pos (l r : Formula) : 0 < (l.variableSet.union r.variableSet).size := by
  obtain ⟨name, hname⟩ := l.exists_mem_variableSet
  exact List.length_pos_of_mem (VariableSet.mem_union.mpr (.inl hname))

section Evaluation

variable {i : Interpretation} {f : Formula} {value : Bool}

/-- There is a value exactly if no variable is without one. -/
theorem evaluate_eq_ok_iff :
    f.evaluate i = .ok value ↔ i.Assigns f.variableSet ∧ f.holds i.value = value := by
  have assigns : i.Assigns f.variableSet ↔ f.leaves.find? i.lacks = none := by
    simp [Interpretation.Assigns, mem_variableSet]
  rw [evaluate_eq_outcome, assigns]
  cases f.leaves.find? i.lacks <;> simp [outcome]

theorem evaluate_of_assigns (h : i.Assigns f.variableSet) : f.evaluate i = .ok (f.holds i.value) :=
  evaluate_eq_ok_iff.mpr ⟨h, rfl⟩

end Evaluation

end Formula

end Propositional
