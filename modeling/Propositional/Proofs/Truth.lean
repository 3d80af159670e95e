import Mathlib.Data.List.Find
import Propositional.Proofs.Variables

/-!
# What evaluation means

`Formula.IsTrue` gives the connectives their meaning as propositions. It knows neither missing names
nor an order of the operands. Evaluation finds this truth value whenever every name of the formula
has a value, and only then. So an operand that decides nothing any more is still asked for its names,
and of the names without a value the leftmost is reported.
-/

namespace Propositional

namespace Interpretation

variable {i : Interpretation} {name : String}

theorem lacks_eq_true_iff : i.lacks name = true ↔ i.get? name = none :=
  Option.isNone_iff_eq_none

theorem lacks_eq_false_iff_exists : i.lacks name = false ↔ ∃ value, i.get? name = some value := by
  rw [lacks, Option.isNone_eq_false_iff, Option.isSome_iff_exists]

theorem value_eq_true_iff : i.value name = true ↔ i.get? name = some true := by
  rw [value]
  cases i.get? name <;> simp

end Interpretation

namespace Formula

/-- The formula is true if the names are true of which `v` says so. -/
def IsTrue (v : String → Prop) : Formula → Prop
  | .atom name => v name
  | .neg f => ¬ f.IsTrue v
  | .binary .and l r => l.IsTrue v ∧ r.IsTrue v
  | .binary .or l r => l.IsTrue v ∨ r.IsTrue v
  | .binary .impl l r => l.IsTrue v → r.IsTrue v
  | .binary .equiv l r => (l.IsTrue v ↔ r.IsTrue v)
  | .binary .scheffer l r => ¬ (l.IsTrue v ∧ r.IsTrue v)
  | .nor f fs => ∀ g ∈ f :: fs, ¬ g.IsTrue v

variable {i j : Interpretation} {f : Formula} {name : String} {value : Bool}

/-- The truth value that is computed is the one that is meant. -/
theorem holds_eq_true_iff {v : String → Bool} : f.holds v = true ↔ f.IsTrue (v · = true) := by
  induction f with
  | atom name => rw [holds, IsTrue]
  | neg f ih => rw [holds, IsTrue, ← ih, Bool.not_eq_true', Bool.not_eq_true]
  | binary op l r ihl ihr =>
    cases op <;> rw [holds, IsTrue, ← ihl, ← ihr, BinaryOp.apply] <;>
      cases l.holds v <;> cases r.holds v <;> decide
  | nor f fs ih ihs =>
    have rest : (fs.map (holds v)).all (!·) = true ↔ ∀ g ∈ fs, ¬ g.IsTrue (v · = true) := by
      rw [List.all_map, List.all_eq_true]
      refine forall₂_congr fun g hg => ?_
      rw [← ihs g hg, Function.comp_apply, Bool.not_eq_true', Bool.not_eq_true]
    rw [holds, IsTrue, List.forall_mem_cons, Bool.and_eq_true, rest, ← ih, Bool.not_eq_true',
      Bool.not_eq_true]

theorem holds_value_eq_true_iff :
    f.holds i.value = true ↔ f.IsTrue fun name => i.get? name = some true := by
  rw [holds_eq_true_iff]
  simp only [Interpretation.value_eq_true_iff]

/-- The leftmost leaf without a value is reported. -/
theorem evaluate_eq_error_iff :
    f.evaluate i = .error ⟨name⟩ ↔ ∃ before after, f.leaves = before ++ name :: after ∧
      i.get? name = none ∧ ∀ earlier ∈ before, ∃ value, i.get? earlier = some value := by
  rw [evaluate_eq_outcome, outcome_eq_error_iff, List.find?_eq_some_iff_append,
    Interpretation.lacks_eq_true_iff]
  simp only [Bool.not_eq_true', Interpretation.lacks_eq_false_iff_exists]
  constructor
  · rintro ⟨missing, before, after, split, present⟩
    exact ⟨before, after, split, missing, present⟩
  · rintro ⟨before, after, split, missing, present⟩
    exact ⟨missing, before, after, split, present⟩

/-- Evaluation looks up the names of the formula and nothing else. -/
theorem evaluate_congr (same : ∀ name ∈ f.variableSet.names, j.get? name = i.get? name) :
    f.evaluate j = f.evaluate i := by
  have atLeaves : ∀ name ∈ f.leaves, j.get? name = i.get? name := fun name hname =>
    same name (mem_variableSet.mpr hname)
  have missing : f.leaves.find? j.lacks = f.leaves.find? i.lacks :=
    List.find?_congr fun name hname => congrArg Option.isNone (atLeaves name hname)
  have value : f.holds j.value = f.holds i.value :=
    holds_congr fun name hname => congrArg (Option.getD · false) (atLeaves name hname)
  rw [evaluate_eq_outcome, evaluate_eq_outcome, missing, value]

/-- **Evaluation is strict and truth-functional.** There is a value if and only if every name of the
formula is assigned; it is then what the connectives mean, and values of other names have no influence
on it. Else the error names the first atom from the left that is not assigned, also where the operands
before it decide the value already. -/
theorem evaluate_is_strict (i : Interpretation) (f : Formula) :
    ((∃ value, f.evaluate i = .ok value) ↔
        ∀ name ∈ f.variableSet.names, ∃ value, i.get? name = some value) ∧
      (∀ value, f.evaluate i = .ok value →
        (value = true ↔ f.IsTrue fun name => i.get? name = some true)) ∧
      (∀ j : Interpretation, (∀ name ∈ f.variableSet.names, j.get? name = i.get? name) →
        f.evaluate j = f.evaluate i) ∧
      ∀ name, f.evaluate i = .error ⟨name⟩ ↔ ∃ before after, f.leaves = before ++ name :: after ∧
        i.get? name = none ∧ ∀ earlier ∈ before, ∃ value, i.get? earlier = some value := by
  refine ⟨?_, fun value computed => ?_, fun j => evaluate_congr, fun name => evaluate_eq_error_iff⟩
  · simp only [evaluate_eq_ok_iff, Interpretation.Assigns,
      Interpretation.lacks_eq_false_iff_exists, exists_and_left, exists_eq', and_true]
  · rw [← (evaluate_eq_ok_iff.mp computed).2]
    exact holds_value_eq_true_iff

/-- The first operand is true, which decides the joint denial, and still the second one is asked for
its names. There `c` has no value either, but it stands behind `b`. -/
theorem evaluate_is_strict_nor :
    let f := nor (atom "a") [binary .and (atom "b") (atom "c")]
    let i := Interpretation.ofEntries [("a", true)]
    let full := Interpretation.ofEntries [("b", true), ("c", false), ("a", false)]
    let other := Interpretation.ofEntries [("z", true), ("a", false), ("b", true), ("c", false)]
    f.evaluate i = .error ⟨"b"⟩ ∧
      (f.evaluate full = .ok true ∧ f.IsTrue fun name => full.get? name = some true) ∧
      (∀ name ∈ f.variableSet.names, other.get? name = full.get? name) ∧
        f.evaluate other = f.evaluate full := by
  intro f i full other
  obtain ⟨_, _, _, missing⟩ := evaluate_is_strict i f
  obtain ⟨_, meaning, unaffected, _⟩ := evaluate_is_strict full f
  have leftmost : f.leaves = ["a"] ++ "b" :: ["c"] := by simp [f, leaves]
  have same : ∀ name ∈ f.variableSet.names, other.get? name = full.get? name := by
    rw [variableSet, leftmost]
    decide
  have computed : f.evaluate full = .ok true := by
    refine evaluate_eq_ok_iff.mpr ⟨?_, ?_⟩
    · rw [Interpretation.Assigns, variableSet, leftmost]
      decide
    · simp only [f, holds, List.map_cons, List.map_nil]
      rfl
  refine ⟨(missing "b").mpr ⟨["a"], ["c"], leftmost, by decide, ?_⟩,
    ⟨computed, (meaning true computed).mp rfl⟩, same, unaffected other same⟩
  intro earlier hearlier
  rw [List.mem_singleton.mp hearlier]
  exact ⟨true, by decide⟩

end Formula

end Propositional
