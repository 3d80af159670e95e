import Mathlib.Data.List.Destutter
import Propositional.Explanation

/-!
# Steps in an explanation

A step that is added leaves everything before it as it is, and what it does depends on the last note
alone. So the steps of a run that are kept are those that differ from the step directly before them:
a repeated one is left out, but no text is lost altogether.
-/

namespace Propositional

section
variable {α : Type} [DecidableEq α] {x : α}

theorem mem_destutter'_ne_iff {a : α} {l : List α} : x ∈ l.destutter' (· ≠ ·) a ↔ x ∈ a :: l := by
  induction l generalizing a with
  | nil => rfl
  | cons b l ih =>
    by_cases same : a = b
    · rw [List.destutter'_cons_neg _ (by simp [same]), ih, same]
      simp
    · rw [List.destutter'_cons_pos _ same, List.mem_cons, ih, ← List.mem_cons]

/-- Leaving out repeats in a row loses no element. -/
theorem mem_destutter_ne_iff {l : List α} : x ∈ l.destutter (· ≠ ·) ↔ x ∈ l := by
  cases l with
  | nil => rfl
  | cons a l => exact mem_destutter'_ne_iff

end

namespace Explanation

section
variable {e : Explanation} {text : String}

theorem addStep_of_back?_eq (h : e.notes.back? = some (.step text)) : e.addStep text = e := by
  rw [addStep, h]
  exact if_pos rfl

theorem addStep_of_back?_ne (h : e.notes.back? ≠ some (.step text)) :
    e.addStep text = { e with notes := e.notes.push (.step text) } := by
  rw [addStep]
  split
  · rename_i last back
    rw [if_neg fun (same : last = text) => h (same ▸ back)]
  · rfl

end

/-- An explanation without parts. -/
def ofSteps (heading : String) (steps : List String) : Explanation :=
  ⟨heading, (steps.map .step).toArray⟩

section
variable {heading text : String} {steps : List String}

theorem back?_ofSteps : (ofSteps heading steps).notes.back? = steps.getLast?.map .step := by
  rw [ofSteps, List.back?_toArray, List.getLast?_map]

theorem addStep_ofSteps_of_eq (h : steps.getLast? = some text) :
    (ofSteps heading steps).addStep text = ofSteps heading steps := by
  apply addStep_of_back?_eq
  rw [back?_ofSteps, h, Option.map_some]

theorem addStep_ofSteps_of_ne (h : steps.getLast? ≠ some text) :
    (ofSteps heading steps).addStep text = ofSteps heading (steps ++ [text]) := by
  have differs : (ofSteps heading steps).notes.back? ≠ some (.step text) := by
    rw [back?_ofSteps]
    simpa using h
  rw [addStep_of_back?_ne differs]
  simp [ofSteps]

theorem foldl_addStep_ofSteps (before : List String) (last : String) (texts : List String) :
    texts.foldl addStep (ofSteps heading (before ++ [last])) =
      ofSteps heading (before ++ texts.destutter' (· ≠ ·) last) := by
  induction texts generalizing before last with
  | nil => rfl
  | cons text texts ih =>
    rw [List.foldl_cons]
    by_cases same : last = text
    · rw [addStep_ofSteps_of_eq (by simp [same]), ih, List.destutter'_cons_neg _ (by simp [same])]
    · rw [addStep_ofSteps_of_ne (by simp [same]), ih, List.destutter'_cons_pos _ same,
        List.append_assoc, List.singleton_append]

/-- Steps written one after the other: of equal ones in a row the first is kept. -/
theorem foldl_addStep_titled (heading : String) (texts : List String) :
    texts.foldl addStep (titled heading) = ofSteps heading (texts.destutter (· ≠ ·)) := by
  cases texts with
  | nil => rfl
  | cons text texts =>
    have start : (titled heading).addStep text = ofSteps heading ([] ++ [text]) := rfl
    rw [List.foldl_cons, start, foldl_addStep_ofSteps, List.nil_append, List.destutter_cons']

end

end Explanation

end Propositional
