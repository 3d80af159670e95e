import Propositional.Evaluation

/-!
# What decides the value of a formula

Evaluation asks two things that do not meddle with each other:

* whether a name is missing, which the leaves alone decide: the first of them without a value is
  reported, whatever the connectives are;
* which truth value the formula has once every name has one, `Formula.holds`.

`evaluate_eq_outcome` joins the two. Two formulas that agree on both have the same value under every
interpretation, errors included.
-/

namespace Propositional

namespace Interpretation

/-- The interpretation gives the name no value. -/
def lacks (i : Interpretation) (name : String) : Bool :=
  (i.get? name).isNone

/-- The value of a name; a name without one counts as false, which nothing depends on. -/
def value (i : Interpretation) (name : String) : Bool :=
  (i.get? name).getD false

end Interpretation

/-- A value, unless a name is missing. -/
def outcome {α : Type} (missing : Option String) (value : α) : Except MissingVariable α :=
  match missing with
  | some name => .error ⟨name⟩
  | none => .ok value

section
variable {α β : Type}

/-- Of two computations in a row the first missing name counts. -/
theorem outcome_bind (missing missing' : Option String) (value : α) (value' : β)
    {next : α → Except MissingVariable β} (h : next value = outcome missing' value') :
    (outcome missing value >>= next) = outcome (missing.or missing') value' := by
  cases missing with
  | some name => rfl
  | none => exact h

theorem outcome_bind_pure (missing : Option String) (value : α) (g : α → β) :
    (outcome missing value >>= fun x => pure (g x)) = outcome missing (g value) := by
  cases missing <;> rfl

theorem outcome_eq_error_iff {missing : Option String} {value : α} {name : String} :
    outcome missing value = .error ⟨name⟩ ↔ missing = some name := by
  cases missing <;> simp [outcome]

end

namespace Formula

/-- The truth value of a formula when every name has one. -/
def holds (v : String → Bool) : Formula → Bool
  | .atom name => v name
  | .neg f => !f.holds v
  | .binary op l r => op.apply (l.holds v) (r.holds v)
  | .nor f fs => !f.holds v && (fs.map (holds v)).all (!·)

theorem mapM_evaluate_eq_outcome {i : Interpretation} {fs : List Formula}
    (ih : ∀ f ∈ fs, f.evaluate i = outcome (f.leaves.find? i.lacks) (f.holds i.value)) :
    fs.mapM (evaluate i) =
      outcome ((fs.flatMap leaves).find? i.lacks) (fs.map (holds i.value)) := by
  induction fs with
  | nil => rfl
  | cons f fs ihs =>
    have hs := ihs fun g hg => ih g (List.mem_cons_of_mem f hg)
    rw [List.mapM_cons, ih f List.mem_cons_self, hs, List.flatMap_cons, List.find?_append]
    exact outcome_bind _ _ _ _ (outcome_bind_pure _ _ _)

/-- The leaves decide whether there is a value, and the values of the names decide which. -/
theorem evaluate_eq_outcome (i : Interpretation) (f : Formula) :
    f.evaluate i = outcome (f.leaves.find? i.lacks) (f.holds i.value) := by
  induction f with
  | atom name =>
    cases h : i.get? name <;>
      simp [evaluate, leaves, holds, outcome, Interpretation.lacks, Interpretation.value, h]
  | neg f ih =>
    rw [evaluate, ih, leaves, holds]
    exact outcome_bind_pure _ _ _
  | binary op l r ihl ihr =>
    rw [evaluate, ihl, ihr, leaves, holds, List.find?_append]
    exact outcome_bind _ _ _ _ (outcome_bind_pure _ _ _)
  | nor f fs ih ihs =>
    rw [evaluate, ih, mapM_evaluate_eq_outcome ihs, leaves, holds, List.find?_append]
    exact outcome_bind _ _ _ _ (outcome_bind_pure _ _ _)

/-- Only the values of the names in it decide the truth value of a formula. -/
theorem holds_congr {v w : String → Bool} {f : Formula} (h : ∀ name ∈ f.leaves, v name = w name) :
    f.holds v = f.holds w := by
  induction f with
  | atom name =>
    rw [leaves, List.forall_mem_singleton] at h
    rw [holds, holds, h]
  | neg f ih =>
    rw [leaves] at h
    rw [holds, holds, ih h]
  | binary op l r ihl ihr =>
    rw [leaves, List.forall_mem_append] at h
    rw [holds, holds, ihl h.1, ihr h.2]
  | nor f fs ih ihs =>
    rw [leaves, List.forall_mem_append, List.forall_mem_flatMap] at h
    have hfs : fs.map (holds v) = fs.map (holds w) :=
      List.map_congr_left fun g hg => ihs g hg (h.2 g hg)
    rw [holds, holds, ih h.1, hfs]

end Formula

end Propositional
