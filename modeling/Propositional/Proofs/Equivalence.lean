import Propositional.Journal
import Propositional.Proofs.Enumeration

/-!
# The check decides equivalence

Two formulas agree when they have the same value under every interpretation that assigns the
variables of both. There are infinitely many of these, but only the values of the variables count
(`agree_iff`), and the enumeration goes through all of them. So the formulas agree exactly if the
search finds no difference, and if it finds one, that is the first.

No search fails on the way: there is a variable to enumerate, and each interpretation enumerated
gives a value to every name.
-/

namespace Propositional

namespace Formula

/-- The same value under every interpretation of the variables of both, whatever else it assigns. -/
def Agree (l r : Formula) : Prop :=
  ∀ i : Interpretation, i.Assigns (l.variableSet.union r.variableSet) → l.evaluate i = r.evaluate i

variable {l r : Formula} {i : Interpretation}

theorem evaluate_of_assigns_union (h : i.Assigns (l.variableSet.union r.variableSet)) :
    l.evaluate i = .ok (l.holds i.value) ∧ r.evaluate i = .ok (r.holds i.value) := by
  obtain ⟨hl, hr⟩ := Interpretation.assigns_union.mp h
  exact ⟨evaluate_of_assigns hl, evaluate_of_assigns hr⟩

theorem evaluate_eq_iff (h : i.Assigns (l.variableSet.union r.variableSet)) :
    l.evaluate i = r.evaluate i ↔ l.holds i.value = r.holds i.value := by
  obtain ⟨hl, hr⟩ := evaluate_of_assigns_union h
  rw [hl, hr, Except.ok.injEq]

/-- All values of the variables of both are those of an interpretation that is enumerated. -/
theorem exists_ofNumber_holds (l r : Formula) (v : String → Bool) :
    let vs := l.variableSet.union r.variableSet
    ∃ number < vs.interpretationCount,
      l.holds (Interpretation.ofNumber vs number).value = l.holds v ∧
        r.holds (Interpretation.ofNumber vs number).value = r.holds v := by
  intro vs
  obtain ⟨number, hnumber, values⟩ := Interpretation.exists_ofNumber vs v
  have hl : ∀ name ∈ l.leaves, (Interpretation.ofNumber vs number).value name = v name := by
    intro name hname
    exact values name (VariableSet.mem_union.mpr (.inl (mem_variableSet.mpr hname)))
  have hr : ∀ name ∈ r.leaves, (Interpretation.ofNumber vs number).value name = v name := by
    intro name hname
    exact values name (VariableSet.mem_union.mpr (.inr (mem_variableSet.mpr hname)))
  exact ⟨number, hnumber, holds_congr hl, holds_congr hr⟩

theorem agree_iff : Agree l r ↔ ∀ v, l.holds v = r.holds v := by
  constructor
  · intro h v
    obtain ⟨number, _, hl, hr⟩ := exists_ofNumber_holds l r v
    have assigned := Interpretation.assigns_ofNumber (l.variableSet.union r.variableSet) number
    rw [← hl, ← hr]
    exact (evaluate_eq_iff assigned).mp (h _ assigned)
  · intro h i assigned
    exact (evaluate_eq_iff assigned).mpr (h i.value)

/-- Whether the formulas have different truth values under the interpretation. -/
def differs (l r : Formula) (i : Interpretation) : Bool :=
  l.holds i.value != r.holds i.value

theorem differs_eq_false_iff (h : i.Assigns (l.variableSet.union r.variableSet)) :
    l.differs r i = false ↔ l.evaluate i = r.evaluate i := by
  rw [evaluate_eq_iff h, differs, bne_eq_false_iff_eq]

theorem differ_ofNumber (l r : Formula) (number : Nat) :
    let i := Interpretation.ofNumber (l.variableSet.union r.variableSet) number
    l.differ r i = .ok (l.differs r i) := by
  intro i
  obtain ⟨hl, hr⟩ := evaluate_of_assigns_union (Interpretation.assigns_ofNumber
    (l.variableSet.union r.variableSet) number)
  rw [differ, hl, hr]
  rfl

/-- The search goes through all interpretations of the variables in their order. Its only error is
that of the enumeration. -/
theorem firstDifference_eq (l r : Formula) :
    l.firstDifference r =
      match Interpretation.all (l.variableSet.union r.variableSet) with
      | .error e => .error (.atomCount e)
      | .ok interpretations => .ok (interpretations.find? (l.differs r)) := by
  let vs := l.variableSet.union r.variableSet
  have found : ((List.range vs.interpretationCount).findM? fun number =>
        l.differ r (.ofNumber vs number)) =
      .ok ((List.range vs.interpretationCount).find? (l.differs r ∘ Interpretation.ofNumber vs)) := by
    have pure : (fun number => l.differ r (.ofNumber vs number)) =
        fun number => .ok ((l.differs r ∘ Interpretation.ofNumber vs) number) :=
      funext (differ_ofNumber l r)
    rw [pure]
    exact List.findM?_pure _ _
  rw [firstDifference, Interpretation.all_eq_map_checkCount (size_union_pos l r)]
  cases (l.variableSet.union r.variableSet).checkCount with
  | error e => rfl
  | ok =>
    simp only [vs] at found
    simp only [found, Except.map, List.find?_map]

/-- Nothing is found exactly if there is nothing to find. -/
theorem find?_differs_eq_none_iff {interpretations : List Interpretation}
    (h : Interpretation.all (l.variableSet.union r.variableSet) = .ok interpretations) :
    interpretations.find? (l.differs r) = none ↔ Agree l r := by
  obtain ⟨_, rfl⟩ := Interpretation.all_eq_ok_iff.mp h
  rw [List.find?_eq_none, List.forall_mem_map, agree_iff]
  constructor
  · intro same v
    obtain ⟨number, hnumber, hl, hr⟩ := exists_ofNumber_holds l r v
    have := same number (List.mem_range.mpr hnumber)
    simpa [differs, hl, hr] using this
  · intro same number _
    simp [differs, same]

theorem equivalent_of_all_error {e : AtomCountError}
    (h : Interpretation.all (l.variableSet.union r.variableSet) = .error e) :
    l.equivalent r = .error (.atomCount e) := by
  rw [equivalent, firstDifference_eq, h]
  rfl

theorem equivalent_of_all_ok {interpretations : List Interpretation}
    (h : Interpretation.all (l.variableSet.union r.variableSet) = .ok interpretations) :
    l.equivalent r = .ok (interpretations.find? (l.differs r)).isNone := by
  rw [equivalent, firstDifference_eq, h]
  rfl

/-- The check of the formulas says yes, unless they have more than twenty variables together. -/
def Passes (l r : Formula) : Prop :=
  let vs := l.variableSet.union r.variableSet
  l.equivalent r = if vs.size > 20 then .error (.atomCount (.tooManyAtoms vs.size 20)) else .ok true

theorem passes_of_agree (h : Agree l r) : l.Passes r := by
  by_cases tooMany : (l.variableSet.union r.variableSet).size > 20
  · rw [Passes, if_pos tooMany]
    exact equivalent_of_all_error (Interpretation.all_eq_error_iff.mpr ⟨tooMany, rfl⟩)
  · have enumerated := Interpretation.all_eq_ok_iff.mpr ⟨Nat.le_of_not_gt tooMany, rfl⟩
    rw [Passes, if_neg tooMany, equivalent_of_all_ok enumerated,
      (find?_differs_eq_none_iff enumerated).mpr h]
    rfl

theorem agree_of_equivalent (h : l.equivalent r = .ok true) : Agree l r := by
  cases all : Interpretation.all (l.variableSet.union r.variableSet) with
  | error e =>
    rw [equivalent_of_all_error all] at h
    cases h
  | ok interpretations =>
    rw [equivalent_of_all_ok all, Except.ok.injEq, Option.isNone_iff_eq_none] at h
    exact (find?_differs_eq_none_iff all).mp h

/-- The first difference among the interpretations, as it is recorded. -/
theorem exists_first_difference {interpretations : List Interpretation}
    (h : Interpretation.all (l.variableSet.union r.variableSet) = .ok interpretations)
    (unequal : l.equivalent r = .ok false) :
    ∃ before i after, interpretations = before ++ i :: after ∧
      (∀ j ∈ before, l.evaluate j = r.evaluate j) ∧ l.evaluate i ≠ r.evaluate i ∧
      Journal.ofEquivalence l r =
        [⟨.debug, l.render ++ " and " ++ r.render ++ " differ under " ++ i.display⟩] := by
  rw [equivalent_of_all_ok h] at unequal
  cases found : interpretations.find? (l.differs r) with
  | none =>
    rw [found] at unequal
    cases unequal
  | some i =>
    have assigned := Interpretation.assigns_of_mem_all h
    obtain ⟨isDifference, before, after, split, noneBefore⟩ :=
      List.find?_eq_some_iff_append.mp found
    subst split
    refine ⟨before, i, after, rfl, fun j hj => ?_, fun same => ?_, ?_⟩
    · have hassigned := assigned j (List.mem_append_left _ hj)
      exact (differs_eq_false_iff hassigned).mp (by simpa using noneBefore j hj)
    · have hassigned := assigned i (List.mem_append_right _ List.mem_cons_self)
      rw [(differs_eq_false_iff hassigned).mpr same] at isDifference
      cases isDifference
    · rw [Journal.ofEquivalence, firstDifference_eq, h]
      simp only [found]

/-- **The check decides equivalence.** Above twenty variables in both formulas together it is refused,
and for no other reason. Else the answer is true exactly if the formulas agree under every
interpretation of these variables, also under those that assign more names. With the answer false the
first interpretation in the order of the enumeration under which the formulas differ is recorded. -/
theorem equivalent_decides (l r : Formula) :
    let vs := l.variableSet.union r.variableSet
    (∀ e, l.equivalent r = .error e ↔
        vs.size > 20 ∧ e = .atomCount (.tooManyAtoms vs.size 20)) ∧
      (l.equivalent r = .ok true ↔ vs.size ≤ 20 ∧ Agree l r) ∧
      (l.equivalent r = .ok false ↔ vs.size ≤ 20 ∧ ¬ Agree l r) ∧
      (l.equivalent r = .ok false → ∃ before i after,
        Interpretation.all vs = .ok (before ++ i :: after) ∧
        (∀ j ∈ before, l.evaluate j = r.evaluate j) ∧ l.evaluate i ≠ r.evaluate i ∧
        Journal.ofEquivalence l r =
          [⟨.debug, l.render ++ " and " ++ r.render ++ " differ under " ++ i.display⟩]) := by
  intro vs
  cases all : Interpretation.all vs with
  | error e =>
    obtain ⟨tooMany, rfl⟩ := Interpretation.all_eq_error_iff.mp all
    have many : vs.size > 20 := tooMany
    have notFew : ¬ vs.size ≤ 20 := by omega
    rw [equivalent_of_all_error all, Interpretation.maxVariables]
    simp [many, notFew, eq_comm]
  | ok interpretations =>
    have few : vs.size ≤ 20 := (Interpretation.all_eq_ok_iff.mp all).1
    have notMany : ¬ vs.size > 20 := by omega
    have answer := equivalent_of_all_ok all
    have agree := find?_differs_eq_none_iff all
    refine ⟨?_, ?_, ?_, fun unequal => ?_⟩
    · simp [answer, notMany]
    · rw [answer, Except.ok.injEq, Option.isNone_iff_eq_none, agree]
      simp [few]
    · rw [answer, Except.ok.injEq, Option.isNone_eq_false_iff, ← agree]
      simp [few, Option.isSome_iff_ne_none]
    · obtain ⟨before, i, after, rfl, first⟩ := exists_first_difference all unequal
      exact ⟨before, i, after, rfl, first⟩

/-- An implication and its converse differ first where only the second name is true. -/
theorem equivalent_decides_converse :
    let l := binary .impl (atom "a") (atom "b")
    let r := binary .impl (atom "b") (atom "a")
    let record : Record := ⟨.debug, "(a → b) and (b → a) differ under {¬a, b}"⟩
    l.equivalent r = .ok false ∧ ¬ Agree l r ∧ Journal.ofEquivalence l r = [record] ∧
      ∃ before i after,
        Interpretation.all (l.variableSet.union r.variableSet) = .ok (before ++ i :: after) ∧
        (∀ j ∈ before, l.evaluate j = r.evaluate j) ∧ l.evaluate i ≠ r.evaluate i ∧
        Journal.ofEquivalence l r =
          [⟨.debug, l.render ++ " and " ++ r.render ++ " differ under " ++ i.display⟩] := by
  intro l r record
  let vs := (VariableSet.ofList ["a", "b"]).union (.ofList ["b", "a"])
  have all : Interpretation.all (l.variableSet.union r.variableSet) =
      .ok ((List.range 4).map (.ofNumber vs)) := by
    have left : l.leaves = ["a", "b"] := by simp [l, leaves]
    have right : r.leaves = ["b", "a"] := by simp [r, leaves]
    rw [variableSet, variableSet, left, right]
    rfl
  have found : ((List.range 4).map (.ofNumber vs)).find? (l.differs r) = some (.ofNumber vs 1) := by
    have differs : l.differs r = fun i => BinaryOp.impl.apply (i.value "a") (i.value "b") !=
        BinaryOp.impl.apply (i.value "b") (i.value "a") := by
      funext i
      simp only [l, r, differs, holds]
    rw [differs]
    rfl
  have unequal : l.equivalent r = .ok false := by
    rw [equivalent_of_all_ok all, found]
    rfl
  have differ : Journal.ofEquivalence l r = [record] := by
    have sorted : (Interpretation.ofNumber vs 1).display = "\x7b¬a, b\x7d" := by
      rw [Interpretation.display, List.mergeSort_of_pairwise (by decide)]
      rfl
    rw [Journal.ofEquivalence, firstDifference_eq, all]
    simp only [found, sorted, l, r, render]
    rfl
  obtain ⟨_, _, isFalse, recorded⟩ := equivalent_decides l r
  exact ⟨unequal, (isFalse.mp unequal).2, differ, recorded unequal⟩

end Formula

end Propositional
