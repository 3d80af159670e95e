import Mathlib.Data.List.Basic
import Propositional.Interpretation.Enumeration
import Propositional.Proofs.Variables

/-!
# Every interpretation is enumerated

Interpretations are numbered by their digits. Read in order, the digits of a variable put in front
double the interpretations of the others: all of them with the variable false, then all of them with
it true. `map_digits_range` says so; that every combination of values occurs is then clear from the
recursion.
-/

namespace Propositional

namespace Interpretation

/-- The lists of values for the names in this order, the first name slowest and false before true. -/
def assignments : List String → List (List (String × Bool))
  | [] => [[]]
  | name :: rest =>
    (assignments rest).map ((name, false) :: ·) ++ (assignments rest).map ((name, true) :: ·)

/-- The digits of the names do not depend on those before them. -/
theorem digits_shiftLeft_add {k : Nat} {names : List String} (h : names.length ≤ k)
    (number : Nat) : digits (1 <<< k + number) names = digits number names := by
  induction names with
  | nil => rfl
  | cons name rest ih =>
    rw [List.length_cons] at h
    have digit : (1 <<< k + number).testBit rest.length = number.testBit rest.length := by
      rw [Nat.one_shiftLeft]
      exact Nat.testBit_two_pow_add_gt (by omega) number
    rw [digits, digits, digit, ih (by omega)]

theorem digits_of_lt {number : Nat} {rest : List String} (h : number < 1 <<< rest.length)
    (name : String) : digits number (name :: rest) = (name, false) :: digits number rest := by
  rw [Nat.one_shiftLeft] at h
  rw [digits, Nat.testBit_lt_two_pow h]

theorem digits_shiftLeft_length_add {number : Nat} {rest : List String}
    (h : number < 1 <<< rest.length) (name : String) :
    digits (1 <<< rest.length + number) (name :: rest) = (name, true) :: digits number rest := by
  have digit : (1 <<< rest.length + number).testBit rest.length = true := by
    rw [Nat.one_shiftLeft] at h ⊢
    rw [Nat.testBit_two_pow_add_eq, Nat.testBit_lt_two_pow h, Bool.not_false]
  rw [digits, digit, digits_shiftLeft_add (Nat.le_refl _)]

/-- Counting goes through the assignments in their order. -/
theorem map_digits_range (names : List String) :
    (List.range (1 <<< names.length)).map (digits · names) = assignments names := by
  induction names with
  | nil => rfl
  | cons name rest ih =>
    have twice : 1 <<< (name :: rest).length = 1 <<< rest.length + 1 <<< rest.length := by
      rw [List.length_cons, Nat.shiftLeft_succ]
      omega
    have lower : (List.range (1 <<< rest.length)).map (digits · (name :: rest)) =
        (assignments rest).map ((name, false) :: ·) := by
      rw [← ih, List.map_map]
      apply List.map_congr_left
      intro number hnumber
      exact digits_of_lt (List.mem_range.mp hnumber) name
    have upper : (List.range (1 <<< rest.length)).map
          (fun number => digits (1 <<< rest.length + number) (name :: rest)) =
        (assignments rest).map ((name, true) :: ·) := by
      rw [← ih, List.map_map]
      apply List.map_congr_left
      intro number hnumber
      exact digits_shiftLeft_length_add (List.mem_range.mp hnumber) name
    rw [twice, List.range_add, List.map_append, List.map_map, lower, assignments]
    exact congrArg _ upper

/-- The values increase from one assignment to the next: where they differ first, false comes before
true. -/
theorem pairwise_lt_assignments (names : List String) :
    (assignments names).Pairwise fun es es' => es.map Prod.snd < es'.map Prod.snd := by
  induction names with
  | nil => exact List.pairwise_singleton _ _
  | cons name rest ih =>
    rw [assignments, List.pairwise_append, List.pairwise_map, List.pairwise_map]
    refine ⟨ih.imp fun h => ?_, ih.imp fun h => ?_, ?_⟩
    · exact List.cons_lt_cons_iff.mpr (.inr ⟨rfl, h⟩)
    · exact List.cons_lt_cons_iff.mpr (.inr ⟨rfl, h⟩)
    · intro es hes es' hes'
      obtain ⟨below, _, rfl⟩ := List.mem_map.mp hes
      obtain ⟨above, _, rfl⟩ := List.mem_map.mp hes'
      exact List.cons_lt_cons_iff.mpr (.inl Bool.false_lt_true)

/-- Every choice of values is assigned. -/
theorem zip_mem_assignments {names : List String} {values : List Bool}
    (h : values.length = names.length) : names.zip values ∈ assignments names := by
  induction names generalizing values with
  | nil => simp [assignments]
  | cons name rest ih =>
    obtain ⟨value, values, rfl⟩ := List.exists_cons_of_length_eq_add_one h
    have mem := ih (Nat.succ.inj h)
    rw [List.zip_cons_cons, assignments, List.mem_append, List.mem_map, List.mem_map]
    cases value with
    | false => exact .inl ⟨_, mem, rfl⟩
    | true => exact .inr ⟨_, mem, rfl⟩

theorem map_mem_assignments (v : String → Bool) (names : List String) :
    names.map (fun name => (name, v name)) ∈ assignments names := by
  rw [List.map_prod_left_eq_zip]
  exact zip_mem_assignments (List.length_map v)

theorem setEntry_of_notMem {name : String} {entries : List (String × Bool)}
    (h : name ∉ entries.map Prod.fst) (value : Bool) :
    setEntry name value entries = entries ++ [(name, value)] := by
  induction entries with
  | nil => rfl
  | cons entry entries ih =>
    rw [List.map_cons, List.mem_cons, not_or] at h
    rw [setEntry, if_neg fun same => h.1 same.symm, ih h.2, List.cons_append]

/-- Entries for different names stay as they are. -/
theorem entries_foldl_set {i : Interpretation} {entries : List (String × Bool)}
    (h : ((i.entries ++ entries).map Prod.fst).Nodup) :
    (entries.foldl set i).entries = i.entries ++ entries := by
  induction entries generalizing i with
  | nil => rw [List.foldl_nil, List.append_nil]
  | cons entry entries ih =>
    have fresh : entry.1 ∉ i.entries.map Prod.fst := by
      rw [List.map_append, List.map_cons, List.nodup_middle, List.nodup_cons, List.mem_append,
        not_or] at h
      exact h.1.1
    have added : (i.set entry).entries = i.entries ++ [entry] := setEntry_of_notMem fresh entry.2
    have split : i.entries ++ entry :: entries = (i.set entry).entries ++ entries := by
      rw [added, List.append_assoc, List.singleton_append]
    rw [split] at h ⊢
    exact ih h

theorem entries_ofEntries {entries : List (String × Bool)} (h : (entries.map Prod.fst).Nodup) :
    (ofEntries entries).entries = entries :=
  entries_foldl_set h

theorem eq_of_entries {i j : Interpretation} (h : i.entries = j.entries) : i = j := by
  cases i
  cases j
  cases h
  rfl

theorem entries_ofNumber (vs : VariableSet) (number : Nat) :
    (ofNumber vs number).entries = digits number vs.names :=
  rfl

/-- For all values of the variables there is a number that gives them. -/
theorem exists_ofNumber (vs : VariableSet) (v : String → Bool) :
    ∃ number < vs.interpretationCount, ∀ name ∈ vs.names, (ofNumber vs number).value name = v name := by
  have mem := map_mem_assignments v vs.names
  rw [← map_digits_range, List.mem_map] at mem
  obtain ⟨number, hnumber, entries⟩ := mem
  refine ⟨number, List.mem_range.mp hnumber, fun name hname => ?_⟩
  rw [value, get?, entries_ofNumber, entries, List.lookup_graph v hname, Option.getD_some]

theorem lacks_eq_false_iff {i : Interpretation} {name : String} :
    i.lacks name = false ↔ name ∈ i.entries.map Prod.fst := by
  rw [lacks, get?, Option.isNone_eq_false_iff, List.lookup_isSome_iff, List.mem_map]
  constructor
  · rintro ⟨entry, mem, same⟩
    exact ⟨entry, mem, (eq_of_beq same).symm⟩
  · rintro ⟨entry, mem, rfl⟩
    exact ⟨entry, mem, beq_self_eq_true _⟩

theorem assigns_ofNumber (vs : VariableSet) (number : Nat) : (ofNumber vs number).Assigns vs := by
  intro name hname
  rw [lacks_eq_false_iff, entries_ofNumber, map_fst_digits]
  exact hname

section All

variable {vs : VariableSet} {interpretations : List Interpretation}

theorem all_eq_error_iff {e : AtomCountError} :
    all vs = .error e ↔ vs.size > maxVariables ∧ e = .tooManyAtoms vs.size maxVariables := by
  rw [all, firstOf]
  split
  · rename_i tooMany
    rw [Except.error.injEq, eq_comm]
    simp [tooMany]
  · rename_i notTooMany
    simp [notTooMany]

theorem all_eq_ok_iff :
    all vs = .ok interpretations ↔ vs.size ≤ maxVariables ∧
      interpretations = (List.range vs.interpretationCount).map (ofNumber vs) := by
  rw [all, firstOf, Nat.min_self]
  split
  · rename_i tooMany
    simp [Nat.not_le_of_gt tooMany]
  · rename_i notTooMany
    rw [Except.ok.injEq, eq_comm]
    simp [Nat.le_of_not_gt notTooMany]

theorem assigns_of_mem_all (h : all vs = .ok interpretations) :
    ∀ i ∈ interpretations, i.Assigns vs := by
  obtain ⟨_, rfl⟩ := all_eq_ok_iff.mp h
  rw [List.forall_mem_map]
  intro number _
  exact assigns_ofNumber vs number

/-- A set with members is refused by the count exactly if it is not enumerated. -/
theorem all_eq_map_checkCount (h : 0 < vs.size) :
    all vs =
      vs.checkCount.map fun _ => (List.range vs.interpretationCount).map (ofNumber vs) := by
  rw [VariableSet.checkCount, if_neg (by omega), all, firstOf, Nat.min_self]
  split <;> rfl

end All

end Interpretation

end Propositional
