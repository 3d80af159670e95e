import Mathlib.Data.List.Perm.Subperm
import Propositional.Proofs.Enumeration

/-!
# Counting is doubling

The interpretations of up to twenty variables are those of the recursion that puts a variable in
front of the assignments of the others, first false and then true. So there are `2 ^ n` of them, they
are different, and every choice of values is met once.

Counting takes the digits of unbounded numbers. `counted` takes them from words of a given width,
where a shift by the width or more and a difference below zero are refused. It never comes to that:
words of more than twenty bits are wide enough, and more variables are turned away before anything is
shifted.
-/

namespace Propositional

namespace Interpretation

section Words

variable {width : Nat}

/-- A shift to the left, unless the amount reaches the width. -/
def shiftUp (word : BitVec width) (amount : Nat) : Option (BitVec width) :=
  if amount < width then some (word <<< amount) else none

/-- A shift to the right, unless the amount reaches the width. -/
def shiftDown (word : BitVec width) (amount : Nat) : Option (BitVec width) :=
  if amount < width then some (word >>> amount) else none

/-- A difference, unless it is negative. -/
def minus (m n : Nat) : Option Nat :=
  if n ≤ m then some (m - n) else none

/-- What the counter says of the variable at a position among `count`. -/
def digitAt (count : Nat) (counter : BitVec width) (position : Nat) : Option Bool := do
  let last ← minus count 1
  let bit ← minus last position
  let shifted ← shiftDown counter bit
  return shifted &&& BitVec.ofNat width 1 == BitVec.ofNat width 1

/-- What the counter says of the names at their positions among `count`. -/
def digitsAt (count : Nat) (counter : BitVec width) (positions : List (String × Nat)) :
    Option (List (String × Bool)) :=
  positions.mapM fun entry => (digitAt count counter entry.2).map (Prod.mk entry.1)

/-- The rows of all interpretations, counted in words; nothing if an operation is refused. -/
def counted (width : Nat) (vs : VariableSet) :
    Option (Except AtomCountError (List (List (String × Bool)))) :=
  if vs.size > maxVariables then some (.error (.tooManyAtoms vs.size maxVariables))
  else do
    let count ← shiftUp (BitVec.ofNat width 1) vs.size
    let rows ← (List.range count.toNat).mapM fun number =>
      digitsAt vs.size (BitVec.ofNat width number) vs.names.zipIdx
    return .ok rows

theorem beq_one_eq_testBit (positive : 0 < width) (word : BitVec width) :
    (word &&& BitVec.ofNat width 1 == BitVec.ofNat width 1) = word.toNat.testBit 0 := by
  rw [Nat.testBit_zero, Bool.eq_iff_iff, beq_iff_eq, decide_eq_true_iff, ← BitVec.toNat_inj,
    BitVec.toNat_and, BitVec.toNat_one positive, Nat.and_one_is_mod]

/-- A word keeps the digits that are asked for, however large the number was. -/
theorem digitAt_ofNat {count position : Nat} (here : position < count) (fits : count ≤ width)
    (number : Nat) :
    digitAt count (BitVec.ofNat width number) position =
      some (number.testBit (count - 1 - position)) := by
  have last : minus count 1 = some (count - 1) := if_pos (by omega)
  have bit : minus (count - 1) position = some (count - 1 - position) := if_pos (by omega)
  have shifted : shiftDown (BitVec.ofNat width number) (count - 1 - position) =
      some (BitVec.ofNat width number >>> (count - 1 - position)) := if_pos (by omega)
  have kept : decide (count - 1 - position < width) = true := decide_eq_true (by omega)
  simp only [digitAt, last, bit, shifted, Option.bind_eq_bind, Option.bind_some, Option.pure_def,
    beq_one_eq_testBit (show 0 < width by omega), BitVec.toNat_ushiftRight, BitVec.toNat_ofNat,
    Nat.testBit_shiftRight, Nat.add_zero, Nat.testBit_mod_two_pow, kept, Bool.true_and]

/-- The bit of a variable is the number of variables behind it. -/
theorem digitsAt_zipIdx {names : List String} {start : Nat}
    (fits : start + names.length ≤ width) (number : Nat) :
    digitsAt (start + names.length) (BitVec.ofNat width number) (names.zipIdx start) =
      some (digits number names) := by
  induction names generalizing start with
  | nil => rfl
  | cons name rest ih =>
    have total : start + (name :: rest).length = start + 1 + rest.length := by
      rw [List.length_cons]
      omega
    have behind : start + 1 + rest.length - 1 - start = rest.length := by omega
    have tail : digitsAt (start + 1 + rest.length) _ (rest.zipIdx (start + 1)) = _ :=
      ih (by omega)
    rw [digitsAt] at tail
    rw [total, List.zipIdx_cons, digitsAt, List.mapM_cons, tail,
      digitAt_ofNat (by omega) (by omega), behind, digits]
    rfl

/-- In words that are wide enough no operation is refused. -/
theorem counted_eq (wide : maxVariables < width) (vs : VariableSet) :
    counted width vs = some ((all vs).map fun interpretations => interpretations.map entries) := by
  rw [counted, all, firstOf, Nat.min_self]
  split
  · rfl
  · have fits : vs.size < width := by omega
    have below : vs.interpretationCount < 2 ^ width := by
      rw [VariableSet.interpretationCount, Nat.one_shiftLeft]
      exact Nat.pow_lt_pow_right (by decide) fits
    have count : shiftUp (BitVec.ofNat width 1) vs.size =
        some (BitVec.ofNat width 1 <<< vs.size) := if_pos fits
    have size : (BitVec.ofNat width 1 <<< vs.size).toNat = vs.interpretationCount := by
      rw [BitVec.toNat_shiftLeft, BitVec.toNat_one (by omega)]
      exact Nat.mod_eq_of_lt below
    have row (number : Nat) : digitsAt vs.size (BitVec.ofNat width number) vs.names.zipIdx =
        some (digits number vs.names) := by
      have fromStart : digitsAt (0 + vs.size) _ vs.names.zipIdx = _ :=
        digitsAt_zipIdx (show 0 + vs.size ≤ width by omega) number
      rwa [Nat.zero_add] at fromStart
    have rows : (List.range vs.interpretationCount).mapM (fun n => some (digits n vs.names)) =
        some ((List.range vs.interpretationCount).map (digits · vs.names)) :=
      List.mapM_pure
    simp only [count, size, row, rows, Option.bind_eq_bind, Option.bind_some, Option.pure_def,
      Except.map, List.map_map]
    rfl

end Words

section Alike

variable {i j : Interpretation}

theorem mem_entries_iff {entry : String × Bool} :
    entry ∈ i.entries ↔ i.get? entry.1 = some entry.2 := by
  rw [get?, List.lookup_eq_some_iff]
  constructor
  · intro mem
    obtain ⟨before, after, parts⟩ := List.append_of_mem mem
    refine ⟨before, after, parts, fun other hother => bne_iff_ne.mpr fun same => ?_⟩
    have nodup := i.nodup
    rw [parts, List.map_append, List.map_cons, List.nodup_middle, List.nodup_cons,
      List.mem_append, not_or, same] at nodup
    exact nodup.1.1 (List.mem_map_of_mem hother)
  · rintro ⟨before, after, parts, _⟩
    rw [parts]
    exact List.mem_append_right _ List.mem_cons_self

theorem map_fst_entries_map (i : Interpretation) :
    (i.entries.map Prod.fst).map (fun name => (name, i.value name)) = i.entries := by
  rw [List.map_map]
  refine (List.map_congr_left fun entry hentry => ?_).trans (List.map_id _)
  rw [Function.comp_apply, value, mem_entries_iff.mp hentry, Option.getD_some, id]

/-- Only the order of the entries may differ. -/
theorem alike_iff_perm : i.alike j = true ↔ i.entries.Perm j.entries := by
  rw [alike, Bool.and_eq_true, beq_iff_eq, List.all_eq_true]
  constructor
  · rintro ⟨length, found⟩
    have sub : i.entries ⊆ j.entries := fun entry hentry =>
      mem_entries_iff.mpr (beq_iff_eq.mp (found entry hentry))
    exact (List.subperm_of_subset i.nodup.of_map sub).perm_of_length_le (by omega)
  · intro perm
    exact ⟨perm.length_eq, fun entry hentry =>
      beq_iff_eq.mpr (mem_entries_iff.mp (perm.mem_iff.mp hentry))⟩

/-- In the order of the variables there is one list of entries for the same values. -/
theorem entries_eq_of_alike {vs : VariableSet} (hi : i.entries.map Prod.fst = vs.names)
    (hj : j.entries.map Prod.fst = vs.names) (h : i.alike j = true) : i.entries = j.entries := by
  have ascending : ∀ {k : Interpretation}, k.entries.map Prod.fst = vs.names →
      k.entries.Pairwise fun entry entry' => entry.1 < entry'.1 := fun names =>
    List.pairwise_map.mp (names ▸ vs.ascending)
  refine (alike_iff_perm.mp h).eq_of_pairwise (fun entry entry' _ _ lt gt => ?_)
    (ascending hi) (ascending hj)
  exact absurd (String.lt_trans lt gt) (String.lt_irrefl _)

end Alike

section All

variable {vs : VariableSet} {interpretations : List Interpretation}

theorem map_entries_of_all (h : all vs = .ok interpretations) :
    interpretations.map entries = assignments vs.names := by
  obtain ⟨_, rfl⟩ := all_eq_ok_iff.mp h
  rw [← map_digits_range, List.map_map]
  rfl

theorem map_fst_of_mem_all (h : all vs = .ok interpretations) {i : Interpretation}
    (hi : i ∈ interpretations) : i.entries.map Prod.fst = vs.names := by
  obtain ⟨_, rfl⟩ := all_eq_ok_iff.mp h
  obtain ⟨number, _, rfl⟩ := List.mem_map.mp hi
  rw [entries_ofNumber, map_fst_digits]

theorem pairwise_not_alike (h : all vs = .ok interpretations) :
    interpretations.Pairwise fun i j => i.alike j = false := by
  have increasing := pairwise_lt_assignments vs.names
  rw [← map_entries_of_all h, List.pairwise_map] at increasing
  refine increasing.imp_of_mem fun {i j} hi hj lt => Bool.eq_false_iff.mpr fun alike => ?_
  rw [entries_eq_of_alike (map_fst_of_mem_all h hi) (map_fst_of_mem_all h hj) alike] at lt
  exact List.lt_irrefl _ lt

/-- Whatever order its entries have, an interpretation of the variables is met. -/
theorem exists_alike (h : all vs = .ok interpretations) {i : Interpretation}
    (total : (i.entries.map Prod.fst).Perm vs.names) : ∃ j ∈ interpretations, i.alike j = true := by
  have mem := map_mem_assignments i.value vs.names
  rw [← map_entries_of_all h] at mem
  obtain ⟨j, hj, entries⟩ := List.mem_map.mp mem
  refine ⟨j, hj, alike_iff_perm.mpr ?_⟩
  have perm := total.map fun name => (name, i.value name)
  rwa [map_fst_entries_map, ← entries] at perm

theorem countP_alike_eq_one (h : all vs = .ok interpretations) {i : Interpretation}
    (total : (i.entries.map Prod.fst).Perm vs.names) : interpretations.countP i.alike = 1 := by
  obtain ⟨j, hj, alike⟩ := exists_alike h total
  have different := pairwise_not_alike h
  obtain ⟨before, after, rfl⟩ := List.append_of_mem hj
  have others : ∀ k, j.alike k = false ∨ k.alike j = false → ¬ i.alike k = true := by
    intro k hk same
    have perm := (alike_iff_perm.mp alike).symm.trans (alike_iff_perm.mp same)
    rcases hk with hk | hk
    · exact Bool.eq_false_iff.mp hk (alike_iff_perm.mpr perm)
    · exact Bool.eq_false_iff.mp hk (alike_iff_perm.mpr perm.symm)
  rw [List.pairwise_append, List.pairwise_cons] at different
  have first : before.countP i.alike = 0 := List.countP_eq_zero.mpr fun k hk =>
    others k (.inr (different.2.2 k hk j List.mem_cons_self))
  have last : after.countP i.alike = 0 := List.countP_eq_zero.mpr fun k hk =>
    others k (.inl (different.2.1.1 k hk))
  rw [List.countP_append, List.countP_cons, first, last, if_pos alike]

end All

/-- **Counting is doubling.** Up to twenty variables the interpretations are those of the recursion
that puts a variable in front of the assignments of the others, first false, then true; words of 64
bits count them without a shift or a difference that is refused. They are different, and an
interpretation that gives just these variables a value is alike to one of them. More variables are
refused by their number, even in words in which no shift is possible. -/
theorem all_eq_assignments (vs : VariableSet) :
    (vs.size ≤ 20 →
      ∃ interpretations, all vs = .ok interpretations ∧
        interpretations.map entries = assignments vs.names ∧
        interpretations.length = 2 ^ vs.size ∧
        (interpretations.Pairwise fun i j => i.alike j = false) ∧
        (∀ i : Interpretation, (i.entries.map Prod.fst).Perm vs.names →
          interpretations.countP i.alike = 1) ∧
        counted 64 vs = some (.ok (assignments vs.names))) ∧
    (20 < vs.size →
      all vs = .error (.tooManyAtoms vs.size 20) ∧
        ∀ width, counted width vs = some (.error (.tooManyAtoms vs.size 20))) := by
  constructor
  · intro few
    have ok : all vs = .ok _ := all_eq_ok_iff.mpr ⟨few, rfl⟩
    refine ⟨_, ok, map_entries_of_all ok, ?_, pairwise_not_alike ok,
      fun i => countP_alike_eq_one ok, ?_⟩
    · rw [List.length_map, List.length_range, VariableSet.interpretationCount, Nat.one_shiftLeft]
    · rw [counted_eq (by decide), ok, Except.map, map_entries_of_all ok]
  · intro many
    exact ⟨all_eq_error_iff.mpr ⟨many, rfl⟩, fun width => if_pos many⟩

theorem all_eq_assignments_letters :
    let pair := VariableSet.ofList ["q", "p"]
    let many := VariableSet.ofList ("abcdefghijklmnopqrstu".toList.map String.singleton)
    (pair.size ≤ 20 ∧
      ∃ interpretations, all pair = .ok interpretations ∧
        interpretations.map entries =
          [[("p", false), ("q", false)], [("p", false), ("q", true)],
            [("p", true), ("q", false)], [("p", true), ("q", true)]] ∧
        interpretations.countP (ofEntries [("q", true), ("p", false)]).alike = 1) ∧
    20 < many.size ∧ all many = .error (.tooManyAtoms 21 20) ∧
      counted 8 many = some (.error (.tooManyAtoms 21 20)) := by
  intro pair many
  have few : pair.size ≤ 20 := by decide
  have size : many.size = 21 := by decide +kernel
  have refused := (all_eq_assignments many).2 (by omega)
  obtain ⟨interpretations, ok, doubled, _, _, once, _⟩ := (all_eq_assignments pair).1 few
  have names : pair.names = ["p", "q"] := by decide
  rw [names] at doubled
  rw [size] at refused
  refine ⟨⟨few, interpretations, ok, doubled, once _ ?_⟩, by omega, refused.1, refused.2 8⟩
  rw [names]
  decide

end Interpretation

end Propositional
