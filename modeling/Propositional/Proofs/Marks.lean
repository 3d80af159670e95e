/-!
# Texts made of parts

Lines have a newline behind each of them, and the cells of a table have a bar. `parts?` takes a text
with such marks apart. The parts hold no mark themselves, so there is one way to do it
(`parts?_eq_some_iff`), and what was put together of them is found again.
-/

namespace Propositional

/-- The parts that stand before the marks. The text must end with a mark, unless it is empty. -/
def endedBy (mark : Char) : List Char → Option (List (List Char))
  | [] => some []
  | c :: rest =>
    match endedBy mark rest with
    | none => none
    | some parts =>
      if c = mark then some ([] :: parts)
      else
        match parts with
        | [] => none
        | part :: others => some ((c :: part) :: others)

/-- The texts before the marks, if the text ends with a mark. -/
def parts? (mark : Char) (text : String) : Option (List String) :=
  (endedBy mark text.toList).map (List.map String.ofList)

section

variable {mark : Char} {text : List Char} {parts : List (List Char)}

theorem endedBy_append {part : List Char} (h : mark ∉ part) (rest : List Char) :
    endedBy mark (part ++ mark :: rest) = (endedBy mark rest).map (part :: ·) := by
  induction part with
  | nil =>
    rw [List.nil_append, endedBy]
    cases endedBy mark rest with
    | none => rfl
    | some parts => simp
  | cons c part ih =>
    rw [List.mem_cons, not_or] at h
    rw [List.cons_append, endedBy, ih h.2]
    cases endedBy mark rest with
    | none => rfl
    | some parts => simp [Ne.symm h.1]

/-- The marks stand behind the parts and nowhere else. -/
theorem endedBy_eq_some_iff :
    endedBy mark text = some parts ↔
      (∀ part ∈ parts, mark ∉ part) ∧ text = parts.flatMap (· ++ [mark]) := by
  constructor
  · intro h
    fun_induction endedBy mark text generalizing parts with
    | case1 =>
      cases h
      simp
    | case2 => cases h
    | case3 rest others found ih =>
      cases h
      obtain ⟨free, rfl⟩ := ih found
      simpa using free
    | case4 => cases h
    | case5 c rest isOther part others found ih =>
      cases h
      obtain ⟨free, rfl⟩ := ih found
      rw [List.forall_mem_cons] at free ⊢
      refine ⟨⟨?_, free.2⟩, rfl⟩
      rw [List.mem_cons, not_or]
      exact ⟨Ne.symm isOther, free.1⟩
  · rintro ⟨free, rfl⟩
    induction parts with
    | nil => rfl
    | cons part others ih =>
      rw [List.forall_mem_cons] at free
      rw [List.flatMap_cons, List.append_assoc, List.singleton_append, endedBy_append free.1,
        ih free.2]
      rfl

end

section

variable {mark : Char} {text : String} {parts : List String}

theorem parts?_eq_some_iff :
    parts? mark text = some parts ↔
      (∀ part ∈ parts, mark ∉ part.toList) ∧
        text.toList = parts.flatMap fun part => part.toList ++ [mark] := by
  rw [parts?, Option.map_eq_some_iff]
  constructor
  · rintro ⟨split, found, rfl⟩
    obtain ⟨free, joined⟩ := endedBy_eq_some_iff.mp found
    rw [List.forall_mem_map, List.flatMap_map]
    simp only [String.toList_ofList]
    exact ⟨free, joined⟩
  · rintro ⟨free, joined⟩
    refine ⟨parts.map String.toList, endedBy_eq_some_iff.mpr ⟨?_, ?_⟩, ?_⟩
    · rw [List.forall_mem_map]
      exact free
    · rw [joined, List.flatMap_map]
    · simp [Function.comp_def]

/-- The lines of a text are found again if none of them holds a newline. -/
theorem parts?_newline {lines : List String} (h : ∀ line ∈ lines, '\n' ∉ line.toList) :
    parts? '\n' (String.join (lines.map (· ++ "\n"))) = some lines := by
  rw [parts?_eq_some_iff]
  refine ⟨h, ?_⟩
  rw [String.toList_join, List.flatMap_map]
  simp only [String.toList_append]
  rfl

end

end Propositional
