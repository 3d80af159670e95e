import Mathlib.Data.List.Forall2
import Mathlib.Data.List.Induction
import Mathlib.Data.List.TakeWhile
import Propositional.CommandLine
import Propositional.Proofs.Arguments
import Propositional.Proofs.Enumeration.Doubling
import Propositional.Proofs.Layout

/-!
# Assignments

An assignment has a name before its first `=` and a word for a truth value behind it, and blanks
around them. Every text is an assignment or has one of two mistakes. Of a list of texts the first
mistake is reported, or it is read entry by entry.

An interpretation keeps for every name the last value that is listed for it. It shows nothing but these
values: how they came about, and in which order, cannot be seen in its text.
-/

namespace Propositional

/-- The text is the core with blanks around it, and all of them belong to the blanks. -/
structure Padded (core text : String) : Prop where
  head : ∀ c ∈ core.toList.head?, isBlank c = false
  last : ∀ c ∈ core.toList.getLast?, isBlank c = false
  pads : ∃ before after, Blank before ∧ Blank after ∧ text = before ++ core ++ after

section Padded

variable {core text : String}

theorem head?_dropWhile_isBlank (text : List Char) :
    ∀ c ∈ (text.dropWhile isBlank).head?, isBlank c = false := by
  intro c hc
  have first := List.head?_dropWhile_not isBlank text
  rw [Option.mem_def.mp hc] at first
  exact first

theorem padded_trimBlanks (text : String) : Padded (trimBlanks text) text := by
  let body := text.toList.dropWhile isBlank
  let core := body.reverse.dropWhile isBlank
  have split : core.reverse ++ (body.reverse.takeWhile isBlank).reverse = body := by
    rw [← List.reverse_append, List.takeWhile_append_dropWhile, List.reverse_reverse]
  have trimmed : (trimBlanks text).toList = core.reverse := by
    rw [trimBlanks, String.toList_ofList]
  refine ⟨?_, ?_, String.ofList (text.toList.takeWhile isBlank),
    String.ofList (body.reverse.takeWhile isBlank).reverse, ?_, ?_, ?_⟩
  · rw [trimmed]
    intro c hc
    apply head?_dropWhile_isBlank text.toList
    change c ∈ body.head?
    rw [← split, List.head?_append, Option.mem_def.mp hc]
    rfl
  · rw [trimmed, List.getLast?_reverse]
    exact head?_dropWhile_isBlank body.reverse
  · rw [Blank, String.toList_ofList]
    intro c hc
    exact List.mem_takeWhile_imp hc
  · rw [Blank, String.toList_ofList]
    intro c hc
    exact List.mem_takeWhile_imp (List.mem_reverse.mp hc)
  · rw [← String.toList_inj, String.toList_append, String.toList_append, trimmed,
      String.toList_ofList, String.toList_ofList, List.append_assoc, split,
      List.takeWhile_append_dropWhile]

theorem Padded.trimBlanks_eq (h : Padded core text) : trimBlanks text = core := by
  obtain ⟨head, last, before, after, blankBefore, blankAfter, rfl⟩ := h
  rw [trimBlanks, String.toList_append, String.toList_append, List.append_assoc,
    List.dropWhile_append_of_pos blankBefore, ← String.toList_inj, String.toList_ofList]
  cases spelled : core.toList with
  | nil =>
    have gone : after.toList.dropWhile isBlank = [] := List.dropWhile_eq_nil_iff.mpr blankAfter
    rw [List.nil_append, gone]
    rfl
  | cons c cs =>
    rw [spelled] at head last
    have kept : (c :: cs ++ after.toList).dropWhile isBlank = c :: cs ++ after.toList :=
      List.dropWhile_cons_of_neg (by simp [head c rfl])
    have behind : ∀ d ∈ after.toList.reverse, isBlank d = true := by
      intro d hd
      exact blankAfter d (List.mem_reverse.mp hd)
    rw [kept, List.reverse_append, dropWhile_append_of_head behind, List.reverse_reverse]
    rw [List.head?_reverse]
    exact last

end Padded

namespace Interpretation

/-- The words for a truth value. -/
def words : Bool → List String
  | true => ["T", "t", "true", "1"]
  | false => ["F", "f", "false", "0"]

theorem truthValue?_eq_some_iff {word : String} {value : Bool} :
    truthValue? word = some value ↔ word ∈ words value := by
  unfold truthValue?
  split <;> cases value <;> simp_all [words]

/-- What the text of an assignment says: the name before the first `=`, and the value that the word
behind it stands for. -/
def Says (text : String) (entry : String × Bool) : Prop :=
  ∃ left right word, text = left ++ "=" ++ right ∧ '=' ∉ left.toList ∧ Padded entry.1 left ∧
    Padded word right ∧ word ∈ words entry.2

/-- Why a text is no assignment. -/
inductive Mistaken : String → AssignmentError → Prop
  | noEquals {text : String} : '=' ∉ text.toList → Mistaken text (.noEquals text)
  | noTruthValue {left right word : String} : '=' ∉ left.toList → Padded word right →
      (∀ value, word ∉ words value) →
      Mistaken (left ++ "=" ++ right) (.noTruthValue left word)

section Entry

open CommandLine (splitAtEquals)

variable {text left : String} {entry : String × Bool} {e : AssignmentError}

theorem splitAtEquals_append {before : List Char} (h : '=' ∉ before) (behind : List Char) :
    splitAtEquals (before ++ '=' :: behind) = (before, some behind) := by
  induction before with
  | nil => rfl
  | cons c cs ih =>
    rw [List.mem_cons, not_or] at h
    rw [List.cons_append, splitAtEquals, ih h.2]
    exact Ne.symm h.1

theorem exists_first_equals (h : '=' ∈ text.toList) :
    ∃ left right, text = left ++ "=" ++ right ∧ '=' ∉ left.toList := by
  obtain ⟨before, behind, split, first⟩ := List.eq_append_cons_of_mem h
  refine ⟨String.ofList before, String.ofList behind, ?_, ?_⟩
  · rw [← String.toList_inj, split]
    simp
  · rw [String.toList_ofList]
    exact first

theorem readEntry_of_notMem (h : '=' ∉ text.toList) : readEntry text = .error (.noEquals text) := by
  rw [readEntry, CommandLine.splitAtEquals_of_notMem h]

theorem readEntry_append (h : '=' ∉ left.toList) (right : String) :
    readEntry (left ++ "=" ++ right) =
      match truthValue? (trimBlanks right) with
      | some value => .ok (trimBlanks left, value)
      | none => .error (.noTruthValue left (trimBlanks right)) := by
  have spelled : (left ++ "=" ++ right).toList = left.toList ++ '=' :: right.toList := by simp
  rw [readEntry, spelled, splitAtEquals_append h]
  cases known : truthValue? (trimBlanks right) with
  | some value => simp only [String.ofList_toList, known]
  | none => simp only [String.ofList_toList, known]

theorem readEntry_eq_ok_iff : readEntry text = .ok entry ↔ Says text entry := by
  constructor
  · intro read
    by_cases h : '=' ∈ text.toList
    · obtain ⟨left, right, rfl, first⟩ := exists_first_equals h
      rw [readEntry_append first] at read
      cases known : truthValue? (trimBlanks right) with
      | none =>
        rw [known] at read
        cases read
      | some value =>
        rw [known] at read
        cases read
        exact ⟨left, right, _, rfl, first, padded_trimBlanks left, padded_trimBlanks right,
          truthValue?_eq_some_iff.mp known⟩
    · rw [readEntry_of_notMem h] at read
      cases read
  · rintro ⟨left, right, word, rfl, first, name, padded, known⟩
    rw [readEntry_append first, padded.trimBlanks_eq, truthValue?_eq_some_iff.mpr known,
      name.trimBlanks_eq]

theorem readEntry_eq_error_iff : readEntry text = .error e ↔ Mistaken text e := by
  constructor
  · intro read
    by_cases h : '=' ∈ text.toList
    · obtain ⟨left, right, rfl, first⟩ := exists_first_equals h
      rw [readEntry_append first] at read
      cases known : truthValue? (trimBlanks right) with
      | none =>
        rw [known] at read
        cases read
        refine .noTruthValue first (padded_trimBlanks right) ?_
        intro value listed
        rw [truthValue?_eq_some_iff.mpr listed] at known
        cases known
      | some value =>
        rw [known] at read
        cases read
    · rw [readEntry_of_notMem h] at read
      cases read
      exact .noEquals h
  · intro mistaken
    cases mistaken with
    | noEquals h => exact readEntry_of_notMem h
    | noTruthValue first padded unknown =>
      rw [readEntry_append first, padded.trimBlanks_eq]
      split
      · rename_i value known
        exact absurd (truthValue?_eq_some_iff.mp known) (unknown value)
      · rfl

end Entry

section List

variable {texts : List String} {entries : List (String × Bool)} {i : Interpretation}
  {e : AssignmentError}

/-- The first text that is no assignment is mistaken in this way. -/
inductive FirstMistake : List String → AssignmentError → Prop
  | here {text : String} {texts : List String} {e : AssignmentError} :
      Mistaken text e → FirstMistake (text :: texts) e
  | later {text : String} {texts : List String} {entry : String × Bool} {e : AssignmentError} :
      Says text entry → FirstMistake texts e → FirstMistake (text :: texts) e

theorem mapM_readEntry_eq_ok_iff :
    texts.mapM readEntry = .ok entries ↔ List.Forall₂ Says texts entries := by
  induction texts generalizing entries with
  | nil => cases entries <;> simp [pure, Except.pure]
  | cons text texts ih =>
    rw [List.mapM_cons]
    cases first : readEntry text with
    | error e => cases entries <;> simp [bind, Except.bind, ← readEntry_eq_ok_iff, first]
    | ok entry =>
      cases rest : texts.mapM readEntry <;> cases entries <;>
        simp [bind, Except.bind, pure, Except.pure, ← readEntry_eq_ok_iff, ← ih, first, rest]

theorem mapM_readEntry_eq_error_iff : texts.mapM readEntry = .error e ↔ FirstMistake texts e := by
  induction texts with
  | nil => exact ⟨nofun, nofun⟩
  | cons text texts ih =>
    rw [List.mapM_cons]
    constructor
    · intro stopped
      cases first : readEntry text with
      | error found =>
        rw [first] at stopped
        cases stopped
        exact .here (readEntry_eq_error_iff.mp first)
      | ok entry =>
        cases rest : texts.mapM readEntry with
        | error found =>
          rw [first, rest] at stopped
          cases stopped
          exact .later (readEntry_eq_ok_iff.mp first) (ih.mp rest)
        | ok entries =>
          rw [first, rest] at stopped
          cases stopped
    · intro mistake
      cases mistake with
      | here mistaken =>
        rw [readEntry_eq_error_iff.mpr mistaken]
        rfl
      | later said rest =>
        rw [readEntry_eq_ok_iff.mpr said, ih.mpr rest]
        rfl

theorem read_of_forall₂ (h : List.Forall₂ Says texts entries) :
    read texts = .ok (ofEntries entries) := by
  rw [read, mapM_readEntry_eq_ok_iff.mpr h]
  rfl

theorem read_of_firstMistake (h : FirstMistake texts e) : read texts = .error e := by
  rw [read, mapM_readEntry_eq_error_iff.mpr h]
  rfl

/-- There is no third way for a list of texts. -/
theorem forall₂_or_firstMistake (texts : List String) :
    (∃ entries, List.Forall₂ Says texts entries) ∨ ∃ e, FirstMistake texts e := by
  cases read : texts.mapM readEntry with
  | ok entries => exact .inl ⟨entries, mapM_readEntry_eq_ok_iff.mp read⟩
  | error e => exact .inr ⟨e, mapM_readEntry_eq_error_iff.mp read⟩

/-- A text is an assignment or mistaken, and not both. -/
theorem exists_says_iff {text : String} : (∃ entry, Says text entry) ↔ ∀ e, ¬ Mistaken text e := by
  simp only [← readEntry_eq_ok_iff, ← readEntry_eq_error_iff]
  cases readEntry text <;> simp

end List

/-- The value that is listed last for the name. -/
def lastValue? (entries : List (String × Bool)) (name : String) : Option Bool :=
  entries.reverse.lookup name

section Values

variable {i j : Interpretation}

theorem lookup_cons_eq_ite (entry : String × Bool) (entries : List (String × Bool))
    (name : String) : (entry :: entries).lookup name =
      if name = entry.1 then some entry.2 else entries.lookup name := by
  by_cases same : name = entry.1
  · rw [if_pos same, same, List.lookup_cons_self]
  · rw [if_neg same, List.lookup_cons, beq_false_of_ne same]

theorem lookup_setEntry (name : String) (value : Bool) (entries : List (String × Bool))
    (other : String) : (setEntry name value entries).lookup other =
      if other = name then some value else entries.lookup other := by
  induction entries with
  | nil => exact lookup_cons_eq_ite (name, value) [] other
  | cons entry entries ih =>
    rw [setEntry, lookup_cons_eq_ite entry]
    by_cases here : entry.1 = name
    · rw [if_pos here, lookup_cons_eq_ite, here]
      split <;> rfl
    · rw [if_neg here, lookup_cons_eq_ite, ih]
      by_cases found : other = entry.1
      · have apart : other ≠ name := by
          rw [found]
          exact here
        rw [if_pos found, if_neg apart, if_pos found]
      · rw [if_neg found, if_neg found]

theorem get?_set (i : Interpretation) (entry : String × Bool) (name : String) :
    (i.set entry).get? name = if name = entry.1 then some entry.2 else i.get? name :=
  lookup_setEntry entry.1 entry.2 i.entries name

/-- Reading keeps the last value of every name. -/
theorem get?_ofEntries (entries : List (String × Bool)) (name : String) :
    (ofEntries entries).get? name = lastValue? entries name := by
  rw [ofEntries, lastValue?]
  induction entries using List.reverseRecOn with
  | nil => rfl
  | append_singleton entries entry ih =>
    rw [List.foldl_concat, get?_set, ih, List.reverse_concat, lookup_cons_eq_ite]

theorem entries_perm (same : ∀ name, i.get? name = j.get? name) : i.entries.Perm j.entries := by
  rw [List.perm_ext_iff_of_nodup i.nodup.of_map j.nodup.of_map]
  intro entry
  rw [mem_entries_iff, mem_entries_iff, same]

/-- The text of an interpretation shows its values only. -/
theorem display_congr (same : ∀ name, i.get? name = j.get? name) : i.display = j.display := by
  let le (a b : String × Bool) : Bool := a.1 ≤ b.1
  have ascending (entries : List (String × Bool)) : (entries.mergeSort le).Pairwise (le · ·) := by
    apply List.pairwise_mergeSort
    · intro a b c hab hbc
      exact decide_eq_true (le_trans (of_decide_eq_true hab) (of_decide_eq_true hbc))
    · intro a b
      simpa [le] using le_total a.1 b.1
  have sorted : i.entries.mergeSort le = j.entries.mergeSort le := by
    apply List.Perm.eq_of_pairwise _ (ascending i.entries) (ascending j.entries)
    · exact (List.mergeSort_perm ..).trans ((entries_perm same).trans (List.mergeSort_perm ..).symm)
    · intro a b ha hb hab hba
      have names : a.1 = b.1 := le_antisymm (of_decide_eq_true hab) (of_decide_eq_true hba)
      have atA := mem_entries_iff.mp (List.mem_mergeSort.mp ha)
      have atB := mem_entries_iff.mp (List.mem_mergeSort.mp hb)
      rw [same, names, atB] at atA
      exact Prod.ext names (Option.some.inj atA).symm
  rw [display, display]
  simp only [le] at sorted
  rw [sorted]

end Values

end Interpretation

end Propositional
