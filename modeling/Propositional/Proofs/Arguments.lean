import Propositional.CommandLine.Arguments

/-!
# A flag taken out of the arguments

`Scans` is a run over the arguments: what each of them says, an option that lacks its value together
with the next one. A flag has no value and no short form, so it is written in one way only. The first
argument that is written so is the flag itself and not a value or an operand (`Scans.erase`), and the
arguments without it say the same but for the flag.

For a restriction that is to be checked this means: without the flag for the check the arguments
describe the same restriction, unchecked (`ofArguments?_erase_check`). Parsers of which this is true
ask for checks by a flag (`Request.ChecksByFlag`), and it is all that the check needs of a parser.
-/

namespace Propositional

namespace CommandLine

/-- What the arguments say. -/
inductive Scans (specs : List OptionSpec) : List String → List Argument → Prop
  | nil : Scans specs [] []
  | operands (texts : List String) : Scans specs ("--" :: texts) (texts.map .operand)
  | operand {text : String} {texts : List String} {arguments : List Argument} :
      isOption text = false → Scans specs texts arguments →
      Scans specs (text :: texts) (.operand text :: arguments)
  | option {text : String} {texts : List String} {said arguments : List Argument} :
      text ≠ "--" → isOption text = true → scanOption? specs text = some (.complete said) →
      Scans specs texts arguments → Scans specs (text :: texts) (said ++ arguments)
  /-- The last option that the argument names takes the next argument as its value. -/
  | value {text value long : String} {texts : List String} {said arguments : List Argument} :
      text ≠ "--" → isOption text = true → scanOption? specs text = some (.needsValue said long) →
      isOption value = false → Scans specs texts arguments →
      Scans specs (text :: value :: texts) (said ++ .option long value :: arguments)

variable {specs : List OptionSpec} {text long : String} {texts : List String}
  {arguments : List Argument}

theorem isOption_end : isOption "--" = true := by decide

theorem scans_of_scanArguments? (h : scanArguments? specs texts = some arguments) :
    Scans specs texts arguments := by
  fun_induction scanArguments? specs texts generalizing arguments with
  | case1 =>
    cases h
    exact .nil
  | case2 operands =>
    cases h
    exact .operands operands
  | case3 => cases h
  | case4 text notEnd isOption said texts scanned ih =>
    obtain ⟨arguments, rest, rfl⟩ := Option.map_eq_some_iff.mp h
    exact .option notEnd isOption scanned (ih rest)
  | case5 => cases h
  | case6 => cases h
  | case7 text notEnd isOption said long value texts scanned notOption ih =>
    obtain ⟨arguments, rest, rfl⟩ := Option.map_eq_some_iff.mp h
    exact .value notEnd isOption scanned (by simpa using notOption) (ih rest)
  | case8 text texts notEnd notOption ih =>
    obtain ⟨arguments, rest, rfl⟩ := Option.map_eq_some_iff.mp h
    exact .operand (by simpa using notOption) (ih rest)

theorem scanArguments?_eq_some_iff :
    scanArguments? specs texts = some arguments ↔ Scans specs texts arguments := by
  refine ⟨scans_of_scanArguments?, fun h => ?_⟩
  induction h with
  | nil => rfl
  | operands => rfl
  | @operand text texts arguments notOption _ ih =>
    have notEnd : text ≠ "--" := by
      rintro rfl
      rw [isOption_end] at notOption
      cases notOption
    unfold scanArguments?
    split <;> simp_all
  | option notEnd isOption scanned _ ih =>
    unfold scanArguments?
    split <;> simp_all
  | value notEnd isOption scanned notOption _ ih =>
    unfold scanArguments?
    split
    · simp_all
    · simp_all
    · rename_i eq
      obtain ⟨rfl, rfl⟩ := List.cons.inj eq
      simp [isOption, scanned, notOption, ih]

/-- Of the options, one with this name has neither a value nor a short form. -/
structure IsFlag (specs : List OptionSpec) (long : String) : Prop where
  noEquals : '=' ∉ long.toList
  plain : ∀ spec ∈ specs, spec.long = long → spec.takesValue = false ∧ spec.short = none

/-- The only way to write a flag. -/
def flagText (long : String) : String :=
  "--" ++ long

/-- The option is not among the arguments, nor does it wait for its value. -/
def Scanned.Lacks (long : String) : Scanned → Prop
  | .complete said => valuesOf long said = []
  | .needsValue said waiting => valuesOf long said = [] ∧ waiting ≠ long

section Values

variable {said arguments : List Argument} {long other value : String}

theorem valuesOf_append : valuesOf long (said ++ arguments) =
    valuesOf long said ++ valuesOf long arguments :=
  List.filterMap_append

theorem valuesOf_operands (texts : List String) : valuesOf long (texts.map .operand) = [] := by
  simp [valuesOf]

theorem valuesOf_option_cons_of_ne (h : other ≠ long) :
    valuesOf long (.option other value :: arguments) = valuesOf long arguments := by
  simp [valuesOf, h]

theorem valuesOf_option_cons_self :
    valuesOf long (.option long value :: arguments) = value :: valuesOf long arguments := by
  simp [valuesOf]

end Values

theorem eq_of_splitAtEquals_eq_none {text name : List Char} (h : splitAtEquals text = (name, none)) :
    text = name := by
  fun_induction splitAtEquals text generalizing name with
  | case1 =>
    cases h
    rfl
  | case2 => cases h
  | case3 c rest _ before behind split ih =>
    cases h
    rw [ih split]

theorem splitAtEquals_of_notMem {text : List Char} (h : '=' ∉ text) :
    splitAtEquals text = (text, none) := by
  fun_induction splitAtEquals text with
  | case1 => rfl
  | case2 => simp at h
  | case3 c rest _ before behind split ih =>
    rw [ih (List.not_mem_of_not_mem_cons h)] at split
    cases split
    rfl

variable {cs name : List Char} {scanned : Scanned}

theorem eq_of_findLong? {spec : OptionSpec} (h : findLong? specs name = some spec) :
    spec ∈ specs ∧ spec.long.toList = name := by
  have found := List.find?_some h
  exact ⟨List.mem_of_find?_eq_some h, eq_of_beq found⟩

/-- A flag has no short form to be found by. -/
theorem ne_of_findShort? {spec : OptionSpec} {c : Char} (isFlag : IsFlag specs long)
    (h : findShort? specs c = some spec) : spec.long ≠ long := by
  intro same
  unfold findShort? at h
  have found := List.find?_some h
  simp [(isFlag.plain spec (List.mem_of_find?_eq_some h) same).2] at found

theorem lacks_of_scanShort? (isFlag : IsFlag specs long)
    (h : scanShort? specs cs = some scanned) : scanned.Lacks long := by
  fun_induction scanShort? specs cs generalizing scanned with
  | case1 =>
    cases h
    rfl
  | case2 => cases h
  | case3 c spec found =>
    cases h
    exact ⟨rfl, ne_of_findShort? isFlag found⟩
  | case4 c spec found =>
    cases h
    exact valuesOf_option_cons_of_ne (ne_of_findShort? isFlag found)
  | case5 c spec found =>
    cases h
    exact valuesOf_option_cons_of_ne (ne_of_findShort? isFlag found)
  | case6 => cases h
  | case7 c rest spec found noValue said behind ih =>
    cases h
    exact (valuesOf_option_cons_of_ne (ne_of_findShort? isFlag found)).trans (ih behind)
  | case8 c rest spec found noValue said waiting behind ih =>
    cases h
    exact ⟨(valuesOf_option_cons_of_ne (ne_of_findShort? isFlag found)).trans (ih behind).1,
      (ih behind).2⟩

theorem scanLong?_flag (isFlag : IsFlag specs long)
    (h : scanLong? specs long.toList = some scanned) : scanned = .complete [.option long ""] := by
  simp only [scanLong?, splitAtEquals_of_notMem isFlag.noEquals] at h
  cases found : findLong? specs long.toList with
  | none => simp [found] at h
  | some spec =>
    obtain ⟨mem, same⟩ := eq_of_findLong? found
    rw [String.toList_inj] at same
    simpa [found, (isFlag.plain spec mem same).1, same] using h.symm

theorem lacks_of_scanLong? (isFlag : IsFlag specs long) (other : cs ≠ long.toList)
    (h : scanLong? specs cs = some scanned) : scanned.Lacks long := by
  unfold scanLong? at h
  cases split : splitAtEquals cs with
  | mk name value =>
    cases found : findLong? specs name with
    | none => simp [split, found] at h
    | some spec =>
      obtain ⟨mem, nameEq⟩ := eq_of_findLong? found
      have noValue : spec.takesValue = true → spec.long ≠ long := fun takes same => by
        simp [(isFlag.plain spec mem same).1] at takes
      cases takes : spec.takesValue <;> cases value <;>
        simp only [split, found, takes, Option.some.injEq, reduceCtorEq] at h
      all_goals subst h
      · refine valuesOf_option_cons_of_ne fun same => other ?_
        rw [eq_of_splitAtEquals_eq_none split, ← nameEq, same]
      · exact ⟨rfl, noValue takes⟩
      · exact valuesOf_option_cons_of_ne (noValue takes)

theorem toList_flagText : (flagText long).toList = '-' :: '-' :: long.toList := by
  simp [flagText]

theorem ne_flagText (h : isOption text = false) : text ≠ flagText long := by
  rintro rfl
  simp [isOption, toList_flagText] at h

theorem scanOption?_flagText (isFlag : IsFlag specs long)
    (h : scanOption? specs (flagText long) = some scanned) :
    scanned = .complete [.option long ""] := by
  simp only [scanOption?, toList_flagText] at h
  exact scanLong?_flag isFlag h

theorem lacks_of_scanOption? (isFlag : IsFlag specs long) (other : text ≠ flagText long)
    (h : scanOption? specs text = some scanned) : scanned.Lacks long := by
  unfold scanOption? at h
  split at h
  · rename_i cs spelled
    refine lacks_of_scanLong? isFlag (fun same => other ?_) h
    rw [← String.toList_inj, spelled, same, toList_flagText]
  · exact lacks_of_scanShort? isFlag h
  · cases h

/-- The first argument that is written as the flag is the flag, and without it the others say the
same. -/
theorem Scans.erase (isFlag : IsFlag specs long) (h : Scans specs texts arguments)
    (given : valuesOf long arguments ≠ []) :
    ∃ before after, arguments = before ++ .option long "" :: after ∧
      Scans specs (texts.erase (flagText long)) (before ++ after) := by
  induction h with
  | nil => exact absurd rfl given
  | operands texts => exact absurd (valuesOf_operands texts) given
  | @operand text texts arguments notOption rest ih =>
    obtain ⟨before, after, rfl, erased⟩ := ih given
    rw [List.erase_cons_tail (by simpa using ne_flagText notOption)]
    exact ⟨.operand text :: before, after, rfl, .operand notOption erased⟩
  | @option text texts said arguments notEnd isOption scanned rest ih =>
    by_cases same : text = flagText long
    · -- This is the one; what the arguments behind it say does not depend on it.
      subst same
      cases scanOption?_flagText isFlag scanned
      rw [List.erase_cons_head]
      exact ⟨[], arguments, rfl, rest⟩
    · have lacks := lacks_of_scanOption? isFlag same scanned
      rw [valuesOf_append, lacks, List.nil_append] at given
      obtain ⟨before, after, rfl, erased⟩ := ih given
      rw [List.erase_cons_tail (by simpa using same)]
      refine ⟨said ++ before, after, (List.append_assoc ..).symm, ?_⟩
      rw [List.append_assoc]
      exact .option notEnd isOption scanned erased
  | @value text value waiting texts said arguments notEnd isOption scanned notOption rest ih =>
    -- A flag takes no value, and no value looks like an option, so neither text is the flag.
    have other : text ≠ flagText long := by
      rintro rfl
      cases scanOption?_flagText isFlag scanned
    obtain ⟨lacks, waits⟩ := lacks_of_scanOption? isFlag other scanned
    rw [valuesOf_append, lacks, List.nil_append, valuesOf_option_cons_of_ne waits] at given
    obtain ⟨before, after, rfl, erased⟩ := ih given
    rw [List.erase_cons_tail (by simpa using other),
      List.erase_cons_tail (by simpa using ne_flagText notOption)]
    refine ⟨said ++ .option waiting value :: before, after, by simp, ?_⟩
    rw [List.append_assoc]
    exact .value notEnd isOption scanned notOption erased

section Removed

variable {before after : List Argument} {other value : String}

theorem valuesOf_removed_of_ne (h : long ≠ other) :
    valuesOf other (before ++ .option long value :: after) = valuesOf other (before ++ after) := by
  rw [valuesOf_append, valuesOf_option_cons_of_ne h, valuesOf_append]

theorem length_valuesOf_removed : (valuesOf long (before ++ .option long value :: after)).length =
    (valuesOf long (before ++ after)).length + 1 := by
  rw [valuesOf_append, valuesOf_option_cons_self, valuesOf_append]
  simp only [List.length_append, List.length_cons]
  omega

theorem operandsOf_removed :
    operandsOf (before ++ .option long value :: after) = operandsOf (before ++ after) := by
  simp [operandsOf]

theorem respectsCounts_iff : respectsCounts specs arguments = true ↔
    ∀ spec ∈ specs, spec.mayRepeat = true ∨ (valuesOf spec.long arguments).length ≤ 1 := by
  simp [respectsCounts]

theorem respectsCounts_removed
    (h : respectsCounts specs (before ++ .option long value :: after) = true) :
    respectsCounts specs (before ++ after) = true := by
  refine respectsCounts_iff.mpr fun spec mem =>
    (respectsCounts_iff.mp h spec mem).imp_right fun atMostOne => ?_
  by_cases same : long = spec.long
  · subst same
    rw [length_valuesOf_removed] at atMostOne
    omega
  · rwa [valuesOf_removed_of_ne same] at atMostOne

end Removed

end CommandLine

namespace Command

open CommandLine

variable {name text basisName : String} {explain check : Bool} {texts : List String}

def restrictSpecs : List OptionSpec :=
  [verbose, ⟨"basis", some 'b', true, false⟩, flag "explain", flag "check"]

theorem isFlag_check : IsFlag restrictSpecs "check" := by
  constructor
  · decide
  · simp [restrictSpecs, verbose, flag]

theorem flagText_check : flagText "check" = "--check" := by decide

theorem build_eq_restrict {formula : String} {arguments : List Argument} :
    build name formula arguments = some (.restrict text basisName explain check) ↔
      name = "restrict" ∧ formula = text ∧
        basisName = (valuesOf "basis" arguments).headD "all" ∧
        explain = !(valuesOf "explain" arguments).isEmpty ∧
        check = !(valuesOf "check" arguments).isEmpty := by
  constructor
  · intro h
    unfold build at h
    split at h <;> cases h
    exact ⟨rfl, rfl, rfl, rfl, rfl⟩
  · rintro ⟨rfl, rfl, rfl, rfl, rfl⟩
    rfl

/-- A restriction with its options, as the arguments name them. -/
theorem ofSubcommand?_eq_restrict :
    ofSubcommand? name texts = some (.restrict text basisName explain check) ↔
      name = "restrict" ∧ ∃ arguments, Scans restrictSpecs texts arguments ∧
        operandsOf arguments = [text] ∧ respectsCounts restrictSpecs arguments = true ∧
        basisName = (valuesOf "basis" arguments).headD "all" ∧
        explain = !(valuesOf "explain" arguments).isEmpty ∧
        check = !(valuesOf "check" arguments).isEmpty := by
  constructor
  · intro h
    unfold ofSubcommand? at h
    split at h
    · cases h
    · rename_i options known
      dsimp only at h
      split at h
      · cases h
      · rename_i arguments scanned
        split at h
        · rename_i formula operand counts
          obtain ⟨rfl, rfl, described⟩ := build_eq_restrict.mp h
          cases known
          exact ⟨rfl, arguments, scanArguments?_eq_some_iff.mp scanned, operand, counts, described⟩
        · cases h
  · rintro ⟨rfl, arguments, scans, operand, counts, described⟩
    have scanned := scanArguments?_eq_some_iff.mpr scans
    unfold restrictSpecs at scanned counts
    simp only [ofSubcommand?, specs, scanned, operand, counts]
    exact build_eq_restrict.mpr ⟨rfl, rfl, described⟩

theorem ofArguments?_restrict (texts : List String) :
    ofArguments? ("restrict" :: texts) = ofSubcommand? "restrict" texts := by
  rw [ofArguments?, if_neg (by decide)]

/-- Without its check, a restriction is asked for by the same arguments without the flag for it. -/
theorem ofArguments?_erase_check
    (h : ofArguments? texts = some (.restrict text basisName explain true)) :
    ofArguments? (texts.erase "--check") = some (.restrict text basisName explain false) := by
  fun_induction ofArguments? texts with
  | case1 => cases h
  | case2 first texts isOption said scanned ih =>
    -- Only the option for verbosity may stand before the subcommand.
    have other : first ≠ "--check" := by
      rintro rfl
      have unknown : scanOption? [verbose] "--check" = none := by decide
      rw [unknown] at scanned
      cases scanned
    rw [List.erase_cons_tail (by simpa using other), ofArguments?]
    simp [isOption, scanned, ih h]
  | case3 => cases h
  | case4 name texts notOption =>
    obtain ⟨rfl, arguments, scans, operand, counts, rfl, rfl, checked⟩ :=
      ofSubcommand?_eq_restrict.mp h
    have given : valuesOf "check" arguments ≠ [] := by
      simpa using checked
    obtain ⟨before, after, rfl, erased⟩ := scans.erase isFlag_check given
    rw [flagText_check] at erased
    -- The flag may not be repeated, so with the first one it is gone.
    have once : valuesOf "check" (before ++ after) = [] := by
      have atMostOne := respectsCounts_iff.mp counts (flag "check") (by simp [restrictSpecs])
      simpa [flag, length_valuesOf_removed] using atMostOne
    rw [List.erase_cons_tail (by decide), ofArguments?_restrict]
    refine ofSubcommand?_eq_restrict.mpr ⟨rfl, before ++ after, erased, ?_, ?_, ?_, ?_, ?_⟩
    · rwa [operandsOf_removed] at operand
    · exact respectsCounts_removed counts
    · rw [valuesOf_removed_of_ne (by decide)]
    · rw [valuesOf_removed_of_ne (by decide)]
    · simp [once]

end Command

namespace Request

variable {arguments : List String}

/-- The arguments ask for a check by a flag: without it they ask for the same restriction, unchecked. -/
def ChecksByFlag (parser : List String → Request) : Prop :=
  ∀ arguments text basisName explain,
    parser arguments = .command (.restrict text basisName explain true) →
    parser (arguments.erase "--check") = .command (.restrict text basisName explain false)

theorem ofArguments_eq_command_iff {asked : Command} :
    ofArguments arguments = .command asked ↔ Command.ofArguments? arguments = some asked := by
  unfold ofArguments
  split
  · rename_i described
    simp [described]
  · rename_i described
    rw [described]
    split <;> simp

theorem checksByFlag_ofArguments : ChecksByFlag ofArguments := by
  intro arguments text basisName explain asked
  have described := ofArguments_eq_command_iff.mp asked
  exact ofArguments_eq_command_iff.mpr (Command.ofArguments?_erase_check described)

end Request

end Propositional
