import Propositional.Proofs.Arguments

/-!
# The characters of a command

Values of options and elements of lists are cut out of the arguments, and an operand is a whole one.
So what all characters of the arguments have in common is true of the texts in the command that they
describe (`forall_mem_texts`). The one text that comes from elsewhere is the name of the basis for a
restriction that gives none. `Request.WorksOnArguments` says this of any parser.
-/

namespace Propositional

namespace CommandLine

/-- What the argument gives to the command: the operand or the value. -/
def Argument.text : Argument → String
  | .operand text => text
  | .option _ value => value

/-- The property is one of all characters that the argument gives. -/
def Argument.All (p : Char → Prop) (argument : Argument) : Prop :=
  ∀ c ∈ argument.text.toList, p c

/-- The arguments that are complete. -/
def Scanned.arguments : Scanned → List Argument
  | .complete arguments => arguments
  | .needsValue arguments _ => arguments

section Scanning

variable {p : Char → Prop} {specs : List OptionSpec} {cs : List Char} {text long : String}
  {texts : List String} {scanned : Scanned} {arguments : List Argument}

theorem all_flag (p : Char → Prop) (long : String) : (Argument.option long "").All p :=
  List.forall_mem_nil _

theorem all_option (h : ∀ c ∈ cs, p c) : (Argument.option long (String.ofList cs)).All p := by
  rw [Argument.All, Argument.text, String.toList_ofList]
  exact h

theorem forall_mem_splitAtEquals (h : ∀ c ∈ cs, p c) :
    (∀ c ∈ (splitAtEquals cs).1, p c) ∧ ∀ value ∈ (splitAtEquals cs).2, ∀ c ∈ value, p c := by
  fun_induction splitAtEquals cs with
  | case1 => simp
  | case2 rest =>
    refine ⟨List.forall_mem_nil _, ?_⟩
    rintro _ ⟨⟩
    exact (List.forall_mem_cons.mp h).2
  | case3 c rest _ before behind split ih =>
    obtain ⟨first, rest⟩ := List.forall_mem_cons.mp h
    obtain ⟨before, behind⟩ := ih rest
    rw [split] at before behind
    exact ⟨List.forall_mem_cons.mpr ⟨first, before⟩, behind⟩

theorem all_of_scanLong? (h : ∀ c ∈ cs, p c) (said : scanLong? specs cs = some scanned) :
    ∀ argument ∈ scanned.arguments, argument.All p := by
  have split := forall_mem_splitAtEquals h
  unfold scanLong? at said
  generalize splitAtEquals cs = parts at split said
  obtain ⟨name, value⟩ := parts
  cases found : findLong? specs name with
  | none => simp [found] at said
  | some spec =>
    cases takes : spec.takesValue <;> cases value <;>
      simp only [found, takes, Option.some.injEq, reduceCtorEq] at said <;> subst said
    · exact List.forall_mem_singleton.mpr (all_flag p _)
    · exact List.forall_mem_nil _
    · exact List.forall_mem_singleton.mpr (all_option (split.2 _ rfl))

theorem all_of_scanShort? (h : ∀ c ∈ cs, p c) (said : scanShort? specs cs = some scanned) :
    ∀ argument ∈ scanned.arguments, argument.All p := by
  fun_induction scanShort? specs cs generalizing scanned with
  | case1 =>
    cases said
    exact List.forall_mem_nil _
  | case2 => cases said
  | case3 =>
    cases said
    exact List.forall_mem_nil _
  | case4 c spec found takes value =>
    cases said
    have given : ∀ c ∈ value, p c := by
      intro c hc
      exact h c (List.mem_cons_of_mem _ (List.mem_cons_of_mem _ hc))
    exact List.forall_mem_singleton.mpr (all_option given)
  | case5 c spec found takes value =>
    cases said
    exact List.forall_mem_singleton.mpr (all_option (List.forall_mem_cons.mp h).2)
  | case6 => cases said
  | case7 c rest spec found noValue said' behind ih =>
    cases said
    exact List.forall_mem_cons.mpr ⟨all_flag p _, ih (List.forall_mem_cons.mp h).2 behind⟩
  | case8 c rest spec found noValue said' waiting behind ih =>
    cases said
    exact List.forall_mem_cons.mpr ⟨all_flag p _, ih (List.forall_mem_cons.mp h).2 behind⟩

theorem all_of_scanOption? (h : ∀ c ∈ text.toList, p c)
    (said : scanOption? specs text = some scanned) :
    ∀ argument ∈ scanned.arguments, argument.All p := by
  unfold scanOption? at said
  split at said
  · rename_i cs spelled
    rw [spelled, List.forall_mem_cons, List.forall_mem_cons] at h
    exact all_of_scanLong? h.2.2 said
  · rename_i cs _ spelled
    rw [spelled, List.forall_mem_cons] at h
    exact all_of_scanShort? h.2 said
  · cases said

theorem Scans.all (h : Scans specs texts arguments) (all : ∀ text ∈ texts, ∀ c ∈ text.toList, p c) :
    ∀ argument ∈ arguments, argument.All p := by
  induction h with
  | nil => exact List.forall_mem_nil _
  | operands texts =>
    rw [List.forall_mem_map]
    exact (List.forall_mem_cons.mp all).2
  | operand _ _ ih =>
    obtain ⟨first, rest⟩ := List.forall_mem_cons.mp all
    exact List.forall_mem_cons.mpr ⟨first, ih rest⟩
  | option _ _ scanned _ ih =>
    obtain ⟨first, rest⟩ := List.forall_mem_cons.mp all
    exact List.forall_mem_append.mpr ⟨all_of_scanOption? first scanned, ih rest⟩
  | value _ _ scanned _ _ ih =>
    obtain ⟨first, behind⟩ := List.forall_mem_cons.mp all
    obtain ⟨value, rest⟩ := List.forall_mem_cons.mp behind
    refine List.forall_mem_append.mpr ⟨all_of_scanOption? first scanned, ?_⟩
    exact List.forall_mem_cons.mpr ⟨value, ih rest⟩

theorem forall_mem_valuesOf (all : ∀ argument ∈ arguments, argument.All p) :
    ∀ value ∈ valuesOf long arguments, ∀ c ∈ value.toList, p c := by
  intro value given
  obtain ⟨argument, mem, names⟩ := List.mem_filterMap.mp given
  split at names
  · split at names
    · cases names
      exact all _ mem
    · cases names
  · cases names

theorem forall_mem_operandsOf (all : ∀ argument ∈ arguments, argument.All p) :
    ∀ operand ∈ operandsOf arguments, ∀ c ∈ operand.toList, p c := by
  intro operand given
  obtain ⟨argument, mem, names⟩ := List.mem_filterMap.mp given
  split at names
  · cases names
    exact all _ mem
  · cases names

end Scanning

end CommandLine

namespace Command

open CommandLine

variable {p : Char → Prop} {command : Command} {name formula : String} {given : List String}
  {arguments : List Argument}

theorem forall_mem_splitAtCommas {cs : List Char} (h : ∀ c ∈ cs, p c) :
    ∀ element ∈ splitAtCommas cs, ∀ c ∈ element, p c := by
  fun_induction splitAtCommas cs with
  | case1 => simp
  | case2 rest ih =>
    have behind := (List.forall_mem_cons.mp h).2
    exact List.forall_mem_cons.mpr ⟨List.forall_mem_nil _, ih behind⟩
  | case3 c rest _ _ _ => simpa using (List.forall_mem_cons.mp h).1
  | case4 c rest _ first others split ih =>
    obtain ⟨here, behind⟩ := List.forall_mem_cons.mp h
    have pieces := ih behind
    rw [split, List.forall_mem_cons] at pieces
    exact List.forall_mem_cons.mpr ⟨List.forall_mem_cons.mpr ⟨here, pieces.1⟩, pieces.2⟩

theorem forall_mem_elements {value : String} (h : ∀ c ∈ value.toList, p c) :
    ∀ element ∈ elements value, ∀ c ∈ element.toList, p c := by
  rw [elements, List.forall_mem_map]
  intro element mem
  rw [String.toList_ofList]
  exact forall_mem_splitAtCommas h element mem

theorem forall_mem_texts_of_build (built : build name formula arguments = some command)
    (operand : ∀ c ∈ formula.toList, p c) (all : ∀ argument ∈ arguments, argument.All p)
    (default : ∀ c ∈ "all".toList, p c) : ∀ text ∈ command.texts, ∀ c ∈ text.toList, p c := by
  have alone : ∀ text ∈ [formula], ∀ c ∈ text.toList, p c := List.forall_mem_singleton.mpr operand
  unfold build at built
  split at built <;> cases built
  · exact alone
  · exact alone
  · exact alone
  · refine List.forall_mem_cons.mpr ⟨operand, ?_⟩
    rw [List.forall_mem_flatMap]
    intro value mem
    exact forall_mem_elements (forall_mem_valuesOf all value mem)
  · refine List.forall_mem_cons.mpr ⟨operand, List.forall_mem_singleton.mpr ?_⟩
    cases values : valuesOf "basis" arguments with
    | nil => exact default
    | cons value others =>
      apply forall_mem_valuesOf all
      rw [values]
      exact List.mem_cons_self
  · exact alone

theorem forall_mem_texts_of_ofSubcommand? (described : ofSubcommand? name given = some command)
    (h : ∀ text ∈ given, ∀ c ∈ text.toList, p c) (default : ∀ c ∈ "all".toList, p c) :
    ∀ text ∈ command.texts, ∀ c ∈ text.toList, p c := by
  unfold ofSubcommand? at described
  split at described
  · cases described
  · dsimp only at described
    split at described
    · cases described
    · rename_i arguments scanned
      have all := (scans_of_scanArguments? scanned).all h
      split at described
      · rename_i formula operand _
        have operands := forall_mem_operandsOf all
        rw [operand, List.forall_mem_singleton] at operands
        exact forall_mem_texts_of_build described operands all default
      · cases described

/-- The texts of a command consist of characters of the arguments, but for the name of the basis where
none is given. -/
theorem forall_mem_texts (described : ofArguments? given = some command)
    (h : ∀ text ∈ given, ∀ c ∈ text.toList, p c) (default : ∀ c ∈ "all".toList, p c) :
    ∀ text ∈ command.texts, ∀ c ∈ text.toList, p c := by
  fun_induction ofArguments? given with
  | case1 => cases described
  | case2 first given isOption said scanned ih => exact ih described (List.forall_mem_cons.mp h).2
  | case3 => cases described
  | case4 name given notOption =>
    exact forall_mem_texts_of_ofSubcommand? described (List.forall_mem_cons.mp h).2 default

end Command

namespace Request

/-- Commands work on what stands in the arguments, and on the name of the basis that is taken if they
name none. -/
def WorksOnArguments (parser : List String → Request) : Prop :=
  ∀ arguments asked, parser arguments = .command asked →
    ∀ text ∈ asked.texts, ∀ c ∈ text.toList,
      c ∈ "all".toList ∨ ∃ argument ∈ arguments, c ∈ argument.toList

theorem worksOnArguments_ofArguments : WorksOnArguments ofArguments := by
  intro arguments asked understood
  have described := ofArguments_eq_command_iff.mp understood
  refine Command.forall_mem_texts
    (p := fun c => c ∈ "all".toList ∨ ∃ argument ∈ arguments, c ∈ argument.toList) described ?_ ?_
  · intro argument mem c hc
    exact .inr ⟨argument, mem, hc⟩
  · intro c hc
    exact .inl hc

end Request

end Propositional
