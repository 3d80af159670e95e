import Propositional.CommandLine
import Propositional.Proofs.Arguments
import Propositional.Proofs.Equivalence
import Propositional.Proofs.Restriction.Meaning
import Propositional.Proofs.Restriction.Noting

/-!
# Failures print nothing

A command comes to a clean end when it prints and succeeds, or fails and prints nothing. Only the
check of a restriction can fail late, when the restricted formula stands there already. Restriction
keeps the variables and the meaning, so the check never finds a difference; all that can stop it is
the number of the variables.

How the arguments are read is left to a parser. What it has to say itself is no failure, and what it
refuses prints nothing.
-/

namespace Propositional

namespace Formula

theorem union_variableSet_restrict (b : Basis) (f : Formula) :
    f.variableSet.union (f.restrict b).variableSet = f.variableSet := by
  rw [variableSet_restrict]
  exact VariableSet.eq_of_mem_iff fun name => VariableSet.mem_union.trans (or_self_iff)

theorem agree_restrict (b : Basis) (f : Formula) : Agree f (f.restrict b) :=
  fun i _ => (evaluate_restrict b f i).symm

/-- The check of a restriction is refused or finds no difference. -/
theorem equivalent_restrict (b : Basis) (f : Formula) :
    f.equivalent (f.restrict b) =
      if f.variableSet.size > 20 then
        .error (.atomCount (.tooManyAtoms f.variableSet.size 20))
      else .ok true := by
  have passes := passes_of_agree (agree_restrict b f)
  rwa [Passes, union_variableSet_restrict] at passes

end Formula

namespace Command

/-- The command prints and succeeds, or it fails and prints nothing. A difference between a formula
and its restriction is none of the errors. -/
inductive Effect.Clean : Effect → Prop
  | printed (text : String) : Clean (printed text)
  | failed {e : CommandError} :
      (∀ restricted formula, e ≠ .notEquivalent restricted formula) → Clean (failed e)

variable {ink : Ink} {text basisName : String} {explain check : Bool} {f : Formula} {b : Basis}

theorem clean_withFormula {command : Formula → Effect}
    (h : ∀ f, Formula.parse text = .ok f → (command f).Clean) : (withFormula text command).Clean := by
  unfold withFormula
  split
  · exact .failed nofun
  · exact h _ ‹_›

theorem withFormula_of_ok {command : Formula → Effect} (h : Formula.parse text = .ok f) :
    withFormula text command = command f := by
  rw [withFormula, h]

theorem clean_runTree (ink : Ink) (json : Bool) (f : Formula) : (runTree ink json f).Clean := by
  unfold runTree
  split
  · exact .printed _
  · exact .printed _

theorem clean_runAtoms (ink : Ink) (explain : Bool) (f : Formula) :
    (runAtoms ink explain f).Clean := by
  unfold runAtoms
  split
  · exact .printed _
  · exact .printed _

theorem clean_runEval (ink : Ink) (assignments : List String) (f : Formula) :
    (runEval ink assignments f).Clean := by
  unfold runEval
  split
  · exact .failed nofun
  · split
    · exact .failed nofun
    · exact .printed _

theorem clean_runTable (attributes : Bool) (f : Formula) : (runTable attributes f).Clean := by
  unfold runTable
  split
  · exact .failed nofun
  · exact .printed _

/-- What a restriction prints before any check. -/
def restrictionText (ink : Ink) (b : Basis) (explain : Bool) (f : Formula) : String :=
  let e := (f.explainRestriction ink b (.titled ("Basis " ++ ink.paint .magenta b.name))).2
  (if explain then e.render else "") ++ (f.restrict b).render ++ "\n"

theorem restrictionText_ne_empty : restrictionText ink b explain f ≠ "" := by
  intro empty
  have ends := congrArg String.toList empty
  simp [restrictionText] at ends

theorem runRestrict_unchecked (known : Basis.ofName basisName = .ok b) :
    runRestrict ink basisName explain false f = printed (restrictionText ink b explain f) := by
  simp only [runRestrict, known, Formula.explainRestriction_fst]
  rfl

theorem runRestrict_checked (known : Basis.ofName basisName = .ok b) :
    runRestrict ink basisName explain true f =
      if f.variableSet.size > 20 then
        ⟨restrictionText ink b explain f,
          some (.table (.atomCount (.tooManyAtoms f.variableSet.size 20)))⟩
      else printed (restrictionText ink b explain f ++ checkLine ink b) := by
  have checked := Formula.equivalent_restrict b f
  split
  · rename_i tooMany
    rw [if_pos tooMany] at checked
    simp only [runRestrict, known, Formula.explainRestriction_fst, if_true, checked]
    rfl
  · rename_i fewEnough
    rw [if_neg fewEnough] at checked
    simp only [runRestrict, known, Formula.explainRestriction_fst, if_true, checked]
    rfl

theorem clean_runRestrict
    (h : ∀ b, check = true → Basis.ofName basisName = .ok b → f.variableSet.size ≤ 20) :
    (runRestrict ink basisName explain check f).Clean := by
  cases known : Basis.ofName basisName with
  | error e =>
    rw [runRestrict, known]
    exact .failed nofun
  | ok b =>
    cases check with
    | false =>
      rw [runRestrict_unchecked known]
      exact .printed _
    | true =>
      rw [runRestrict_checked known, if_neg (Nat.not_lt.mpr (h b rfl known))]
      exact .printed _

/-- The command checks the restriction of this formula to this basis. -/
def Checks (command : Command) (f : Formula) (b : Basis) : Prop :=
  ∃ text basisName explain, command = .restrict text basisName explain true ∧
    Formula.parse text = .ok f ∧ Basis.ofName basisName = .ok b

theorem clean_run {command : Command} (h : ∀ f b, command.Checks f b → f.variableSet.size ≤ 20) :
    (command.run ink).Clean := by
  cases command with
  | tokens text => exact .printed _
  | tree text json => exact clean_withFormula fun f _ => clean_runTree ink json f
  | atoms text explain => exact clean_withFormula fun f _ => clean_runAtoms ink explain f
  | eval text assignments => exact clean_withFormula fun f _ => clean_runEval ink assignments f
  | restrict text basisName explain check =>
    refine clean_withFormula fun f read => clean_runRestrict ?_
    rintro b rfl known
    exact h f b ⟨text, basisName, explain, rfl, read, known⟩
  | table text attributes => exact clean_withFormula fun f _ => clean_runTable attributes f

/-- The check never finds that a restriction has another meaning. -/
theorem error_ne_notEquivalent (ink : Ink) (command : Command) (restricted formula : Formula) :
    (command.run ink).error ≠ some (.notEquivalent restricted formula) := by
  by_cases checked : ∃ f b, command.Checks f b
  · -- A check is no clean end when the variables are too many, so its two outcomes are looked at.
    obtain ⟨f, b, text, basisName, explain, rfl, read, known⟩ := checked
    rw [run, withFormula_of_ok read, runRestrict_checked known]
    split <;> nofun
  · have clean : (command.run ink).Clean :=
      clean_run fun f b checks => absurd ⟨f, b, checks⟩ checked
    generalize command.run ink = effect at clean
    cases clean with
    | printed => nofun
    | failed other =>
      intro same
      exact other restricted formula (Option.some.inj same)

end Command

namespace CommandLine

variable {parser : List String → Request} {ink : Ink} {arguments : List String} {command : Command}

theorem runBy_command (understood : parser arguments = .command command) :
    runBy parser ink arguments = (command.run ink).outcome := by
  rw [runBy, understood]

theorem message_tooManyAtoms (count : Nat) :
    (CommandError.table (.atomCount (.tooManyAtoms count 20))).message =
      "Formula has " ++ toString count ++ " atoms, more than the supported 20" := by
  change "Formula has " ++ toString count ++ " atoms, more than the supported " ++ "20" = _
  rw [String.append_assoc]
  rfl

section Check

variable {text basisName : String} {explain : Bool} {f : Formula} {b : Basis}

theorem outcome_unchecked (read : Formula.parse text = .ok f)
    (known : Basis.ofName basisName = .ok b) :
    (Command.run ink (.restrict text basisName explain false)).outcome =
      ⟨0, Command.restrictionText ink b explain f, none⟩ := by
  rw [Command.run, Command.withFormula_of_ok read, Command.runRestrict_unchecked known]
  rfl

theorem outcome_checked (read : Formula.parse text = .ok f)
    (known : Basis.ofName basisName = .ok b) :
    (Command.run ink (.restrict text basisName explain true)).outcome =
      if f.variableSet.size > 20 then
        ⟨1, Command.restrictionText ink b explain f, some ("Formula has "
          ++ toString f.variableSet.size ++ " atoms, more than the supported 20")⟩
      else ⟨0, Command.restrictionText ink b explain f ++ Command.checkLine ink b, none⟩ := by
  rw [Command.run, Command.withFormula_of_ok read, Command.runRestrict_checked known]
  split
  · rw [← message_tooManyAtoms]
    rfl
  · rfl

end Check

/-- Whatever prints and then fails is a check with too many variables. -/
theorem exists_checks_of_printed (failed : (runBy parser ink arguments).code ≠ 0)
    (printed : (runBy parser ink arguments).stdout ≠ "") :
    ∃ command f b, parser arguments = .command command ∧ command.Checks f b ∧
      f.variableSet.size > 20 := by
  cases understood : parser arguments with
  | refused =>
    rw [runBy, understood] at printed
    exact absurd rfl printed
  | about text =>
    rw [runBy, understood] at failed
    exact absurd rfl failed
  | command command =>
    by_contra noCheck
    have clean : (command.run ink).Clean := Command.clean_run fun f b checks =>
      Nat.not_lt.mp fun tooMany => noCheck ⟨command, f, b, rfl, checks, tooMany⟩
    rw [runBy_command understood] at failed printed
    generalize command.run ink = effect at clean failed printed
    cases clean with
    | printed text => exact failed rfl
    | failed other => exact printed rfl

/-- **Failures print nothing, but for one.** Whichever parser reads the arguments, a run that fails has
printed nothing, unless it checks a restriction of a formula with more than twenty variables. Then it
has printed what the unchecked restriction prints, and its message tells the number of the variables.
With at most twenty variables the check succeeds, and a single line follows what is printed without
it. Where a flag asks for the check, the unchecked restriction is what the arguments without it ask
for. No run ends with the error that a formula and its restriction are not equivalent. -/
theorem failures_print_nothing (parser : List String → Request) (ink : Ink)
    (arguments : List String) :
    let runs := runBy parser ink
    ((runs arguments).code ≠ 0 → (runs arguments).stdout = "" ∨
      ∃ command f b, parser arguments = .command command ∧ command.Checks f b ∧
        f.variableSet.size > 20) ∧
    (∀ text basisName explain f b,
      parser arguments = .command (.restrict text basisName explain true) →
      Formula.parse text = .ok f → Basis.ofName basisName = .ok b →
      let unchecked := (Command.run ink (.restrict text basisName explain false)).outcome
      unchecked.code = 0 ∧
      (Request.ChecksByFlag parser → runs (arguments.erase "--check") = unchecked) ∧
      (f.variableSet.size > 20 →
        runs arguments = ⟨1, unchecked.stdout, some ("Formula has "
          ++ toString f.variableSet.size ++ " atoms, more than the supported 20")⟩ ∧
        (runs arguments).stdout ≠ "") ∧
      (f.variableSet.size ≤ 20 →
        runs arguments = ⟨0, unchecked.stdout ++ Command.checkLine ink b, none⟩)) ∧
    ∀ command restricted formula,
      (Command.run ink command).error ≠ some (.notEquivalent restricted formula) := by
  intro runs
  refine ⟨fun failed => ?_, fun text basisName explain f b understood read known => ?_,
    Command.error_ne_notEquivalent ink⟩
  · by_cases printed : (runs arguments).stdout = ""
    · exact .inl printed
    · exact .inr (exists_checks_of_printed failed printed)
  · have checked : runs arguments = _ :=
      (runBy_command understood).trans (outcome_checked read known)
    intro unchecked
    have without : unchecked = _ := outcome_unchecked read known
    rw [without]
    refine ⟨rfl, fun byFlag => ?_, fun tooMany => ?_, fun fewEnough => ?_⟩
    · exact (runBy_command (byFlag _ _ _ _ understood)).trans without
    · rw [checked, if_pos tooMany]
      exact ⟨rfl, Command.restrictionText_ne_empty⟩
    · rw [checked, if_neg (Nat.not_lt.mpr fewEnough)]

/-- A check that stops at one variable too many, behind the formula that it was to check, and one that
comes to its end. -/
theorem failures_print_nothing_nor :
    let letters := "N(a,b,c,d,e,f,g,h,i,j,k,l,m,n,o,p,q,r,s,t,u)"
    let many := ["restrict", "--check", letters]
    let few := ["restrict", "a|b", "-bnor", "--check"]
    (run .plain many).code ≠ 0 ∧
    ((run .plain many).stdout = "" ∨
      ∃ command f b, Request.ofArguments many = .command command ∧ command.Checks f b ∧
        f.variableSet.size > 20) ∧
    Request.ChecksByFlag Request.ofArguments ∧
    (run .plain ["restrict", letters]).code = 0 ∧
    run .plain many = ⟨1, (run .plain ["restrict", letters]).stdout,
      some "Formula has 21 atoms, more than the supported 20"⟩ ∧
    (run .plain ["restrict", "a|b", "-bnor"]).code = 0 ∧
    run .plain few = ⟨0, (run .plain ["restrict", "a|b", "-bnor"]).stdout
      ++ "equivalent (connectives: nor)\n", none⟩ := by
  intro letters many few
  let f := Formula.nor (.atom "a") (["b", "c", "d", "e", "f", "g", "h", "i", "j", "k", "l", "m", "n",
    "o", "p", "q", "r", "s", "t", "u"].map .atom)
  have byFlag := Request.checksByFlag_ofArguments
  have read : Formula.parse letters = .ok f := by decide +kernel
  have size : f.variableSet.size = 21 := by
    rw [Formula.variableSet]
    simp only [f, Formula.leaves, List.flatMap_map]
    rfl
  have described : Command.ofArguments? many = some (.restrict letters "all" false true) := by
    have scans : Scans Command.restrictSpecs ["--check", letters]
        ([.option "check" ""] ++ [.operand letters]) :=
      .option (by decide) (by decide) rfl (.operand (by decide) .nil)
    rw [Command.ofArguments?_restrict]
    exact Command.ofSubcommand?_eq_restrict.mpr ⟨rfl, _, scans, rfl, by decide, rfl, rfl, rfl⟩
  obtain ⟨prints, checks, _⟩ := failures_print_nothing Request.ofArguments .plain many
  obtain ⟨code, without, stops, _⟩ := checks letters "all" false f .all
    (Request.ofArguments_eq_command_iff.mpr described) read rfl
  obtain ⟨stopped, _⟩ := stops (by rw [size]; decide)
  rw [← without byFlag] at code stopped
  rw [size] at stopped
  have failed : (run .plain many).code ≠ 0 := by
    rw [run, stopped]
    decide
  have describedFew : Command.ofArguments? few = some (.restrict "a|b" "nor" false true) := by
    have scans : Scans Command.restrictSpecs ["a|b", "-bnor", "--check"]
        (.operand "a|b" :: ([.option "basis" "nor"] ++ ([.option "check" ""] ++ []))) :=
      .operand (by decide)
        (.option (by decide) (by decide) rfl (.option (by decide) (by decide) rfl .nil))
    rw [Command.ofArguments?_restrict]
    exact Command.ofSubcommand?_eq_restrict.mpr ⟨rfl, _, scans, rfl, by decide, rfl, rfl, rfl⟩
  let g := Formula.binary .or (.atom "a") (.atom "b")
  have readFew : Formula.parse "a|b" = .ok g := by decide +kernel
  have sizeFew : g.variableSet.size = 2 := by
    rw [Formula.variableSet]
    simp only [g, Formula.leaves]
    rfl
  obtain ⟨_, checksFew, _⟩ := failures_print_nothing Request.ofArguments .plain few
  obtain ⟨codeFew, withoutFew, _, succeeds⟩ := checksFew "a|b" "nor" false g .nor
    (Request.ofArguments_eq_command_iff.mpr describedFew) readFew rfl
  have succeeded := succeeds (by rw [sizeFew]; decide)
  rw [← withoutFew byFlag] at codeFew succeeded
  exact ⟨failed, prints failed, byFlag, code, stopped, codeFew, succeeded⟩

end CommandLine

end Propositional
