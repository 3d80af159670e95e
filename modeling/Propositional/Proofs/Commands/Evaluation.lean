import Propositional.Proofs.Assignments
import Propositional.Proofs.Commands
import Propositional.Proofs.Truth

/-!
# Evaluation from the command line

The assignments of an evaluation matter as the values that they list last, and in no other way.
Mistakes come first: the formula is read before the assignments are, and of these the first mistake
is reported, although a later assignment might give its name another value.
-/

namespace Propositional

namespace Command

section Evaluation

open Interpretation (Says FirstMistake lastValue?)

variable {ink : Ink} {text : String} {assignments : List String} {f : Formula}
  {entries : List (String × Bool)}

/-- How the evaluation of a formula under an interpretation ends. -/
def outcomeUnder (ink : Ink) (f : Formula) (i : Interpretation) : CommandLine.Outcome :=
  match f.evaluate i with
  | .error e => ⟨1, "", some e.message⟩
  | .ok value => ⟨0, ink.paint .blue f.render ++ " under " ++ ink.paint .blue i.display ++ " is "
      ++ truthMark ink value ++ "\n", none⟩

theorem outcomeUnder_congr {i j : Interpretation} (same : i.get? = j.get?) :
    outcomeUnder ink f i = outcomeUnder ink f j := by
  have values := congrFun same
  have evaluates : f.evaluate i = f.evaluate j := Formula.evaluate_congr fun name _ => values name
  rw [outcomeUnder, outcomeUnder, evaluates, Interpretation.display_congr values]

theorem run_eval_of_error {e : ReadError} (unread : Formula.parse text = .error e) :
    (run ink (.eval text assignments)).outcome = ⟨1, "", some e.message⟩ := by
  rw [run, withFormula, unread]
  rfl

theorem run_eval_of_firstMistake {e : AssignmentError} (read : Formula.parse text = .ok f)
    (mistake : FirstMistake assignments e) :
    (run ink (.eval text assignments)).outcome = ⟨1, "", some e.message⟩ := by
  rw [run, withFormula_of_ok read, runEval, Interpretation.read_of_firstMistake mistake]
  rfl

theorem run_eval_of_forall₂ (read : Formula.parse text = .ok f)
    (said : List.Forall₂ Says assignments entries) {i : Interpretation}
    (values : i.get? = lastValue? entries) :
    (run ink (.eval text assignments)).outcome = outcomeUnder ink f i := by
  have same : (Interpretation.ofEntries entries).get? = i.get? :=
    (funext (Interpretation.get?_ofEntries entries)).trans values.symm
  rw [← outcomeUnder_congr same, run, withFormula_of_ok read, runEval,
    Interpretation.read_of_forall₂ said, outcomeUnder]
  cases evaluated : f.evaluate (.ofEntries entries) with
  | error e =>
    simp only [evaluated]
    rfl
  | ok value =>
    simp only [evaluated]
    rfl

theorem run_eval_congr {assignments' : List String} {entries' : List (String × Bool)}
    (said : List.Forall₂ Says assignments entries) (said' : List.Forall₂ Says assignments' entries')
    (same : lastValue? entries = lastValue? entries') :
    (run ink (.eval text assignments)).outcome = (run ink (.eval text assignments')).outcome := by
  cases read : Formula.parse text with
  | error e => rw [run_eval_of_error read, run_eval_of_error read]
  | ok f =>
    have values := funext (Interpretation.get?_ofEntries entries)
    rw [run_eval_of_forall₂ read said values, run_eval_of_forall₂ read said' (values.trans same)]

end Evaluation

end Command

namespace CommandLine

open Interpretation (Says Mistaken FirstMistake lastValue?)

/-- **An evaluation knows the last values and nothing else of its assignments.** A formula that cannot
be read is reported whatever the assignments are, and then the first mistake among the assignments.
Without a mistake the formula is evaluated under the interpretation that has the values which are
listed last. So two lists of assignments without mistakes end alike if they list the same values
last, whatever their order, their repetitions and their blanks. -/
theorem evaluation_knows_last_values (ink : Ink) (text : String) :
    let ends (assignments : List String) := (Command.run ink (.eval text assignments)).outcome
    (∀ (parser : List String → Request) (arguments assignments : List String),
      parser arguments = .command (.eval text assignments) →
        runBy parser ink arguments = ends assignments) ∧
    (∀ e, Formula.parse text = .error e → ∀ assignments, ends assignments = ⟨1, "", some e.message⟩) ∧
    (∀ f, Formula.parse text = .ok f →
      (∀ assignments e, FirstMistake assignments e →
        ends assignments = ⟨1, "", some e.message⟩) ∧
      ∀ assignments entries, List.Forall₂ Says assignments entries →
        (∃ i : Interpretation, i.get? = lastValue? entries) ∧
        ∀ i : Interpretation, i.get? = lastValue? entries →
          ends assignments = Command.outcomeUnder ink f i) ∧
    (∀ assignments, (∃ entries, List.Forall₂ Says assignments entries) ∨
      ∃ e, FirstMistake assignments e) ∧
    (∀ assignment, (∃ entry, Says assignment entry) ↔ ∀ e, ¬ Mistaken assignment e) ∧
    ∀ assignments assignments' entries entries', List.Forall₂ Says assignments entries →
      List.Forall₂ Says assignments' entries' → lastValue? entries = lastValue? entries' →
      ends assignments = ends assignments' := by
  intro ends
  refine ⟨?_, ?_, ?_, Interpretation.forall₂_or_firstMistake, fun _ => Interpretation.exists_says_iff,
    ?_⟩
  · intro parser arguments assignments understood
    exact runBy_command understood
  · intro e unread assignments
    exact Command.run_eval_of_error unread
  · intro f read
    constructor
    · intro assignments e mistake
      exact Command.run_eval_of_firstMistake read mistake
    · intro assignments entries said
      have values := funext (Interpretation.get?_ofEntries entries)
      exact ⟨⟨_, values⟩, fun i => Command.run_eval_of_forall₂ read said⟩
  · intro assignments assignments' entries entries' said said' same
    exact Command.run_eval_congr said said' same

/-- Two lists for one interpretation, a list with two mistakes, and a formula that ends too early. -/
theorem evaluation_knows_last_values_and :
    let arguments := ["eval", "a & !b", "--set", "b=F,a=1"]
    let padded := ["a=f", " b = 0", "a =true"]
    let mistaken := ["a=T", "b", "c=2"]
    let ends (text : String) (assignments : List String) :=
      (Command.run .plain (.eval text assignments)).outcome
    run .plain arguments = ⟨0, "(a ∧ ¬b) under \x7ba, ¬b\x7d is T\n", none⟩ ∧
    ends "a & !b" padded = run .plain arguments ∧
    ends "a & !b" mistaken = ⟨1, "", some "Expected `name=value`, got \"b\""⟩ ∧
    ends "a &" mistaken = ⟨1, "", some "At 3: expected identifier, got end of input"⟩ := by
  intro arguments padded mistaken ends
  let f := Formula.binary .and (.atom "a") (.neg (.atom "b"))
  let i := Interpretation.ofEntries [("b", false), ("a", true)]
  have read : Formula.parse "a & !b" = .ok f := by decide +kernel
  obtain ⟨runs, _, knows, _, _, alike⟩ := evaluation_knows_last_values .plain "a & !b"
  have plain : List.Forall₂ Says ["b=F", "a=1"] [("b", false), ("a", true)] :=
    .cons (Interpretation.readEntry_eq_ok_iff.mp rfl)
      (.cons (Interpretation.readEntry_eq_ok_iff.mp rfl) .nil)
  have said : List.Forall₂ Says padded [("a", false), ("b", false), ("a", true)] :=
    .cons (Interpretation.readEntry_eq_ok_iff.mp rfl)
      (.cons (Interpretation.readEntry_eq_ok_iff.mp rfl)
        (.cons (Interpretation.readEntry_eq_ok_iff.mp rfl) .nil))
  have same : lastValue? [("a", false), ("b", false), ("a", true)] =
      lastValue? [("b", false), ("a", true)] := by
    funext name
    simp only [lastValue?, List.reverse_cons, List.reverse_nil, List.nil_append, List.cons_append,
      Interpretation.lookup_cons_eq_ite]
    by_cases first : name = "a"
    · rw [if_pos first, if_pos first]
    · rw [if_neg first, if_neg first, if_neg first]
  have mistake : FirstMistake mistaken (.noEquals "b") :=
    .later (Interpretation.readEntry_eq_ok_iff.mp rfl)
      (.here (Interpretation.readEntry_eq_error_iff.mp rfl))
  have under : Command.outcomeUnder .plain f i =
      ⟨0, "(a ∧ ¬b) under \x7ba, ¬b\x7d is T\n", none⟩ := by
    have leaves : f.leaves = ["a", "b"] := by simp [f, Formula.leaves]
    have evaluates : f.evaluate i = .ok true := by
      refine Formula.evaluate_eq_ok_iff.mpr ⟨?_, ?_⟩
      · rw [Interpretation.Assigns, Formula.variableSet, leaves]
        decide
      · simp only [f, Formula.holds]
        rfl
    have inOrder (name : String) :
        i.get? name = (Interpretation.ofEntries [("a", true), ("b", false)]).get? name := by
      rw [Interpretation.get?_ofEntries, Interpretation.get?_ofEntries]
      simp only [lastValue?, List.reverse_cons, List.reverse_nil, List.nil_append, List.cons_append,
        Interpretation.lookup_cons_eq_ite]
      by_cases first : name = "a"
      · subst first
        rfl
      · rw [if_neg first, if_neg first]
    have shown : i.display = "\x7ba, ¬b\x7d" := by
      rw [Interpretation.display_congr inOrder, Interpretation.display,
        List.mergeSort_of_pairwise (by decide)]
      rfl
    rw [Command.outcomeUnder, evaluates, shown]
    simp only [f, Formula.render]
    rfl
  have described : run .plain arguments = ends "a & !b" ["b=F", "a=1"] := runs Request.ofArguments _ _ rfl
  refine ⟨?_, ?_, (knows f read).1 mistaken _ mistake, ?_⟩
  · have values : i.get? = lastValue? [("b", false), ("a", true)] :=
      funext (Interpretation.get?_ofEntries _)
    exact described.trans ((((knows f read).2 _ _ plain).2 i values).trans under)
  · exact (alike _ _ _ _ said plain same).trans described.symm
  · exact (evaluation_knows_last_values .plain "a &").2.1 (.parse (.unexpectedEnd 3 .ident))
      (by decide +kernel) mistaken

end CommandLine

end Propositional
