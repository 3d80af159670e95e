import Propositional.Proofs.Arguments.Characters
import Propositional.Proofs.Colours.EscapeFree
import Propositional.Proofs.Commands
import Propositional.Proofs.Reports
import Propositional.Proofs.Restriction.Laws

/-!
# Colours change no content

What a command or a report prints in colours shows what it prints in plain ink. Only parts without
escape characters are painted, so each of them shows itself.

The one place where colours could change more is an explanation, where painted steps are compared with
each other. But a law has its own text in each ink (`eq_of_lawText_eq`). So the laws are the same that
stay when repeated ones are left out (`lawSteps_eq_map`), and the explanations differ in their labels
only (`Explanation.Alike`).
-/

namespace Propositional

namespace Note

variable {text plain : String} {steps plainSteps : List String}

theorem relabel_step (h : Shows text plain) :
    (Note.step text).outline.relabel uncoloured = (Note.step plain).outline := by
  rw [outline, Outline.relabel_node, outline, h.uncoloured_eq]
  rfl

theorem relabel_steps (h : Shows text plain) (hs : steps.map uncoloured = plainSteps) :
    (Note.part text (steps.map .step)).outline.relabel uncoloured =
      (Note.part plain (plainSteps.map .step)).outline := by
  subst hs
  rw [outline, Outline.relabel_node, outline, h.uncoloured_eq]
  simp only [List.map_map]
  refine congrArg (Outline.node plain) (List.map_congr_left fun step _ => ?_)
  simp [outline, Outline.relabel_node]

end Note

/-- Label by label, the explanation shows the plain one. -/
def Explanation.Alike (e plain : Explanation) : Prop :=
  e.outline.relabel uncoloured = plain.outline

namespace Explanation

variable {e plain : Explanation} {note plainNote : Note}

theorem Alike.shows_render (h : Alike e plain) : Shows e.render plain.render := by
  have rendered := Outline.shows_render e.outline
  rwa [h] at rendered

theorem Alike.push (h : Alike e plain) (hn : note.outline.relabel uncoloured = plainNote.outline) :
    Alike { e with notes := e.notes.push note } { plain with notes := plain.notes.push plainNote } := by
  unfold Alike outline at h ⊢
  simp only [Outline.relabel_node, Outline.node.injEq] at h ⊢
  simp [h, hn]

theorem alike_titled {heading plainHeading : String} (h : Shows heading plainHeading) :
    Alike (titled heading) (titled plainHeading) := by
  rw [Alike, outline, Outline.relabel_node]
  exact congrArg (Outline.node · []) h.uncoloured_eq

theorem back?_titled_ne (heading text : String) :
    (titled heading).notes.back? ≠ some (.step text) := by
  simp [titled]

theorem back?_addPart_ne (e part : Explanation) (text : String) :
    (e.addPart part).notes.back? ≠ some (.step text) := by
  simp [addPart]

end Explanation

namespace Formula

variable {ink : Ink} {b : Basis} {f : Formula}

theorem shows_lawText (ink : Ink) (law : Law) :
    Shows (lawText ink law.equivalence) (lawText .plain law.equivalence) := by
  refine EscapeFree.shows_paint (.append (by decide) ?_) ink .green
  exact law.escape_notMem_equivalence

/-- The laws that are named: those that are applied, but for each that follows itself. -/
def namedLaws (b : Basis) (f : Formula) : List Law :=
  (f.laws b).destutter (· ≠ ·)

/-- Which laws are named does not depend on the ink, although painted texts are compared. -/
theorem lawSteps_eq_map (ink : Ink) (b : Basis) (f : Formula) :
    f.lawSteps ink b = (f.namedLaws b).map fun law => lawText ink law.equivalence := by
  have injective : Function.Injective fun law : Law => lawText ink law.equivalence :=
    fun _ _ same => eq_of_lawText_eq same
  rw [lawSteps, namedLaws, List.map_destutter_ne _ injective]

theorem names_restrict (names : ∀ name ∈ f.leaves, EscapeFree name) (b : Basis) :
    ∀ name ∈ (f.restrict b).leaves, EscapeFree name :=
  fun name mem => names name (mem_leaves_restrict.mp mem)

theorem shows_resultStep (names : ∀ name ∈ f.leaves, EscapeFree name) (ink : Ink) (b : Basis) :
    Shows (f.resultStep ink b) (f.resultStep .plain b) := by
  have result : EscapeFree (f.restrict b).render := escapeFree_render (names_restrict names b)
  have lead : EscapeFree "Result: " := by decide
  exact lead.shows.append (result.shows_paint ink .red)

theorem map_uncoloured_restrictionSteps (names : ∀ name ∈ f.leaves, EscapeFree name) (ink : Ink)
    (b : Basis) : (f.restrictionSteps ink b).map uncoloured = f.restrictionSteps .plain b := by
  rw [restrictionSteps, restrictionSteps, List.map_append, List.map_singleton,
    (shows_resultStep names ink b).uncoloured_eq, lawSteps_eq_map, lawSteps_eq_map, List.map_map]
  congr 1
  exact List.map_congr_left fun law _ => (shows_lawText ink law).uncoloured_eq

theorem shows_restrictionHeading (names : ∀ name ∈ f.leaves, EscapeFree name) (ink : Ink) (b : Basis) :
    Shows ("Restricting " ++ ink.paint .blue f.render ++ " to basis " ++ b.name)
      ("Restricting " ++ f.render ++ " to basis " ++ b.name) := by
  have lead : EscapeFree "Restricting " := by decide
  have basis : EscapeFree (" to basis " ++ b.name) := .append (by decide) (escapeFree_name b)
  have heading := (lead.shows.append ((escapeFree_render names).shows_paint ink .blue)).append basis.shows
  simpa only [String.append_assoc] using heading

/-- The same is added to explanations that differ in their colours, if no step stands last in them. -/
theorem alike_explainRestriction {e plain : Explanation}
    (names : ∀ name ∈ f.leaves, EscapeFree name) (alike : e.Alike plain)
    (noStep : ∀ text, e.notes.back? ≠ some (.step text))
    (noPlainStep : ∀ text, plain.notes.back? ≠ some (.step text)) (ink : Ink) (b : Basis) :
    (f.explainRestriction ink b e).2.Alike (f.explainRestriction .plain b plain).2 := by
  by_cases isAll : b = .all
  · subst isAll
    rw [explainRestriction_all, explainRestriction_all, Explanation.addStep_of_back?_ne (noStep _),
      Explanation.addStep_of_back?_ne (noPlainStep _)]
    have step : EscapeFree "Every connective is allowed; nothing to rewrite" := by decide
    exact alike.push (Note.relabel_step step.shows)
  · rw [explainRestriction_of_ne isAll, explainRestriction_of_ne isAll]
    have steps := map_uncoloured_restrictionSteps names ink b
    exact alike.push (Note.relabel_steps (shows_restrictionHeading names ink b) steps)

end Formula

namespace Command

/-- The command ends in the same way, and what it has printed shows the plain text. -/
structure Effect.Alike (effect plain : Effect) : Prop where
  error : effect.error = plain.error
  stdout : Shows effect.stdout plain.stdout

variable {text plain basisName : String} {f : Formula} {b : Basis}

theorem alike_printed (h : Shows text plain) : (printed text).Alike (printed plain) :=
  ⟨rfl, h⟩

theorem alike_failed (e : CommandError) : (failed e).Alike (failed e) :=
  ⟨rfl, fun _ => rfl⟩

theorem alike_withFormula {command plain : Formula → Effect}
    (h : ∀ f, (∀ name ∈ f.leaves, EscapeFree name) → (command f).Alike (plain f)) (text : String) :
    (withFormula text command).Alike (withFormula text plain) := by
  unfold withFormula
  split
  · exact alike_failed _
  · rename_i f read
    exact h f (names_of_parse read)

theorem alike_runTokens (h : EscapeFree text) (ink : Ink) :
    (runTokens ink text).Alike (runTokens .plain text) := by
  apply alike_printed
  apply shows_join
  intro token mem
  have display := escapeFree_token (escapeFree_of_mem_segment h token mem)
  apply Shows.line
  split
  · exact display.shows_paint ink .red
  · exact display.shows

theorem alike_runTree (names : ∀ name ∈ f.leaves, EscapeFree name) (ink : Ink) (json : Bool) :
    (runTree ink json f).Alike (runTree .plain json f) := by
  unfold runTree
  split
  · exact alike_printed (escapeFree_json _ (by decide)).shows.line
  · have outline := Outline.shows_render f.outline
    rw [relabel_outline names] at outline
    have size := (EscapeFree.toString_nat f.size).shows_paint ink .cyan
    have depth := (EscapeFree.toString_nat f.depth).shows_paint ink .cyan
    have between : EscapeFree " nodes, depth " := by decide
    exact alike_printed (((outline.append size).append between.shows).append depth).line

theorem alike_runAtoms (names : ∀ name ∈ f.leaves, EscapeFree name) (ink : Ink) (explain : Bool) :
    (runAtoms ink explain f).Alike (runAtoms .plain explain f) := by
  unfold runAtoms
  split
  · have collecting : EscapeFree "Collecting variables in " := by decide
    have arrow : EscapeFree "=> " := by decide
    have formula := (escapeFree_render names).shows_paint ink .blue
    have set := (escapeFree_display names).shows_paint ink .green
    have first := (collecting.shows.append formula).line
    have second := (arrow.shows.append set).line
    exact alike_printed (first.append second)
  · exact alike_printed (escapeFree_display names).shows.line

theorem shows_truthMark (ink : Ink) (value : Bool) :
    Shows (truthMark ink value) (truthMark .plain value) := by
  cases value with
  | false => exact (by decide : EscapeFree "F").shows_paint ink .red
  | true => exact (by decide : EscapeFree "T").shows_paint ink .green

theorem alike_runEval {assignments : List String} (names : ∀ name ∈ f.leaves, EscapeFree name)
    (h : ∀ text ∈ assignments, EscapeFree text) (ink : Ink) :
    (runEval ink assignments f).Alike (runEval .plain assignments f) := by
  unfold runEval
  cases read : Interpretation.read assignments with
  | error e => exact alike_failed _
  | ok i =>
    dsimp only
    split
    · exact alike_failed _
    · have formula := (escapeFree_render names).shows_paint ink .blue
      have interpretation := (escapeFree_display_of_read h read).shows_paint ink .blue
      have under : EscapeFree " under " := by decide
      have is : EscapeFree " is " := by decide
      have judgement := ((formula.append under.shows).append interpretation).append is.shows
      exact alike_printed (judgement.append (shows_truthMark ink _)).line

theorem shows_restrictionText (names : ∀ name ∈ f.leaves, EscapeFree name) (ink : Ink) (b : Basis)
    (explain : Bool) :
    Shows (restrictionText ink b explain f) (restrictionText .plain b explain f) := by
  have lead : EscapeFree "Basis " := by decide
  have heading := lead.shows.append ((escapeFree_name b).shows_paint ink .magenta)
  have titled := Explanation.alike_titled heading
  have explained := Formula.alike_explainRestriction names titled (Explanation.back?_titled_ne _)
    (Explanation.back?_titled_ne _) ink b
  have result : EscapeFree (f.restrict b).render := escapeFree_render (Formula.names_restrict names b)
  apply Shows.line
  apply Shows.append _ result.shows
  split
  · exact explained.shows_render
  · exact fun _ => rfl

theorem shows_checkLine (ink : Ink) (b : Basis) : Shows (checkLine ink b) (checkLine .plain b) := by
  have word : EscapeFree "equivalent" := by decide
  have connectives : EscapeFree
      (" (connectives: " ++ (", ".intercalate (b.connectives.map Kind.name) ++ ")\n")) := by
    cases b <;> decide
  have line := (word.shows_paint ink .green).append connectives.shows
  simp only [checkLine, String.append_assoc]
  exact line

theorem alike_runRestrict (names : ∀ name ∈ f.leaves, EscapeFree name) (ink : Ink)
    (basisName : String) (explain check : Bool) :
    (runRestrict ink basisName explain check f).Alike
      (runRestrict .plain basisName explain check f) := by
  have restricted (b : Basis) := shows_restrictionText names ink b explain
  cases known : Basis.ofName basisName with
  | error e =>
    simp only [runRestrict, known]
    exact alike_failed (.basis e)
  | ok b =>
    cases check with
    | false =>
      rw [runRestrict_unchecked known, runRestrict_unchecked known]
      exact alike_printed (restricted b)
    | true =>
      rw [runRestrict_checked known, runRestrict_checked known]
      split
      · exact ⟨rfl, restricted b⟩
      · exact alike_printed ((restricted b).append (shows_checkLine ink b))

theorem alike_runTable (names : ∀ name ∈ f.leaves, EscapeFree name) (attributes : Bool) :
    (runTable attributes f).Alike (runTable attributes f) := by
  unfold runTable
  cases tabulated : TruthTable.ofFormula f with
  | error e => exact alike_failed _
  | ok table =>
    have named : ∀ name ∈ f.variableSet.names, EscapeFree name :=
      fun name mem => names name (Formula.mem_variableSet.mp mem)
    have header : ∀ cell ∈ table.header, EscapeFree cell := by
      rw [TruthTable.header_of_ofFormula tabulated, List.forall_mem_append]
      exact ⟨named, List.forall_mem_singleton.mpr (escapeFree_render names)⟩
    have attributesLine : EscapeFree ("\nvalid: " ++ toString table.isValid ++ ", satisfiable: " ++
        toString table.isSatisfiable ++ "\n") := by
      cases table.isValid <;> cases table.isSatisfiable <;> decide
    apply alike_printed
    apply EscapeFree.shows
    apply (escapeFree_markdown header).append
    split
    · exact attributesLine
    · decide

/-- Only the list of tokens and that of assignments show texts as they were given. -/
theorem alike_run {command : Command} (h : ∀ text ∈ command.texts, EscapeFree text) (ink : Ink) :
    (command.run ink).Alike (command.run .plain) := by
  cases command with
  | tokens text => exact alike_runTokens (List.forall_mem_singleton.mp h) ink
  | tree text json => exact alike_withFormula (fun f names => alike_runTree names ink json) text
  | atoms text explain => exact alike_withFormula (fun f names => alike_runAtoms names ink explain) text
  | eval text assignments =>
    obtain ⟨_, assigned⟩ := List.forall_mem_cons.mp h
    exact alike_withFormula (fun f names => alike_runEval names assigned ink) text
  | restrict text basisName explain check =>
    exact alike_withFormula (fun f names => alike_runRestrict names ink basisName explain check) text
  | table text attributes => exact alike_withFormula (fun f names => alike_runTable names attributes) text

end Command

namespace Request

/-- Where a parser has a text of its own, it differs between the inks in its colours only. -/
def ColoursOnly (parser : List String → Request) : Prop :=
  ∀ arguments text, parser arguments = .about text → uncoloured (text .colours) = text .plain

theorem coloursOnly_ofArguments : ColoursOnly ofArguments := by
  intro arguments text told
  unfold ofArguments at told
  split at told
  · cases told
  · split at told
    · rename_i topic _
      cases told
      have free : EscapeFree topic.text := by
        cases topic <;> decide
      exact free.shows.uncoloured_eq
    · cases told

end Request

namespace CommandLine

variable {parser : List String → Request} {arguments : List String}

/-- Arguments without escape characters bring about the same in each ink but for the colours. -/
theorem uncoloured_runBy (works : Request.WorksOnArguments parser)
    (colours : Request.ColoursOnly parser) (h : ∀ text ∈ arguments, EscapeFree text) :
    let coloured := runBy parser .colours arguments
    let plain := runBy parser .plain arguments
    coloured.code = plain.code ∧ coloured.message = plain.message ∧
      uncoloured coloured.stdout = plain.stdout := by
  cases understood : parser arguments with
  | refused =>
    rw [runBy, runBy, understood]
    have nothing : EscapeFree "" := by decide
    exact ⟨rfl, rfl, nothing.shows.uncoloured_eq⟩
  | about text =>
    rw [runBy, runBy, understood]
    exact ⟨rfl, rfl, colours arguments text understood⟩
  | command command =>
    have texts : ∀ text ∈ command.texts, EscapeFree text := by
      intro text mem escape
      obtain byDefault | ⟨argument, given, inArgument⟩ :=
        works arguments command understood text mem _ escape
      · exact absurd byDefault (by decide)
      · exact h argument given inArgument
    have alike := Command.alike_run texts .colours
    rw [runBy_command understood, runBy_command understood, Command.Effect.outcome,
      Command.Effect.outcome, alike.error]
    split
    · exact ⟨rfl, rfl, alike.stdout.uncoloured_eq⟩
    · exact ⟨rfl, rfl, alike.stdout.uncoloured_eq⟩

end CommandLine

namespace Report

variable {ink : Ink} {text basisName : String} {b : Basis} {f : Formula}

/-- What each report begins with: how the reading of the text ended. -/
def reading (step : String) : Explanation :=
  (Explanation.titled "").addPart ((Explanation.titled "Parsing formula").addStep step)

theorem alike_untitled : (Explanation.titled "").Alike (Explanation.titled "") :=
  Explanation.alike_titled fun _ => rfl

theorem alike_reading {step : String} (h : EscapeFree step) :
    (reading step).Alike (reading step) := by
  have heading : EscapeFree "Parsing formula" := by decide
  have shown : [step].map uncoloured = [step] := congrArg (· :: []) h.shows.uncoloured_eq
  exact alike_untitled.push (Note.relabel_steps heading.shows shown)

theorem restriction_explanation (read : Formula.parse text = .ok f)
    (known : Basis.ofName basisName = .ok b) :
    (restriction ink text basisName).explanation =
      (f.explainRestriction ink b (reading ("Parsed " ++ f.render))).2.render := by
  rw [restriction, known]
  simp only [readExplained_of_ok read]
  rfl

theorem alike_restriction (h : EscapeFree text) (ink : Ink) (basisName : String) :
    (restriction ink text basisName).result = (restriction .plain text basisName).result ∧
      Shows (restriction ink text basisName).explanation
        (restriction .plain text basisName).explanation := by
  cases known : Basis.ofName basisName with
  | error e =>
    rw [restriction, restriction, known]
    exact ⟨rfl, alike_untitled.shows_render⟩
  | ok b =>
    cases read : Formula.parse text with
    | error e =>
      rw [restriction_of_error read known, restriction_of_error read known]
      exact ⟨rfl, (alike_reading (escapeFree_message h read)).shows_render⟩
    | ok f =>
      have names := names_of_parse read
      have parsed : EscapeFree ("Parsed " ++ f.render) :=
        .append (by decide) (escapeFree_render names)
      have noStep := Explanation.back?_addPart_ne (.titled "")
        ((Explanation.titled "Parsing formula").addStep ("Parsed " ++ f.render))
      rw [restriction_result read known, restriction_result read known,
        restriction_explanation read known, restriction_explanation read known]
      have explained :=
        Formula.alike_explainRestriction names (alike_reading parsed) noStep noStep ink b
      exact ⟨rfl, explained.shows_render⟩

end Report

section Content

open Formula

/-- **Colours change no content.** The program ends in the same way with colours and without, if no
argument has an escape character; and what it prints in colours is what it prints in plain ink when the
colours are taken out. A parser may be any that makes its commands of what stands in the arguments, and
that changes nothing but colours in texts of its own. The same holds of an explanation of how a formula
is restricted, if no name in the formula has an escape character, and of the report about a text without
them. In an explanation the laws that are named are the same in each ink, since repeated steps are left
out alike. -/
theorem colours_change_no_content :
    (∀ parser : List String → Request,
      Request.WorksOnArguments parser → Request.ColoursOnly parser →
      ∀ arguments : List String, (∀ text ∈ arguments, EscapeFree text) →
        let coloured := CommandLine.runBy parser .colours arguments
        let plain := CommandLine.runBy parser .plain arguments
        coloured.code = plain.code ∧ coloured.message = plain.message ∧
          uncoloured coloured.stdout = plain.stdout) ∧
    (∀ (b : Basis) (f : Formula) (heading : String),
      (∀ name ∈ f.leaves, EscapeFree name) → EscapeFree heading →
      let explained (ink : Ink) := f.explainRestriction ink b (.titled heading)
      (explained .colours).1 = (explained .plain).1 ∧
        uncoloured (explained .colours).2.render = (explained .plain).2.render ∧
        (b ≠ .all → ∀ ink, (explained ink).2 = ⟨heading, #[.part
          ("Restricting " ++ ink.paint .blue f.render ++ " to basis " ++ b.name)
          (((f.namedLaws b).map (fun law => lawText ink law.equivalence) ++
            ["Result: " ++ ink.paint .red (f.restrict b).render]).map .step)]⟩)) ∧
    ∀ text basisName : String, EscapeFree text →
      let report (ink : Ink) := Report.restriction ink text basisName
      (report .colours).result = (report .plain).result ∧
        uncoloured (report .colours).explanation = (report .plain).explanation := by
  refine ⟨fun parser works colours arguments => ?_, fun b f heading names h => ?_,
    fun text basisName h => ?_⟩
  · exact CommandLine.uncoloured_runBy works colours
  · intro explained
    have noStep := Explanation.back?_titled_ne heading
    have alike := alike_explainRestriction names (Explanation.alike_titled h.shows) noStep noStep
      .colours b
    refine ⟨?_, alike.shows_render.uncoloured_eq, fun notAll ink => ?_⟩
    · rw [f.explainRestriction_fst, f.explainRestriction_fst]
    · rw [← lawSteps_eq_map]
      exact congrArg Prod.snd (f.explainRestriction_of_ne notAll (.titled heading))
  · obtain ⟨result, explanation⟩ := Report.alike_restriction h .colours basisName
    exact ⟨result, explanation.uncoloured_eq⟩

/-- A list with a token that is painted, a law that is applied twice in a row and named once, and a
report about a text that is a formula. -/
theorem colours_change_no_content_unknown :
    let arguments := ["tokens", "a?b"]
    let f := conj (impl (atom "a") (atom "b")) (impl (atom "b") (atom "a"))
    let report (ink : Ink) := Report.restriction ink "a->b" "nor"
    Request.WorksOnArguments Request.ofArguments ∧ Request.ColoursOnly Request.ofArguments ∧
    (∀ text ∈ arguments, EscapeFree text) ∧
    (CommandLine.run .colours arguments).stdout ≠ (CommandLine.run .plain arguments).stdout ∧
    uncoloured (CommandLine.run .colours arguments).stdout =
      (CommandLine.run .plain arguments).stdout ∧
    (∀ name ∈ f.leaves, EscapeFree name) ∧ EscapeFree "Why?" ∧ Basis.noImpl ≠ .all ∧
    (f.explainRestriction .colours .noImpl (.titled "Why?")).2 = ⟨"Why?", #[.part
      ("Restricting " ++ Ink.colours.paint .blue f.render ++ " to basis " ++ "no-impl")
      [.step (lawText .colours Law.implToOr.equivalence),
        .step ("Result: " ++ Ink.colours.paint .red (f.restrict .noImpl).render)]]⟩ ∧
    EscapeFree "a->b" ∧
    uncoloured (report .colours).explanation = (report .plain).explanation := by
  intro arguments f report
  obtain ⟨run, explanation, reports⟩ := colours_change_no_content
  have given : ∀ text ∈ arguments, EscapeFree text := by decide
  have leaves : f.leaves = ["a", "b", "b", "a"] := by cbv
  have names : ∀ name ∈ f.leaves, EscapeFree name := by
    rw [leaves]
    decide
  have heading : EscapeFree "Why?" := by decide
  have notAll : Basis.noImpl ≠ .all := by decide
  have text : EscapeFree "a->b" := by decide
  have works := Request.worksOnArguments_ofArguments
  have colours := Request.coloursOnly_ofArguments
  obtain ⟨_, _, stdout⟩ := run Request.ofArguments works colours arguments given
  obtain ⟨_, _, notes⟩ := explanation .noImpl f "Why?" names heading
  have named : f.namedLaws .noImpl = [.implToOr] := by cbv
  have painted := notes notAll .colours
  rw [named] at painted
  obtain ⟨_, shown⟩ := reports "a->b" "nor" text
  exact ⟨works, colours, given, by decide +kernel, stdout, names, heading, notAll, painted, text, shown⟩

end Content

end Propositional
