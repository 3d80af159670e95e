import Propositional.Proofs.Printing
import Propositional.Proofs.Restriction.Meaning
import Propositional.Proofs.Restriction.Noting
import Propositional.Proofs.TruthTable
import Propositional.Report

/-!
# Reports agree with each other

A report answers with texts, and these can be asked about again. The restricted formula is read back
from its text (`spellable_restrict`), is its own restriction, and has the variables and truth values
of the formula in the first text. So the reports on both texts fit together.

A text that is no formula gets the report `unread` from all of them.
-/

namespace Propositional

namespace Formula

theorem spellable_restrict {b : Basis} {f : Formula} (h : f.Spellable) :
    (f.restrict b).Spellable :=
  fun name hname => h name (mem_leaves_restrict.mp hname)

end Formula

/-- What a report shows of a truth table. -/
def TruthTable.sheet (table : TruthTable) : TableSheet :=
  ⟨table.header, table.rows.map Row.letters, table.markdown, table.isValid, table.isSatisfiable⟩

/-- The sheets differ at most in the formula at the end of the header, and where they repeat it. -/
structure TableSheet.Matches (s s' : TableSheet) : Prop where
  header : ∃ names formula formula', s.header = names ++ [formula] ∧ s'.header = names ++ [formula']
  rows : s.rows = s'.rows
  valid : s.valid = s'.valid
  satisfiable : s.satisfiable = s'.satisfiable

namespace Report

/-- The report on a text that is no formula. -/
def unread {α : Type} (e : ReadError) : Report α :=
  let reading := (Explanation.titled "Parsing formula").addStep e.message
  ⟨.error ("Failed to parse formula: " ++ e.message), ((Explanation.titled "").addPart reading).render⟩

variable {ink : Ink} {text basisName : String} {b : Basis} {f : Formula}

section Unread

variable {e : ReadError}

theorem readExplained_of_error (h : Formula.parse text = .error e) :
    readExplained text (.titled "") =
      (.error (.unread e),
        (Explanation.titled "").addPart ((Explanation.titled "Parsing formula").addStep e.message)) := by
  rw [readExplained, Explanation.within, h]

theorem parseTree_of_error (h : Formula.parse text = .error e) : parseTree text = unread e := by
  rw [parseTree, readExplained_of_error h]
  rfl

theorem restriction_of_error (h : Formula.parse text = .error e)
    (known : Basis.ofName basisName = .ok b) : restriction ink text basisName = unread e := by
  rw [restriction, known]
  simp only [readExplained_of_error h]
  rfl

theorem truthTable_of_error (h : Formula.parse text = .error e) : truthTable text = unread e := by
  rw [truthTable, readExplained_of_error h]
  rfl

end Unread

section Read

theorem readExplained_of_ok (h : Formula.parse text = .ok f) :
    readExplained text (.titled "") =
      (.ok f, (Explanation.titled "").addPart
        ((Explanation.titled "Parsing formula").addStep ("Parsed " ++ f.render))) := by
  rw [readExplained, Explanation.within, h]

theorem parseTree_result (h : Formula.parse text = .ok f) : (parseTree text).result = .ok f.view := by
  rw [parseTree, readExplained_of_ok h]
  rfl

theorem restriction_result (h : Formula.parse text = .ok f)
    (known : Basis.ofName basisName = .ok b) :
    (restriction ink text basisName).result = .ok ⟨(f.restrict b).render, (f.restrict b).view⟩ := by
  rw [restriction, known]
  simp only [readExplained_of_ok h]
  rw [← Formula.explainRestriction_fst ink b f]
  rfl

theorem truthTable_result (h : Formula.parse text = .ok f) :
    (truthTable text).result =
      ((TruthTable.ofFormula f).map TruthTable.sheet).mapError TableError.message := by
  rw [truthTable, readExplained_of_ok h]
  simp only
  cases TruthTable.ofFormula f <;> rfl

/-- A restriction is reported only of a text that is a formula, to a basis that exists. -/
theorem exists_of_restriction_result {restricted : RestrictedFormula}
    (h : (restriction ink text basisName).result = .ok restricted) :
    ∃ b f, Basis.ofName basisName = .ok b ∧ Formula.parse text = .ok f ∧
      restricted = ⟨(f.restrict b).render, (f.restrict b).view⟩ := by
  cases known : Basis.ofName basisName with
  | error e =>
    rw [restriction, known] at h
    cases h
  | ok b =>
    cases read : Formula.parse text with
    | error e =>
      rw [restriction_of_error read known] at h
      cases h
    | ok f =>
      rw [restriction_result read known] at h
      cases h
      exact ⟨b, f, rfl, rfl, rfl⟩

/-- The table of a formula and that of its restriction are refused alike or match. -/
theorem truthTable_restrict {text' : String} (h : Formula.parse text = .ok f)
    (h' : Formula.parse text' = .ok (f.restrict b)) :
    (∃ message, (truthTable text).result = .error message ∧
        (truthTable text').result = .error message) ∨
      ∃ s s', (truthTable text).result = .ok s ∧ (truthTable text').result = .ok s' ∧ s.Matches s' := by
  have tables := TruthTable.ofFormula_eq_map (f.variableSet_restrict b) (f.holds_restrict b)
  rw [truthTable_result h, truthTable_result h', tables]
  cases found : TruthTable.ofFormula f with
  | error e => exact .inl ⟨e.message, rfl, rfl⟩
  | ok table =>
    have header := TruthTable.header_of_ofFormula found
    exact .inr ⟨_, _, rfl, rfl, ⟨_, _, _, header, rfl⟩, rfl, rfl, rfl⟩

end Read

/-- **Reports fit together through their texts.** The text of a restricted formula has the tree that
was reported with it, and restricted to the same basis once more it stays what it is. Its truth table
and that of the first text are refused with the same message, or they match. A text that is no
formula gets the same report from all, with the same message and the same explanation. -/
theorem reports_fit (ink : Ink) (text basisName : String) :
    (∀ restricted, (restriction ink text basisName).result = .ok restricted →
      (parseTree restricted.formula).result = .ok restricted.tree ∧
        (restriction ink restricted.formula basisName).result = .ok restricted ∧
        ((∃ message, (truthTable text).result = .error message ∧
            (truthTable restricted.formula).result = .error message) ∨
          ∃ s s', (truthTable text).result = .ok s ∧
            (truthTable restricted.formula).result = .ok s' ∧ s.Matches s')) ∧
      ∀ e, Formula.parse text = .error e →
        parseTree text = unread e ∧ truthTable text = unread e ∧
          ∀ b, Basis.ofName basisName = .ok b → restriction ink text basisName = unread e := by
  refine ⟨fun restricted h => ?_, fun e h => ?_⟩
  · obtain ⟨b, f, known, read, rfl⟩ := exists_of_restriction_result h
    have spellable : (f.restrict b).Spellable :=
      Formula.spellable_restrict (Formula.spellable_of_parse read)
    have again : Formula.parse (f.restrict b).render = .ok (f.restrict b) :=
      Formula.parse_render spellable
    have once : (restriction ink (f.restrict b).render basisName).result =
        .ok ⟨(f.restrict b).render, (f.restrict b).view⟩ := by
      rw [restriction_result again known, Formula.restrict_restrict]
    exact ⟨parseTree_result again, once, truthTable_restrict read again⟩
  · exact ⟨parseTree_of_error h, truthTable_of_error h, fun b known => restriction_of_error h known⟩

/-- An implication in the basis of joint denial, and what becomes of it without its second half. -/
theorem reports_fit_impl :
    let f := Formula.impl (.atom "a") (.atom "b")
    let restricted : RestrictedFormula := ⟨"N(N(N(N(N(a))), N(N(b))))", (f.restrict .nor).view⟩
    let e : ReadError := .parse (.unexpectedEnd 3 .ident)
    ((restriction .plain "a->b" "nor").result = .ok restricted ∧
      (parseTree restricted.formula).result = .ok restricted.tree ∧
      (restriction .plain restricted.formula "nor").result = .ok restricted ∧
      ((∃ message, (truthTable "a->b").result = .error message ∧
          (truthTable restricted.formula).result = .error message) ∨
        ∃ s s', (truthTable "a->b").result = .ok s ∧
          (truthTable restricted.formula).result = .ok s' ∧ s.Matches s')) ∧
    Formula.parse "a->" = .error e ∧ Basis.ofName "nor" = .ok .nor ∧
      parseTree "a->" = unread e ∧ truthTable "a->" = unread e ∧
      restriction .plain "a->" "nor" = unread e := by
  intro f restricted e
  have read : Formula.parse "a->b" = .ok f := by decide +kernel
  have rendered : (f.restrict .nor).render = restricted.formula := by
    have result : f.restrict .nor =
        .nor (.nor (.nor (.nor (.nor (.atom "a") []) []) []) [.nor (.nor (.atom "b") []) []]) [] := by
      cbv
    simp [result, restricted, Formula.render, norName]
  have known : Basis.ofName "nor" = .ok .nor := rfl
  have result : (restriction .plain "a->b" "nor").result = .ok restricted := by
    rw [restriction_result read known, rendered]
  have unreadable : Formula.parse "a->" = .error e := by decide +kernel
  obtain ⟨tree, table, restriction⟩ := (reports_fit .plain "a->" "nor").2 e unreadable
  exact ⟨⟨result, (reports_fit .plain "a->b" "nor").1 restricted result⟩, unreadable, known, tree,
    table, restriction .nor known⟩

end Report

end Propositional
