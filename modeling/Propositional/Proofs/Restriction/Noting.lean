import Propositional.Proofs.Explanation
import Propositional.Proofs.Restriction.Fixpoint

/-!
# Restriction with notes

Restriction that notes its laws calls itself on the same formulas as plain restriction, and what was
noted before has no influence on it. So in whatever the notes are kept, the result is that of plain
restriction and the notes are `laws`, in this order (`restrictNoting_eq`).

An explanation keeps them in a part of its own. There a law that is applied several times in a row is
named once, and the result comes last.
-/

namespace Propositional

namespace Formula

/-- The laws that restriction applies, a law for each time. -/
def laws (b : Basis) (f : Formula) : List Law :=
  match _h : Law.reduce? b f with
  | some (law, g) => law :: laws b g
  | none => f.children.attach.flatMap fun ⟨g, _⟩ => laws b g
termination_by f.weight b
decreasing_by
  · exact Law.weight_reduce_lt _h
  · exact weight_child_lt _h ‹_›

section Noting

variable {b : Basis} {f g : Formula} {fs : List Formula} {law : Law}

theorem laws_of_reduce (h : Law.reduce? b f = some (law, g)) :
    f.laws b = law :: g.laws b := by
  rw [laws]
  split <;> simp_all

theorem laws_of_allows (h : b.allows f.kind = true) :
    f.laws b = f.children.flatMap (laws b) := by
  rw [laws]
  split
  · simp_all [Law.reduce?]
  · simp

variable {m : Type → Type} [Monad m] [LawfulMonad m] {note : Law → m Unit}

/-- Whatever the operands note one after the other is noted in one go. -/
theorem mapM_noting {change : Formula → m Formula} {log : Formula → List Law}
    {plain : Formula → Formula}
    (h : ∀ g ∈ fs, change g = forM (log g) note >>= fun _ => pure (plain g)) :
    fs.mapM change = forM (fs.flatMap log) note >>= fun _ => pure (fs.map plain) := by
  induction fs with
  | nil => simp
  | cons g gs ih =>
    obtain ⟨hg, hgs⟩ := List.forall_mem_cons.mp h
    rw [List.mapM_cons, hg, ih hgs, List.flatMap_cons, List.forM_append]
    simp only [bind_assoc, pure_bind, List.map_cons]

/-- Noting on the way comes to the same as noting all laws first and restricting then. -/
theorem restrictNoting_eq (note : Law → m Unit) (b : Basis) (f : Formula) :
    f.restrictNoting note b = forM (f.laws b) note >>= fun _ => pure (f.restrict b) := by
  induction f using restrict_induction (b := b) with
  | law f law g reduced ih =>
    rw [restrictNoting_of_reduce reduced, ih, laws_of_reduce reduced, restrict_of_reduce reduced,
      List.forM_cons, bind_assoc]
  | stay f allowed ih =>
    rw [laws_of_allows allowed]
    cases f with
    | atom name =>
      rw [restrictNoting_atom, restrict_atom, children, List.flatMap_nil, List.forM_nil, pure_bind]
    | neg f =>
      rw [restrictNoting_neg allowed, restrict_neg allowed, ih f List.mem_cons_self, children,
        List.flatMap_singleton, bind_assoc]
      simp only [pure_bind]
    | binary op l r =>
      have hl := ih l (by simp [children])
      have hr := ih r (by simp [children])
      rw [restrictNoting_binary allowed, restrict_binary allowed, hl, hr]
      simp [children]
    | nor f fs =>
      have hf := ih f List.mem_cons_self
      have hfs := mapM_noting fun g hg => ih g (List.mem_cons_of_mem f hg)
      rw [restrictNoting_nor allowed, restrict_nor allowed, hf, hfs]
      simp [children]

end Noting

section Explaining

variable {ink : Ink} {b : Basis} {f : Formula}

/-- The laws that are applied, in words, a law once where it is applied several times in a row. -/
def lawSteps (ink : Ink) (b : Basis) (f : Formula) : List String :=
  ((f.laws b).map fun law => lawText ink law.equivalence).destutter (· ≠ ·)

def resultStep (ink : Ink) (b : Basis) (f : Formula) : String :=
  "Result: " ++ ink.paint .red (f.restrict b).render

theorem run_forM_noteLaw (laws : List Law) (part : Explanation) :
    (forM laws (noteLaw ink)).run part =
      ((), (laws.map fun law => lawText ink law.equivalence).foldl .addStep part) := by
  induction laws generalizing part with
  | nil => rfl
  | cons law laws ih =>
    rw [List.forM_cons, StateT.run_bind]
    exact ih _

theorem run_restrictNoting (heading : String) :
    (f.restrictNoting (noteLaw ink) b).run (.titled heading) =
      (f.restrict b, .ofSteps heading (f.lawSteps ink b)) := by
  rw [restrictNoting_eq, StateT.run_bind, run_forM_noteLaw, Explanation.foldl_addStep_titled]
  rfl

theorem mem_lawSteps {step : String} :
    step ∈ f.lawSteps ink b ↔ ∃ law ∈ f.laws b, lawText ink law.equivalence = step := by
  rw [lawSteps, mem_destutter_ne_iff, List.mem_map]

/-- A law and a result begin differently. -/
theorem not_prefix_lawText (ink : Ink) (equivalence : String) :
    ¬ "Result: ".toList <+: (lawText ink equivalence).toList := by
  cases ink <;> simp [lawText, Ink.paint, Colour.on]

theorem not_prefix_of_mem_lawSteps {step : String} (h : step ∈ f.lawSteps ink b) :
    ¬ "Result: ".toList <+: step.toList := by
  obtain ⟨law, _, rfl⟩ := mem_lawSteps.mp h
  exact not_prefix_lawText ink law.equivalence

theorem prefix_resultStep : "Result: ".toList <+: (f.resultStep ink b).toList := by
  rw [resultStep, String.toList_append]
  exact List.prefix_append _ _

theorem resultStep_notMem_lawSteps : f.resultStep ink b ∉ f.lawSteps ink b :=
  fun h => not_prefix_of_mem_lawSteps h prefix_resultStep

/-- The steps that explain a restriction. -/
def restrictionSteps (ink : Ink) (b : Basis) (f : Formula) : List String :=
  f.lawSteps ink b ++ [f.resultStep ink b]

theorem isChain_restrictionSteps : (f.restrictionSteps ink b).IsChain (· ≠ ·) := by
  rw [restrictionSteps, List.isChain_append]
  refine ⟨List.isChain_destutter _ _, List.isChain_singleton _, ?_⟩
  rintro step hstep result hresult rfl
  cases hresult
  exact resultStep_notMem_lawSteps (List.mem_of_getLast? hstep)

theorem explainRestriction_all (ink : Ink) (f : Formula) (e : Explanation) :
    f.explainRestriction ink .all e =
      (f, e.addStep "Every connective is allowed; nothing to rewrite") :=
  if_pos rfl

theorem explainRestriction_of_ne (notAll : b ≠ .all) (e : Explanation) :
    f.explainRestriction ink b e =
      (f.restrict b, { e with
        notes := e.notes.push (.part ("Restricting " ++ ink.paint .blue f.render ++ " to basis " ++
          b.name) ((f.restrictionSteps ink b).map .step)) }) := by
  have last : (f.lawSteps ink b).getLast? ≠ some (f.resultStep ink b) := fun last =>
    resultStep_notMem_lawSteps (List.mem_of_getLast? last)
  rw [explainRestriction, if_neg notAll, Explanation.within, run_restrictNoting]
  simp only
  rw [← resultStep, Explanation.addStep_ofSteps_of_ne last]
  rfl

/-- Explained or not, restriction gives the same formula. The basis that allows every connective is
no exception, although nothing is called for it. -/
theorem explainRestriction_fst (ink : Ink) (b : Basis) (f : Formula) (e : Explanation) :
    (f.explainRestriction ink b e).1 = f.restrict b := by
  by_cases isAll : b = .all
  · rw [isAll, explainRestriction_all, restrict_eq_self (conforms_all f)]
  · rw [explainRestriction_of_ne isAll]

/-- **Explaining only adds to the explanation.** Whatever has been noted before, the formula is the
one that restriction gives when nothing is noted. What is noted before stays; behind it there is one
more part, the same behind everything. In the part no step follows an equal one, and the last step,
and no other, names the result. For the basis that allows every connective there is instead one step
that says so, unless it is the last note already. -/
theorem explainRestriction_only_appends (ink : Ink) (b : Basis) (f : Formula) :
    ((∀ e, (f.explainRestriction ink b e).1 = f.restrict b) ∧
        Id.run (f.restrictNoting (fun _ => pure ()) b) = f.restrict b) ∧
      (b ≠ .all → ∃ applied,
        let heading := "Restricting " ++ ink.paint .blue f.render ++ " to basis " ++ b.name
        let steps := applied ++ ["Result: " ++ ink.paint .red (f.restrict b).render]
        (∀ e, (f.explainRestriction ink b e).2 =
            { e with notes := e.notes.push (.part heading (steps.map .step)) }) ∧
          steps.IsChain (· ≠ ·) ∧ ∀ step ∈ applied, ¬ "Result: ".toList <+: step.toList) ∧
      (b = .all → ∀ e,
        let step := Note.step "Every connective is allowed; nothing to rewrite"
        (e.notes.back? = some step → (f.explainRestriction ink b e).2 = e) ∧
          (e.notes.back? ≠ some step →
            (f.explainRestriction ink b e).2 = { e with notes := e.notes.push step })) := by
  refine ⟨⟨f.explainRestriction_fst ink b, ?_⟩, fun notAll => ?_, ?_⟩
  · have silent : forM (f.laws b) (fun _ => (pure () : Id Unit)) = pure () := rfl
    rw [restrictNoting_eq, silent]
    rfl
  · refine ⟨f.lawSteps ink b, fun e => ?_, isChain_restrictionSteps, fun _ =>
      not_prefix_of_mem_lawSteps⟩
    rw [explainRestriction_of_ne notAll]
    rfl
  · rintro rfl e
    rw [explainRestriction_all]
    exact ⟨Explanation.addStep_of_back?_eq, Explanation.addStep_of_back?_ne⟩

/-- A law that is needed on both sides of a conjunction, and a formula that needs none explained twice
in a row. -/
theorem explainRestriction_only_appends_conj :
    let f := conj (impl (atom "a") (atom "b")) (impl (atom "b") (atom "a"))
    let step := Note.step "Every connective is allowed; nothing to rewrite"
    let once : Explanation := ⟨"", #[step]⟩
    (Basis.noImpl ≠ .all ∧ ∃ applied,
      let heading := "Restricting " ++ f.render ++ " to basis " ++ "no-impl"
      let steps := applied ++ ["Result: " ++ (f.restrict .noImpl).render]
      (∀ e, (f.explainRestriction .plain .noImpl e).2 =
          { e with notes := e.notes.push (.part heading (steps.map .step)) }) ∧
        steps.IsChain (· ≠ ·) ∧ ∀ step ∈ applied, ¬ "Result: ".toList <+: step.toList) ∧
    ((Explanation.titled "").notes.back? ≠ some step ∧
      (f.explainRestriction .plain .all (.titled "")).2 = once) ∧
    once.notes.back? = some step ∧ (f.explainRestriction .plain .all once).2 = once := by
  intro f step once
  have notAll : Basis.noImpl ≠ .all := by decide
  have none : (Explanation.titled "").notes.back? ≠ some step := by simp [Explanation.titled]
  have last : once.notes.back? = some step := rfl
  have restricted := (explainRestriction_only_appends .plain .noImpl f).2.1 notAll
  have explained := (explainRestriction_only_appends .plain .all f).2.2 rfl
  exact ⟨⟨notAll, restricted⟩, ⟨none, (explained _).2 none⟩, last, (explained once).1 last⟩

/-- The law is applied to both sides and named once. -/
example : let f := conj (impl (atom "a") (atom "b")) (impl (atom "b") (atom "a"))
    f.restrictionSteps .plain .noImpl =
      ["Applying (F → G) ∼ ¬F ∨ G", "Result: ((¬a ∨ b) ∧ (¬b ∨ a))"] := by
  cbv

end Explaining

end Formula

end Propositional
