import Propositional.Proofs.Restriction.Noting

/-!
# Which laws restriction applies

A law removes connectives of one kind. Restriction applies it exactly if the formula has a connective
of this kind, or one that is replaced through this kind, and the basis forbids the kind. `route` lists
the kinds through which a connective is replaced; a law takes a formula one step further along its
route and leaves the routes of all its other parts as they are (`Law.Turns.contains_route_iff`).
Since equal steps are left out only behind each other, the explanation names all these laws and no
other.

Only where the basis absorbs negations does it matter what stands above a conjunction or disjunction:
it may disappear together with a negation (`Basis.ContextFree`).
-/

namespace Propositional

namespace Kind

/-- The kinds of connectives on the way from one kind to negation with conjunction or disjunction,
that kind first. -/
def route : Kind → List Kind
  | .binary .equiv => [.binary .equiv, .binary .and, .binary .impl, .binary .or]
  | .binary .impl => [.binary .impl, .binary .or]
  | .binary .scheffer => [.binary .scheffer, .binary .and]
  | kind => [kind]

/-- Where routes to a kind begin. -/
def sources (kind : Kind) : List Kind :=
  all.filter (kind ∈ ·.route)

theorem mem_sources {kind source : Kind} : source ∈ kind.sources ↔ kind ∈ source.route := by
  simp [sources, mem_all]

end Kind

namespace Formula

/-- The route of a formula is that of its kind, but a joint denial comes to a disjunction if it has a
second operand. -/
def route : Formula → List Kind
  | .nor _ (_ :: _) => [.nor, .binary .or]
  | f => f.kind.route

section Route

variable {kind : Kind} {f : Formula} {fs : List Formula}

theorem mem_route_nor : kind ∈ (nor f fs).route ↔ kind = .nor ∨ fs ≠ [] ∧ kind = .binary .or := by
  cases fs <;> simp [route, Kind.route, Formula.kind]

theorem contains_route_disjunction :
    (disjunction f fs).Contains (kind ∈ route ·) ↔
      (fs ≠ [] ∧ kind = .binary .or) ∨ f.Contains (kind ∈ route ·) ∨
        ∃ g ∈ fs, g.Contains (kind ∈ route ·) := by
  induction fs generalizing f with
  | nil => simp [disjunction]
  | cons g gs ih =>
    have joined : (disj f g).Contains (kind ∈ route ·) ↔
        kind = .binary .or ∨ f.Contains (kind ∈ route ·) ∨ g.Contains (kind ∈ route ·) := by
      rw [disj, contains_binary]
      simp [route, Kind.route, Formula.kind]
    have next : (disjunction f (g :: gs)).Contains (kind ∈ route ·) ↔ _ := ih (f := disj f g)
    rw [next, joined, List.exists_mem_cons_iff]
    grind

theorem mem_route_iff :
    kind ∈ f.route ↔ f.kind ∈ kind.sources ∨
      kind = .binary .or ∧ f.kind = .nor ∧ 2 ≤ f.children.length := by
  rw [Kind.mem_sources]
  cases f with
  | nor f fs => cases fs <;> simp [route, Kind.route, Formula.kind, children]
  | _ => simp [route, Formula.kind]

end Route

end Formula

namespace Basis

/-- Whether the basis replaces connectives of the kind does not depend on what stands above them. -/
def ContextFree (b : Basis) (kind : Kind) : Prop :=
  b.allows .neg = true ∨ kind ∉ [.neg, .binary .and, .binary .or]

variable {b : Basis} {kind : Kind}

theorem ContextFree.ne_neg (free : b.ContextFree kind) (forbidden : b.allows kind = false) :
    kind ≠ .neg := by
  rintro rfl
  simp [ContextFree, forbidden] at free

/-- With negations a basis has a conjunction or a disjunction as well. -/
theorem ContextFree.allows_or_allows (free : b.ContextFree kind)
    (isJunction : kind ∈ [.binary .and, .binary .or]) :
    b.allows (.binary .and) = true ∨ b.allows (.binary .or) = true := by
  have negations : b.allows .neg = true :=
    free.resolve_right fun outside => outside (List.mem_cons_of_mem _ isJunction)
  cases b <;> simp [allows] at negations ⊢

theorem allows_nor_eq_false_iff (notAll : b ≠ .all) : b.allows .nor = false ↔ b ≠ .nor := by
  revert notAll
  cases b <;> decide

theorem allows_scheffer_eq_false_iff (notAll : b ≠ .all) :
    b.allows (.binary .scheffer) = false ↔ b ≠ .scheffer := by
  revert notAll
  cases b <;> decide

/-- Of the bases with negations one forbids conjunctions and one disjunctions. -/
theorem forbids_junction_iff (negations : b.allows .neg = true) :
    (b.allows (.binary .and) = false ↔ b = .noAnd) ∧
      (b.allows (.binary .or) = false ↔ b = .noOr) := by
  revert negations
  cases b <;> decide

end Basis

namespace Law

open Formula

variable {b : Basis} {f g : Formula} {law law' : Law} {kind : Kind}

/-- The kind of the formulas that a law fits. -/
def removes : Law → Kind
  | .equivToImpls => .binary .equiv
  | .implToOr => .binary .impl
  | .andToOr => .binary .and
  | .orToAnd => .binary .or
  | .norToOr => .nor
  | .schefferToAnd => .binary .scheffer
  | .negAndToScheffer | .negToScheffer | .negOrToNor | .negToNor => .neg

/-- Only the laws that absorb negations share the kind that they remove. -/
theorem eq_of_removes_eq (same : law.removes = law'.removes) (notNeg : law.removes ≠ .neg) :
    law = law' := by
  cases law <;> cases law' <;> simp [removes] at same notNeg ⊢

theorem Turns.kind_eq (h : law.Turns f g) : f.kind = law.removes := by
  cases h <;> rfl

theorem forbids_removes (reduced : reduce? b f = some (law, g)) : b.allows law.removes = false := by
  rw [← (turns_of_reduce reduced).kind_eq]
  exact forbids_of_reduce reduced

/-- A negation is absorbed into a connective of the basis. -/
theorem allows_of_absorbs (reduced : reduce? b f = some (law, g)) (absorbs : law.removes = .neg) :
    b.allows g.kind = true := by
  have removed := forbids_removes reduced
  have isNeg := (turns_of_reduce reduced).kind_eq.trans absorbs
  cases f with
  | neg f =>
    rw [reduce?, if_neg (by simp [isNeg, ← absorbs, removed])] at reduced
    simp only [absorb] at reduced
    split at reduced <;> cases reduced <;> rfl
  | _ => cases isNeg

/-- The kinds that a law brings in although they need not be on the route of what it removes. -/
def brings : Law → List Kind
  | .equivToImpls => []
  | .implToOr | .norToOr | .schefferToAnd => [.neg]
  | .andToOr => [.neg, .binary .or]
  | .orToAnd => [.neg, .binary .and]
  | .negAndToScheffer | .negToScheffer => [.binary .scheffer, .binary .and]
  | .negOrToNor | .negToNor => [.nor]

/-- Nothing that the basis forbids comes in from outside the routes. -/
theorem notMem_brings (free : b.ContextFree kind) (forbidden : b.allows kind = false)
    (reduced : reduce? b f = some (law, g)) : kind ∉ law.brings := by
  have removed := forbids_removes reduced
  intro brought
  by_cases absorbs : law.removes = .neg
  · have outside : kind ∉ [.neg, .binary .and, .binary .or] :=
      free.resolve_left (by simp [← absorbs, removed])
    have differs : kind ≠ g.kind := by
      rintro rfl
      rw [allows_of_absorbs reduced absorbs] at forbidden
      cases forbidden
    cases turns_of_reduce reduced <;> simp_all [brings, Formula.kind, removes]
  · have notNeg := free.ne_neg forbidden
    cases law with
    | equivToImpls => cases brought
    | implToOr | norToOr | schefferToAnd => exact notNeg (List.mem_singleton.mp brought)
    | andToOr | orToAnd =>
      simp only [brings, List.mem_cons, notNeg, List.not_mem_nil, or_false, false_or] at brought
      subst brought
      have junction := free.allows_or_allows (by simp)
      rw [removes] at removed
      simp [forbidden, removed] at junction
    | negAndToScheffer | negToScheffer | negOrToNor | negToNor => exact absurd rfl absorbs

/-- A law takes what it removes one step along its route and leaves all other routes as they are. -/
theorem Turns.contains_route_iff (h : law.Turns f g) (foreign : kind ∉ law.brings) :
    f.Contains (kind ∈ route ·) ↔ law.removes = kind ∨ g.Contains (kind ∈ route ·) := by
  cases h with
  | norToOr f fs =>
    rw [contains_nor, contains_neg, contains_route_disjunction, mem_route_nor]
    simp only [brings, removes, route, Kind.route, Formula.kind, List.mem_singleton] at foreign ⊢
    grind
  | negOrToNor l r =>
    rw [contains_neg, contains_binary, contains_nor, mem_route_nor]
    simp only [brings, removes, route, Kind.route, Formula.kind, List.mem_singleton] at foreign ⊢
    grind
  | negToNor f =>
    rw [contains_neg, contains_nor, mem_route_nor]
    simp only [brings, removes, route, Kind.route, Formula.kind, List.mem_singleton,
      List.not_mem_nil, false_and, exists_false, or_false] at foreign ⊢
    grind
  | _ =>
    simp only [contains_binary, contains_neg, conj, disj, impl, brings, removes, route, Kind.route,
      Formula.kind, List.mem_cons, List.not_mem_nil, or_false] at foreign ⊢
    grind

/-- A basis that allows a connective allows the kinds on its route. -/
theorem allows_of_mem_route (allowed : b.allows f.kind = true) :
    ∀ kind ∈ f.route, b.ContextFree kind → b.allows kind = true := by
  cases f with
  | binary op l r =>
    cases op <;> cases b <;>
      simp_all [route, Kind.route, Formula.kind, Basis.allows, Basis.ContextFree]
  | nor f fs =>
    cases b <;> cases fs <;>
      simp_all [route, Kind.route, Formula.kind, Basis.allows, Basis.ContextFree]
  | _ => simpa [route, Kind.route, Formula.kind] using fun _ => allowed

end Law

namespace Formula

variable {b : Basis} {f g : Formula} {law : Law} {kind : Kind}

theorem exists_removes_iff (free : b.ContextFree kind) (forbidden : b.allows kind = false) :
    (∃ law ∈ f.laws b, law.removes = kind) ↔ f.Contains (kind ∈ route ·) := by
  induction f using restrict_induction (b := b) with
  | law f law g reduced ih =>
    have foreign := Law.notMem_brings free forbidden reduced
    rw [laws_of_reduce reduced, List.exists_mem_cons_iff, ih,
      (Law.turns_of_reduce reduced).contains_route_iff foreign]
  | stay f allowed ih =>
    have stays : kind ∉ f.route := by
      intro onRoute
      rw [Law.allows_of_mem_route allowed kind onRoute free] at forbidden
      cases forbidden
    rw [laws_of_allows allowed, contains_iff]
    simp only [stays, false_or, List.mem_flatMap]
    constructor
    · rintro ⟨law, ⟨g, hg, applied⟩, removed⟩
      exact ⟨g, hg, (ih g hg).mp ⟨law, applied, removed⟩⟩
    · rintro ⟨g, hg, contained⟩
      obtain ⟨law, applied, removed⟩ := (ih g hg).mpr contained
      exact ⟨law, ⟨g, hg, applied⟩, removed⟩

theorem exists_reduce_of_mem_laws (applied : law ∈ f.laws b) :
    ∃ g g', Law.reduce? b g = some (law, g') := by
  induction f using restrict_induction (b := b) with
  | law f first g reduced ih =>
    rw [laws_of_reduce reduced] at applied
    rcases List.mem_cons.mp applied with rfl | applied
    · exact ⟨f, g, reduced⟩
    · exact ih applied
  | stay f allowed ih =>
    rw [laws_of_allows allowed, List.mem_flatMap] at applied
    obtain ⟨g, hg, applied⟩ := applied
    exact ih g hg applied

theorem forbids_of_mem_laws (applied : law ∈ f.laws b) : b.allows law.removes = false := by
  obtain ⟨g, g', reduced⟩ := exists_reduce_of_mem_laws applied
  exact Law.forbids_removes reduced

theorem mem_laws_iff (free : b.ContextFree law.removes) (notNeg : law.removes ≠ .neg) :
    law ∈ f.laws b ↔ b.allows law.removes = false ∧ f.Contains (law.removes ∈ route ·) := by
  constructor
  · intro applied
    have forbidden := forbids_of_mem_laws applied
    exact ⟨forbidden, (exists_removes_iff free forbidden).mp ⟨law, applied, rfl⟩⟩
  · rintro ⟨forbidden, contained⟩
    obtain ⟨law', applied, same⟩ := (exists_removes_iff free forbidden).mpr contained
    rwa [Law.eq_of_removes_eq same.symm notNeg]

theorem contains_route_iff_sources :
    f.Contains (kind ∈ route ·) ↔
      (∃ source ∈ kind.sources, ∃ g ∈ f.parts, g.kind = source) ∨
        kind = .binary .or ∧ ∃ g ∈ f.parts, g.kind = .nor ∧ 2 ≤ g.children.length := by
  simp only [Contains, mem_route_iff, and_or_left, exists_or]
  refine or_congr ⟨?_, ?_⟩ ⟨?_, ?_⟩
  · rintro ⟨g, hg, isSource⟩
    exact ⟨g.kind, isSource, g, hg, rfl⟩
  · rintro ⟨_, isSource, g, hg, rfl⟩
    exact ⟨g, hg, isSource⟩
  · rintro ⟨g, hg, isOr, isNor⟩
    exact ⟨isOr, g, hg, isNor⟩
  · rintro ⟨isOr, g, hg, isNor⟩
    exact ⟨g, hg, isOr, isNor⟩

/-- Which formulas need a law in a basis. -/
theorem mem_laws_iff_sources (free : b.ContextFree law.removes) (notNeg : law.removes ≠ .neg) :
    law ∈ f.laws b ↔
      ((∃ source ∈ law.removes.sources, ∃ g ∈ f.parts, g.kind = source) ∨
        law.removes = .binary .or ∧ ∃ g ∈ f.parts, g.kind = .nor ∧ 2 ≤ g.children.length) ∧
      b.allows law.removes = false := by
  rw [mem_laws_iff free notNeg, contains_route_iff_sources]
  exact and_comm

theorem laws_eq_nil_iff : f.laws b = [] ↔ f.Conforms b := by
  induction f using restrict_induction (b := b) with
  | law f law g reduced _ =>
    rw [laws_of_reduce reduced, conforms_iff, Law.forbids_of_reduce reduced]
    simp
  | stay f allowed ih =>
    rw [laws_of_allows allowed, conforms_iff, List.flatMap_eq_nil_iff]
    simp only [allowed, true_and]
    exact forall₂_congr ih

end Formula

section Recorded

variable {ink : Ink} {b : Basis} {f : Formula} {law law' : Law}

theorem Law.eq_of_equivalence_eq (same : law.equivalence = law'.equivalence) : law = law' := by
  cases law <;> cases law' <;> first | rfl | simp [equivalence] at same

theorem Law.escape_notMem_equivalence (law : Law) : '\x1b' ∉ law.equivalence.toList := by
  -- Unfolded by hand: the kernel is slow to decode the glyphs of a literal.
  cases law <;> rw [equivalence, String.toList_ofList] <;> simp

theorem lawText_colours (law : Law) :
    lawText .colours law.equivalence =
      Colour.green.on ++ ("Applying " ++ law.equivalence) ++ Colour.off := by
  have noEscapes : '\x1b' ∉ ("Applying " ++ law.equivalence).toList := by
    rw [String.toList_append, List.mem_append, not_or]
    exact ⟨by decide, law.escape_notMem_equivalence⟩
  rw [lawText, Ink.paint, Colour.resume_eq_self noEscapes, String.ofList_toList]

/-- Different laws are different steps, in colour as well. -/
theorem eq_of_lawText_eq (same : lawText ink law.equivalence = lawText ink law'.equivalence) :
    law = law' := by
  apply Law.eq_of_equivalence_eq
  cases ink with
  | plain => simpa [lawText, Ink.paint] using same
  | colours => simpa [lawText_colours] using same

theorem lawText_mem_restrictionSteps_iff (ink : Ink) :
    lawText ink law.equivalence ∈ f.restrictionSteps ink b ↔ law ∈ f.laws b := by
  rw [Formula.restrictionSteps, List.mem_append, List.mem_singleton, Formula.mem_lawSteps]
  constructor
  · rintro (⟨law', applied, same⟩ | isResult)
    · rwa [← eq_of_lawText_eq same]
    · refine absurd ?_ (Formula.not_prefix_lawText ink law.equivalence)
      rw [isResult]
      exact Formula.prefix_resultStep
  · intro applied
    exact .inl ⟨law, applied, rfl⟩

theorem step_lawText_mem_iff :
    Note.step (lawText ink law.equivalence) ∈ (f.restrictionSteps ink b).map .step ↔
      law ∈ f.laws b := by
  rw [← lawText_mem_restrictionSteps_iff ink, List.mem_map]
  simp

end Recorded

namespace Formula

/-- **The explanation names exactly the laws that the formula needs.** In the part that is added to the
explanation there is a step for the law of a connective if and only if the basis forbids the
connective and the formula has it, or has one that is replaced through it. For conjunctions and
disjunctions this is said of the bases with negations only, and a joint denial comes to a disjunction
if it has at least two operands. No law is named exactly if the basis allows every connective in the
formula. -/
theorem explanation_names_laws (ink : Ink) (b : Basis) (f : Formula) (e : Explanation)
    (notAll : b ≠ .all) :
    let has (kind : Kind) := ∃ g ∈ f.parts, g.kind = kind
    ∃ heading notes,
      (f.explainRestriction ink b e).2 = { e with notes := e.notes.push (.part heading notes) } ∧
      let recorded (law : Law) := Note.step (lawText ink law.equivalence) ∈ notes
      (recorded .equivToImpls ↔ has (.binary .equiv) ∧ b.allows (.binary .equiv) = false) ∧
      (recorded .implToOr ↔
        (has (.binary .impl) ∨ has (.binary .equiv)) ∧ b.allows (.binary .impl) = false) ∧
      (recorded .norToOr ↔ has .nor ∧ b ≠ .nor) ∧
      (recorded .schefferToAnd ↔ has (.binary .scheffer) ∧ b ≠ .scheffer) ∧
      (b ∈ [Basis.noEquiv, .noImpl, .noOr, .noAnd] →
        (recorded .andToOr ↔
          (has (.binary .and) ∨ has (.binary .equiv) ∨ has (.binary .scheffer)) ∧ b = .noAnd) ∧
        (recorded .orToAnd ↔
          (has (.binary .or) ∨ has (.binary .impl) ∨ has (.binary .equiv) ∨
            ∃ g ∈ f.parts, g.kind = .nor ∧ 2 ≤ g.children.length) ∧ b = .noOr)) ∧
      ((∀ law, ¬ recorded law) ↔ ∀ g ∈ f.parts, b.allows g.kind = true) := by
  intro has
  refine ⟨_, _, congrArg Prod.snd (explainRestriction_of_ne notAll e), ?_⟩
  intro recorded
  have recorded_iff (law : Law) : recorded law ↔ law ∈ f.laws b := step_lawText_mem_iff
  have needed_iff {law : Law} (free : b.ContextFree law.removes) (notNeg : law.removes ≠ .neg) :
      recorded law ↔
        ((∃ source ∈ law.removes.sources, has source) ∨
          law.removes = .binary .or ∧ ∃ g ∈ f.parts, g.kind = .nor ∧ 2 ≤ g.children.length) ∧
        b.allows law.removes = false :=
    (recorded_iff law).trans (mem_laws_iff_sources free notNeg)
  refine ⟨?_, ?_, ?_, ?_, fun negations => ?_, ?_⟩
  · rw [needed_iff (.inr (by decide)) (by decide)]
    simp [Law.removes, Kind.sources, Kind.all, BinaryOp.all, Kind.route]
  · rw [needed_iff (.inr (by decide)) (by decide)]
    simp [Law.removes, Kind.sources, Kind.all, BinaryOp.all, Kind.route]
  · rw [needed_iff (.inr (by decide)) (by decide), ← Basis.allows_nor_eq_false_iff notAll]
    simp [Law.removes, Kind.sources, Kind.all, BinaryOp.all, Kind.route]
  · rw [needed_iff (.inr (by decide)) (by decide), ← Basis.allows_scheffer_eq_false_iff notAll]
    simp [Law.removes, Kind.sources, Kind.all, BinaryOp.all, Kind.route]
  · have keepsNeg : b.allows .neg = true := by
      revert negations
      cases b <;> decide
    obtain ⟨noAnd, noOr⟩ := Basis.forbids_junction_iff keepsNeg
    rw [needed_iff (.inl keepsNeg) (by decide), needed_iff (.inl keepsNeg) (by decide), ← noAnd,
      ← noOr]
    simp [Law.removes, Kind.sources, Kind.all, BinaryOp.all, Kind.route, or_assoc]
  · simp only [recorded_iff]
    rw [← List.eq_nil_iff_forall_not_mem]
    exact laws_eq_nil_iff

/-- The disjunction that is replaced here stands nowhere in the formula: it comes from the joint denial
and from the implication. -/
theorem explanation_names_laws_nor :
    let f := nor (impl (atom "a") (atom "b")) [binary .scheffer (atom "a") (atom "b")]
    Basis.noOr ≠ .all ∧ Basis.noOr ∈ [Basis.noEquiv, .noImpl, .noOr, .noAnd] ∧
      ∃ heading notes,
        (f.explainRestriction .colours .noOr (.titled "")).2 = ⟨"", #[.part heading notes]⟩ ∧
        let recorded (law : Law) := Note.step (lawText .colours law.equivalence) ∈ notes
        recorded .norToOr ∧ recorded .implToOr ∧ recorded .schefferToAnd ∧ recorded .orToAnd ∧
          ¬ recorded .equivToImpls ∧ ¬ recorded .andToOr := by
  intro f
  have notAll : Basis.noOr ≠ .all := by decide
  have negations : Basis.noOr ∈ [Basis.noEquiv, .noImpl, .noOr, .noAnd] := by decide
  obtain ⟨heading, notes, appended, equivs, impls, nors, scheffers, junctions, _⟩ :=
    explanation_names_laws .colours .noOr f (.titled "") notAll
  obtain ⟨ands, ors⟩ := junctions negations
  refine ⟨notAll, negations, heading, notes, appended, nors.mpr ?_, impls.mpr ?_, scheffers.mpr ?_,
    ors.mpr ?_, ?_, ?_⟩
  · simp [f, parts, Formula.kind]
  · simp [f, impl, parts, Formula.kind, Basis.allows]
  · simp [f, impl, parts, Formula.kind]
  · simp [f, impl, parts, Formula.kind]
  · rw [equivs]
    simp [f, impl, parts, Formula.kind]
  · intro named
    cases (ands.mp named).2

end Formula

end Propositional
