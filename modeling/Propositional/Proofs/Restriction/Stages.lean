import Mathlib.Data.List.Chain
import Mathlib.Data.List.Induction
import Propositional.Proofs.Restriction.Fixpoint

/-!
# Restriction in stages

A basis includes another one when it allows all connectives of the other. Restricted to the larger
basis first and then to the smaller one, a formula becomes what the smaller one alone makes of it:

* what the larger basis forbids the smaller one forbids too, and where negations are allowed both ask
  for the same law (`reduce?_of_includes`);
* such a law looks at the outermost connective alone, so the smaller basis makes the same of operands
  that were restricted before (`Resembles.restrict_eq`).

Laws that look at an operand absorb negations, in the bases with a single connective. These are
included in no other basis but the one that allows everything, which leaves formulas as they are.
-/

namespace Propositional

namespace Basis

/-- Every connective of the second basis is one of the first. -/
def Includes (b b' : Basis) : Prop :=
  ∀ kind, b'.allows kind = true → b.allows kind = true

instance (b b' : Basis) : Decidable (b.Includes b') :=
  decidable_of_iff (∀ kind ∈ Kind.all, b'.allows kind = true → b.allows kind = true)
    ⟨fun h kind => h kind (Kind.mem_all kind), fun h kind _ => h kind⟩

theorem eq_or_eq_all_of_includes {b b' : Basis} (h : b.Includes b')
    (noNegations : b'.allows .neg = false) : b = b' ∨ b = .all := by
  revert h noNegations
  cases b <;> cases b' <;> decide

end Basis

namespace Law

open Formula

variable {b b' : Basis} {f g : Formula} {law : Law}

/-- Only for a negation may a smaller basis ask for another law. -/
theorem reduce?_of_includes (h : b.Includes b') (negations : b'.allows .neg = true)
    (reduced : reduce? b f = some (law, g)) : reduce? b' f = some (law, g) := by
  have forbidden := forbids_of_reduce reduced
  have forbidden' : b'.allows f.kind = false := by
    cases allowed : b'.allows f.kind with
    | false => rfl
    | true =>
      rw [h _ allowed] at forbidden
      cases forbidden
  cases f with
  | atom name => cases reduced
  | neg f =>
    rw [kind, negations] at forbidden'
    cases forbidden'
  | binary op l r =>
    rw [reduce?_binary forbidden] at reduced
    rw [reduce?_binary forbidden', reduced]
  | nor f fs =>
    rw [reduce?_nor forbidden] at reduced
    rw [reduce?_nor forbidden', reduced]

end Law

namespace Formula

variable {b b' : Basis} {f f' g : Formula}

/-- The same connectives, down to operands that have the same restriction. -/
inductive Resembles (b : Basis) : Formula → Formula → Prop
  | same {f g : Formula} : f.restrict b = g.restrict b → Resembles b f g
  | neg {f g : Formula} : Resembles b f g → Resembles b (.neg f) (.neg g)
  | binary {op : BinaryOp} {l r l' r' : Formula} : Resembles b l l' → Resembles b r r' →
      Resembles b (.binary op l r) (.binary op l' r')
  /-- Where negations are allowed no law gives a joint denial, so its operands are those found at the
  start. -/
  | nor {f g : Formula} {fs gs : List Formula} : f.restrict b = g.restrict b →
      fs.map (restrict b) = gs.map (restrict b) → Resembles b (.nor f fs) (.nor g gs)

namespace Resembles

theorem expand {op : BinaryOp} {l r l' r' : Formula} {law : Law} (hl : Resembles b l l')
    (hr : Resembles b r r') (expanded : Law.expand l r op = (law, g)) :
    ∃ g', Law.expand l' r' op = (law, g') ∧ Resembles b g g' := by
  cases op with
  | equiv =>
    cases expanded
    exact ⟨_, rfl, .binary (.binary hl hr) (.binary hr hl)⟩
  | impl =>
    cases expanded
    exact ⟨_, rfl, .binary (.neg hl) hr⟩
  | and | or =>
    cases expanded
    exact ⟨_, rfl, .neg (.binary (.neg hl) (.neg hr))⟩
  | scheffer =>
    cases expanded
    exact ⟨_, rfl, .neg (.binary hl hr)⟩

theorem disjunction {fs gs : List Formula} (h : Resembles b f g)
    (hs : fs.map (restrict b) = gs.map (restrict b)) :
    Resembles b (f.disjunction fs) (g.disjunction gs) := by
  induction fs generalizing f g gs with
  | nil =>
    cases List.map_eq_nil_iff.mp hs.symm
    exact h
  | cons f' fs ih =>
    obtain ⟨g', gs, rfl, hfg, hs⟩ := List.map_eq_cons_iff.mp hs.symm
    have joined : Resembles b (disj f f') (disj g g') := .binary h (.same hfg.symm)
    exact ih (g := disj g g') joined hs.symm

/-- Where negations are allowed a law keeps the resemblance, whatever the operands are. -/
theorem reduce {law : Law} (h : Resembles b f f') (negations : b.allows .neg = true)
    (reduced : Law.reduce? b f = some (law, g)) : f.restrict b = f'.restrict b ∨
      ∃ g', Law.reduce? b f' = some (law, g') ∧ Resembles b g g' := by
  have forbidden := Law.forbids_of_reduce reduced
  cases h with
  | same h => exact .inl h
  | neg _ =>
    rw [kind, negations] at forbidden
    cases forbidden
  | binary hl hr =>
    rw [Law.reduce?_binary forbidden, Option.some.injEq] at reduced
    obtain ⟨g', reduced', resembles⟩ := expand hl hr reduced
    refine .inr ⟨g', ?_, resembles⟩
    rw [Law.reduce?_binary forbidden, reduced']
  | nor hf hfs =>
    rw [Law.reduce?_nor forbidden] at reduced
    cases reduced
    exact .inr ⟨_, Law.reduce?_nor forbidden _ _, .neg (disjunction (.same hf) hfs)⟩

theorem restrict_eq (h : Resembles b f f') (negations : b.allows .neg = true) :
    f.restrict b = f'.restrict b := by
  -- Along the calls, not the resemblance: what a law gives is larger than what it is given.
  induction f using restrict_induction (b := b) generalizing f' with
  | law f law g reduced ih =>
    rcases h.reduce negations reduced with same | ⟨g', reduced', resembles⟩
    · exact same
    · rw [restrict_of_reduce reduced, restrict_of_reduce reduced', ih resembles]
  | stay f allowed ih =>
    cases h with
    | same h => exact h
    | neg h => rw [restrict_neg allowed, restrict_neg allowed, ih _ List.mem_cons_self h]
    | @binary op l r l' r' hl hr =>
      have left : l.restrict b = l'.restrict b := ih l (by simp [children]) hl
      have right : r.restrict b = r'.restrict b := ih r (by simp [children]) hr
      rw [restrict_binary allowed, restrict_binary allowed, left, right]
    | nor hf hfs => rw [restrict_nor allowed, restrict_nor allowed, hf, hfs]

end Resembles

theorem resembles_mapOperands {change : Formula → Formula}
    (h : ∀ g ∈ f.children, (change g).restrict b = g.restrict b) :
    Resembles b (f.mapOperands change) f := by
  cases f with
  | atom name => exact .same rfl
  | neg f => exact .neg (.same (h f List.mem_cons_self))
  | binary op l r =>
    exact .binary (.same (h l (by simp [children]))) (.same (h r (by simp [children])))
  | nor f fs =>
    refine .nor (h f List.mem_cons_self) ?_
    rw [List.map_map]
    exact List.map_congr_left fun g hg => h g (List.mem_cons_of_mem f hg)

theorem restrict_restrict_of_includes (h : b.Includes b') (f : Formula) :
    (f.restrict b).restrict b' = f.restrict b' := by
  cases negations : b'.allows .neg with
  | true =>
    induction f using restrict_induction (b := b) with
    | law f law g reduced ih =>
      have reduced' := Law.reduce?_of_includes h negations reduced
      rw [restrict_of_reduce reduced, restrict_of_reduce reduced', ih]
    | stay f allowed ih =>
      rw [restrict_of_allows allowed]
      exact (resembles_mapOperands ih).restrict_eq negations
  | false =>
    rcases Basis.eq_or_eq_all_of_includes h negations with rfl | rfl
    · exact restrict_restrict b f
    · rw [restrict_eq_self (conforms_all f)]

/-- Restricting to bases each of which includes the next comes to the last one. -/
theorem foldl_restrict_of_isChain {bs : List Basis} (chain : (bs ++ [b]).IsChain Basis.Includes)
    (f : Formula) : (bs ++ [b]).foldl (fun g b => g.restrict b) f = f.restrict b := by
  induction bs using List.reverseRecOn generalizing b with
  | nil => rfl
  | append_singleton bs b' ih =>
    obtain ⟨chain', _, next⟩ := List.isChain_append.mp chain
    have included : b'.Includes b := by simpa using next
    rw [List.foldl_concat, ih chain', restrict_restrict_of_includes included]

/-- **Restricting in stages changes nothing.** If a basis includes another one, restricting to it
first and then to the other is the same as restricting to the other at once. So of bases each of
which includes the next, the last one alone decides which formula comes out. -/
theorem restrict_in_stages (f : Formula) :
    (∀ b b' : Basis, b.Includes b' → (f.restrict b).restrict b' = f.restrict b') ∧
      ∀ (bs : List Basis) (b : Basis), (bs ++ [b]).IsChain Basis.Includes →
        (bs ++ [b]).foldl (fun g b => g.restrict b) f = f.restrict b :=
  ⟨fun _ _ h => restrict_restrict_of_includes h f,
    fun _ _ chain => foldl_restrict_of_isChain chain f⟩

/-- A joint denial of an equivalence loses one connective after the other. -/
theorem restrict_in_stages_nor :
    let a := atom "a"
    let b := atom "b"
    let f := nor (binary .equiv a b) [a]
    let result := neg (disj (neg (disj (neg (disj (neg a) b)) (neg (disj (neg b) a)))) a)
    (Basis.noEquiv.Includes .noAnd ∧
      f.restrict .noEquiv = neg (disj (conj (impl a b) (impl b a)) a) ∧
      (f.restrict .noEquiv).restrict .noAnd = f.restrict .noAnd) ∧
    ([Basis.noEquiv, .noImpl] ++ [Basis.noAnd]).IsChain Basis.Includes ∧ f.restrict .noAnd = result ∧
      ([Basis.noEquiv, .noImpl] ++ [Basis.noAnd]).foldl (fun g b => g.restrict b) f =
        f.restrict .noAnd := by
  intro a b f result
  obtain ⟨twice, stages⟩ := restrict_in_stages f
  have included : Basis.noEquiv.Includes .noAnd := by decide
  have chain : ([Basis.noEquiv, .noImpl] ++ [Basis.noAnd]).IsChain Basis.Includes := by decide
  have first : f.restrict .noEquiv = neg (disj (conj (impl a b) (impl b a)) a) := by cbv
  have last : f.restrict .noAnd = result := by cbv
  exact ⟨⟨included, first, twice _ _ included⟩, chain, last, stages _ _ chain⟩

/-- Neither of the two smallest bases with negation includes the other, and the way through one of
them shows in the other. -/
example : let f := disj (atom "a") (atom "b")
    (f.restrict .noOr).restrict .noAnd =
        neg (neg (disj (neg (neg (atom "a"))) (neg (neg (atom "b"))))) ∧
      f.restrict .noAnd = f := by
  cbv

end Formula

end Propositional
