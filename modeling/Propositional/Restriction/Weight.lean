import Propositional.Restriction.Law

/-!
# The weight of a formula in a basis

How many laws and steps to operands can follow one another before an atom is reached. The weight
goes down with every law and from a formula to its operands, so replacing connectives comes to an
end, although a law gives a larger formula.

Two operands count by the heavier one alone, since they are restricted apart. A negation is lighter
on the connective that absorbs it.
-/

namespace Propositional

namespace Basis

/-- The connective under which a negation disappears in one step. -/
def absorbs : Basis → BinaryOp → Bool
  | .nor, .or => true
  | .scheffer, .and => true
  | _, _ => false

/-- A basis that allows negations absorbs none. -/
theorem absorbs_eq_false {b : Basis} (h : b.allows .neg = true) (op : BinaryOp) :
    b.absorbs op = false := by
  revert h
  cases b <;> cases op <;> decide

def negWeight : Basis → Nat
  | .nor | .scheffer => 2
  | _ => 1

/-- What a connective adds to the weight of the heavier operand: 1 where it is allowed, else what
the formula that replaces it adds and 1 more. -/
def opWeight : Basis → BinaryOp → Nat
  | .noEquiv, .equiv => 3
  | .noEquiv, .scheffer => 3
  | .noImpl, .impl => 3
  | .noImpl, .equiv => 5
  | .noImpl, .scheffer => 3
  | .noOr, .or => 4
  | .noOr, .impl => 6
  | .noOr, .equiv => 8
  | .noOr, .scheffer => 3
  | .noAnd, .and => 4
  | .noAnd, .impl => 3
  | .noAnd, .equiv => 8
  | .noAnd, .scheffer => 6
  | .nor, .and => 5
  | .nor, .or => 10
  | .nor, .impl => 13
  | .nor, .equiv => 19
  | .nor, .scheffer => 8
  | .scheffer, .or => 5
  | .scheffer, .and => 10
  | .scheffer, .impl => 8
  | .scheffer, .equiv => 19
  | _, _ => 1

theorem negWeight_pos (b : Basis) : 0 < b.negWeight := by
  cases b <;> decide

theorem opWeight_pos (b : Basis) (op : BinaryOp) : 0 < b.opWeight op := by
  cases b <;> cases op <;> decide

end Basis

namespace Formula

variable {b : Basis}

def weight (b : Basis) : Formula → Nat
  | .atom _ => 1
  | .neg (.binary op l r) =>
    if b.absorbs op then max (l.weight b) (r.weight b) + 2
    else max (l.weight b) (r.weight b) + b.opWeight op + b.negWeight
  | .neg f => f.weight b + b.negWeight
  | .binary op l r => max (l.weight b) (r.weight b) + b.opWeight op
  | .nor f fs =>
    if b.allows .nor then (fs.map (weight b)).foldl max (f.weight b) + 1
    else
      (fs.map (weight b)).foldl (fun w v => max w v + b.opWeight .or) (f.weight b)
        + b.negWeight + 1

theorem weight_binary (op : BinaryOp) (l r : Formula) :
    (binary op l r).weight b = max (l.weight b) (r.weight b) + b.opWeight op := by
  rw [weight]

theorem weight_neg_binary (op : BinaryOp) (l r : Formula) :
    (neg (.binary op l r)).weight b =
      if b.absorbs op then max (l.weight b) (r.weight b) + 2
      else max (l.weight b) (r.weight b) + b.opWeight op + b.negWeight := by
  rw [weight]

/-- A negation adds its weight to all but the connective that absorbs it. -/
theorem weight_neg (f : Formula)
    (h : ∀ op l r, f = binary op l r → b.absorbs op = false) :
    (neg f).weight b = f.weight b + b.negWeight := by
  cases f with
  | binary op l r => rw [weight_neg_binary, weight_binary, h op l r rfl]; rfl
  | _ => simp [weight]

theorem weight_neg_le (f : Formula) : (neg f).weight b ≤ f.weight b + b.negWeight := by
  by_cases h : ∃ op l r, f = binary op l r ∧ b.absorbs op = true
  · obtain ⟨op, l, r, rfl, h⟩ := h
    rw [weight_neg_binary, weight_binary, h]
    cases b <;> cases op <;> simp_all [Basis.absorbs, Basis.opWeight, Basis.negWeight]
  · exact Nat.le_of_eq (weight_neg f fun op l r hf => by simp_all)

theorem weight_disjunction (f : Formula) (fs : List Formula) :
    (disjunction f fs).weight b =
      (fs.map (weight b)).foldl (fun w v => max w v + b.opWeight .or) (f.weight b) := by
  induction fs generalizing f with
  | nil => rfl
  | cons g gs ih =>
    simp only [disjunction, List.foldl_cons, List.map_cons] at ih ⊢
    rw [ih, disj, weight_binary]

end Formula

namespace Law

open Formula

variable {b : Basis} {f g : Formula} {law : Law}

theorem weight_expand_lt (op : BinaryOp) (l r : Formula)
    (h : b.allows (.binary op) = false) :
    (expand l r op).2.weight b < (binary op l r).weight b := by
  have hl := weight_neg_le (b := b) l
  have hr := weight_neg_le (b := b) r
  cases op <;> cases b <;> simp only [Basis.allows] at h <;>
    simp [expand, conj, disj, impl, weight_binary, weight_neg_binary, Basis.opWeight,
      Basis.absorbs, Basis.negWeight] at h hl hr ⊢ <;> omega

theorem weight_absorb_lt (h : absorb b f = some (law, g)) : g.weight b < (neg f).weight b := by
  unfold absorb at h
  split at h <;> cases h
  · simp [weight_neg_binary, weight_binary, Basis.absorbs, Basis.opWeight]
  · rename_i hf
    rw [weight_neg f fun op l r h => by cases op <;> simp_all [Basis.absorbs], weight_binary]
    simp [Basis.opWeight, Basis.negWeight]
  · simp [weight_neg_binary, weight, Basis.absorbs, Basis.allows]
  · rename_i hf
    rw [weight_neg f fun op l r h => by cases op <;> simp_all [Basis.absorbs]]
    simp [weight, Basis.allows, Basis.negWeight]

theorem weight_reduce_lt (h : reduce? b f = some (law, g)) : g.weight b < f.weight b := by
  unfold reduce? at h
  split at h
  · cases h
  · rename_i hb
    split at h
    · cases h
    · exact weight_absorb_lt h
    · rename_i op l r
      have := weight_expand_lt op l r (by simpa [Formula.kind] using hb)
      rwa [Option.some.inj h] at this
    · rename_i first rest
      cases h
      have := weight_neg_le (b := b) (disjunction first rest)
      rw [weight_disjunction] at this
      simp_all only [Formula.kind, weight]
      simp only [Bool.false_eq_true, ↓reduceIte]
      omega

end Law

namespace Formula

variable {f g : Formula}

theorem le_foldl_max (weights : List Nat) (w : Nat) :
    w ≤ weights.foldl max w ∧ ∀ v ∈ weights, v ≤ weights.foldl max w := by
  induction weights generalizing w with
  | nil => simp
  | cons v vs ih =>
    obtain ⟨h, hs⟩ := ih (max w v)
    simp only [List.foldl_cons, List.mem_cons, forall_eq_or_imp]
    exact ⟨by omega, by omega, hs⟩

/-- Where no law applies every operand is lighter than the whole. -/
theorem weight_child_lt (h : Law.reduce? b f = none) (hg : g ∈ f.children) :
    g.weight b < f.weight b := by
  rw [Law.reduce?_eq_none_iff] at h
  cases f with
  | atom => simp [children] at hg
  | neg f =>
    simp only [children, List.mem_singleton] at hg
    subst hg
    have := b.negWeight_pos
    rw [weight_neg g fun op _ _ _ => Basis.absorbs_eq_false h op]
    omega
  | binary op l r =>
    have := b.opWeight_pos op
    rw [weight_binary]
    simp only [children, List.mem_cons, List.not_mem_nil, or_false] at hg
    rcases hg with rfl | rfl <;> omega
  | nor first rest =>
    obtain ⟨hfirst, hrest⟩ := le_foldl_max (rest.map (weight b)) (first.weight b)
    simp only [kind] at h
    rw [weight, if_pos h]
    rcases List.mem_cons.mp hg with rfl | hg
    · omega
    · have := hrest _ (List.mem_map_of_mem hg)
      omega

end Formula

end Propositional
